import Codegen.Proofs.Allocation.Scan
import Codegen.Proofs.Bounds

/-!
Allocation stays within bounds. The tables of taken registers have a fixed size, and a register is
looked up in them only if it may be handed out; in a universe that passes its check, the registers
that may be handed out are no more than the tables have room for.
-/
namespace Codegen

open Checked (InBounds)

/-- What a universe that passes its check guarantees of its numbers. -/
structure Universe.Sized (u : Universe) : Prop where
  nonneg : 0 ≤ u.allocable
  listed : u.allocable ≤ u.regs.length
  room : u.regs.length ≤ maxRegs
  general : ∀ range, u.i64 = some range → InBounds (u.entries range)
  vector : ∀ range, u.v128 = some range → InBounds (u.entries range)

namespace Universe

variable {u : Universe}

theorem checkRange_eq_ok {c : RegClass} {range : Option ClassRange} {n : Int}
    (h : u.checkRange c range = .ok n) :
    0 ≤ n ∧ ∀ r, range = some r → InBounds (u.entries r) := by
  cases range with
  | none =>
      cases h
      exact ⟨Int.le_refl 0, fun r hr => by cases hr⟩
  | some r =>
      simp only [checkRange, Checked.refuse_bind, Checked.ite_refuse_eq_ok,
        Checked.bind_eq_ok] at h
      obtain ⟨hrange, infos, hinfos, ⟨⟩, _, hn⟩ := h
      cases hn
      refine ⟨by omega, fun s hs => ?_⟩
      cases hs
      rw [hinfos]
      exact Checked.inBounds_ok infos

theorem sized_of_check (h : u.check = .ok ()) : u.Sized := by
  simp only [check, Checked.refuse_bind, Checked.ite_refuse_eq_ok, Checked.bind_eq_ok] at h
  obtain ⟨hroom, hlisted, ⟨⟩, _, general, hgeneral, vector, hvector, hcovered, _⟩ := h
  obtain ⟨hgeneralCount, hgeneralEntries⟩ := checkRange_eq_ok hgeneral
  obtain ⟨hvectorCount, hvectorEntries⟩ := checkRange_eq_ok hvector
  exact
    { nonneg := by omega
      listed := by omega
      room := by omega
      general := hgeneralEntries
      vector := hvectorEntries }

theorem inBounds_allocableRegs (h : u.Sized) {r : Reg} (hr : r.isValid = true) :
    InBounds (u.allocableRegs r.cls) := by
  have hrange : ∃ found, u.range r.cls = .ok found ∧
      ∀ s, found = some s → InBounds (u.entries s) := by
    rcases isValid_iff.mp hr with hcls | hcls
    · rw [hcls]
      exact ⟨u.i64, u.range_general, h.general⟩
    · rw [hcls]
      exact ⟨u.v128, u.range_vector, h.vector⟩
  obtain ⟨found, hfound, hentries⟩ := hrange
  rw [allocableRegs, hfound, Checked.ok_bind]
  cases found with
  | none => exact Checked.inBounds_ok []
  | some s => simp [hentries s rfl]

theorem inBounds_leading (h : u.Sized) : InBounds u.leading := by
  have hnonneg := h.nonneg
  have hlisted := h.listed
  rw [leading, if_neg (by omega)]
  exact Checked.inBounds_ok _

end Universe

namespace Allocation

/-- The paged storage of the intervals: the number of pages, and how much of the last one is
taken. -/
structure Arena where
  pages : Nat
  taken : Nat

namespace Arena

def pageSize : Nat := 128

def empty : Arena := { pages := 0, taken := pageSize }

/-- Takes the next place of the last page, which is a new one if there is no room. -/
def allocate (a : Arena) : Checked Arena :=
  let a := if a.taken = pageSize then { pages := a.pages + 1, taken := 0 } else a
  if a.pages = 0 ∨ pageSize ≤ a.taken then .error .outOfBounds
  else .ok { a with taken := a.taken + 1 }

def allocateAll (a : Arena) : Nat → Checked Arena
  | 0 => .ok a
  | count + 1 => do (← a.allocate).allocateAll count

/-- The last page is full, or there is one with room. -/
def Sound (a : Arena) : Prop := a.taken = pageSize ∨ 0 < a.pages ∧ a.taken < pageSize

theorem sound_empty : empty.Sound := .inl rfl

theorem Sound.allocate {a : Arena} (h : a.Sound) : ∃ b, a.allocate = .ok b ∧ b.Sound := by
  have hsize : 0 < pageSize := by decide
  unfold Sound at h ⊢
  unfold Arena.allocate
  by_cases hfull : a.taken = pageSize
  · simp only [if_pos hfull]
    rw [if_neg (by omega)]
    exact ⟨_, rfl, by dsimp only; omega⟩
  · simp only [if_neg hfull]
    rw [if_neg (by omega)]
    exact ⟨_, rfl, by dsimp only; omega⟩

theorem Sound.inBounds_allocateAll {a : Arena} (h : a.Sound) (count : Nat) :
    InBounds (a.allocateAll count) := by
  induction count generalizing a with
  | zero => exact Checked.inBounds_ok a
  | succ count ih =>
      obtain ⟨b, hb, hsound⟩ := h.allocate
      rw [allocateAll, hb, Checked.ok_bind]
      exact ih hsound

end Arena

variable {u : Universe}

theorem index_lt (h : u.Sized) {r : Reg} (hr : u.isAllocable r = true) :
    r.index.toNat < Universe.maxRegs := by
  have hlisted := h.listed
  have hroom := h.room
  simp only [Universe.isAllocable, decide_eq_true_eq] at hr
  omega

theorem index_lt_of_mem (hcheck : u.check = .ok ()) {info : RegInfo} (hinfo : info ∈ u.regs) :
    info.reg.index.toNat < Universe.maxRegs := by
  obtain ⟨n, hn⟩ := List.mem_iff_getElem?.mp hinfo
  have hindex := Universe.index_of_check hcheck hn
  have hlt := (List.getElem?_eq_some_iff.mp hn).1
  have hroom := (Universe.sized_of_check hcheck).room
  omega

theorem inBounds_has {m : Marks} {r : Reg} (h : r.index.toNat < Universe.maxRegs) :
    InBounds (m.has r) := by
  rw [Marks.has_eq h]
  exact Checked.inBounds_ok _

theorem inBounds_ofList {rs : List Reg} (h : ∀ r ∈ rs, r.index.toNat < Universe.maxRegs) :
    InBounds (Marks.ofList rs) := by
  obtain ⟨m, hm⟩ := Marks.exists_ofList h
  rw [hm]
  exact Checked.inBounds_ok m

variable {ctx : Setting}

theorem inBounds_inUse (h : ctx.target.Sized) {done : List Assigned}
    (hdone : ∀ a ∈ done, Fits ctx a) (pos : Nat) : InBounds (inUse done pos) := by
  refine inBounds_ofList fun r hr => ?_
  obtain ⟨a, ha, rfl⟩ := List.mem_map.mp hr
  exact index_lt h (hdone a (List.mem_filter.mp ha).1).allocable

theorem inBounds_pick (h : ctx.target.Sized) (taken : Marks) (it : Interval)
    (candidates : List Reg) : InBounds (pick ctx taken it candidates) := by
  induction candidates with
  | nil => exact Checked.inBounds_ok none
  | cons c rest ih =>
      simp only [pick]
      split
      · exact ih
      · rename_i hsuits
        have hallocable : ctx.target.isAllocable c = true := by
          by_contra hnot
          exact hsuits (.inr (by simpa using hnot))
        simp [inBounds_has (index_lt h hallocable), ih]

theorem inBounds_takenNames (hcheck : u.check = .ok ()) (taken : Marks) :
    InBounds (takenNames u taken) := by
  rw [takenNames, Checked.inBounds_bind]
  refine ⟨Checked.inBounds_mapM fun info hinfo => ?_, fun _ _ => Checked.inBounds_pure _⟩
  simp [inBounds_has (index_lt_of_mem hcheck hinfo)]

theorem inBounds_assignNext (hcheck : ctx.target.check = .ok ()) {done : List Assigned}
    (hdone : ∀ a ∈ done, Fits ctx a) (it : Interval) : InBounds (assignNext ctx done it) := by
  have hsized := Universe.sized_of_check hcheck
  simp only [assignNext, Checked.broken_bind, Checked.inBounds_ite, Checked.inBounds_broken,
    implies_true, true_and]
  intro hvalid
  have hvalid : it.reg.isValid = true := by simpa using hvalid
  rw [Checked.inBounds_bind]
  refine ⟨inBounds_inUse hsized hdone _, fun taken _ => ?_⟩
  rw [Checked.inBounds_bind]
  refine ⟨Universe.inBounds_allocableRegs hsized hvalid, fun preferred _ => ?_⟩
  rw [Checked.inBounds_bind]
  refine ⟨inBounds_pick hsized _ _ _, fun found _ => ?_⟩
  cases found with
  | some r => exact Checked.inBounds_ok r
  | none => simp [inBounds_takenNames hcheck]

/-- A whole scan: what was handed out fits, so the next step stays within bounds. -/
theorem inBounds_assignAll (hcheck : ctx.target.check = .ok ()) {done : List Assigned}
    (hdone : ∀ a ∈ done, Fits ctx a) (its : List Interval) :
    InBounds (assignAll ctx done its) := by
  induction its generalizing done with
  | nil => exact Checked.inBounds_ok done
  | cons it rest ih =>
      rw [assignAll, Checked.inBounds_bind]
      refine ⟨inBounds_assignNext hcheck hdone it, fun r hr => ih ?_⟩
      -- what the step hands out fits as well
      intro a ha
      rcases List.mem_append.mp ha with ha | ha
      · exact hdone a ha
      · rw [List.mem_singleton.mp ha]
        exact (assignNext_eq_ok hr).1

theorem inBounds_validate (u : Universe) (fixed : List Interval) (assigned : List Assigned) :
    InBounds (validate u fixed assigned) := by
  induction assigned with
  | nil => exact Checked.inBounds_ok ()
  | cons x rest ih =>
      rw [validate]
      split
      · exact Checked.inBounds_broken _
      · split
        · exact Checked.inBounds_broken _
        · exact ih

theorem inBounds_clobbers (hcheck : u.check = .ok ()) (m : RegMap) (g : Graph) :
    InBounds (clobbers u m g) := by
  have hsized := Universe.sized_of_check hcheck
  have hmarks : InBounds (Marks.ofList ((written m g).filter u.isAllocable)) :=
    inBounds_ofList fun r hr => index_lt hsized (List.mem_filter.mp hr).2
  have hleading : ∀ infos, u.leading = .ok infos → ∀ info ∈ infos,
      info.reg.index.toNat < Universe.maxRegs := by
    intro infos hinfos info hinfo
    simp only [Universe.leading] at hinfos
    split at hinfos
    · cases hinfos
    · cases hinfos
      exact index_lt_of_mem hcheck (List.mem_of_mem_take hinfo)
  simp only [clobbers, Checked.inBounds_bind, hmarks, Universe.inBounds_leading hsized, true_and]
  intro marks _ infos hinfos
  refine ⟨Checked.inBounds_mapM fun info hinfo => ?_, fun _ _ => Checked.inBounds_pure _⟩
  simp [inBounds_has (hleading infos hinfos info hinfo)]

/-- Allocation for a universe that passes its check, in a graph whose successors are blocks. -/
theorem inBounds_allocate (hcheck : u.check = .ok ()) {g : Graph} (hclosed : g.isClosed = true) :
    InBounds (allocate u g) := by
  have hliveness : InBounds (liveness u g) := by
    rw [liveness, if_pos hclosed]
    exact Checked.inBounds_ok _
  have hscan : ∀ ctx : Setting, ctx.target = u → ∀ its, InBounds (assignAll ctx [] its) := by
    intro ctx htarget its
    exact inBounds_assignAll (htarget ▸ hcheck) (fun a ha => absurd ha List.not_mem_nil) its
  simp only [allocate, Checked.inBounds_bind, hliveness, true_and]
  intro entries _
  refine ⟨hscan _ rfl _, fun assigned _ => ?_⟩
  refine ⟨inBounds_validate u _ assigned, fun _ _ => ?_⟩
  exact ⟨inBounds_clobbers hcheck _ g, fun _ _ => Checked.inBounds_pure _⟩

end Allocation

end Codegen
