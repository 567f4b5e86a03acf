import Codegen.Allocation.Assignment
import Codegen.Proofs.Allocation.Hull
import Codegen.Proofs.Allocation.Marks
import Codegen.Proofs.Universe
import Mathlib.Data.List.Pairwise

/-!
The linear scan: what it hands out fits the interval and is apart from what it handed out before.

Everything is said of one step, `assignNext`, and carried over a scan by `assignAll_preserves`.
The outcome is that two registers whose hulls share a position never stand for one another's
register, whether they are virtual or physical. The final validation is not used.
-/
namespace Codegen

/-- The register that stands for `r` under an assignment; one without an entry stands for itself. -/
def RegMap.standIn (m : RegMap) (r : Reg) : Reg :=
  match m.apply r with
  | .ok p => p
  | .error _ => r

theorem RegMap.standIn_of_physical (m : RegMap) {r : Reg} (h : r.isPhysical = true) :
    m.standIn r = r := by
  simp only [standIn, apply, h, if_true]

theorem RegMap.standIn_of_get? {m : RegMap} {r p : Reg} (hv : r.isVirtual = true)
    (h : m.get? r = some p) : m.standIn r = p := by
  simp [standIn, apply, Reg.isPhysical, hv, h]

theorem RegMap.mem_of_get? {m : RegMap} {r p : Reg} (h : m.get? r = some p) :
    (r, p) ∈ m.entries := by
  obtain ⟨front, back, hsplit, _⟩ := List.lookup_eq_some_iff.mp h
  rw [hsplit]
  exact List.mem_append_right _ List.mem_cons_self

namespace Allocation

/-- What allocation does once the hulls and the order of the intervals are known. -/
def scan (u : Universe) (moves : List (Reg × Reg)) (fixed intervals : List Interval) (g : Graph) :
    Checked Result := do
  let assigned ← assignAll { target := u, moves, fixed } [] intervals
  validate u fixed assigned
  let assignment : RegMap := ⟨assigned.map fun a => (a.interval.reg, a.phys)⟩
  return { assignment, clobbered := ← clobbers u assignment g }

/-- The register is of the class of the interval, may be handed out, and is not live as itself
anywhere in the interval. -/
structure Fits (ctx : Setting) (a : Assigned) : Prop where
  cls : a.phys.cls = a.interval.reg.cls
  allocable : ctx.target.isAllocable a.phys = true
  free : occupied? ctx.fixed a.phys a.interval.span = none

/-- Intervals that share a position have different registers. -/
def Apart (a b : Assigned) : Prop :=
  a.interval.span.meets b.interval.span = true → a.phys ≠ b.phys

theorem Span.meets_iff {a b : Span} : a.meets b = true ↔ a.first ≤ b.last ∧ b.first ≤ a.last := by
  simp only [Span.meets, Bool.and_eq_true, decide_eq_true_eq]

theorem Span.meets_of_mem {a b : Span} {pos : Nat} (ha : a.first ≤ pos ∧ pos ≤ a.last)
    (hb : b.first ≤ pos ∧ pos ≤ b.last) : a.meets b = true :=
  Span.meets_iff.mpr ⟨by omega, by omega⟩

instance : Std.Symm Apart where
  symm a b h hmeets heq := by
    have hswap := Span.meets_iff.mp hmeets
    exact h (Span.meets_iff.mpr ⟨hswap.2, hswap.1⟩) heq.symm

variable {ctx : Setting}

theorem pick_eq_some {taken : Marks} {it : Interval} {candidates : List Reg} {r : Reg}
    (h : pick ctx taken it candidates = .ok (some r)) :
    r ∈ candidates ∧ Fits ctx ⟨it, r⟩ ∧ taken.has r = .ok false := by
  induction candidates with
  | nil => cases h
  | cons c rest ih =>
      have hlater : pick ctx taken it rest = .ok (some r) →
          r ∈ c :: rest ∧ Fits ctx ⟨it, r⟩ ∧ taken.has r = .ok false := by
        intro hrest
        obtain ⟨hmem, hfits⟩ := ih hrest
        exact ⟨List.mem_cons_of_mem c hmem, hfits⟩
      simp only [pick] at h
      split at h
      · exact hlater h
      · rename_i hsuits
        obtain ⟨held, hheld, h⟩ := Checked.bind_eq_ok.mp h
        split at h
        · exact hlater h
        · rename_i hfree
          cases h
          have hcls : r.cls = it.reg.cls := by
            by_contra hne
            exact hsuits (.inl hne)
          simp only [hcls, ne_eq, not_true_eq_false, false_or, Bool.not_eq_true', Bool.not_eq_false]
            at hsuits
          simp only [Bool.or_eq_true, not_or, Bool.not_eq_true, Option.isSome_eq_false_iff,
            Option.isNone_iff_eq_none] at hfree
          rw [hfree.1] at hheld
          exact ⟨List.mem_cons_self, ⟨hcls, hsuits, hfree.2⟩, hheld⟩

theorem has_of_inUse {done : List Assigned} {pos : Nat} {taken : Marks}
    (h : inUse done pos = .ok taken) {a : Assigned} (ha : a ∈ done)
    (hlast : pos ≤ a.interval.span.last) : taken.has a.phys = .ok true := by
  have hmem : a ∈ done.filter fun a => pos ≤ a.interval.span.last :=
    List.mem_filter.mpr ⟨ha, by simpa using hlast⟩
  exact Marks.has_of_ofList h (List.mem_map_of_mem hmem)

/-- One step of the scan: the register fits, it is apart from all that was handed out, and it comes
from a move or from the universe. -/
theorem assignNext_eq_ok {done : List Assigned} {it : Interval} {r : Reg}
    (h : assignNext ctx done it = .ok r) :
    Fits ctx ⟨it, r⟩ ∧ (∀ a ∈ done, Apart a ⟨it, r⟩) ∧
      (r ∈ hints ctx.moves done it.reg ∨
        ∃ rs, ctx.target.allocableRegs it.reg.cls = .ok rs ∧ r ∈ rs) := by
  simp only [assignNext, Checked.broken_bind, Checked.ite_broken_eq_ok] at h
  obtain ⟨taken, htaken, h⟩ := Checked.bind_eq_ok.mp h.2
  obtain ⟨preferred, hpreferred, h⟩ := Checked.bind_eq_ok.mp h
  obtain ⟨found, hfound, h⟩ := Checked.bind_eq_ok.mp h
  cases found with
  | none =>
      obtain ⟨names, _, hrefused⟩ := Checked.bind_eq_ok.mp h
      cases hrefused
  | some p =>
      cases h
      obtain ⟨hmem, hfits, hfree⟩ := pick_eq_some hfound
      refine ⟨hfits, fun a ha hmeets heq => ?_, ?_⟩
      · have hheld := has_of_inUse htaken ha (Span.meets_iff.mp hmeets).2
        have hsame : a.phys = r := heq
        rw [hsame, hfree] at hheld
        cases hheld
      · rcases List.mem_append.mp hmem with hhint | hpref
        · exact .inl hhint
        · exact .inr ⟨preferred, hpreferred, hpref⟩

theorem assignAll_preserves {P : List Assigned → Prop}
    (hstep : ∀ done it r, P done → assignNext ctx done it = .ok r → P (done ++ [⟨it, r⟩]))
    {done out : List Assigned} {its : List Interval} (hdone : P done)
    (h : assignAll ctx done its = .ok out) : P out := by
  induction its generalizing done with
  | nil =>
      cases h
      exact hdone
  | cons it rest ih =>
      obtain ⟨r, hr, h⟩ := Checked.bind_eq_ok.mp h
      exact ih (hstep done it r hdone hr) h

theorem assignAll_intervals {done out : List Assigned} {its : List Interval}
    (h : assignAll ctx done its = .ok out) :
    out.map (·.interval) = done.map (·.interval) ++ its := by
  induction its generalizing done with
  | nil =>
      cases h
      rw [List.append_nil]
  | cons it rest ih =>
      obtain ⟨r, _, h⟩ := Checked.bind_eq_ok.mp h
      rw [ih h, List.map_append, List.map_singleton, List.append_assoc, List.singleton_append]

theorem assignAll_fits {out : List Assigned} {its : List Interval}
    (h : assignAll ctx [] its = .ok out) : ∀ a ∈ out, Fits ctx a := by
  refine assignAll_preserves (P := fun done => ∀ a ∈ done, Fits ctx a) ?_
    (fun a ha => absurd ha List.not_mem_nil) h
  intro done it r hdone hr a ha
  rcases List.mem_append.mp ha with ha | ha
  · exact hdone a ha
  · rw [List.mem_singleton.mp ha]
    exact (assignNext_eq_ok hr).1

theorem assignAll_apart {out : List Assigned} {its : List Interval}
    (h : assignAll ctx [] its = .ok out) : out.Pairwise Apart := by
  refine assignAll_preserves (P := List.Pairwise Apart) ?_ List.Pairwise.nil h
  intro done it r hdone hr
  refine List.pairwise_append.mpr ⟨hdone, List.pairwise_singleton _ _, fun a ha b hb => ?_⟩
  rw [List.mem_singleton.mp hb]
  exact (assignNext_eq_ok hr).2.1 a ha

theorem mem_hints {moves : List (Reg × Reg)} {done : List Assigned} {v r : Reg}
    (h : r ∈ hints moves done v) :
    (∃ m ∈ moves, r = m.1 ∨ r = m.2) ∧ r.isPhysical = true ∨ ∃ a ∈ done, a.phys = r := by
  obtain ⟨⟨dst, src⟩, hmove, hr⟩ := List.mem_flatMap.mp h
  have hpartner : ∀ s, r ∈ partner done s →
      r = s ∧ r.isPhysical = true ∨ ∃ a ∈ done, a.phys = r := by
    intro s hs
    simp only [partner] at hs
    split at hs
    · rename_i hphys
      rw [List.mem_singleton.mp hs]
      exact .inl ⟨rfl, hphys⟩
    · simp only [Option.mem_toList, Option.map_eq_some_iff] at hs
      obtain ⟨a, ha, hphys⟩ := hs
      exact .inr ⟨a, List.mem_of_find?_eq_some ha, hphys⟩
  dsimp only at hr
  split at hr
  · rcases hpartner src hr with ⟨hsrc, hphys⟩ | hdone
    · exact .inl ⟨⟨_, hmove, .inr hsrc⟩, hphys⟩
    · exact .inr hdone
  · split at hr
    · rcases hpartner dst hr with ⟨hdst, hphys⟩ | hdone
      · exact .inl ⟨⟨_, hmove, .inl hdst⟩, hphys⟩
      · exact .inr hdone
    · cases hr

theorem assignAll_source {P : Reg → Prop} {out : List Assigned} {its : List Interval}
    (hmoves : ∀ m ∈ ctx.moves, ∀ r, r = m.1 ∨ r = m.2 → r.isPhysical = true → P r)
    (htable : ∀ r, ctx.target.Known r → P r) (h : assignAll ctx [] its = .ok out) :
    ∀ a ∈ out, P a.phys := by
  refine assignAll_preserves (P := fun done => ∀ a ∈ done, P a.phys) ?_
    (fun a ha => absurd ha List.not_mem_nil) h
  intro done it r hdone hr a ha
  rcases List.mem_append.mp ha with ha | ha
  · exact hdone a ha
  · rw [List.mem_singleton.mp ha]
    rcases (assignNext_eq_ok hr).2.2 with hhint | ⟨rs, hrs, hmem⟩
    · rcases mem_hints hhint with ⟨⟨m, hm, hside⟩, hphys⟩ | ⟨b, hb, hphys⟩
      · exact hmoves m hm r hside hphys
      · exact hphys ▸ hdone b hb
    · exact htable r (Universe.known_of_mem_allocableRegs hrs hmem)

end Allocation

end Codegen
