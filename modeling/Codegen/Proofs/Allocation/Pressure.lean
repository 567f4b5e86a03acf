import Codegen.Proofs.Allocation.Bounds
import Codegen.Proofs.Allocation.LiveInterval
import Mathlib.Data.List.Nodup

/-!
Allocation is refused only under real pressure.

In a graph that fixes no register that may be handed out, the scan fails exactly if some position is
in more live intervals of a class than the class has registers. The scan goes through the intervals
by first position, so the intervals that hold a register when it fails all cover the position at
which the next one begins; and when it succeeds, the intervals that cover a position hold different
registers of their class, whatever registers moves made it try first.
-/
namespace Codegen.Allocation

/-- Virtual registers have a class, and physical registers are none that may be handed out. -/
structure Unfixed (u : Universe) (g : Graph) : Prop where
  closed : g.isClosed = true
  classed : ∀ i ∈ g.insts, ∀ r ∈ i.mentioned, r.isVirtual = true → r.isValid = true
  free : ∀ i ∈ g.insts, ∀ r ∈ i.mentioned, r.isPhysical = true → u.isAllocable r = false

/-- Some position is in the live intervals of more than `limit` virtual registers of the class. -/
def Crowded (g : Graph) (c : RegClass) (limit : Nat) : Prop :=
  ∃ pos, ∃ vs : List Reg, vs.Nodup ∧ limit < vs.length ∧
    ∀ v ∈ vs, v.isVirtual = true ∧ v.cls = c ∧ LiveOver g v pos

/-- The request is refused because no register is left. -/
def Exhausted {α : Type} (x : Checked α) : Prop :=
  ∃ c v first last names, x = refuse (.exhausted c v first last names)

section Step

variable {u : Universe} {ctx : Setting} {done : List Assigned} {it : Interval}

/-- The indices that are marked are those of registers held by intervals that have not ended. -/
theorem exists_inUse (h : ctx.target.Sized) (hdone : ∀ a ∈ done, Fits ctx a) (pos : Nat) :
    ∃ taken, inUse done pos = .ok taken ∧ ∀ n, n ∈ taken ↔
      ∃ a ∈ done, pos ≤ a.interval.span.last ∧ a.phys.index.toNat = n := by
  have hlt : ∀ r ∈ (done.filter fun a => pos ≤ a.interval.span.last).map (·.phys),
      r.index.toNat < Universe.maxRegs := by
    intro r hr
    obtain ⟨a, ha, rfl⟩ := List.mem_map.mp hr
    exact index_lt h (hdone a (List.mem_filter.mp ha).1).allocable
  obtain ⟨taken, htaken⟩ := Marks.exists_ofList hlt
  refine ⟨taken, htaken, fun n => ?_⟩
  simp only [Marks.mem_of_ofList htaken, List.mem_map, List.mem_filter, decide_eq_true_eq]
  constructor
  · rintro ⟨_, ⟨a, ⟨ha, hlast⟩, rfl⟩, hindex⟩
    exact ⟨a, ha, hlast, hindex⟩
  · rintro ⟨a, ha, hlast, hindex⟩
    exact ⟨a.phys, ⟨a, ⟨ha, hlast⟩, rfl⟩, hindex⟩

theorem exists_takenNames (hcheck : u.check = .ok ()) (taken : Marks) :
    ∃ names, takenNames u taken = .ok names := by
  have hmarked : (u.regs.mapM fun info =>
      (do return (← taken.has info.reg, info.name) : Checked (Bool × String))) =
      .ok (u.regs.map fun info => (decide (info.reg.index.toNat ∈ taken), info.name)) := by
    refine Checked.mapM_eq_map fun info hinfo => ?_
    rw [Marks.has_eq (index_lt_of_mem hcheck hinfo)]
    rfl
  rw [takenNames, hmarked]
  exact ⟨_, rfl⟩

theorem exists_pick (h : ctx.target.Sized) (taken : Marks) (it : Interval)
    (candidates : List Reg) :
    ∃ found, pick ctx taken it candidates = .ok found := by
  induction candidates with
  | nil => exact ⟨none, rfl⟩
  | cons c rest ih =>
      simp only [pick]
      split
      · exact ih
      · rename_i hsuits
        have hallocable : ctx.target.isAllocable c = true := by
          by_contra hnot
          exact hsuits (.inr (by simpa using hnot))
        rw [Marks.has_eq (index_lt h hallocable), Checked.ok_bind]
        split
        · exact ih
        · exact ⟨some c, rfl⟩

/-- If no register is fixed, the candidates that do not serve are taken. -/
theorem pick_eq_none (h : ctx.target.Sized) (hfixed : ctx.fixed = []) {taken : Marks}
    {candidates : List Reg} (hnone : pick ctx taken it candidates = .ok none) {r : Reg}
    (hr : r ∈ candidates) (hcls : r.cls = it.reg.cls)
    (hallocable : ctx.target.isAllocable r = true) : r.index.toNat ∈ taken := by
  induction candidates with
  | nil => cases hr
  | cons c rest ih =>
      simp only [pick] at hnone
      rcases List.mem_cons.mp hr with rfl | hrest
      · rw [if_neg (by simp [hcls, hallocable]), Marks.has_eq (index_lt h hallocable),
          Checked.ok_bind] at hnone
        by_contra hnot
        have hoccupied : occupied? ctx.fixed r it.span = none := by rw [hfixed]; rfl
        rw [if_neg (by simp [hnot, hoccupied])] at hnone
        cases hnone
      · split at hnone
        · exact ih hnone hrest
        · obtain ⟨n, _, hnone⟩ := Checked.bind_eq_ok.mp hnone
          split at hnone
          · exact ih hnone hrest
          · cases hnone

/-- One step of the scan: it hands out a register, or all registers of the class are held by
intervals that have not ended. -/
theorem assignNext_outcome (hcheck : ctx.target.check = .ok ()) (hfixed : ctx.fixed = [])
    (hdone : ∀ a ∈ done, Fits ctx a) (hvalid : it.reg.isValid = true) :
    (∃ r, assignNext ctx done it = .ok r) ∨
      Exhausted (assignNext ctx done it) ∧
        ∀ rs, ctx.target.allocableRegs it.reg.cls = .ok rs → ∀ r ∈ rs,
          ∃ a ∈ done, it.span.first ≤ a.interval.span.last ∧ a.phys.index = r.index := by
  have hsized := Universe.sized_of_check hcheck
  obtain ⟨rs, hrs⟩ := Universe.exists_allocableRegs hcheck hvalid
  obtain ⟨taken, huse, hheld⟩ := exists_inUse hsized hdone it.span.first
  obtain ⟨found, hfound⟩ := exists_pick hsized taken it (hints ctx.moves done it.reg ++ rs)
  have hclass : ¬ (!it.reg.isValid) = true := by simp [hvalid]
  simp only [assignNext, if_neg hclass, huse, hrs, hfound, Checked.ok_bind]
  cases found with
  | some r => exact .inl ⟨r, rfl⟩
  | none =>
      obtain ⟨names, hnames⟩ := exists_takenNames hcheck taken
      refine .inr ⟨⟨_, _, _, _, names, by rw [hnames, Checked.ok_bind]⟩, ?_⟩
      intro rs' hrs' r hr
      cases hrs'
      obtain ⟨_, hallocable, hcls⟩ := (Universe.mem_allocableRegs_iff hcheck hrs).mp hr
      have htaken := pick_eq_none hsized hfixed hfound (List.mem_append_right _ hr) hcls hallocable
      obtain ⟨a, ha, hlast, hindex⟩ := (hheld _).mp htaken
      exact ⟨a, ha, hlast, UInt32.toNat_inj.mp hindex⟩

/-- A whole scan: it assigns every interval, or it ends at one for which nothing is left. -/
theorem assignAll_outcome (hcheck : ctx.target.check = .ok ()) (hfixed : ctx.fixed = [])
    {its : List Interval} (hdone : ∀ a ∈ done, Fits ctx a)
    (hvalid : ∀ it ∈ its, it.reg.isValid = true) :
    (∃ out, assignAll ctx done its = .ok out) ∨
      Exhausted (assignAll ctx done its) ∧ ∃ front it rest held, its = front ++ it :: rest ∧
        assignAll ctx done front = .ok held ∧ Exhausted (assignNext ctx held it) := by
  induction its generalizing done with
  | nil => exact .inl ⟨done, rfl⟩
  | cons it rest ih =>
      rcases assignNext_outcome hcheck hfixed hdone (hvalid it List.mem_cons_self) with
        ⟨r, hr⟩ | ⟨hexhausted, _⟩
      · have hstep : ∀ its, assignAll ctx done (it :: its) =
            assignAll ctx (done ++ [⟨it, r⟩]) its := by
          intro its
          rw [assignAll, hr, Checked.ok_bind]
        have hfits : ∀ a ∈ done ++ [⟨it, r⟩], Fits ctx a := by
          intro a ha
          rcases List.mem_append.mp ha with ha | ha
          · exact hdone a ha
          · rw [List.mem_singleton.mp ha]
            exact (assignNext_eq_ok hr).1
        rw [hstep]
        rcases ih hfits fun it' hit' => hvalid it' (List.mem_cons_of_mem it hit') with
          hok | ⟨hexhausted, front, it', back, held, rfl, hheld, hnext⟩
        · exact .inl hok
        · exact .inr ⟨hexhausted, it :: front, it', back, held, rfl, by rw [hstep, hheld], hnext⟩
      · refine .inr ⟨?_, [], it, rest, done, rfl, rfl, hexhausted⟩
        obtain ⟨c, v, first, last, names, hrefused⟩ := hexhausted
        exact ⟨c, v, first, last, names, by rw [assignAll, hrefused, Checked.refuse_bind]⟩

theorem validate_eq_ok {fixed : List Interval} {assigned : List Assigned}
    (hapart : assigned.Pairwise Apart)
    (hfree : ∀ a ∈ assigned, occupied? fixed a.phys a.interval.span = none) :
    validate u fixed assigned = .ok () := by
  induction assigned with
  | nil => rfl
  | cons x rest ih =>
      obtain ⟨hx, hrest⟩ := List.pairwise_cons.mp hapart
      have hconflict : conflict? x rest = none := by
        refine List.find?_eq_none.mpr fun y hy => ?_
        have hy := hx y (List.takeWhile_subset _ hy)
        rw [Bool.and_eq_true, decide_eq_true_eq]
        rintro ⟨hphys, hmeets⟩
        exact hy hmeets hphys
      simp only [validate, hconflict, hfree x List.mem_cons_self]
      exact ih hrest fun a ha => hfree a (List.mem_cons_of_mem x ha)

/-- The registers that are listed: the first ones of the table that have the index of one that is
written. -/
theorem clobbers_eq (hcheck : u.check = .ok ()) (m : RegMap) (g : Graph) :
    clobbers u m g = .ok (((u.regs.take u.allocable.toNat).map (·.reg)).filter fun r =>
      (((written m g).filter u.isAllocable).map (·.index.toNat)).contains r.index.toNat) := by
  have hsized := Universe.sized_of_check hcheck
  have hnonneg := hsized.nonneg
  have hlisted := hsized.listed
  have hlt : ∀ r ∈ (written m g).filter u.isAllocable, r.index.toNat < Universe.maxRegs :=
    fun r hr => index_lt hsized (List.mem_filter.mp hr).2
  obtain ⟨marks, hmarks⟩ := Marks.exists_ofList hlt
  have hleading : u.leading = .ok (u.regs.take u.allocable.toNat) := by
    rw [Universe.leading, if_neg (by omega)]
  have hcontains : ∀ n, decide (n ∈ marks) =
      (((written m g).filter u.isAllocable).map (·.index.toNat)).contains n := by
    intro n
    rw [List.contains_eq_mem, decide_eq_decide, Marks.mem_of_ofList hmarks, List.mem_map]
  rw [clobbers, hmarks, Checked.ok_bind, hleading, Checked.ok_bind]
  generalize ((written m g).filter u.isAllocable).map (·.index.toNat) = indices at hcontains
  have hmarked : ((u.regs.take u.allocable.toNat).mapM fun info =>
      (do return (← marks.has info.reg, info.reg) : Checked (Bool × Reg))) =
      .ok ((u.regs.take u.allocable.toNat).map fun info =>
        (indices.contains info.reg.index.toNat, info.reg)) := by
    refine Checked.mapM_eq_map fun info hinfo => ?_
    rw [Marks.has_eq (index_lt_of_mem hcheck (List.mem_of_mem_take hinfo)), hcontains]
    rfl
  rw [hmarked, Checked.ok_bind, List.filter_map, List.filter_map, List.map_map]
  rfl

theorem exists_scan (g : Graph) (hcheck : ctx.target.check = .ok ()) {its : List Interval}
    {assigned : List Assigned} (h : assignAll ctx [] its = .ok assigned) :
    ∃ result, scan ctx.target ctx.moves ctx.fixed its g = .ok result := by
  have hvalidate : validate ctx.target ctx.fixed assigned = .ok () :=
    validate_eq_ok (assignAll_apart h) fun a ha => (assignAll_fits h a ha).free
  rw [scan, h, Checked.ok_bind, hvalidate, Checked.ok_bind]
  dsimp only
  rw [clobbers_eq hcheck]
  exact ⟨_, rfl⟩

theorem exhausted_scan (g : Graph) {its : List Interval} (h : Exhausted (assignAll ctx [] its)) :
    Exhausted (scan ctx.target ctx.moves ctx.fixed its g) := by
  obtain ⟨c, v, first, last, names, hrefused⟩ := h
  exact ⟨c, v, first, last, names, by rw [scan, hrefused, Checked.refuse_bind]⟩

end Step

section Order

variable (occs : List Occurrence)

theorem nodup_intervals : ((intervals (hulls occs)).map (·.reg)).Nodup := by
  have hperm := (List.mergeSort_perm ((hulls occs).filter (·.reg.isVirtual)) fun a b =>
    decide (a.span.first ≤ b.span.first)).map (·.reg)
  refine hperm.nodup_iff.mpr (List.pairwise_map.mpr ?_)
  refine ((hulls_ascending occs).filter _).imp fun {a b} hlt heq => ?_
  rw [heq] at hlt
  exact Nat.lt_irrefl _ hlt

theorem pairwise_first_intervals :
    (intervals (hulls occs)).Pairwise fun a b => a.span.first ≤ b.span.first := by
  refine (pairwise_before_mergeSort ((hulls_ascending occs).filter _)).imp ?_
  rintro a b (hlt | ⟨heq, _⟩)
  · exact Nat.le_of_lt hlt
  · exact Nat.le_of_eq heq

end Order

theorem first_le_last_of_hull? {occs : List Occurrence} {r : Reg} {s : Span}
    (h : hull? occs r = some s) : s.first ≤ s.last := by
  obtain ⟨hfirst, _, hall⟩ := spanOf_eq_some.mp h
  exact (hall _ hfirst).2

section Scan

variable {u : Universe} {g : Graph} {entries : List RegSet} (hg : Unfixed u g)
  (hlive : liveness u g = .ok entries)

include hg hlive

theorem fixedHulls_eq_nil : fixedHulls (hulls (occurrences u g entries)) = [] := by
  refine List.filter_eq_nil_iff.mpr fun it hit hphys => ?_
  obtain ⟨ht, hoccurs⟩ := (mem_occurrences_iff hlive).mp (mem_of_hull? (mem_hulls.mp hit)).1
  obtain ⟨i, hi, hr⟩ := hoccurs.exists_operand
  have hfree := hg.free i hi it.reg (List.mem_append_left _ (List.mem_append.mpr hr)) hphys
  have hvirtual : it.reg.isVirtual = false := by simpa [Reg.isPhysical] using hphys
  simp [tracked, hvirtual, hfree] at ht

theorem isValid_of_mem_intervals {it : Interval}
    (h : it ∈ intervals (hulls (occurrences u g entries))) : it.reg.isValid = true := by
  obtain ⟨hhull, hvirtual⟩ := mem_intervals.mp h
  obtain ⟨_, hoccurs⟩ := (mem_occurrences_iff hlive).mp (mem_of_hull? hhull).1
  obtain ⟨i, hi, hr⟩ := hoccurs.exists_operand
  exact hg.classed i hi it.reg (List.mem_append_left _ (List.mem_append.mpr hr)) hvirtual

omit hg in
theorem liveOver_of_mem_intervals {it : Interval} {pos : Nat}
    (h : it ∈ intervals (hulls (occurrences u g entries))) (hfirst : it.span.first ≤ pos)
    (hlast : pos ≤ it.span.last) : it.reg.isVirtual = true ∧ LiveOver g it.reg pos := by
  obtain ⟨hhull, hvirtual⟩ := mem_intervals.mp h
  exact ⟨hvirtual, ((covers_iff hlive).mp ⟨it.span, hhull, hfirst, hlast⟩).2⟩

omit hlive in
/-- Everything that is handed out is in the table: the moves offer nothing that may be handed
out. -/
theorem known_of_assigned {occs : List Occurrence} {its : List Interval} {out : List Assigned}
    (h : assignAll (settingOf u g occs) [] its = .ok out) {a : Assigned} (ha : a ∈ out) :
    u.Known a.phys := by
  refine assignAll_source (P := fun r => u.isAllocable r = true → u.Known r) ?_ ?_ h a ha
    (assignAll_fits h a ha).allocable
  · intro m hm r hside hphys hallocable
    obtain ⟨i, hi, hmove⟩ := List.mem_filterMap.mp hm
    have hmem : r ∈ i.mentioned := by
      refine List.mem_append_right _ ?_
      rw [hmove]
      simpa using hside
    rw [hg.free i hi r hmem hphys] at hallocable
    cases hallocable
  · intro r hr _
    exact hr

section Refused

variable {front rest : List Interval} {it : Interval} {held : List Assigned}
  (hsplit : intervals (hulls (occurrences u g entries)) = front ++ it :: rest)
  (hscan : assignAll (settingOf u g (occurrences u g entries)) [] front = .ok held)

include hsplit hscan

/-- If nothing is left for an interval, every register of its class is held by an interval that has
not ended. -/
theorem exists_holder (hcheck : u.check = .ok ())
    (hnext : Exhausted (assignNext (settingOf u g (occurrences u g entries)) held it))
    {rs : List Reg} (hrs : u.allocableRegs it.reg.cls = .ok rs) {r : Reg} (hr : r ∈ rs) :
    ∃ a ∈ held, it.span.first ≤ a.interval.span.last ∧ a.phys = r := by
  have hit : it ∈ intervals (hulls (occurrences u g entries)) :=
    hsplit ▸ List.mem_append_right _ List.mem_cons_self
  rcases assignNext_outcome hcheck (fixedHulls_eq_nil hg hlive) (assignAll_fits hscan)
    (isValid_of_mem_intervals hg hlive hit) with ⟨p, hp⟩ | ⟨_, hall⟩
  · obtain ⟨c, v, first, last, names, hrefused⟩ := hnext
    rw [hp] at hrefused
    cases hrefused
  · obtain ⟨a, ha, hlast, hindex⟩ := hall rs hrs r hr
    have hknown := ((Universe.mem_allocableRegs_iff hcheck hrs).mp hr).1
    exact ⟨a, ha, hlast,
      Universe.eq_of_index_eq hcheck (known_of_assigned hg hscan ha) hknown hindex⟩

omit hg in
/-- An interval that came before and has not ended covers the position at which the next one
begins. -/
theorem liveOver_of_held {a : Assigned} (ha : a ∈ held)
    (hlast : it.span.first ≤ a.interval.span.last) :
    a.interval.reg.isVirtual = true ∧ LiveOver g a.interval.reg it.span.first := by
  have hfront : held.map (·.interval) = front := assignAll_intervals hscan
  have hearlier : a.interval ∈ front := hfront ▸ List.mem_map_of_mem ha
  have hsorted := pairwise_first_intervals (occurrences u g entries)
  rw [hsplit, List.pairwise_append] at hsorted
  have hfirst := hsorted.2.2 a.interval hearlier it List.mem_cons_self
  exact liveOver_of_mem_intervals hlive (hsplit ▸ List.mem_append_left _ hearlier) hfirst hlast

omit hg hlive in
theorem nodup_held : (it.reg :: held.map (·.interval.reg)).Nodup := by
  have hfront : held.map (·.interval.reg) = front.map (·.reg) := by
    have hintervals : held.map (·.interval) = front := assignAll_intervals hscan
    rw [← hintervals, List.map_map]
    rfl
  have hnodup := nodup_intervals (occurrences u g entries)
  rw [hsplit, List.map_append, List.map_cons, List.nodup_append] at hnodup
  obtain ⟨hbefore, _, hapart⟩ := hnodup
  rw [hfront]
  refine List.nodup_cons.mpr ⟨fun hreg => ?_, hbefore⟩
  exact hapart it.reg hreg it.reg List.mem_cons_self rfl

/-- An interval for which nothing is left begins where all registers of its class are held. -/
theorem crowded_of_exhausted (hcheck : u.check = .ok ())
    (hnext : Exhausted (assignNext (settingOf u g (occurrences u g entries)) held it))
    {rs : List Reg} (hrs : u.allocableRegs it.reg.cls = .ok rs) :
    Crowded g it.reg.cls rs.length := by
  -- the intervals of the class that have not ended, each with a register of its own
  generalize hactive : (held.filter fun a =>
    it.span.first ≤ a.interval.span.last ∧ a.phys.cls = it.reg.cls) = active
  have hin : ∀ a, a ∈ active ↔
      a ∈ held ∧ it.span.first ≤ a.interval.span.last ∧ a.phys.cls = it.reg.cls := by
    intro a
    rw [← hactive, List.mem_filter, decide_eq_true_eq]
  have hsubset : rs ⊆ active.map (·.phys) := by
    intro r hr
    obtain ⟨a, ha, hlast, rfl⟩ := exists_holder hg hlive hsplit hscan hcheck hnext hrs hr
    have hcls := ((Universe.mem_allocableRegs_iff hcheck hrs).mp hr).2.2
    exact List.mem_map_of_mem ((hin a).mpr ⟨ha, hlast, hcls⟩)
  have hnodup := Universe.nodup_allocableRegs hcheck hrs
  have hcount := (List.subperm_of_subset hnodup hsubset).length_le
  refine ⟨it.span.first, it.reg :: active.map (·.interval.reg), ?_, ?_, ?_⟩
  · have hsublist : active.Sublist held := hactive ▸ List.filter_sublist
    exact ((hsublist.map _).cons_cons it.reg).nodup (nodup_held hsplit hscan)
  · rw [List.length_map] at hcount
    rw [List.length_cons, List.length_map]
    omega
  · intro v hv
    rcases List.mem_cons.mp hv with rfl | hv
    · have hit : it ∈ intervals (hulls (occurrences u g entries)) :=
        hsplit ▸ List.mem_append_right _ List.mem_cons_self
      have hnonempty := first_le_last_of_hull? (mem_intervals.mp hit).1
      obtain ⟨hvirtual, hover⟩ := liveOver_of_mem_intervals hlive hit (Nat.le_refl _) hnonempty
      exact ⟨hvirtual, rfl, hover⟩
    · obtain ⟨a, ha, rfl⟩ := List.mem_map.mp hv
      obtain ⟨hmember, hlast, hcls⟩ := (hin a).mp ha
      obtain ⟨hvirtual, hover⟩ := liveOver_of_held hlive hsplit hscan hmember hlast
      exact ⟨hvirtual, (assignAll_fits hscan a hmember).cls.symm.trans hcls, hover⟩

end Refused

/-- The registers that are handed out to intervals that share a position are different ones. -/
theorem not_crowded_of_scan {assigned : List Assigned} {c : RegClass} {rs : List Reg}
    (hcheck : u.check = .ok ())
    (hscan : assignAll (settingOf u g (occurrences u g entries)) []
      (intervals (hulls (occurrences u g entries))) = .ok assigned)
    (hrs : u.allocableRegs c = .ok rs) : ¬ Crowded g c rs.length := by
  rintro ⟨pos, vs, hnodup, hlt, hvs⟩
  have hcovers : ∀ v ∈ vs, Covers (occurrences u g entries) v pos := by
    intro v hv
    obtain ⟨hvirtual, _, hover⟩ := hvs v hv
    exact (covers_iff hlive).mpr ⟨by simp only [tracked, hvirtual, Bool.true_or], hover⟩
  have hdistinct : (vs.map (assignmentOf assigned).standIn).Nodup := by
    refine hnodup.map_on fun v hv v' hv' heq => ?_
    by_contra hne
    exact standIn_ne_of_covers hscan (hcovers v hv) (hcovers v' hv') hne heq
  have hsubset : vs.map (assignmentOf assigned).standIn ⊆ rs := by
    intro p hp
    obtain ⟨v, hv, rfl⟩ := List.mem_map.mp hp
    obtain ⟨hvirtual, hcls, _⟩ := hvs v hv
    obtain ⟨a, ha, hreg, _, hstand⟩ := standIn_of_covers hscan hvirtual (hcovers v hv)
    have hfits := assignAll_fits hscan a ha
    rw [hstand, Universe.mem_allocableRegs_iff hcheck hrs]
    exact ⟨known_of_assigned hg hscan ha, hfits.allocable, by rw [hfits.cls, hreg, hcls]⟩
  have hle := (List.subperm_of_subset hdistinct hsubset).length_le
  rw [List.length_map] at hle
  omega

end Scan

theorem allocate_eq_scan {u : Universe} {g : Graph} {entries : List RegSet}
    (h : liveness u g = .ok entries) :
    allocate u g = scan (settingOf u g (occurrences u g entries)).target
      (settingOf u g (occurrences u g entries)).moves
      (settingOf u g (occurrences u g entries)).fixed
      (intervals (hulls (occurrences u g entries))) g := by
  rw [allocate, h]
  rfl

/-- In a graph that fixes no register that may be handed out, allocation is refused exactly if some
position is in more live intervals of a class than the class has registers; otherwise it gives an
assignment. -/
theorem allocate_exhausted_iff {u : Universe} {g : Graph} (hcheck : u.check = .ok ())
    (hg : Unfixed u g) :
    (Exhausted (allocate u g) ↔
        ∃ c rs, u.allocableRegs c = .ok rs ∧ Crowded g c rs.length) ∧
      (Exhausted (allocate u g) ∨ ∃ result, allocate u g = .ok result) := by
  obtain ⟨entries, hlive⟩ : ∃ entries, liveness u g = .ok entries := by
    rw [liveness, if_pos hg.closed]
    exact ⟨_, rfl⟩
  have hallocate := allocate_eq_scan hlive
  have hfixed : (settingOf u g (occurrences u g entries)).fixed = [] := fixedHulls_eq_nil hg hlive
  rcases assignAll_outcome hcheck hfixed (fun a ha => absurd ha List.not_mem_nil)
    (fun it hit => isValid_of_mem_intervals hg hlive hit) with
    ⟨assigned, hscan⟩ | ⟨hexhausted, front, it, rest, held, hsplit, hheld, hnext⟩
  · obtain ⟨result, hresult⟩ := exists_scan g hcheck hscan
    rw [← hallocate] at hresult
    refine ⟨⟨?_, ?_⟩, .inr ⟨result, hresult⟩⟩
    · rintro ⟨c, v, first, last, names, hrefused⟩
      rw [hresult] at hrefused
      cases hrefused
    · rintro ⟨c, rs, hrs, hcrowded⟩
      exact absurd hcrowded (not_crowded_of_scan hg hlive hcheck hscan hrs)
  · have hrefused : Exhausted (allocate u g) := by
      rw [hallocate]
      exact exhausted_scan g hexhausted
    obtain ⟨rs, hrs⟩ := Universe.exists_allocableRegs hcheck
      (isValid_of_mem_intervals hg hlive (hsplit ▸ List.mem_append_right _ List.mem_cons_self))
    have hcrowded := crowded_of_exhausted hg hlive hsplit hheld hcheck hnext hrs
    exact ⟨⟨fun _ => ⟨_, rs, hrs, hcrowded⟩, fun _ => hrefused⟩, .inl hrefused⟩

def vectorPair : Universe where
  regs := [⟨.physical .v128 0 0, "f0"⟩, ⟨.physical .v128 1 1, "f1"⟩, ⟨.physical .i64 0 2, "sp"⟩]
  allocable := 2
  i64 := none
  v128 := some { first := 0, last := 1 }

/-- Three vectors, one of them a copy of another, that are needed together. -/
def threeVectors : Graph :=
  [{ insts :=
      [{ writes := [.virtual .v128 1] },
       { reads := [.virtual .v128 1], writes := [.virtual .v128 2],
         move := some (.virtual .v128 2, .virtual .v128 1) },
       { reads := [.physical .i64 0 2], writes := [.virtual .v128 3] },
       { reads := [.virtual .v128 1, .virtual .v128 2, .virtual .v128 3] }]
     succs := [] }]

theorem allocate_exhausted_iff_threeVectors :
    vectorPair.check = .ok () ∧ Unfixed vectorPair threeVectors ∧
      Exhausted (allocate vectorPair threeVectors) := by
  have hcheck : vectorPair.check = .ok () := by decide
  have hg : Unfixed vectorPair threeVectors := ⟨by decide, by decide, by decide⟩
  have hregs : vectorPair.allocableRegs .v128 =
      .ok [.physical .v128 0 0, .physical .v128 1 1] := by decide
  have hover : ∀ v ∈ ([.virtual .v128 1, .virtual .v128 2, .virtual .v128 3] : List Reg),
      v.isVirtual = true ∧ v.cls = .v128 ∧ LiveOver threeVectors v 5 := by
    have hlast : ∀ v ∈ ([.virtual .v128 1, .virtual .v128 2, .virtual .v128 3] : List Reg),
        OccursAt threeVectors v 6 := fun v hv => .read (n := 0) (k := 3) rfl rfl hv
    intro v hv
    have hread := hlast v hv
    simp only [List.mem_cons, List.not_mem_nil, or_false] at hv
    rcases hv with rfl | rfl | rfl
    · exact ⟨rfl, rfl, 1, 6, .write (n := 0) (k := 0) rfl rfl List.mem_cons_self, hread,
        by decide, by decide⟩
    · exact ⟨rfl, rfl, 3, 6, .write (n := 0) (k := 1) rfl rfl List.mem_cons_self, hread,
        by decide, by decide⟩
    · exact ⟨rfl, rfl, 5, 6, .write (n := 0) (k := 2) rfl rfl List.mem_cons_self, hread,
        by decide, by decide⟩
  have hcrowded : Crowded threeVectors .v128 2 :=
    ⟨5, [.virtual .v128 1, .virtual .v128 2, .virtual .v128 3], by decide, by decide, hover⟩
  exact ⟨hcheck, hg, (allocate_exhausted_iff hcheck hg).1.mpr ⟨.v128, _, hregs, hcrowded⟩⟩

end Codegen.Allocation
