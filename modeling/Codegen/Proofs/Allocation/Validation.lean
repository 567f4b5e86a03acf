import Codegen.Proofs.Allocation.Pressure

/-!
Validation of an assignment is exact: it fails exactly if two intervals of the list that share a
position have one register, or an interval shares a position with the hull of its register.

For each interval the search goes through the later ones and ends at the first that begins too late.
Since the intervals are sorted by their first positions, those behind it begin too late as well, and
the search finds what it would find without that end (`conflict?_eq_find?`).

The scan may forget intervals in the same way. `assignActive` carries along only those that had not
ended where the last interval began, and hands out what `assignAll` does (`assignActive_eq`), so the
outcome of either passes.
-/
namespace Codegen.Allocation

def Span.Shares (a b : Span) : Prop :=
  ∃ pos, (a.first ≤ pos ∧ pos ≤ a.last) ∧ (b.first ≤ pos ∧ pos ≤ b.last)

theorem Span.shares_iff {a b : Span} :
    a.Shares b ↔ max a.first b.first ≤ min a.last b.last := by
  constructor
  · rintro ⟨pos, ha, hb⟩
    omega
  · intro h
    exact ⟨max a.first b.first, by omega, by omega⟩

instance (a b : Span) : Decidable (a.Shares b) := decidable_of_iff _ Span.shares_iff.symm

theorem Span.meets_iff_shares {a b : Span} (ha : a.first ≤ a.last) (hb : b.first ≤ b.last) :
    a.meets b = true ↔ a.Shares b := by
  rw [Span.meets_iff, Span.shares_iff]
  omega

def hullIn? (fixed : List Interval) (r : Reg) : Option Span :=
  (fixed.find? (·.reg = r)).map (·.span)

def Clash (x y : Assigned) : Prop :=
  x.phys = y.phys ∧ x.interval.span.Shares y.interval.span

instance (x y : Assigned) : Decidable (Clash x y) :=
  inferInstanceAs (Decidable (x.phys = y.phys ∧ x.interval.span.Shares y.interval.span))

/-- The interval shares a position with the hull of its register. -/
def Occupied (fixed : List Interval) (x : Assigned) : Prop :=
  ∃ hull, hullIn? fixed x.phys = some hull ∧ hull.Shares x.interval.span

/-- Two different intervals of the list clash, or one of them is occupied. -/
def Conflicted (fixed : List Interval) (assigned : List Assigned) : Prop :=
  (∃ i j : Fin assigned.length, i ≠ j ∧ Clash (assigned.get i) (assigned.get j)) ∨
    ∃ x ∈ assigned, Occupied fixed x

/-- The defect names an interval and a later one that clashes with it, or an interval and the hull
that occupies its register. -/
inductive Reported (u : Universe) (fixed : List Interval) (assigned : List Assigned) :
    Defect → Prop
  | shared {x y rest} : x :: rest <:+ assigned → y ∈ rest → Clash x y →
      Reported u fixed assigned
        (.sharedRegister x.interval.reg y.interval.reg (u.name x.phys))
  | occupied {x hull} : x ∈ assigned → hullIn? fixed x.phys = some hull →
      hull.Shares x.interval.span →
      Reported u fixed assigned
        (.occupiedRegister x.interval.reg (u.name x.phys) hull.first hull.last)

theorem Clash.symm {x y : Assigned} (h : Clash x y) : Clash y x := by
  obtain ⟨hphys, pos, hx, hy⟩ := h
  exact ⟨hphys.symm, pos, hy, hx⟩

section Exact

variable {u : Universe} {fixed : List Interval} {assigned : List Assigned} {x : Assigned}

theorem occupied?_eq_some {r : Reg} {s hull : Span} :
    occupied? fixed r s = some hull ↔ hullIn? fixed r = some hull ∧ hull.meets s = true := by
  simp only [occupied?, hullIn?]
  cases fixed.find? (·.reg = r) with
  | none => simp
  | some it =>
      simp only [Option.map_some, Option.some.injEq]
      constructor
      · intro h
        split at h
        · rename_i hmeets
          cases h
          exact ⟨rfl, hmeets⟩
        · cases h
      · rintro ⟨rfl, hmeets⟩
        rw [if_pos hmeets]

/-- A register is found occupied exactly if its hull shares a position with the interval. -/
theorem occupied?_iff_shares (hhulls : ∀ h ∈ fixed, h.span.first ≤ h.span.last)
    (hx : x.interval.span.first ≤ x.interval.span.last) {hull : Span} :
    occupied? fixed x.phys x.interval.span = some hull ↔
      hullIn? fixed x.phys = some hull ∧ hull.Shares x.interval.span := by
  rw [occupied?_eq_some]
  refine and_congr_right fun hhull => ?_
  obtain ⟨it, hit, rfl⟩ := Option.map_eq_some_iff.mp hhull
  exact Span.meets_iff_shares (hhulls it (List.mem_of_find?_eq_some hit)) hx

theorem and_meets_eq_clash {x y : Assigned} (hx : x.interval.span.first ≤ x.interval.span.last)
    (hy : y.interval.span.first ≤ y.interval.span.last) :
    (decide (x.phys = y.phys) && x.interval.span.meets y.interval.span) = decide (Clash x y) := by
  rw [Bool.eq_iff_iff, Bool.and_eq_true, decide_eq_true_eq, decide_eq_true_eq,
    Span.meets_iff_shares hx hy]
  rfl

/-- The end of the search skips no conflict: it finds the first interval that clashes. -/
theorem conflict?_eq_find? {rest : List Assigned}
    (hx : x.interval.span.first ≤ x.interval.span.last)
    (hspans : ∀ y ∈ rest, y.interval.span.first ≤ y.interval.span.last)
    (hsorted : rest.Pairwise fun y z => y.interval.span.first ≤ z.interval.span.first) :
    conflict? x rest = rest.find? fun y => Clash x y := by
  induction rest with
  | nil => rfl
  | cons y rest ih =>
      obtain ⟨hy, hspans⟩ := List.forall_mem_cons.mp hspans
      obtain ⟨hfirst, hsorted⟩ := List.pairwise_cons.mp hsorted
      by_cases hbegins : y.interval.span.first ≤ x.interval.span.last
      · have ih := ih hspans hsorted
        simp only [conflict?] at ih
        rw [conflict?, List.takeWhile_cons_of_pos (by simpa using hbegins), List.find?_cons,
          List.find?_cons, and_meets_eq_clash hx hy, ih]
      · rw [conflict?, List.takeWhile_cons_of_neg (by simpa using hbegins), List.find?_nil, eq_comm,
          List.find?_eq_none]
        intro z hz hclash
        obtain ⟨_, pos, hxpos, hzpos⟩ := of_decide_eq_true hclash
        -- everything from `y` on begins after `x` has ended
        have hlate : y.interval.span.first ≤ z.interval.span.first := by
          rcases List.mem_cons.mp hz with rfl | hz
          · exact Nat.le_refl _
          · exact hfirst z hz
        omega

-- Out of order, the search ends before an interval that clashes.
example : conflict? ⟨⟨.virtual .v128 1, ⟨0, 1⟩⟩, .physical .v128 0 0⟩
    [⟨⟨.virtual .v128 2, ⟨5, 6⟩⟩, .physical .v128 1 1⟩,
     ⟨⟨.virtual .v128 3, ⟨0, 1⟩⟩, .physical .v128 0 0⟩] = none := by
  decide

theorem validate_cons_eq_ok {rest : List Assigned} :
    validate u fixed (x :: rest) = .ok () ↔ conflict? x rest = none ∧
      occupied? fixed x.phys x.interval.span = none ∧ validate u fixed rest = .ok () := by
  rw [validate]
  cases conflict? x rest with
  | some y => simp
  | none =>
      cases occupied? fixed x.phys x.interval.span with
      | some hull => simp
      | none => simp

theorem Reported.cons {d : Defect} (h : Reported u fixed assigned d) :
    Reported u fixed (x :: assigned) d := by
  cases h with
  | shared hsuffix hy hclash => exact .shared (hsuffix.trans (List.suffix_cons x _)) hy hclash
  | occupied hmem hhull hshares => exact .occupied (List.mem_cons_of_mem x hmem) hhull hshares

theorem Reported.conflicted {d : Defect} (h : Reported u fixed assigned d) :
    Conflicted fixed assigned := by
  cases h with
  | @shared x y rest hsuffix hy hclash =>
      have hsome : ¬ assigned.Pairwise fun a b => ¬ Clash a b := by
        intro hnone
        have hlater := (List.pairwise_cons.mp (hnone.sublist hsuffix.sublist)).1
        exact hlater y hy hclash
      simp only [List.pairwise_iff_get, not_forall, not_not] at hsome
      obtain ⟨i, j, hlt, hclash⟩ := hsome
      exact .inl ⟨i, j, Fin.ne_of_lt hlt, hclash⟩
  | occupied hmem hhull hshares => exact .inr ⟨_, hmem, _, hhull, hshares⟩

section Outcome

variable (hhulls : ∀ h ∈ fixed, h.span.first ≤ h.span.last)
  (hspans : ∀ x ∈ assigned, x.interval.span.first ≤ x.interval.span.last)

include hhulls hspans

/-- Validation passes or reports a conflict, in whatever order the intervals are. -/
theorem validate_outcome (u : Universe) :
    validate u fixed assigned = .ok () ∨
      ∃ d, validate u fixed assigned = broken d ∧ Reported u fixed assigned d := by
  induction assigned with
  | nil => exact .inl rfl
  | cons x rest ih =>
      obtain ⟨hx, hrest⟩ := List.forall_mem_cons.mp hspans
      cases hconflict : conflict? x rest with
      | some y =>
          have hy : y ∈ rest := List.takeWhile_subset _ (List.mem_of_find?_eq_some hconflict)
          have hclash := List.find?_some hconflict
          rw [and_meets_eq_clash hx (hrest y hy), decide_eq_true_eq] at hclash
          exact .inr ⟨_, by simp only [validate, hconflict], .shared (List.suffix_refl _) hy hclash⟩
      | none =>
          cases hoccupied : occupied? fixed x.phys x.interval.span with
          | some hull =>
              obtain ⟨hhull, hshares⟩ := (occupied?_iff_shares hhulls hx).mp hoccupied
              exact .inr ⟨_, by simp only [validate, hconflict, hoccupied],
                .occupied List.mem_cons_self hhull hshares⟩
          | none =>
              simp only [validate, hconflict, hoccupied]
              rcases ih hrest with hok | ⟨d, hd, hreported⟩
              · exact .inl hok
              · exact .inr ⟨d, hd, hreported.cons⟩

variable (hsorted : assigned.Pairwise fun x y =>
  x.interval.span.first ≤ y.interval.span.first)

include hsorted

theorem not_clash_of_validate (h : validate u fixed assigned = .ok ()) :
    (assigned.Pairwise fun x y => ¬ Clash x y) ∧ ∀ x ∈ assigned, ¬ Occupied fixed x := by
  induction assigned with
  | nil => exact ⟨.nil, fun x hx => absurd hx List.not_mem_nil⟩
  | cons x rest ih =>
      obtain ⟨hx, hrest⟩ := List.forall_mem_cons.mp hspans
      have hlater := (List.pairwise_cons.mp hsorted).2
      obtain ⟨hconflict, hoccupied, h⟩ := validate_cons_eq_ok.mp h
      obtain ⟨hapart, hfree⟩ := ih hrest hlater h
      rw [conflict?_eq_find? hx hrest hlater, List.find?_eq_none] at hconflict
      refine ⟨List.pairwise_cons.mpr ⟨fun y hy hclash => ?_, hapart⟩,
        List.forall_mem_cons.mpr ⟨?_, hfree⟩⟩
      · exact hconflict y hy (decide_eq_true hclash)
      · rintro ⟨hull, hshared⟩
        rw [(occupied?_iff_shares hhulls hx).mpr hshared] at hoccupied
        cases hoccupied

theorem not_conflicted_of_validate (h : validate u fixed assigned = .ok ()) :
    ¬ Conflicted fixed assigned := by
  obtain ⟨hapart, hfree⟩ := not_clash_of_validate hhulls hspans hsorted h
  rw [List.pairwise_iff_get] at hapart
  rintro (⟨i, j, hne, hclash⟩ | ⟨x, hx, hoccupied⟩)
  · rcases Nat.lt_or_gt_of_ne (Fin.val_ne_of_ne hne) with hlt | hgt
    · exact hapart i j hlt hclash
    · exact hapart j i hgt hclash.symm
  · exact hfree x hx hoccupied

end Outcome

end Exact

section Active

variable {ctx : Setting} {done active : List Assigned}

/-- The register of the next interval, where `active` holds the intervals that have not ended. -/
def assignAmong (ctx : Setting) (done active : List Assigned) (it : Interval) : Checked Reg := do
  if !it.reg.isValid then broken (.classlessRegister it.reg)
  let taken ← Marks.ofList (active.map (·.phys))
  let preferred ← ctx.target.allocableRegs it.reg.cls
  match ← pick ctx taken it (hints ctx.moves done it.reg ++ preferred) with
  | some r => return r
  | none =>
    refuse (.exhausted it.reg.cls it.reg it.span.first it.span.last
      (← takenNames ctx.target taken))

/-- Assigns the intervals one after the other and drops those that have ended for good. -/
def assignActive (ctx : Setting) :
    List Assigned → List Assigned → List Interval → Checked (List Assigned)
  | done, _, [] => .ok done
  | done, active, it :: rest => do
    let live := active.filter fun a => it.span.first ≤ a.interval.span.last
    let r ← assignAmong ctx done live it
    assignActive ctx (done ++ [⟨it, r⟩]) (live ++ [⟨it, r⟩]) rest

/-- From a position on, the active intervals are all that have not ended. -/
def Tracks (active done : List Assigned) (pos : Nat) : Prop :=
  ∀ p, pos ≤ p → active.filter (fun a => p ≤ a.interval.span.last) =
    done.filter fun a => p ≤ a.interval.span.last

theorem assignAmong_eq {it : Interval}
    (h : active = done.filter fun a => it.span.first ≤ a.interval.span.last) :
    assignAmong ctx done active it = assignNext ctx done it := by
  subst h
  rfl

/-- One step: what it drops had ended, and what it adds is tracked. -/
theorem Tracks.step {pos next : Nat} (h : Tracks active done pos) (hle : pos ≤ next)
    (a : Assigned) :
    Tracks (active.filter (fun b => next ≤ b.interval.span.last) ++ [a]) (done ++ [a]) next := by
  intro p hp
  have hdropped : (active.filter fun b => next ≤ b.interval.span.last).filter
      (fun b => p ≤ b.interval.span.last) = active.filter fun b => p ≤ b.interval.span.last := by
    rw [List.filter_filter]
    refine List.filter_congr fun b _ => ?_
    rw [Bool.eq_iff_iff, Bool.and_eq_true, decide_eq_true_eq, decide_eq_true_eq]
    omega
  rw [List.filter_append, List.filter_append, hdropped, h p (Nat.le_trans hle hp)]

/-- A whole scan of sorted intervals: what was dropped would not have counted. -/
theorem assignActive_eq {its : List Interval} {pos : Nat} (htracks : Tracks active done pos)
    (hfrom : ∀ it ∈ its, pos ≤ it.span.first)
    (hsorted : its.Pairwise fun a b => a.span.first ≤ b.span.first) :
    assignActive ctx done active its = assignAll ctx done its := by
  induction its generalizing done active pos with
  | nil => rfl
  | cons it rest ih =>
      obtain ⟨hfirst, hsorted⟩ := List.pairwise_cons.mp hsorted
      have hle := hfrom it List.mem_cons_self
      simp only [assignActive, assignAll, assignAmong_eq (htracks it.span.first hle)]
      refine bind_congr fun r => ?_
      exact ih (htracks.step hle ⟨it, r⟩) hfirst hsorted

end Active

/-- For intervals that are sorted by their first positions, whatever their registers and whatever
the hulls, which as hulls of positions are not empty: validation fails exactly if two different
intervals that share a position have one register or an interval shares a position with the hull of
its register, and it passes otherwise; the search for a conflict finds what it would find if it went
through all later intervals; and the scan that drops what has ended hands out the same registers as
the one that does not, which pass. -/
theorem validate_exact (ctx : Setting) (assigned : List Assigned)
    (hspans : ∀ x ∈ assigned, x.interval.span.first ≤ x.interval.span.last)
    (hhulls : ∀ h ∈ ctx.fixed, h.span.first ≤ h.span.last)
    (hsorted : assigned.Pairwise fun x y => x.interval.span.first ≤ y.interval.span.first) :
    ((∃ d, validate ctx.target ctx.fixed assigned = broken d) ↔ Conflicted ctx.fixed assigned) ∧
      (validate ctx.target ctx.fixed assigned = .ok () ↔ ¬ Conflicted ctx.fixed assigned) ∧
      (∀ x rest, x :: rest <:+ assigned → conflict? x rest = rest.find? fun y => Clash x y) ∧
      assignActive ctx [] [] (assigned.map (·.interval)) =
        assignAll ctx [] (assigned.map (·.interval)) ∧
      ∀ out, assignAll ctx [] (assigned.map (·.interval)) = .ok out →
        validate ctx.target ctx.fixed out = .ok () := by
  have hpasses (hok : validate ctx.target ctx.fixed assigned = .ok ()) :
      ¬ Conflicted ctx.fixed assigned := not_conflicted_of_validate hhulls hspans hsorted hok
  have houtcome := validate_outcome hhulls hspans ctx.target
  refine ⟨⟨?_, fun hconflicted => ?_⟩, ⟨hpasses, fun hfree => ?_⟩, ?_, ?_, ?_⟩
  · rintro ⟨d, hd⟩
    rcases houtcome with hok | ⟨_, _, hreported⟩
    · rw [hok] at hd
      cases hd
    · exact hreported.conflicted
  · rcases houtcome with hok | ⟨d, hd, _⟩
    · exact absurd hconflicted (hpasses hok)
    · exact ⟨d, hd⟩
  · rcases houtcome with hok | ⟨_, _, hreported⟩
    · exact hok
    · exact absurd hreported.conflicted hfree
  · intro x rest hsuffix
    obtain ⟨hx, hrest⟩ := List.forall_mem_cons.mp fun y hy => hspans y (hsuffix.subset hy)
    exact conflict?_eq_find? hx hrest
      (List.pairwise_cons.mp (hsorted.sublist hsuffix.sublist)).2
  · have htracks : Tracks [] [] 0 := fun _ _ => rfl
    exact assignActive_eq htracks (fun _ _ => Nat.zero_le _) (List.pairwise_map.mpr hsorted)
  · intro out hout
    exact validate_eq_ok (assignAll_apart hout) fun a ha => (assignAll_fits hout a ha).free

/-- A vector that outlasts two others, which follow one another, and one that begins when all of
them have ended. The third has the given register. -/
def staggered (third : Reg) : List Assigned :=
  [⟨⟨.virtual .v128 1, ⟨0, 9⟩⟩, .physical .v128 0 0⟩,
   ⟨⟨.virtual .v128 2, ⟨1, 3⟩⟩, .physical .v128 1 1⟩,
   ⟨⟨.virtual .v128 3, ⟨4, 6⟩⟩, third⟩,
   ⟨⟨.virtual .v128 4, ⟨20, 22⟩⟩, .physical .v128 0 0⟩]

def staggeredSetting : Setting where
  target := vectorPair
  moves := []
  fixed := [⟨.physical .v128 1 1, ⟨20, 21⟩⟩]

theorem validate_exact_staggered :
    (∃ d, validate vectorPair staggeredSetting.fixed (staggered (.physical .v128 0 0)) =
        broken d) ∧
      assignActive staggeredSetting [] [] ((staggered (.physical .v128 0 0)).map (·.interval)) =
        .ok (staggered (.physical .v128 1 1)) ∧
      validate vectorPair staggeredSetting.fixed (staggered (.physical .v128 1 1)) = .ok () := by
  obtain ⟨hbroken, -, -, hactive, hpasses⟩ := validate_exact staggeredSetting
    (staggered (.physical .v128 0 0)) (by decide) (by decide) (by decide)
  -- the first and the third vector, with another between them
  have hclash : Conflicted staggeredSetting.fixed (staggered (.physical .v128 0 0)) :=
    .inl ⟨⟨0, by decide⟩, ⟨2, by decide⟩, by decide, by decide⟩
  have hscan : assignActive staggeredSetting [] []
      ((staggered (.physical .v128 0 0)).map (·.interval)) =
        .ok (staggered (.physical .v128 1 1)) := by decide +kernel
  exact ⟨hbroken.mpr hclash, hscan, hpasses _ (hactive.symm.trans hscan)⟩

end Codegen.Allocation
