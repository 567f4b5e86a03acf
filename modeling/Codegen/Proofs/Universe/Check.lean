import Codegen.Proofs.Universe

/-!
Which universes pass their check, and how the others fail.

`WellFormed` says what a universe should be without mentioning the check, and the check passes
exactly those universes. Of the others it refuses all but the ones of which it cannot look a range
up: the ends of a range are compared with one another and with the number of registers that may be
handed out, and not with the first position, so a range that begins before it is looked up and
leaves the table.
-/
namespace Codegen.Universe

/-- The ends of the range are in order, and at its positions are registers of the class only. -/
structure Spans (u : Universe) (c : RegClass) (range : ClassRange) : Prop where
  nonneg : 0 ≤ range.first
  nonempty : range.first ≤ range.last
  below : range.last < u.allocable
  cls : ∀ (n : Nat) (info : RegInfo), u.regs[n]? = some info → range.first ≤ n → n ≤ range.last →
    info.reg.cls = c

/-- The number of positions of a range; without a range there are none. -/
def extent : Option ClassRange → Int
  | none => 0
  | some range => range.last - range.first + 1

/-- The table has room, every register stands at the position of its index and has a declared class,
and no more registers may be handed out than there are. -/
structure Tabulated (u : Universe) : Prop where
  room : u.regs.length ≤ 128
  listed : u.allocable ≤ u.regs.length
  placed : ∀ (n : Nat) (info : RegInfo), u.regs[n]? = some info →
    info.reg.index.toNat = n ∧ (info.reg.cls = .i64 ∨ info.reg.cls = .v128)

/-- The ranges of the classes share out the registers that may be handed out. -/
structure WellFormed (u : Universe) : Prop extends Tabulated u where
  nonneg : 0 ≤ u.allocable
  general : ∀ range, u.i64 = some range → u.Spans .i64 range
  vector : ∀ range, u.v128 = some range → u.Spans .v128 range
  covered : extent u.i64 + extent u.v128 = u.allocable

/-- The range begins before the first register, and its ends are in order otherwise. -/
structure BeginsBefore (u : Universe) (range : ClassRange) : Prop where
  negative : range.first < 0
  nonempty : range.first ≤ range.last
  below : range.last < u.allocable

/-- A range begins before the first register, and nothing that comes before that range is wrong. -/
structure Underruns (u : Universe) : Prop extends Tabulated u where
  range : (∃ range, u.i64 = some range ∧ u.BeginsBefore range) ∨
    (∀ range, u.i64 = some range → u.Spans .i64 range) ∧
      ∃ range, u.v128 = some range ∧ u.BeginsBefore range

variable {u : Universe} {c : RegClass} {range : ClassRange}

theorem not_beginsBefore {found : Option ClassRange}
    (h : ∀ range, found = some range → u.Spans c range) :
    ¬ ∃ range, found = some range ∧ u.BeginsBefore range := by
  rintro ⟨range, hrange, hbefore⟩
  have hnonneg := (h range hrange).nonneg
  have hnegative := hbefore.negative
  omega

theorem WellFormed.not_underruns (h : u.WellFormed) : ¬ u.Underruns := by
  intro hunder
  rcases hunder.range with hbefore | ⟨_, hbefore⟩
  · exact not_beginsBefore h.general hbefore
  · exact not_beginsBefore h.vector hbefore

section Parts

theorem checkEntries_outcome (start : Nat) (infos : List RegInfo) :
    checkEntries start infos = .ok () ∨ ∃ reason, checkEntries start infos = refuse reason := by
  induction infos generalizing start with
  | nil => exact .inl rfl
  | cons info infos ih =>
      simp only [checkEntries]
      split
      · exact .inr ⟨_, rfl⟩
      · split
        · exact .inr ⟨_, rfl⟩
        · exact ih (start + 1)

theorem checkClass_outcome (c : RegClass) (infos : List RegInfo) :
    checkClass c infos = .ok () ∨ ∃ reason, checkClass c infos = refuse reason := by
  induction infos with
  | nil => exact .inl rfl
  | cons info infos ih =>
      simp only [checkClass]
      split
      · exact .inr ⟨_, rfl⟩
      · exact ih

/-- The positions of a range that begins before the first register are outside of the table, however
many they are. -/
theorem entries_of_beginsBefore (h : u.BeginsBefore range) :
    u.entries range = .error .outOfBounds := by
  have hnegative := h.negative
  have hnonempty := h.nonempty
  simp only [entries]
  split
  · rfl
  · rw [if_neg (by omega), if_pos (.inl hnegative)]

/-- A range within a table of that size announces as many entries as it has. -/
theorem entries_eq_stretch (htable : u.Tabulated) (hnonneg : 0 ≤ range.first)
    (hnonempty : range.first ≤ range.last) (hbelow : range.last < u.allocable) :
    u.entries range = .ok (u.stretch range) := by
  have hroom := htable.room
  have hlisted := htable.listed
  have hcount : range.count = range.last - range.first + 1 :=
    Int64.toInt_ofInt_of_le (by omega) (by omega)
  have hmax : (128 : Int) ≤ maxRoom := by decide
  simp only [entries, hcount]
  rw [if_neg (by omega), if_neg (by omega), if_neg (by omega)]
  rfl

theorem spans_iff (hnonneg : 0 ≤ range.first) (hnonempty : range.first ≤ range.last)
    (hbelow : range.last < u.allocable) :
    u.Spans c range ↔ ∀ info ∈ u.stretch range, info.reg.cls = c := by
  simp only [mem_stretch hnonneg]
  constructor
  · rintro h info ⟨n, hn, hfirst, hlast⟩
    exact h.cls n info hn hfirst hlast
  · intro hcls
    exact ⟨hnonneg, hnonempty, hbelow, fun n info hn hfirst hlast =>
      hcls info ⟨n, hn, hfirst, hlast⟩⟩

/-- The check of a range. Its ends are looked at first, and its registers only if they are in
order. -/
theorem checkRange_outcome (htable : u.Tabulated) (c : RegClass) (found : Option ClassRange) :
    (∀ range, found = some range → u.Spans c range) ∧ u.checkRange c found = .ok (extent found) ∨
    (∃ range, found = some range ∧ u.BeginsBefore range) ∧
      u.checkRange c found = .error .outOfBounds ∨
    ¬ (∀ range, found = some range → u.Spans c range) ∧
      (¬ ∃ range, found = some range ∧ u.BeginsBefore range) ∧
      ∃ reason, u.checkRange c found = refuse reason := by
  cases found with
  | none => exact .inl ⟨fun range h => (by cases h), rfl⟩
  | some range =>
      simp only [Option.some.injEq, forall_eq', exists_eq_left', checkRange]
      by_cases hends : range.last < range.first ∨ u.allocable ≤ range.last
      · refine .inr (.inr ⟨fun h => ?_, fun h => ?_, _, by rw [if_pos hends]; rfl⟩)
        · have hnonempty := h.nonempty
          have hbelow := h.below
          omega
        · have hnonempty := h.nonempty
          have hbelow := h.below
          omega
      · rw [if_neg hends]
        by_cases hnegative : range.first < 0
        · have hbefore : u.BeginsBefore range := ⟨hnegative, by omega, by omega⟩
          rw [entries_of_beginsBefore hbefore]
          exact .inr (.inl ⟨hbefore, rfl⟩)
        · have hspans : u.Spans c range ↔ ∀ info ∈ u.stretch range, info.reg.cls = c :=
            spans_iff (by omega) (by omega) (by omega)
          rw [entries_eq_stretch htable (by omega) (by omega) (by omega), Checked.ok_bind, hspans,
            ← checkClass_eq_ok]
          rcases checkClass_outcome c (u.stretch range) with hok | ⟨reason, hrefused⟩
          · rw [hok]
            exact .inl ⟨rfl, rfl⟩
          · rw [hrefused]
            exact .inr (.inr ⟨fun h => (by cases h), fun h => hnegative h.negative, reason, rfl⟩)

end Parts

theorem tabulated_iff : u.Tabulated ↔ ¬ maxRegs < u.regs.length ∧
    ¬ (u.regs.length : Int) < u.allocable ∧ checkEntries 0 u.regs = .ok () := by
  have hmax : maxRegs = 128 := rfl
  simp only [checkEntries_eq_ok, isValid_iff, Nat.zero_add]
  constructor
  · intro h
    have hroom := h.room
    have hlisted := h.listed
    exact ⟨by omega, by omega, h.placed⟩
  · rintro ⟨hroom, hlisted, hplaced⟩
    exact ⟨by omega, by omega, hplaced⟩

theorem extent_nonneg {found : Option ClassRange}
    (h : ∀ range, found = some range → u.Spans c range) : 0 ≤ extent found := by
  cases found with
  | none => exact Int.le_refl 0
  | some range =>
      have hnonempty := (h range rfl).nonempty
      simp only [extent]
      omega

/-- The check of a universe whose table is in order: the ranges one after the other, and then the
number of positions that they have. -/
theorem check_of_tabulated (h : u.Tabulated) :
    u.check = u.checkRange .i64 u.i64 >>= fun general =>
      u.checkRange .v128 u.v128 >>= fun vector =>
        if general + vector ≠ u.allocable then refuse (.uncovered (general + vector) u.allocable)
        else .ok () := by
  obtain ⟨hroom, hlisted, hentries⟩ := tabulated_iff.mp h
  rw [check, if_neg hroom, if_neg hlisted, hentries]
  rfl

theorem check_of_not_tabulated (h : ¬ u.Tabulated) : ∃ reason, u.check = refuse reason := by
  by_cases hroom : maxRegs < u.regs.length
  · exact ⟨_, by rw [check, if_pos hroom]; rfl⟩
  · by_cases hlisted : (u.regs.length : Int) < u.allocable
    · exact ⟨_, by rw [check, if_neg hroom, if_pos hlisted]; rfl⟩
    · rcases checkEntries_outcome 0 u.regs with hok | ⟨reason, hrefused⟩
      · exact absurd (tabulated_iff.mpr ⟨hroom, hlisted, hok⟩) h
      · exact ⟨reason, by rw [check, if_neg hroom, if_neg hlisted, hrefused]; rfl⟩

theorem check_outcome (u : Universe) :
    u.WellFormed ∧ u.check = .ok () ∨
    u.Underruns ∧ u.check = .error .outOfBounds ∨
    ¬ u.WellFormed ∧ ¬ u.Underruns ∧ ∃ reason, u.check = refuse reason := by
  by_cases htable : u.Tabulated
  · rw [check_of_tabulated htable]
    rcases checkRange_outcome htable .i64 u.i64 with
      ⟨hgeneral, hcheck⟩ | ⟨hbefore, hcheck⟩ | ⟨hgeneral, hbefore, reason, hcheck⟩
    · have hnone := not_beginsBefore hgeneral
      rw [hcheck, Checked.ok_bind]
      rcases checkRange_outcome htable .v128 u.v128 with
        ⟨hvector, hcheck⟩ | ⟨hbefore, hcheck⟩ | ⟨hvector, hbefore, reason, hcheck⟩
      · rw [hcheck, Checked.ok_bind]
        by_cases hcovered : extent u.i64 + extent u.v128 = u.allocable
        · have hfirst := extent_nonneg hgeneral
          have hsecond := extent_nonneg hvector
          exact .inl ⟨⟨htable, by omega, hgeneral, hvector, hcovered⟩,
            if_neg (not_not.mpr hcovered)⟩
        · refine .inr (.inr ⟨fun h => hcovered h.covered, fun h => ?_, _, if_pos hcovered⟩)
          exact h.range.elim hnone fun h => not_beginsBefore hvector h.2
      · rw [hcheck]
        exact .inr (.inl ⟨⟨htable, .inr ⟨hgeneral, hbefore⟩⟩, rfl⟩)
      · rw [hcheck]
        refine .inr (.inr ⟨fun h => hvector h.vector, fun h => ?_, reason, rfl⟩)
        exact h.range.elim hnone fun h => hbefore h.2
    · rw [hcheck]
      exact .inr (.inl ⟨⟨htable, .inl hbefore⟩, rfl⟩)
    · rw [hcheck]
      refine .inr (.inr ⟨fun h => hgeneral h.general, fun h => ?_, reason, rfl⟩)
      exact h.range.elim hbefore fun h => hgeneral h.1
  · exact .inr (.inr ⟨fun h => htable h.toTabulated, fun h => htable h.toTabulated,
      check_of_not_tabulated htable⟩)

/-- The check passes exactly the universes that are well formed. The others are refused, except
those with a range that begins before the first register: there the check itself looks up a position
that is outside of the table. -/
theorem check_exact (u : Universe) :
    (u.check = .ok () ↔ u.WellFormed) ∧
    (u.check = .error .outOfBounds ↔ u.Underruns) ∧
    ((∃ reason, u.check = refuse reason) ↔ ¬ u.WellFormed ∧ ¬ u.Underruns) := by
  rcases check_outcome u with ⟨hformed, hcheck⟩ | ⟨hunder, hcheck⟩ |
    ⟨hformed, hunder, reason, hcheck⟩
  · have hunder : ¬ u.Underruns := hformed.not_underruns
    simp [hcheck, hformed, hunder, refuse]
  · have hformed : ¬ u.WellFormed := fun h => h.not_underruns hunder
    simp [hcheck, hformed, hunder, refuse]
  · simp [hcheck, hformed, hunder, refuse]

/-- One register that may be handed out, and a range that begins one position before it. -/
def beforeFirst : Universe where
  regs := [⟨.physical .i64 0 0, "r0"⟩]
  allocable := 1
  i64 := some { first := -1, last := 0 }
  v128 := none

/-- That universe is not well formed, and the check does not refuse it: it leaves the table. -/
theorem not_refused_beforeFirst :
    ¬ beforeFirst.WellFormed ∧ beforeFirst.check = .error .outOfBounds ∧
      ¬ ∃ reason, beforeFirst.check = refuse reason := by
  have hcheck : beforeFirst.check = .error .outOfBounds := by decide
  refine ⟨fun h => ?_, hcheck, ?_⟩
  · have hnonneg := (h.general _ rfl).nonneg
    revert hnonneg
    decide
  · rintro ⟨reason, h⟩
    rw [hcheck] at h
    cases h

end Codegen.Universe
