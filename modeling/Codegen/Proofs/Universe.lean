import Codegen.Proofs.Checked
import Codegen.Universe

/-!
What a universe that passes its check guarantees of its table: every register stands at the
position of its index, so that the registers that may be handed out are the first ones.

The ranges of the classes hold registers of their class and together announce as many positions as
there are registers to hand out. Ranges of different classes cannot overlap, so they share out those
positions: the registers of a class that may be handed out are the ones of its range.
-/
namespace Codegen.Universe

def HandedOut (u : Universe) (r : Reg) : Prop :=
  ∃ info ∈ u.regs.take u.allocable.toNat, info.reg = r

def Known (u : Universe) (r : Reg) : Prop := r ∈ u.regs.map (·.reg)

instance (u : Universe) (r : Reg) : Decidable (u.Known r) :=
  inferInstanceAs (Decidable (r ∈ u.regs.map (·.reg)))

variable {u : Universe}

theorem isValid_iff {r : Reg} : r.isValid = true ↔ r.cls = .i64 ∨ r.cls = .v128 := by
  simp [Reg.isValid, RegClass.isDeclared, RegClass.declared]

theorem checkEntries_eq_ok {infos : List RegInfo} {start : Nat} :
    checkEntries start infos = .ok () ↔ ∀ n info, infos[n]? = some info →
      info.reg.index.toNat = start + n ∧ info.reg.isValid = true := by
  induction infos generalizing start with
  | nil => simp [checkEntries]
  | cons first infos ih =>
      simp only [checkEntries, ne_eq, Checked.ite_refuse_eq_ok, not_not, Bool.not_eq_true',
        Bool.not_eq_false, ih]
      constructor
      · rintro ⟨hindex, hvalid, hrest⟩ n info hn
        cases n with
        | zero =>
            cases hn
            exact ⟨hindex, hvalid⟩
        | succ n =>
            have hpos := hrest n info hn
            exact ⟨by omega, hpos.2⟩
      · intro h
        have hfirst := h 0 first rfl
        refine ⟨hfirst.1, hfirst.2, fun n info hn => ?_⟩
        have hpos := h (n + 1) info hn
        exact ⟨by omega, hpos.2⟩

theorem checkEntries_of_check (h : u.check = .ok ()) : checkEntries 0 u.regs = .ok () := by
  simp only [check, Checked.refuse_bind, Checked.ite_refuse_eq_ok, Checked.bind_eq_ok] at h
  obtain ⟨_, _, ⟨⟩, hentries, _⟩ := h
  exact hentries

/-- In a universe that passes its check, the index of a register is its position. -/
theorem index_of_check (h : u.check = .ok ()) {n : Nat} {info : RegInfo}
    (hn : u.regs[n]? = some info) : info.reg.index.toNat = n := by
  have hpos := (checkEntries_eq_ok.mp (checkEntries_of_check h) n info hn).1
  omega

/-- A known register whose index is below the bound is one of the first registers. -/
theorem handedOut_of_known (h : u.check = .ok ()) {r : Reg} (hr : u.Known r)
    (hindex : u.isAllocable r = true) : u.HandedOut r := by
  obtain ⟨info, hmem, rfl⟩ := List.mem_map.mp hr
  obtain ⟨n, hn⟩ := List.mem_iff_getElem?.mp hmem
  have hpos := index_of_check h hn
  simp only [isAllocable, decide_eq_true_eq] at hindex
  refine ⟨info, List.mem_iff_getElem?.mpr ⟨n, ?_⟩, rfl⟩
  rw [List.getElem?_take_of_lt (by omega)]
  exact hn

theorem known_of_mem_entries {range : ClassRange} {infos : List RegInfo} {info : RegInfo}
    (h : u.entries range = .ok infos) (hi : info ∈ infos) : info ∈ u.regs := by
  simp only [entries] at h
  split at h
  · cases h
  · split at h
    · cases h
      cases hi
    · split at h
      · cases h
      · cases h
        exact List.mem_of_mem_drop (List.mem_of_mem_take hi)

theorem known_of_mem_allocableRegs {c : RegClass} {rs : List Reg} {r : Reg}
    (h : u.allocableRegs c = .ok rs) (hr : r ∈ rs) : u.Known r := by
  obtain ⟨range, hrange, h⟩ := Checked.bind_eq_ok.mp h
  cases range with
  | none =>
      cases h
      cases hr
  | some range =>
      obtain ⟨infos, hinfos, h⟩ := Checked.bind_eq_ok.mp h
      cases h
      obtain ⟨info, hi, rfl⟩ := List.mem_map.mp hr
      exact List.mem_map.mpr ⟨info, known_of_mem_entries hinfos hi, rfl⟩

section Ranges

variable {c : RegClass} {range : ClassRange}

def stretch (u : Universe) (range : ClassRange) : List RegInfo :=
  (u.regs.drop range.first.toNat).take (range.last - range.first + 1).toNat

/-- The positions of the range are those of registers of the class that may be handed out. -/
structure Holds (u : Universe) (c : RegClass) (range : ClassRange) : Prop where
  nonneg : 0 ≤ range.first
  nonempty : range.first ≤ range.last
  below : range.last < u.allocable
  entries : u.entries range = .ok (u.stretch range)
  cls : ∀ info ∈ u.stretch range, info.reg.cls = c

theorem checkClass_eq_ok {infos : List RegInfo} :
    checkClass c infos = .ok () ↔ ∀ info ∈ infos, info.reg.cls = c := by
  induction infos with
  | nil => simp [checkClass]
  | cons first infos ih =>
      simp only [checkClass, ne_eq, Checked.ite_refuse_eq_ok, not_not, ih, List.forall_mem_cons]

theorem holds_of_checkRange {n : Int} (h : u.checkRange c (some range) = .ok n) :
    u.Holds c range ∧ n = range.last - range.first + 1 := by
  simp only [checkRange, Checked.refuse_bind, Checked.ite_refuse_eq_ok, Checked.bind_eq_ok] at h
  obtain ⟨hrange, infos, hinfos, ⟨⟩, hclass, hn⟩ := h
  cases hn
  have hentries := hinfos
  simp only [entries] at hentries
  split at hentries
  · cases hentries
  · rw [if_neg (by omega)] at hentries
    split at hentries
    · cases hentries
    · cases hentries
      exact ⟨⟨by omega, by omega, by omega, hinfos, checkClass_eq_ok.mp hclass⟩, rfl⟩

theorem mem_stretch (hnonneg : 0 ≤ range.first) {info : RegInfo} :
    info ∈ u.stretch range ↔
      ∃ n : Nat, u.regs[n]? = some info ∧ range.first ≤ n ∧ n ≤ range.last := by
  simp only [stretch, List.mem_iff_getElem?, List.getElem?_take, List.getElem?_drop]
  constructor
  · rintro ⟨k, hk⟩
    split at hk
    · exact ⟨_, hk, by omega, by omega⟩
    · cases hk
  · rintro ⟨n, hn, hfirst, hlast⟩
    refine ⟨n - range.first.toNat, ?_⟩
    rw [if_pos (by omega), Nat.add_sub_cancel' (by omega)]
    exact hn

theorem range_general : u.range .i64 = .ok u.i64 := rfl

theorem range_vector : u.range .v128 = .ok u.v128 := rfl

theorem range_eq_some (h : u.range c = .ok (some range)) :
    c = .i64 ∧ u.i64 = some range ∨ c = .v128 ∧ u.v128 = some range := by
  simp only [Universe.range] at h
  split at h
  · cases h
  · split at h
    · rename_i hc
      exact .inl ⟨hc, Except.ok.inj h⟩
    · split at h
      · rename_i hc
        exact .inr ⟨hc, Except.ok.inj h⟩
      · cases h

theorem holds_of_check (h : u.check = .ok ()) (hrange : u.range c = .ok (some range)) :
    u.Holds c range := by
  simp only [check, Checked.refuse_bind, Checked.ite_refuse_eq_ok, Checked.bind_eq_ok] at h
  obtain ⟨_, _, ⟨⟩, _, general, hgeneral, vector, hvector, _⟩ := h
  rcases range_eq_some hrange with ⟨rfl, hsome⟩ | ⟨rfl, hsome⟩
  · rw [hsome] at hgeneral
    exact (holds_of_checkRange hgeneral).1
  · rw [hsome] at hvector
    exact (holds_of_checkRange hvector).1

theorem Holds.disjoint {d : RegClass} {other : ClassRange} (h : u.Holds c range)
    (h' : u.Holds d other) (hne : c ≠ d) (hlisted : u.allocable ≤ u.regs.length) :
    range.last < other.first ∨ other.last < range.first := by
  by_contra hmeet
  have hnonneg := h.nonneg
  have hnonempty := h.nonempty
  have hnonempty' := h'.nonempty
  have hbelow := h.below
  have hbelow' := h'.below
  -- the greater one of the first positions is in both
  obtain ⟨n, hn⟩ : ∃ n : Nat, (n : Int) = max range.first other.first :=
    ⟨(max range.first other.first).toNat, by omega⟩
  have hlt : n < u.regs.length := by omega
  have hinfo := List.getElem?_eq_getElem hlt
  have hc := h.cls _ ((mem_stretch h.nonneg).mpr ⟨n, hinfo, by omega, by omega⟩)
  have hd := h'.cls _ ((mem_stretch h'.nonneg).mpr ⟨n, hinfo, by omega, by omega⟩)
  exact hne (hc.symm.trans hd)

/-- The ranges cover the registers that may be handed out. -/
theorem exists_range_of_check (h : u.check = .ok ()) {n : Nat} (hn : (n : Int) < u.allocable) :
    ∃ c range, u.range c = .ok (some range) ∧ range.first ≤ n ∧ n ≤ range.last := by
  simp only [check, Checked.refuse_bind, Checked.ite_refuse_eq_ok, Checked.bind_eq_ok] at h
  obtain ⟨_, hlisted, ⟨⟩, _, general, hgeneral, vector, hvector, hcovered, _⟩ := h
  have hi64 : ∀ range, u.i64 = some range → (range.first ≤ n ∧ n ≤ range.last) →
      ∃ c range, u.range c = .ok (some range) ∧ range.first ≤ n ∧ n ≤ range.last :=
    fun range hsome hpos => ⟨.i64, range, by rw [range_general, hsome], hpos⟩
  have hv128 : ∀ range, u.v128 = some range → (range.first ≤ n ∧ n ≤ range.last) →
      ∃ c range, u.range c = .ok (some range) ∧ range.first ≤ n ∧ n ≤ range.last :=
    fun range hsome hpos => ⟨.v128, range, by rw [range_vector, hsome], hpos⟩
  cases hg : u.i64 with
  | none =>
      rw [hg] at hgeneral
      cases hgeneral
      cases hv : u.v128 with
      | none =>
          rw [hv] at hvector
          cases hvector
          omega
      | some range =>
          rw [hv] at hvector
          obtain ⟨hholds, hcount⟩ := holds_of_checkRange hvector
          have hnonneg := hholds.nonneg
          have hbelow := hholds.below
          exact hv128 range hv ⟨by omega, by omega⟩
  | some range =>
      rw [hg] at hgeneral
      obtain ⟨hholds, hcount⟩ := holds_of_checkRange hgeneral
      have hnonneg := hholds.nonneg
      have hbelow := hholds.below
      cases hv : u.v128 with
      | none =>
          rw [hv] at hvector
          cases hvector
          exact hi64 range hg ⟨by omega, by omega⟩
      | some other =>
          rw [hv] at hvector
          obtain ⟨hholds', hcount'⟩ := holds_of_checkRange hvector
          have hnonneg' := hholds'.nonneg
          have hbelow' := hholds'.below
          have hdisjoint := hholds.disjoint hholds' (by decide) (by omega)
          by_cases hin : range.first ≤ n ∧ n ≤ range.last
          · exact hi64 range hg hin
          · exact hv128 other hv ⟨by omega, by omega⟩

variable {rs : List Reg}

theorem allocableRegs_eq_ok (h : u.check = .ok ()) : u.allocableRegs c = .ok rs ↔
    u.range c = .ok none ∧ rs = [] ∨
      ∃ range, u.range c = .ok (some range) ∧ rs = (u.stretch range).map (·.reg) := by
  simp only [allocableRegs, Checked.bind_eq_ok]
  constructor
  · rintro ⟨found, hfound, hrs⟩
    cases found with
    | none => exact .inl ⟨hfound, (Checked.pure_eq_ok.mp hrs).symm⟩
    | some range =>
        obtain ⟨infos, hinfos, hrs⟩ := Checked.bind_eq_ok.mp hrs
        rw [(holds_of_check h hfound).entries] at hinfos
        cases hinfos
        exact .inr ⟨range, hfound, (Checked.pure_eq_ok.mp hrs).symm⟩
  · rintro (⟨hfound, rfl⟩ | ⟨range, hfound, rfl⟩)
    · exact ⟨none, hfound, rfl⟩
    · refine ⟨some range, hfound, ?_⟩
      dsimp only
      rw [(holds_of_check h hfound).entries]
      rfl

theorem exists_allocableRegs (h : u.check = .ok ()) {r : Reg} (hr : r.isValid = true) :
    ∃ rs, u.allocableRegs r.cls = .ok rs := by
  have hrange : ∃ found, u.range r.cls = .ok found := by
    rcases isValid_iff.mp hr with hcls | hcls
    · exact ⟨u.i64, by rw [hcls, range_general]⟩
    · exact ⟨u.v128, by rw [hcls, range_vector]⟩
  obtain ⟨found, hfound⟩ := hrange
  cases found with
  | none => exact ⟨[], (allocableRegs_eq_ok h).mpr (.inl ⟨hfound, rfl⟩)⟩
  | some range => exact ⟨_, (allocableRegs_eq_ok h).mpr (.inr ⟨range, hfound, rfl⟩)⟩

/-- The registers of a class that may be handed out are those of the table that have the class and
may be handed out. -/
theorem mem_allocableRegs_iff (h : u.check = .ok ()) (hrs : u.allocableRegs c = .ok rs) {r : Reg} :
    r ∈ rs ↔ u.Known r ∧ u.isAllocable r = true ∧ r.cls = c := by
  simp only [isAllocable, decide_eq_true_eq]
  constructor
  · intro hr
    refine ⟨known_of_mem_allocableRegs hrs hr, ?_⟩
    rcases (allocableRegs_eq_ok h).mp hrs with ⟨_, rfl⟩ | ⟨range, hrange, rfl⟩
    · cases hr
    · obtain ⟨info, hinfo, rfl⟩ := List.mem_map.mp hr
      have hholds := holds_of_check h hrange
      obtain ⟨n, hn, _, hlast⟩ := (mem_stretch hholds.nonneg).mp hinfo
      have hindex := index_of_check h hn
      have hbelow := hholds.below
      exact ⟨by omega, hholds.cls info hinfo⟩
  · rintro ⟨hknown, hallocable, rfl⟩
    obtain ⟨info, hmem, rfl⟩ := List.mem_map.mp hknown
    obtain ⟨n, hn⟩ := List.mem_iff_getElem?.mp hmem
    have hindex := index_of_check h hn
    rw [hindex] at hallocable
    obtain ⟨d, range, hrange, hpos⟩ := exists_range_of_check h hallocable
    have hholds := holds_of_check h hrange
    have hinfo := (mem_stretch hholds.nonneg).mpr ⟨n, hn, hpos⟩
    rw [← hholds.cls info hinfo] at hrange
    rcases (allocableRegs_eq_ok h).mp hrs with ⟨hnone, _⟩ | ⟨range', hrange', rfl⟩
    · rw [hrange] at hnone
      cases hnone
    · rw [hrange] at hrange'
      cases hrange'
      exact List.mem_map_of_mem hinfo

theorem eq_of_index_eq (h : u.check = .ok ()) {r s : Reg} (hr : u.Known r) (hs : u.Known s)
    (heq : r.index = s.index) : r = s := by
  obtain ⟨info, hmem, rfl⟩ := List.mem_map.mp hr
  obtain ⟨info', hmem', rfl⟩ := List.mem_map.mp hs
  obtain ⟨n, hn⟩ := List.mem_iff_getElem?.mp hmem
  obtain ⟨k, hk⟩ := List.mem_iff_getElem?.mp hmem'
  have hindex := index_of_check h hn
  rw [heq, index_of_check h hk] at hindex
  rw [hindex, hn] at hk
  cases hk
  rfl

theorem nodup_regs (h : u.check = .ok ()) : (u.regs.map (·.reg)).Nodup := by
  refine List.pairwise_map.mpr (List.pairwise_iff_getElem.mpr fun i j hi hj hij heq => ?_)
  have hindex := index_of_check h (List.getElem?_eq_getElem hi)
  rw [heq, index_of_check h (List.getElem?_eq_getElem hj)] at hindex
  omega

theorem nodup_allocableRegs (h : u.check = .ok ()) (hrs : u.allocableRegs c = .ok rs) :
    rs.Nodup := by
  rcases (allocableRegs_eq_ok h).mp hrs with ⟨_, rfl⟩ | ⟨range, _, rfl⟩
  · exact List.nodup_nil
  · have hsublist : (u.stretch range).Sublist u.regs :=
      (List.take_sublist _ _).trans (List.drop_sublist _ _)
    exact (hsublist.map _).nodup (nodup_regs h)

end Ranges

end Codegen.Universe
