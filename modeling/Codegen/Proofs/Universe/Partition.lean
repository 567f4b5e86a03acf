import Codegen.Proofs.Allocation.Bounds
import Mathlib.Data.List.Nodup

/-!
How a universe that passes its check shares its registers out.

The check counts the positions that the ranges of the classes have and looks at no position twice.
Since a register has one class and one position, the ranges share out the first registers of the
table all the same: the lists of the classes have no register in common and none is missing from
both. What comes after them is reserved, and a register is told from the others by its index alone.
-/
namespace Codegen.Universe

open Allocation (Marks)

/-- The registers that may be handed out are shared out between the classes, and the rest is the
rest of the table. -/
structure SharedOut (u : Universe) (general vector rest : List Reg) : Prop where
  nonneg : 0 ≤ u.allocable
  listed : u.allocable ≤ u.regs.length
  nodup_general : general.Nodup
  nodup_vector : vector.Nodup
  disjoint : general.Disjoint vector
  cls_general : ∀ r ∈ general, r.cls = .i64
  cls_vector : ∀ r ∈ vector, r.cls = .v128
  leading : (general ++ vector).Perm ((u.regs.take u.allocable.toNat).map (·.reg))
  reserved : rest = (u.regs.drop u.allocable.toNat).map (·.reg)
  apart : ∀ r ∈ rest, r ∉ general ∧ r ∉ vector

variable {u : Universe}

theorem mem_leading_iff (h : u.check = .ok ()) {r : Reg} :
    r ∈ (u.regs.take u.allocable.toNat).map (·.reg) ↔ u.Known r ∧ u.isAllocable r = true := by
  constructor
  · intro hr
    obtain ⟨info, hinfo, rfl⟩ := List.mem_map.mp hr
    obtain ⟨n, hn⟩ := List.mem_iff_getElem?.mp hinfo
    rw [List.getElem?_take] at hn
    split at hn
    · have hindex := index_of_check h hn
      refine ⟨List.mem_map_of_mem (List.mem_of_getElem? hn), ?_⟩
      simp only [isAllocable, decide_eq_true_eq]
      omega
    · cases hn
  · rintro ⟨hknown, hallocable⟩
    obtain ⟨info, hinfo, hreg⟩ := handedOut_of_known h hknown hallocable
    exact List.mem_map.mpr ⟨info, hinfo, hreg⟩

theorem isValid_of_known (h : u.check = .ok ()) {r : Reg} (hr : u.Known r) : r.isValid = true := by
  obtain ⟨info, hinfo, rfl⟩ := List.mem_map.mp hr
  obtain ⟨n, hn⟩ := List.mem_iff_getElem?.mp hinfo
  exact (checkEntries_eq_ok.mp (checkEntries_of_check h) n info hn).2

theorem reserved_eq (h : u.check = .ok ()) :
    u.reserved = .ok ((u.regs.drop u.allocable.toNat).map (·.reg)) := by
  have hsized := sized_of_check h
  have hnonneg := hsized.nonneg
  have hlisted := hsized.listed
  rw [reserved, if_neg (by omega)]

theorem not_mem_leading (h : u.check = .ok ()) {r : Reg}
    (hr : r ∈ (u.regs.drop u.allocable.toNat).map (·.reg)) :
    r ∉ (u.regs.take u.allocable.toNat).map (·.reg) := by
  have hnodup := nodup_regs h
  rw [← List.take_append_drop u.allocable.toNat u.regs, List.map_append] at hnodup
  intro hleading
  exact (List.disjoint_of_nodup_append hnodup) hleading hr

theorem sharedOut_of_allocableRegs (h : u.check = .ok ()) {general vector : List Reg}
    (hgeneral : u.allocableRegs .i64 = .ok general) (hvector : u.allocableRegs .v128 = .ok vector) :
    u.SharedOut general vector ((u.regs.drop u.allocable.toNat).map (·.reg)) := by
  have hsized := sized_of_check h
  have hmem : ∀ r, r ∈ general ++ vector ↔ r ∈ (u.regs.take u.allocable.toNat).map (·.reg) := by
    intro r
    rw [List.mem_append, mem_allocableRegs_iff h hgeneral, mem_allocableRegs_iff h hvector,
      mem_leading_iff h]
    constructor
    · rintro (⟨hknown, hallocable, _⟩ | ⟨hknown, hallocable, _⟩)
      · exact ⟨hknown, hallocable⟩
      · exact ⟨hknown, hallocable⟩
    · rintro ⟨hknown, hallocable⟩
      have hcls := isValid_iff.mp (isValid_of_known h hknown)
      exact hcls.imp (⟨hknown, hallocable, ·⟩) (⟨hknown, hallocable, ·⟩)
  have hdisjoint : general.Disjoint vector := by
    intro r hr hr'
    have hcls := ((mem_allocableRegs_iff h hgeneral).mp hr).2.2
    rw [((mem_allocableRegs_iff h hvector).mp hr').2.2] at hcls
    cases hcls
  have hnodup := nodup_allocableRegs h hgeneral
  have hnodup' := nodup_allocableRegs h hvector
  exact
    { nonneg := hsized.nonneg
      listed := hsized.listed
      nodup_general := hnodup
      nodup_vector := hnodup'
      disjoint := hdisjoint
      cls_general := fun r hr => ((mem_allocableRegs_iff h hgeneral).mp hr).2.2
      cls_vector := fun r hr => ((mem_allocableRegs_iff h hvector).mp hr).2.2
      leading :=
        (List.perm_ext_iff_of_nodup (hnodup.append hnodup' hdisjoint)
          (((List.take_sublist _ _).map _).nodup (nodup_regs h))).mpr hmem
      reserved := rfl
      apart := fun r hr => by
        have hnot := mt (hmem r).mp (not_mem_leading h hr)
        rwa [List.mem_append, not_or] at hnot }

/-- There is a list for every class that has a place for a range. -/
theorem exists_allocableRegs_of_code (h : u.check = .ok ()) {c : RegClass} (hc : c.code < 3) :
    ∃ rs, u.allocableRegs c = .ok rs := by
  have hcases : c = ⟨0⟩ ∨ c = .i64 ∨ c = .v128 := by
    obtain ⟨code⟩ := c
    simp only [RegClass.i64, RegClass.v128, RegClass.mk.injEq, ← UInt8.toNat_inj,
      UInt8.reduceToNat]
    have hlt : code.toNat < 3 := UInt8.lt_iff_toNat_lt.mp hc
    omega
  rcases hcases with rfl | rfl | rfl
  · exact ⟨[], rfl⟩
  · exact exists_allocableRegs h (r := .virtual .i64 0) rfl
  · exact exists_allocableRegs h (r := .virtual .v128 0) rfl

theorem exists_text (h : u.check = .ok ()) : ∃ shown, u.text = .ok shown := by
  obtain ⟨general, hgeneral⟩ := exists_allocableRegs_of_code h (c := .i64) (by decide)
  obtain ⟨vector, hvector⟩ := exists_allocableRegs_of_code h (c := .v128) (by decide)
  simp only [text, hgeneral, hvector, reserved_eq h, Checked.ok_bind]
  exact ⟨_, rfl⟩

theorem name_of_check (h : u.check = .ok ()) {n : Nat} {info : RegInfo}
    (hn : u.regs[n]? = some info) : u.name info.reg = info.name := by
  rw [name, index_of_check h hn, hn]
  exact if_pos rfl

/-- Marking a register of the table marks that register and no other one of the table. -/
theorem marks_of_check (h : u.check = .ok ()) (m : Marks) {r s : Reg} (hr : u.Known r)
    (hs : u.Known s) : ∃ m' before after, m.add r = .ok m' ∧ m.has s = .ok before ∧
      m'.has s = .ok after ∧ (after = true ↔ before = true ∨ s = r) := by
  have hlt : ∀ {x}, u.Known x → x.index.toNat < maxRegs := by
    intro x hx
    obtain ⟨info, hinfo, rfl⟩ := List.mem_map.mp hx
    exact Allocation.index_lt_of_mem h hinfo
  obtain ⟨m', hm'⟩ := m.exists_add (hlt hr)
  refine ⟨m', _, _, hm', Marks.has_eq (hlt hs), Marks.has_eq (hlt hs), ?_⟩
  rw [decide_eq_true_eq, decide_eq_true_eq, Marks.mem_of_add hm', or_comm]
  refine or_congr_right ⟨fun hindex => ?_, fun heq => by rw [heq]⟩
  exact eq_of_index_eq h hs hr (UInt32.toNat_inj.mp hindex)

/-- A universe that passes its check: the lists of the classes, the reserved registers and the text
are there and no position is outside of the table, the registers are shared out, a register may be
handed out exactly if it is in the list of its class, every entry has its name, and marks tell the
registers of the table apart. -/
theorem sharedOut_of_check (h : u.check = .ok ()) :
    (∃ general vector rest shown, u.allocableRegs .i64 = .ok general ∧
      u.allocableRegs .v128 = .ok vector ∧ u.reserved = .ok rest ∧ u.text = .ok shown ∧
      u.SharedOut general vector rest) ∧
    (∀ c : RegClass, c.code < 3 → ∃ rs, u.allocableRegs c = .ok rs) ∧
    (∀ r, u.Known r → ∃ rs, u.allocableRegs r.cls = .ok rs ∧
      (u.isAllocable r = true ↔ r ∈ rs)) ∧
    (∀ (n : Nat) (info : RegInfo), u.regs[n]? = some info → u.name info.reg = info.name) ∧
    ∀ (m : Marks) (r s : Reg), u.Known r → u.Known s → ∃ m' before after,
      m.add r = .ok m' ∧ m.has s = .ok before ∧ m'.has s = .ok after ∧
        (after = true ↔ before = true ∨ s = r) := by
  obtain ⟨general, hgeneral⟩ := exists_allocableRegs_of_code h (c := .i64) (by decide)
  obtain ⟨vector, hvector⟩ := exists_allocableRegs_of_code h (c := .v128) (by decide)
  obtain ⟨shown, hshown⟩ := exists_text h
  refine ⟨⟨general, vector, _, shown, hgeneral, hvector, reserved_eq h, hshown,
    sharedOut_of_allocableRegs h hgeneral hvector⟩, ?_, ?_, ?_, ?_⟩
  · intro c hc
    exact exists_allocableRegs_of_code h hc
  · intro r hr
    obtain ⟨rs, hrs⟩ := exists_allocableRegs h (isValid_of_known h hr)
    refine ⟨rs, hrs, ?_⟩
    rw [mem_allocableRegs_iff h hrs]
    exact ⟨fun hallocable => ⟨hr, hallocable, rfl⟩, fun hmem => hmem.2.1⟩
  · intro n info hn
    exact name_of_check h hn
  · intro m r s hr hs
    exact marks_of_check h m hr hs

/-- Two vector registers, two general ones and a reserved one, and the range of the class that is
checked last comes first. -/
def vectorsFirst : Universe where
  regs := [⟨.physical .v128 0 0, "f0"⟩, ⟨.physical .v128 1 1, "f1"⟩, ⟨.physical .i64 0 2, "r0"⟩,
    ⟨.physical .i64 1 3, "r1"⟩, ⟨.physical .i64 31 4, "sp"⟩]
  allocable := 4
  i64 := some { first := 2, last := 3 }
  v128 := some { first := 0, last := 1 }

theorem sharedOut_of_check_vectorsFirst :
    vectorsFirst.check = .ok () ∧
    vectorsFirst.SharedOut [.physical .i64 0 2, .physical .i64 1 3]
      [.physical .v128 0 0, .physical .v128 1 1] [.physical .i64 31 4] ∧
    vectorsFirst.name (.physical .i64 31 4) = "sp" := by
  have hcheck : vectorsFirst.check = .ok () := by decide
  obtain ⟨⟨general, vector, rest, shown, hgeneral, hvector, hrest, _, hshared⟩, _, _, hname, _⟩ :=
    sharedOut_of_check hcheck
  refine ⟨hcheck, ?_, hname 4 _ rfl⟩
  cases hgeneral
  cases hvector
  cases hrest
  exact hshared

end Codegen.Universe
