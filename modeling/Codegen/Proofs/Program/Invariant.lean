import Codegen.Program.Builder
import Codegen.Proofs.Program.Rewriting
import Mathlib.Data.List.Perm.Subperm

/-!
The invariant of a program. Building establishes it and every pass that succeeds keeps it: blocks
are never empty, they end with their one terminator until branches are lowered, virtual registers
are gone once registers are allocated, and targets are blocks until they are resolved.
-/
namespace Codegen

open A64 (Inst)

namespace Program

/-- The ranges follow one another from `start` through the instructions, none of them is empty, and
each holds the instructions of its block. -/
def Tiles (insts : List Inst) : Nat → List Block → List (Nat × Nat) → Prop
  | start, [], [] => start = insts.length
  | start, b :: blocks, (first, last) :: ranges =>
    first = start ∧ first < last ∧ (insts.take last).drop first = b.insts ∧
      Tiles insts last blocks ranges
  | _, _, _ => False

/-- What holds of a program at every stage. -/
structure Invariant (p : Program) : Prop where
  nonempty : ∀ b ∈ p.blocks, b.insts ≠ []
  closed : p.stage = .built ∨ p.stage = .allocated → ∀ b ∈ p.blocks, b.Closed p.blocks.length
  physical : p.stage ≠ .built → ∀ i ∈ p.insts, i.Physical
  lowered : p.stage = .lowered ∨ p.stage = .resolved → ∀ i ∈ p.insts, i.isBranch = false
  targeted : p.stage = .lowered → ∀ i ∈ p.insts, ∀ t ∈ i.targets, t.Within p.blocks.length
  resolved : p.stage = .resolved → ∀ i ∈ p.insts, ∀ t ∈ i.targets, t.IsResolved
  placed : p.stage = .resolved → layOut 0 p.blocks = (p.offsets, p.codeSize)

theorem tiles_rangesFrom (before : List Inst) (blocks : List Block)
    (h : ∀ b ∈ blocks, b.insts ≠ []) :
    Tiles (before ++ blocks.flatMap (·.insts)) before.length blocks
      (rangesFrom before.length blocks) := by
  induction blocks generalizing before with
  | nil => simp [Tiles, rangesFrom]
  | cons b blocks ih =>
      have hpos := List.length_pos_iff.mpr (h b List.mem_cons_self)
      have hrest := ih (before ++ b.insts) fun c hc => h c (List.mem_cons_of_mem b hc)
      rw [List.append_assoc, List.length_append] at hrest
      refine ⟨rfl, by omega, ?_, hrest⟩
      rw [List.flatMap_cons, List.take_length_add_append, List.drop_left, List.take_left]

theorem tiles_of_nonempty {p : Program} (h : ∀ b ∈ p.blocks, b.insts ≠ []) :
    Tiles p.insts 0 p.blocks p.ranges := tiles_rangesFrom [] p.blocks h

end Program

namespace Block

theorem Closed.nonempty {count : Nat} {b : Block} (h : b.Closed count) : b.insts ≠ [] := by
  obtain ⟨front, last, term, h⟩ := h
  rw [h.insts]
  simp

theorem EndsWith.rename {count : Nat} {b : Block} {front : List Inst} {last : Inst}
    {term : Terminator} (h : b.EndsWith count front last term) (f : Reg → Reg) :
    EndsWith count { b with insts := b.insts.map (·.rename f) } (front.map (·.rename f))
      (last.rename f) term :=
  { insts := by rw [h.insts, List.map_append, List.map_singleton]
    inner := by
      intro i hi
      obtain ⟨j, hj, rfl⟩ := List.mem_map.mp hi
      rw [Inst.terminator_rename]
      exact h.inner j hj
    ends := by rw [Inst.terminator_rename, h.ends]
    proper := h.proper
    succs := h.succs
    within := h.within }

theorem EndsWith.renumber {count : Nat} {b : Block} {front : List Inst} {last : Inst}
    {term : Terminator} (h : b.EndsWith count front last term) {f : Nat → Nat}
    (hf : ∀ s < count, f s < count) :
    (b.renumber f).EndsWith count (front.map (·.renumber f)) (last.renumber f) (term.renumber f) :=
  { insts := by rw [Block.renumber, h.insts, List.map_append, List.map_singleton]
    inner := by
      intro i hi
      obtain ⟨j, hj, rfl⟩ := List.mem_map.mp hi
      exact Inst.terminator_renumber (h.inner j hj) f
    ends := Inst.terminator_renumber h.ends f
    proper := Terminator.renumber_ne_none h.proper
    succs := by rw [Block.renumber, h.succs, Terminator.succs_renumber]
    within := by
      intro s hs
      rw [Terminator.succs_renumber] at hs
      obtain ⟨t, ht, rfl⟩ := List.mem_map.mp hs
      exact hf t (h.within t ht) }

end Block

namespace Builder

theorem checkInner_eq_ok {block : Nat} {insts : List Inst} :
    checkInner block insts = .ok () ↔ ∀ i ∈ insts, i.terminator = .ok .none := by
  induction insts with
  | nil => simp [checkInner]
  | cons i insts ih =>
      simp only [checkInner, Checked.bind_eq_ok, Checked.broken_bind, Checked.ite_broken_eq_ok, ih,
        ne_eq, not_not, List.forall_mem_cons]
      constructor
      · rintro ⟨term, hterm, rfl, hrest⟩
        exact ⟨hterm, hrest⟩
      · rintro ⟨hterm, hrest⟩
        exact ⟨.none, hterm, rfl, hrest⟩

theorem checkSuccs_eq_ok {count block : Nat} {succs : List Nat} :
    checkSuccs count block succs = .ok () ↔ ∀ s ∈ succs, s < count := by
  induction succs with
  | nil => simp [checkSuccs]
  | cons t succs ih =>
      simp only [checkSuccs, Checked.ite_broken_eq_ok, Nat.not_le, ih, List.forall_mem_cons]

theorem checkBlock_eq_ok {count block : Nat} {insts : List Inst} {b : Block} :
    checkBlock count block insts = .ok b ↔ b.insts = insts ∧ b.Closed count := by
  unfold checkBlock
  constructor
  · intro h
    cases hlast : insts.getLast? with
    | none =>
        rw [hlast] at h
        cases h
    | some last =>
        simp only [hlast, Checked.bind_eq_ok] at h
        obtain ⟨⟨⟩, hinner, term, hterm, h⟩ := h
        simp only [Checked.broken_bind, Checked.ite_broken_eq_ok, Checked.bind_eq_ok] at h
        obtain ⟨hproper, ⟨⟩, hsuccs, h⟩ := h
        cases h
        exact ⟨rfl, insts.dropLast, last, term,
          { insts := (List.dropLast_append_getLast? last hlast).symm
            inner := checkInner_eq_ok.mp hinner
            ends := hterm
            proper := hproper
            succs := rfl
            within := checkSuccs_eq_ok.mp hsuccs }⟩
  · rintro ⟨rfl, front, last, term, hends⟩
    have hinner : checkInner block front = .ok () := checkInner_eq_ok.mpr hends.inner
    have hsuccs : checkSuccs count block term.succs = .ok () := checkSuccs_eq_ok.mpr hends.within
    simp only [hends.insts, List.getLast?_concat, List.dropLast_concat, hinner, hends.ends,
      Checked.ok_bind, if_neg hends.proper, hsuccs]
    rw [← hends.insts, ← hends.succs]
    rfl

theorem checkBlocks_eq_ok {count block : Nat} {bodies : List (List Inst)} {blocks : List Block} :
    checkBlocks count block bodies = .ok blocks ↔
      blocks.map (·.insts) = bodies ∧ ∀ b ∈ blocks, b.Closed count := by
  induction bodies generalizing block blocks with
  | nil =>
      constructor
      · rintro ⟨⟩
        exact ⟨rfl, fun b hb => by cases hb⟩
      · rintro ⟨hnil, _⟩
        rw [List.map_eq_nil_iff.mp hnil]
        rfl
  | cons body bodies ih =>
      simp only [checkBlocks, Checked.bind_eq_ok, Checked.pure_eq_ok, checkBlock_eq_ok, ih]
      constructor
      · rintro ⟨first, ⟨rfl, hfirst⟩, others, ⟨rfl, hothers⟩, rfl⟩
        exact ⟨rfl, List.forall_mem_cons.mpr ⟨hfirst, hothers⟩⟩
      · rintro ⟨hinsts, hclosed⟩
        obtain ⟨first, others, rfl, hfirst, hothers⟩ := List.map_eq_cons_iff.mp hinsts
        obtain ⟨hclosed, hrest⟩ := List.forall_mem_cons.mp hclosed
        exact ⟨first, ⟨hfirst, hclosed⟩, others, ⟨hothers, hrest⟩, rfl⟩

/-- A program is built exactly from some blocks that are all closed. -/
theorem build_eq_ok_iff {builder : Builder} {p : Program} : builder.build = .ok p ↔
    builder.blocks ≠ [] ∧ p.blocks.map (·.insts) = builder.blocks ∧
      (∀ b ∈ p.blocks, b.Closed p.blocks.length) ∧ p = { blocks := p.blocks } := by
  simp only [build, Checked.broken_bind, Checked.ite_broken_eq_ok, Checked.bind_eq_ok,
    Checked.pure_eq_ok, checkBlocks_eq_ok, List.isEmpty_iff]
  refine and_congr_right fun _ => ?_
  constructor
  · rintro ⟨blocks, ⟨hinsts, hclosed⟩, rfl⟩
    rw [← hinsts, List.length_map] at hclosed
    exact ⟨hinsts, hclosed, rfl⟩
  · rintro ⟨hinsts, hclosed, hp⟩
    rw [← hinsts, List.length_map]
    exact ⟨p.blocks, ⟨rfl, hclosed⟩, hp.symm⟩

theorem build_eq_ok {builder : Builder} {p : Program} (h : builder.build = .ok p) :
    p.stage = .built ∧ ∀ b ∈ p.blocks, b.Closed p.blocks.length := by
  obtain ⟨_, _, hclosed, hp⟩ := build_eq_ok_iff.mp h
  exact ⟨by rw [hp], hclosed⟩

end Builder

namespace Program

/-- Before branches are lowered, the blocks are closed and nothing is asked of their targets. -/
theorem Invariant.early {p : Program} (hstage : p.stage = .built ∨ p.stage = .allocated)
    (hclosed : ∀ b ∈ p.blocks, b.Closed p.blocks.length)
    (hphysical : p.stage ≠ .built → ∀ i ∈ p.insts, i.Physical) : Invariant p := by
  have hlowered : p.stage ≠ .lowered := by
    rcases hstage with h | h <;> rw [h] <;> decide
  have hresolved : p.stage ≠ .resolved := by
    rcases hstage with h | h <;> rw [h] <;> decide
  exact
    { nonempty := fun b hb => (hclosed b hb).nonempty
      closed := fun _ => hclosed
      physical := hphysical
      lowered := fun h => absurd h (not_or.mpr ⟨hlowered, hresolved⟩)
      targeted := fun h => absurd h hlowered
      resolved := fun h => absurd h hresolved
      placed := fun h => absurd h hresolved }

theorem Invariant.of_build {builder : Builder} {p : Program} (h : builder.build = .ok p) :
    Invariant p := by
  obtain ⟨hstage, hclosed⟩ := Builder.build_eq_ok h
  exact .early (.inl hstage) hclosed fun hne => absurd hstage hne

theorem require_eq_ok {p : Program} {pass : Pass} :
    p.require pass = .ok () ↔ p.stage ∈ pass.stages := by
  simp [require, apply_ite (· = Except.ok ())]

section Allocate

theorem Invariant.renamed {p : Program} (h : Invariant p) {result : Allocation.Result}
    (hresult : p.assignment = .ok result) : Invariant (p.renamed result) := by
  have hstage : p.stage = .built := by
    simpa [Pass.stages] using require_eq_ok.mp (assignment_eq_ok.mp hresult).1
  have hclosed : ∀ b ∈ (p.renamed result).blocks, b.Closed (p.renamed result).blocks.length := by
    intro c hc
    obtain ⟨b, hb, rfl⟩ := List.mem_map.mp hc
    obtain ⟨front, last, term, hends⟩ := h.closed (.inl hstage) b hb
    rw [Program.renamed, List.length_map]
    exact ⟨_, _, _, hends.rename _⟩
  exact .early (.inr rfl) hclosed fun _ => physical_renamed hresult

end Allocate

section Reorder

variable {p : Program} {order : List Nat}

theorem subperm_range {count : Nat} (hbound : ∀ b ∈ order, b < count) (hnodup : order.Nodup) :
    order.Subperm (List.range count) :=
  List.subperm_of_subset hnodup fun b hb => List.mem_range.mpr (hbound b hb)

theorem mem_of_checkOrder (h : p.checkOrder order = .ok ()) {b : Nat} (hb : b < p.blocks.length) :
    b ∈ order := by
  obtain ⟨⟨hlength, _⟩, hbound, hnodup⟩ := checkOrder_eq_ok.mp h
  have hperm := (subperm_range hbound hnodup).perm_of_length_le (by simp [hlength])
  exact hperm.mem_iff.mpr (List.mem_range.mpr hb)

theorem idxOf_lt_of_checkOrder (h : p.checkOrder order = .ok ()) {b : Nat}
    (hb : b < p.blocks.length) : order.idxOf b < p.blocks.length := by
  have hlt := List.idxOf_lt_length_of_mem (mem_of_checkOrder h hb)
  rwa [(checkOrder_eq_ok.mp h).1.1] at hlt

/-- Every block of the new layout is a block of the old one, renumbered. -/
theorem mem_arranged (h : p.approveOrder order = .ok ()) :
    ∀ c ∈ (p.arranged order).blocks, ∃ b ∈ p.blocks, c = b.renumber order.idxOf := by
  obtain ⟨⟨⟩, _, hcheck⟩ := Checked.bind_eq_ok.mp h
  obtain ⟨_, hbound, _⟩ := checkOrder_eq_ok.mp hcheck
  intro c hc
  obtain ⟨old, hold, rfl⟩ := List.mem_map.mp hc
  have hlt := hbound old hold
  rw [List.getD_eq_getElem _ _ hlt]
  exact ⟨p.blocks[old], List.getElem_mem hlt, rfl⟩

theorem Invariant.arranged (h : Invariant p) (horder : p.approveOrder order = .ok ()) :
    Invariant (p.arranged order) := by
  obtain ⟨⟨⟩, hrequire, hcheck⟩ := Checked.bind_eq_ok.mp horder
  have hstage : p.stage = .built ∨ p.stage = .allocated := by
    simpa [Pass.stages] using require_eq_ok.mp hrequire
  have hlength := (checkOrder_eq_ok.mp hcheck).1.1
  have hclosed : ∀ c ∈ (p.arranged order).blocks, c.Closed (p.arranged order).blocks.length := by
    intro c hc
    obtain ⟨b, hb, rfl⟩ := mem_arranged horder c hc
    obtain ⟨front, last, term, hends⟩ := h.closed hstage b hb
    rw [Program.arranged, List.length_map, hlength]
    exact ⟨_, _, _, hends.renumber fun s hs => idxOf_lt_of_checkOrder hcheck hs⟩
  refine .early hstage hclosed ?_
  intro hne i hi
  obtain ⟨c, hc, hi⟩ := List.mem_flatMap.mp hi
  obtain ⟨b, hb, rfl⟩ := mem_arranged horder c hc
  obtain ⟨j, hj, rfl⟩ := List.mem_map.mp hi
  have hj := h.physical hne j (List.mem_flatMap.mpr ⟨b, hb, hj⟩)
  rw [Inst.physical_iff] at hj ⊢
  rwa [Inst.occurrences_renumber]

theorem Invariant.reorder_eq (h : Invariant p) (order : List Nat) :
    p.reorder order = (p.approveOrder order).map fun _ => p.arranged order :=
  Program.reorder_eq order fun hrequire =>
    h.closed (by simpa [Pass.stages] using require_eq_ok.mp hrequire)

end Reorder

section Lower

theorem lowerLast_append (next : Option Nat) (front : List Inst) (last : Inst) :
    lowerLast next (front ++ [last]) = front ++ [last.lower next] := by
  simp [lowerLast]

theorem length_lowerFrom (n : Nat) (blocks : List Block) :
    (lowerFrom n blocks).length = blocks.length := by
  induction blocks generalizing n with
  | nil => rfl
  | cons b blocks ih => simp only [lowerFrom, List.length_cons, ih]

theorem mem_lowerFrom {n : Nat} {blocks : List Block} {c : Block} (h : c ∈ lowerFrom n blocks) :
    ∃ b ∈ blocks, ∃ next, c = { b with insts := lowerLast next b.insts } := by
  induction blocks generalizing n with
  | nil => cases h
  | cons b blocks ih =>
      rcases List.mem_cons.mp h with rfl | h
      · exact ⟨b, List.mem_cons_self, _, rfl⟩
      · obtain ⟨d, hd, hc⟩ := ih h
        exact ⟨d, List.mem_cons_of_mem b hd, hc⟩

/-- A lowered instruction has the registers of the one it comes from; it is no conditional branch
with two targets, and all its targets are blocks. -/
theorem lowerFrom_inst {count : Nat} {b : Block} (hclosed : b.Closed count) {next : Option Nat}
    {i : Inst} (hi : i ∈ lowerLast next b.insts) :
    (∃ j ∈ b.insts, i.occurrences = j.occurrences) ∧ i.isBranch = false ∧
      ∀ t ∈ i.targets, t.Within count := by
  obtain ⟨front, last, term, h⟩ := hclosed
  rw [h.insts, lowerLast_append] at hi
  -- only the last instruction is lowered; the others have no targets at all
  rcases List.mem_append.mp hi with hi | hi
  · have hterm := h.inner i hi
    refine ⟨⟨i, by simp [h.insts, hi], rfl⟩, Inst.isBranch_of_terminator hterm, ?_⟩
    rw [Inst.targets_of_terminator hterm]
    intro t ht
    cases ht
  · rw [List.mem_singleton.mp hi]
    refine ⟨⟨last, by simp [h.insts], Inst.occurrences_lower next last⟩,
      Inst.isBranch_lower next last, ?_⟩
    intro t ht
    have ht := Inst.targets_lower_subset next last t ht
    rw [Inst.targets_of_terminator h.ends] at ht
    obtain ⟨s, hs, rfl⟩ := List.mem_map.mp ht
    exact ⟨s, rfl, h.within s hs⟩

theorem Invariant.lower {p : Program} (h : Invariant p) (hstage : p.stage = .allocated) :
    Invariant p.lowered := by
  have hclosed := h.closed (.inr hstage)
  have hinst : ∀ i ∈ p.lowered.insts, (∃ j ∈ p.insts, i.occurrences = j.occurrences) ∧
      i.isBranch = false ∧ ∀ t ∈ i.targets, t.Within p.lowered.blocks.length := by
    intro i hi
    obtain ⟨c, hc, hi⟩ := List.mem_flatMap.mp hi
    obtain ⟨b, hb, next, rfl⟩ := mem_lowerFrom hc
    obtain ⟨⟨j, hj, hocc⟩, hrest⟩ := lowerFrom_inst (hclosed b hb) hi
    rw [Program.lowered, length_lowerFrom]
    exact ⟨⟨j, List.mem_flatMap.mpr ⟨b, hb, hj⟩, hocc⟩, hrest⟩
  exact
    { nonempty := by
        intro c hc
        obtain ⟨b, hb, next, rfl⟩ := mem_lowerFrom hc
        obtain ⟨front, last, term, hends⟩ := hclosed b hb
        simp only [hends.insts, lowerLast_append]
        simp
      closed := by simp [Program.lowered]
      physical := by
        intro _ i hi
        obtain ⟨⟨j, hj, hocc⟩, _⟩ := hinst i hi
        have hj := h.physical (by rw [hstage]; decide) j hj
        rw [Inst.physical_iff] at hj ⊢
        rwa [hocc]
      lowered := fun _ i hi => (hinst i hi).2.1
      targeted := fun _ i hi => (hinst i hi).2.2
      resolved := by simp [Program.lowered]
      placed := by simp [Program.lowered] }

end Lower

section Resolve

variable {offsets : List CodeOffset}

theorem mem_settleInsts {off : CodeOffset} {insts : List Inst} {i : Inst}
    (h : i ∈ settleInsts offsets off insts) : ∃ j ∈ insts, ∃ here, i = j.settle offsets here := by
  induction insts generalizing off with
  | nil => cases h
  | cons k insts ih =>
      rcases List.mem_cons.mp h with rfl | h
      · exact ⟨k, List.mem_cons_self, off, rfl⟩
      · obtain ⟨j, hj, hi⟩ := ih h
        exact ⟨j, List.mem_cons_of_mem k hj, hi⟩

theorem mem_settleBlocks {off : CodeOffset} {blocks : List Block} {c : Block}
    (h : c ∈ settleBlocks offsets off blocks) :
    ∃ b ∈ blocks, ∃ here, c = { b with insts := settleInsts offsets here b.insts } := by
  induction blocks generalizing off with
  | nil => cases h
  | cons d blocks ih =>
      rcases List.mem_cons.mp h with rfl | h
      · exact ⟨d, List.mem_cons_self, off, rfl⟩
      · obtain ⟨b, hb, hc⟩ := ih h
        exact ⟨b, List.mem_cons_of_mem d hb, hc⟩

theorem map_size_settleInsts (offsets : List CodeOffset) (off : CodeOffset) (insts : List Inst) :
    (settleInsts offsets off insts).map (·.size) = insts.map (·.size) := by
  induction insts generalizing off with
  | nil => rfl
  | cons i insts ih => simp only [settleInsts, List.map_cons, Inst.size_settle, ih]

theorem sizeOf_congr {insts others : List Inst} (h : insts.map (·.size) = others.map (·.size)) :
    sizeOf insts = sizeOf others := by
  have hfold : ∀ l : List Inst, sizeOf l = (l.map (·.size)).foldl (· + ·) 0 := by
    intro l
    rw [List.foldl_map]
    rfl
  rw [hfold, hfold, h]

theorem layOut_settleBlocks (off off' : CodeOffset) (blocks : List Block) :
    layOut off (settleBlocks offsets off' blocks) = layOut off blocks := by
  induction blocks generalizing off off' with
  | nil => rfl
  | cons b blocks ih =>
      simp only [settleBlocks, layOut, sizeOf_congr (map_size_settleInsts offsets off' b.insts), ih]

theorem Invariant.settle {p : Program} (h : Invariant p) (hstage : p.stage = .lowered) :
    Invariant p.settled := by
  have hinst : ∀ i ∈ p.settled.insts, ∃ j ∈ p.insts, ∃ here,
      i = j.settle (layOut 0 p.blocks).1 here := by
    intro i hi
    obtain ⟨c, hc, hi⟩ := List.mem_flatMap.mp hi
    obtain ⟨b, hb, off, rfl⟩ := mem_settleBlocks hc
    obtain ⟨j, hj, hi⟩ := mem_settleInsts hi
    exact ⟨j, List.mem_flatMap.mpr ⟨b, hb, hj⟩, hi⟩
  have hlowered := h.lowered (.inl hstage)
  exact
    { nonempty := by
        intro c hc
        obtain ⟨b, hb, off, rfl⟩ := mem_settleBlocks hc
        -- as many sizes as before, so as many instructions
        have hsizes := map_size_settleInsts (layOut 0 p.blocks).1 off b.insts
        intro hempty
        change settleInsts (layOut 0 p.blocks).1 off b.insts = [] at hempty
        rw [hempty, List.map_nil, eq_comm, List.map_eq_nil_iff] at hsizes
        exact h.nonempty b hb hsizes
      closed := by simp [Program.settled]
      physical := by
        intro _ i hi
        obtain ⟨j, hj, here, rfl⟩ := hinst i hi
        have hj := h.physical (by rw [hstage]; decide) j hj
        rw [Inst.physical_iff] at hj ⊢
        rwa [Inst.occurrences_settle]
      lowered := by
        intro _ i hi
        obtain ⟨j, hj, here, rfl⟩ := hinst i hi
        rw [Inst.isBranch_settle]
        exact hlowered j hj
      targeted := by simp [Program.settled]
      resolved := by
        intro _ i hi
        obtain ⟨j, hj, here, rfl⟩ := hinst i hi
        exact Inst.isResolved_of_mem_settle (hlowered j hj)
      placed := fun _ => layOut_settleBlocks 0 0 p.blocks }

theorem Invariant.resolveOffsets_eq {p : Program} (h : Invariant p) :
    p.resolveOffsets = (p.require .resolveOffsets).map fun _ => p.settled :=
  Program.resolveOffsets_eq fun hrequire =>
    h.targeted (by simpa [Pass.stages] using require_eq_ok.mp hrequire)

end Resolve

end Program

end Codegen
