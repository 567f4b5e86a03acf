import Codegen.Program.Layout
import Codegen.Program.Passes
import Codegen.Proofs.A64.Control
import Codegen.Proofs.A64.Operands
import Codegen.Proofs.Allocation.Separation
import Mathlib.Data.List.GetD

/-!
Passes as rewritings. Each pass decides whether it can be done before it changes anything; what it
then does to the instructions is a plain function of the program. The equations `allocate_eq`,
`reorder_eq`, `lowerBranches_eq` and `resolveOffsets_eq` say so, and everything else about the
passes is derived from them.
-/
namespace Codegen

open A64 (Inst)

def A64.Inst.Physical (i : Inst) : Prop :=
  ∃ us, i.uses = .ok us ∧ ∀ r ∈ us.reads ++ us.writes, r.isPhysical = true

theorem A64.Inst.physical_iff {i : Inst} :
    i.Physical ↔ ∃ o, i.occurrences = .ok o ∧ ∀ r ∈ o.all, r.isPhysical = true := by
  constructor
  · rintro ⟨us, hus, h⟩
    obtain ⟨o, ho, rfl⟩ := Inst.uses_eq_ok.mp hus
    exact ⟨o, ho, fun r hr => h r (List.mem_append.mpr (Inst.mem_uses_iff.mpr hr))⟩
  · rintro ⟨o, ho, h⟩
    exact ⟨_, Inst.uses_eq_ok.mpr ⟨o, ho, rfl⟩,
      fun r hr => h r (Inst.mem_uses_iff.mp (List.mem_append.mp hr))⟩

/-- The physical registers of the instruction are those of the target. -/
def A64.Inst.Native (i : Inst) : Prop :=
  ∀ o, i.occurrences = .ok o → ∀ r ∈ o.all, r.isPhysical = true → A64.registers.Known r

theorem A64.Inst.native_iff {i : Inst} : i.Native ↔
    ∀ o ∈ i.occurrences.toOption, ∀ r ∈ o.all, r.isPhysical = true → A64.registers.Known r := by
  unfold Native
  cases i.occurrences with
  | error f => simp [Except.toOption]
  | ok o => simp [Except.toOption]

instance (i : Inst) : Decidable i.Native := decidable_of_iff _ A64.Inst.native_iff.symm

/-- `last` is the one terminator of the block, the successors of the block are its targets, and
they are blocks of a program with `count` blocks. -/
structure Block.EndsWith (count : Nat) (b : Block) (front : List Inst) (last : Inst)
    (term : Terminator) : Prop where
  insts : b.insts = front ++ [last]
  inner : ∀ i ∈ front, i.terminator = .ok .none
  ends : last.terminator = .ok term
  proper : term ≠ .none
  succs : b.succs = term.succs
  within : ∀ s ∈ term.succs, s < count

/-- The block ends with its one terminator. -/
def Block.Closed (count : Nat) (b : Block) : Prop :=
  ∃ front last term, b.EndsWith count front last term

/-- In a closed block every instruction has a terminator with targets among the blocks. -/
theorem Block.Closed.terminator {count : Nat} {b : Block} (h : b.Closed count) {i : Inst}
    (hi : i ∈ b.insts) : ∃ term, i.terminator = .ok term ∧ ∀ s ∈ term.succs, s < count := by
  obtain ⟨front, last, term, h⟩ := h
  rw [h.insts, List.mem_append, List.mem_singleton] at hi
  rcases hi with hi | rfl
  · exact ⟨.none, h.inner i hi, fun s hs => by cases hs⟩
  · exact ⟨term, h.ends, h.within⟩

def Block.renumber (f : Nat → Nat) (b : Block) : Block :=
  { insts := b.insts.map (·.renumber f), succs := b.succs.map f }

namespace Program

section Allocate

def assignment (p : Program) : Checked Allocation.Result := do
  p.require .allocate
  (Allocation.allocate A64.registers (← p.graph)).mapError allocationFailure

def renamed (p : Program) (result : Allocation.Result) : Program :=
  { p with
    blocks := p.blocks.map fun b =>
      { b with insts := b.insts.map (·.rename result.assignment.standIn) }
    clobbered := result.clobbered
    stage := .allocated }

theorem uses_of_graph {p : Program} {g : Allocation.Graph} (h : p.graph = .ok g) {b : Block}
    (hb : b ∈ p.blocks) {i : Inst} (hi : i ∈ b.insts) :
    ∃ us, i.uses = .ok us ∧ Allocation.Operands.ofUses us i.move? ∈ g.insts := by
  obtain ⟨c, hc, hbc⟩ := Checked.exists_mem_of_mapM h hb
  obtain ⟨insts, hinsts, hbc⟩ := Checked.bind_eq_ok.mp hbc
  cases hbc
  obtain ⟨operands, hmem, hi⟩ := Checked.exists_mem_of_mapM hinsts hi
  obtain ⟨us, hus, hi⟩ := Checked.bind_eq_ok.mp hi
  cases hi
  exact ⟨us, hus, List.mem_flatMap.mpr ⟨_, hc, hmem⟩⟩

theorem exists_of_mem_graph {p : Program} {g : Allocation.Graph} (h : p.graph = .ok g)
    {operands : Allocation.Operands} (hmem : operands ∈ g.insts) :
    ∃ i ∈ p.insts, ∃ us, i.uses = .ok us ∧ operands = Allocation.Operands.ofUses us i.move? := by
  obtain ⟨c, hc, hmem⟩ := List.mem_flatMap.mp hmem
  obtain ⟨b, hb, hbc⟩ := Checked.exists_of_mem_mapM h hc
  obtain ⟨insts, hinsts, hbc⟩ := Checked.bind_eq_ok.mp hbc
  cases hbc
  obtain ⟨i, hi, hoperands⟩ := Checked.exists_of_mem_mapM hinsts hmem
  obtain ⟨us, hus, hoperands⟩ := Checked.bind_eq_ok.mp hoperands
  cases hoperands
  exact ⟨i, List.mem_flatMap.mpr ⟨b, hb, hi⟩, us, hus, rfl⟩

theorem mem_all_of_move? {i : Inst} {o : Inst.Occurrences} {m : Reg × Reg}
    (ho : i.occurrences = .ok o) (hmove : i.move? = some m) : m.1 ∈ o.all ∧ m.2 ∈ o.all := by
  cases i with
  | mov rd rm =>
      cases ho
      cases hmove
      simp [Inst.Occurrences.all]
  | _ => cases hmove

theorem within_of_native {p : Program} {g : Allocation.Graph}
    (hnative : ∀ i ∈ p.insts, i.Native) (hg : p.graph = .ok g) : g.Within A64.registers := by
  intro operands hmem r hr hphys
  obtain ⟨i, hi, us, hus, rfl⟩ := exists_of_mem_graph hg hmem
  obtain ⟨o, ho, rfl⟩ := Inst.uses_eq_ok.mp hus
  refine hnative i hi o ho r ?_ hphys
  rcases List.mem_append.mp hr with hr | hr
  · exact Inst.mem_uses_iff.mp (List.mem_append.mp hr)
  · change r ∈ i.move?.elim [] fun m => [m.1, m.2] at hr
    cases hmove : i.move? with
    | none =>
        rw [hmove] at hr
        cases hr
    | some m =>
        obtain ⟨hrd, hrm⟩ := mem_all_of_move? ho hmove
        rw [hmove] at hr
        rcases List.mem_cons.mp hr with rfl | hr
        · exact hrd
        · rw [List.mem_singleton.mp hr]
          exact hrm

theorem isPhysical_of_known {r : Reg} (h : A64.registers.Known r) : r.isPhysical = true := by
  have hall : ∀ r ∈ A64.registers.regs.map (·.reg), r.isPhysical = true := by decide
  exact hall r h

section Outcome

variable {g : Allocation.Graph} {result : Allocation.Result}
  (hresult : Allocation.allocate A64.registers g = .ok result)

include hresult

theorem apply_of_allocate {us : Uses} {move : Option (Reg × Reg)} {r : Reg}
    (hi : Allocation.Operands.ofUses us move ∈ g.insts) (hr : r ∈ us.reads ∨ r ∈ us.writes) :
    result.assignment.apply r = .ok (result.assignment.standIn r) ∧
      (result.assignment.standIn r).isPhysical = true := by
  cases hv : r.isVirtual with
  | false =>
      have hp : r.isPhysical = true := by simp only [Reg.isPhysical, hv, Bool.not_false]
      rw [RegMap.standIn_of_physical _ hp]
      exact ⟨by simp only [RegMap.apply, hp, if_true], hp⟩
  | true =>
      obtain ⟨p, hget, _, _⟩ := Allocation.exists_get? hresult hi hr hv
      rw [RegMap.standIn_of_get? hv hget]
      refine ⟨by simp [RegMap.apply, Reg.isPhysical, hv, hget], ?_⟩
      exact Allocation.source_of_get? hresult (fun _ _ _ _ h => h)
        (fun _ h => isPhysical_of_known h) hget

theorem mapRegs_of_allocate {i : Inst} {o : Inst.Occurrences} (ho : i.occurrences = .ok o)
    (hi : Allocation.Operands.ofUses (Uses.ofLists o.used o.defined o.modified).normalize i.move? ∈
      g.insts) :
    i.mapRegs result.assignment result.assignment = .ok (i.rename result.assignment.standIn) ∧
      (i.rename result.assignment.standIn).occurrences =
        .ok (o.map result.assignment.standIn) :=
  Inst.mapRegs_eq_rename ho
    (fun _ hr => (apply_of_allocate hresult hi (Inst.mem_uses_iff.mpr hr)).1)
    (RegMap.standIn_of_physical _ (by decide))

end Outcome

theorem checkAllocated_eq_ok {insts : List Inst} (h : ∀ i ∈ insts, i.Physical) :
    checkAllocated insts = .ok () := by
  induction insts with
  | nil => rfl
  | cons i insts ih =>
      obtain ⟨us, hus, hphys⟩ := h i List.mem_cons_self
      have hnone : (us.reads ++ us.writes).find? (·.isVirtual) = none := by
        rw [List.find?_eq_none]
        intro r hr
        have hr := hphys r hr
        simpa [Reg.isPhysical] using hr
      simp only [checkAllocated, hus, Checked.ok_bind, hnone]
      exact ih fun j hj => h j (List.mem_cons_of_mem i hj)

theorem assignment_eq_ok {p : Program} {result : Allocation.Result} :
    p.assignment = .ok result ↔ p.require .allocate = .ok () ∧
      ∃ g, p.graph = .ok g ∧ Allocation.allocate A64.registers g = .ok result := by
  have hmapError : ∀ x : Checked Allocation.Result,
      x.mapError allocationFailure = .ok result ↔ x = .ok result := by
    intro x
    cases x with
    | error f => simp [Except.mapError]
    | ok a => simp [Except.mapError]
  simp only [assignment, Checked.bind_eq_ok, hmapError]
  constructor
  · rintro ⟨⟨⟩, hrequire, hrest⟩
    exact ⟨hrequire, hrest⟩
  · rintro ⟨hrequire, hrest⟩
    exact ⟨(), hrequire, hrest⟩

theorem mapRegs_of_assignment {p : Program} {result : Allocation.Result}
    (h : p.assignment = .ok result) {b : Block} (hb : b ∈ p.blocks) {i : Inst} (hi : i ∈ b.insts) :
    i.mapRegs result.assignment result.assignment = .ok (i.rename result.assignment.standIn) ∧
      (i.rename result.assignment.standIn).Physical := by
  obtain ⟨_, g, hg, hresult⟩ := assignment_eq_ok.mp h
  obtain ⟨us, hus, hmem⟩ := uses_of_graph hg hb hi
  obtain ⟨o, ho, rfl⟩ := Inst.uses_eq_ok.mp hus
  obtain ⟨hmap, hocc⟩ := mapRegs_of_allocate hresult ho hmem
  refine ⟨hmap, Inst.physical_iff.mpr ⟨_, hocc, ?_⟩⟩
  intro r hr
  obtain ⟨s, hs, rfl⟩ := Inst.Occurrences.mem_all_map.mp hr
  exact (apply_of_allocate hresult hmem (Inst.mem_uses_iff.mpr hs)).2

theorem physical_renamed {p : Program} {result : Allocation.Result}
    (h : p.assignment = .ok result) : ∀ i ∈ (p.renamed result).insts, i.Physical := by
  intro i hi
  obtain ⟨c, hc, hi⟩ := List.mem_flatMap.mp hi
  obtain ⟨b, hb, rfl⟩ := List.mem_map.mp hc
  obtain ⟨j, hj, rfl⟩ := List.mem_map.mp hi
  exact (mapRegs_of_assignment h hb hj).2

theorem known_standIn {p : Program} {g : Allocation.Graph} {result : Allocation.Result}
    (hnative : ∀ i ∈ p.insts, i.Native) (hg : p.graph = .ok g)
    (hresult : Allocation.allocate A64.registers g = .ok result) {i : Inst} (hi : i ∈ p.insts)
    {o : Inst.Occurrences} (ho : i.occurrences = .ok o) {r : Reg} (hr : r ∈ o.all) :
    A64.registers.Known (result.assignment.standIn r) := by
  cases hv : r.isVirtual with
  | false =>
      have hp : r.isPhysical = true := by simp only [Reg.isPhysical, hv, Bool.not_false]
      rw [RegMap.standIn_of_physical _ hp]
      exact hnative i hi o ho r hr hp
  | true =>
      obtain ⟨b, hb, hib⟩ := List.mem_flatMap.mp hi
      obtain ⟨us, hus, hmem⟩ := uses_of_graph hg hb hib
      obtain ⟨o', ho', rfl⟩ := Inst.uses_eq_ok.mp hus
      cases ho.symm.trans ho'
      obtain ⟨phys, hget, _, _⟩ :=
        Allocation.exists_get? hresult hmem (Inst.mem_uses_iff.mpr hr) hv
      rw [RegMap.standIn_of_get? hv hget]
      exact Allocation.known_of_get? (within_of_native hnative hg) hresult hget

def replaceRegs (p : Program) (result : Allocation.Result) : Checked Program := do
  let blocks ← p.blocks.mapM fun b => do
    return { b with insts := ← b.insts.mapM (·.mapRegs result.assignment result.assignment) }
  let p := { p with blocks, clobbered := result.clobbered, stage := .allocated }
  checkAllocated p.insts
  return p

theorem replaceRegs_eq {p : Program} {result : Allocation.Result} (h : p.assignment = .ok result) :
    p.replaceRegs result = .ok (p.renamed result) := by
  have hblock : ∀ b ∈ p.blocks, (do
        return { b with insts := ← b.insts.mapM (·.mapRegs result.assignment result.assignment) } :
          Checked Block) =
      .ok { b with insts := b.insts.map (·.rename result.assignment.standIn) } := by
    intro b hb
    rw [Checked.mapM_eq_map fun i hi => (mapRegs_of_assignment h hb hi).1]
    rfl
  have hcheck := checkAllocated_eq_ok (physical_renamed h)
  simp only [replaceRegs, Checked.mapM_eq_map hblock, Checked.ok_bind]
  change (checkAllocated (p.renamed result).insts >>= fun _ => pure (p.renamed result)) = _
  rw [hcheck]
  rfl

/-- Once registers are assigned, replacing them cannot fail. -/
theorem allocate_eq (p : Program) : p.allocate = p.assignment.map p.renamed := by
  have hsplit : p.allocate = p.assignment >>= p.replaceRegs := by
    simp only [allocate, assignment, bind_assoc]
    rfl
  rw [hsplit]
  cases h : p.assignment with
  | error f => rfl
  | ok result => exact replaceRegs_eq h

end Allocate

section Reorder

def approveOrder (p : Program) (order : List Nat) : Checked Unit := do
  p.require .reorder
  p.checkOrder order

def arranged (p : Program) (order : List Nat) : Program :=
  { p with blocks := order.map fun old => (p.blocks.getD old ⟨[], []⟩).renumber order.idxOf }

theorem checkOrder_eq_ok {p : Program} {order : List Nat} :
    p.checkOrder order = .ok () ↔ (order.length = p.blocks.length ∧ order.head? = some 0) ∧
      (∀ b ∈ order, b < p.blocks.length) ∧ order.Nodup := by
  simp only [checkOrder, Checked.broken_bind, Checked.ite_broken_eq_ok, not_or, not_not, ne_eq,
    Checked.pure_eq_ok, and_true]

/-- The new number of a block is its place in the order. -/
theorem entry_labels {count s : Nat} (order : List Nat) (hs : s < count) :
    entry ((List.range count).map fun b => order.idxOf b) s = .ok (order.idxOf s) := by
  rw [Checked.entry_eq_ok, List.getElem?_map, List.getElem?_range hs]
  rfl

theorem relabelBlock_eq {count : Nat} {b : Block} (h : b.Closed count) (order : List Nat) :
    relabelBlock ((List.range count).map fun b => order.idxOf b) b =
      .ok (b.renumber order.idxOf) := by
  have hinsts : ∀ i ∈ b.insts, i.relabel ((List.range count).map fun b => order.idxOf b) =
      .ok (i.renumber order.idxOf) := by
    intro i hi
    obtain ⟨term, hterm, hsuccs⟩ := h.terminator hi
    exact Inst.relabel_eq_renumber hterm fun s hs => entry_labels order (hsuccs s hs)
  have hsuccs : ∀ s ∈ b.succs, entry ((List.range count).map fun b => order.idxOf b) s =
      .ok (order.idxOf s) := by
    intro s hs
    obtain ⟨front, last, term, hends⟩ := h
    exact entry_labels order (hends.within s (hends.succs ▸ hs))
  simp only [relabelBlock, Checked.mapM_eq_map hinsts, Checked.mapM_eq_map hsuccs, Checked.ok_bind]
  rfl

/-- Closed blocks can be laid out in every order that passes the check. -/
theorem reorder_eq {p : Program} (order : List Nat)
    (h : p.require .reorder = .ok () → ∀ b ∈ p.blocks, b.Closed p.blocks.length) :
    p.reorder order = (p.approveOrder order).map fun _ => p.arranged order := by
  unfold reorder approveOrder
  cases hrequire : p.require .reorder with
  | error f => rfl
  | ok u =>
      have hclosed := h hrequire
      cases horder : p.checkOrder order with
      | error f => rfl
      | ok v =>
          obtain ⟨_, hbound, _⟩ := checkOrder_eq_ok.mp horder
          have hblock : ∀ old ∈ order, (do
                relabelBlock ((List.range p.blocks.length).map fun b => order.idxOf b)
                  (← entry p.blocks old)) =
              .ok ((p.blocks.getD old ⟨[], []⟩).renumber order.idxOf) := by
            intro old hold
            have hlt := hbound old hold
            have hentry : entry p.blocks old = .ok p.blocks[old] :=
              Checked.entry_eq_ok.mpr (List.getElem?_eq_getElem hlt)
            rw [hentry, Checked.ok_bind, relabelBlock_eq (hclosed _ (List.getElem_mem hlt)),
              List.getD_eq_getElem _ _ hlt]
          simp only [Checked.ok_bind, Checked.mapM_eq_map hblock]
          rfl

end Reorder

section Lower

def lowered (p : Program) : Program := { p with blocks := lowerFrom 0 p.blocks, stage := .lowered }

theorem lowerBranches_eq (p : Program) :
    p.lowerBranches = (p.require .lowerBranches).map fun _ => p.lowered := by
  unfold lowerBranches
  cases p.require .lowerBranches with
  | error f => rfl
  | ok u => rfl

end Lower

section Resolve

def settleInsts (offsets : List CodeOffset) : CodeOffset → List Inst → List Inst
  | _, [] => []
  | off, i :: rest => i.settle offsets off :: settleInsts offsets (off + i.size) rest

/-- Resolves blocks, the first one at `off`, where every target has an offset. -/
def settleBlocks (offsets : List CodeOffset) : CodeOffset → List Block → List Block
  | _, [] => []
  | off, b :: rest =>
    { b with insts := settleInsts offsets off b.insts } ::
      settleBlocks offsets (off + sizeOf b.insts) rest

def settled (p : Program) : Program :=
  { p with
    blocks := settleBlocks (layOut 0 p.blocks).1 0 p.blocks
    offsets := (layOut 0 p.blocks).1
    codeSize := (layOut 0 p.blocks).2
    stage := .resolved }

theorem length_layOut (off : CodeOffset) (blocks : List Block) :
    (layOut off blocks).1.length = blocks.length := by
  induction blocks generalizing off with
  | nil => rfl
  | cons b blocks ih => simp only [layOut, List.length_cons, ih]

variable {offsets : List CodeOffset}

theorem resolveInsts_eq {insts : List Inst} (off : CodeOffset)
    (h : ∀ i ∈ insts, ∀ t ∈ i.targets, t.Within offsets.length) :
    resolveInsts offsets off insts = .ok (settleInsts offsets off insts) := by
  induction insts generalizing off with
  | nil => rfl
  | cons i insts ih =>
      have hrest := ih (off + i.size) fun j hj => h j (List.mem_cons_of_mem i hj)
      simp only [resolveInsts, Inst.resolve_eq_settle off (h i List.mem_cons_self), hrest,
        Checked.ok_bind]
      rfl

theorem resolveBlocks_eq {blocks : List Block} (off : CodeOffset)
    (h : ∀ b ∈ blocks, ∀ i ∈ b.insts, ∀ t ∈ i.targets, t.Within offsets.length) :
    resolveBlocks offsets off blocks = .ok (settleBlocks offsets off blocks) := by
  induction blocks generalizing off with
  | nil => rfl
  | cons b blocks ih =>
      have hrest := ih (off + sizeOf b.insts) fun c hc => h c (List.mem_cons_of_mem b hc)
      simp only [resolveBlocks, resolveInsts_eq off (h b List.mem_cons_self), hrest,
        Checked.ok_bind]
      rfl

/-- Where every target is a block, resolving cannot fail. -/
theorem resolveOffsets_eq {p : Program} (h : p.require .resolveOffsets = .ok () →
      ∀ i ∈ p.insts, ∀ t ∈ i.targets, t.Within p.blocks.length) :
    p.resolveOffsets = (p.require .resolveOffsets).map fun _ => p.settled := by
  unfold resolveOffsets
  cases hrequire : p.require .resolveOffsets with
  | error f => rfl
  | ok u =>
      have hblocks : resolveBlocks (layOut 0 p.blocks).1 0 p.blocks =
          .ok (settleBlocks (layOut 0 p.blocks).1 0 p.blocks) := by
        refine resolveBlocks_eq 0 fun b hb i hi => ?_
        rw [length_layOut]
        exact h hrequire i (List.mem_flatMap.mpr ⟨b, hb, hi⟩)
      simp only [Checked.ok_bind, hblocks]
      rfl

end Resolve

end Program

end Codegen
