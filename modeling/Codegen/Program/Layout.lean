import Codegen.Program.Basic

/-!
Block layout: the order that follows control flow, and laying blocks out in a given order.
-/
namespace Codegen.Program

/-- The block to place after `current`: of its successors the last one that is not placed, which is
the one that is not taken, and otherwise the first block that is not placed. -/
def nextBlock? (p : Program) (placed : List Nat) (current : Nat) : Option Nat :=
  let succs := (p.blocks[current]?).elim [] (·.succs)
  (succs.reverse.find? fun s => !placed.contains s).or
    ((List.range p.blocks.length).find? fun b => !placed.contains b)

/-- Places `count` blocks after those that are placed, beginning with `next`. -/
def orderFrom (p : Program) : Nat → List Nat → Nat → List Nat
  | 0, placed, _ => placed
  | count + 1, placed, next =>
    let placed := placed ++ [next]
    match p.nextBlock? placed next with
    | some b => orderFrom p count placed b
    | none => placed

/-- An order in which, where possible, a jump or the branch that is not taken goes to the next
block. -/
def fallthroughOrder (p : Program) : List Nat := p.orderFrom p.blocks.length [] 0

/-- The order has every block once, the entry first. -/
def checkOrder (p : Program) (order : List Nat) : Checked Unit := do
  let count := p.blocks.length
  if order.length ≠ count ∨ order.head? ≠ some 0 then broken (.orderLength order count)
  if ¬ ((∀ b ∈ order, b < count) ∧ order.Nodup) then broken (.notPermutation order)

def relabelBlock (labels : List Nat) (b : Block) : Checked Block :=
  return { insts := ← b.insts.mapM (·.relabel labels), succs := ← b.succs.mapM (entry labels) }

def reorder (p : Program) (order : List Nat) : Checked Program := do
  p.require .reorder
  p.checkOrder order
  let labels := (List.range p.blocks.length).map fun b => order.idxOf b
  let blocks ← order.mapM fun old => do relabelBlock labels (← entry p.blocks old)
  return { p with blocks }

end Codegen.Program
