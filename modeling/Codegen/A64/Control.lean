import Codegen.A64.Inst
import Codegen.Terminator

/-!
Control flow of instructions: how they end a block, how their targets follow a new block order,
how they are lowered once the next block is known, and how their targets become offsets.
-/
namespace Codegen.A64

/-- The block of a target that must not be resolved. -/
def BranchTarget.mustBlock : BranchTarget → Checked Nat
  | block b => .ok b
  | resolved off => broken (.targetNotBlock off.toInt)

def BranchTarget.isNext (next : Option Nat) (t : BranchTarget) : Bool :=
  match next, t with
  | some n, block b => b = n
  | _, _ => false

namespace Inst

/-- How the instruction ends a block. Lowered branches do not say. -/
def terminator : Inst → Checked Terminator
  | ret => return .ret
  | jump t => return .jump (← t.mustBlock)
  | branch t n _ => return .branch (← t.mustBlock) (← n.mustBlock)
  | i@(branchTo ..) => broken (.terminatorOfLowered i.kind)
  | i@(branchElse ..) => broken (.terminatorOfLowered i.kind)
  | _ => return .none

/-- Renumbers the targets; `labels` holds the new number of every block. -/
def relabel (labels : List Nat) : Inst → Checked Inst
  | jump t => return jump (← t.relabel labels)
  | branch t n cond => return branch (← t.relabel labels) (← n.relabel labels) cond
  | i@(branchTo ..) => broken (.relabelOfLowered i.kind)
  | i@(branchElse ..) => broken (.relabelOfLowered i.kind)
  | i => return i

/-- Lowers a branch, given the block that is laid out after it. A jump there is dropped, and a
conditional branch falls through to it. -/
def lower (next : Option Nat) : Inst → Inst
  | branch t n cond =>
    if t.isNext next then branchTo n true cond
    else if n.isNext next then branchTo t false cond
    else branchElse t n cond
  | jump t => if t.isNext next then nop else jump t
  | i => i

/-- Resolves the targets of a lowered branch at `here`. The jump of a compound branch is its second
word. -/
def resolve (here : CodeOffset) (offsets : List CodeOffset) : Inst → Checked Inst
  | jump t => return jump (← t.resolve offsets here)
  | branchTo t inverted cond => return branchTo (← t.resolve offsets here) inverted cond
  | branchElse t n cond =>
    return branchElse (← t.resolve offsets here) (← n.resolve offsets (here + 4)) cond
  | i => return i

end Inst

end Codegen.A64
