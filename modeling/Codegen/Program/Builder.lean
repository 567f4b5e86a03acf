import Codegen.Program.Basic

/-!
Building a program block by block.

Instructions go to the block that was started last. A program is built only from non-empty blocks
that end with their one terminator and branch to existing blocks.
-/
namespace Codegen

open A64 (Inst)

/-- The blocks of a program under construction. -/
structure Builder where
  closed : List (List Inst) := []
  current : Option (List Inst) := none
  deriving DecidableEq, Repr, Inhabited

inductive BuildStep where
  | start
  | push (insts : List Inst)
  deriving DecidableEq, Repr

namespace Builder

/-- The instructions of every block that was started. -/
def blocks (b : Builder) : List (List Inst) := b.closed ++ b.current.toList

/-- Starts the next block and gives its number. -/
def start (b : Builder) : Nat × Builder :=
  (b.blocks.length, { closed := b.blocks, current := some [] })

/-- Appends to the block that was started last. -/
def push (b : Builder) (insts : List Inst) : Checked Builder :=
  match b.current with
  | some block => .ok { b with current := some (block ++ insts) }
  | none => broken .pushOutsideBlock

def step (b : Builder) : BuildStep → Checked Builder
  | .start => .ok b.start.2
  | .push insts => b.push insts

/-- Does all steps, from no block at all. A step whose operands do not exist fails when its turn
comes. -/
def run (steps : List (Checked BuildStep)) : Checked Builder :=
  steps.foldlM (fun b s => do b.step (← s)) {}

/-- None of the instructions before the last one of a block ends it. -/
def checkInner (block : Nat) : List Inst → Checked Unit
  | [] => .ok ()
  | i :: rest => do
    if (← i.terminator) ≠ .none then broken (.innerTerminator block i.embedded)
    checkInner block rest

/-- The successors are blocks. -/
def checkSuccs (count block : Nat) : List Nat → Checked Unit
  | [] => .ok ()
  | s :: rest => if count ≤ s then broken (.missingTarget block s) else checkSuccs count block rest

/-- The block of some instructions, of a program with `count` blocks. -/
def checkBlock (count block : Nat) (insts : List Inst) : Checked Block :=
  match insts.getLast? with
  | none => broken (.emptyBlock block)
  | some last => do
    checkInner block insts.dropLast
    let term ← last.terminator
    if term = .none then broken (.noTerminator block last.embedded)
    checkSuccs count block term.succs
    return { insts, succs := term.succs }

/-- The blocks, numbered from `block` on, of a program with `count` blocks. -/
def checkBlocks (count : Nat) : Nat → List (List Inst) → Checked (List Block)
  | _, [] => .ok []
  | block, insts :: rest => do
    let b ← checkBlock count block insts
    return b :: (← checkBlocks count (block + 1) rest)

def build (b : Builder) : Checked Program := do
  if b.blocks.isEmpty then broken .noBlocks
  return { blocks := ← checkBlocks b.blocks.length 0 b.blocks }

end Builder

end Codegen
