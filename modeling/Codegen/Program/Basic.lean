import Codegen.A64.Control
import Codegen.A64.Operands
import Codegen.A64.Listing
import Codegen.Stage

/-!
Programs: the machine code of one function as a list of blocks, the entry first.

Passes move a program from stage to stage; asking for one at a wrong stage breaks a rule and
changes nothing.
-/
namespace Codegen

open A64 (Inst)

/-- The instructions of a block and the blocks that may follow it. -/
structure Block where
  insts : List Inst
  succs : List Nat
  deriving DecidableEq, Repr

/-- The machine code of a function. -/
structure Program where
  blocks : List Block
  stage : Stage := .built
  /-- The offset of every block, once resolved. -/
  offsets : List CodeOffset := []
  /-- The size of the code without its constants, once resolved. -/
  codeSize : CodeOffset := 0
  /-- The registers written that may be handed out, once allocated. -/
  clobbered : List Reg := []
  deriving DecidableEq, Repr

namespace Program

def insts (p : Program) : List Inst := p.blocks.flatMap (·.insts)

/-- The ranges of instruction numbers of lists of instructions, from `start` on. -/
def rangesFrom : Nat → List Block → List (Nat × Nat)
  | _, [] => []
  | start, b :: rest =>
    (start, start + b.insts.length) :: rangesFrom (start + b.insts.length) rest

/-- For every block the number of its first instruction and that of the first one after it. -/
def ranges (p : Program) : List (Nat × Nat) := rangesFrom 0 p.blocks

/-- Whether a pass may run at the stage of the program. -/
def require (p : Program) (pass : Pass) : Checked Unit :=
  if pass.stages.contains p.stage then .ok () else broken (.outOfOrder pass p.stage)

end Program

end Codegen
