import Codegen.Universe
import Codegen.Uses

/-!
Flow graphs: what register allocation needs to know of a function. Instructions are numbered
through all blocks in order; block 0 is the entry.
-/
namespace Codegen.Allocation

structure Operands where
  reads : List Reg := []
  writes : List Reg := []
  /-- The destination and the source, if the instruction is a plain move. -/
  move : Option (Reg × Reg) := none
  deriving DecidableEq, Repr

def Operands.ofUses (u : Uses) (move : Option (Reg × Reg)) : Operands :=
  { reads := u.reads, writes := u.writes, move }

/-- A block of instructions and the blocks that may follow it. -/
structure Block where
  insts : List Operands
  succs : List Nat
  deriving DecidableEq, Repr

/-- The blocks of a function. -/
abbrev Graph := List Block

def Graph.insts (g : Graph) : List Operands := g.flatMap (·.insts)

/-- Every successor is a block of the graph. -/
def Graph.isClosed (g : Graph) : Bool := g.all fun b => b.succs.all (· < g.length)

/-- The registers whose liveness matters: virtual ones, and physical ones that may be handed
out. -/
def tracked (u : Universe) (r : Reg) : Bool := r.isVirtual || u.isAllocable r

end Codegen.Allocation
