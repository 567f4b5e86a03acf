/-!
Stages of a program and the passes that move it from one to the next.
-/
namespace Codegen

inductive Stage where
  | built
  | allocated
  | lowered
  | resolved
  deriving DecidableEq, Repr

def Stage.name : Stage → String
  | built => "built"
  | allocated => "allocated"
  | lowered => "lowered"
  | resolved => "resolved"

/-- What can be asked of a program, each at certain stages only. -/
inductive Pass where
  | allocate
  | reorder
  | lowerBranches
  | resolveOffsets
  | emit
  | listOffsets
  deriving DecidableEq, Repr

namespace Pass

def name : Pass → String
  | allocate => "RegAlloc"
  | reorder => "Reorder"
  | lowerBranches => "LowerBranches"
  | resolveOffsets => "ComputeOffsets"
  | emit => "Emit"
  | listOffsets => "ShowWithOffsets"

/-- The stages at which a pass may run. -/
def stages : Pass → List Stage
  | allocate => [.built]
  | reorder => [.built, .allocated]
  | lowerBranches => [.allocated]
  | resolveOffsets => [.lowered]
  | emit => [.resolved]
  | listOffsets => [.resolved]

end Pass

end Codegen
