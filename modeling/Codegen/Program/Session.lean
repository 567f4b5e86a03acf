import Codegen.Program.Layout
import Codegen.Program.Listing
import Codegen.Program.Passes

/-!
Sessions: requests made of a program one after the other, in any order.

A request that fails leaves the program as it was. Emission that fails leaves in the buffer what
was written before.
-/
namespace Codegen

open A64 (Naming)

/-- A program and the code emitted so far. -/
structure Session where
  program : Program
  buffer : CodeBuffer := {}
  deriving DecidableEq, Repr

inductive Request where
  | allocate
  | reorder (order : List Nat)
  | reorderFallthrough
  | lowerBranches
  | resolveOffsets
  | emit
  | list (name : Naming)
  | listOffsets (name : Naming)

inductive Reply where
  | program (p : Program)
  | pool (p : ConstantPool)
  | text (s : String)
  deriving DecidableEq, Repr

namespace Session

/-- Runs a pass; the program changes only if it succeeds. -/
def pass (s : Session) (result : Checked Program) : Session × Checked Reply :=
  match result with
  | .ok p => ({ s with program := p }, .ok (.program p))
  | .error f => (s, .error f)

def perform (s : Session) : Request → Session × Checked Reply
  | .allocate => s.pass s.program.allocate
  | .reorder order => s.pass (s.program.reorder order)
  | .reorderFallthrough => s.pass (s.program.reorder s.program.fallthroughOrder)
  | .lowerBranches => s.pass s.program.lowerBranches
  | .resolveOffsets => s.pass s.program.resolveOffsets
  | .emit =>
    let (result, buffer) := s.program.emit s.buffer
    ({ s with buffer }, result.map .pool)
  | .list name => (s, (s.program.text name).map .text)
  | .listOffsets name => (s, (s.program.textWithOffsets name).map .text)

end Session

end Codegen
