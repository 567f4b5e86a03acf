import Codegen.Failure

/-!
Register maps: the physical registers assigned to virtual ones.
-/
namespace Codegen

/-- An assignment of physical registers to virtual ones. The first entry of a register counts. -/
structure RegMap where
  entries : List (Reg × Reg) := []
  deriving DecidableEq, Repr, Inhabited

namespace RegMap

def get? (m : RegMap) (r : Reg) : Option Reg := m.entries.lookup r

/-- The entries of a list; of two entries of one register the later counts. -/
def ofList (entries : List (Reg × Reg)) : RegMap := ⟨entries.reverse⟩

/-- The register that stands for `r`: physical registers stand for themselves. -/
def apply (m : RegMap) (r : Reg) : Checked Reg :=
  if r.isPhysical then .ok r
  else match m.get? r with
    | some p => .ok p
    | none => broken (.unallocated r)

end RegMap

end Codegen
