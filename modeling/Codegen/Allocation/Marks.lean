import Codegen.Universe

/-!
Marked registers: one bit for each register that a universe may have, at the index of the register.
A register whose index is beyond the last word cannot be marked and cannot be looked up.
-/
namespace Codegen.Allocation

/-- The words that hold the marks. -/
structure Marks where
  words : Vector UInt64 (Universe.maxRegs / 64)
  deriving DecidableEq, Repr

namespace Marks

def empty : Marks := ⟨.replicate _ 0⟩

/-- The place of a register in its word. -/
def bit (r : Reg) : UInt64 := 1 <<< (r.index % 64).toUInt64

def has (m : Marks) (r : Reg) : Checked Bool := do
  let w ← entry m.words.toList (r.index / 64).toNat
  return w &&& bit r != 0

def add (m : Marks) (r : Reg) : Checked Marks := do
  let w ← entry m.words.toList (r.index / 64).toNat
  return ⟨m.words.setIfInBounds (r.index / 64).toNat (w ||| bit r)⟩

def ofList (rs : List Reg) : Checked Marks := rs.foldlM add empty

end Marks

end Codegen.Allocation
