import Codegen.Failure

/-!
Register universes: the physical registers of a target, each at the position given by its index.

The registers that may be handed out come first, one contiguous range for each class; the rest are
reserved. `Universe.check` says whether a universe has that shape.
-/
namespace Codegen

structure RegInfo where
  reg : Reg
  name : String
  deriving DecidableEq, Repr

/-- The positions, first and last included, of the registers of a class that may be handed out. -/
structure ClassRange where
  first : Int
  last : Int
  /-- The position of a register that inserted code may use, or `-1`. -/
  scratch : Int := -1
  deriving DecidableEq, Repr

/-- The number of entries that a range announces, kept in a signed 64-bit word: it wraps around for
ends that are far enough apart. -/
def ClassRange.count (r : ClassRange) : Int := (Int64.ofInt (r.last - r.first + 1)).toInt

/-- The physical registers of a target. -/
structure Universe where
  regs : List RegInfo
  /-- How many of the first registers may be handed out. -/
  allocable : Int
  i64 : Option ClassRange
  v128 : Option ClassRange
  deriving DecidableEq, Repr

namespace Universe

def maxRegs : Nat := 128

/-- The most entries of eight bytes that an address space of 48 bits has room for. -/
def maxRoom : Int := (1 <<< 45 : Nat)

/-- The display name of a register: that of its entry, or the default text. -/
def name (u : Universe) (r : Reg) : String :=
  match u.regs[r.index.toNat]? with
  | some info => if info.reg = r then info.name else r.text
  | none => r.text

/-- The range of a class. There is a slot for each declared class, and one for the class of code
zero that is always empty. -/
def range (u : Universe) (c : RegClass) : Checked (Option ClassRange) :=
  if c.code = 0 then .ok none
  else if c = .i64 then .ok u.i64
  else if c = .v128 then .ok u.v128
  else .error .outOfBounds

/-- The entries at the positions of a range. Room is made beforehand for as many as the range
announces, which must be a number of entries that can be addressed. -/
def entries (u : Universe) (r : ClassRange) : Checked (List RegInfo) :=
  if r.count < 0 ∨ maxRoom < r.count then .error .outOfBounds
  else if r.last < r.first then .ok []
  else if r.first < 0 ∨ (u.regs.length : Int) ≤ r.last then .error .outOfBounds
  else .ok ((u.regs.drop r.first.toNat).take (r.last - r.first + 1).toNat)

/-- The registers of a class that may be handed out, in order of preference. -/
def allocableRegs (u : Universe) (c : RegClass) : Checked (List Reg) := do
  match ← u.range c with
  | none => return []
  | some r => return (← u.entries r).map (·.reg)

/-- A register that may be handed out, judged by its index. -/
def isAllocable (u : Universe) (r : Reg) : Bool := (r.index.toNat : Int) < u.allocable

/-- The first registers of the universe, those that may be handed out. -/
def leading (u : Universe) : Checked (List RegInfo) :=
  if u.allocable < 0 ∨ (u.regs.length : Int) < u.allocable then .error .outOfBounds
  else .ok (u.regs.take u.allocable.toNat)

def reserved (u : Universe) : Checked (List Reg) :=
  if u.allocable < 0 ∨ (u.regs.length : Int) < u.allocable then .error .outOfBounds
  else .ok ((u.regs.drop u.allocable.toNat).map (·.reg))

/-- Every register stands at the position of its index and has a declared class. -/
def checkEntries : Nat → List RegInfo → Checked Unit
  | _, [] => .ok ()
  | i, info :: rest =>
    if info.reg.index.toNat ≠ i then
      refuse (.misplacedRegister info.name i info.reg.index.toNat)
    else if !info.reg.isValid then refuse (.invalidRegisterClass info.name)
    else checkEntries (i + 1) rest

/-- Every register of a range has the class of the range. -/
def checkClass (c : RegClass) : List RegInfo → Checked Unit
  | [] => .ok ()
  | info :: rest =>
    if info.reg.cls ≠ c then refuse (.foreignRegister c info.name info.reg.cls)
    else checkClass c rest

/-- The number of registers in a sound range of a class. -/
def checkRange (u : Universe) (c : RegClass) : Option ClassRange → Checked Int
  | none => .ok 0
  | some r => do
    if r.last < r.first ∨ u.allocable ≤ r.last then refuse (.badRange c r.first r.last)
    checkClass c (← u.entries r)
    return r.last - r.first + 1

/-- Whether the universe has the shape that the allocator relies on. -/
def check (u : Universe) : Checked Unit := do
  if maxRegs < u.regs.length then refuse (.tooManyRegisters u.regs.length maxRegs)
  if (u.regs.length : Int) < u.allocable then refuse (.allocableCount u.allocable u.regs.length)
  checkEntries 0 u.regs
  let covered := (← u.checkRange .i64 u.i64) + (← u.checkRange .v128 u.v128)
  if covered ≠ u.allocable then refuse (.uncovered covered u.allocable)

/-- One line for each class and one for the reserved registers. -/
def text (u : Universe) : Checked String := do
  let names (rs : List Reg) : String := String.join (rs.map fun r => " " ++ u.name r)
  let general ← u.allocableRegs .i64
  let vector ← u.allocableRegs .v128
  let rest ← u.reserved
  return "I64:" ++ names general ++ "\nV128:" ++ names vector ++ "\nreserved:" ++ names rest

end Universe

end Codegen
