import Codegen.Failure

/-!
Immediates of A64 instructions. Each has a constructor that accepts exactly the values its field
can hold, and keeps the value as it is shown. Values that were not checked may be kept as well;
encoding then cuts or refuses them.
-/
namespace Codegen.A64

/-- The bits of a signed number in a field of the given width. -/
def signedField (width : Nat) (v : Int) : Nat := (BitVec.ofInt width v).toNat

def signedField? (width : Nat) (v : Int) : Option Nat :=
  let half : Int := (1 <<< (width - 1) : Nat)
  if -half ≤ v ∧ v < half then some (signedField width v) else none

def immText (v : Int) : String := "#" ++ toString v

/-- A 12-bit unsigned immediate, shifted left by twelve or not. -/
structure Imm12 where
  bits : UInt16
  shift12 : Bool := false
  deriving DecidableEq, Repr

namespace Imm12

def ofValue? (v : UInt64) : Option Imm12 :=
  if v &&& ~~~0xfff = 0 then some { bits := v.toUInt16 }
  else if v &&& ~~~0xfff000 = 0 then some { bits := (v >>> 12).toUInt16, shift12 := true }
  else none

def value (i : Imm12) : UInt64 :=
  if i.shift12 then i.bits.toUInt64 <<< 12 else i.bits.toUInt64

def text (i : Imm12) : String :=
  if i.shift12 then immText i.bits.toNat ++ ", LSL 12" else immText i.bits.toNat

end Imm12

/-- The amount of a shift by an immediate, 0 to 63. -/
structure ShiftImm where
  amount : UInt8
  deriving DecidableEq, Repr

namespace ShiftImm

def ofValue? (v : UInt64) : Option ShiftImm :=
  if 63 < v then none else some ⟨v.toUInt8⟩

def text (i : ShiftImm) : String := immText i.amount.toNat

end ShiftImm

/-- A 16-bit immediate in one of the four quarters of a register. -/
structure MoveWide where
  bits : UInt16
  shift : UInt8 := 0
  deriving DecidableEq, Repr

namespace MoveWide

/-- The lowest quarter outside of which the value is zero. -/
def ofValue? (v : UInt64) : Option MoveWide :=
  ([0, 1, 2, 3] : List Nat).findSome? fun quarter =>
    let lsb := UInt64.ofNat (16 * quarter)
    if v &&& ~~~(0xffff <<< lsb) = 0 then
      some { bits := (v >>> lsb).toUInt16, shift := UInt8.ofNat quarter }
    else none

/-- The number of bits the immediate is shifted by, which is kept in a byte. -/
def lsb (m : MoveWide) : UInt8 := m.shift * 16

def value (m : MoveWide) : UInt64 := UInt64.ofNat (m.bits.toNat <<< m.lsb.toNat)

def text (m : MoveWide) : String :=
  if m.shift = 0 then immText m.bits.toNat
  else immText m.bits.toNat ++ s!", LSL #{m.lsb.toNat}"

end MoveWide

structure SImm9 where
  value : Int16
  deriving DecidableEq, Repr

namespace SImm9

def ofValue? (v : Int64) : Option SImm9 :=
  if -256 ≤ v.toInt ∧ v.toInt ≤ 255 then some ⟨Int16.ofInt v.toInt⟩ else none

def field (s : SImm9) : Nat := signedField 9 s.value.toInt

def text (s : SImm9) : String := immText s.value.toInt

end SImm9

/-- An unsigned byte offset: a multiple of the access size, up to 4095 times that size. -/
structure UImm12 where
  value : UInt16
  ty : ValueType
  deriving DecidableEq, Repr

namespace UImm12

def ofValue (v : Int64) (ty : ValueType) : Checked (Option UImm12) := do
  let scale : Int := ← ty.bytes
  let v := v.toInt
  if v < 0 ∨ v % scale ≠ 0 ∨ 0xfff < v / scale then return none
  return some ⟨UInt16.ofNat v.toNat, ty⟩

def field (u : UImm12) : Checked Nat := return u.value.toNat / (← u.ty.bytes)

def text (u : UImm12) : String := immText u.value.toNat

end UImm12

/-- A signed byte offset of a pair access: a multiple of the access size, -64 to 63 times it. -/
structure SImm7 where
  value : Int16
  ty : ValueType
  deriving DecidableEq, Repr

namespace SImm7

def ofValue (v : Int64) (ty : ValueType) : Checked (Option SImm7) := do
  let scale : Int := ← ty.bytes
  let v := v.toInt
  if v.tmod scale ≠ 0 ∨ v.tdiv scale < -64 ∨ 63 < v.tdiv scale then return none
  return some ⟨Int16.ofInt v, ty⟩

/-- The seven bits of the offset in units of the given size. -/
def scaledField (s : SImm7) (scale : Nat) : Nat := signedField 7 (s.value.toInt.tdiv scale)

def field (s : SImm7) : Checked Nat := return s.scaledField (← s.ty.bytes)

def text (s : SImm7) : String := immText s.value.toInt

end SImm7

/-- A shift of a register operand and its amount, 0 to 63. -/
structure ShiftAmount where
  op : ShiftOp
  amount : UInt8
  deriving DecidableEq, Repr

def ShiftOp.text (s : ShiftOp) : Checked String :=
  s.name.mapError fun c => .defect (.undeclaredShift c)

def ExtendOp.text (e : ExtendOp) : Checked String :=
  e.name.mapError fun c => .defect (.undeclaredExtend c)

def Cond.text (c : Cond) : Checked String :=
  c.name.mapError fun c => .defect (.undeclaredCond c)

def AluOp.text (op : AluOp) : Checked String :=
  op.name.mapError fun c => .defect (.undeclaredAlu c)

def AluOp.parts : AluOp → Checked (AluFn × Width)
  | .op fn w => .ok (fn, w)
  | .undeclared c => broken (.undeclaredAlu c)

namespace ShiftAmount

def of? (op : ShiftOp) (amount : UInt8) : Option ShiftAmount :=
  if 63 < amount then none else some ⟨op, amount⟩

def text (s : ShiftAmount) : String := embed s.op.text ++ s!" {s.amount.toNat}"

end ShiftAmount

end Codegen.A64
