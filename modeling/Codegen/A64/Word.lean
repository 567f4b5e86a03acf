import Codegen.A64.Address
import Codegen.A64.BitmaskImm
import Codegen.A64.Branch

/-!
Instruction words: the 32-bit encodings, as lists of fields.

Registers are given by their numbers. Each function is one encoding class of the architecture and
refuses the operands that the class has no encoding for.
-/
namespace Codegen.A64.Word

/-- A word made of fields, each a number and the position of its lowest bit. -/
def pack (fields : List (Nat × Nat)) : UInt32 :=
  UInt32.ofNat (fields.foldl (fun word f => word ||| (f.1 <<< f.2)) 0)

def bit (b : Bool) : Nat := if b then 1 else 0

def nop : UInt32 := 0xd503201f

def addSubShifted (w : Width) (opS shift rm amount rn rd : Nat) : UInt32 :=
  pack [(w.sf, 31), (opS, 29), (0b01011, 24), (shift, 22), (rm, 16), (amount, 10), (rn, 5), (rd, 0)]

def addSubExtended (w : Width) (opS rm option rn rd : Nat) : UInt32 :=
  pack [(w.sf, 31), (opS, 29), (0b01011, 24), (0b001, 21), (rm, 16), (option, 13), (rn, 5), (rd, 0)]

def addSubImm (w : Width) (opS : Nat) (shift12 : Bool) (imm12 rn rd : Nat) : UInt32 :=
  pack [(w.sf, 31), (opS, 29), (0b100010, 23), (bit shift12, 22), (imm12, 10), (rn, 5), (rd, 0)]

def logicalShifted (w : Width) (opc shift rm amount rn rd : Nat) : UInt32 :=
  pack [(w.sf, 31), (opc, 29), (0b01010, 24), (shift, 22), (rm, 16), (amount, 10), (rn, 5), (rd, 0)]

/-- The operation on two registers. Only the extended form of add and subtract can name the stack
pointer, and only when it sets no flags. -/
def alu (op : AluOp) (rd rn rm : Nat) (usesSp : Bool) : Checked UInt32 := do
  let (fn, w) ← op.parts
  match fn.addSub? with
  | some opS =>
    if usesSp then
      if opS &&& 1 ≠ 0 then broken (.noStackPointer op)
      else return addSubExtended w opS rm (0b010 ||| w.sf) rn rd
    else return addSubShifted w opS 0 rm 0 rn rd
  | none =>
  match fn.logical? with
  | some opc => return logicalShifted w opc 0 rm 0 rn rd
  | none =>
  match fn.shift? with
  | some opcode =>
    return pack [(w.sf, 31), (0b0011010110, 21), (rm, 16), (opcode, 10), (rn, 5), (rd, 0)]
  | none => broken (.noForm op .register)

def aluThree (op : AluOp) (rd rn rm ra : Nat) : Checked UInt32 :=
  match op with
  | .op .madd w => .ok (pack [(w.sf, 31), (0b11011, 24), (rm, 16), (ra, 10), (rn, 5), (rd, 0)])
  | _ => broken (.noForm op .threeSource)

/-- The add or subtract forms of an operation, or the complaint that it has none. -/
def addSubOf (op : AluOp) (form : AluForm) : Checked (Nat × Width) :=
  match op with
  | .op fn w =>
    match fn.addSub? with
    | some opS => .ok (opS, w)
    | none => broken (.noForm op form)
  | .undeclared _ => broken (.noForm op form)

def aluImm (op : AluOp) (rd rn : Nat) (imm : Imm12) : Checked UInt32 := do
  let (opS, w) ← addSubOf op .imm12
  return addSubImm w opS imm.shift12 (imm.bits.toNat % 0x1000) rn rd

/-- The operation on a register and a bitmask immediate. An element of 64 bits does not fit an
operation on 32. -/
def aluBitmask (op : AluOp) (rd rn : Nat) (imm : BitmaskImm) : Checked UInt32 :=
  match op with
  | .op fn w =>
    match fn.logical? with
    | some opc =>
      if imm.n && decide (w = .w32) then broken (.wideLogicalImm imm.value.toNat op)
      else .ok (pack [(w.sf, 31), (opc, 29), (0b100100, 23), (bit imm.n, 22), (imm.immr.toNat, 16),
        (imm.imms.toNat, 10), (rn, 5), (rd, 0)])
    | none => broken (.noForm op .logicalImm)
  | .undeclared _ => broken (.noForm op .logicalImm)

/-- The `opc`, `immr` and `imms` fields of the bitfield move that shifts by an amount below the
width: left as a rotation that inserts zeros below, right as an extraction of the high bits. -/
def shiftFields? (fn : AluFn) (w : Width) (amount : Nat) : Option (Nat × Nat × Nat) :=
  match fn with
  | .lsl => some (0b10, (w.bits - amount) % w.bits, w.bits - 1 - amount)
  | .lsr => some (0b10, amount, w.bits - 1)
  | .asr => some (0b00, amount, w.bits - 1)
  | _ => none

def aluShift (op : AluOp) (rd rn amount : Nat) : Checked UInt32 := do
  let (fn, w) ← op.parts
  if w.bits ≤ amount then broken (.shiftTooLarge amount op)
  match shiftFields? fn w amount with
  | some (opc, immr, imms) =>
    return pack [(w.sf, 31), (opc, 29), (0b100110, 23), (w.sf, 22), (immr, 16), (imms, 10), (rn, 5),
      (rd, 0)]
  | none => broken (.noForm op .shiftImm)

/-- The operation on a register and a shifted one. Only logical operations rotate. -/
def aluShifted (op : AluOp) (rd rn rm : Nat) (shift : ShiftAmount) : Checked UInt32 := do
  let (fn, w) ← op.parts
  let amount := shift.amount.toNat
  if w.bits ≤ amount then broken (.shiftTooLarge amount op)
  match fn.addSub? with
  | some opS =>
    if shift.op = .ror then broken (.noRotation op)
    return addSubShifted w opS shift.op.code rm amount rn rd
  | none =>
  match fn.logical? with
  | some opc => return logicalShifted w opc shift.op.code rm amount rn rd
  | none => broken (.noForm op .shifted)

def aluExtended (op : AluOp) (rd rn rm : Nat) (ext : ExtendOp) : Checked UInt32 := do
  let (opS, w) ← addSubOf op .extended
  return addSubExtended w opS rm ext.code rn rd

/-- The move of a 64-bit register: a logical or with the zero register. -/
def mov (rd rm : Nat) : UInt32 := logicalShifted .w64 0b01 0 rm 0 31 rd

/-- The move of a 64-bit register to or from the stack pointer: an addition of zero. -/
def movSp (rd rm : Nat) : UInt32 := addSubImm .w64 0b00 false 0 rm rd

/-- The move of a wide immediate; `opc` tells whether it is complemented. -/
def moveWide (opc rd : Nat) (imm : MoveWide) : UInt32 :=
  pack [(1, 31), (opc, 29), (0b100101, 23), (imm.shift.toNat, 21), (imm.bits.toNat, 5), (rd, 0)]

/-- A load or store with an unscaled offset, or one that writes the base back. -/
def accessImm9 (a : Access) (mode rn rt imm9 : Nat) : UInt32 :=
  pack [(a.opcode, 22), (imm9, 12), (mode, 10), (rn, 5), (rt, 0)]

def accessIndex (a : Access) (rn rm rt : Nat) (scaled : Bool) (option : Nat) : UInt32 :=
  pack [(a.opcode, 22), (1, 21), (rm, 16), (option, 13), (bit scaled, 12), (0b10, 10), (rn, 5),
    (rt, 0)]

/-- A load of the data at an offset from the instruction. -/
def literal (a : Access) (rt : Nat) (offset : Int) : Checked UInt32 :=
  match a.literal? with
  | none => broken (.noLiteralForm a)
  | some opc =>
    if offset % 4 ≠ 0 then broken (.literalTooFar offset)
    else match signedField? 19 (offset / 4) with
      | none => broken (.literalTooFar offset)
      | some imm19 => .ok (pack [(opc, 30), (0b011, 27), (imm19, 5), (rt, 0)])

/-- The index of an access is scaled by the size of the access. -/
def checkScale (a : Access) (ty : ValueType) : Checked Unit := do
  let scale ← ty.bytes
  if scale ≠ a.bytes then broken (.indexScale scale a.bytes)

def access (a : Access) (rt : Nat) : Address → Checked UInt32
  | .unset => broken .encodedUnsetAddress
  | .base rn => return accessImm9 a 0b00 (← hwEnc rn) rt 0
  | .unscaled rn imm => return accessImm9 a 0b00 (← hwEnc rn) rt imm.field
  | .postIndexed rn imm => return accessImm9 a 0b01 (← hwEnc rn) rt imm.field
  | .preIndexed rn imm => return accessImm9 a 0b11 (← hwEnc rn) rt imm.field
  | .scaled rn imm => do
    let offset := imm.value.toNat
    if offset % a.bytes ≠ 0 ∨ 0xfff < offset / a.bytes then
      broken (.scaledOffset offset a.bytes)
    return pack [(a.opcode, 22), (1, 24), (offset / a.bytes, 10), (← hwEnc rn, 5), (rt, 0)]
  | .index rn rm => return accessIndex a (← hwEnc rn) (← hwEnc rm) rt false ExtendOp.uxtx.code
  | .indexScaled rn rm ty => do
    checkScale a ty
    return accessIndex a (← hwEnc rn) (← hwEnc rm) rt true ExtendOp.uxtx.code
  | .indexExtended rn rm ty ext => do
    checkScale a ty
    return accessIndex a (← hwEnc rn) (← hwEnc rm) rt true ext.code
  | .literal offset => literal a rt offset.toInt

/-- The bits that tell how a pair access uses its base. -/
def pairMode : PairMode → Nat
  | .postIndexed => 0b001
  | .offset => 0b010
  | .preIndexed => 0b011

/-- A load or store of two 64-bit registers, whose offset is in units of eight bytes. -/
def pair (load : Bool) (rt rt2 : Nat) : PairMem → Checked UInt32
  | .unset => broken (.sizelessType .invalid)
  | .access mode rn imm => do
    let scale ← imm.ty.bytes
    if scale ≠ 8 then broken (.pairScale scale)
    return pack [(0b101010, 26), (pairMode mode, 23), (bit load, 22), (imm.scaledField scale, 15),
      (rt2, 10), (← hwEnc rn, 5), (rt, 0)]

/-- An unconditional branch, with or without link. -/
def jump (link : Bool) (imm26 : Nat) : UInt32 :=
  pack [(bit link, 31), (0b101, 26), (imm26, 0)]

def compareBranch (nonZero : Bool) (imm19 rt : Nat) : UInt32 :=
  pack [(1, 31), (0b11010, 25), (bit nonZero, 24), (imm19, 5), (rt, 0)]

def branch (cond : BranchCond) (imm19 : Nat) : Checked UInt32 :=
  match cond with
  | .unset => broken .encodedUnsetCondition
  | .zero r => return compareBranch false imm19 (← hwEnc r)
  | .notZero r => return compareBranch true imm19 (← hwEnc r)
  | .flag c => return pack [(0b01010100, 24), (imm19, 5), (c.code, 0)]

/-- A call of the address in a register. -/
def callReg (rn : Nat) : UInt32 := pack [(0b1101011, 25), (0b0001, 21), (0b11111, 16), (rn, 5)]

/-- The return to the address in the link register. -/
def ret : UInt32 := pack [(0b1101011001011111, 16), (30, 5)]

def setup : Setup → Checked UInt32
  | .literal rd offset => do
    let rt ← hwEnc rd
    literal (.load .u64) rt offset.toInt
  | .sum rd rn rm => do
    alu (.op .add .w64) (← hwEnc rd) (← hwEnc rn) (← hwEnc rm) (rd = sp || rn = sp)

end Codegen.A64.Word
