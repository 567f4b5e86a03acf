import Codegen.Proofs.A64.Decoding

/-!
What instruction words tell. `disassemble` reads a word by the fields of the architecture,
independently of how words are made. It gives the `Form` of the word: the operation with its width,
the registers by their numbers, and every other operand as a number of bytes, bits or a name.
-/
namespace Codegen.A64

def number : Reg → Nat
  | .physical _ e _ => e.toNat
  | .virtual _ _ => 0

/-- The addressing mode that a word tells, offsets in bytes. -/
inductive Place where
  | unscaled (rn : Nat) (offset : Int)
  | scaled (rn offset : Nat)
  | index (rn rm : Nat)
  | indexScaled (rn rm : Nat) (ext : ExtendOp)
  | literal (offset : Int)
  | preIndexed (rn : Nat) (offset : Int)
  | postIndexed (rn : Nat) (offset : Int)
  deriving DecidableEq, Repr

/-- What a word tells. -/
inductive Form where
  | nop
  | udf
  | shifted (fn : AluFn) (w : Width) (rd rn rm : Nat) (shift : ShiftOp) (amount : Nat)
  | extended (fn : AluFn) (w : Width) (rd rn rm : Nat) (ext : ExtendOp)
  | shiftReg (fn : AluFn) (w : Width) (rd rn rm : Nat)
  | multiplyAdd (w : Width) (rd rn rm ra : Nat)
  | imm12 (fn : AluFn) (w : Width) (rd rn bits : Nat) (shift12 : Bool)
  | bitmask (fn : AluFn) (w : Width) (rd rn : Nat) (n : Bool) (immr imms : Nat)
  | shiftImm (fn : AluFn) (w : Width) (rd rn amount : Nat)
  | moveWide (complement : Bool) (rd bits quarter : Nat)
  | access (a : Access) (rt : Nat) (place : Place)
  | pair (load : Bool) (rt rt2 : Nat) (mode : PairMode) (rn : Nat) (offset : Int)
  | jump (offset : Int)
  | call (offset : Int)
  | callReg (rn : Nat)
  | ret (rn : Nat)
  | branch (test : Test) (offset : Int)
  deriving DecidableEq, Repr

def Width.ofSf (sf : Nat) : Width := if sf = 0 then .w32 else .w64

def AluFn.ofAddSub : Nat → AluFn
  | 0b00 => .add
  | 0b01 => .adds
  | 0b10 => .sub
  | _ => .subs

def AluFn.ofLogical? : Nat → Option AluFn
  | 0b00 => some .and
  | 0b01 => some .orr
  | 0b10 => some .eor
  | _ => none

def AluFn.ofShift? : Nat → Option AluFn
  | 0b001000 => some .lsl
  | 0b001001 => some .lsr
  | 0b001010 => some .asr
  | _ => none

def Access.ofFields? : Nat → Nat → Option Access
  | 0, 0 => some (.store .b8)
  | 0, 1 => some (.load .u8)
  | 0, 2 => some (.load .s8)
  | 1, 0 => some (.store .b16)
  | 1, 1 => some (.load .u16)
  | 1, 2 => some (.load .s16)
  | 2, 0 => some (.store .b32)
  | 2, 1 => some (.load .u32)
  | 2, 2 => some (.load .s32)
  | 3, 0 => some (.store .b64)
  | 3, 1 => some (.load .u64)
  | _, _ => none

def Access.ofLiteral? : Nat → Option Access
  | 0 => some (.load .u32)
  | 1 => some (.load .u64)
  | 2 => some (.load .s32)
  | _ => none

namespace Form

variable (word : Nat)

/-- Add or subtract, shifted or extended register. -/
def readAddSub : Option Form :=
  let fn := AluFn.ofAddSub (field 29 2 word)
  let w := Width.ofSf (field 31 1 word)
  if field 21 1 word = 0 then
    some (.shifted fn w (field 0 5 word) (field 5 5 word) (field 16 5 word)
      (.ofCode (UInt8.ofNat (field 22 2 word))) (field 10 6 word))
  else if field 22 2 word = 0 ∧ field 10 3 word = 0 then
    some (.extended fn w (field 0 5 word) (field 5 5 word) (field 16 5 word)
      (.ofCode (UInt8.ofNat (field 13 3 word))))
  else none

def readLogical : Option Form := do
  let fn ← AluFn.ofLogical? (field 29 2 word)
  if field 21 1 word = 0 then
    some (.shifted fn (.ofSf (field 31 1 word)) (field 0 5 word) (field 5 5 word) (field 16 5 word)
      (.ofCode (UInt8.ofNat (field 22 2 word))) (field 10 6 word))
  else none

def readImm12 : Option Form :=
  if field 23 1 word = 0 then
    some (.imm12 (.ofAddSub (field 29 2 word)) (.ofSf (field 31 1 word)) (field 0 5 word)
      (field 5 5 word) (field 10 12 word) (field 22 1 word = 1))
  else none

def readBitmask : Option Form := do
  let fn ← AluFn.ofLogical? (field 29 2 word)
  some (.bitmask fn (.ofSf (field 31 1 word)) (field 0 5 word) (field 5 5 word)
    (field 22 1 word = 1) (field 16 6 word) (field 10 6 word))

def readMoveWide : Option Form :=
  match field 31 1 word, field 29 2 word with
  | 1, 0b10 => some (.moveWide false (field 0 5 word) (field 5 16 word) (field 21 2 word))
  | 1, 0b00 => some (.moveWide true (field 0 5 word) (field 5 16 word) (field 21 2 word))
  | _, _ => none

/-- The shift that a bitfield move makes: an extraction of the high bits shifts right, a rotation
that ends below them shifts left. -/
def readShiftImm : Option Form :=
  let w := Width.ofSf (field 31 1 word)
  let immr := field 16 6 word
  let imms := field 10 6 word
  if field 23 1 word ≠ 0 ∨ field 22 1 word ≠ field 31 1 word then none
  else if imms = w.bits - 1 then
    match field 29 2 word with
    | 0b00 => some (.shiftImm .asr w (field 0 5 word) (field 5 5 word) immr)
    | 0b10 => some (.shiftImm .lsr w (field 0 5 word) (field 5 5 word) immr)
    | _ => none
  else if field 29 2 word = 0b10 ∧ immr = imms + 1 then
    some (.shiftImm .lsl w (field 0 5 word) (field 5 5 word) (w.bits - 1 - imms))
  else none

def readShiftReg : Option Form := do
  let fn ← AluFn.ofShift? (field 10 6 word)
  if field 29 2 word = 0 ∧ field 21 3 word = 0b110 then
    some (.shiftReg fn (.ofSf (field 31 1 word)) (field 0 5 word) (field 5 5 word)
      (field 16 5 word))
  else none

def readMultiplyAdd : Option Form :=
  if field 29 2 word = 0 ∧ field 21 3 word = 0 ∧ field 15 1 word = 0 then
    some (.multiplyAdd (.ofSf (field 31 1 word)) (field 0 5 word) (field 5 5 word) (field 16 5 word)
      (field 10 5 word))
  else none

def readLiteral : Option Form := do
  let a ← Access.ofLiteral? (field 30 2 word)
  some (.access a (field 0 5 word) (.literal (4 * signed 19 (field 5 19 word))))

/-- Load or store with a nine bit offset or a register offset. -/
def readAccess : Option Form := do
  let a ← Access.ofFields? (field 30 2 word) (field 22 2 word)
  let rn := field 5 5 word
  let offset := signed 9 (field 12 9 word)
  let place ←
    match field 21 1 word, field 10 2 word with
    | 0, 0b00 => some (.unscaled rn offset)
    | 0, 0b01 => some (.postIndexed rn offset)
    | 0, 0b11 => some (.preIndexed rn offset)
    | 1, 0b10 =>
      if field 12 1 word = 1 then
        some (.indexScaled rn (field 16 5 word) (.ofCode (UInt8.ofNat (field 13 3 word))))
      else if field 13 3 word = 0b011 then some (.index rn (field 16 5 word))
      else none
    | _, _ => none
  some (.access a (field 0 5 word) place)

/-- Load or store with an unsigned offset in units of its size. -/
def readAccessScaled : Option Form := do
  let a ← Access.ofFields? (field 30 2 word) (field 22 2 word)
  some (.access a (field 0 5 word) (.scaled (field 5 5 word) (field 10 12 word * a.bytes)))

def readPair : Option Form := do
  let mode ←
    match field 29 3 word, field 24 5 word, field 23 1 word with
    | 0b101, 0b01000, 1 => some .postIndexed
    | 0b101, 0b01001, 0 => some .offset
    | 0b101, 0b01001, 1 => some .preIndexed
    | _, _, _ => none
  some (.pair (field 22 1 word = 1) (field 0 5 word) (field 10 5 word) mode (field 5 5 word)
    (8 * signed 7 (field 15 7 word)))

def readControl : Option Form :=
  match field 29 3 word with
  | 0b000 => some (.jump (4 * signed 26 (field 0 26 word)))
  | 0b100 => some (.call (4 * signed 26 (field 0 26 word)))
  | 0b101 =>
    match field 24 5 word with
    | 0b10100 => some (.branch (.zero (field 0 5 word)) (4 * signed 19 (field 5 19 word)))
    | 0b10101 => some (.branch (.notZero (field 0 5 word)) (4 * signed 19 (field 5 19 word)))
    | _ => none
  | 0b010 =>
    if field 24 5 word = 0b10100 ∧ field 4 1 word = 0 then
      some (.branch (.flag (field 0 4 word)) (4 * signed 19 (field 5 19 word)))
    else none
  | 0b110 =>
    if field 24 5 word = 0b10101 ∧ field 12 12 word = 0x032 ∧ field 0 12 word = 0x01f then some .nop
    else if field 24 5 word = 0b10110 ∧ field 16 5 word = 31 ∧ field 10 6 word = 0 ∧
        field 0 5 word = 0 then
      match field 21 3 word with
      | 0b001 => some (.callReg (field 5 5 word))
      | 0b010 => some (.ret (field 5 5 word))
      | _ => none
    else none
  | _ => none

end Form

/-- Reads a word by its class, which bits 24 to 28 tell with few exceptions. -/
def disassemble (w : UInt32) : Option Form :=
  let word := w.toNat
  match field 24 5 word with
  | 0b01010 => Form.readLogical word
  | 0b01011 => Form.readAddSub word
  | 0b10001 => Form.readImm12 word
  | 0b10010 => if field 23 1 word = 0 then Form.readBitmask word else Form.readMoveWide word
  | 0b10011 => Form.readShiftImm word
  | 0b11010 => Form.readShiftReg word
  | 0b11011 => Form.readMultiplyAdd word
  | 0b11000 => if field 29 1 word = 0 then Form.readLiteral word else Form.readAccess word
  | 0b11001 => if field 29 1 word = 1 then Form.readAccessScaled word else none
  | 0b01000 | 0b01001 => Form.readPair word
  | 0b10100 | 0b10101 | 0b10110 | 0b10111 => Form.readControl word
  | _ => if word = 0 then some .udf else none

end Codegen.A64
