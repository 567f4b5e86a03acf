/-!
Operations of A64 instructions: arithmetic and logic, shifts and extensions of an operand,
condition codes, loads and stores.

Each code field is wider than its declared values, so the types have a case for the other codes.
-/
namespace Codegen.A64

inductive Width where
  | w32
  | w64
  deriving DecidableEq, Repr

def Width.bits : Width → Nat
  | w32 => 32
  | w64 => 64

/-- The `sf` bit of the encodings. -/
def Width.sf : Width → Nat
  | w32 => 0
  | w64 => 1

/-- What an arithmetic or logical operation computes; `madd` is multiply and add. -/
inductive AluFn where
  | add | sub | orr | and | adds | subs | madd | eor | lsl | lsr | asr
  deriving DecidableEq, Repr

namespace AluFn

def all : List AluFn := [add, sub, orr, and, adds, subs, madd, eor, lsl, lsr, asr]

def mnemonic : AluFn → String
  | add => "add" | sub => "sub" | orr => "orr" | and => "and" | adds => "adds" | subs => "subs"
  | madd => "madd" | eor => "eor" | lsl => "lsl" | lsr => "lsr" | asr => "asr"

/-- The `op` and `S` bits of the add and subtract forms. -/
def addSub? : AluFn → Option Nat
  | add => some 0b00
  | adds => some 0b01
  | sub => some 0b10
  | subs => some 0b11
  | _ => none

/-- The `opc` bits of the logical forms. -/
def logical? : AluFn → Option Nat
  | and => some 0b00
  | orr => some 0b01
  | eor => some 0b10
  | _ => none

/-- The opcode of the forms that shift by a register. -/
def shift? : AluFn → Option Nat
  | lsl => some 0b001000
  | lsr => some 0b001001
  | asr => some 0b001010
  | _ => none

end AluFn

inductive AluOp where
  | op (fn : AluFn) (width : Width)
  | undeclared (code : UInt8)
  deriving DecidableEq, Repr

namespace AluOp

/-- Codes count from one: both widths of a function, the narrow one first. -/
def ofCode (code : UInt8) : AluOp :=
  if code = 0 then .undeclared code
  else match AluFn.all[(code.toNat - 1) / 2]? with
    | some fn => .op fn (if code.toNat % 2 = 1 then .w32 else .w64)
    | none => .undeclared code

/-- The name of an operation, or the code that has none. -/
def name : AluOp → Except UInt8 String
  | op fn .w32 => .ok (fn.mnemonic ++ "32")
  | op fn .w64 => .ok (fn.mnemonic ++ "64")
  | undeclared c => .error c

def ofName? (s : String) : Option AluOp :=
  (AluFn.all.flatMap fun fn => [op fn .w32, op fn .w64]).find? (·.name.toOption == some s)

end AluOp

inductive ShiftOp where
  | lsl | lsr | asr | ror
  | undeclared (code : UInt8)
  deriving DecidableEq, Repr

namespace ShiftOp

def declared : List ShiftOp := [lsl, lsr, asr, ror]

def ofCode (code : UInt8) : ShiftOp := (declared[code.toNat]?).getD (.undeclared code)

def code : ShiftOp → Nat
  | lsl => 0 | lsr => 1 | asr => 2 | ror => 3
  | undeclared c => c.toNat

def name : ShiftOp → Except UInt8 String
  | lsl => .ok "LSL" | lsr => .ok "LSR" | asr => .ok "ASR" | ror => .ok "ROR"
  | undeclared c => .error c

def ofName? (s : String) : Option ShiftOp := declared.find? (·.name.toOption == some s)

end ShiftOp

/-- The extension of a register operand. The codes are those of the option field. -/
inductive ExtendOp where
  | uxtb | uxth | uxtw | uxtx | sxtb | sxth | sxtw | sxtx
  | undeclared (code : UInt8)
  deriving DecidableEq, Repr

namespace ExtendOp

def declared : List ExtendOp := [uxtb, uxth, uxtw, uxtx, sxtb, sxth, sxtw, sxtx]

def ofCode (code : UInt8) : ExtendOp := (declared[code.toNat]?).getD (.undeclared code)

def code : ExtendOp → Nat
  | uxtb => 0 | uxth => 1 | uxtw => 2 | uxtx => 3 | sxtb => 4 | sxth => 5 | sxtw => 6 | sxtx => 7
  | undeclared c => c.toNat

def name : ExtendOp → Except UInt8 String
  | uxtb => .ok "UXTB" | uxth => .ok "UXTH" | uxtw => .ok "UXTW" | uxtx => .ok "UXTX"
  | sxtb => .ok "SXTB" | sxth => .ok "SXTH" | sxtw => .ok "SXTW" | sxtx => .ok "SXTX"
  | undeclared c => .error c

def ofName? (s : String) : Option ExtendOp := declared.find? (·.name.toOption == some s)

/-- The extensions of a 32-bit operand. -/
def isWord : ExtendOp → Bool
  | uxtw | sxtw => true
  | _ => false

end ExtendOp

inductive Cond where
  | eq | ne | hs | lo | mi | pl | vs | vc | hi | ls | ge | lt | gt | le | al | nv
  | undeclared (code : UInt8)
  deriving DecidableEq, Repr

namespace Cond

def declared : List Cond :=
  [eq, ne, hs, lo, mi, pl, vs, vc, hi, ls, ge, lt, gt, le, al, nv]

def ofCode (code : UInt8) : Cond := (declared[code.toNat]?).getD (.undeclared code)

def code : Cond → Nat
  | eq => 0 | ne => 1 | hs => 2 | lo => 3 | mi => 4 | pl => 5 | vs => 6 | vc => 7
  | hi => 8 | ls => 9 | ge => 10 | lt => 11 | gt => 12 | le => 13 | al => 14 | nv => 15
  | undeclared c => c.toNat

def name : Cond → Except UInt8 String
  | eq => .ok "eq" | ne => .ok "ne" | hs => .ok "hs" | lo => .ok "lo"
  | mi => .ok "mi" | pl => .ok "pl" | vs => .ok "vs" | vc => .ok "vc"
  | hi => .ok "hi" | ls => .ok "ls" | ge => .ok "ge" | lt => .ok "lt"
  | gt => .ok "gt" | le => .ok "le" | al => .ok "al" | nv => .ok "nv"
  | undeclared c => .error c

def ofName? (s : String) : Option Cond := declared.find? (·.name.toOption == some s)

/-- The condition of the opposite code, which differs in the lowest bit. The two codes that always
hold, `al` and `nv`, are opposite to each other. -/
def invert : Cond → Cond
  | eq => ne | ne => eq | hs => lo | lo => hs | mi => pl | pl => mi | vs => vc | vc => vs
  | hi => ls | ls => hi | ge => lt | lt => ge | gt => le | le => gt | al => nv | nv => al
  | undeclared c => undeclared (c ^^^ 1)

@[simp] theorem invert_invert (c : Cond) : c.invert.invert = c := by
  cases c with
  | undeclared c => simp only [invert, UInt8.xor_assoc, UInt8.xor_self, UInt8.xor_zero]
  | _ => rfl

end Cond

/-- A load: the size in bits, extended without or with the sign. -/
inductive LoadOp where
  | u8 | s8 | u16 | s16 | u32 | s32 | u64
  deriving DecidableEq, Repr

/-- A store, by its size in bits. -/
inductive StoreOp where
  | b8 | b16 | b32 | b64
  deriving DecidableEq, Repr

inductive Access where
  | load (op : LoadOp)
  | store (op : StoreOp)
  deriving DecidableEq, Repr

namespace Access

def name : Access → String
  | load .u8 => "ULoad8" | load .s8 => "SLoad8"
  | load .u16 => "ULoad16" | load .s16 => "SLoad16"
  | load .u32 => "ULoad32" | load .s32 => "SLoad32"
  | load .u64 => "ULoad64"
  | store .b8 => "Store8" | store .b16 => "Store16"
  | store .b32 => "Store32" | store .b64 => "Store64"

def bytes : Access → Nat
  | load .u8 | load .s8 | store .b8 => 1
  | load .u16 | load .s16 | store .b16 => 2
  | load .u32 | load .s32 | store .b32 => 4
  | load .u64 | store .b64 => 8

/-- The data register is shown with its 32-bit name. -/
def isNarrow : Access → Bool
  | load .u8 | load .u16 | load .u32 | store .b8 | store .b16 | store .b32 => true
  | load .s8 | load .s16 | load .s32 | load .u64 | store .b64 => false

/-- Bits 22 to 31 of the register forms. -/
def opcode : Access → Nat
  | load .u8 => 0b0011100001
  | load .s8 => 0b0011100010
  | load .u16 => 0b0111100001
  | load .s16 => 0b0111100010
  | load .u32 => 0b1011100001
  | load .s32 => 0b1011100010
  | load .u64 => 0b1111100001
  | store .b8 => 0b0011100000
  | store .b16 => 0b0111100000
  | store .b32 => 0b1011100000
  | store .b64 => 0b1111100000

/-- The mnemonic of the access with a scaled or an unscaled offset. -/
def mnemonic (a : Access) (unscaled : Bool) : String :=
  let stem := match a with
    | load _ => if unscaled then "ldur" else "ldr"
    | store _ => if unscaled then "stur" else "str"
  let suffix := match a with
    | load .u8 | store .b8 => "b"
    | load .s8 => "sb"
    | load .u16 | store .b16 => "h"
    | load .s16 => "sh"
    | load .s32 => "sw"
    | load .u32 | load .u64 | store .b32 | store .b64 => ""
  stem ++ suffix

/-- The `opc` bits of the literal form, for the loads that have one. -/
def literal? : Access → Option Nat
  | load .u32 => some 0b00
  | load .u64 => some 0b01
  | load .s32 => some 0b10
  | _ => none

end Access

end Codegen.A64
