import Codegen.Universe

/-!
The A64 registers and their universe.

Positions 0 to 25 hold `x0`-`x15` and `x19`-`x28`, positions 26 to 57 the vector registers, and the
last seven the reserved ones: `x16` to `x18`, `fp`, `lr`, `xzr`, `sp`. `xzr` and `sp` share their
encoding; the instruction decides which one is meant.
-/
namespace Codegen.A64

/-- General purpose registers are given by numerals. -/
instance (priority := 1100) neZero_general : @NeZero Nat Zero.ofOfNat0 31 := ⟨by decide⟩

/-- The position of a general purpose register. -/
def generalIndex (n : Fin 31) : Nat :=
  if n.val < 16 then n.val
  else if n.val < 19 then 58 + (n.val - 16)
  else if n.val < 29 then n.val - 3
  else 61 + (n.val - 29)

def gpr (n : Fin 31) : Reg := .physical .i64 (UInt8.ofNat n.val) (UInt32.ofNat (generalIndex n))

def vec (n : Fin 32) : Reg := .physical .v128 (UInt8.ofNat n.val) (UInt32.ofNat (26 + n.val))

def xzr : Reg := .physical .i64 31 63

def sp : Reg := .physical .i64 31 64

def fp : Reg := gpr 29

def lr : Reg := gpr 30

/-- A register that is never handed out, free for sequences that expand one instruction. -/
def tmp : Reg := gpr 16

/-- The general purpose register of a number that may be too large. -/
def gprOf (n : UInt8) : Checked Reg :=
  if h : n.toNat < 31 then .ok (gpr ⟨n.toNat, h⟩) else broken (.noGeneralRegister n)

/-- The vector register of a number that may be too large. -/
def vecOf (n : UInt8) : Checked Reg :=
  if h : n.toNat < 32 then .ok (vec ⟨n.toNat, h⟩) else broken (.noVectorRegister n)

def generalName (n : Fin 31) : String :=
  if n = 29 then "fp" else if n = 30 then "lr" else s!"x{n.val}"

/-- The general purpose registers that may be handed out, in order of preference. -/
def allocableGeneral : List (Fin 31) :=
  [0, 1, 2, 3, 4, 5, 6, 7, 8, 9, 10, 11, 12, 13, 14, 15, 19, 20, 21, 22, 23, 24, 25, 26, 27, 28]

def reservedGeneral : List (Fin 31) := [16, 17, 18, 29, 30]

def registers : Universe where
  regs :=
    allocableGeneral.map (fun n => ⟨gpr n, generalName n⟩) ++
    (List.finRange 32).map (fun n => ⟨vec n, s!"v{n.val}"⟩) ++
    reservedGeneral.map (fun n => ⟨gpr n, generalName n⟩) ++
    [⟨xzr, "xzr"⟩, ⟨sp, "sp"⟩]
  allocable := 58
  i64 := some { first := 0, last := 25 }
  v128 := some { first := 26, last := 57, scratch := 57 }

/-- The class of the registers that hold values of a type. -/
def classOf (ty : ValueType) : Checked RegClass :=
  match ty with
  | .i8 | .i16 | .i32 | .i64 | .b1 | .b8 | .b16 | .b32 | .b64 => .ok .i64
  | .f32 | .f64 | .i128 | .b128 => .ok .v128
  | .invalid | .i32x4 | .f32x4 | .iflags => broken (.classlessType ty)

def targetName : String := "arm64"

/-- The 5-bit number of a register in an encoding. Only physical registers have one. -/
def hwEnc : Reg → Checked Nat
  | .physical _ e _ => .ok e.toNat
  | .virtual c i => broken (.encodedVirtual (.virtual c i))

/-- The text of an operand, with its 32-bit name if it is a narrow general purpose register. -/
def sizedName (name : Reg → String) (narrow : Bool) (r : Reg) : String :=
  let s := name r
  if narrow && r.isPhysical && decide (r.cls = .i64) then
    match s.toList with
    | 'x' :: rest => String.ofList ('w' :: rest)
    | _ => s
  else s

end Codegen.A64
