import Codegen.A64.Immediate

/-!
Bitmask immediates of the logical instructions: an element of 2, 4, 8, 16, 32 or 64 bits, repeated
over the whole width, whose bits are a rotated run of ones that is neither empty nor full.

The encoding holds the element size and the length of the run in `N` and `imms`, and the right
rotation of the run in `immr`. The element is the smallest one that repeats, which makes the three
fields unique.
-/
namespace Codegen.A64

/-- A bitmask immediate: the value as it is shown, and the three fields that encode it. -/
structure BitmaskImm where
  value : UInt64 := 0
  n : Bool := false
  immr : UInt8 := 0
  imms : UInt8 := 0
  deriving DecidableEq, Repr, Inhabited

namespace BitmaskImm

/-- The ones are the low bits. -/
def isMask (v : BitVec 64) : Bool := v ≠ 0 && (v + 1) &&& v == 0

/-- The ones stand together. -/
def isShiftedMask (v : BitVec 64) : Bool := v ≠ 0 && isMask ((v - 1) ||| v)

/-- The value of an immediate: the bits above the width do not count. -/
def lowPart (v : UInt64) : Width → UInt64
  | .w32 => v &&& 0xffffffff
  | .w64 => v

/-- The value, repeated up to 64 bits. -/
def widened (v : UInt64) : Width → BitVec 64
  | .w32 => (lowPart v .w32).toBitVec ||| (lowPart v .w32).toBitVec <<< 32
  | .w64 => v.toBitVec

/-- Halves an element of `1 <<< log` bits, down to two bits, as long as its halves are equal. -/
def elementSize (v : BitVec 64) : Nat → Nat
  | log + 2 =>
    let half := 1 <<< (log + 1)
    let mask := (1 : BitVec 64) <<< half - 1
    if v &&& mask = (v >>> half) &&& mask then elementSize v (log + 1) else 1 <<< (log + 2)
  | log => 1 <<< log

/-- The left rotation and the length of the run of ones in the low `size` bits. If the run goes
around the end of the element, it is the zeros that stand together. -/
def run? (size : Nat) (v : BitVec 64) : Option (Nat × Nat) :=
  let mask := BitVec.allOnes 64 >>> (64 - size)
  let ones := v &&& mask
  if isShiftedMask ones then
    let first := ones.ctz.toNat
    some (first, (~~~(ones >>> first)).ctz.toNat)
  else
    let zeros := ~~~(ones ||| ~~~mask)
    if isShiftedMask zeros then
      let leading := zeros.clz.toNat
      some (64 - leading, leading + zeros.ctz.toNat - (64 - size))
    else none

/-- The complement of the size, above the length of the run: `N` is the complement of bit 6, and
`imms` are the six bits below it. -/
def packedSize (size ones : Nat) : BitVec 64 :=
  (~~~BitVec.ofNat 64 (size - 1)) <<< 1 ||| BitVec.ofNat 64 (ones - 1)

def ofValue? (v : UInt64) (w : Width) : Option BitmaskImm :=
  let x := widened v w
  if x = 0 ∨ x = BitVec.allOnes 64 then none
  else do
    let size := elementSize x 6
    let (rot, ones) ← run? size x
    return {
      value := lowPart v w
      n := (packedSize size ones >>> 6) &&& 1 = 0
      immr := UInt8.ofNat ((size - rot) &&& (size - 1))
      imms := UInt8.ofNat (packedSize size ones &&& 0x3f).toNat }

def text (i : BitmaskImm) : String := immText i.value.toNat

end BitmaskImm

end Codegen.A64
