import Codegen.Failure
import Codegen.Record

/-!
The constant pool of a function: bytes placed after its code, at a base that is fixed before the
first constant is known. Where only the shape of code matters, constants may be discarded; every
constant is then at offset zero.
-/
namespace Codegen

/-- Bytes placed after the code. -/
structure ConstantPool where
  base : CodeOffset
  data : Array UInt8 := #[]
  deriving DecidableEq, Repr

/-- The low bytes of a number, the least significant first. -/
def littleEndian (count n : Nat) : List UInt8 :=
  (List.range count).map fun i => UInt8.ofNat (n >>> (8 * i))

namespace ConstantPool

/-- An empty pool at the first multiple of sixteen after the code. -/
def after (codeSize : CodeOffset) : ConstantPool := { base := (codeSize + 15) &&& ~~~15 }

def offset (p : ConstantPool) : CodeOffset := p.base + UInt32.ofNat p.data.size

/-- Pads with zeros up to a multiple of the alignment. -/
def pad (p : ConstantPool) (alignment : Nat) : ConstantPool :=
  let missing := (alignment - p.data.size % alignment) % alignment
  { p with data := p.data ++ Array.replicate missing 0 }

def append (p : ConstantPool) (bytes : List UInt8) : ConstantPool :=
  { p with data := p.data ++ bytes }

end ConstantPool

/-- Where constants go. -/
inductive ConstantSink where
  | discard
  | pool (p : ConstantPool)
  deriving DecidableEq, Repr

namespace ConstantSink

def offset : ConstantSink → CodeOffset
  | discard => 0
  | pool p => p.offset

/-- Aligns the next constant. There is no multiple of zero to align a pool to. -/
def align (s : ConstantSink) (alignment : CodeOffset) : Checked ConstantSink :=
  match s with
  | discard => .ok discard
  | pool p => if alignment = 0 then .error .outOfBounds else .ok (pool (p.pad alignment.toNat))

def append (s : ConstantSink) (bytes : List UInt8) : ConstantSink :=
  match s with
  | discard => discard
  | pool p => pool (p.append bytes)

/-- The alignment of a constant: 4, 8 or 16 bytes, the least that its size does not exceed. -/
def alignmentOf (size : Nat) : Nat := if size ≤ 4 then 4 else if size ≤ 8 then 8 else 16

/-- Places a constant, aligned to its size, and gives its offset. -/
def place (s : ConstantSink) (bytes : List UInt8) : CodeOffset × ConstantSink :=
  match s with
  | discard => (0, discard)
  | pool p =>
    let q := p.pad (alignmentOf bytes.length)
    (q.offset, pool (q.append bytes))

end ConstantSink

end Codegen
