/-!
Value types: the types of the values that loads, stores and immediates are about.

A type either has a size in bits or has none (`invalid` and the condition flags). A single bit
still takes a whole byte in memory.
-/
namespace Codegen

inductive ValueType where
  | invalid
  | i8 | i16 | i32 | i64 | i128
  | b1 | b8 | b16 | b32 | b64 | b128
  | f32 | f64
  | i32x4 | f32x4
  | iflags
  deriving DecidableEq, Repr, Inhabited

namespace ValueType

def all : List ValueType :=
  [invalid, i8, i16, i32, i64, i128, b1, b8, b16, b32, b64, b128, f32, f64, i32x4, f32x4, iflags]

/-- The type with the given number; numbers past the last one are invalid. -/
def ofCode (code : Nat) : ValueType := (all[code]?).getD .invalid

def name : ValueType → String
  | invalid => "invalid"
  | i8 => "i8" | i16 => "i16" | i32 => "i32" | i64 => "i64" | i128 => "i128"
  | b1 => "b1" | b8 => "b8" | b16 => "b16" | b32 => "b32" | b64 => "b64" | b128 => "b128"
  | f32 => "f32" | f64 => "f64"
  | i32x4 => "i32x4" | f32x4 => "f32x4"
  | iflags => "iflags"

def ofName? (s : String) : Option ValueType := all.find? (·.name == s)

def bits? : ValueType → Option Nat
  | b1 => some 1
  | i8 | b8 => some 8
  | i16 | b16 => some 16
  | i32 | b32 | f32 => some 32
  | i64 | b64 | f64 => some 64
  | i128 | b128 | i32x4 | f32x4 => some 128
  | invalid | iflags => none

def bytes? : ValueType → Option Nat
  | b1 => some 1
  | t => t.bits?.map (· / 8)

def isInt : ValueType → Bool
  | i8 | i16 | i32 | i64 | i128 => true
  | _ => false

def isBool : ValueType → Bool
  | b1 | b8 | b16 | b32 | b64 | b128 => true
  | _ => false

def isFloat : ValueType → Bool
  | f32 | f64 => true
  | _ => false

def isVector : ValueType → Bool
  | i32x4 | f32x4 => true
  | _ => false

end ValueType

end Codegen
