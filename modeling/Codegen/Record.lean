/-!
Names and side records: what emitted code refers to outside of itself, where it may trap, and
which stack slots hold references at a safepoint.

Records are kept in the order in which the code that causes them is emitted.
-/
namespace Codegen

abbrev CodeOffset := UInt32

/-- A function declared by the function being compiled. -/
structure FuncRef where
  index : UInt32
  deriving DecidableEq, Repr

def FuncRef.text (f : FuncRef) : String := s!"fn{f.index.toNat}"

/-- A symbol outside of the function being compiled. -/
inductive ExternalName where
  | symbol (name : String)
  | user (space index : UInt32)
  deriving DecidableEq, Repr

/-- A symbol without a name is read as the user name of space 0 and index 0. -/
def ExternalName.text : ExternalName → String
  | symbol "" => "u0:0"
  | symbol s => "%" ++ s
  | user n i => s!"u{n.toNat}:{i.toNat}"

inductive TrapCode where
  | user
  | stackOverflow
  | heapOutOfBounds
  | integerOverflow
  | divisionByZero
  | unreachable
  | other (code : UInt8)
  deriving DecidableEq, Repr

namespace TrapCode

/-- The declared codes, each at the position of its number. -/
def declared : List TrapCode :=
  [user, stackOverflow, heapOutOfBounds, integerOverflow, divisionByZero, unreachable]

def ofCode (code : UInt8) : TrapCode := (declared[code.toNat]?).getD (.other code)

def text : TrapCode → String
  | user => "user"
  | stackOverflow => "stk_ovf"
  | heapOutOfBounds => "heap_oob"
  | integerOverflow => "int_ovf"
  | divisionByZero => "int_divz"
  | unreachable => "unreachable"
  | other c => s!"trap{c.toNat}"

def ofText? (s : String) : Option TrapCode := declared.find? (·.text == s)

end TrapCode

/-- The reference slots of a stack frame: bit `i` is set when the `i`-th slot of eight bytes from
the stack pointer holds a reference. -/
structure Stackmap where
  bits : List Bool
  deriving DecidableEq, Repr

namespace Stackmap

def mappedWords (s : Stackmap) : Nat := s.bits.length

def text (s : Stackmap) : String :=
  "[" ++ String.ofList (s.bits.map fun b => if b then '1' else '0') ++ "]"

end Stackmap

/-- How a location in the code is patched once an address is known. -/
inductive RelocKind where
  | call
  | absolute
  | other (code : UInt8)
  deriving DecidableEq, Repr

namespace RelocKind

def ofCode (code : UInt8) : RelocKind :=
  if code = 1 then .call else if code = 2 then .absolute else .other code

def text : RelocKind → String
  | call => "Arm64Call"
  | absolute => "Abs8"
  | other c => s!"reloc{c.toNat}"

end RelocKind

structure Relocation where
  offset : CodeOffset
  kind : RelocKind
  name : ExternalName
  addend : Int64
  deriving DecidableEq, Repr

def Relocation.text (r : Relocation) : String :=
  "reloc_external: " ++ r.kind.text ++ " " ++ r.name.text ++ " " ++ toString r.addend.toInt ++
    " at " ++ toString r.offset.toNat

structure TrapSite where
  offset : CodeOffset
  code : TrapCode
  deriving DecidableEq, Repr

def TrapSite.text (t : TrapSite) : String :=
  "trap: " ++ t.code.text ++ " at " ++ toString t.offset.toNat

/-- The reference slots valid at an offset. -/
structure Safepoint where
  offset : CodeOffset
  stackmap : Stackmap
  deriving DecidableEq, Repr

def Safepoint.text (s : Safepoint) : String :=
  "add_stackmap at " ++ toString s.offset.toNat ++ " mapped_words=" ++
    toString s.stackmap.mappedWords ++ " " ++ s.stackmap.text

/-- The side records of emitted code. -/
structure Records where
  relocs : List Relocation := []
  traps : List TrapSite := []
  safepoints : List Safepoint := []
  deriving DecidableEq, Repr, Inhabited

end Codegen
