import Codegen.A64.Immediate
import Codegen.A64.Register
import Codegen.ConstantPool
import Codegen.RegSet

/-!
Memory operands.

An `Address` is a mode that an instruction encodes directly. A `Mem` may also ask for a constant,
which is placed in the constant pool, or for a slot at an offset from the frame pointer. `finalize`
reduces a `Mem` to an `Address` and the instructions that must run before the access; listing,
sizing and encoding all go through it, so they agree on what an operand expands to.
-/
namespace Codegen.A64

/-- A directly encodable addressing mode. -/
inductive Address where
  | unset
  | base (rn : Reg)
  | unscaled (rn : Reg) (imm : SImm9)
  | scaled (rn : Reg) (imm : UImm12)
  | index (rn rm : Reg)
  | indexScaled (rn rm : Reg) (ty : ValueType)
  | indexExtended (rn rm : Reg) (ty : ValueType) (ext : ExtendOp)
  | literal (offset : Int64)
  | preIndexed (rn : Reg) (imm : SImm9)
  | postIndexed (rn : Reg) (imm : SImm9)
  deriving DecidableEq, Repr

/-- The memory operand of a single-register access. -/
inductive Mem where
  | direct (a : Address)
  | constant (data : List UInt8)
  | stack (offset : Int64)
  deriving DecidableEq, Repr

inductive PairMode where
  | offset
  | preIndexed
  | postIndexed
  deriving DecidableEq, Repr

inductive PairMem where
  | unset
  | access (mode : PairMode) (rn : Reg) (imm : SImm7)
  deriving DecidableEq, Repr

/-- An instruction that computes part of an address. -/
inductive Setup where
  /-- Loads the eight bytes at an offset from itself. -/
  | literal (rd : Reg) (offset : Int64)
  /-- Adds two registers. -/
  | sum (rd rn rm : Reg)
  deriving DecidableEq, Repr

/-- A memory operand reduced to an address: what must run first, and where its constant went. -/
structure Finalized where
  setup : List Setup := []
  address : Address
  sink : ConstantSink
  deriving DecidableEq, Repr

def distance (source target : CodeOffset) : Int64 := Int64.ofInt (target.toNat - source.toNat)

/-- Reduces the operand of an access at `here`.

A stack slot is relative to the frame pointer: directly if the offset fits the unscaled immediate,
and otherwise through `tmp`, which gets the offset from the pool and then the frame pointer added.
Constants are placed in the pool and loaded relative to the access. -/
def Mem.finalize (here : CodeOffset) (sink : ConstantSink) : Mem → Finalized
  | direct a => { address := a, sink }
  | constant data =>
    let (there, sink) := sink.place data
    { address := .literal (distance here there), sink }
  | stack offset =>
    match SImm9.ofValue? offset with
    | some imm => { address := .unscaled fp imm, sink }
    | none =>
      let (there, sink) := sink.place (littleEndian 8 offset.toUInt64.toNat)
      { setup := [.literal tmp (distance here there), .sum tmp tmp fp]
        address := .base tmp
        sink }

namespace Address

/-- The modes that are shown with the mnemonics of unscaled offsets. -/
def isUnscaled : Address → Bool
  | base _ | unscaled _ _ => true
  | _ => false

/-- The registers that are only read, and those that are read and written. -/
def regs : Address → Checked (List Reg × List Reg)
  | unset => broken .unsetAddress
  | base rn | unscaled rn _ | scaled rn _ => .ok ([rn], [])
  | index rn rm | indexScaled rn rm _ | indexExtended rn rm _ _ => .ok ([rn, rm], [])
  | literal _ => .ok ([], [])
  | preIndexed rn _ | postIndexed rn _ => .ok ([], [rn])

def mapRegs (f : Reg → Checked Reg) : Address → Checked Address
  | unset => return unset
  | base rn => return base (← f rn)
  | unscaled rn imm => return unscaled (← f rn) imm
  | scaled rn imm => return scaled (← f rn) imm
  | index rn rm => return index (← f rn) (← f rm)
  | indexScaled rn rm ty => return indexScaled (← f rn) (← f rm) ty
  | indexExtended rn rm ty ext => return indexExtended (← f rn) (← f rm) ty ext
  | literal off => return literal off
  | preIndexed rn imm => return preIndexed (← f rn) imm
  | postIndexed rn imm => return postIndexed (← f rn) imm

end Address

namespace Mem

/-- The registers that are only read, and those that are read and written. A stack slot reads the
frame pointer. -/
def regs : Mem → Checked (List Reg × List Reg)
  | direct a => a.regs
  | constant _ => .ok ([], [])
  | stack _ => .ok ([fp], [])

def mapRegs (f : Reg → Checked Reg) : Mem → Checked Mem
  | direct a => return direct (← a.mapRegs f)
  | constant data => return constant data
  | stack off => return stack off

end Mem

namespace PairMem

def regs : PairMem → Checked (List Reg × List Reg)
  | unset => broken .unsetPair
  | access .offset rn _ => .ok ([rn], [])
  | access .preIndexed rn _ | access .postIndexed rn _ => .ok ([], [rn])

def mapRegs (f : Reg → Checked Reg) : PairMem → Checked PairMem
  | unset => return unset
  | access mode rn imm => return access mode (← f rn) imm

end PairMem

end Codegen.A64
