import Codegen.A64.Address
import Codegen.A64.BitmaskImm
import Codegen.A64.Branch
import Codegen.Record

/-!
A64 machine instructions.

Instructions are plain values. Two of them exist only after branch lowering: `branchTo` falls
through when its condition does not hold, and `branchElse` is a conditional branch followed by a
jump. `unset` is the value of an instruction that was never given; every question about it fails.
-/
namespace Codegen.A64

inductive Inst where
  | unset
  /-- A no-op without size. -/
  | nop
  /-- A no-op of one word. -/
  | nop4
  /-- The operation on two registers. -/
  | alu (op : AluOp) (rd rn rm : Reg)
  /-- The operation on three registers. -/
  | aluThree (op : AluOp) (rd rn rm ra : Reg)
  /-- The operation on a register and a 12-bit immediate. -/
  | aluImm (op : AluOp) (rd rn : Reg) (imm : Imm12)
  /-- The operation on a register and a bitmask immediate. -/
  | aluBitmask (op : AluOp) (rd rn : Reg) (imm : BitmaskImm)
  /-- The shift of a register by an immediate amount. -/
  | aluShift (op : AluOp) (rd rn : Reg) (imm : ShiftImm)
  /-- The operation on a register and a shifted one. -/
  | aluShifted (op : AluOp) (rd rn rm : Reg) (shift : ShiftAmount)
  /-- The operation on a register and an extended one. -/
  | aluExtended (op : AluOp) (rd rn rm : Reg) (ext : ExtendOp)
  | load (op : LoadOp) (rd : Reg) (mem : Mem)
  | store (op : StoreOp) (rt : Reg) (mem : Mem)
  | storePair (rt rt2 : Reg) (mem : PairMem)
  | loadPair (rd rd2 : Reg) (mem : PairMem)
  | mov (rd rm : Reg)
  /-- The immediate, zeros elsewhere. -/
  | movZ (rd : Reg) (imm : MoveWide)
  /-- The complement of the immediate. -/
  | movN (rd : Reg) (imm : MoveWide)
  | call (callee : ExternalName) (stackmap : Option Stackmap)
  | callReg (rn : Reg)
  | ret
  | jump (target : BranchTarget)
  /-- A conditional branch with both targets explicit. -/
  | branch (taken notTaken : BranchTarget) (cond : BranchCond)
  /-- A branch to the target on the condition or, if inverted, on its opposite. -/
  | branchTo (target : BranchTarget) (inverted : Bool) (cond : BranchCond)
  /-- A conditional branch followed by a jump. -/
  | branchElse (taken notTaken : BranchTarget) (cond : BranchCond)
  /-- An instruction that always traps. -/
  | udf (trap : TrapCode)
  deriving DecidableEq, Repr

namespace Inst

def kind : Inst → String
  | unset => "invalid"
  | nop => "Nop"
  | nop4 => "Nop4"
  | alu .. => "AluRRR"
  | aluThree .. => "AluRRRR"
  | aluImm .. => "AluRRImm12"
  | aluBitmask .. => "AluRRImmLogic"
  | aluShift .. => "AluRRImmShift"
  | aluShifted .. => "AluRRRShift"
  | aluExtended .. => "AluRRRExtend"
  | load op .. => (Access.load op).name
  | store op .. => (Access.store op).name
  | storePair .. => "StoreP64"
  | loadPair .. => "LoadP64"
  | mov .. => "Mov"
  | movZ .. => "MovZ"
  | movN .. => "MovN"
  | call .. => "Call"
  | callReg .. => "CallInd"
  | ret => "Ret"
  | jump .. => "Jump"
  | branch .. => "CondBr"
  | branchTo .. => "CondBrLowered"
  | branchElse .. => "CondBrLoweredCompound"
  | udf .. => "Udf"

/-- The no-op without size. -/
def isNop : Inst → Bool
  | nop => true
  | _ => false

def move? : Inst → Option (Reg × Reg)
  | mov rd rm => some (rd, rm)
  | _ => none

def jumpTarget? : Inst → Option BranchTarget
  | jump t => some t
  | _ => none

/-- The target of a lowered branch and whether its condition is inverted. -/
def loweredBranch? : Inst → Option (BranchTarget × Bool)
  | branchTo t inverted _ => some (t, inverted)
  | _ => none

/-- Both targets of a lowered branch that does not fall through. -/
def compoundBranch? : Inst → Option (BranchTarget × BranchTarget)
  | branchElse t n _ => some (t, n)
  | _ => none

/-- A no-op of at least the given size. Nothing is smaller than one word. -/
def nopOf (size : Int) : Checked Inst :=
  if size < 4 then broken (.nopTooSmall size) else .ok nop4

/-- The size in bytes of the emitted code. An access is preceded by the instructions that set up
its address. -/
def size : Inst → CodeOffset
  | nop => 0
  | branch .. | branchElse .. => 8
  | load _ _ mem | store _ _ mem =>
    UInt32.ofNat (4 * (1 + (mem.finalize 0 .discard).setup.length))
  | _ => 4

end Inst

def Setup.toInst : Setup → Inst
  | literal rd off => .load .u64 rd (.direct (.literal off))
  | sum rd rn rm => .alu (.op .add .w64) rd rn rm

end Codegen.A64
