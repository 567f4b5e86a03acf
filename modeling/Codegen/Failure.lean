import Codegen.A64.Operation
import Codegen.Register
import Codegen.Stage
import Codegen.Text.Quoted
import Codegen.ValueType

/-!
Failures: why an answer cannot be given.

A `Defect` is a broken rule of the pipeline itself, a `Refusal` is a request that cannot be met,
and `outOfBounds` is an index outside of a table. Each has one cause and one text.
-/
namespace Codegen

open A64 (AluOp Access)

inductive AluForm where
  | register
  | threeSource
  | imm12
  | logicalImm
  | shiftImm
  | shifted
  | extended
  deriving DecidableEq, Repr

def AluForm.name : AluForm → String
  | register => "register-register"
  | threeSource => "three-source"
  | imm12 => "imm12"
  | logicalImm => "logical immediate"
  | shiftImm => "shift immediate"
  | shifted => "shifted register"
  | extended => "extended register"

/-- What an instruction that was never set was asked for. -/
inductive Question where
  | uses
  | mapping
  | emission
  | listing
  deriving DecidableEq, Repr

def Question.name : Question → String
  | uses => "RegUses"
  | mapping => "MapRegs"
  | emission => "Emit"
  | listing => "ShowWithConsts"

/-- A broken rule of the pipeline. -/
inductive Defect where
  | sizelessType (ty : ValueType)
  | classlessType (ty : ValueType)
  | notPhysical (r : Reg)
  | notVirtual (r : Reg)
  | noGeneralRegister (n : UInt8)
  | noVectorRegister (n : UInt8)
  | unallocated (r : Reg)
  | encodedVirtual (r : Reg)
  | undeclaredAlu (code : UInt8)
  | undeclaredShift (code : UInt8)
  | undeclaredExtend (code : UInt8)
  | undeclaredCond (code : UInt8)
  | undeclaredTerminator (code : UInt8)
  | unsetCondition
  | encodedUnsetCondition
  | unsetAddress
  | encodedUnsetAddress
  | unsetPair
  | unsetInst (asked : Question)
  | unresolvedBranch (block : Nat)
  | misalignedBranch (offset : Int)
  | branchTooFar (offset : Int) (width : Nat)
  | targetNotBlock (offset : Int)
  | terminatorOfLowered (kind : String)
  | relabelOfLowered (kind : String)
  | unloweredBranch
  | shownPairScale (scale size : Nat)
  | pairScale (scale : Nat)
  | noStackPointer (op : AluOp)
  | noForm (op : AluOp) (form : AluForm)
  | wideLogicalImm (value : Nat) (op : AluOp)
  | shiftTooLarge (amount : Nat) (op : AluOp)
  | noRotation (op : AluOp)
  | scaledOffset (offset size : Nat)
  | indexScale (scale size : Nat)
  | noLiteralForm (access : Access)
  | literalTooFar (offset : Int)
  | nopTooSmall (size : Int)
  | pushOutsideBlock
  | noBlocks
  | emptyBlock (block : Nat)
  | innerTerminator (block : Nat) (inst : String)
  | noTerminator (block : Nat) (inst : String)
  | missingTarget (block target : Nat)
  | outOfOrder (pass : Pass) (stage : Stage)
  | orderLength (order : List Nat) (blocks : Nat)
  | notPermutation (order : List Nat)
  | survivingVirtual (r : Reg) (inst : String)
  | misplacedInst (index : Nat) (inst : String) (got want : Nat)
  | classlessRegister (r : Reg)
  | sharedRegister (a b : Reg) (name : String)
  | occupiedRegister (r : Reg) (name : String) (first last : Nat)
  deriving DecidableEq, Repr

/-- A text that cannot be produced is replaced by the complaint about it. -/
def unprintable (complaint : String) : String :=
  "%!s(PANIC=String method: " ++ complaint ++ ")"

namespace Defect

/-- The complaint about a broken rule, which calls it a bug. -/
def complaint (what : String) : String := "BUG: " ++ what

def opText (op : AluOp) : String :=
  match op.name with
  | .ok name => name
  | .error c => unprintable (complaint s!"invalid ALUOp {c.toNat}")

def orderText (order : List Nat) : String :=
  "[" ++ " ".intercalate (order.map toString) ++ "]"

/-- What rule is broken. -/
def what : Defect → String
  | sizelessType ty => "Bits() called on " ++ ty.name
  | classlessType ty => "unexpected value type " ++ ty.name
  | notPhysical r => r.text ++ " is not a real register"
  | notVirtual r => r.text ++ " is not a virtual register"
  | noGeneralRegister n => s!"x{n.toNat} is not a general purpose register"
  | noVectorRegister n => s!"v{n.toNat} is not a vector register"
  | unallocated r => r.text ++ " has no allocated register"
  | encodedVirtual r => "encoding virtual register " ++ r.text
  | undeclaredAlu c => s!"invalid ALUOp {c.toNat}"
  | undeclaredShift c => s!"invalid ShiftOp {c.toNat}"
  | undeclaredExtend c => s!"invalid ExtendOp {c.toNat}"
  | undeclaredCond c => s!"invalid Cond {c.toNat}"
  | undeclaredTerminator c => s!"invalid terminator kind {c.toNat}"
  | unsetCondition => "invalid CondBrKind 0"
  | encodedUnsetCondition => "invalid branch condition 0"
  | unsetAddress => "invalid MemArg kind 0"
  | encodedUnsetAddress => "invalid addressing mode 0"
  | unsetPair => "invalid PairMemArg kind 0"
  | unsetInst q => q.name ++ ": invalid instruction kind 0"
  | unresolvedBranch b => s!"branch to block{b} is not resolved"
  | misalignedBranch off => s!"branch offset {off} is not a multiple of 4"
  | branchTooFar off w => s!"branch offset {off} does not fit in {w} bits"
  | targetNotBlock off => s!"branch target {off} is not a block"
  | terminatorOfLowered k => "IsTerm called after lowering branches: " ++ k
  | relabelOfLowered k => "WithBlockRewrites called after lowering branches: " ++ k
  | unloweredBranch => "conditional branch emitted before branch lowering"
  | shownPairScale scale size =>
    s!"pair offset scaled by {scale} bytes used for {size}-byte accesses"
  | pairScale scale => s!"pair offset scaled by {scale} bytes used for 64-bit registers"
  | noStackPointer op => opText op ++ " cannot use sp"
  | noForm op form => opText op ++ " has no " ++ form.name ++ " form"
  | wideLogicalImm v op => s!"64-bit logical immediate #{v} used by " ++ opText op
  | shiftTooLarge n op => s!"shift amount {n} out of range for " ++ opText op
  | noRotation op => opText op ++ " cannot rotate its operand"
  | scaledOffset off size => s!"offset {off} does not fit a scaled {size}-byte access"
  | indexScale scale size => s!"index scaled by {scale} bytes used for {size}-byte access"
  | noLiteralForm a => a.name ++ " has no PC-relative form"
  | literalTooFar off => s!"PC-relative offset {off} out of range"
  | nopTooSmall size => s!"no-op of {size} bytes requested"
  | pushOutsideBlock => "Push outside of a block"
  | noBlocks => "function without blocks"
  | emptyBlock b => s!"block{b} is empty"
  | innerTerminator b inst => s!"block{b}: terminator {inst} in the middle of the block"
  | noTerminator b inst => s!"block{b} does not end with a terminator: {inst}"
  | missingTarget b t => s!"block{b} branches to missing block{t}"
  | outOfOrder pass stage => pass.name ++ " called on " ++ stage.name ++ " code"
  | orderLength order n => "invalid block order " ++ orderText order ++ s!" for {n} blocks"
  | notPermutation order => "invalid block order " ++ orderText order
  | survivingVirtual r inst => r.text ++ " survived register rewriting in " ++ inst
  | misplacedInst i inst got want =>
    s!"instruction {i} ({inst}) emitted at {got}, expected {want}"
  | classlessRegister r => r.text ++ " has no register class"
  | sharedRegister a b name => a.text ++ " and " ++ b.text ++ " both assigned " ++ name
  | occupiedRegister r name first last =>
    r.text ++ " assigned " ++ name ++ s!" which is live in [{first}, {last}]"

def message (d : Defect) : String := complaint d.what

end Defect

/-- A request that cannot be met. -/
inductive Refusal where
  | tooManyRegisters (count max : Nat)
  | allocableCount (allocable : Int) (count : Nat)
  | misplacedRegister (name : String) (position index : Nat)
  | invalidRegisterClass (name : String)
  | badRange (cls : RegClass) (first last : Int)
  | foreignRegister (cls : RegClass) (name : String) (actual : RegClass)
  | uncovered (covered allocable : Int)
  | exhausted (cls : RegClass) (r : Reg) (first last : Nat) (inUse : List String)
  | unknownFunction (name : String)
  | noTarget
  | unsupportedTarget (name : String)
  | notExecutable
  deriving DecidableEq, Repr

def Refusal.message : Refusal → String
  | tooManyRegisters n max => s!"too many registers: {n} > {max}"
  | allocableCount a n => s!"allocable count {a} exceeds {n} registers"
  | misplacedRegister name i index => s!"register {name} at position {i} has index {index}"
  | invalidRegisterClass name => s!"register {name} has invalid class"
  | badRange c first last => "class " ++ c.name ++ s!": bad allocatable range [{first}, {last}]"
  | foreignRegister c name actual =>
    "class " ++ c.name ++ s!": register {name} in range has class " ++ actual.name
  | uncovered n a => s!"allocatable ranges cover {n} registers, expected {a}"
  | exhausted c r first last inUse =>
    "register allocation failed: no " ++ c.name ++ " register available for " ++ r.text ++
      s!" live in [{first}, {last}] (in use: " ++ ", ".intercalate inUse ++ ")"
  | unknownFunction name => "unknown function " ++ Text.quote name
  | noTarget => "compilation requires a target isa"
  | unsupportedTarget name => "unsupported isa: " ++ name
  | notExecutable => "executable code is not supported on this host"

/-- Why an answer cannot be given, and while doing what. -/
inductive Failure where
  | defect (d : Defect)
  | refusal (r : Refusal)
  | outOfBounds
  | within (activity : String) (cause : Failure)
  deriving DecidableEq, Repr

/-- A value, or why there is none. -/
abbrev Checked (α : Type) := Except Failure α

namespace Failure

/-- The failure itself, whatever was being done. -/
def root : Failure → Failure
  | within _ f => f.root
  | f => f

def message : Failure → String
  | defect d => d.message
  | refusal r => r.message
  | outOfBounds => "index out of range"
  | within activity f => activity ++ ": " ++ f.message

/-- Says what was being done when a rule was broken or a request refused. -/
def during (activity : String) : Failure → Failure
  | outOfBounds => outOfBounds
  | f => within activity f

end Failure

def broken {α : Type} (d : Defect) : Checked α := .error (.defect d)

def refuse {α : Type} (r : Refusal) : Checked α := .error (.refusal r)

/-- A text inside a larger one: a text that cannot be produced leaves its complaint there. -/
def embed : Checked String → String
  | .ok s => s
  | .error f => unprintable f.message

def entry {α : Type} (table : List α) (i : Nat) : Checked α :=
  match table[i]? with
  | some a => .ok a
  | none => .error .outOfBounds

def Reg.asPhysical (r : Reg) : Checked Reg :=
  if r.isPhysical then .ok r else broken (.notPhysical r)

def Reg.asVirtual (r : Reg) : Checked Reg :=
  if r.isVirtual then .ok r else broken (.notVirtual r)

def ValueType.bits (ty : ValueType) : Checked Nat :=
  match ty.bits? with
  | some n => .ok n
  | none => broken (.sizelessType ty)

def ValueType.bytes (ty : ValueType) : Checked Nat :=
  match ty.bytes? with
  | some n => .ok n
  | none => broken (.sizelessType ty)

end Codegen
