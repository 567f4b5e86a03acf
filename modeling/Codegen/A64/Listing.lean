import Codegen.A64.Inst
import Codegen.Text.Hex

/-!
Listing: the text of an instruction, with registers named by a naming function.

The constants that an operand needs go to a sink, as they do when the instruction is emitted, and
the instructions that set up its address are shown before it, each followed by a semicolon. The
base update of a pre-indexed access is shown as an addition or a subtraction of its own.
-/
namespace Codegen.A64

abbrev Naming := Reg → String

/-- Operands after a mnemonic. -/
def showOperands (mnemonic : String) (operands : List String) : String :=
  mnemonic ++ " " ++ ", ".intercalate operands

/-- An operation, its register operands in the width of the operation, and its other operands. -/
def showAlu (name : Naming) (op : AluOp) (regs : List Reg) (others : List String) :
    Checked String := do
  let (fn, w) ← op.parts
  return showOperands fn.mnemonic (regs.map (sizedName name (w = .w32)) ++ others)

/-- An operation on a register and a 12-bit immediate; an addition of zero is shown as a move. -/
def showAluImm (name : Naming) (op : AluOp) (rd rn : Reg) (imm : Imm12) : Checked String :=
  if op = .op .add .w64 ∧ imm.bits = 0 then .ok (showOperands "mov" [name rd, name rn])
  else showAlu name op [rd, rn] [imm.text]

/-- The shift that scales an index by a size of 1, 2, 4, 8 or 16 bytes. -/
def scaleShift (bytes : Nat) : Nat := Nat.log2 bytes

def Address.text (name : Naming) : Address → Checked String
  | unset => broken .unsetAddress
  | base rn => return "[" ++ name rn ++ "]"
  | unscaled rn imm =>
    return if imm.value = 0 then "[" ++ name rn ++ "]"
      else "[" ++ name rn ++ ", " ++ imm.text ++ "]"
  | scaled rn imm =>
    return if imm.value = 0 then "[" ++ name rn ++ "]"
      else "[" ++ name rn ++ ", " ++ imm.text ++ "]"
  | index rn rm => return "[" ++ name rn ++ ", " ++ name rm ++ "]"
  | indexScaled rn rm ty => do
    let shift := scaleShift (← ty.bytes)
    return "[" ++ name rn ++ ", " ++ name rm ++ s!", lsl #{shift}]"
  | indexExtended rn rm ty ext => do
    let shift := scaleShift (← ty.bytes)
    return "[" ++ name rn ++ ", " ++ sizedName name ext.isWord rm ++ ", " ++ embed ext.text ++
      s!" #{shift}]"
  | literal off => return "pc" ++ Text.signed off.toInt
  | preIndexed rn imm => return "[" ++ name rn ++ ", " ++ imm.text ++ "]!"
  | postIndexed rn imm => return "[" ++ name rn ++ "], " ++ imm.text

def PairMem.text (name : Naming) : PairMem → Checked String
  | unset => broken (.sizelessType .invalid)
  | access mode rn imm => do
    let scale ← imm.ty.bytes
    if scale ≠ 8 then broken (.shownPairScale scale 8)
    match mode with
    | .offset =>
      return if imm.value = 0 then "[" ++ name rn ++ "]"
        else "[" ++ name rn ++ ", " ++ imm.text ++ "]"
    | .preIndexed => return "[" ++ name rn ++ ", " ++ imm.text ++ "]!"
    | .postIndexed => return "[" ++ name rn ++ "], " ++ imm.text

/-- An access with a finalized address. -/
def showAccess (name : Naming) (a : Access) (unscaled : Bool) (rt : Reg) (address : Address) :
    Checked String := do
  return showOperands (a.mnemonic unscaled) [sizedName name a.isNarrow rt, ← address.text name]

def Setup.text (name : Naming) : Setup → Checked String
  | literal rd off => showAccess name (.load .u64) false rd (.literal off)
  | sum rd rn rm => showAlu name (.op .add .w64) [rd, rn, rm] []

/-- The base update of a pre-indexed access. An update by zero is shown as a subtraction, since an
addition of zero is shown as a move. -/
def showBaseUpdate (name : Naming) (rn : Reg) (imm : SImm9) : Checked String :=
  let v := imm.value.toInt
  if v ≤ 0 then showAluImm name (.op .sub .w64) rn rn { bits := UInt16.ofNat (-v).toNat }
  else showAluImm name (.op .add .w64) rn rn { bits := UInt16.ofNat v.toNat }

/-- A load or store after the instructions that compute its address, and the sink with the constant
that it needs. -/
def showSteps (name : Naming) (a : Access) (rt : Reg) (mem : Mem) (sink : ConstantSink) :
    Checked (List String × ConstantSink) := do
  let f := mem.finalize 0 sink
  let setup ← f.setup.mapM (Setup.text name)
  let unscaled := f.address.isUnscaled
  match f.address with
  | .preIndexed rn imm =>
    let update ← showBaseUpdate name rn imm
    return (setup ++ [update, ← showAccess name a unscaled rt (.base rn)], f.sink)
  | address => return (setup ++ [← showAccess name a unscaled rt address], f.sink)

def showMem (name : Naming) (a : Access) (rt : Reg) (mem : Mem) (sink : ConstantSink) :
    Checked (String × ConstantSink) := do
  let (steps, sink) ← showSteps name a rt mem sink
  return (" ; ".intercalate steps, sink)

namespace Inst

/-- The text of an instruction; the constants that it needs are discarded. -/
def text (name : Naming) : Inst → Checked String
  | unset => broken (.unsetInst .listing)
  | nop => return ""
  | nop4 => return "nop"
  | alu op rd rn rm => showAlu name op [rd, rn, rm] []
  | aluThree op rd rn rm ra => showAlu name op [rd, rn, rm, ra] []
  | aluImm op rd rn imm => showAluImm name op rd rn imm
  | aluBitmask op rd rn imm => showAlu name op [rd, rn] [imm.text]
  | aluShift op rd rn imm => showAlu name op [rd, rn] [imm.text]
  | aluShifted op rd rn rm shift => showAlu name op [rd, rn, rm] [shift.text]
  | aluExtended op rd rn rm ext => showAlu name op [rd, rn, rm] [embed ext.text]
  | load op rd mem => return (← showMem name (.load op) rd mem .discard).1
  | store op rt mem => return (← showMem name (.store op) rt mem .discard).1
  | storePair rt rt2 mem => return showOperands "stp" [name rt, name rt2, ← mem.text name]
  | loadPair rd rd2 mem => return showOperands "ldp" [name rd, name rd2, ← mem.text name]
  | mov rd rm => return showOperands "mov" [name rd, name rm]
  | movZ rd imm => return showOperands "movz" [name rd, imm.text]
  | movN rd imm => return showOperands "movn" [name rd, imm.text]
  -- The callee is known to the relocation only.
  | call _ _ => return "bl !!"
  | callReg rn => return "bl " ++ name rn
  | ret => return "ret"
  | jump t => return "b " ++ t.text
  | branch t n cond | branchElse t n cond =>
    return (← cond.text name t.text) ++ " ; b " ++ n.text
  | branchTo t inverted cond => do (← cond.invertIf inverted).text name t.text
  | udf trap => return "udf ; trap=" ++ trap.text

/-- The text of an instruction, and the sink with the constant that it needs. -/
def textWith (name : Naming) (i : Inst) (sink : ConstantSink) : Checked (String × ConstantSink) :=
  match i with
  | load op rd mem => showMem name (.load op) rd mem sink
  | store op rt mem => showMem name (.store op) rt mem sink
  | i => return (← i.text name, sink)

/-- The text of an instruction inside a larger one, with registers named by default. -/
def embedded (i : Inst) : String := embed (i.text Reg.text)

end Inst

end Codegen.A64
