import Codegen.A64.Inst
import Codegen.A64.Word
import Codegen.CodeBuffer

/-!
Emission: the words and records of an instruction. Branches must be lowered and resolved, and
registers allocated.
-/
namespace Codegen.A64

open Emit (ofChecked onBuffer word checkedWord)

/-- Reduces a memory operand at the current offset; its constant goes to the pool. -/
def emitFinalize (mem : Mem) : Emit (List Setup × Address) := do
  let s ← get
  let f := mem.finalize s.buffer.offset (.pool s.pool)
  match f.sink with
  | .pool pool => set { s with pool }
  | .discard => pure ()
  return (f.setup, f.address)

def emitAccess (a : Access) (rt : Nat) (mem : Mem) : Emit Unit := do
  let (setup, address) ← emitFinalize mem
  setup.forM fun step => checkedWord (Word.setup step)
  checkedWord (Word.access a rt address)

def Inst.emit : Inst → Emit Unit
  | unset => ofChecked (broken (.unsetInst .emission))
  | nop => pure ()
  | nop4 => word Word.nop
  | alu op rd rn rm => checkedWord do
    Word.alu op (← hwEnc rd) (← hwEnc rn) (← hwEnc rm) (rd = sp || rn = sp)
  | aluThree op rd rn rm ra => checkedWord do
    Word.aluThree op (← hwEnc rd) (← hwEnc rn) (← hwEnc rm) (← hwEnc ra)
  | aluImm op rd rn imm => checkedWord do Word.aluImm op (← hwEnc rd) (← hwEnc rn) imm
  | aluBitmask op rd rn imm => checkedWord do Word.aluBitmask op (← hwEnc rd) (← hwEnc rn) imm
  | aluShift op rd rn imm => checkedWord do
    Word.aluShift op (← hwEnc rd) (← hwEnc rn) imm.amount.toNat
  | aluShifted op rd rn rm shift => checkedWord do
    Word.aluShifted op (← hwEnc rd) (← hwEnc rn) (← hwEnc rm) shift
  | aluExtended op rd rn rm ext => checkedWord do
    Word.aluExtended op (← hwEnc rd) (← hwEnc rn) (← hwEnc rm) ext
  | load op rd mem => do emitAccess (.load op) (← ofChecked (hwEnc rd)) mem
  | store op rt mem => do emitAccess (.store op) (← ofChecked (hwEnc rt)) mem
  | storePair rt rt2 mem => checkedWord do Word.pair false (← hwEnc rt) (← hwEnc rt2) mem
  | loadPair rd rd2 mem => checkedWord do Word.pair true (← hwEnc rd) (← hwEnc rd2) mem
  | mov rd rm => checkedWord do
    let m ← hwEnc rm
    let d ← hwEnc rd
    return if rd = sp || rm = sp then Word.movSp d m else Word.mov d m
  | movZ rd imm => checkedWord do return Word.moveWide 0b10 (← hwEnc rd) imm
  | movN rd imm => checkedWord do return Word.moveWide 0b00 (← hwEnc rd) imm
  | call callee stackmap => do
    onBuffer (·.reloc .call callee 0)
    word (Word.jump true 0)
    match stackmap with
    | some m => onBuffer (·.safepoint m)
    | none => pure ()
  | callReg rn => checkedWord do return Word.callReg (← hwEnc rn)
  | ret => word Word.ret
  | jump t => checkedWord do return Word.jump false (← t.wordField 26)
  | branchTo t inverted cond => checkedWord do
    let cond ← cond.invertIf inverted
    Word.branch cond (← t.wordField 19)
  | branchElse t n cond => do
    checkedWord do Word.branch cond (← t.wordField 19)
    checkedWord do return Word.jump false (← n.wordField 26)
  | udf trap => do
    onBuffer (·.trap trap)
    word 0
  | branch .. => ofChecked (broken .unloweredBranch)

end Codegen.A64
