import Codegen.A64.Inst
import Codegen.RegMap
import Codegen.Uses

/-!
Register operands of instructions: which registers an instruction reads and writes, and how they
are replaced. A base that is written back is read and written in one step, so it is modified and
neither used nor defined.
-/
namespace Codegen.A64.Inst

/-- The register operands as they stand: read, written, and both. -/
structure Occurrences where
  used : List Reg := []
  defined : List Reg := []
  modified : List Reg := []

def occurrences : Inst → Checked Occurrences
  | unset => broken (.unsetInst .uses)
  | alu _ rd rn rm | aluShifted _ rd rn rm _ | aluExtended _ rd rn rm _ =>
    .ok { used := [rn, rm], defined := [rd] }
  | aluThree _ rd rn rm ra => .ok { used := [rn, rm, ra], defined := [rd] }
  | aluImm _ rd rn _ | aluBitmask _ rd rn _ | aluShift _ rd rn _ =>
    .ok { used := [rn], defined := [rd] }
  | load _ rd mem => do
    let (used, modified) ← mem.regs
    return { used, defined := [rd], modified }
  | store _ rt mem => do
    let (used, modified) ← mem.regs
    return { used := rt :: used, modified }
  | storePair rt rt2 mem => do
    let (used, modified) ← mem.regs
    return { used := rt :: rt2 :: used, modified }
  | loadPair rd rd2 mem => do
    let (used, modified) ← mem.regs
    return { used, defined := [rd, rd2], modified }
  | mov rd rm => .ok { used := [rm], defined := [rd] }
  | movZ rd _ | movN rd _ => .ok { defined := [rd] }
  | callReg rn => .ok { used := [rn] }
  | branch _ _ cond | branchTo _ _ cond | branchElse _ _ cond => .ok { used := cond.reg?.toList }
  | jump _ | call _ _ | ret | nop | nop4 | udf _ => .ok {}

def uses (i : Inst) : Checked Uses := do
  let o ← i.occurrences
  return (Uses.ofLists o.used o.defined o.modified).normalize

def mapCond (f : Reg → Checked Reg) : BranchCond → Checked BranchCond
  | .zero r => return .zero (← f r)
  | .notZero r => return .notZero (← f r)
  | .unset => return .unset
  | .flag c => return .flag c

/-- Replaces every register: the defined ones through `post`, those that are read through `pre`.
Modified registers are read and written as one, so they go through `pre`. -/
def mapRegs (pre post : RegMap) : Inst → Checked Inst
  | unset => broken (.unsetInst .mapping)
  | alu op rd rn rm => return alu op (← post.apply rd) (← pre.apply rn) (← pre.apply rm)
  | aluThree op rd rn rm ra =>
    return aluThree op (← post.apply rd) (← pre.apply rn) (← pre.apply rm) (← pre.apply ra)
  | aluImm op rd rn imm => return aluImm op (← post.apply rd) (← pre.apply rn) imm
  | aluBitmask op rd rn imm => return aluBitmask op (← post.apply rd) (← pre.apply rn) imm
  | aluShift op rd rn imm => return aluShift op (← post.apply rd) (← pre.apply rn) imm
  | aluShifted op rd rn rm shift =>
    return aluShifted op (← post.apply rd) (← pre.apply rn) (← pre.apply rm) shift
  | aluExtended op rd rn rm ext =>
    return aluExtended op (← post.apply rd) (← pre.apply rn) (← pre.apply rm) ext
  | load op rd mem => return load op (← post.apply rd) (← mem.mapRegs pre.apply)
  | store op rt mem => return store op (← pre.apply rt) (← mem.mapRegs pre.apply)
  | storePair rt rt2 mem =>
    return storePair (← pre.apply rt) (← pre.apply rt2) (← mem.mapRegs pre.apply)
  | loadPair rd rd2 mem =>
    return loadPair (← post.apply rd) (← post.apply rd2) (← mem.mapRegs pre.apply)
  | mov rd rm => return mov (← post.apply rd) (← pre.apply rm)
  | movZ rd imm => return movZ (← post.apply rd) imm
  | movN rd imm => return movN (← post.apply rd) imm
  | callReg rn => return callReg (← pre.apply rn)
  | branch t n cond => return branch t n (← mapCond pre.apply cond)
  | branchTo t inverted cond => return branchTo t inverted (← mapCond pre.apply cond)
  | branchElse t n cond => return branchElse t n (← mapCond pre.apply cond)
  | jump t => return jump t
  | call callee stackmap => return call callee stackmap
  | ret => return ret
  | nop => return nop
  | nop4 => return nop4
  | udf trap => return udf trap

end Codegen.A64.Inst
