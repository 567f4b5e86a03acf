import Codegen.A64.Control
import Codegen.A64.Emission
import Codegen.A64.Listing
import Codegen.A64.Operands
import Codegen.Proofs.A64.Expansion
import Codegen.Proofs.Bounds

/-!
No question about an instruction looks outside of a table, whatever its operands are: how it ends a
block, which registers it reads and writes, its words and its text fail with a complaint if at all.
-/
namespace Codegen.A64

open Checked (InBounds)

theorem inBounds_bytes (ty : ValueType) : InBounds ty.bytes := by
  unfold ValueType.bytes
  split
  · exact Checked.inBounds_ok _
  · exact Checked.inBounds_broken _

theorem inBounds_parts (op : AluOp) : InBounds op.parts := by
  cases op with
  | op fn w => exact Checked.inBounds_ok _
  | undeclared code => exact Checked.inBounds_broken _

theorem inBounds_hwEnc (r : Reg) : InBounds (hwEnc r) := by
  cases r with
  | physical c e i => exact Checked.inBounds_ok _
  | virtual c i => exact Checked.inBounds_broken _

section Questions

theorem BranchTarget.inBounds_mustBlock (t : BranchTarget) : InBounds t.mustBlock := by
  cases t with
  | block b => exact Checked.inBounds_ok _
  | resolved off => exact Checked.inBounds_broken _

theorem Inst.inBounds_terminator (i : Inst) : InBounds i.terminator := by
  cases i with
  | jump t => simp [terminator, t.inBounds_mustBlock]
  | branch t n cond => simp [terminator, t.inBounds_mustBlock, n.inBounds_mustBlock]
  | _ => simp [terminator]

theorem Mem.inBounds_regs (mem : Mem) : InBounds mem.regs := by
  cases mem with
  | direct a =>
      cases a with
      | _ => simp [regs, Address.regs]
  | constant data => simp [regs]
  | stack offset => simp [regs]

theorem PairMem.inBounds_regs (mem : PairMem) : InBounds mem.regs := by
  cases mem with
  | unset => simp [regs]
  | access mode rn imm =>
      cases mode with
      | _ => simp [regs]

theorem Inst.inBounds_uses (i : Inst) : InBounds i.uses := by
  cases i with
  | load op r mem | store op r mem => simp [uses, occurrences, mem.inBounds_regs]
  | storePair r r2 mem | loadPair r r2 mem => simp [uses, occurrences, mem.inBounds_regs]
  | _ => simp [uses, occurrences]

end Questions

section Words

variable (op : AluOp) (rd rn rm ra : Nat)

theorem Word.inBounds_alu (usesSp : Bool) : InBounds (alu op rd rn rm usesSp) := by
  simp only [alu, Checked.inBounds_bind, inBounds_parts, true_and]
  rintro ⟨fn, w⟩ _
  dsimp only
  split
  · simp
  · split
    · simp
    · split
      · simp
      · simp

theorem Word.inBounds_aluThree : InBounds (aluThree op rd rn rm ra) := by
  unfold aluThree
  split
  · simp
  · simp

theorem Word.inBounds_addSubOf (form : AluForm) : InBounds (addSubOf op form) := by
  unfold addSubOf
  split
  · split
    · simp
    · simp
  · simp

theorem Word.inBounds_aluBitmask (imm : BitmaskImm) : InBounds (aluBitmask op rd rn imm) := by
  unfold aluBitmask
  split
  · split
    · simp
    · simp
  · simp

theorem Word.inBounds_aluShift (amount : Nat) : InBounds (aluShift op rd rn amount) := by
  simp only [aluShift, Checked.inBounds_bind, inBounds_parts, true_and]
  rintro ⟨fn, w⟩ _
  dsimp only
  split
  · simp
  · split
    · simp
    · simp

theorem Word.inBounds_aluShifted (shift : ShiftAmount) :
    InBounds (aluShifted op rd rn rm shift) := by
  simp only [aluShifted, Checked.inBounds_bind, inBounds_parts, true_and]
  rintro ⟨fn, w⟩ _
  dsimp only
  split
  · simp
  · split
    · simp
    · split
      · simp
      · simp

theorem Word.inBounds_literal (a : Access) (rt : Nat) (offset : Int) :
    InBounds (literal a rt offset) := by
  unfold literal
  split
  · simp
  · simp only [Checked.inBounds_ite, Checked.inBounds_broken, implies_true, true_and]
    intro _
    split
    · simp
    · simp

theorem Word.inBounds_checkScale (a : Access) (ty : ValueType) : InBounds (checkScale a ty) := by
  simp [checkScale, inBounds_bytes]

theorem Word.inBounds_access (a : Access) (rt : Nat) (address : Address) :
    InBounds (access a rt address) := by
  cases address with
  | literal offset => exact inBounds_literal a rt offset.toInt
  | _ => simp [access, inBounds_hwEnc, inBounds_checkScale]

theorem Word.inBounds_pair (load : Bool) (rt rt2 : Nat) (mem : PairMem) :
    InBounds (pair load rt rt2 mem) := by
  cases mem with
  | unset => simp [pair]
  | access mode rn imm => simp [pair, inBounds_bytes, inBounds_hwEnc]

theorem Word.inBounds_branch (cond : BranchCond) (imm19 : Nat) : InBounds (branch cond imm19) := by
  cases cond with
  | _ => simp [branch, inBounds_hwEnc]

theorem Word.inBounds_setup (step : Setup) : InBounds (setup step) := by
  cases step with
  | literal rd offset => simp [setup, inBounds_hwEnc, inBounds_literal]
  | sum rd rn rm => simp [setup, inBounds_hwEnc, inBounds_alu]

theorem BranchTarget.inBounds_wordField (width : Nat) (t : BranchTarget) :
    InBounds (t.wordField width) := by
  cases t with
  | block b => simp [wordField]
  | resolved off =>
      simp only [wordField, Checked.inBounds_ite, Checked.inBounds_broken, implies_true, true_and]
      intro _
      split
      · simp
      · simp

theorem BranchCond.inBounds_invertIf (inverted : Bool) (cond : BranchCond) :
    InBounds (cond.invertIf inverted) := by
  cases cond with
  | _ => simp [invertIf, invert]

end Words

section Emission

open Emit (inBounds_checkedWord)

theorem inBounds_emitAccess (a : Access) (rt : Nat) (mem : Mem) :
    Emit.InBounds (emitAccess a rt mem) := by
  refine Emit.inBounds_bind ?_ fun f => ?_
  · intro s
    rw [exec_emitFinalize]
    exact Checked.inBounds_ok _
  · refine Emit.inBounds_bind ?_ fun _ => ?_
    · exact Emit.inBounds_forM _ fun step => inBounds_checkedWord (Word.inBounds_setup step)
    · exact inBounds_checkedWord (Word.inBounds_access a rt f.2)

/-- The emission of an instruction stays within bounds, whatever its operands are. -/
theorem Inst.inBounds_emit (i : Inst) : Emit.InBounds i.emit := by
  cases i with
  | unset | branch => exact Emit.inBounds_ofChecked (Checked.inBounds_broken _)
  | nop => exact Emit.inBounds_pure ()
  | nop4 | ret => exact Emit.inBounds_onBuffer _
  | alu op rd rn rm =>
      exact inBounds_checkedWord (by simp [inBounds_hwEnc, Word.inBounds_alu])
  | aluThree op rd rn rm ra =>
      exact inBounds_checkedWord (by simp [inBounds_hwEnc, Word.inBounds_aluThree])
  | aluImm op rd rn imm =>
      exact inBounds_checkedWord (by simp [inBounds_hwEnc, Word.aluImm, Word.inBounds_addSubOf])
  | aluBitmask op rd rn imm =>
      exact inBounds_checkedWord (by simp [inBounds_hwEnc, Word.inBounds_aluBitmask])
  | aluShift op rd rn imm =>
      exact inBounds_checkedWord (by simp [inBounds_hwEnc, Word.inBounds_aluShift])
  | aluShifted op rd rn rm shift =>
      exact inBounds_checkedWord (by simp [inBounds_hwEnc, Word.inBounds_aluShifted])
  | aluExtended op rd rn rm ext =>
      exact inBounds_checkedWord
        (by simp [inBounds_hwEnc, Word.aluExtended, Word.inBounds_addSubOf])
  | load op r mem | store op r mem =>
      exact Emit.inBounds_bind (Emit.inBounds_ofChecked (inBounds_hwEnc r)) fun rt =>
        inBounds_emitAccess _ rt mem
  | storePair r r2 mem | loadPair r r2 mem =>
      exact inBounds_checkedWord (by simp [inBounds_hwEnc, Word.inBounds_pair])
  | mov rd rm | movZ rd imm | movN rd imm | callReg rn =>
      exact inBounds_checkedWord (by simp [inBounds_hwEnc])
  | call callee stackmap =>
      refine Emit.inBounds_bind (Emit.inBounds_onBuffer _) fun _ => ?_
      refine Emit.inBounds_bind (Emit.inBounds_onBuffer _) fun _ => ?_
      cases stackmap with
      | some m => exact Emit.inBounds_onBuffer _
      | none => exact Emit.inBounds_pure ()
  | jump t => exact inBounds_checkedWord (by simp [t.inBounds_wordField])
  | branchTo t inverted cond =>
      exact inBounds_checkedWord
        (by simp [cond.inBounds_invertIf, t.inBounds_wordField, Word.inBounds_branch])
  | branchElse t n cond =>
      refine Emit.inBounds_bind ?_ fun _ => ?_
      · exact inBounds_checkedWord (by simp [t.inBounds_wordField, Word.inBounds_branch])
      · exact inBounds_checkedWord (by simp [n.inBounds_wordField])
  | udf trap =>
      exact Emit.inBounds_bind (Emit.inBounds_onBuffer _) fun _ => Emit.inBounds_onBuffer _

end Emission

section Listing

variable (name : Naming)

theorem inBounds_showAlu (op : AluOp) (regs : List Reg) (others : List String) :
    InBounds (showAlu name op regs others) := by
  simp [showAlu, inBounds_parts]

theorem inBounds_showAluImm (op : AluOp) (rd rn : Reg) (imm : Imm12) :
    InBounds (showAluImm name op rd rn imm) := by
  simp [showAluImm, inBounds_showAlu]

theorem Address.inBounds_text (address : Address) : InBounds (address.text name) := by
  cases address with
  | _ => simp [text, inBounds_bytes]

theorem PairMem.inBounds_text (mem : PairMem) : InBounds (mem.text name) := by
  cases mem with
  | unset => simp [text]
  | access mode rn imm =>
      cases mode with
      | _ => simp [text, inBounds_bytes]

theorem BranchCond.inBounds_text (target : String) (cond : BranchCond) :
    InBounds (cond.text name target) := by
  cases cond with
  | _ => simp [text]

theorem Setup.inBounds_text (step : Setup) : InBounds (step.text name) := by
  cases step with
  | literal rd off => simp [text, showAccess, Address.inBounds_text]
  | sum rd rn rm => exact inBounds_showAlu name _ _ _

theorem inBounds_showMem (a : Access) (rt : Reg) (mem : Mem) (sink : ConstantSink) :
    InBounds (showMem name a rt mem sink) := by
  have hsetup : InBounds ((mem.finalize 0 sink).setup.mapM (Setup.text name)) :=
    Checked.inBounds_mapM fun step _ => step.inBounds_text name
  have hupdate : ∀ rn imm, InBounds (showBaseUpdate name rn imm) := by
    intro rn imm
    simp [showBaseUpdate, inBounds_showAluImm]
  have haccess : ∀ unscaled address, InBounds (showAccess name a unscaled rt address) := by
    intro unscaled address
    simp [showAccess, Address.inBounds_text]
  simp only [showMem, showSteps, Checked.inBounds_bind, hsetup, true_and]
  refine ⟨?_, fun _ _ => Checked.inBounds_pure _⟩
  intro texts _
  split
  · simp [hupdate, haccess]
  · simp [haccess]

theorem Inst.inBounds_text (i : Inst) : InBounds (i.text name) := by
  cases i with
  | aluImm op rd rn imm => exact inBounds_showAluImm name op rd rn imm
  | load op r mem | store op r mem => simp [text, inBounds_showMem]
  | storePair r r2 mem | loadPair r r2 mem => simp [text, mem.inBounds_text]
  | branch t n cond | branchElse t n cond => simp [text, cond.inBounds_text]
  | branchTo t inverted cond =>
      simp [text, cond.inBounds_invertIf, BranchCond.inBounds_text]
  | _ => simp [text, inBounds_showAlu]

end Listing

end Codegen.A64
