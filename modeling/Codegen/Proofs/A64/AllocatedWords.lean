import Codegen.Proofs.A64.EncodingTable

/-!
The words that are emitted are allocated. Each instruction of one word is allocated by its operands
(`Inst.AllocatedForm`) or refused, with one exception: the index of an access may be extended from a
byte or a halfword, which no word can tell, and the encoder does not refuse it.
-/
namespace Codegen.A64

/-- What was written from one state to another are allocated words. -/
def EmitsAllocated (s t : Emitter) : Prop :=
  ∃ words, t.buffer.bytes.toList = s.buffer.bytes.toList ++ wordBytes words ∧
    ∀ w ∈ words, Allocated w

section Narrow

/-- The index is extended from a byte or a halfword. -/
def Address.NarrowIndex : Address → Prop
  | indexExtended _ _ _ ext => ext ∈ [.uxtb, .uxth, .sxtb, .sxth]
  | _ => False

def Mem.NarrowIndex : Mem → Prop
  | direct a => a.NarrowIndex
  | _ => False

def Inst.NarrowIndex : Inst → Prop
  | load _ _ mem | store _ _ mem => mem.NarrowIndex
  | _ => False

/-- The second bit of the code tells an index of a word or a double word. -/
theorem ExtendOp.testBit_code {ext : ExtendOp} (h : ext ∈ declared) :
    ext.code.testBit 1 = true ↔ ext ∉ [.uxtb, .uxth, .sxtb, .sxth] := by
  revert ext
  decide

theorem Address.allocated_place {address : Address} {place : Place} (hmade : address.Made)
    (h : address.canonical.place? = some place) (a : Access) (rt : Nat) :
    (Form.access a rt place).Allocated ↔ ¬ address.NarrowIndex := by
  cases address with
  | unset => cases h
  | indexExtended rn rm ty ext =>
      cases h
      exact ExtendOp.testBit_code hmade
  | indexScaled rn rm ty =>
      cases h
      exact iff_of_true (show ExtendOp.uxtx.code.testBit 1 = true by decide) id
  | _ =>
      cases h
      exact iff_of_true trivial id

theorem Mem.narrowIndex_finalize (mem : Mem) (here : CodeOffset) (sink : ConstantSink) :
    (mem.finalize here sink).address.NarrowIndex ↔ mem.NarrowIndex := by
  cases mem with
  | direct a => rfl
  | constant data => rfl
  | stack offset =>
      simp only [finalize]
      cases SImm9.ofValue? offset with
      | some imm => rfl
      | none => rfl

end Narrow

namespace Inst

/-- What the word of the instruction tells is allocated. -/
def AllocatedForm (i : Inst) : Prop := ∀ f, i.canonical.form = some f → f.Allocated

section Operands

variable {op : AluOp} {rd rn rm : Reg}

theorem allocatedForm_alu : (alu op rd rn rm).AllocatedForm := by
  intro f hf
  cases op with
  | undeclared code => cases hf
  | op fn w =>
      simp only [canonical] at hf
      split at hf
      · cases hf
        trivial
      · split at hf
        · cases hf
          trivial
        · cases hf
          exact ⟨fun _ => by decide, by cases w <;> decide⟩

theorem allocatedForm_mov : (mov rd rm).AllocatedForm := by
  intro f hf
  simp only [canonical] at hf
  split at hf
  · cases hf
    trivial
  · cases hf
    exact ⟨fun _ => by decide, by decide⟩

/-- Amounts that reach the width, and rotations in an addition, are refused. -/
theorem allocatedForm_aluShifted {shift : ShiftAmount} {d n m : Nat} {word : UInt32}
    (h : Word.aluShifted op d n m shift = .ok word) :
    (aluShifted op rd rn rm shift).AllocatedForm := by
  intro f hf
  cases op with
  | undeclared code => cases hf
  | op fn w =>
      cases hf
      simp only [Word.aluShifted, AluOp.parts, Checked.ok_bind] at h
      split at h
      · cases h
      · rename_i hamount
        refine ⟨fun haddSub => ?_, Nat.lt_of_not_le hamount⟩
        obtain ⟨opS, hopS⟩ := Option.isSome_iff_exists.mp haddSub
        rw [hopS] at h
        simp only [Checked.broken_bind, Checked.ite_broken_eq_ok] at h
        exact h.1

theorem allocatedForm_aluShift {imm : ShiftImm} {d n : Nat} {word : UInt32}
    (h : Word.aluShift op d n imm.amount.toNat = .ok word) :
    (aluShift op rd rn imm).AllocatedForm := by
  intro f hf
  cases op with
  | undeclared code => cases hf
  | op fn w =>
      cases hf
      simp only [Word.aluShift, AluOp.parts, Checked.ok_bind, Checked.broken_bind,
        Checked.ite_broken_eq_ok] at h
      refine ⟨Nat.lt_of_not_le h.1, fun hfn => ?_⟩
      by_contra hzero
      split at hfn
      · cases hfn
      · rename_i hother
        exact hother ⟨by omega, hfn⟩

theorem allocatedForm_aluBitmask {imm : BitmaskImm} {d n : Nat} {word : UInt32}
    (hmade : (aluBitmask op rd rn imm).Made) (h : Word.aluBitmask op d n imm = .ok word) :
    (aluBitmask op rd rn imm).AllocatedForm := by
  intro f hf
  cases op with
  | undeclared code => cases hf
  | op fn w =>
      cases hf
      obtain ⟨v, built, himm⟩ := hmade
      obtain ⟨_, _, hfits, _⟩ := aluBitmask_eq_ok.mp h
      obtain ⟨x, hx⟩ := BitmaskImm.exists_expand? himm hfits
      exact Option.isSome_iff_exists.mpr ⟨x, hx⟩

theorem allocatedForm_branchTo {target : BranchTarget} {inverted : Bool} {cond : BranchCond} :
    (branchTo target inverted cond).AllocatedForm := by
  intro f hf
  obtain ⟨_, test, offset, _, _, _, rfl⟩ := exists_of_form_branchTo hf
  trivial

theorem allocatedForm_jump {target : BranchTarget} : (jump target).AllocatedForm := by
  intro f hf
  cases target with
  | block b => cases hf
  | resolved offset =>
      cases hf
      trivial

theorem allocatedForm_setup (step : Setup) : step.toInst.AllocatedForm := by
  cases step with
  | literal rd offset =>
      intro f hf
      cases hf
      trivial
  | sum rd rn rm => exact allocatedForm_alu

theorem allocatedForm_access {a : Access} {r : Reg} {address : Address} (access : Inst)
    (haccess : access.canonical.form = address.canonical.place?.map (.access a (number r)))
    (hmade : address.Made) : access.AllocatedForm ↔ ¬ address.NarrowIndex := by
  rw [AllocatedForm, haccess]
  cases hplace : address.canonical.place? with
  | some place => simp [Address.allocated_place hmade hplace]
  | none =>
      cases address with
      | unset => exact iff_of_true nofun id
      | _ => cases hplace

end Operands

section Emission

open Emit (exec_checkedWord_eq_ok)

variable {i : Inst} {s t : Emitter}

theorem emitsAllocated_iff {is : List Inst} (h : Written ToldBy is s t) :
    EmitsAllocated s t ↔ ∀ i ∈ is, i.AllocatedForm := by
  obtain ⟨words, ht, htold⟩ := h
  simp only [EmitsAllocated, eq_of_written ht, exists_eq_left]
  clear ht
  induction htold with
  | nil => simp
  | @cons i w is words hw _ ih =>
      obtain ⟨f, hf, hform⟩ := hw
      have hone : Allocated w ↔ i.AllocatedForm := by
        simp [allocated_iff hf, AllocatedForm, hform]
      simp only [List.forall_mem_cons, hone, ih]

/-- Of the instructions that emission does not refuse, only the accesses of a narrow index have a
word that is not allocated. -/
theorem allocatedForm_singles_iff (hmade : i.WellMade) (htrap : ∀ trap, i ≠ .udf trap)
    (hemit : i.emit.exec s = (.ok (), t)) (here : CodeOffset) (pool : ConstantPool) :
    (∀ j ∈ i.singles here pool, j.AllocatedForm) ↔ ¬ i.NarrowIndex := by
  have hone : i.singles here pool = [i] → ¬ i.NarrowIndex → i.AllocatedForm →
      ((∀ j ∈ i.singles here pool, j.AllocatedForm) ↔ ¬ i.NarrowIndex) := by
    intro hsingles hnarrow halloc
    rw [hsingles, List.forall_mem_singleton]
    exact iff_of_true halloc hnarrow
  cases i with
  | unset | branch => cases hemit
  | udf trap => exact absurd rfl (htrap trap)
  | nop => simp [singles, NarrowIndex]
  | nop4 | call callee stackmap | callReg rn | ret | movZ rd imm | movN rd imm =>
      refine hone rfl id fun f hf => ?_
      cases hf
      trivial
  | alu op rd rn rm => exact hone rfl id allocatedForm_alu
  | mov rd rm => exact hone rfl id allocatedForm_mov
  | jump target => exact hone rfl id allocatedForm_jump
  | branchTo target inverted cond => exact hone rfl id allocatedForm_branchTo
  | load op r mem | store op r mem =>
      have hmade := Mem.made_finalize hmade here (.pool pool)
      simp only [singles, List.forall_mem_append, List.forall_mem_map, List.forall_mem_singleton]
      rw [allocatedForm_access _ rfl hmade, Mem.narrowIndex_finalize]
      exact and_iff_right fun step _ => allocatedForm_setup step
  | branchElse taken notTaken cond =>
      simp [singles, NarrowIndex, allocatedForm_branchTo, allocatedForm_jump]
  | aluThree op rd rn rm ra =>
      refine hone rfl id fun f hf => ?_
      cases op with
      | undeclared code => cases hf
      | op fn w =>
          cases fn with
          | madd =>
              cases hf
              trivial
          | _ => cases hf
  | aluImm op rd rn imm | aluExtended op rd rn rm ext =>
      refine hone rfl id fun f hf => ?_
      cases op with
      | undeclared code => cases hf
      | op fn w =>
          cases hf
          trivial
  | storePair rt rt2 mem | loadPair rt rt2 mem =>
      refine hone rfl id fun f hf => ?_
      cases mem with
      | unset => cases hf
      | access mode rn imm =>
          cases hf
          trivial
  | aluBitmask op rd rn imm =>
      obtain ⟨word, hword, _⟩ := exec_checkedWord_eq_ok.mp hemit
      obtain ⟨d, _, hword⟩ := Checked.bind_eq_ok.mp hword
      obtain ⟨n, _, hword⟩ := Checked.bind_eq_ok.mp hword
      exact hone rfl id (allocatedForm_aluBitmask hmade hword)
  | aluShift op rd rn imm =>
      obtain ⟨word, hword, _⟩ := exec_checkedWord_eq_ok.mp hemit
      obtain ⟨d, _, hword⟩ := Checked.bind_eq_ok.mp hword
      obtain ⟨n, _, hword⟩ := Checked.bind_eq_ok.mp hword
      exact hone rfl id (allocatedForm_aluShift hword)
  | aluShifted op rd rn rm shift =>
      obtain ⟨word, hword, _⟩ := exec_checkedWord_eq_ok.mp hemit
      obtain ⟨d, _, hword⟩ := Checked.bind_eq_ok.mp hword
      obtain ⟨n, _, hword⟩ := Checked.bind_eq_ok.mp hword
      obtain ⟨m, _, hword⟩ := Checked.bind_eq_ok.mp hword
      exact hone rfl id (allocatedForm_aluShifted hword)

/-- What emission writes are allocated words, for registers of the target, operands as their
constructors make them and every instruction but the trap, except for an access whose index is
extended from a byte or a halfword. That one is not refused, and its word is not allocated. -/
theorem emit_allocated_iff (hknown : i.Known) (hmade : i.WellMade) (htrap : ∀ trap, i ≠ .udf trap)
    (hemit : i.emit.exec s = (.ok (), t)) : EmitsAllocated s t ↔ ¬ i.NarrowIndex := by
  rw [emitsAllocated_iff (toldBy_singles hknown hmade hemit),
    allocatedForm_singles_iff hmade htrap hemit]

def wordIndex : Inst := .load .u64 (gpr 0) (.direct (.indexExtended (gpr 1) (gpr 2) .i64 .sxtw))

theorem emit_allocated_iff_wordIndex :
    wordIndex.Known ∧ wordIndex.WellMade ∧ (∀ trap, wordIndex ≠ .udf trap) ∧
      ∃ t, wordIndex.emit.exec emptyCode = (.ok (), t) ∧ EmitsAllocated emptyCode t := by
  have hknown : wordIndex.Known := by decide
  have hmade : wordIndex.WellMade := show ExtendOp.sxtw ∈ ExtendOp.declared by decide
  have htrap : ∀ trap, wordIndex ≠ .udf trap := fun _ => nofun
  have hemit : wordIndex.emit.exec emptyCode =
      (.ok (), (wordIndex.emit.exec emptyCode).2) := by decide +kernel
  have hword : ¬ wordIndex.NarrowIndex :=
    show ExtendOp.sxtw ∉ [ExtendOp.uxtb, .uxth, .sxtb, .sxth] by decide
  exact ⟨hknown, hmade, htrap, _, hemit,
    (emit_allocated_iff hknown hmade htrap hemit).mpr hword⟩

def byteIndex : Inst := .load .u64 (gpr 0) (.direct (.indexExtended (gpr 1) (gpr 2) .i64 .uxtb))

/-- The load is emitted, as a word that no instruction has. -/
theorem not_emitsAllocated_byteIndex :
    ¬ ∀ (i : Inst) (s t : Emitter), i.Known → i.WellMade → (∀ trap, i ≠ .udf trap) →
      i.emit.exec s = (.ok (), t) → EmitsAllocated s t := by
  have hknown : byteIndex.Known := by decide
  have hmade : byteIndex.WellMade := show ExtendOp.uxtb ∈ ExtendOp.declared by decide
  have htrap : ∀ trap, byteIndex ≠ .udf trap := fun _ => nofun
  have hemit : byteIndex.emit.exec emptyCode =
      (.ok (), (byteIndex.emit.exec emptyCode).2) := by decide +kernel
  have hbyte : byteIndex.NarrowIndex :=
    show ExtendOp.uxtb ∈ [ExtendOp.uxtb, .uxth, .sxtb, .sxth] by decide
  intro h
  have hallocated := h _ _ _ hknown hmade htrap hemit
  rw [emitsAllocated_iff (toldBy_singles hknown hmade hemit),
    allocatedForm_singles_iff hmade htrap hemit] at hallocated
  exact hallocated hbyte

end Emission

end Inst

end Codegen.A64
