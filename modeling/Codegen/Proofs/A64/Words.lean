import Codegen.Proofs.A64.Machine
import Codegen.Proofs.A64.Synonyms

/-!
The words of every instruction. `Inst.singles` are the instructions of one word each that an
instruction is emitted as: those that set up an address before an access, a branch and the jump
after it. A successful emission writes one word for each of them, and the word tells it.
-/
namespace Codegen.A64

open Emit (exec_bind_eq_ok exec_checkedWord_eq_ok)

theorem littleEndian_inj {w w' : UInt32} (h : littleEndian 4 w.toNat = littleEndian 4 w'.toNat) :
    w = w' := by
  have hnumber := congrArg ofLittleEndian h
  rw [ofLittleEndian_littleEndian, ofLittleEndian_littleEndian, Nat.mod_eq_of_lt w.toNat_lt,
    Nat.mod_eq_of_lt w'.toNat_lt] at hnumber
  exact UInt32.toNat_inj.mp hnumber

theorem wordBytes_inj {ws ws' : List UInt32} (h : wordBytes ws = wordBytes ws') : ws = ws' := by
  induction ws generalizing ws' with
  | nil =>
      cases ws' with
      | nil => rfl
      | cons w' ws' =>
          have hlength := congrArg List.length h
          simp [length_wordBytes] at hlength
  | cons w ws ih =>
      cases ws' with
      | nil =>
          have hlength := congrArg List.length h
          simp [length_wordBytes] at hlength
      | cons w' ws' =>
          obtain ⟨hword, hrest⟩ := List.append_inj h rfl
          rw [littleEndian_inj hword, ih hrest]

namespace Inst

/-- The instructions of one word each that the instruction is emitted as, at the given offset and
for the given pool. -/
def singles (here : CodeOffset) (pool : ConstantPool) : Inst → List Inst
  | nop => []
  | load op rd mem =>
    let f := mem.finalize here (.pool pool)
    f.setup.map Setup.toInst ++ [load op rd (.direct f.address)]
  | store op rt mem =>
    let f := mem.finalize here (.pool pool)
    f.setup.map Setup.toInst ++ [store op rt (.direct f.address)]
  | branchElse t n cond => [branchTo t false cond, jump n]
  | i => [i]

/-- As `Made`, also for the condition of a branch that is followed by a jump. -/
def WellMade : Inst → Prop
  | branchElse _ _ cond => cond.Made
  | i => i.Made

end Inst

section Written

/-- What was written from one state to another is a word for each of the instructions. -/
def Written (P : Inst → UInt32 → Prop) (is : List Inst) (s t : Emitter) : Prop :=
  ∃ words, t.buffer.bytes.toList = s.buffer.bytes.toList ++ wordBytes words ∧
    List.Forall₂ P is words

variable {P Q : Inst → UInt32 → Prop} {s t u : Emitter}

theorem Written.trans {front back : List Inst} (h : Written P front s t) (h' : Written P back t u) :
    Written P (front ++ back) s u := by
  obtain ⟨ws, ht, hws⟩ := h
  obtain ⟨ws', hu, hws'⟩ := h'
  exact ⟨ws ++ ws', by rw [hu, ht, wordBytes_append, List.append_assoc], List.rel_append hws hws'⟩

theorem Written.word {i : Inst} {w : UInt32} (h : P i w)
    (hbytes : t.buffer.bytes.toList = s.buffer.bytes.toList ++ littleEndian 4 w.toNat) :
    Written P [i] s t :=
  ⟨[w], by rw [hbytes, wordBytes, List.flatMap_singleton], .cons h .nil⟩

theorem Written.checkedWord {i : Inst} {w : Checked UInt32}
    (hemit : (Emit.checkedWord w).exec s = (.ok (), t)) (h : ∀ word, w = .ok word → P i word) :
    Written P [i] s t := by
  obtain ⟨word, hword, rfl⟩ := exec_checkedWord_eq_ok.mp hemit
  exact .word (h word hword) (CodeBuffer.toList_put _ _)

theorem eq_of_written {words words' : List UInt32}
    (h : t.buffer.bytes.toList = s.buffer.bytes.toList ++ wordBytes words) :
    t.buffer.bytes.toList = s.buffer.bytes.toList ++ wordBytes words' ↔ words' = words := by
  constructor
  · intro h'
    rw [h] at h'
    exact (wordBytes_inj (List.append_cancel_left h')).symm
  · rintro rfl
    exact h

theorem Written.iff {R : Inst → Prop} {is : List Inst} (h : Written P is s t)
    (hiff : ∀ i w, P i w → (Q i w ↔ R i)) : Written Q is s t ↔ ∀ i ∈ is, R i := by
  obtain ⟨words, ht, hwords⟩ := h
  simp only [Written, eq_of_written ht, exists_eq_left]
  clear ht
  induction hwords with
  | nil => simp
  | cons hw _ ih => simp only [List.forall₂_cons, hiff _ _ hw, ih, List.forall_mem_cons]

end Written

section Emission

variable {s t : Emitter}

theorem toldBy_setup {step : Setup} {word : UInt32} (hknown : step.toInst.Known)
    (h : Word.setup step = .ok word) : step.toInst.ToldBy word := by
  cases step with
  | literal rd offset =>
      have hrd := hknown _ rfl rd (by simp [Inst.Occurrences.all])
      simp only [Word.setup, hwEnc_of_known hrd, Checked.ok_bind] at h
      exact ⟨_, disassemble_literal h (number_lt hrd), rfl⟩
  | sum rd rn rm => exact toldBy_alu hknown h

theorem Mem.known_setup (mem : Mem) (here : CodeOffset) (sink : ConstantSink) :
    ∀ step ∈ (mem.finalize here sink).setup, step.toInst.Known := by
  cases mem with
  | direct a | constant data => simp [finalize]
  | stack offset =>
      simp only [finalize]
      cases SImm9.ofValue? offset with
      | some imm => simp
      | none =>
          intro step hstep o ho
          rcases List.mem_pair.mp hstep with rfl | rfl
          · cases ho
            decide
          · cases ho
            decide

/-- An access is emitted as the instructions that set up its address and one access of it. -/
theorem toldBy_access {a : Access} {r : Reg} {mem : Mem} (access : Address → Inst)
    (haccess : ∀ address, (access address).canonical.form =
      address.canonical.place?.map (.access a (number r)))
    (hmade : mem.Made) (hknown : ∀ used modified, mem.regs = .ok (used, modified) →
      registers.Known r ∧ ∀ r' ∈ used ++ modified, registers.Known r')
    (hemit : (do emitAccess a (← Emit.ofChecked (hwEnc r)) mem).exec s = (.ok (), t)) :
    Written Inst.ToldBy ((mem.finalize s.buffer.offset (.pool s.pool)).setup.map Setup.toInst ++
      [access (mem.finalize s.buffer.offset (.pool s.pool)).address]) s t := by
  obtain ⟨rt, m, hrt, hemit⟩ := exec_bind_eq_ok.mp hemit
  obtain ⟨hrt, rfl⟩ : hwEnc r = .ok rt ∧ s = m := Prod.mk.inj hrt
  obtain ⟨steps, word, hsteps, hword, rfl⟩ := exec_emitAccess.mp hemit
  obtain ⟨used, modified, hregs⟩ := mem.regs_of_access hword
  obtain ⟨hr, _⟩ := hknown used modified hregs
  rw [hwEnc_of_known hr] at hrt
  cases hrt
  obtain ⟨place, hplace, hform⟩ := disassemble_access hword (Mem.made_finalize hmade _ _)
    (Mem.known_finalize (fun used modified h => (hknown used modified h).2) _ _) (number_lt hr)
  refine ⟨steps ++ [word], CodeBuffer.toList_put _ _, List.rel_append ?_ (.cons ?_ .nil)⟩
  · rw [List.forall₂_map_left_iff]
    have hall := (List.forall₂_and_left _ _).mpr
      ⟨mem.known_setup _ _, Checked.mapM_eq_ok.mp hsteps⟩
    exact hall.imp fun step word h => toldBy_setup h.1 h.2
  · exact ⟨_, hform, by rw [haccess, hplace, Option.map_some]⟩

/-- Emission that succeeds, for registers of the target and operands as their constructors make
them: every word tells its instruction. -/
theorem Inst.toldBy_singles {i : Inst} (hknown : i.Known) (hmade : i.WellMade)
    (hemit : i.emit.exec s = (.ok (), t)) :
    Written ToldBy (i.singles s.buffer.offset s.pool) s t := by
  cases i with
  | unset | branch => cases hemit
  | nop =>
      cases hemit
      exact ⟨[], by simp [wordBytes], .nil⟩
  | nop4 =>
      cases hemit
      exact .word ⟨.nop, disassemble_nop, rfl⟩ (CodeBuffer.toList_put _ _)
  | ret =>
      cases hemit
      exact .word ⟨.ret 30, disassemble_ret, rfl⟩ (CodeBuffer.toList_put _ _)
  | udf trap =>
      cases hemit
      exact .word ⟨.udf, disassemble_zero, rfl⟩ (CodeBuffer.toList_put (s.buffer.trap trap) _)
  | call callee stackmap =>
      have htold : (call callee stackmap).ToldBy (Word.jump true 0) :=
        ⟨.call 0, disassemble_jump (Nat.two_pow_pos 26), rfl⟩
      cases stackmap with
      | some m =>
          cases hemit
          exact .word htold (CodeBuffer.toList_put (s.buffer.reloc .call callee 0) _)
      | none =>
          cases hemit
          exact .word htold (CodeBuffer.toList_put (s.buffer.reloc .call callee 0) _)
  | alu op rd rn rm => exact .checkedWord hemit fun _ h => toldBy_alu hknown h
  | aluThree op rd rn rm ra => exact .checkedWord hemit fun _ h => toldBy_aluThree hknown h
  | aluImm op rd rn imm => exact .checkedWord hemit fun _ h => toldBy_aluImm hknown hmade h
  | aluBitmask op rd rn imm => exact .checkedWord hemit fun _ h => toldBy_aluBitmask hknown hmade h
  | aluShift op rd rn imm => exact .checkedWord hemit fun _ h => toldBy_aluShift hknown h
  | aluShifted op rd rn rm shift =>
      exact .checkedWord hemit fun _ h => toldBy_aluShifted hknown hmade h
  | aluExtended op rd rn rm ext =>
      exact .checkedWord hemit fun _ h => toldBy_aluExtended hknown hmade h
  | load op rd mem =>
      refine toldBy_access (fun a => load op rd (.direct a)) (fun _ => rfl) hmade ?_ hemit
      intro used modified hregs
      have hall := hknown { used, defined := [rd], modified } (by simp [occurrences, hregs])
      simp only [Occurrences.all, List.mem_append, List.mem_singleton] at hall ⊢
      exact ⟨hall rd (by simp), fun r hr => hall r (by tauto)⟩
  | store op rt mem =>
      refine toldBy_access (fun a => store op rt (.direct a)) (fun _ => rfl) hmade ?_ hemit
      intro used modified hregs
      have hall := hknown { used := rt :: used, modified } (by simp [occurrences, hregs])
      simp only [Occurrences.all, List.mem_append, List.mem_cons, List.not_mem_nil] at hall ⊢
      exact ⟨hall rt (by simp), fun r hr => hall r (by tauto)⟩
  | storePair rt rt2 mem =>
      refine .checkedWord hemit fun _ h => toldBy_pair hmade ?_ h
      intro used modified hregs r hr
      refine hknown { used := rt :: rt2 :: used, modified } (by simp [occurrences, hregs]) r ?_
      simpa [Occurrences.all] using hr
  | loadPair rd rd2 mem =>
      refine .checkedWord hemit fun _ h => toldBy_pair hmade ?_ h
      intro used modified hregs r hr
      refine hknown { used, defined := [rd, rd2], modified } (by simp [occurrences, hregs]) r ?_
      simp only [Occurrences.all, List.mem_append, List.mem_cons, List.not_mem_nil] at hr ⊢
      tauto
  | mov rd rm =>
      have hrd := hknown _ rfl rd (by simp [Occurrences.all])
      have hrm := hknown _ rfl rm (by simp [Occurrences.all])
      refine .checkedWord hemit fun word h => ?_
      simp only [hwEnc_of_known hrd, hwEnc_of_known hrm, Checked.ok_bind, Checked.pure_eq_ok] at h
      exact h ▸ toldBy_mov (number_lt hrd) (number_lt hrm)
  | movZ rd imm =>
      have hrd := hknown _ rfl rd (by simp [Occurrences.all])
      obtain ⟨v, hv⟩ := hmade
      refine .checkedWord hemit fun word h => ?_
      simp only [hwEnc_of_known hrd, Checked.ok_bind, Checked.pure_eq_ok] at h
      exact h ▸ toldBy_moveWide false hv hrd
  | movN rd imm =>
      have hrd := hknown _ rfl rd (by simp [Occurrences.all])
      obtain ⟨v, hv⟩ := hmade
      refine .checkedWord hemit fun word h => ?_
      simp only [hwEnc_of_known hrd, Checked.ok_bind, Checked.pure_eq_ok] at h
      exact h ▸ toldBy_moveWide true hv hrd
  | callReg rn =>
      have hrn := hknown _ rfl rn (by simp [Occurrences.all])
      refine .checkedWord hemit fun word h => ?_
      simp only [hwEnc_of_known hrn, Checked.ok_bind, Checked.pure_eq_ok] at h
      exact ⟨_, h ▸ disassemble_callReg (number_lt hrn), rfl⟩
  | jump target => exact .checkedWord hemit fun _ h => toldBy_jump h
  | branchTo target inverted cond =>
      refine .checkedWord hemit fun _ h => toldBy_branchTo hmade (fun r hr => hknown _ rfl r ?_) h
      simpa [Occurrences.all] using hr
  | branchElse taken notTaken cond =>
      obtain ⟨⟨⟩, m, hbranch, hjump⟩ := exec_bind_eq_ok.mp hemit
      have hregs : ∀ r ∈ cond.reg?.toList, registers.Known r := by
        intro r hr
        exact hknown _ rfl r (by simpa [Occurrences.all] using hr)
      exact (Written.checkedWord hbranch fun _ h => toldBy_branch hmade hregs h).trans
        (.checkedWord hjump fun _ h => toldBy_jump h)

end Emission

end Codegen.A64
