import Codegen.A64.Listing
import Codegen.Proofs.A64.Control
import Codegen.Proofs.A64.Expansion

/-!
What can be emitted can be shown. Listing and encoding are separate case analyses, each with
refusals of its own; every refusal of the listing is matched by one of the encoder. Resolving a
target changes the text of a branch and not whether there is one.
-/
namespace Codegen.A64

/-- There is a text, however registers are named. -/
def Inst.Shown (i : Inst) : Prop := ∀ name, ∃ text, i.text name = .ok text

section Operands

variable (name : Naming)

theorem exists_showAlu (fn : AluFn) (w : Width) (regs : List Reg) (others : List String) :
    ∃ text, showAlu name (.op fn w) regs others = .ok text := ⟨_, rfl⟩

theorem exists_showAluImm (fn : AluFn) (w : Width) (rd rn : Reg) (imm : Imm12) :
    ∃ text, showAluImm name (.op fn w) rd rn imm = .ok text := by
  unfold showAluImm
  split
  · exact ⟨_, rfl⟩
  · exact exists_showAlu name fn w [rd, rn] [imm.text]

theorem Word.checkScale_eq_ok {a : Access} {ty : ValueType} (h : Word.checkScale a ty = .ok ()) :
    ty.bytes = .ok a.bytes := by
  obtain ⟨scale, hscale, h⟩ := Checked.bind_eq_ok.mp h
  simp only [ne_eq, Checked.ite_broken_eq_ok, not_not] at h
  rw [hscale, h.1]

theorem Address.exists_text {a : Access} {rt : Nat} {address : Address} {word : UInt32}
    (h : Word.access a rt address = .ok word) : ∃ text, address.text name = .ok text := by
  cases address with
  | unset => cases h
  | indexScaled rn rm ty | indexExtended rn rm ty ext =>
      obtain ⟨⟨⟩, hscale, _⟩ := Checked.bind_eq_ok.mp h
      have hbytes := Word.checkScale_eq_ok hscale
      simp only [text, hbytes, Checked.ok_bind]
      exact ⟨_, rfl⟩
  | _ => exact ⟨_, rfl⟩

theorem PairMem.exists_text {load : Bool} {rt rt2 : Nat} {mem : PairMem} {word : UInt32}
    (h : Word.pair load rt rt2 mem = .ok word) : ∃ text, mem.text name = .ok text := by
  cases mem with
  | unset => cases h
  | access mode rn imm =>
      obtain ⟨scale, hscale, h⟩ := Checked.bind_eq_ok.mp h
      simp only [ne_eq, Checked.broken_bind, Checked.ite_broken_eq_ok, not_not] at h
      obtain ⟨rfl, _⟩ := h
      simp only [text, hscale, Checked.ok_bind]
      cases mode with
      | _ => exact ⟨_, rfl⟩

theorem BranchCond.exists_text {cond : BranchCond} {imm19 : Nat} {word : UInt32}
    (h : Word.branch cond imm19 = .ok word) (target : String) :
    ∃ text, cond.text name target = .ok text := by
  cases cond with
  | unset => cases h
  | _ => exact ⟨_, rfl⟩

theorem BranchCond.exists_text_congr {cond : BranchCond} {target : String}
    (h : ∃ text, cond.text name target = .ok text) (other : String) :
    ∃ text, cond.text name other = .ok text := by
  cases cond with
  | unset =>
      obtain ⟨text, htext⟩ := h
      cases htext
  | _ => exact ⟨_, rfl⟩

/-- The listing reduces an operand at offset zero, the encoder where the access stands; the two
modes differ at most in the distance of a constant. -/
theorem Mem.exists_text {mem : Mem} {here : CodeOffset} {pool : ConstantPool}
    (h : ∃ text, (mem.finalize here (.pool pool)).address.text name = .ok text)
    (sink : ConstantSink) : ∃ text, (mem.finalize 0 sink).address.text name = .ok text := by
  cases mem with
  | direct a => exact h
  | constant data => exact ⟨_, rfl⟩
  | stack offset =>
      simp only [finalize]
      cases SImm9.ofValue? offset with
      | some imm => exact ⟨_, rfl⟩
      | none => exact ⟨_, rfl⟩

theorem exists_setup (steps : List Setup) :
    ∃ texts, steps.mapM (Setup.text name) = .ok texts := by
  induction steps with
  | nil => exact ⟨[], rfl⟩
  | cons step steps ih =>
      obtain ⟨texts, htexts⟩ := ih
      have hstep : ∃ text, step.text name = .ok text := by
        cases step with
        | literal rd off => exact ⟨_, rfl⟩
        | sum rd rn rm => exact ⟨_, rfl⟩
      obtain ⟨text, htext⟩ := hstep
      refine ⟨text :: texts, ?_⟩
      rw [List.mapM_cons, htext, Checked.ok_bind, htexts]
      rfl

theorem exists_showBaseUpdate (rn : Reg) (imm : SImm9) :
    ∃ text, showBaseUpdate name rn imm = .ok text := by
  unfold showBaseUpdate
  dsimp only
  split
  · exact exists_showAluImm name .sub .w64 rn rn _
  · exact exists_showAluImm name .add .w64 rn rn _

theorem exists_showMem {a : Access} {rt : Reg} {mem : Mem} {sink : ConstantSink}
    (h : ∃ text, (mem.finalize 0 sink).address.text name = .ok text) :
    ∃ shown, showMem name a rt mem sink = .ok shown := by
  obtain ⟨texts, htexts⟩ := exists_setup name (mem.finalize 0 sink).setup
  obtain ⟨text, htext⟩ := h
  unfold showMem showSteps
  simp only [htexts, Checked.ok_bind]
  -- the base update of a pre-indexed access is shown on its own
  split
  · rename_i rn imm _
    obtain ⟨update, hupdate⟩ := exists_showBaseUpdate name rn imm
    rw [hupdate]
    exact ⟨_, rfl⟩
  · simp only [showAccess, htext]
    exact ⟨_, rfl⟩

theorem exists_showMem_of_emit {a : Access} {r : Reg} {mem : Mem} {s t : Emitter}
    (h : (do emitAccess a (← Emit.ofChecked (hwEnc r)) mem : Emit Unit).exec s = (.ok (), t))
    (sink : ConstantSink) : ∃ shown, showMem name a r mem sink = .ok shown := by
  obtain ⟨rt, m, _, h⟩ := Emit.exec_bind_eq_ok.mp h
  obtain ⟨steps, word, _, hword, _⟩ := exec_emitAccess.mp h
  apply exists_showMem
  apply Mem.exists_text
  exact Address.exists_text name hword

end Operands

namespace Inst

variable {i : Inst} {s t : Emitter}

theorem shown_of_emit (h : i.emit.exec s = (.ok (), t)) : i.Shown := by
  intro name
  cases i with
  | unset | branch => cases h
  | alu op rd rn rm | aluShifted op rd rn rm shift | aluExtended op rd rn rm ext =>
      cases op with
      | op fn w => exact exists_showAlu name fn w [rd, rn, rm] _
      | undeclared code =>
          obtain ⟨word, hword, _⟩ := Emit.exec_checkedWord_eq_ok.mp h
          obtain ⟨d, _, hword⟩ := Checked.bind_eq_ok.mp hword
          obtain ⟨n, _, hword⟩ := Checked.bind_eq_ok.mp hword
          obtain ⟨m, _, hword⟩ := Checked.bind_eq_ok.mp hword
          cases hword
  | aluThree op rd rn rm ra =>
      cases op with
      | op fn w => exact exists_showAlu name fn w [rd, rn, rm, ra] _
      | undeclared code =>
          obtain ⟨word, hword, _⟩ := Emit.exec_checkedWord_eq_ok.mp h
          obtain ⟨d, _, hword⟩ := Checked.bind_eq_ok.mp hword
          obtain ⟨n, _, hword⟩ := Checked.bind_eq_ok.mp hword
          obtain ⟨m, _, hword⟩ := Checked.bind_eq_ok.mp hword
          obtain ⟨a, _, hword⟩ := Checked.bind_eq_ok.mp hword
          cases hword
  | aluImm op rd rn imm =>
      cases op with
      | op fn w => exact exists_showAluImm name fn w rd rn imm
      | undeclared code =>
          obtain ⟨word, hword, _⟩ := Emit.exec_checkedWord_eq_ok.mp h
          obtain ⟨d, _, hword⟩ := Checked.bind_eq_ok.mp hword
          obtain ⟨n, _, hword⟩ := Checked.bind_eq_ok.mp hword
          cases hword
  | aluBitmask op rd rn imm | aluShift op rd rn imm =>
      cases op with
      | op fn w => exact exists_showAlu name fn w [rd, rn] _
      | undeclared code =>
          obtain ⟨word, hword, _⟩ := Emit.exec_checkedWord_eq_ok.mp h
          obtain ⟨d, _, hword⟩ := Checked.bind_eq_ok.mp hword
          obtain ⟨n, _, hword⟩ := Checked.bind_eq_ok.mp hword
          cases hword
  | load op r mem | store op r mem =>
      obtain ⟨shown, hshown⟩ := exists_showMem_of_emit name h .discard
      exact ⟨shown.1, by simp only [text, hshown, Checked.ok_bind]; rfl⟩
  | storePair r r2 mem | loadPair r r2 mem =>
      obtain ⟨word, hword, _⟩ := Emit.exec_checkedWord_eq_ok.mp h
      obtain ⟨rt, _, hword⟩ := Checked.bind_eq_ok.mp hword
      obtain ⟨rt2, _, hword⟩ := Checked.bind_eq_ok.mp hword
      obtain ⟨shown, hshown⟩ := PairMem.exists_text name hword
      simp only [text, hshown, Checked.ok_bind]
      exact ⟨_, rfl⟩
  | branchTo target inverted cond =>
      obtain ⟨word, hword, _⟩ := Emit.exec_checkedWord_eq_ok.mp h
      obtain ⟨tested, htested, hword⟩ := Checked.bind_eq_ok.mp hword
      obtain ⟨field, _, hword⟩ := Checked.bind_eq_ok.mp hword
      simp only [text, htested, Checked.ok_bind]
      exact BranchCond.exists_text name hword target.text
  | branchElse taken notTaken cond =>
      obtain ⟨⟨⟩, m, hbranch, _⟩ := Emit.exec_bind_eq_ok.mp h
      obtain ⟨word, hword, _⟩ := Emit.exec_checkedWord_eq_ok.mp hbranch
      obtain ⟨field, _, hword⟩ := Checked.bind_eq_ok.mp hword
      obtain ⟨shown, hshown⟩ := BranchCond.exists_text name hword taken.text
      simp only [text, hshown, Checked.ok_bind]
      exact ⟨_, rfl⟩
  | _ => exact ⟨_, rfl⟩

/-- The same holds of the text that collects constants, wherever they go. -/
theorem exists_textWith (h : i.emit.exec s = (.ok (), t)) (name : Naming) (sink : ConstantSink) :
    ∃ shown, i.textWith name sink = .ok shown := by
  cases i with
  | load op r mem | store op r mem => exact exists_showMem_of_emit name h sink
  | _ =>
      obtain ⟨shown, hshown⟩ := shown_of_emit h name
      simp only [textWith, hshown, Checked.ok_bind]
      exact ⟨_, rfl⟩

/-- A branch that has a text once it is resolved has one before. -/
theorem shown_of_settle {offsets : List CodeOffset} {here : CodeOffset}
    (h : (i.settle offsets here).Shown) : i.Shown := by
  intro name
  cases i with
  | jump target => exact ⟨_, rfl⟩
  | branchTo target inverted cond =>
      obtain ⟨shown, hshown⟩ := h name
      obtain ⟨tested, htested, hshown⟩ := Checked.bind_eq_ok.mp hshown
      simp only [text, htested, Checked.ok_bind]
      exact BranchCond.exists_text_congr name ⟨shown, hshown⟩ target.text
  | branchElse taken notTaken cond =>
      obtain ⟨shown, hshown⟩ := h name
      obtain ⟨first, hfirst, _⟩ := Checked.bind_eq_ok.mp hshown
      obtain ⟨other, hother⟩ := BranchCond.exists_text_congr name ⟨first, hfirst⟩ taken.text
      simp only [text, hother, Checked.ok_bind]
      exact ⟨_, rfl⟩
  | _ => exact h name

end Inst

end Codegen.A64
