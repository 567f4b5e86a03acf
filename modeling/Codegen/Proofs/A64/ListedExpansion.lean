import Codegen.Proofs.A64.Access
import Codegen.Proofs.A64.Listing
import Codegen.Proofs.A64.Spelling
import Codegen.Proofs.A64.Words

/-!
Listing, sizing and emission expand a memory operand alike. Each of them reduces the operand for
itself: the listing at offset zero with a pool of its own, sizing without a pool, emission where the
access stands. What they have in common are the instructions that set up the address, up to the
distance of a constant, and what becomes of the pool.
-/
namespace Codegen.A64

section Steps

variable {name : Naming} {a : Access} {r : Reg} {mem : Mem} {sink rest : ConstantSink}

theorem Setup.text_eq (step : Setup) : step.text name = step.toInst.text name := by
  cases step with
  | literal rd off => rfl
  | sum rd rn rm => rfl

theorem Mem.eq_of_preIndexed {here : CodeOffset} {rn : Reg} {imm : SImm9}
    (h : (mem.finalize here sink).address = .preIndexed rn imm) :
    mem = .direct (.preIndexed rn imm) := by
  cases mem with
  | direct address => exact congrArg Mem.direct h
  | constant data => cases h
  | stack offset =>
      simp only [finalize] at h
      cases himm : SImm9.ofValue? offset with
      | some imm =>
          rw [himm] at h
          cases h
      | none =>
          rw [himm] at h
          cases h

/-- The texts of an access: those of the instructions that set up its address, that of the base
update if there is one, and its own. -/
theorem showSteps_eq_ok {steps : List String}
    (h : showSteps name a r mem sink = .ok (steps, rest)) :
    rest = (mem.finalize 0 sink).sink ∧ ∃ setup update last, steps = setup ++ update ++ [last] ∧
      List.Forall₂ (fun step shown => step.toInst.text name = .ok shown)
        (mem.finalize 0 sink).setup setup ∧
      mem.UpdateSpelled name update ∧ a.Spelled name r (mem.finalize 0 sink).address last := by
  obtain ⟨setup, hsetup, h⟩ := Checked.bind_eq_ok.mp h
  simp only [Checked.mapM_eq_ok, Setup.text_eq] at hsetup
  -- the update of a base is shown on its own, and the access then goes through the base
  split at h
  · rename_i rn imm haddress
    obtain ⟨update, hupdate, h⟩ := Checked.bind_eq_ok.mp h
    obtain ⟨last, hlast, h⟩ := Checked.bind_eq_ok.mp h
    cases h
    refine ⟨rfl, setup, [update], last, by simp, hsetup, ?_, ?_⟩
    · rw [Mem.eq_of_preIndexed haddress]
      exact Mem.updateSpelled_of_showBaseUpdate hupdate
    · refine Access.spelled_of_showAccess ?_
      rw [haddress] at hlast ⊢
      exact hlast
  · rename_i hother
    obtain ⟨last, hlast, h⟩ := Checked.bind_eq_ok.mp h
    cases h
    refine ⟨rfl, setup, [], last, by simp, hsetup, .none ?_, ?_⟩
    · rintro rn imm rfl
      exact hother _ _ rfl
    · refine Access.spelled_of_showAccess ?_
      have hsame : (mem.finalize 0 sink).address.updated = (mem.finalize 0 sink).address := by
        unfold Address.updated
        split
        · rename_i haddress
          exact (hother _ _ haddress).elim
        · rfl
      rw [hsame]
      exact hlast

end Steps

section Alike

variable {name : Naming} {i : Inst} {a : Access} {r : Reg} {mem : Mem} {s t : Emitter}

/-- The instructions shown one after the other, with the constants of all of them in one sink. -/
def showAll (name : Naming) : List Inst → ConstantSink → Checked (List String × ConstantSink)
  | [], sink => .ok ([], sink)
  | i :: insts, sink => do
    let (text, sink) ← i.textWith name sink
    let (texts, sink) ← showAll name insts sink
    return (text :: texts, sink)

/-- The text of an instruction leaves the pool with the constant of the instruction in it. -/
theorem Inst.sink_of_textWith {pool : ConstantPool} {text : String} {rest : ConstantSink}
    (h : i.textWith name (.pool pool) = .ok (text, rest)) :
    rest = .pool (pool.hold i.constant?) := by
  cases i with
  | load op r mem | store op r mem =>
      obtain ⟨⟨steps, sink⟩, hsteps, h⟩ := Checked.bind_eq_ok.mp h
      obtain ⟨hsink, _⟩ := showSteps_eq_ok hsteps
      cases h
      exact hsink.trans (mem.sink_finalize 0 pool)
  | _ =>
      obtain ⟨text, _, h⟩ := Checked.bind_eq_ok.mp h
      cases h
      rfl

/-- Instructions that are emitted are shown as well, and leave the same pool. -/
theorem showAll_of_forM (name : Naming) {insts : List Inst}
    (h : (insts.forM Inst.emit).exec s = (.ok (), t)) :
    ∃ texts, showAll name insts (.pool s.pool) = .ok (texts, .pool t.pool) := by
  induction insts generalizing s with
  | nil =>
      cases h
      exact ⟨[], rfl⟩
  | cons i insts ih =>
      obtain ⟨⟨⟩, m, hi, hrest⟩ := Emit.exec_bind_eq_ok.mp h
      obtain ⟨⟨text, sink⟩, htext⟩ := Inst.exists_textWith hi name (.pool s.pool)
      have hsink : sink = .pool m.pool := by
        rw [Inst.sink_of_textWith htext, Inst.pool_of_emit hi]
      obtain ⟨texts, htexts⟩ := ih hrest
      refine ⟨text :: texts, ?_⟩
      simp only [showAll, htext, hsink, htexts, Checked.ok_bind]
      rfl

/-- What sets up an address is emitted as the instruction that it is shown as, and needs no pool. -/
theorem Setup.emit_toInst (step : Setup) :
    step.toInst.emit = Emit.checkedWord (Word.setup step) := by
  cases step with
  | sum rd rn rm => rfl
  | literal rd off =>
      have hexec : ∀ s, (Setup.literal rd off).toInst.emit.exec s =
          (Emit.checkedWord (Word.setup (.literal rd off))).exec s := by
        intro s
        simp only [Setup.toInst, Inst.emit, Word.setup]
        cases hwEnc rd with
        | error f => rfl
        | ok rt => rfl
      exact funext hexec

theorem exec_setup {setup : List Setup} {words : List UInt32}
    (h : setup.mapM Word.setup = .ok words) :
    ((setup.map Setup.toInst).forM Inst.emit).exec s =
      (.ok (), { s with buffer := s.buffer.put (wordBytes words) }) := by
  rw [List.forM_eq_forM, List.forM_map]
  simp only [Setup.emit_toInst]
  exact Emit.exec_forM_checkedWord.mpr ⟨words, h, rfl⟩

/-- Where its constant is in the pool already, an access is emitted as what sets up its address and
then an access without a constant. -/
theorem Inst.exec_singles (hi : i.access? = some (a, r, mem)) (h : i.emit.exec s = (.ok (), t)) :
    ((i.singles s.buffer.offset s.pool).forM emit).exec { s with pool := t.pool } =
      (.ok (), t) := by
  rw [emit_of_access? hi] at h
  obtain ⟨rt, m, hchecked, h⟩ := Emit.exec_bind_eq_ok.mp h
  obtain ⟨hrt, rfl⟩ : hwEnc r = .ok rt ∧ s = m := Prod.mk.inj hchecked
  obtain ⟨steps, word, hsteps, hword, rfl⟩ := exec_emitAccess.mp h
  have hlast : ∀ u, (do emitAccess a (← Emit.ofChecked (hwEnc r)) (.direct
      (mem.finalize s.buffer.offset (.pool s.pool)).address) : Emit Unit).exec u =
        (.ok (), { u with buffer := u.buffer.put (wordBytes [word]) }) := by
    intro u
    rw [hrt]
    change (emitAccess a rt (.direct _)).exec u = _
    exact exec_emitAccess.mpr ⟨[], word, rfl, hword, rfl⟩
  cases i with
  | load op rd mem | store op rt mem =>
      cases hi
      refine Emit.exec_forM_append.mpr ⟨_, exec_setup hsteps, Emit.exec_bind_eq_ok.mpr
        ⟨(), _, hlast _, ?_⟩⟩
      rw [CodeBuffer.put_put, ← wordBytes_append]
      rfl
  | _ => cases hi

theorem Inst.length_singles (hi : i.access? = some (a, r, mem)) (here : CodeOffset)
    (pool : ConstantPool) : (i.singles here pool).length =
      1 + (mem.finalize here (.pool pool)).setup.length := by
  cases i with
  | load op rd mem | store op rt mem =>
      cases hi
      rw [singles, List.length_append, List.length_map, List.length_singleton, Nat.add_comm]
  | _ => cases hi

theorem Inst.size_of_access? (h : i.access? = some (a, r, mem)) (here : CodeOffset)
    (sink : ConstantSink) : i.size.toNat = 4 * (1 + (mem.finalize here sink).setup.length) := by
  rw [mem.length_setup]
  cases i with
  | load op rd mem | store op rt mem =>
      cases h
      exact toNat_size_access mem
  | _ => cases h

theorem Inst.textWith_of_access? (h : i.access? = some (a, r, mem)) (sink : ConstantSink) :
    i.textWith name sink = showMem name a r mem sink := by
  cases i with
  | load op rd mem | store op rt mem =>
      cases h
      rfl
  | _ => cases h

/-- Listing, sizing and emission agree on what memory operands expand to. Whatever is emitted can be
shown, one instruction after the other, and from the same pool both end with the same pool. The
number of instructions that set up the address of an access depends on neither offset nor pool, and
its size, its emission and its text are those of that many instructions and the access itself; the
text has the base update of a pre-indexed operand between them. -/
theorem expansion_alike (name : Naming) :
    (∀ (insts : List Inst) (s t : Emitter), (insts.forM Inst.emit).exec s = (.ok (), t) →
      ∃ texts, showAll name insts (.pool s.pool) = .ok (texts, .pool t.pool)) ∧
    ∀ (i : Inst) (a : Access) (r : Reg) (mem : Mem), i.access? = some (a, r, mem) → ∃ count,
      i.size.toNat = 4 * (1 + count) ∧
      (∀ here sink, (mem.finalize here sink).setup.length = count) ∧
      (∀ s t, i.emit.exec s = (.ok (), t) →
        (i.singles s.buffer.offset s.pool).length = 1 + count ∧
        ((i.singles s.buffer.offset s.pool).forM Inst.emit).exec { s with pool := t.pool } =
          (.ok (), t)) ∧
      ∀ sink text rest, i.textWith name sink = .ok (text, rest) → ∃ setup update last,
        text = " ; ".intercalate (setup ++ update ++ [last]) ∧
        "" ∉ setup ++ update ++ [last] ∧
        setup.length = count ∧
        List.Forall₂ (fun step shown => step.toInst.text name = .ok shown)
          (mem.finalize 0 sink).setup setup ∧
        List.Forall₂ (Setup.Spelled name) (mem.finalize 0 sink).setup setup ∧
        mem.UpdateSpelled name update ∧
        a.Spelled name r (mem.finalize 0 sink).address last := by
  refine ⟨fun insts s t h => showAll_of_forM name h, ?_⟩
  intro i a r mem hi
  refine ⟨(mem.finalize 0 .discard).setup.length, i.size_of_access? hi 0 .discard,
    mem.length_setup, ?_, ?_⟩
  · intro s t hemit
    refine ⟨?_, Inst.exec_singles hi hemit⟩
    rw [Inst.length_singles hi, mem.length_setup]
  · intro sink text rest htext
    rw [Inst.textWith_of_access? hi] at htext
    obtain ⟨⟨steps, sink'⟩, hsteps, htext⟩ := Checked.bind_eq_ok.mp htext
    obtain ⟨_, setup, update, last, rfl, hsetup, hupdate, hlast⟩ := showSteps_eq_ok hsteps
    have hspelled : List.Forall₂ (Setup.Spelled name) (mem.finalize 0 sink).setup setup :=
      hsetup.imp fun step _ h => Setup.spelled_of_text (step.text_eq.trans h)
    cases htext
    refine ⟨setup, update, last, rfl, ?_, ?_, hsetup, hspelled, hupdate, hlast⟩
    · simp only [List.mem_append, List.mem_singleton, not_or]
      exact ⟨⟨Setup.spelled_ne_empty hspelled, hupdate.ne_empty⟩, hlast.ne_empty.symm⟩
    · rw [← hsetup.length_eq, mem.length_setup]

/-- A load of a constant, a store to a far stack slot and a load with a base update. -/
def expanded : List Inst :=
  [.load .u32 (gpr 3) (.constant [1, 2, 3, 4]), .store .b64 (gpr 0) (.stack 4096),
    .load .u64 (gpr 1) (.direct (.preIndexed (gpr 2) ⟨-16⟩))]

theorem expansion_alike_expanded :
    (∃ texts, showAll Reg.text expanded (.pool oneWord.pool) =
      .ok (texts, .pool ((expanded.forM Inst.emit).exec oneWord).2.pool)) ∧
    (∀ here sink, ((Mem.stack 4096).finalize here sink).setup.length = 2) ∧
    ∃ text rest, (Inst.load .u64 (gpr 1) (.direct (.preIndexed (gpr 2) ⟨-16⟩))).textWith Reg.text
        .discard = .ok (text, rest) ∧ text = "sub r2, r2, #16 ; ldr r1, [r2]" := by
  obtain ⟨hall, haccess⟩ := expansion_alike Reg.text
  refine ⟨?_, ?_, ?_⟩
  · refine hall expanded oneWord _ (Prod.ext ?_ rfl)
    decide +kernel
  · obtain ⟨count, hsize, hcount, _⟩ := haccess (.store .b64 (gpr 0) (.stack 4096)) _ _ _ rfl
    have htwo : (Inst.store .b64 (gpr 0) (.stack 4096)).size.toNat = 12 := by decide
    intro here sink
    rw [hcount]
    omega
  · obtain ⟨count, hsize, _, _, hshown⟩ := haccess
      (.load .u64 (gpr 1) (.direct (.preIndexed (gpr 2) ⟨-16⟩))) _ _ _ rfl
    refine ⟨_, _, rfl, ?_⟩
    obtain ⟨setup, update, last, htext, _, _, hsetup, _, hupdate, hlast⟩ := hshown .discard _ _ rfl
    rw [htext]
    cases hsetup
    cases hupdate with
    | sub hneg =>
        cases hlast with
        | unscaled hdata hplace => cases hplace
        | scaled hdata hplace =>
            cases hplace
            cases hdata
            decide
    | add hpos => exact absurd hpos (by decide)
    | none hother => exact absurd rfl (hother _ _)

end Alike

end Codegen.A64
