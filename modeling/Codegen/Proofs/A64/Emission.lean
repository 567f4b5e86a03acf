import Codegen.A64.Emission
import Codegen.Proofs.Emit

/-!
The size of an instruction is the number of bytes that its emission appends. Sizing reduces a memory
operand without a pool at offset zero, emission with one where the access stands; the number of
instructions that set up the address is the same.
-/
namespace Codegen.A64

open Emit (Writes)

/-- How many instructions set up an address depends on neither offset nor pool. -/
theorem Mem.length_setup (mem : Mem) (here : CodeOffset) (sink : ConstantSink) :
    (mem.finalize here sink).setup.length = (mem.finalize 0 .discard).setup.length := by
  cases mem with
  | direct a => rfl
  | constant data => rfl
  | stack off =>
      simp only [finalize]
      cases SImm9.ofValue? off with
      | some imm => rfl
      | none => rfl

theorem Mem.length_setup_le (mem : Mem) : (mem.finalize 0 .discard).setup.length ≤ 2 := by
  cases mem with
  | direct a => exact Nat.zero_le 2
  | constant data => exact Nat.zero_le 2
  | stack off =>
      simp only [finalize]
      cases SImm9.ofValue? off with
      | some imm => exact Nat.zero_le 2
      | none => exact Nat.le_refl 2

theorem emitFinalize_eq_ok {mem : Mem} {s t : Emitter} {f : List Setup × Address}
    (h : (emitFinalize mem).exec s = (.ok f, t)) :
    Emit.Appends 0 s t ∧ f.1.length = (mem.finalize 0 .discard).setup.length := by
  have hsink : ∃ pool, (mem.finalize s.buffer.offset (.pool s.pool)).sink = .pool pool ∧
      pool.base = s.pool.base := by
    cases mem with
    | direct a => exact ⟨s.pool, rfl, rfl⟩
    | constant data => exact ⟨_, rfl, rfl⟩
    | stack off =>
        simp only [Mem.finalize]
        cases SImm9.ofValue? off with
        | some imm => exact ⟨s.pool, rfl, rfl⟩
        | none => exact ⟨_, rfl, rfl⟩
  obtain ⟨pool, hpool, hbase⟩ := hsink
  simp only [emitFinalize, Emit.exec_bind, Emit.exec_get, hpool, Emit.exec_set, Emit.exec_pure] at h
  cases h
  exact ⟨⟨⟨[], rfl, by simp⟩, hbase⟩, mem.length_setup _ _⟩

theorem writes_emitAccess (a : Access) (rt : Nat) (mem : Mem) :
    Writes (emitAccess a rt mem) (4 * (1 + (mem.finalize 0 .discard).setup.length)) := by
  intro s u t h
  obtain ⟨⟨setup, address⟩, t₁, hfinal, h⟩ := Emit.exec_bind_eq_ok.mp h
  obtain ⟨hzero, hlength⟩ := emitFinalize_eq_ok hfinal
  obtain ⟨⟨⟩, t₂, hsetup, h⟩ := Emit.exec_bind_eq_ok.mp h
  have hsteps := Writes.forM (fun step _ => Writes.checkedWord (Word.setup step)) t₁ () t₂ hsetup
  have hword := Writes.checkedWord _ t₂ u t h
  have htotal := (hzero.trans hsteps).trans hword
  rw [List.map_const', List.sum_replicate_nat, hlength] at htotal
  have hsum : 0 + (mem.finalize 0 .discard).setup.length * 4 + 4 =
      4 * (1 + (mem.finalize 0 .discard).setup.length) := by omega
  rwa [hsum] at htotal

namespace Inst

theorem toNat_size_access (mem : Mem) :
    (UInt32.ofNat (4 * (1 + (mem.finalize 0 .discard).setup.length))).toNat =
      4 * (1 + (mem.finalize 0 .discard).setup.length) := by
  have hle := mem.length_setup_le
  rw [UInt32.toNat_ofNat', Nat.mod_eq_of_lt (by omega)]

theorem writes_emit (i : Inst) : Writes i.emit i.size.toNat := by
  cases i with
  | unset => exact .broken _ _
  | nop => exact .pure ()
  | nop4 => exact .word Word.nop
  | load op rd mem | store op rt mem =>
      simp only [size, toNat_size_access]
      exact (Writes.ofChecked _).after fun rt => writes_emitAccess _ rt mem
  | call callee stackmap =>
      refine (Writes.onRecords (·.reloc .call callee 0) fun _ => rfl).after fun _ => ?_
      cases stackmap with
      | some m => exact (Writes.word _).bind fun _ => .onRecords (·.safepoint m) fun _ => rfl
      | none => exact (Writes.word _).bind fun _ => .pure ()
  | branch taken notTaken cond => exact .broken _ _
  | branchElse taken notTaken cond =>
      exact (Writes.checkedWord _).bind fun _ => .checkedWord _
  | udf trap => exact (Writes.onRecords (·.trap trap) fun _ => rfl).after fun _ => .word 0
  | ret => exact .word Word.ret
  | _ => exact .checkedWord _

end Inst

end Codegen.A64
