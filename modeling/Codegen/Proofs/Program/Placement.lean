import Codegen.Proofs.Program.Literals

/-!
Emission after code that is there. Branches, records and the zeros before the pool are relative to
the start of the program, and move with it. A literal load is relative to the start of the buffer,
while its constant is not: only programs without constants can be emitted anywhere.
-/
namespace Codegen

section Behind

def Records.behind (r front : Records) (n : CodeOffset) : Records where
  relocs := front.relocs ++ r.relocs.map fun x => { x with offset := n + x.offset }
  traps := front.traps ++ r.traps.map fun x => { x with offset := n + x.offset }
  safepoints := front.safepoints ++ r.safepoints.map fun x => { x with offset := n + x.offset }

def CodeBuffer.behind (b front : CodeBuffer) : CodeBuffer where
  bytes := front.bytes ++ b.bytes
  records := b.records.behind front.records front.offset

def Emitter.behind (s : Emitter) (front : CodeBuffer) : Emitter :=
  { s with buffer := s.buffer.behind front }

namespace CodeBuffer

variable (b front : CodeBuffer)

theorem offset_behind : (b.behind front).offset = front.offset + b.offset := by
  simp [offset, behind, UInt32.ofNat_add]

theorem put_behind (bytes : List UInt8) :
    (b.behind front).put bytes = (b.put bytes).behind front := by
  simp [put, behind, ← Array.toList_inj]

theorem reloc_behind (kind : RelocKind) (name : ExternalName) (addend : Int64) :
    (b.behind front).reloc kind name addend = (b.reloc kind name addend).behind front := by
  rw [reloc, offset_behind]
  simp [reloc, behind, Records.behind]

theorem trap_behind (code : TrapCode) :
    (b.behind front).trap code = (b.trap code).behind front := by
  rw [trap, offset_behind]
  simp [trap, behind, Records.behind]

theorem safepoint_behind (stackmap : Stackmap) :
    (b.behind front).safepoint stackmap = (b.safepoint stackmap).behind front := by
  rw [safepoint, offset_behind]
  simp [safepoint, behind, Records.behind]

theorem empty_behind : ({} : CodeBuffer).behind front = front := by
  simp [behind, Records.behind]

theorem drop_behind : (b.behind front).bytes.toList.drop front.bytes.size = b.bytes.toList := by
  rw [behind, Array.toList_append, ← Array.length_toList, List.drop_left]

end CodeBuffer

end Behind

section Moves

namespace Emit

variable {α β : Type} {front : CodeBuffer}

/-- What the step does is the same with `front` before it. -/
def Moves (front : CodeBuffer) (step : Emit α) : Prop :=
  ∀ s, step.exec (s.behind front) = ((step.exec s).1, (step.exec s).2.behind front)

theorem Moves.pure (a : α) : Moves front (Pure.pure a) := fun _ => rfl

theorem Moves.ofChecked (c : Checked α) : Moves front (ofChecked c) := fun _ => rfl

theorem Moves.bind {x : Emit α} {f : α → Emit β} (hx : Moves front x)
    (hf : ∀ a, Moves front (f a)) : Moves front (x >>= f) := by
  intro s
  rw [exec_bind, exec_bind, hx s]
  cases x.exec s with
  | mk result t =>
      cases result with
      | ok a => exact hf a t
      | error e => rfl

theorem Moves.onBuffer {f : CodeBuffer → CodeBuffer}
    (h : ∀ b, f (b.behind front) = (f b).behind front) : Moves front (onBuffer f) := by
  intro s
  rw [exec_onBuffer, exec_onBuffer, Emitter.behind, h]
  rfl

theorem Moves.word (w : UInt32) : Moves front (word w) :=
  .onBuffer fun b => b.put_behind front (littleEndian 4 w.toNat)

theorem Moves.checkedWord (w : Checked UInt32) : Moves front (checkedWord w) :=
  (Moves.ofChecked w).bind Moves.word

theorem Moves.forM {f : α → Emit Unit} {as : List α} (h : ∀ a ∈ as, Moves front (f a)) :
    Moves front (as.forM f) := by
  induction as with
  | nil => exact .pure ()
  | cons a as ih =>
      exact (h a List.mem_cons_self).bind fun _ =>
        ih fun b hb => h b (List.mem_cons_of_mem a hb)

end Emit

open Emit (Moves)

namespace A64

variable {front : CodeBuffer}

/-- Where an access stands matters for a constant only. -/
theorem Mem.finalize_eq {mem : Mem} (h : mem.constant? = none) (here there : CodeOffset)
    (sink : ConstantSink) : mem.finalize here sink = mem.finalize there sink := by
  cases mem with
  | direct address => rfl
  | constant data => cases h
  | stack offset =>
      cases himm : SImm9.ofValue? offset with
      | some imm => simp only [finalize, himm]
      | none => simp [constant?, himm] at h

theorem moves_emitAccess {mem : Mem} (h : front.bytes.size = 0 ∨ mem.constant? = none)
    (a : Access) (rt : Nat) : Moves front (emitAccess a rt mem) := by
  have hfinalize : Moves front (emitFinalize mem) := by
    intro s
    have hsame : mem.finalize (s.behind front).buffer.offset (.pool s.pool) =
        mem.finalize s.buffer.offset (.pool s.pool) := by
      rcases h with hempty | hnone
      · have hoffset : front.offset = 0 := by rw [CodeBuffer.offset, hempty]; rfl
        rw [Emitter.behind, CodeBuffer.offset_behind, hoffset, UInt32.zero_add]
      · exact Mem.finalize_eq hnone _ _ _
    rw [exec_emitFinalize, exec_emitFinalize, show (s.behind front).pool = s.pool from rfl, hsame]
    rfl
  exact hfinalize.bind fun _ =>
    (Moves.forM fun _ _ => .checkedWord _).bind fun _ => .checkedWord _

theorem Inst.moves_emit {i : Inst} (h : front.bytes.size = 0 ∨ i.constant? = none) :
    Moves front i.emit := by
  cases i with
  | unset | branch => exact .ofChecked _
  | nop => exact .pure ()
  | nop4 | ret => exact .word _
  | load op r mem | store op r mem =>
      exact (Moves.ofChecked _).bind fun rt => moves_emitAccess h _ rt
  | call callee stackmap =>
      refine (Moves.onBuffer fun b => b.reloc_behind front .call callee 0).bind fun _ =>
        (Moves.word _).bind fun _ => ?_
      cases stackmap with
      | some m => exact .onBuffer fun b => b.safepoint_behind front m
      | none => exact .pure ()
  | branchElse taken notTaken cond => exact (Moves.checkedWord _).bind fun _ => .checkedWord _
  | udf trap =>
      exact (Moves.onBuffer fun b => b.trap_behind front trap).bind fun _ => .word 0
  | _ => exact .checkedWord _

end A64

end Moves

namespace Program

open A64 (Inst)
open Emit (Moves)

/-- The buffer makes no difference: the program is emitted into it if it is into an empty one, with
the same bytes and constants, and with the same records that far behind. -/
structure EmitsAlike (p : Program) (buffer : CodeBuffer) : Prop where
  succeeds : (p.emit buffer).1.isOk = (p.emit {}).1.isOk
  writes : ∀ pool out, p.emit {} = (.ok pool, out) → p.emit buffer = (.ok pool, out.behind buffer)

variable {p : Program} {buffer : CodeBuffer}

section Alike

/-- The zeros before the pool depend on how much was written since the start. -/
theorem exec_emitPool_behind (start : CodeOffset) (s : Emitter) (front : CodeBuffer) :
    ∃ bytes, (emitPool start).exec s = (.ok (), { s with buffer := s.buffer.put bytes }) ∧
      (emitPool (front.offset + start)).exec (s.behind front) =
        (.ok (), { s with buffer := (s.buffer.put bytes).behind front }) := by
  have hwritten : (s.buffer.behind front).offset - (front.offset + start) =
      s.buffer.offset - start := by
    rw [CodeBuffer.offset_behind]
    grind
  cases hdata : s.pool.data.isEmpty with
  | true =>
      refine ⟨[], ?_, ?_⟩
      · simp only [emitPool, Emit.exec_bind, Emit.exec_get, hdata, CodeBuffer.put_nil]
        rfl
      · simp only [emitPool, Emit.exec_bind, Emit.exec_get, Emitter.behind, hdata,
          CodeBuffer.put_nil]
        rfl
  | false =>
      let missing := if s.buffer.offset - start < s.pool.base then
        (s.pool.base - (s.buffer.offset - start)).toNat else 0
      refine ⟨List.replicate missing 0 ++ s.pool.data.toList, ?_, ?_⟩
      · simp only [emitPool, Emit.exec_bind, Emit.exec_get, hdata, Bool.not_false, if_true,
          Emit.exec_onBuffer, missing]
      · simp only [emitPool, Emit.exec_bind, Emit.exec_get, Emitter.behind, hwritten, hdata,
          Bool.not_false, if_true, Emit.exec_onBuffer, CodeBuffer.put_behind, missing]

theorem emit_behind {t : Emitter} (hrequire : p.require .emit = .ok ())
    (hencoded : (p.insts.forM Inst.emit).exec { pool := .after p.codeSize } = (.ok (), t))
    (hmoved : (p.insts.forM Inst.emit).exec { buffer, pool := .after p.codeSize } =
      (.ok (), t.behind buffer)) :
    ∃ out, p.emit {} = (.ok t.pool, out) ∧ p.emit buffer = (.ok t.pool, out.behind buffer) := by
  obtain ⟨bytes, hhere, hthere⟩ := exec_emitPool_behind 0 t buffer
  rw [UInt32.add_zero] at hthere
  have hstart : ({} : CodeBuffer).offset = 0 := rfl
  have hinsts := (exec_emitInsts 0).mpr hencoded
  rw [hstart] at hinsts
  refine ⟨t.buffer.put bytes, ?_, ?_⟩
  · simp only [emit, hrequire, emitCode, Emit.exec_bind, Emit.exec_get, hstart, hinsts, hhere,
      Emit.exec_pure]
  · simp only [emit, hrequire, emitCode, Emit.exec_bind, Emit.exec_get,
      (exec_emitInsts 0).mpr hmoved, hthere, Emit.exec_pure]

theorem isOk_emit_eq_false (h : ∀ t, (p.insts.forM Inst.emit).exec
    { buffer, pool := .after p.codeSize } ≠ (.ok (), t)) : (p.emit buffer).1.isOk = false := by
  cases hemit : p.emit buffer with
  | mk result out =>
      cases result with
      | error e => rfl
      | ok pool =>
          obtain ⟨t, hencoded, _⟩ := encoded_of_emit hemit
          exact absurd hencoded (h t)

theorem emitsAlike_of_moves (h : Moves buffer (p.insts.forM Inst.emit)) : p.EmitsAlike buffer := by
  have hmoves := h { pool := .after p.codeSize }
  rw [Emitter.behind, CodeBuffer.empty_behind] at hmoves
  cases hrequire : p.require .emit with
  | error e =>
      have hfails : ∀ b, p.emit b = (.error e, b) := fun b => by simp only [emit, hrequire]
      exact ⟨by rw [hfails, hfails], fun pool out hemit => by cases (hfails {}).symm.trans hemit⟩
  | ok _ =>
      cases hencoded : (p.insts.forM Inst.emit).exec { pool := .after p.codeSize } with
      | mk result t =>
          rw [hencoded] at hmoves
          cases result with
          | ok _ =>
              obtain ⟨out, hempty, hbuffer⟩ := emit_behind hrequire hencoded hmoves
              refine ⟨by rw [hempty, hbuffer], ?_⟩
              intro pool out' hemit
              cases hempty.symm.trans hemit
              exact hbuffer
          | error e =>
              -- the check of positions may come first, but it is no success either
              have hempty : (p.emit {}).1.isOk = false :=
                isOk_emit_eq_false fun u hu => by cases hencoded.symm.trans hu
              have hbuffer : (p.emit buffer).1.isOk = false :=
                isOk_emit_eq_false fun u hu => by cases hmoves.symm.trans hu
              refine ⟨hbuffer.trans hempty.symm, ?_⟩
              intro pool out hemit
              rw [hemit] at hempty
              cases hempty

end Alike

section Apart

/-- How far a constant is tells where the code stands. -/
theorem offset_eq_of_label {s t : Emitter} {data : List UInt8} (hpool : s.pool = t.pool)
    (h : s.label data = t.label data) : s.buffer.offset = t.buffer.offset := by
  have hs := s.buffer.offset.toNat_lt
  have ht := t.buffer.offset.toNat_lt
  rw [Emitter.label, Emitter.label, A64.distance, A64.distance, hpool] at h
  have hpad := (t.pool.pad (ConstantSink.alignmentOf data.length)).offset.toNat_lt
  rw [Int64.toInt_ofInt_of_le (by omega) (by omega),
    Int64.toInt_ofInt_of_le (by omega) (by omega)] at h
  exact UInt32.toNat_inj.mp (by omega)

/-- One literal load is enough to make a difference. -/
theorem size_eq_zero_of_emitsAlike {pool : ConstantPool} {out : CodeBuffer} {i : Inst}
    {data : List UInt8} (hsize : buffer.bytes.size < 2 ^ 32) (halike : p.EmitsAlike buffer)
    (hemit : p.emit {} = (.ok pool, out)) (hi : i ∈ p.insts) (hknown : i.Known)
    (hdata : i.constant? = some data) : buffer.bytes.size = 0 := by
  obtain ⟨n, hn⟩ := List.getElem?_of_mem hi
  obtain ⟨t, hencoded, hout⟩ := encoded_of_emit hemit
  obtain ⟨t', hencoded', hout'⟩ := encoded_of_emit (halike.writes pool out hemit)
  obtain ⟨s, a, rt, word, hbegin, hpool, hfetch, hform⟩ :=
    fetch_literal hencoded hout hn hknown hdata
  obtain ⟨s', a', rt', word', hbegin', hpool', hfetch', hform'⟩ :=
    fetch_literal hencoded' hout' hn hknown hdata
  -- the bytes are the same, hence the word, hence the distance that it tells
  rw [CodeBuffer.drop_behind] at hfetch'
  have hword : word = word' :=
    UInt32.toNat_inj.mp (Option.some.inj (hfetch.symm.trans hfetch'))
  have hlabel : s.label data = s'.label data := by
    rw [← hword, hform, Option.some.injEq, A64.Form.access.injEq, A64.Place.literal.injEq] at hform'
    exact hform'.2.2
  have hoffset := offset_eq_of_label (hpool.trans hpool'.symm) hlabel
  rw [CodeBuffer.offset, CodeBuffer.offset, hbegin, hbegin', UInt32.ofNat_add, UInt32.ofNat_add]
    at hoffset
  have hzero : UInt32.ofNat buffer.bytes.size = 0 := by
    have hempty : UInt32.ofNat ({} : CodeBuffer).bytes.size = 0 := rfl
    rw [hempty] at hoffset
    exact ((UInt32.add_left_inj _).mp hoffset).symm
  rw [← UInt32.toNat_inj, UInt32.toNat_ofNat', Nat.mod_eq_of_lt hsize] at hzero
  exact hzero

/-- Emission does not depend on the buffer exactly if there is nothing in it, if there are no
constants, or if it fails anyway. -/
theorem emitsAlike_iff (hknown : ∀ i ∈ p.insts, i.Known) (hsize : buffer.bytes.size < 2 ^ 32) :
    p.EmitsAlike buffer ↔ buffer.bytes.size = 0 ∨ (∀ i ∈ p.insts, i.constant? = none) ∨
      (p.emit {}).1.isOk = false ∧ (p.emit buffer).1.isOk = false := by
  constructor
  · intro halike
    cases hemit : p.emit {} with
    | mk result out =>
        cases result with
        | error e => exact .inr (.inr ⟨rfl, by rw [halike.succeeds, hemit]; rfl⟩)
        | ok pool =>
            by_cases hnone : ∀ i ∈ p.insts, i.constant? = none
            · exact .inr (.inl hnone)
            · simp only [not_forall] at hnone
              obtain ⟨i, hi, hsome⟩ := hnone
              obtain ⟨data, hdata⟩ := Option.ne_none_iff_exists'.mp hsome
              exact .inl (size_eq_zero_of_emitsAlike hsize halike hemit hi (hknown i hi) hdata)
  · rintro (hempty | hnone | ⟨hfails, hfails'⟩)
    · exact emitsAlike_of_moves (Moves.forM fun i _ => Inst.moves_emit (.inl hempty))
    · exact emitsAlike_of_moves (Moves.forM fun i hi => Inst.moves_emit (.inr (hnone i hi)))
    · refine ⟨hfails'.trans hfails.symm, ?_⟩
      intro pool out hemit
      rw [hemit] at hfails
      cases hfails

def calls : Program :=
  ({ blocks := [{ insts := [.call (.symbol "f") (some ⟨[true]⟩), .udf .unreachable, .ret]
                  succs := [] }] } : Program).lowered.settled

theorem emitsAlike_iff_calls : (∀ i ∈ calls.insts, i.Known) ∧ fourBytes.bytes.size < 2 ^ 32 ∧
    (calls.emit {}).1.isOk = true ∧ calls.EmitsAlike fourBytes := by
  have hknown : ∀ i ∈ calls.insts, i.Known := by decide +kernel
  have hsize : fourBytes.bytes.size < 2 ^ 32 := by decide
  have hnone : ∀ i ∈ calls.insts, i.constant? = none := by decide +kernel
  exact ⟨hknown, hsize, by decide +kernel, (emitsAlike_iff hknown hsize).mpr (.inr (.inl hnone))⟩

/-- After four bytes, a literal load is from four bytes before its constant. -/
theorem not_emitsAlike_literals : Session.Reachable literalsResolved ∧
    literalsResolved.stage = .resolved ∧ fourBytes.bytes.size % 4 = 0 ∧
    (literalsResolved.emit {}).1.isOk = true ∧ (literalsResolved.emit fourBytes).1.isOk = true ∧
    ¬ literalsResolved.EmitsAlike fourBytes := by
  refine ⟨reachable_literalsResolved, rfl, rfl, by decide +kernel, by decide +kernel, ?_⟩
  intro halike
  have hemit : literalsResolved.emit {} = (.ok literalsPool, literalsOutput) := by
    refine Prod.ext ?_ rfl
    decide +kernel
  have hmoved := congrArg (·.2.bytes) (halike.writes _ _ hemit)
  revert hmoved
  decide +kernel

end Apart

end Program

end Codegen
