import Codegen.Proofs.A64.Synonyms
import Codegen.Proofs.Program.Emission

/-!
Every literal load finds its own constant. The pool is filled while the code is written, at a base
that is known before; the invariant of the loop is that the data of the pool is a beginning of what
it will be in the end. What is emitted later changes nothing of it.
-/
namespace Codegen

open A64 (Inst Mem)

section Pool

namespace ConstantPool

def holdAll (p : ConstantPool) (insts : List Inst) : ConstantPool :=
  insts.foldl (fun p i => p.hold i.constant?) p

/-- Where a constant that is placed next begins in the data. -/
def startOf (p : ConstantPool) (data : List UInt8) : Nat :=
  (p.pad (ConstantSink.alignmentOf data.length)).data.size

variable (p : ConstantPool) (data : List UInt8)

theorem alignment_dvd : ConstantSink.alignmentOf data.length ∣ 16 := by
  unfold ConstantSink.alignmentOf
  split
  · decide
  · split
    · decide
    · decide

theorem size_pad (alignment : Nat) :
    (p.pad alignment).data.size =
      p.data.size + (alignment - p.data.size % alignment) % alignment := by
  simp [pad]

theorem size_le_startOf : p.data.size ≤ p.startOf data := by
  rw [startOf, size_pad]
  omega

theorem alignment_dvd_startOf : ConstantSink.alignmentOf data.length ∣ p.startOf data := by
  have hpos : 0 < ConstantSink.alignmentOf data.length :=
    Nat.pos_of_dvd_of_pos (alignment_dvd data) (by decide)
  rw [startOf, size_pad]
  generalize ConstantSink.alignmentOf data.length = alignment at hpos
  have hmod := Nat.mod_lt p.data.size hpos
  by_cases hzero : p.data.size % alignment = 0
  · rw [hzero, Nat.sub_zero, Nat.mod_self, Nat.add_zero]
    exact Nat.dvd_of_mod_eq_zero hzero
  · rw [Nat.mod_eq_of_lt (by omega)]
    have hdiv := Nat.div_add_mod p.data.size alignment
    refine ⟨p.data.size / alignment + 1, ?_⟩
    rw [Nat.mul_succ]
    omega

/-- A constant stands where it begins, whatever is placed after it. -/
theorem take_drop_of_prefix {final : Array UInt8}
    (h : (p.hold (some data)).data.toList <+: final.toList) :
    p.startOf data + data.length ≤ final.size ∧
      (final.toList.drop (p.startOf data)).take data.length = data := by
  obtain ⟨rest, hfinal⟩ := h
  have hdata : (p.hold (some data)).data.toList =
      (p.pad (ConstantSink.alignmentOf data.length)).data.toList ++ data := by
    simp [hold, append]
  have hstart : p.startOf data =
      (p.pad (ConstantSink.alignmentOf data.length)).data.toList.length := rfl
  rw [← Array.length_toList, ← hfinal, hdata, hstart, List.append_assoc, List.drop_left,
    List.take_left, List.length_append, List.length_append]
  exact ⟨by omega, rfl⟩

theorem prefix_hold (constant : Option (List UInt8)) :
    p.data.toList <+: (p.hold constant).data.toList := by
  cases constant with
  | none => exact List.prefix_refl _
  | some data => simp [hold, append, pad]

theorem prefix_holdAll (insts : List Inst) : p.data.toList <+: (p.holdAll insts).data.toList := by
  induction insts generalizing p with
  | nil => exact List.prefix_refl _
  | cons i insts ih => exact (p.prefix_hold i.constant?).trans (ih _)

theorem base_holdAll (insts : List Inst) : (p.holdAll insts).base = p.base := by
  induction insts generalizing p with
  | nil => rfl
  | cons i insts ih => exact (ih _).trans (p.base_hold i.constant?)

/-- The pool after an instruction is a beginning of the final one. -/
theorem prefix_holdAll_of_getElem? {insts : List Inst} {n : Nat} {i : Inst}
    (hi : insts[n]? = some i) : ((p.holdAll (insts.take n)).hold i.constant?).data.toList <+:
      (p.holdAll insts).data.toList := by
  obtain ⟨hn, rfl⟩ := List.getElem?_eq_some_iff.mp hi
  have hsplit : p.holdAll insts =
      ((p.holdAll (insts.take n)).hold insts[n].constant?).holdAll (insts.drop (n + 1)) := by
    conv_lhs => rw [← List.take_append_drop n insts, List.drop_eq_getElem_cons hn]
    rw [holdAll, List.foldl_append, List.foldl_cons]
    rfl
  rw [hsplit]
  exact prefix_holdAll _ _

end ConstantPool

theorem pool_of_forM {insts : List Inst} {s t : Emitter}
    (h : (insts.forM Inst.emit).exec s = (.ok (), t)) : t.pool = s.pool.holdAll insts := by
  induction insts generalizing s with
  | nil =>
      cases h
      rfl
  | cons i insts ih =>
      obtain ⟨⟨⟩, m, hi, hrest⟩ := Emit.exec_bind_eq_ok.mp h
      rw [ih hrest, Inst.pool_of_emit hi]
      rfl

end Pool

section Words

open A64

/-- The access of a constant begins with a literal load of it. -/
theorem literal_first {a : Access} {rt : Nat} {mem : Mem} {s t : Emitter} {data : List UInt8}
    (hrt : rt < 32) (h : (emitAccess a rt mem).exec s = (.ok (), t))
    (hdata : mem.constant? = some data) : ∃ a' rt' word rest,
      t.buffer = s.buffer.put (wordBytes (word :: rest)) ∧
      A64.disassemble word = some (.access a' rt' (.literal (s.label data))) := by
  obtain ⟨steps, word, hsteps, hword, rfl⟩ := exec_emitAccess.mp h
  cases mem with
  | direct address => cases hdata
  | constant bytes =>
      cases hdata
      cases hsteps
      exact ⟨a, rt, word, [], rfl, disassemble_literal hword hrt⟩
  | stack offset =>
      cases himm : SImm9.ofValue? offset with
      | some imm => simp [Mem.constant?, himm] at hdata
      | none =>
          simp only [Mem.constant?, himm, Option.some.injEq] at hdata
          simp only [Mem.finalize, himm, List.mapM_cons, Checked.bind_eq_ok, Checked.pure_eq_ok]
            at hsteps
          obtain ⟨first, hfirst, rest, _, rfl⟩ := hsteps
          rw [← hdata]
          exact ⟨.load .u64, 16, first, rest ++ [word], rfl, disassemble_literal hfirst (by decide)⟩

theorem literal_of_emit {i : Inst} {s t : Emitter} {data : List UInt8} (hknown : i.Known)
    (h : i.emit.exec s = (.ok (), t)) (hdata : i.constant? = some data) : ∃ a rt word rest,
      t.buffer = s.buffer.put (wordBytes (word :: rest)) ∧
      A64.disassemble word = some (.access a rt (.literal (s.label data))) := by
  have hregs : ∀ mem : Mem, mem.constant? = some data →
      ∃ used modified, mem.regs = .ok (used, modified) := by
    intro mem hmem
    cases mem with
    | direct address => cases hmem
    | constant bytes => exact ⟨[], [], rfl⟩
    | stack offset => exact ⟨[fp], [], rfl⟩
  cases i with
  | load op r mem | store op r mem =>
      obtain ⟨used, modified, hmem⟩ := hregs mem hdata
      have hr : registers.Known r := by
        refine hknown _ (by simp [Inst.occurrences, hmem]; rfl) r ?_
        simp [Inst.Occurrences.all]
      rw [Inst.emit, hwEnc_of_known hr] at h
      exact literal_first (number_lt hr) h hdata
  | _ => cases hdata

end Words

section Later

namespace Emit

variable {α β : Type}

/-- Whether the step fails or not, the bytes that were there stay. -/
def Extends (step : Emit α) : Prop :=
  ∀ s, s.buffer.bytes.toList <+: (step.exec s).2.buffer.bytes.toList

theorem Extends.pure (a : α) : Extends (Pure.pure a) := fun _ => List.prefix_refl _

theorem Extends.ofChecked (c : Checked α) : Extends (ofChecked c) := fun _ => List.prefix_refl _

theorem Extends.get : Extends (get : Emit Emitter) := fun _ => List.prefix_refl _

theorem Extends.bind {x : Emit α} {f : α → Emit β} (hx : Extends x) (hf : ∀ a, Extends (f a)) :
    Extends (x >>= f) := by
  intro s
  have hfirst := hx s
  rw [exec_bind]
  cases hexec : x.exec s with
  | mk result t =>
      rw [hexec] at hfirst
      cases result with
      | ok a => exact hfirst.trans (hf a t)
      | error e => exact hfirst

theorem Extends.onBuffer {f : CodeBuffer → CodeBuffer}
    (h : ∀ b, b.bytes.toList <+: (f b).bytes.toList) : Extends (onBuffer f) := fun s => h s.buffer

theorem Extends.put (bytes : List UInt8) : Extends (Emit.onBuffer (·.put bytes)) :=
  .onBuffer fun b => by
    rw [CodeBuffer.toList_put]
    exact List.prefix_append _ _

theorem Extends.word (w : UInt32) : Extends (word w) := .put (littleEndian 4 w.toNat)

theorem Extends.checkedWord (w : Checked UInt32) : Extends (checkedWord w) :=
  (Extends.ofChecked w).bind Extends.word

theorem Extends.forM {f : α → Emit Unit} {as : List α} (h : ∀ a, Extends (f a)) :
    Extends (as.forM f) := by
  induction as with
  | nil => exact .pure ()
  | cons a as ih => exact (h a).bind fun _ => ih

end Emit

open Emit (Extends)

theorem A64.extends_emitAccess (a : A64.Access) (rt : Nat) (mem : Mem) :
    Extends (A64.emitAccess a rt mem) := by
  have hfinalize : Extends (A64.emitFinalize mem) := by
    intro s
    rw [A64.exec_emitFinalize]
  exact hfinalize.bind fun _ => (Extends.forM fun _ => .checkedWord _).bind fun _ => .checkedWord _

theorem A64.Inst.extends_emit (i : Inst) : Extends i.emit := by
  cases i with
  | unset | branch => exact .ofChecked _
  | nop => exact .pure ()
  | nop4 | ret => exact .word _
  | load op r mem | store op r mem =>
      exact (Extends.ofChecked _).bind fun rt => A64.extends_emitAccess _ rt mem
  | call callee stackmap =>
      refine (Extends.onBuffer (f := (·.reloc .call callee 0)) fun b => List.prefix_refl _).bind
        fun _ => (Extends.word _).bind fun _ => ?_
      cases stackmap with
      | some m => exact .onBuffer (f := (·.safepoint m)) fun b => List.prefix_refl _
      | none => exact .pure ()
  | branchElse taken notTaken cond => exact (Extends.checkedWord _).bind fun _ => .checkedWord _
  | udf trap =>
      exact (Extends.onBuffer (f := (·.trap trap)) fun b => List.prefix_refl _).bind
        fun _ => .word 0
  | _ => exact .checkedWord _

namespace Program

theorem extends_emitInsts (index : Nat) (want : CodeOffset) (insts : List Inst) :
    Extends (emitInsts index want insts) := by
  induction insts generalizing index want with
  | nil => exact .pure ()
  | cons i insts ih =>
      refine Extends.get.bind fun s => ?_
      dsimp only
      split
      · exact (Extends.ofChecked _).bind fun _ => i.extends_emit.bind fun _ => ih _ _
      · exact i.extends_emit.bind fun _ => ih _ _

theorem extends_emitPool (start : CodeOffset) : Extends (emitPool start) := by
  refine Extends.get.bind fun s => ?_
  split
  · exact .put _
  · exact .pure ()

/-- Emission after code that is there leaves it as it is, also if it fails. -/
theorem prefix_of_emit (p : Program) (buffer : CodeBuffer) :
    buffer.bytes.toList <+: (p.emit buffer).2.bytes.toList := by
  have hcode : Extends p.emitCode :=
    Extends.get.bind fun s => (extends_emitInsts 0 _ p.insts).bind fun _ =>
      (extends_emitPool _).bind fun _ => Extends.get.bind fun _ => .pure _
  unfold emit
  split
  · exact List.prefix_refl _
  · exact hcode { buffer, pool := .after p.codeSize }

end Program

end Later

section Found

namespace Program

open A64 (fetch)

/-- Where the literal load at `here` loads from. -/
def literalTarget (code : List UInt8) (here : Nat) : Option Int :=
  (fetch code here).bind fun word =>
    match A64.disassemble (UInt32.ofNat word) with
    | some (.access _ _ (.literal offset)) => some (here + offset)
    | _ => none

/-- Where the pool begins, if nothing wraps around. -/
def poolBase (p : Program) : Nat := (bytesOf p.insts + 15) / 16 * 16

/-- Where the constant of the instruction with number `n` stands. -/
def constantAt (p : Program) (n : Nat) (data : List UInt8) : Nat :=
  p.poolBase + ((ConstantPool.after p.codeSize).holdAll (p.insts.take n)).startOf data

end Program

theorem label_eq {s : Emitter} (data : List UInt8) {here base : Nat}
    (hhere : s.buffer.bytes.size = here) (hbase : s.pool.base.toNat = base)
    (hlt : here < 2 ^ 32) (hstart : base + s.pool.startOf data < 2 ^ 32) :
    here + s.label data = ((base + s.pool.startOf data : Nat) : Int) := by
  have hoffset : s.buffer.offset.toNat = here := by
    rw [CodeBuffer.offset, UInt32.toNat_ofNat', hhere, Nat.mod_eq_of_lt hlt]
  have hthere : (s.pool.pad (ConstantSink.alignmentOf data.length)).offset.toNat =
      base + s.pool.startOf data := by
    rw [ConstantPool.offset, UInt32.toNat_add, UInt32.toNat_ofNat']
    change (s.pool.base.toNat + s.pool.startOf data % 2 ^ 32) % 2 ^ 32 = _
    rw [hbase, Nat.mod_eq_of_lt (show s.pool.startOf data < 2 ^ 32 by omega),
      Nat.mod_eq_of_lt hstart]
  rw [Emitter.label, A64.distance, hoffset, hthere, Int64.toInt_ofInt_of_le (by omega) (by omega)]
  omega

namespace Program

variable {p : Program} {t : Emitter}

theorem poolBase_bounds (p : Program) : bytesOf p.insts ≤ p.poolBase ∧
    p.poolBase < bytesOf p.insts + 16 ∧ 16 ∣ p.poolBase := by
  unfold poolBase
  omega

theorem toNat_base (hplaced : layOut 0 p.blocks = (p.offsets, p.codeSize))
    (hsize : p.poolBase < 2 ^ 32) :
    (ConstantPool.after p.codeSize).base.toNat = p.poolBase ∧ p.codeSize.toNat ≤ p.poolBase := by
  obtain ⟨hle, hlt, hdvd⟩ := p.poolBase_bounds
  have hcode : p.codeSize.toNat = bytesOf p.insts := toNat_codeSize hplaced (by omega)
  refine ⟨?_, by omega⟩
  rw [toNat_base_after (by omega), hcode, poolBase]

/-- The word of an instruction with a constant, where its emission begins, is a literal load of what
the pool gets next. -/
theorem fetch_literal {buffer : CodeBuffer} {pool : ConstantPool} {n : Nat} {i : Inst}
    {data out : List UInt8}
    (hencoded : (p.insts.forM Inst.emit).exec { buffer, pool } = (.ok (), t))
    (hout : t.buffer.bytes.toList <+: out) (hi : p.insts[n]? = some i) (hknown : i.Known)
    (hdata : i.constant? = some data) :
    ∃ (s : Emitter) (a : A64.Access) (rt : Nat) (word : UInt32),
      s.buffer.bytes.size = buffer.bytes.size + p.position n ∧
      s.pool = pool.holdAll (p.insts.take n) ∧
      A64.fetch (out.drop buffer.bytes.size) (p.position n) = some word.toNat ∧
      A64.disassemble word = some (.access a rt (.literal (s.label data))) := by
  obtain ⟨s, s', hfront, hemit, hbegin, _, hstays⟩ := emitted_at hencoded hi
  obtain ⟨a, rt, word, rest, hbuffer, hform⟩ := literal_of_emit hknown hemit hdata
  have hword : (s.buffer.putNat 4 word.toNat).bytes.toList <+: out := by
    refine List.IsPrefix.trans ?_ (hstays.trans hout)
    have hwords : wordBytes (word :: rest) = wordBytes [word] ++ wordBytes rest :=
      wordBytes_append [word] rest
    rw [hbuffer, CodeBuffer.putNat_word, CodeBuffer.toList_put, CodeBuffer.toList_put, hwords,
      ← List.append_assoc]
    exact List.prefix_append _ _
  exact ⟨s, a, rt, word, hbegin, pool_of_forM hfront,
    A64.fetch_of_putNat word.toNat_lt hbegin hword, hform⟩

theorem literalTarget_eq {n : Nat} {i : Inst} {data out : List UInt8}
    (hplaced : layOut 0 p.blocks = (p.offsets, p.codeSize))
    (hencoded : (p.insts.forM Inst.emit).exec { pool := .after p.codeSize } = (.ok (), t))
    (hout : t.buffer.bytes.toList <+: out) (hsize : p.poolBase + t.pool.data.size < 2 ^ 32)
    (hi : p.insts[n]? = some i) (hknown : i.Known) (hdata : i.constant? = some data) :
    literalTarget out (p.position n) = some (p.constantAt n data : Int) := by
  have hend : ((ConstantPool.after p.codeSize).holdAll (p.insts.take n)).startOf data +
      data.length ≤ t.pool.data.size := by
    have hprefix := (ConstantPool.after p.codeSize).prefix_holdAll_of_getElem? hi
    rw [hdata] at hprefix
    rw [pool_of_forM hencoded]
    exact (ConstantPool.take_drop_of_prefix _ _ hprefix).1
  have hposition : p.position n ≤ bytesOf p.insts := by
    rw [position, ← List.take_append_drop n p.insts, bytesOf_append, List.take_append_drop]
    exact Nat.le_add_right _ _
  obtain ⟨hle, _, _⟩ := p.poolBase_bounds
  obtain ⟨s, a, rt, word, hbegin, hpool, hfetch, hform⟩ :=
    fetch_literal hencoded hout hi hknown hdata
  have hbase : s.pool.base.toNat = p.poolBase := by
    rw [hpool, ConstantPool.base_holdAll]
    exact (toNat_base hplaced (by omega)).1
  have hlabel := label_eq data (hbegin.trans (Nat.zero_add _)) hbase (by omega)
    (by rw [hpool]; omega)
  have hfetch : A64.fetch out (p.position n) = some word.toNat := hfetch
  rw [literalTarget, hfetch, Option.bind_some, UInt32.ofNat_toNat, hform]
  dsimp only
  rw [hlabel, hpool, constantAt]

theorem take_drop_output {n : Nat} {i : Inst} {data : List UInt8}
    (hencoded : (p.insts.forM Inst.emit).exec { pool := .after p.codeSize } = (.ok (), t))
    (hcode : t.buffer.bytes.size = p.codeSize.toNat) (hbase : t.pool.base.toNat = p.poolBase)
    (hle : p.codeSize.toNat ≤ p.poolBase) (hi : p.insts[n]? = some i)
    (hdata : i.constant? = some data) :
    ((t.buffer.put (trailer p.codeSize t.pool)).bytes.toList.drop (p.constantAt n data)).take
      data.length = data := by
  have hprefix := (ConstantPool.after p.codeSize).prefix_holdAll_of_getElem? hi
  have hpool : t.pool = (ConstantPool.after p.codeSize).holdAll p.insts := pool_of_forM hencoded
  rw [hdata, ← hpool] at hprefix
  obtain ⟨hend, htake⟩ := ConstantPool.take_drop_of_prefix _ _ hprefix
  cases hempty : t.pool.data.isEmpty with
  | true =>
      -- only constants without bytes leave the pool empty
      have hsize : t.pool.data.size = 0 := by simpa using hempty
      have hlength : data.length = 0 := by omega
      rw [List.length_eq_zero_iff.mp hlength, List.length_nil, List.take_zero]
  | false =>
      have hskip : (t.buffer.bytes.toList ++
          List.replicate (t.pool.base.toNat - p.codeSize.toNat) 0).length = p.poolBase := by
        rw [List.length_append, List.length_replicate, Array.length_toList, hcode, hbase]
        omega
      rw [CodeBuffer.toList_put, trailer, hempty, if_neg (by decide), ← List.append_assoc,
        constantAt, ← List.drop_drop, ← hskip, List.drop_left]
      exact htake

theorem constantAt_lt {n n' : Nat} {i : Inst} {data data' : List UInt8} (hn : n < n')
    (hi : p.insts[n]? = some i) (hdata : i.constant? = some data) :
    p.constantAt n data + data.length ≤ p.constantAt n' data' := by
  have hi' : (p.insts.take n')[n]? = some i := by rw [List.getElem?_take_of_lt hn, hi]
  have hprefix := (ConstantPool.after p.codeSize).prefix_holdAll_of_getElem? hi'
  rw [List.take_take, Nat.min_eq_left (Nat.le_of_lt hn), hdata] at hprefix
  have hend := (ConstantPool.take_drop_of_prefix _ _ hprefix).1
  have hstart := ((ConstantPool.after p.codeSize).holdAll (p.insts.take n')).size_le_startOf data'
  unfold constantAt
  omega

/-- Every literal load of an emitted program loads from where its own constant is: after the code,
aligned to its size, apart from the other constants, and there for good. -/
theorem constants_of_emit {pool : ConstantPool} {out : CodeBuffer} (hreach : Session.Reachable p)
    (hstage : p.stage = .resolved) (hknown : ∀ i ∈ p.insts, i.Known)
    (hemit : p.emit {} = (.ok pool, out)) (hsize : p.poolBase + pool.data.size < 2 ^ 32) :
    (∀ n i data, p.insts[n]? = some i → i.constant? = some data →
      ∃ q : Nat, literalTarget out.bytes.toList (p.position n) = some (q : Int) ∧
        p.codeSize.toNat ≤ q ∧ ConstantSink.alignmentOf data.length ∣ q ∧
        (out.bytes.toList.drop q).take data.length = data) ∧
    (∀ n n' i i' data data', n ≠ n' → p.insts[n]? = some i → p.insts[n']? = some i' →
      i.constant? = some data → i'.constant? = some data' → ∀ q q' : Nat,
      literalTarget out.bytes.toList (p.position n) = some (q : Int) →
      literalTarget out.bytes.toList (p.position n') = some (q' : Int) →
      q + data.length ≤ q' ∨ q' + data'.length ≤ q) ∧
    ∀ later : Program, out.bytes.toList <+: (later.emit out).2.bytes.toList := by
  have hplaced := hreach.invariant.placed hstage
  obtain ⟨t, hencoded, _⟩ := encoded_of_emit hemit
  have happends := writes_insts p.insts _ () t hencoded
  obtain ⟨hbase, hle⟩ := toNat_base hplaced (by omega)
  rw [← happends.base] at hbase
  rw [emit_eq hstage hplaced hencoded fun _ => hbase ▸ hle] at hemit
  cases hemit
  have hcode : t.buffer.bytes.size = p.codeSize.toNat := by
    obtain ⟨hcode, _, _⟩ := p.poolBase_bounds
    rw [happends.size, toNat_codeSize hplaced (by omega)]
    exact Nat.zero_add _
  have hout : t.buffer.bytes.toList <+:
      (t.buffer.put (trailer p.codeSize t.pool)).bytes.toList := by
    rw [CodeBuffer.toList_put]
    exact List.prefix_append _ _
  have htarget : ∀ n i data, p.insts[n]? = some i → i.constant? = some data →
      literalTarget (t.buffer.put (trailer p.codeSize t.pool)).bytes.toList (p.position n) =
        some (p.constantAt n data : Int) := by
    intro n i data hi hdata
    exact literalTarget_eq hplaced hencoded hout hsize hi (hknown i (List.mem_of_getElem? hi)) hdata
  refine ⟨?_, ?_, fun later => later.prefix_of_emit _⟩
  · intro n i data hi hdata
    refine ⟨p.constantAt n data, htarget n i data hi hdata, hle.trans (Nat.le_add_right _ _), ?_,
      take_drop_output hencoded hcode hbase hle hi hdata⟩
    exact Nat.dvd_add (Nat.dvd_trans (ConstantPool.alignment_dvd data) p.poolBase_bounds.2.2)
      (ConstantPool.alignment_dvd_startOf _ data)
  · intro n n' i i' data data' hne hi hi' hdata hdata' q q' hq hq'
    rw [htarget n i data hi hdata] at hq
    rw [htarget n' i' data' hi' hdata'] at hq'
    cases hq
    cases hq'
    rcases Nat.lt_or_gt_of_ne hne with hlt | hlt
    · exact .inl (constantAt_lt hlt hi hdata)
    · exact .inr (constantAt_lt hlt hi' hdata')

/-- The constants of the literals: the one of the load, and the offset of the stack slot. -/
def literalsPool : ConstantPool where
  base := 32
  data := #[1, 2, 3, 4, 0, 0, 0, 0, 0, 16, 0, 0, 0, 0, 0, 0]

def literalsOutput : CodeBuffer := (literalsResolved.emit {}).2

theorem constants_of_emit_literals :
    Session.Reachable literalsResolved ∧ literalsResolved.stage = .resolved ∧
      (∀ i ∈ literalsResolved.insts, i.Known) ∧
      literalsResolved.emit {} = (.ok literalsPool, literalsOutput) ∧
      literalsResolved.poolBase + literalsPool.data.size < 2 ^ 32 ∧
      ∃ q : Nat, literalTarget literalsOutput.bytes.toList 4 = some (q : Int) ∧ 8 ∣ q ∧
        (literalsOutput.bytes.toList.drop q).take 8 = littleEndian 8 4096 := by
  have hknown : ∀ i ∈ literalsResolved.insts, i.Known := by decide +kernel
  have hemit : literalsResolved.emit {} = (.ok literalsPool, literalsOutput) := by
    refine Prod.ext ?_ rfl
    decide +kernel
  have hsize : literalsResolved.poolBase + literalsPool.data.size < 2 ^ 32 := by decide +kernel
  have hposition : literalsResolved.position 1 = 4 := by decide +kernel
  obtain ⟨hfound, _, _⟩ :=
    constants_of_emit reachable_literalsResolved rfl hknown hemit hsize
  obtain ⟨q, htarget, _, hdvd, hbytes⟩ :=
    hfound 1 _ (littleEndian 8 4096) (by rfl) (by decide +kernel)
  rw [hposition] at htarget
  exact ⟨reachable_literalsResolved, rfl, hknown, hemit, hsize, q, htarget, hdvd, hbytes⟩

end Program

end Found

end Codegen
