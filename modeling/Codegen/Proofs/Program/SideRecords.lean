import Codegen.Proofs.Program.Literals

/-!
The records beside emitted code. A call has a relocation at its word, and its reference slots after
the word; a trap is at its zero word. No other instruction has records, so that the records of a
program are found by going through its instructions once, each at its position.
-/
namespace Codegen

open A64 (Inst fetch)

section Sites

namespace A64.Inst

def callee? : Inst → Option ExternalName
  | call callee _ => some callee
  | _ => none

def stackmap? : Inst → Option Stackmap
  | call _ stackmap => stackmap
  | _ => none

def trap? : Inst → Option TrapCode
  | udf code => some code
  | _ => none

theorem size_of_recorded {i : Inst}
    (h : i.callee?.isSome ∨ i.trap?.isSome ∨ i.stackmap?.isSome) : i.size.toNat = 4 := by
  cases i with
  | call callee stackmap => rfl
  | udf code => rfl
  | _ => simp [callee?, trap?, stackmap?] at h

end A64.Inst

namespace Program

variable {α : Type}

/-- What `f` finds in instructions, in their order, and where they stand if the first one stands at
`start`. -/
def sites (f : Inst → Option α) (start : Nat) (insts : List Inst) : List (Nat × α) :=
  insts.zipIdx.filterMap fun (i, n) => (f i).map (start + bytesOf (insts.take n), ·)

/-- The records of instructions of which the first one stands at `start`. -/
def recordsOf (start : Nat) (insts : List Inst) : Records where
  relocs := (sites Inst.callee? start insts).map fun (here, callee) =>
    ⟨UInt32.ofNat here, .call, callee, 0⟩
  traps := (sites Inst.trap? start insts).map fun (here, code) => ⟨UInt32.ofNat here, code⟩
  safepoints := (sites Inst.stackmap? start insts).map fun (here, stackmap) =>
    ⟨UInt32.ofNat (here + 4), stackmap⟩

variable {f : Inst → Option α} {start : Nat} {insts : List Inst}

theorem sites_cons (i : Inst) :
    sites f start (i :: insts) = sites f start [i] ++ sites f (start + i.size.toNat) insts := by
  have hrest : sites f (start + i.size.toNat) insts =
      (insts.zipIdx 1).filterMap fun (j, n) =>
        (f j).map (start + bytesOf ((i :: insts).take n), ·) := by
    -- the numbers of the others are one higher, as there is one more instruction before them
    rw [List.zipIdx_succ, List.filterMap_map]
    simp only [sites, Function.comp_def, List.take_succ_cons, bytesOf_cons, Nat.add_assoc]
  rw [hrest]
  exact List.filterMap_append (l := [(i, 0)])

theorem sites_singleton (i : Inst) : sites f start [i] = ((f i).map (start, ·)).toList := by
  cases hf : f i with
  | none => simp [sites, hf]
  | some a => simp [sites, hf, bytesOf]

/-- What is found stands within the instructions, if it is in words. -/
theorem sites_bounds (hsize : ∀ i a, f i = some a → i.size.toNat = 4) {x : Nat × α}
    (hx : x ∈ sites f start insts) : start ≤ x.1 ∧ x.1 + 4 ≤ start + bytesOf insts := by
  induction insts generalizing start with
  | nil => cases hx
  | cons i insts ih =>
      rw [sites_cons, List.mem_append, sites_singleton] at hx
      rw [bytesOf_cons]
      rcases hx with hx | hx
      · obtain ⟨a, ha, rfl⟩ := Option.map_eq_some_iff.mp (Option.mem_toList.mp hx)
        have hfour := hsize i a ha
        dsimp only
        omega
      · have hrest := ih hx
        omega

theorem pairwise_sites (hsize : ∀ i a, f i = some a → i.size.toNat = 4) :
    (sites f start insts).Pairwise fun x y => x.1 < y.1 := by
  induction insts generalizing start with
  | nil => exact List.Pairwise.nil
  | cons i insts ih =>
      rw [sites_cons, sites_singleton]
      refine List.pairwise_append.mpr ⟨?_, ih, ?_⟩
      · cases f i with
        | none => exact List.Pairwise.nil
        | some a => exact List.pairwise_singleton _ _
      · intro x hx y hy
        obtain ⟨a, ha, rfl⟩ := Option.map_eq_some_iff.mp (Option.mem_toList.mp hx)
        have hfour := hsize i a ha
        have hlater := (sites_bounds hsize hy).1
        dsimp only
        omega

theorem pairwise_offsets (hsize : ∀ i a, f i = some a → i.size.toNat = 4) {k : Nat} (hk : k ≤ 4)
    (hlt : start + bytesOf insts < 2 ^ 32) :
    ((sites f start insts).map fun x => UInt32.ofNat (x.1 + k)).Pairwise (· < ·) := by
  rw [List.pairwise_map]
  refine (pairwise_sites hsize).imp_of_mem ?_
  intro x y hx hy hxy
  have hx := sites_bounds hsize hx
  have hy := sites_bounds hsize hy
  rw [UInt32.lt_iff_toNat_lt, UInt32.toNat_ofNat', UInt32.toNat_ofNat',
    Nat.mod_eq_of_lt (by omega), Nat.mod_eq_of_lt (by omega)]
  omega

theorem exists_of_mem_sites {x : Nat × α} (hx : x ∈ sites f start insts) :
    ∃ n i, insts[n]? = some i ∧ f i = some x.2 ∧ x.1 = start + bytesOf (insts.take n) := by
  obtain ⟨⟨i, n⟩, hmem, hfound⟩ := List.mem_filterMap.mp hx
  obtain ⟨a, ha, rfl⟩ := Option.map_eq_some_iff.mp hfound
  exact ⟨n, i, List.mem_zipIdx_iff_getElem?.mp hmem, ha, rfl⟩

end Program

end Sites

section Recorded

def Records.append (r q : Records) : Records where
  relocs := r.relocs ++ q.relocs
  traps := r.traps ++ q.traps
  safepoints := r.safepoints ++ q.safepoints

theorem Records.append_empty (r : Records) : r.append {} = r := by
  simp only [append, List.append_nil]

theorem Records.append_assoc (r q o : Records) : (r.append q).append o = r.append (q.append o) := by
  simp only [append, List.append_assoc]

namespace Program

variable {start : Nat} {insts : List Inst} {s t : Emitter}

theorem recordsOf_cons (i : Inst) :
    recordsOf start (i :: insts) =
      (recordsOf start [i]).append (recordsOf (start + i.size.toNat) insts) := by
  rw [recordsOf, sites_cons (f := Inst.callee?), sites_cons (f := Inst.trap?),
    sites_cons (f := Inst.stackmap?), List.map_append, List.map_append, List.map_append]
  rfl

theorem records_of_inst {i : Inst} (h : i.emit.exec s = (.ok (), t)) :
    t.buffer.records = s.buffer.records.append (recordsOf s.buffer.bytes.size [i]) := by
  have hchecked : ∀ {w : Checked UInt32} {s t : Emitter},
      (Emit.checkedWord w).exec s = (.ok (), t) → t.buffer.records = s.buffer.records := by
    intro w s t h
    obtain ⟨word, _, rfl⟩ := Emit.exec_checkedWord_eq_ok.mp h
    rfl
  cases i with
  | unset | branch => cases h
  | nop | nop4 | ret =>
      cases h
      exact (Records.append_empty _).symm
  | load op r mem | store op r mem =>
      obtain ⟨rt, m, hrt, h⟩ := Emit.exec_bind_eq_ok.mp h
      cases Prod.mk.inj hrt |>.2
      obtain ⟨steps, word, _, _, rfl⟩ := A64.exec_emitAccess.mp h
      exact (Records.append_empty _).symm
  | call callee stackmap =>
      -- the relocation comes before the word, the reference slots after it
      have hnext : ((s.buffer.reloc .call callee 0).putNat 4 (A64.Word.jump true 0).toNat).offset =
          UInt32.ofNat (s.buffer.bytes.size + 4) := by
        rw [CodeBuffer.offset, CodeBuffer.putNat, CodeBuffer.size_put]
        rfl
      cases stackmap with
      | some m =>
          cases h
          change (CodeBuffer.safepoint _ m).records = _
          rw [CodeBuffer.safepoint, hnext]
          exact congrArg (Records.mk _ · _) (List.append_nil _).symm
      | none =>
          cases h
          exact congrArg₂ (Records.mk _) (List.append_nil _).symm (List.append_nil _).symm
  | udf code =>
      cases h
      exact congrArg₂ (Records.mk · _) (List.append_nil _).symm (List.append_nil _).symm
  | branchElse taken notTaken cond =>
      obtain ⟨⟨⟩, m, hbranch, hjump⟩ := Emit.exec_bind_eq_ok.mp h
      rw [hchecked hjump, hchecked hbranch]
      exact (Records.append_empty _).symm
  | _ => exact (hchecked h).trans (Records.append_empty _).symm

/-- A run over instructions adds the records of each of them where it stands. -/
theorem records_of_forM (h : (insts.forM Inst.emit).exec s = (.ok (), t)) :
    t.buffer.records = s.buffer.records.append (recordsOf s.buffer.bytes.size insts) := by
  induction insts generalizing s with
  | nil =>
      cases h
      exact (Records.append_empty _).symm
  | cons i insts ih =>
      obtain ⟨⟨⟩, m, hi, hrest⟩ := Emit.exec_bind_eq_ok.mp h
      rw [ih hrest, records_of_inst hi, Records.append_assoc, (i.writes_emit s () m hi).size,
        ← recordsOf_cons]

theorem records_of_emitPool {start : CodeOffset} (h : (emitPool start).exec s = (.ok (), t)) :
    t.buffer.records = s.buffer.records := by
  obtain ⟨_, _, hget, h⟩ := Emit.exec_bind_eq_ok.mp h
  cases hget
  split at h
  · cases h
    rfl
  · cases h
    rfl

end Program

end Recorded

section Emitted

namespace Program

variable {p : Program} {buffer out : CodeBuffer} {pool : ConstantPool}

theorem bytes_of_call {callee : ExternalName} {stackmap : Option Stackmap} {s t : Emitter}
    (h : (Inst.call callee stackmap).emit.exec s = (.ok (), t)) :
    t.buffer.bytes = (s.buffer.putNat 4 (A64.Word.jump true 0).toNat).bytes := by
  cases stackmap with
  | some m =>
      cases h
      rfl
  | none =>
      cases h
      rfl

theorem fetch_of_emit (hemit : p.emit buffer = (.ok pool, out)) {n : Nat} {i : Inst}
    (hi : p.insts[n]? = some i) {w : UInt32}
    (hword : ∀ s t, i.emit.exec s = (.ok (), t) →
      t.buffer.bytes = (s.buffer.putNat 4 w.toNat).bytes) :
    fetch out.bytes.toList (buffer.bytes.size + p.position n) = some w.toNat := by
  obtain ⟨t, hencoded, hout⟩ := encoded_of_emit hemit
  obtain ⟨s, s', _, hinst, hbegin, _, hstays⟩ := emitted_at hencoded hi
  rw [hword s s' hinst] at hstays
  rw [← List.drop_zero (l := out.bytes.toList)]
  exact A64.fetch_of_putNat w.toNat_lt (hbegin.trans (Nat.zero_add _).symm) (hstays.trans hout)

theorem fetch_of_mem_sites {α : Type} {f : Inst → Option α} {w : UInt32}
    (hemit : p.emit buffer = (.ok pool, out)) (hsize : ∀ i a, f i = some a → i.size.toNat = 4)
    (hlt : buffer.bytes.size + bytesOf p.insts < 2 ^ 32)
    (hword : ∀ i a, f i = some a → ∀ s t, i.emit.exec s = (.ok (), t) →
      t.buffer.bytes = (s.buffer.putNat 4 w.toNat).bytes)
    {x : Nat × α} (hx : x ∈ sites f buffer.bytes.size p.insts) :
    fetch out.bytes.toList (UInt32.ofNat x.1).toNat = some w.toNat := by
  obtain ⟨n, i, hi, hfound, hhere⟩ := exists_of_mem_sites hx
  have hbounds := sites_bounds hsize hx
  rw [UInt32.toNat_ofNat', Nat.mod_eq_of_lt (by omega), hhere]
  exact fetch_of_emit hemit hi (hword i x.2 hfound)

/-- The records of an emitted program are those of its instructions, each at its position: one
relocation for each call, where the word is a call of nothing yet, one trap for each undefined
instruction, where the word is zero, and the reference slots of each call that has some, after its
word. The offsets of each kind increase. -/
theorem emit_records (hemit : p.emit buffer = (.ok pool, out)) (hrecords : buffer.records = {})
    (hsize : out.bytes.size < 2 ^ 32) :
    out.records = recordsOf buffer.bytes.size p.insts ∧
    buffer.bytes.size + bytesOf p.insts ≤ out.bytes.size ∧
    (∀ r ∈ out.records.relocs, ∃ w : UInt32,
      fetch out.bytes.toList r.offset.toNat = some w.toNat ∧
        A64.disassemble w = some (.call 0)) ∧
    (∀ r ∈ out.records.traps, fetch out.bytes.toList r.offset.toNat = some 0) ∧
    (out.records.relocs.map (·.offset)).Pairwise (· < ·) ∧
    (out.records.traps.map (·.offset)).Pairwise (· < ·) ∧
    (out.records.safepoints.map (·.offset)).Pairwise (· < ·) := by
  have hcallee : ∀ i a, Inst.callee? i = some a → i.size.toNat = 4 :=
    fun i a h => i.size_of_recorded (.inl (by rw [h]; rfl))
  have htrap : ∀ i a, Inst.trap? i = some a → i.size.toNat = 4 :=
    fun i a h => i.size_of_recorded (.inr (.inl (by rw [h]; rfl)))
  have hstackmap : ∀ i a, Inst.stackmap? i = some a → i.size.toNat = 4 :=
    fun i a h => i.size_of_recorded (.inr (.inr (by rw [h]; rfl)))
  obtain ⟨t, u, hencoded, hpool, rfl⟩ := exec_of_emit hemit
  have hall : u.buffer.records = recordsOf buffer.bytes.size p.insts := by
    rw [records_of_emitPool hpool, records_of_forM hencoded, hrecords]
    rfl
  have hend : buffer.bytes.size + bytesOf p.insts ≤ u.buffer.bytes.size := by
    have hprefix := (prefix_of_emitPool hpool).length_le
    rw [Array.length_toList, Array.length_toList, (writes_insts _ _ () t hencoded).size] at hprefix
    exact hprefix
  have hlt : buffer.bytes.size + bytesOf p.insts < 2 ^ 32 := by omega
  rw [hall]
  refine ⟨rfl, hend, ?_, ?_, ?_, ?_, ?_⟩
  · intro r hr
    obtain ⟨x, hx, rfl⟩ := List.mem_map.mp hr
    refine ⟨A64.Word.jump true 0, ?_, A64.disassemble_jump (by decide)⟩
    refine fetch_of_mem_sites hemit hcallee hlt ?_ hx
    intro i callee hfound s s' hinst
    cases i with
    | call callee stackmap => exact bytes_of_call hinst
    | _ => cases hfound
  · intro r hr
    obtain ⟨x, hx, rfl⟩ := List.mem_map.mp hr
    refine fetch_of_mem_sites (w := 0) hemit htrap hlt ?_ hx
    intro i code hfound s s' hinst
    cases i with
    | udf code =>
        cases hinst
        rfl
    | _ => cases hfound
  · rw [recordsOf, List.map_map]
    exact pairwise_offsets hcallee (Nat.zero_le 4) hlt
  · rw [recordsOf, List.map_map]
    exact pairwise_offsets htrap (Nat.zero_le 4) hlt
  · rw [recordsOf, List.map_map]
    exact pairwise_offsets hstackmap (Nat.le_refl 4) hlt

/-- Calls with and without reference slots and a trap, after a store that is expanded. -/
def tracedCalls : Program :=
  ({ blocks := [{ insts := [.store .b64 (A64.gpr 0) (.stack 4096),
                    .call (.symbol "f") (some ⟨[true]⟩), .call (.symbol "g") none,
                    .udf .unreachable, .ret]
                  succs := [] }] } : Program).lowered.settled

theorem emit_records_tracedCalls :
    fourBytes.records = {} ∧ (tracedCalls.emit fourBytes).1.isOk = true ∧
      (tracedCalls.emit fourBytes).2.records =
        { relocs := [⟨16, .call, .symbol "f", 0⟩, ⟨20, .call, .symbol "g", 0⟩]
          traps := [⟨24, .unreachable⟩]
          safepoints := [⟨20, ⟨[true]⟩⟩] } := by
  have hok : (tracedCalls.emit fourBytes).1.isOk = true := by decide +kernel
  have hsize : (tracedCalls.emit fourBytes).2.bytes.size < 2 ^ 32 := by decide +kernel
  refine ⟨rfl, hok, ?_⟩
  cases hemit : tracedCalls.emit fourBytes with
  | mk result out =>
      rw [hemit] at hok hsize
      cases result with
      | error e => cases hok
      | ok pool =>
          rw [(emit_records hemit rfl hsize).1]
          decide +kernel

end Program

end Emitted

end Codegen
