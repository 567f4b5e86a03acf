import Codegen.Proofs.A64.Emission
import Codegen.Proofs.Program.Session

/-!
Sizes, offsets, listing and emission of a resolved program agree. The position of an instruction is
the sum of the sizes before it. Offsets of blocks, offsets in the listing and the places where
instructions are emitted all are positions, as long as everything fits 32 bits.
-/
namespace Codegen.Program

open A64 (Inst Naming)
open Emit (Appends Writes)

def bytesOf (insts : List Inst) : Nat := (insts.map (·.size.toNat)).sum

/-- Where the instruction with number `n` stands, from the start of the code. -/
def position (p : Program) (n : Nat) : Nat := bytesOf (p.insts.take n)

/-- The bytes of the code and of the constants, which begin at a multiple of sixteen. -/
def extent (p : Program) (pool : ConstantPool) : Nat :=
  if pool.data.isEmpty then bytesOf p.insts
  else (bytesOf p.insts + 15) / 16 * 16 + pool.data.size

theorem bytesOf_append (front back : List Inst) :
    bytesOf (front ++ back) = bytesOf front + bytesOf back := by
  simp [bytesOf]

theorem bytesOf_cons (i : Inst) (insts : List Inst) :
    bytesOf (i :: insts) = i.size.toNat + bytesOf insts := by
  simp [bytesOf]

section Layout

theorem sizeOf_eq (insts : List Inst) : sizeOf insts = UInt32.ofNat (bytesOf insts) := by
  have hfold : ∀ off : CodeOffset, insts.foldl (fun n i => n + i.size) off =
      off + UInt32.ofNat (bytesOf insts) := by
    induction insts with
    | nil =>
        intro off
        simp [bytesOf]
    | cons i insts ih =>
        intro off
        rw [List.foldl_cons, ih, bytesOf_cons, UInt32.ofNat_add, UInt32.ofNat_toNat,
          UInt32.add_assoc]
  rw [sizeOf, hfold, UInt32.zero_add]

theorem layOut_cons (n : Nat) (b : Block) (blocks : List Block) :
    layOut (UInt32.ofNat n) (b :: blocks) =
      (UInt32.ofNat n :: (layOut (UInt32.ofNat (n + bytesOf b.insts)) blocks).1,
        (layOut (UInt32.ofNat (n + bytesOf b.insts)) blocks).2) := by
  rw [layOut, sizeOf_eq, UInt32.ofNat_add]

/-- The offset of a block is the position of its first instruction. -/
theorem getElem?_layOut (n b : Nat) (blocks : List Block) :
    (layOut (UInt32.ofNat n) blocks).1[b]? = blocks[b]?.map fun _ =>
      UInt32.ofNat (n + bytesOf ((blocks.take b).flatMap (·.insts))) := by
  induction blocks generalizing n b with
  | nil => rfl
  | cons c blocks ih =>
      rw [layOut_cons]
      cases b with
      | zero => simp [bytesOf]
      | succ b =>
          rw [List.getElem?_cons_succ, List.getElem?_cons_succ, ih, List.take_succ_cons,
            List.flatMap_cons, bytesOf_append, Nat.add_assoc]

theorem layOut_snd (n : Nat) (blocks : List Block) :
    (layOut (UInt32.ofNat n) blocks).2 =
      UInt32.ofNat (n + bytesOf (blocks.flatMap (·.insts))) := by
  induction blocks generalizing n with
  | nil => rfl
  | cons c blocks ih =>
      rw [layOut_cons, ih, List.flatMap_cons, bytesOf_append, Nat.add_assoc]

theorem getElem?_rangesFrom (start b : Nat) (blocks : List Block) :
    (rangesFrom start blocks)[b]? = blocks[b]?.map fun c =>
      (start + ((blocks.take b).flatMap (·.insts)).length,
        start + ((blocks.take b).flatMap (·.insts)).length + c.insts.length) := by
  induction blocks generalizing start b with
  | nil => rfl
  | cons c blocks ih =>
      cases b with
      | zero => simp [rangesFrom]
      | succ b =>
          rw [rangesFrom, List.getElem?_cons_succ, List.getElem?_cons_succ, ih, List.take_succ_cons,
            List.flatMap_cons, List.length_append, Nat.add_assoc]

def before (p : Program) (b : Nat) : List Inst := (p.blocks.take b).flatMap (·.insts)

variable {p : Program}

theorem getElem?_ranges {b : Nat} {c : Block} (h : p.blocks[b]? = some c) :
    p.ranges[b]? = some ((p.before b).length, (p.before b).length + c.insts.length) := by
  rw [ranges, getElem?_rangesFrom, h, Option.map_some, Nat.zero_add]
  rfl

theorem insts_eq_before (b : Nat) :
    p.insts = p.before b ++ (p.blocks.drop b).flatMap (·.insts) := by
  rw [before, ← List.flatMap_append, List.take_append_drop, insts]

theorem bytesOf_before_le (b : Nat) : bytesOf (p.before b) ≤ bytesOf p.insts := by
  rw [insts_eq_before b, bytesOf_append]
  omega

theorem getElem?_offsets (hplaced : layOut 0 p.blocks = (p.offsets, p.codeSize)) {b : Nat}
    (hb : b < p.blocks.length) : p.offsets[b]? = some (UInt32.ofNat (bytesOf (p.before b))) := by
  have hoffsets : p.offsets = (layOut (UInt32.ofNat 0) p.blocks).1 := by
    rw [show UInt32.ofNat 0 = 0 from rfl, hplaced]
  rw [hoffsets, getElem?_layOut, Nat.zero_add, List.getElem?_eq_getElem hb, Option.map_some]
  rfl

theorem codeSize_eq (hplaced : layOut 0 p.blocks = (p.offsets, p.codeSize)) :
    p.codeSize = UInt32.ofNat (bytesOf p.insts) := by
  have h := layOut_snd 0 p.blocks
  rw [show UInt32.ofNat 0 = 0 from rfl, hplaced, Nat.zero_add] at h
  exact h

theorem toNat_codeSize (hplaced : layOut 0 p.blocks = (p.offsets, p.codeSize))
    (hsize : bytesOf p.insts < 2 ^ 32) : p.codeSize.toNat = bytesOf p.insts := by
  rw [codeSize_eq hplaced, UInt32.toNat_ofNat', Nat.mod_eq_of_lt hsize]

end Layout

section Listing

/-- The lines of instructions numbered from `n` on, each at its position. -/
def instListing (name : Naming) (position : Nat → Nat) : Nat → List Inst → Checked String
  | _, [] => .ok ""
  | n, i :: rest => do
    let text ← i.text name
    let others ← instListing name position (n + 1) rest
    return (if text.isEmpty then ""
      else "\t" ++ Text.hex 4 (position n) ++ ": " ++ text ++ "\n") ++ others

/-- The lines of blocks numbered from `b` on, their instructions numbered from `n` on. -/
def listing (name : Naming) (position : Nat → Nat) : Nat → Nat → List Block → Checked String
  | _, _, [] => .ok ""
  | b, n, block :: rest => do
    let lines ← instListing name position n block.insts
    return s!"block{b}:\n" ++ lines ++
      (← listing name position (b + 1) (n + block.insts.length) rest)

variable {name : Naming} {position : Nat → Nat}

/-- The instructions numbered from `n` on follow one another, the first one at `off`. -/
def Follows (position : Nat → Nat) (n off : Nat) (insts : List Inst) : Prop :=
  ∀ k ≤ insts.length, position (n + k) = off + bytesOf (insts.take k)

theorem Follows.here {n off : Nat} {insts : List Inst} (h : Follows position n off insts) :
    position n = off := by
  simpa [bytesOf] using h 0 (Nat.zero_le _)

theorem Follows.drop {n off : Nat} {front back : List Inst}
    (h : Follows position n off (front ++ back)) :
    Follows position (n + front.length) (off + bytesOf front) back := by
  intro k hk
  have hpos := h (front.length + k) (by rw [List.length_append]; omega)
  rw [List.take_length_add_append, bytesOf_append] at hpos
  rw [Nat.add_assoc, Nat.add_assoc]
  exact hpos

theorem Follows.take {n off : Nat} {front back : List Inst}
    (h : Follows position n off (front ++ back)) : Follows position n off front := by
  intro k hk
  have hpos := h k (by rw [List.length_append]; omega)
  rwa [List.take_append_of_le_length hk] at hpos

end Listing

section Emission

/-- Clearing the low four bits rounds down to a multiple of sixteen. -/
theorem and_mask_eq {x : Nat} (h : x < 2 ^ 32) : x &&& 0xfffffff0 = x / 16 * 16 := by
  have hmask : 0xfffffff0 = (2 ^ 28 - 1) <<< 4 := by decide
  have hshift : x / 16 * 16 = (x >>> 4) <<< 4 := by
    rw [Nat.shiftRight_eq_div_pow, Nat.shiftLeft_eq]
  rw [hmask, hshift]
  refine Nat.eq_of_testBit_eq fun i => ?_
  rw [Nat.testBit_and, Nat.testBit_shiftLeft, Nat.testBit_shiftLeft, Nat.testBit_shiftRight,
    Nat.testBit_two_pow_sub_one]
  by_cases hi : 4 ≤ i
  · by_cases hlt : i < 32
    · simp [hi, show i - 4 < 28 by omega, show 4 + (i - 4) = i by omega]
    · have hzero : x.testBit i = false :=
        Nat.testBit_lt_two_pow (Nat.lt_of_lt_of_le h (Nat.pow_le_pow_right (by omega) (by omega)))
      simp [hzero, show 4 + (i - 4) = i by omega]
  · simp [hi]

theorem toNat_base_after {size : CodeOffset} (h : size.toNat + 15 < 2 ^ 32) :
    (ConstantPool.after size).base.toNat = (size.toNat + 15) / 16 * 16 := by
  have hsum : (size + 15).toNat = size.toNat + 15 := by
    rw [UInt32.toNat_add]
    exact Nat.mod_eq_of_lt h
  rw [ConstantPool.after, UInt32.toNat_and, hsum]
  exact and_mask_eq h

/-- The position check compares offsets that agree whenever the encoders append what the sizes
say. -/
theorem exec_emitInsts {insts : List Inst} {s t : Emitter} (index : Nat) :
    (emitInsts index s.buffer.offset insts).exec s = (.ok (), t) ↔
      (insts.forM Inst.emit).exec s = (.ok (), t) := by
  induction insts generalizing index s with
  | nil => rfl
  | cons i insts ih =>
      have hcheck : (emitInsts index s.buffer.offset (i :: insts)).exec s =
          (i.emit >>= fun _ => emitInsts (index + 1) (s.buffer.offset + i.size) insts).exec s := by
        simp only [emitInsts, Emit.exec_bind, Emit.exec_get, ne_eq, not_true_eq_false, if_false]
      have hnext : ∀ m, i.emit.exec s = (.ok (), m) →
          s.buffer.offset + i.size = m.buffer.offset := by
        intro m hi
        rw [CodeBuffer.offset, CodeBuffer.offset, (i.writes_emit s () m hi).size, UInt32.ofNat_add,
          UInt32.ofNat_toNat]
      -- after the instruction, both sides expect what it has left as the offset
      rw [hcheck, List.forM_eq_forM, List.forM_cons, Emit.exec_bind_eq_ok, Emit.exec_bind_eq_ok]
      constructor
      · rintro ⟨⟨⟩, m, hi, hrest⟩
        rw [hnext m hi] at hrest
        exact ⟨(), m, hi, (ih (index + 1)).mp hrest⟩
      · rintro ⟨⟨⟩, m, hi, hrest⟩
        refine ⟨(), m, hi, ?_⟩
        rw [hnext m hi]
        exact (ih (index + 1)).mpr hrest

theorem writes_insts (insts : List Inst) : Writes (insts.forM Inst.emit) (bytesOf insts) :=
  Writes.forM fun i _ => i.writes_emit

/-- Every instruction is emitted where the sizes before it end, and what it writes stays. -/
theorem emitted_at {insts : List Inst} {s u : Emitter} {n : Nat} {i : Inst}
    (h : (insts.forM Inst.emit).exec s = (.ok (), u)) (hi : insts[n]? = some i) :
    ∃ t t', ((insts.take n).forM Inst.emit).exec s = (.ok (), t) ∧ i.emit.exec t = (.ok (), t') ∧
      t.buffer.bytes.size = s.buffer.bytes.size + bytesOf (insts.take n) ∧
      t'.buffer.bytes.size = t.buffer.bytes.size + i.size.toNat ∧
      t'.buffer.bytes.toList <+: u.buffer.bytes.toList := by
  obtain ⟨hn, rfl⟩ := List.getElem?_eq_some_iff.mp hi
  rw [← List.take_append_drop n insts, List.drop_eq_getElem_cons hn] at h
  obtain ⟨t, hfront, h⟩ := Emit.exec_forM_append.mp h
  obtain ⟨⟨⟩, t', hinst, hback⟩ := Emit.exec_bind_eq_ok.mp h
  obtain ⟨⟨later, _, hlater⟩, _⟩ := writes_insts _ t' () u hback
  refine ⟨t, t', hfront, hinst, (writes_insts _ s () t hfront).size,
    (insts[n].writes_emit t () t' hinst).size, ?_⟩
  rw [hlater]
  exact List.prefix_append _ _

/-- What follows code of the given size: zeros up to the base of the pool and its data, or nothing
if there is no data. -/
def trailer (size : CodeOffset) (pool : ConstantPool) : List UInt8 :=
  if pool.data.isEmpty then []
  else List.replicate (pool.base.toNat - size.toNat) 0 ++ pool.data.toList

theorem exec_emitPool {start size : CodeOffset} {s : Emitter}
    (hwritten : s.buffer.offset - start = size)
    (hbase : s.pool.data.isEmpty = false → size.toNat ≤ s.pool.base.toNat) :
    (emitPool start).exec s =
      (.ok (), { s with buffer := s.buffer.put (trailer size s.pool) }) := by
  cases hdata : s.pool.data.isEmpty with
  | true =>
      simp only [emitPool, trailer, Emit.exec_bind, Emit.exec_get, hdata, Bool.not_true, if_true,
        CodeBuffer.put, Array.appendList_nil]
      rfl
  | false =>
      have hle := hbase hdata
      have hmissing : (if size < s.pool.base then (s.pool.base - size).toNat else 0) =
          s.pool.base.toNat - size.toNat := by
        split
        · rw [UInt32.toNat_sub_of_le _ _ (UInt32.le_iff_toNat_le.mpr hle)]
        · rename_i hlt
          rw [UInt32.lt_iff_toNat_lt] at hlt
          omega
      simp only [emitPool, trailer, Emit.exec_bind, Emit.exec_get, hdata, Bool.not_false, if_true,
        hwritten, hmissing, Emit.exec_onBuffer, Bool.false_eq_true, if_false]

theorem prefix_of_emitPool {start : CodeOffset} {s t : Emitter}
    (h : (emitPool start).exec s = (.ok (), t)) :
    s.buffer.bytes.toList <+: t.buffer.bytes.toList := by
  obtain ⟨_, _, hget, h⟩ := Emit.exec_bind_eq_ok.mp h
  cases hget
  split at h
  · cases h
    simp [CodeBuffer.put]
  · cases h
    exact List.prefix_refl _

variable {p : Program} {buffer : CodeBuffer} {t : Emitter}

/-- If no encoder fails, nothing fails. -/
theorem emit_eq (hstage : p.stage = .resolved)
    (hplaced : layOut 0 p.blocks = (p.offsets, p.codeSize))
    (hencoded : (p.insts.forM Inst.emit).exec { buffer, pool := .after p.codeSize } = (.ok (), t))
    (hbase : t.pool.data.isEmpty = false → p.codeSize.toNat ≤ t.pool.base.toNat) :
    p.emit buffer = (.ok t.pool, t.buffer.put (trailer p.codeSize t.pool)) := by
  have hrequire : p.require .emit = .ok () := require_eq_ok.mpr (by rw [hstage]; decide)
  have hwritten : t.buffer.offset - buffer.offset = p.codeSize := by
    have hsize := (writes_insts p.insts _ () t hencoded).size
    rw [CodeBuffer.offset, hsize, UInt32.ofNat_add, codeSize_eq hplaced, UInt32.add_comm]
    exact UInt32.add_sub_cancel _ _
  have hcode : p.emitCode.exec { buffer, pool := .after p.codeSize } =
      (.ok t.pool, { t with buffer := t.buffer.put (trailer p.codeSize t.pool) }) := by
    simp only [emitCode, Emit.exec_bind, Emit.exec_get, (exec_emitInsts 0).mpr hencoded,
      exec_emitPool hwritten hbase, Emit.exec_pure]
  simp only [emit, hrequire, hcode]

theorem exec_of_emit {pool : ConstantPool} {out : CodeBuffer}
    (h : p.emit buffer = (.ok pool, out)) :
    ∃ t u, (p.insts.forM Inst.emit).exec { buffer, pool := .after p.codeSize } = (.ok (), t) ∧
      (emitPool buffer.offset).exec t = (.ok (), u) ∧ u.buffer = out := by
  unfold emit at h
  split at h
  · cases h
  · cases hcode : p.emitCode.exec { buffer, pool := .after p.codeSize } with
    | mk result u =>
        rw [hcode] at h
        cases h
        obtain ⟨_, _, hget, hcode⟩ := Emit.exec_bind_eq_ok.mp hcode
        cases hget
        obtain ⟨⟨⟩, t, hinsts, hcode⟩ := Emit.exec_bind_eq_ok.mp hcode
        obtain ⟨⟨⟩, v, hpool, hlast⟩ := Emit.exec_bind_eq_ok.mp hcode
        cases hlast
        exact ⟨t, u, (exec_emitInsts 0).mp hinsts, hpool, rfl⟩

theorem encoded_of_emit {pool : ConstantPool} {out : CodeBuffer}
    (h : p.emit buffer = (.ok pool, out)) :
    ∃ t, (p.insts.forM Inst.emit).exec { buffer, pool := .after p.codeSize } = (.ok (), t) ∧
      t.buffer.bytes.toList <+: out.bytes.toList := by
  obtain ⟨t, u, hinsts, hpool, rfl⟩ := exec_of_emit h
  exact ⟨t, hinsts, prefix_of_emitPool hpool⟩

/-- A constant, a far stack slot and a branch. -/
def literals : Program where
  blocks :=
    [{ insts := [.load .u64 (A64.gpr 0) (.constant [1, 2, 3, 4]),
         .store .b64 (A64.gpr 0) (.stack 4096),
         .branch (.block 0) (.block 1) (.zero (A64.gpr 0))]
       succs := [0, 1] },
     { insts := [.ret], succs := [] }]

/-- No register is virtual, so that nothing is assigned. -/
theorem assignment_literals : literals.assignment =
    .ok { assignment := {}, clobbered := [A64.gpr 0] } := by
  rw [assignment_eq_ok]
  refine ⟨rfl, literals.graph.toOption.getD [], by decide +kernel, ?_⟩
  have hlive : Allocation.liveness A64.registers (literals.graph.toOption.getD []) =
      .ok [.ofList [], .ofList []] := by decide +kernel
  simp only [Allocation.allocate, hlive, Checked.ok_bind]
  rw [Allocation.intervals, List.mergeSort_of_pairwise (by decide +kernel)]
  decide +kernel

def literalsResolved : Program :=
  (literals.renamed { assignment := {}, clobbered := [A64.gpr 0] }).lowered.settled

theorem reachable_literalsResolved : Session.Reachable literalsResolved := by
  have hbuild : Builder.build { closed := (literals.blocks.map (·.insts)) } = .ok literals := by
    decide +kernel
  have hallocate : (Session.perform { program := literals } .allocate).1.program =
      literals.renamed { assignment := {}, clobbered := [A64.gpr 0] } := by
    simp only [Session.perform, allocate_eq, assignment_literals]
    rfl
  have hallocated :=
    Session.Reachable.request (s := { program := literals }) .allocate (.built hbuild)
  rw [hallocate] at hallocated
  have hlowered := Session.Reachable.request (s := { program := _ }) .lowerBranches hallocated
  have hresolved := Session.Reachable.request (s := { program := _ }) .resolveOffsets hlowered
  exact hresolved

def fourBytes : CodeBuffer := { bytes := #[7, 8, 9, 10] }

end Emission

end Codegen.Program
