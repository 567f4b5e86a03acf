import Codegen.Proofs.A64.Bitmask
import Codegen.Proofs.A64.StackPointer

/-!
Bitmask immediates in the operation that uses them.

An immediate is made for one width and may be used in an operation of the other. Its three fields
say nothing of the width that it was made for: they stand for a pattern of elements, which the
operation repeats up to its own width. An immediate of 64 bits keeps its value in an operation on 32
if its element fits, and is refused if not. An immediate of 32 bits never keeps its value in an
operation on 64, where it is repeated once more, and it is not refused there.
-/
namespace Codegen.A64

namespace BitmaskImm

section Expansion

variable {imm : BitmaskImm} {w : Nat}

theorem elementLog_of_n (n : Bool) (imms : BitVec 6) :
    (n = true → elementLog n imms = 6) ∧ (n = false → elementLog n imms < 6) := by
  have hcode : (BitVec.ofBool n ++ ~~~imms).toNat = n.toNat * 64 + (~~~imms).toNat := by
    rw [BitVec.toNat_append, ← Nat.shiftLeft_add_eq_or_of_lt (~~~imms).isLt, BitVec.toNat_ofBool,
      Nat.shiftLeft_eq]
  have hlt := (~~~imms).isLt
  constructor
  · rintro rfl
    rw [elementLog, hcode, Nat.log2_eq_iff (by simp)]
    simp only [Bool.toNat_true]
    omega
  · rintro rfl
    rw [elementLog, hcode, Bool.toNat_false, Nat.zero_mul, Nat.zero_add]
    by_cases hzero : (~~~imms).toNat = 0
    · rw [hzero]
      decide
    · exact (Nat.log2_lt hzero).mpr hlt

/-- Fields that have an expansion have one in every width that their element fits in, and it is the
same run. -/
theorem exists_run_of_expand? {x : BitVec w} (h : imm.expand? w = some x) :
    ∃ l k r, l < 7 ∧ 2 ^ l ≤ w ∧ (imm.n = true ↔ l = 6) ∧ 0 < k ∧ k < 2 ^ l ∧
      x = pattern w (2 ^ l) k r ∧
      (∀ w' < 2 ^ l, imm.expand? w' = none) ∧
      ∀ w' ≥ 2 ^ l, imm.expand? w' = some (pattern w' (2 ^ l) k r) := by
  obtain ⟨hwide, hnarrow⟩ := elementLog_of_n imm.n (imm.imms.toBitVec.setWidth 6)
  have hlog : elementLog imm.n (imm.imms.toBitVec.setWidth 6) < 7 := by
    cases hn : imm.n with
    | true => rw [hn] at hwide; rw [hwide rfl]; decide
    | false => rw [hn] at hnarrow; exact (hnarrow rfl).trans (by decide)
  simp only [expand?, decodeBitMasks] at h ⊢
  generalize elementLog imm.n (imm.imms.toBitVec.setWidth 6) = l at hlog hwide hnarrow h ⊢
  generalize himms : imm.imms.toBitVec.setWidth 6 = imms at h ⊢
  generalize imm.immr.toBitVec.setWidth 6 = immr at h ⊢
  split at h
  · cases h
  · rename_i hallocated
    simp only [not_or, not_lt] at hallocated
    obtain ⟨hl, hle, hfull⟩ := hallocated
    have hones := toNat_and_levels hlog imms
    have hmod := Nat.mod_lt imms.toNat (Nat.two_pow_pos l)
    have hpart : imms.toNat % 2 ^ l ≠ 2 ^ l - 1 := by
      intro heq
      refine hfull (BitVec.eq_of_toNat_eq ?_)
      rw [hones, toNat_levels hlog, heq]
    refine ⟨l, _, _, hlog, hle, ⟨hwide, fun hl6 => ?_⟩, Nat.succ_pos _, ?_,
      (Option.some.inj h).symm, fun w' hw' => ?_, fun w' hw' => ?_⟩
    · by_contra hn
      have hlt := hnarrow (by simpa using hn)
      omega
    · rw [hones]
      omega
    · rw [if_pos (.inr (.inl hw'))]
    · rw [if_neg (by simp only [not_or, not_lt]; exact ⟨hl, hw', hfull⟩)]

end Expansion

section Halves

variable {l k r : Nat}

theorem setWidth_pattern (hl : 2 ^ l ∣ 32) :
    (pattern 64 (2 ^ l) k r).setWidth 32 = pattern 32 (2 ^ l) k r := by
  have hpos := Nat.two_pow_pos l
  refine BitVec.eq_of_getLsbD_eq fun i hi => ?_
  rw [BitVec.getLsbD_setWidth, getLsbD_pattern hpos (hl.trans (by decide)) (by omega),
    getLsbD_pattern hpos hl hi]
  simp [hi]

theorem pattern_append (hl : 2 ^ l ∣ 32) :
    pattern 64 (2 ^ l) k r = pattern 32 (2 ^ l) k r ++ pattern 32 (2 ^ l) k r := by
  have hpos := Nat.two_pow_pos l
  refine BitVec.eq_of_getLsbD_eq fun i hi => ?_
  rw [getLsbD_pattern hpos (hl.trans (by decide)) hi, BitVec.getLsbD_append]
  by_cases hlow : i < 32
  · rw [if_pos hlow, getLsbD_pattern hpos hl hlow]
  · have hhigh : i - 32 < 32 := by omega
    rw [if_neg hlow, getLsbD_pattern hpos hl hhigh]
    obtain ⟨c, hc⟩ := hl
    have hback : i + r = i - 32 + r + 2 ^ l * c := by omega
    rw [hback, Nat.add_mul_mod_self_left]

theorem pattern_ne_zero {w : Nat} (hw : 2 ^ l ≤ w) (hdvd : 2 ^ l ∣ w) (hk : 0 < k) :
    pattern w (2 ^ l) k r ≠ 0 := by
  have hpos := Nat.two_pow_pos l
  have hr := Nat.mod_lt r hpos
  intro hzero
  -- the lowest bit of the run, rotated
  have hi : (2 ^ l - r % 2 ^ l) % 2 ^ l < w := (Nat.mod_lt _ hpos).trans_le hw
  have hfirst : ((2 ^ l - r % 2 ^ l) % 2 ^ l + r) % 2 ^ l = 0 := by
    rw [Nat.mod_add_mod, ← Nat.add_mod_mod, Nat.sub_add_cancel hr.le, Nat.mod_self]
  have hbit : (pattern w (2 ^ l) k r).getLsbD ((2 ^ l - r % 2 ^ l) % 2 ^ l) = true := by
    rw [getLsbD_pattern hpos hdvd hi, hfirst, decide_eq_true hk]
  rw [hzero] at hbit
  simp at hbit

end Halves

section Use

variable {v : UInt64} {built : Width} {imm : BitmaskImm}

theorem setWidth_value (h : ofValue? v built = some imm) :
    imm.value.toBitVec.setWidth built.bits = v.toBitVec.setWidth built.bits := by
  refine BitVec.eq_of_toNat_eq ?_
  rw [BitVec.toNat_setWidth, UInt64.toNat_toBitVec, (encodes_of_ofValue? h).value]
  exact Nat.mod_eq_of_lt (BitVec.isLt _)

/-- An immediate of 32 bits is repeated by an operation on 64. -/
theorem expand?_of_narrow (h : ofValue? v .w32 = some imm) :
    imm.expand? 64 = some (imm.value.toBitVec.setWidth 32 ++ imm.value.toBitVec.setWidth 32) ∧
      imm.value.toBitVec.setWidth 32 ≠ 0 := by
  obtain ⟨l, k, r, hl, hle, _, hk, hlt, hx, _, hexpand⟩ :=
    exists_run_of_expand? (encodes_of_ofValue? h).expands
  have hdvd : 2 ^ l ∣ 32 := pow_dvd_bits hle
  have hvalue : imm.value.toBitVec.setWidth 32 = pattern 32 (2 ^ l) k r :=
    (setWidth_value h).trans hx
  rw [hvalue, ← pattern_append hdvd]
  exact ⟨hexpand 64 (hle.trans (by decide)), pattern_ne_zero hle hdvd hk⟩

/-- The value of an immediate of 32 bits is not repeated. -/
theorem expand?_ne_value_of_narrow (h : ofValue? v .w32 = some imm) :
    imm.expand? 64 ≠ some (imm.value.toBitVec.setWidth 64) := by
  obtain ⟨htwice, hne⟩ := expand?_of_narrow h
  rw [htwice, BitVec.setWidth_eq]
  intro heq
  refine hne (BitVec.eq_of_toNat_eq ?_)
  have hsmall : imm.value.toNat < 2 ^ 32 := by
    rw [(encodes_of_ofValue? h).value]
    exact BitVec.isLt _
  have hnat := congrArg BitVec.toNat (Option.some.inj heq)
  rw [BitVec.toNat_append, ← Nat.shiftLeft_add_eq_or_of_lt (BitVec.isLt _), Nat.shiftLeft_eq,
    BitVec.toNat_setWidth, UInt64.toNat_toBitVec, Nat.mod_eq_of_lt hsmall] at hnat
  rw [BitVec.toNat_setWidth, UInt64.toNat_toBitVec, Nat.mod_eq_of_lt hsmall]
  show imm.value.toNat = 0
  omega

/-- The fields stand for the value in an operation of either width, but for an element that is too
wide and for an immediate of 32 bits that is repeated. -/
theorem expand?_eq_value_iff (h : ofValue? v built = some imm) (w : Width) :
    imm.expand? w.bits = some (imm.value.toBitVec.setWidth w.bits) ↔
      ¬ (imm.n = true ∧ w = .w32) ∧ ¬ (built = .w32 ∧ w = .w64) := by
  by_cases hsame : w = built
  · subst hsame
    have hencodes := encodes_of_ofValue? h
    rw [setWidth_value h, hencodes.expands]
    refine iff_of_true rfl ⟨?_, ?_⟩
    · rintro ⟨hn, rfl⟩
      rw [hencodes.narrow rfl] at hn
      cases hn
    · rintro ⟨rfl, hne⟩
      cases hne
  · cases built with
    | w32 =>
        obtain rfl : w = .w64 := by
          cases w with
          | w32 => exact absurd rfl hsame
          | w64 => rfl
        exact iff_of_false (expand?_ne_value_of_narrow h) fun hno => hno.2 ⟨rfl, rfl⟩
    | w64 =>
        obtain rfl : w = .w32 := by
          cases w with
          | w32 => rfl
          | w64 => exact absurd rfl hsame
        obtain ⟨l, k, r, hl, hle, hn, _, _, hx, hnone, hexpand⟩ :=
          exists_run_of_expand? (encodes_of_ofValue? h).expands
        have hwhole : imm.value.toBitVec = pattern 64 (2 ^ l) k r :=
          (BitVec.setWidth_eq _).symm.trans ((setWidth_value h).trans hx)
        change imm.expand? 32 = some (imm.value.toBitVec.setWidth 32) ↔ _
        cases hwide : imm.n with
        | true =>
            rw [hn.mp hwide] at hnone
            rw [hnone 32 (by decide)]
            simp
        | false =>
            have hl5 : l ≤ 5 := by
              have hne6 : l ≠ 6 := fun hl6 => by simp [hn.mpr hl6] at hwide
              omega
            have hle32 : 2 ^ l ≤ 32 := Nat.pow_le_pow_right Nat.two_pos hl5
            rw [hexpand 32 hle32, hwhole, setWidth_pattern (Nat.pow_dvd_pow 2 hl5)]
            simp

theorem exists_expand? (h : ofValue? v built = some imm) {w : Width}
    (hfits : ¬ (imm.n = true ∧ w = .w32)) : ∃ x, imm.expand? w.bits = some x := by
  obtain ⟨l, k, r, hl, _, hn, _, _, _, _, hexpand⟩ :=
    exists_run_of_expand? (encodes_of_ofValue? h).expands
  refine ⟨_, hexpand w.bits ?_⟩
  cases w with
  | w64 => exact Nat.pow_le_pow_right Nat.two_pos (Nat.le_of_lt_succ hl)
  | w32 =>
      have hl6 : l ≠ 6 := fun hl6 => hfits ⟨hn.mpr hl6, rfl⟩
      exact Nat.pow_le_pow_right Nat.two_pos (show l ≤ 5 by omega)

end Use

end BitmaskImm

theorem hwEnc_lt {r : Reg} (h : registers.Known r) (n : Nat) (hn : hwEnc r = .ok n) : n < 32 := by
  rw [hwEnc_of_known h] at hn
  cases hn
  exact number_lt h

/-- What the `N`, `immr` and `imms` fields of a word stand for in an operation on `w` bits. -/
def bitmaskOf (w : Nat) (word : UInt32) : Option (BitVec w) :=
  BitmaskImm.decodeBitMasks w (field 22 1 word.toNat = 1) (BitVec.ofNat 6 (field 16 6 word.toNat))
    (BitVec.ofNat 6 (field 10 6 word.toNat))

theorem bitmaskOf_pack {sf opc rd rn : Nat} {imm : BitmaskImm} (w : Nat) (hsf : sf < 2)
    (hopc : opc < 4) (himmr : imm.immr.toNat < 64) (himms : imm.imms.toNat < 64) (hrn : rn < 32)
    (hrd : rd < 32) :
    bitmaskOf w (Word.pack [(sf, 31), (opc, 29), (0b100100, 23), (Word.bit imm.n, 22),
      (imm.immr.toNat, 16), (imm.imms.toNat, 10), (rn, 5), (rd, 0)]) = imm.expand? w := by
  have hbit := Word.bit_lt imm.n
  have hreads := reads_pack (w := Word.pack _) rfl (show Tiles 32 [(sf, 31), (opc, 29),
    (0b100100, 23), (Word.bit imm.n, 22), (imm.immr.toNat, 16), (imm.imms.toNat, 10), (rn, 5),
    (rd, 0)] by simp [Tiles]; omega)
  simp only [Reads, Nat.reduceSub] at hreads
  simp only [bitmaskOf, hreads, Word.bit_eq_one, Bool.decide_eq_true]
  rfl

namespace Inst

section Bitmask

variable {v : UInt64} {built : Width} {imm : BitmaskImm} {fn : AluFn} {w : Width} {rd rn : Reg}
  {s t : Emitter}

theorem aluBitmask_eq_ok {d n : Nat} {word : UInt32} :
    Word.aluBitmask (.op fn w) d n imm = .ok word ↔
      ∃ opc, fn.logical? = some opc ∧ ¬ (imm.n = true ∧ w = .w32) ∧
        word = Word.pack [(w.sf, 31), (opc, 29), (0b100100, 23), (Word.bit imm.n, 22),
          (imm.immr.toNat, 16), (imm.imms.toNat, 10), (n, 5), (d, 0)] := by
  cases hlogical : fn.logical? with
  | none => simp [Word.aluBitmask, hlogical]
  | some opc =>
      simp only [Word.aluBitmask, hlogical, Checked.ite_broken_eq_ok, Except.ok.injEq,
        Bool.and_eq_true, decide_eq_true_eq, Option.some.injEq]
      constructor
      · rintro ⟨hfits, rfl⟩
        exact ⟨opc, rfl, hfits, rfl⟩
      · rintro ⟨_, rfl, hfits, rfl⟩
        exact ⟨hfits, rfl⟩

theorem bitmaskOf_emit (himm : BitmaskImm.ofValue? v built = some imm)
    (hrd : ∀ n, hwEnc rd = .ok n → n < 32) (hrn : ∀ n, hwEnc rn = .ok n → n < 32)
    (hemit : (aluBitmask (.op fn w) rd rn imm).emit.exec s = (.ok (), t)) :
    ¬ (imm.n = true ∧ w = .w32) ∧ ∃ word, t.buffer.bytes.toList =
      s.buffer.bytes.toList ++ littleEndian 4 word.toNat ∧
      bitmaskOf w.bits word = imm.expand? w.bits := by
  obtain ⟨word, hword, rfl⟩ := Emit.exec_checkedWord_eq_ok.mp hemit
  obtain ⟨d, hd, hword⟩ := Checked.bind_eq_ok.mp hword
  obtain ⟨n, hn, hword⟩ := Checked.bind_eq_ok.mp hword
  obtain ⟨opc, hopc, hfits, rfl⟩ := aluBitmask_eq_ok.mp hword
  obtain ⟨himmr, himms⟩ := BitmaskImm.fields_lt himm
  exact ⟨hfits, _, CodeBuffer.toList_put _ _, bitmaskOf_pack _ w.sf_lt (AluFn.ofLogical?_eq hopc).2
    himmr himms (hrn n hn) (hrd d hd)⟩

theorem exec_emit_of_wide (hn : imm.n = true) :
    ∃ f, (aluBitmask (.op fn .w32) rd rn imm).emit.exec s = (.error f, s) := by
  cases hword : (do Word.aluBitmask (.op fn .w32) (← hwEnc rd) (← hwEnc rn) imm) with
  | ok word =>
      obtain ⟨d, _, hword⟩ := Checked.bind_eq_ok.mp hword
      obtain ⟨n, _, hword⟩ := Checked.bind_eq_ok.mp hword
      obtain ⟨_, _, hfits, _⟩ := aluBitmask_eq_ok.mp hword
      exact absurd ⟨hn, rfl⟩ hfits
  | error f =>
      refine ⟨f, ?_⟩
      rw [emit, hword]
      rfl

/-- The fields of the word that is emitted stand for the value of the immediate, except that an
immediate of 32 bits in an operation on 64 is repeated. In every other combination of widths, what
cannot stand for the value is refused. -/
theorem emit_bitmask_meant_iff (himm : BitmaskImm.ofValue? v built = some imm)
    (hrd : ∀ n, hwEnc rd = .ok n → n < 32) (hrn : ∀ n, hwEnc rn = .ok n → n < 32)
    (fn : AluFn) (w : Width) (s : Emitter) :
    (∀ t, (aluBitmask (.op fn w) rd rn imm).emit.exec s = (.ok (), t) →
      ∃ word, t.buffer.bytes.toList = s.buffer.bytes.toList ++ littleEndian 4 word.toNat ∧
        (bitmaskOf w.bits word = some (imm.value.toBitVec.setWidth w.bits) ↔
          ¬ (built = .w32 ∧ w = .w64)) ∧
        (built = .w32 → w = .w64 → bitmaskOf 64 word =
          some (imm.value.toBitVec.setWidth 32 ++ imm.value.toBitVec.setWidth 32))) ∧
    (imm.expand? w.bits ≠ some (imm.value.toBitVec.setWidth w.bits) →
      ¬ (built = .w32 ∧ w = .w64) →
      ∃ f, (aluBitmask (.op fn w) rd rn imm).emit.exec s = (.error f, s)) := by
  constructor
  · intro t hemit
    obtain ⟨hfits, word, hbytes, hword⟩ := bitmaskOf_emit himm hrd hrn hemit
    refine ⟨word, hbytes, ?_, ?_⟩
    · rw [hword, BitmaskImm.expand?_eq_value_iff himm]
      exact and_iff_right hfits
    · rintro rfl rfl
      exact hword.trans (BitmaskImm.expand?_of_narrow himm).1
  · intro hmeant hwidths
    rw [Ne, BitmaskImm.expand?_eq_value_iff himm, not_and_or, not_not] at hmeant
    rcases hmeant with ⟨hn, rfl⟩ | hmeant
    · exact exec_emit_of_wide hn
    · exact absurd hwidths hmeant

/-- An immediate of 64 bits whose element fits in 32. -/
theorem emit_bitmask_meant_iff_evenBytes :
    ∃ imm, BitmaskImm.ofValue? 0x00ff00ff00ff00ff .w64 = some imm ∧
      hwEnc (gpr 0) = .ok 0 ∧ hwEnc (gpr 1) = .ok 1 ∧
      ∃ t word, (aluBitmask (.op .eor .w32) (gpr 0) (gpr 1) imm).emit.exec emptyCode = (.ok (), t) ∧
        t.buffer.bytes.toList = emptyCode.buffer.bytes.toList ++ littleEndian 4 word.toNat ∧
        bitmaskOf 32 word = some 0x00ff00ff := by
  have himm : BitmaskImm.ofValue? 0x00ff00ff00ff00ff .w64 =
      some ⟨0x00ff00ff00ff00ff, false, 0, 0b100111⟩ := by decide +kernel
  have hrd : ∀ n, hwEnc (gpr 0) = .ok n → n < 32 := hwEnc_lt (by decide)
  have hrn : ∀ n, hwEnc (gpr 1) = .ok n → n < 32 := hwEnc_lt (by decide)
  have hemit : (aluBitmask (.op .eor .w32) (gpr 0) (gpr 1)
      ⟨0x00ff00ff00ff00ff, false, 0, 0b100111⟩).emit.exec emptyCode = (.ok (), _) := rfl
  obtain ⟨word, hbytes, hmeant, _⟩ :=
    (emit_bitmask_meant_iff himm hrd hrn .eor .w32 emptyCode).1 _ hemit
  exact ⟨_, himm, rfl, rfl, _, word, hemit, hbytes, hmeant.mpr (by decide)⟩

/-- The low byte as an immediate of 32 bits, in an operation on 64, takes in the byte above the low
half. -/
theorem not_meant_lowByte :
    ¬ ∀ (v : UInt64) (built : Width) (imm : BitmaskImm) (fn : AluFn) (w : Width) (rd rn : Reg)
      (s t : Emitter), BitmaskImm.ofValue? v built = some imm →
      registers.Known rd → registers.Known rn →
      (aluBitmask (.op fn w) rd rn imm).emit.exec s = (.ok (), t) →
      ∃ word, t.buffer.bytes.toList = s.buffer.bytes.toList ++ littleEndian 4 word.toNat ∧
        bitmaskOf w.bits word = some (imm.value.toBitVec.setWidth w.bits) := by
  have himm : BitmaskImm.ofValue? 0xff .w32 = some ⟨0xff, false, 0, 7⟩ := by decide +kernel
  have hrd : ∀ n, hwEnc (gpr 0) = .ok n → n < 32 := hwEnc_lt (by decide)
  have hrn : ∀ n, hwEnc (gpr 1) = .ok n → n < 32 := hwEnc_lt (by decide)
  have hemit : (aluBitmask (.op .and .w64) (gpr 0) (gpr 1) ⟨0xff, false, 0, 7⟩).emit.exec
      emptyCode = (.ok (), _) := rfl
  obtain ⟨_, word, hbytes, hword⟩ := bitmaskOf_emit himm hrd hrn hemit
  intro hmeant
  obtain ⟨word', hbytes', hword'⟩ := hmeant _ _ _ _ _ _ _ _ _ himm (by decide) (by decide) hemit
  rw [hbytes] at hbytes'
  rw [← littleEndian_inj (List.append_cancel_left hbytes'), hword] at hword'
  exact BitmaskImm.expand?_ne_value_of_narrow himm hword'

end Bitmask

end Inst

end Codegen.A64
