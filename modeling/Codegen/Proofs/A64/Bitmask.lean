import Codegen.Proofs.A64.BitRuns

/-!
Bitmask immediates are exact: `ofValue?` accepts the values that the encoding can express and no
others, and the fields that it gives are expanded to the value.

The encoding is read by `decodeBitMasks`, which knows nothing of how the fields were found. A value
is looked at bit by bit: in elements of `size` bits, bit `i` of a run of `ones` ones that is rotated
to the right by `rot` is set if `(i + rot) % size < ones`. Halving and counting end at that size and
that run, and the packed size is what `N` and `imms` are read back from.
-/
namespace Codegen.A64.BitmaskImm

/-- The element of `size` bits that is a run of ones, rotated to the right and repeated in `w`
bits. -/
def pattern (w size ones rot : Nat) : BitVec w :=
  (((BitVec.ofNat size (2 ^ ones - 1)).rotateRight rot).replicate (w / size)).setWidth w

/-- A rotated run of ones that is neither empty nor full, in an element that is repeated. -/
def IsBitmask {w : Nat} (x : BitVec w) : Prop :=
  ∃ size ∈ [2, 4, 8, 16, 32, 64], size ≤ w ∧
    ∃ ones rot, 0 < ones ∧ ones < size ∧ x = pattern w size ones rot

/-- The logarithm of the element size: the highest bit that is set in `N` and the complement of
`imms`. -/
def elementLog (n : Bool) (imms : BitVec 6) : Nat := (BitVec.ofBool n ++ ~~~imms).toNat.log2

/-- What the fields of a logical immediate stand for in an operation on `w` bits. Elements of one
bit, elements that do not fit and elements without a zero are not allocated. -/
def decodeBitMasks (w : Nat) (n : Bool) (immr imms : BitVec 6) : Option (BitVec w) :=
  let len := elementLog n imms
  let levels := BitVec.ofNat 6 (2 ^ len - 1)
  if len < 1 ∨ w < 2 ^ len ∨ imms &&& levels = levels then none
  else some (pattern w (2 ^ len) ((imms &&& levels).toNat + 1) (immr &&& levels).toNat)

example : decodeBitMasks 64 false 1 0b110011 = some 0x8787878787878787 := by decide +kernel

def expand? (imm : BitmaskImm) (w : Nat) : Option (BitVec w) :=
  decodeBitMasks w imm.n (imm.immr.toBitVec.setWidth 6) (imm.imms.toBitVec.setWidth 6)

section Bits

variable {w size ones rot : Nat}

theorem getLsbD_pattern (hsize : 0 < size) (hdvd : size ∣ w) {i : Nat} (hi : i < w) :
    (pattern w size ones rot).getLsbD i = decide ((i + rot) % size < ones) := by
  have hcover : i < size * (w / size) := by rwa [Nat.mul_div_cancel' hdvd]
  have hlt : i % size < size := Nat.mod_lt i hsize
  have hrot : rot % size < size := Nat.mod_lt rot hsize
  rw [pattern, BitVec.getLsbD_setWidth, BitVec.getLsbD_replicate, BitVec.getLsbD_rotateRight,
    Nat.add_mod]
  simp only [hi, hcover, decide_true, Bool.true_and, BitVec.getLsbD_ofNat,
    Nat.testBit_two_pow_sub_one]
  by_cases hwrap : i % size < size - rot % size
  · have hsum : i % size + rot % size < size := by omega
    rw [Nat.mod_eq_of_lt hsum]
    simp [hwrap, Nat.add_comm (rot % size), hsum]
  · have hsum : (i % size + rot % size) % size = i % size - (size - rot % size) := by
      rw [Nat.mod_eq_sub_mod (by omega), Nat.mod_eq_of_lt (by omega)]
      omega
    have hback : i % size - (size - rot % size) < size := by omega
    rw [hsum]
    simp [hwrap, hlt, hback]

theorem exists_log_of_mem (h : size ∈ [2, 4, 8, 16, 32, 64]) :
    ∃ l, l < 7 ∧ 0 < l ∧ size = 2 ^ l := by
  have hall : ∀ size ∈ [2, 4, 8, 16, 32, 64], ∃ l, l < 7 ∧ 0 < l ∧ size = 2 ^ l := by decide
  exact hall size h

theorem mem_of_log {l : Nat} (hl : l < 7) (hl0 : 0 < l) : 2 ^ l ∈ [2, 4, 8, 16, 32, 64] := by
  have hall : ∀ l < 7, 0 < l → 2 ^ l ∈ [2, 4, 8, 16, 32, 64] := by decide
  exact hall l hl hl0

end Bits

section Fields

variable {l k : Nat} {imms : BitVec 6}

/-- The ones that stand before the length of the run in `imms`. -/
theorem leading_eq (hl : l < 7) :
    (128 - 2 * 2 ^ l) % 64 = 64 - 2 * 2 ^ l ∧ 2 ^ l ∣ 64 - 2 * 2 ^ l ∧
      (2 ^ l = 64 ∨ 2 * 2 ^ l ≤ 64) := by
  revert l
  decide

/-- Together with `N`, the complement of `imms` is `2 * 2 ^ l - k`, so its highest bit is `l`. -/
theorem elementLog_eq (hl : l < 7) (hk : 0 < k) (hlt : k < 2 ^ l)
    (himms : imms.toNat = (128 - 2 * 2 ^ l) % 64 + (k - 1)) :
    elementLog (decide (2 ^ l = 64)) imms = l := by
  obtain ⟨hleading, _, hcase⟩ := leading_eq hl
  have hcode : (BitVec.ofBool (decide (2 ^ l = 64)) ++ ~~~imms).toNat = 2 * 2 ^ l - k := by
    rw [BitVec.toNat_append, ← Nat.shiftLeft_add_eq_or_of_lt (~~~imms).isLt, BitVec.toNat_not,
      himms, hleading, BitVec.toNat_ofBool]
    by_cases hwide : 2 ^ l = 64
    · simp only [hwide, decide_true, Bool.toNat_true]
      omega
    · simp only [hwide, decide_false, Bool.toNat_false]
      omega
  have hsucc : 2 ^ (l + 1) = 2 * 2 ^ l := by rw [Nat.pow_succ, Nat.mul_comm]
  rw [elementLog, hcode, Nat.log2_eq_iff (by omega), hsucc]
  exact ⟨by omega, by omega⟩

theorem toNat_levels (hl : l < 7) : (BitVec.ofNat 6 (2 ^ l - 1)).toNat = 2 ^ l - 1 := by
  have hpow : 2 ^ l ≤ 2 ^ 6 := Nat.pow_le_pow_right (by decide) (by omega)
  have hpos : 0 < 2 ^ l := Nat.two_pow_pos l
  rw [BitVec.toNat_ofNat, Nat.mod_eq_of_lt (by omega)]

theorem toNat_and_levels (hl : l < 7) (field : BitVec 6) :
    (field &&& BitVec.ofNat 6 (2 ^ l - 1)).toNat = field.toNat % 2 ^ l := by
  rw [BitVec.toNat_and, toNat_levels hl, Nat.and_two_pow_sub_one_eq_mod]

theorem decodeBitMasks_eq {w r : Nat} {immr : BitVec 6} (hl : l < 7) (hl0 : 0 < l) (hw : 2 ^ l ≤ w)
    (hk : 0 < k) (hlt : k < 2 ^ l) (hr : r < 2 ^ l) (himmr : immr.toNat = r)
    (himms : imms.toNat = (128 - 2 * 2 ^ l) % 64 + (k - 1)) :
    decodeBitMasks w (decide (2 ^ l = 64)) immr imms = some (pattern w (2 ^ l) k r) := by
  have hones : (imms &&& BitVec.ofNat 6 (2 ^ l - 1)).toNat = k - 1 := by
    obtain ⟨hleading, ⟨c, hc⟩, _⟩ := leading_eq hl
    rw [toNat_and_levels hl, himms, hleading, hc, Nat.mul_add_mod, Nat.mod_eq_of_lt (by omega)]
  have hrot : (immr &&& BitVec.ofNat 6 (2 ^ l - 1)).toNat = r := by
    rw [toNat_and_levels hl, himmr, Nat.mod_eq_of_lt hr]
  have hallocated : ¬ (l < 1 ∨ w < 2 ^ l ∨
      imms &&& BitVec.ofNat 6 (2 ^ l - 1) = BitVec.ofNat 6 (2 ^ l - 1)) := by
    rintro (h | h | hfull)
    · omega
    · omega
    · rw [hfull, toNat_levels hl] at hones
      omega
  simp only [decodeBitMasks, elementLog_eq hl hk hlt himms, if_neg hallocated, hones, hrot]
  rw [Nat.sub_add_cancel hk]

/-- The packed size, as a number: nothing carries into the complement of the size. -/
theorem toNat_packedSize (hl : l < 7) (hk : 0 < k) (hlt : k < 2 ^ l) :
    (packedSize (2 ^ l) k).toNat = 2 ^ 64 - 2 * 2 ^ l + (k - 1) := by
  have hpow : 2 ^ l ≤ 2 ^ 6 := Nat.pow_le_pow_right (by decide) (by omega)
  have hsplit : 2 ^ 64 - 2 * 2 ^ l = 2 ^ (l + 1) * (2 ^ (63 - l) - 1) := by
    have hwhole : 2 ^ (l + 1) * 2 ^ (63 - l) = 2 ^ 64 := by
      rw [← Nat.pow_add]
      congr 1
      omega
    rw [Nat.mul_sub, hwhole, Nat.mul_one, Nat.pow_succ 2 l, Nat.mul_comm (2 ^ l)]
  have hsize : (~~~BitVec.ofNat 64 (2 ^ l - 1)).toNat = 2 ^ 64 - 2 ^ l := by
    rw [BitVec.toNat_not, BitVec.toNat_ofNat, Nat.mod_eq_of_lt (by omega)]
    omega
  have hshifted : (~~~BitVec.ofNat 64 (2 ^ l - 1) <<< 1).toNat = 2 ^ 64 - 2 * 2 ^ l := by
    rw [BitVec.toNat_shiftLeft, hsize, Nat.shiftLeft_eq]
    omega
  have hones : (BitVec.ofNat 64 (k - 1)).toNat = k - 1 := by
    rw [BitVec.toNat_ofNat, Nat.mod_eq_of_lt (by omega)]
  rw [packedSize, BitVec.toNat_or, hshifted, hones, hsplit]
  exact (Nat.two_pow_add_eq_or_of_lt (by rw [Nat.pow_succ]; omega) _).symm

theorem packedSize_fields (hl : l < 7) (hk : 0 < k) (hlt : k < 2 ^ l) :
    decide (packedSize (2 ^ l) k >>> 6 &&& 1 = 0) = decide (2 ^ l = 64) ∧
      (packedSize (2 ^ l) k &&& 0x3f).toNat = (128 - 2 * 2 ^ l) % 64 + (k - 1) := by
  obtain ⟨_, _, hcase⟩ := leading_eq hl
  have hnat := toNat_packedSize hl hk hlt
  have hlow : (packedSize (2 ^ l) k &&& 0x3f).toNat = (packedSize (2 ^ l) k).toNat % 2 ^ 6 := by
    rw [BitVec.toNat_and]
    exact Nat.and_two_pow_sub_one_eq_mod _ 6
  have hbit : (packedSize (2 ^ l) k >>> 6 &&& 1).toNat =
      (packedSize (2 ^ l) k).toNat / 2 ^ 6 % 2 := by
    rw [BitVec.toNat_and, BitVec.toNat_ushiftRight, Nat.shiftRight_eq_div_pow]
    exact Nat.and_two_pow_sub_one_eq_mod _ 1
  have hzero : (0 : BitVec 64).toNat = 0 := rfl
  refine ⟨?_, by omega⟩
  rw [decide_eq_decide, ← BitVec.toNat_inj, hbit, hzero]
  omega

end Fields

theorem bits_le (w : Width) : w.bits ≤ 64 := by
  cases w with
  | _ => decide

theorem pow_dvd_bits {w : Width} {l : Nat} (h : 2 ^ l ≤ w.bits) : 2 ^ l ∣ w.bits := by
  obtain ⟨m, hm⟩ : ∃ m, w.bits = 2 ^ m := by
    cases w with
    | w32 => exact ⟨5, rfl⟩
    | w64 => exact ⟨6, rfl⟩
  rw [hm] at h ⊢
  exact Nat.pow_dvd_pow 2 ((Nat.pow_le_pow_iff_right Nat.one_lt_two).mp h)

section Widened

variable {v : UInt64} {w : Width}

/-- The bits of the value, again and again. -/
theorem getLsbD_widened {i : Nat} (hi : i < 64) :
    (widened v w).getLsbD i = (v.toBitVec.setWidth w.bits).getLsbD (i % w.bits) := by
  cases w with
  | w64 =>
      have hmod : i % Width.w64.bits = i := Nat.mod_eq_of_lt hi
      rw [hmod, BitVec.getLsbD_setWidth]
      simp [widened, Width.bits, hi]
  | w32 =>
      have hlow : ∀ j, (lowPart v .w32).toBitVec.getLsbD j =
          (decide (j < 32) && v.toBitVec.getLsbD j) := by
        intro j
        have hmask : (0xffffffff : BitVec 64).getLsbD j = decide (j < 32) := by
          have hones : (0xffffffff : BitVec 64).toNat = 2 ^ 32 - 1 := rfl
          rw [← BitVec.testBit_toNat, hones, Nat.testBit_two_pow_sub_one]
        rw [Bool.and_comm, ← hmask, ← BitVec.getLsbD_and]
        rfl
      simp only [widened, BitVec.getLsbD_or, BitVec.getLsbD_shiftLeft, hlow,
        BitVec.getLsbD_setWidth, Width.bits]
      by_cases hfirst : i < 32
      · simp [hfirst, Nat.mod_eq_of_lt hfirst]
      · have hback : i % 32 = i - 32 := by omega
        have hin : i - 32 < 32 := by omega
        simp [hfirst, hi, hback, hin]

theorem toNat_lowPart : (lowPart v w).toNat = (v.toBitVec.setWidth w.bits).toNat := by
  rw [BitVec.toNat_setWidth, UInt64.toNat_toBitVec]
  cases w with
  | w64 => exact (Nat.mod_eq_of_lt v.toNat_lt).symm
  | w32 =>
      rw [lowPart, UInt64.toNat_and]
      exact Nat.and_two_pow_sub_one_eq_mod _ 32

theorem widened_repeats : Repeats (widened v w) w.bits := by
  intro i hi
  rw [getLsbD_widened hi, getLsbD_widened (by omega), Nat.add_mod_right]

/-- The element fits the width, since the widened value repeats after it. -/
theorem exists_elementSize (v : UInt64) (w : Width) : ∃ l, l < 7 ∧ 0 < l ∧ 2 ^ l ≤ w.bits ∧
    elementSize (widened v w) 6 = 2 ^ l ∧ Repeats (widened v w) (2 ^ l) := by
  have hwhole : Repeats (widened v w) (2 ^ 6) := fun i hi => absurd hi (by omega)
  obtain ⟨l, hl0, hl, heq, hrepeats, hsmallest⟩ :=
    elementSize_spec (by decide) (le_refl 6) hwhole
  refine ⟨l, by omega, hl0, ?_, heq, hrepeats⟩
  cases w with
  | w64 => exact Nat.pow_le_pow_right (by decide) hl
  | w32 =>
      have hle : l ≤ 5 := by
        rcases hsmallest with hone | hnot
        · omega
        · by_contra hlarge
          have hlast : l = 6 := by omega
          exact hnot (hlast ▸ widened_repeats)
      exact Nat.pow_le_pow_right (by decide) hle

/-- A value with both kinds of bits has them in every element. -/
theorem exists_bit_of_repeats {x : BitVec 64} {size : Nat} (hsize : 0 < size)
    (hrepeats : Repeats x size) (hzero : x ≠ 0) (hones : x ≠ BitVec.allOnes 64) :
    (∃ i < size, x.getLsbD i = true) ∧ ∃ i < size, x.getLsbD i = false := by
  constructor
  · by_contra hnone
    push Not at hnone
    refine hzero (BitVec.eq_of_getLsbD_eq fun i hi => ?_)
    rw [hrepeats.getLsbD hsize hi, Bool.eq_false_iff.mpr (hnone _ (Nat.mod_lt i hsize))]
    exact BitVec.getLsbD_zero.symm
  · by_contra hnone
    push Not at hnone
    refine hones (BitVec.eq_of_getLsbD_eq fun i hi => ?_)
    rw [hrepeats.getLsbD hsize hi, BitVec.getLsbD_allOnes, decide_eq_true hi, ← Bool.not_eq_false]
    exact hnone _ (Nat.mod_lt i hsize)

end Widened

section Exact

variable {v : UInt64} {w : Width} {imm : BitmaskImm}

/-- A value that is found is a run that is repeated, and the fields are made of its size, its length
and its rotation. -/
theorem ofValue?_eq_some (h : ofValue? v w = some imm) : ∃ l, l < 7 ∧ 0 < l ∧ 2 ^ l ≤ w.bits ∧
    ∃ r < 2 ^ l, ∃ k, 0 < k ∧ k < 2 ^ l ∧
      v.toBitVec.setWidth w.bits = pattern w.bits (2 ^ l) k r ∧
      imm = {
        value := lowPart v w
        n := 2 ^ l = 64
        immr := UInt8.ofNat r
        imms := UInt8.ofNat ((128 - 2 * 2 ^ l) % 64 + (k - 1)) } := by
  obtain ⟨l, hl, hl0, hle, hsize, hrepeats⟩ := exists_elementSize v w
  have hpos : 0 < 2 ^ l := Nat.two_pow_pos l
  simp only [ofValue?] at h
  split at h
  · cases h
  rename_i hmixed
  push Not at hmixed
  simp only [hsize, Option.bind_eq_bind, Option.bind_eq_some_iff, Option.pure_def,
    Option.some.injEq] at h
  obtain ⟨⟨rot, k⟩, hrun, rfl⟩ := h
  obtain ⟨hone, hzero⟩ := exists_bit_of_repeats hpos hrepeats hmixed.1 hmixed.2
  have hfits : 2 ^ l ≤ 64 := hle.trans (bits_le w)
  obtain ⟨hrot, hk, hlt, hbits⟩ := run?_eq_some hfits hone hzero hrun
  obtain ⟨hn, himms⟩ := packedSize_fields hl hk hlt
  refine ⟨l, hl, hl0, hle, (2 ^ l - rot) % 2 ^ l, Nat.mod_lt _ hpos, k, hk, hlt, ?_, ?_⟩
  · refine BitVec.eq_of_getLsbD_eq fun i hi => ?_
    have hword : i < 64 := hi.trans_le (bits_le w)
    have hvalue := getLsbD_widened (v := v) (w := w) hword
    rw [Nat.mod_eq_of_lt hi] at hvalue
    rw [getLsbD_pattern hpos (pow_dvd_bits hle) hi, ← hvalue, hrepeats.getLsbD hpos hword,
      hbits _ (Nat.mod_lt i hpos), Nat.mod_add_mod, Nat.add_mod_mod]
  · rw [hn, himms, Nat.and_two_pow_sub_one_eq_mod]

theorem exists_ofValue? (h : IsBitmask (v.toBitVec.setWidth w.bits)) :
    ∃ imm, ofValue? v w = some imm := by
  obtain ⟨size, hmem, hle, ones, rot, hpos, hlt, heq⟩ := h
  obtain ⟨l, hl, hl0, rfl⟩ := exists_log_of_mem hmem
  have hsize : 0 < 2 ^ l := Nat.two_pow_pos l
  have hwidth : 0 < w.bits := by cases w <;> decide
  have hdvd := pow_dvd_bits hle
  have hbits : ∀ i < 64, (widened v w).getLsbD i = decide ((i + rot) % 2 ^ l < ones) := by
    intro i hi
    rw [getLsbD_widened hi, heq, getLsbD_pattern hsize hdvd (Nat.mod_lt i hwidth),
      ← Nat.mod_add_mod, Nat.mod_mod_of_dvd _ hdvd, Nat.mod_add_mod]
  have hfits : 2 ^ l ≤ 64 := hle.trans (bits_le w)
  obtain ⟨found, hrun⟩ := exists_run? hfits hpos hlt fun i hi => hbits i (by omega)
  have hmixed : ¬ (widened v w = 0 ∨ widened v w = BitVec.allOnes 64) :=
    not_or.mpr (ne_of_rotated hfits hpos hlt hbits)
  simp only [ofValue?, if_neg hmixed, elementSize_eq hl0 (by omega) hpos hlt hbits, hrun,
    Option.bind_eq_bind, Option.bind_some]
  exact ⟨_, rfl⟩

/-- The fields and the value of an immediate stand for `x`. -/
structure Encodes (imm : BitmaskImm) (w : Width) (x : BitVec w.bits) : Prop where
  expands : imm.expand? w.bits = some x
  narrow : w = .w32 → imm.n = false
  rotation : imm.immr.toNat < 2 ^ elementLog imm.n (imm.imms.toBitVec.setWidth 6)
  length : imm.imms.toNat < 2 ^ 6
  value : imm.value.toNat = x.toNat

theorem encodes_of_ofValue? (h : ofValue? v w = some imm) :
    imm.Encodes w (v.toBitVec.setWidth w.bits) := by
  obtain ⟨l, hl, hl0, hle, r, hr, k, hk, hlt, heq, rfl⟩ := ofValue?_eq_some h
  obtain ⟨hleading, _, _⟩ := leading_eq hl
  have hpow : 2 ^ l ≤ 2 ^ 6 := Nat.pow_le_pow_right (by decide) (by omega)
  have himmr : ((UInt8.ofNat r).toBitVec.setWidth 6).toNat = r := by
    rw [BitVec.toNat_setWidth, UInt8.toNat_toBitVec, UInt8.toNat_ofNat']
    omega
  have himms : ((UInt8.ofNat ((128 - 2 * 2 ^ l) % 64 + (k - 1))).toBitVec.setWidth 6).toNat =
      (128 - 2 * 2 ^ l) % 64 + (k - 1) := by
    rw [BitVec.toNat_setWidth, UInt8.toNat_toBitVec, UInt8.toNat_ofNat']
    omega
  refine ⟨?_, ?_, ?_, ?_, ?_⟩
  · rw [heq]
    exact decodeBitMasks_eq hl hl0 hle hk hlt hr himmr himms
  · rintro rfl
    have hbits : 2 ^ l ≤ 32 := hle
    exact decide_eq_false (by omega)
  · rw [elementLog_eq hl hk hlt himms, UInt8.toNat_ofNat']
    omega
  · rw [UInt8.toNat_ofNat']
    omega
  · exact toNat_lowPart

theorem fields_lt (h : ofValue? v w = some imm) : imm.immr.toNat < 64 ∧ imm.imms.toNat < 64 := by
  obtain ⟨l, hl, _, _, r, hr, k, hk, hlt, _, rfl⟩ := ofValue?_eq_some h
  obtain ⟨hleading, _, _⟩ := leading_eq hl
  have hpow : 2 ^ l ≤ 2 ^ 6 := Nat.pow_le_pow_right (by decide) (by omega)
  simp only [UInt8.toNat_ofNat']
  omega

/-- Exactly the values that the encoding can express are accepted, and the fields of what is
accepted are expanded to the value. -/
theorem ofValue_exact (v : UInt64) (w : Width) :
    ((∃ imm, ofValue? v w = some imm) ↔ IsBitmask (v.toBitVec.setWidth w.bits)) ∧
      ∀ imm, ofValue? v w = some imm → imm.Encodes w (v.toBitVec.setWidth w.bits) := by
  refine ⟨⟨?_, exists_ofValue?⟩, fun imm h => encodes_of_ofValue? h⟩
  rintro ⟨imm, h⟩
  obtain ⟨l, hl, hl0, hle, r, _, k, hk, hlt, heq, _⟩ := ofValue?_eq_some h
  exact ⟨2 ^ l, mem_of_log hl hl0, hle, k, r, hk, hlt, heq⟩

end Exact

end Codegen.A64.BitmaskImm
