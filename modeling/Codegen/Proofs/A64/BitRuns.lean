import Codegen.A64.BitmaskImm
import Mathlib.Data.Nat.Bitwise
import Mathlib.Data.Nat.Factorization.Basic

/-!
Runs of ones in a word of 64 bits, and what the search for a bitmask immediate finds.

`IsRun v a b` says that the ones of `v` are the bits from `a` up to `b`. A word is a shifted mask
exactly if it is a run, and the zeros that are counted at its ends are those bounds. Halving ends at
the smallest element that repeats (`elementSize_eq`). The two cases of `run?`, a run of ones and a
run of zeros, are together exactly the elements that are a rotated run of ones (`run?_eq_some`,
`exists_run?`).
-/
namespace Codegen.A64.BitmaskImm

/-- The ones are the bits from `a` up to `b`. -/
structure IsRun (v : BitVec 64) (a b : Nat) : Prop where
  nonempty : a < b
  fits : b ≤ 64
  bits : ∀ i, v.getLsbD i = decide (a ≤ i ∧ i < b)

section Masks

variable {v : BitVec 64} {a b : Nat}

theorem testBit_two_pow_sub_two_pow (h : a ≤ b) (i : Nat) :
    (2 ^ b - 2 ^ a).testBit i = decide (a ≤ i ∧ i < b) := by
  have hfactor : 2 ^ b - 2 ^ a = 2 ^ a * (2 ^ (b - a) - 1) := by
    rw [Nat.mul_sub, ← Nat.pow_add, Nat.add_sub_cancel' h, Nat.mul_one]
  rw [hfactor, Nat.testBit_two_pow_mul, Nat.testBit_two_pow_sub_one, ← Bool.decide_and,
    decide_eq_decide]
  omega

theorem isRun_iff : IsRun v a b ↔ a < b ∧ b ≤ 64 ∧ v.toNat = 2 ^ b - 2 ^ a := by
  constructor
  · rintro ⟨hab, hb, hbits⟩
    refine ⟨hab, hb, Nat.eq_of_testBit_eq fun i => ?_⟩
    rw [BitVec.testBit_toNat, hbits, testBit_two_pow_sub_two_pow hab.le]
  · rintro ⟨hab, hb, hnat⟩
    refine ⟨hab, hb, fun i => ?_⟩
    rw [← BitVec.testBit_toNat, hnat, testBit_two_pow_sub_two_pow hab.le]

/-- Adding one to a mask carries through all of its ones. -/
theorem isMask_iff : isMask v = true ↔ ∃ b, 0 < b ∧ b ≤ 64 ∧ v.toNat = 2 ^ b - 1 := by
  have hlt := v.isLt
  have hcarry : (v + 1) &&& v = 0 ↔ (v.toNat + 1).isPowerOfTwo := by
    rw [← Nat.and_sub_one_eq_zero_iff_isPowerOfTwo (Nat.add_one_ne_zero _), Nat.add_sub_cancel,
      ← BitVec.toNat_inj, BitVec.toNat_and, BitVec.toNat_add]
    by_cases hfull : v.toNat + 1 = 2 ^ 64
    · have hmask : v.toNat = 2 ^ 64 - 1 := by omega
      rw [hmask]
      decide
    · have hone : (1 : BitVec 64).toNat = 1 := rfl
      rw [hone, Nat.mod_eq_of_lt (by omega)]
      rfl
  have hzero : v ≠ 0 ↔ 0 < v.toNat := by
    rw [Nat.pos_iff_ne_zero, Ne, Ne, ← BitVec.toNat_inj]
    rfl
  simp only [isMask, Bool.and_eq_true, decide_eq_true_eq, beq_iff_eq, hcarry, hzero]
  constructor
  · rintro ⟨hpos, b, hb⟩
    have hle : 2 ^ b ≤ 2 ^ 64 := by omega
    refine ⟨b, Nat.pos_of_ne_zero ?_, (Nat.pow_le_pow_iff_right (by decide)).mp hle, by omega⟩
    rintro rfl
    omega
  · rintro ⟨b, hb, _, hnat⟩
    have hlarge : 2 ^ 1 ≤ 2 ^ b := Nat.pow_le_pow_right (by decide) hb
    exact ⟨by omega, b, by omega⟩

theorem exists_lowest (hv : v ≠ 0) : ∃ a q, v.toNat = 2 ^ (a + 1) * q + 2 ^ a := by
  have hnat : v.toNat ≠ 0 := fun h => hv (BitVec.eq_of_toNat_eq h)
  obtain ⟨a, m, ⟨q, rfl⟩, hm⟩ := Nat.exists_eq_two_pow_mul_odd hnat
  exact ⟨a, q, by rw [hm, Nat.mul_add, Nat.mul_one, ← Nat.mul_assoc, ← Nat.pow_succ]⟩

theorem toNat_filled {q : Nat} (h : v.toNat = 2 ^ (a + 1) * q + 2 ^ a) :
    ((v - 1) ||| v).toNat = 2 ^ (a + 1) * q + (2 ^ (a + 1) - 1) := by
  have hlt := v.isLt
  have hpos : 0 < 2 ^ a := Nat.two_pow_pos a
  have hsucc : 2 ^ (a + 1) = 2 * 2 ^ a := by rw [Nat.pow_succ, Nat.mul_comm]
  have hpred : (v - 1).toNat = 2 ^ (a + 1) * q + (2 ^ a - 1) := by
    have hone : (1 : BitVec 64).toNat = 1 := rfl
    rw [BitVec.toNat_sub, hone]
    omega
  rw [BitVec.toNat_or, hpred, h]
  refine Nat.eq_of_testBit_eq fun i => ?_
  rw [Nat.testBit_or, Nat.testBit_two_pow_mul_add _ (by omega),
    Nat.testBit_two_pow_mul_add _ (by omega), Nat.testBit_two_pow_mul_add _ (by omega)]
  by_cases hi : i < a + 1
  · rw [if_pos hi, if_pos hi, if_pos hi, Nat.testBit_two_pow_sub_one, Nat.testBit_two_pow,
      Nat.testBit_two_pow_sub_one, ← Bool.decide_or, decide_eq_decide]
    omega
  · rw [if_neg hi, if_neg hi, if_neg hi, Bool.or_self]

theorem isShiftedMask_iff : isShiftedMask v = true ↔ ∃ a b, IsRun v a b := by
  simp only [isShiftedMask, Bool.and_eq_true, decide_eq_true_eq, isMask_iff, isRun_iff]
  constructor
  · rintro ⟨hne, b, _, hb, hmask⟩
    obtain ⟨a, q, hlowest⟩ := exists_lowest hne
    rw [toNat_filled hlowest] at hmask
    have hpos : 0 < 2 ^ (a + 1) := Nat.two_pow_pos _
    have hsucc : 2 ^ (a + 1) = 2 * 2 ^ a := by rw [Nat.pow_succ, Nat.mul_comm]
    have hle : 2 ^ (a + 1) ≤ 2 ^ b := by omega
    exact ⟨a, b, (Nat.pow_le_pow_iff_right (by decide)).mp hle, hb, by omega⟩
  · rintro ⟨a, b, hab, hb, hnat⟩
    have hsplit : 2 ^ b = 2 ^ (a + 1) * 2 ^ (b - (a + 1)) := by
      rw [← Nat.pow_add, Nat.add_sub_cancel' hab]
    have hpos : 0 < 2 ^ (b - (a + 1)) := Nat.two_pow_pos _
    have hsucc : 2 ^ (a + 1) = 2 * 2 ^ a := by rw [Nat.pow_succ, Nat.mul_comm]
    have hlow : 0 < 2 ^ a := Nat.two_pow_pos a
    have hle : 2 ^ (a + 1) ≤ 2 ^ b := Nat.pow_le_pow_right (by decide) hab
    have hlowest : v.toNat = 2 ^ (a + 1) * (2 ^ (b - (a + 1)) - 1) + 2 ^ a := by
      rw [Nat.mul_sub, ← hsplit]
      omega
    refine ⟨?_, b, by omega, hb, ?_⟩
    · rintro rfl
      have hzero : (0 : BitVec 64).toNat = 0 := rfl
      omega
    · rw [toNat_filled hlowest, Nat.mul_sub, ← hsplit]
      omega

end Masks

section Counts

variable {v : BitVec 64} {a b : Nat}

theorem ctz_eq (hone : v.getLsbD a = true) (hzeros : ∀ i < a, v.getLsbD i = false) :
    v.ctz.toNat = a := by
  have hne : v ≠ 0 := by
    rintro rfl
    simp at hone
  have hfirst := BitVec.getLsbD_true_ctz_of_ne_zero hne
  rcases Nat.lt_trichotomy v.ctz.toNat a with hlt | heq | hgt
  · rw [hzeros _ hlt] at hfirst
    cases hfirst
  · exact heq
  · rw [BitVec.getLsbD_false_of_lt_ctz hgt] at hone
    cases hone

variable (h : IsRun v a b)

include h

theorem IsRun.ctz : v.ctz.toNat = a := by
  have hab := h.nonempty
  refine ctz_eq ?_ fun i hi => ?_
  · rw [h.bits]
    exact decide_eq_true ⟨le_refl a, hab⟩
  · rw [h.bits]
    exact decide_eq_false (by omega)

/-- The length of a run is the number of ones at the low end after it is moved there. -/
theorem IsRun.length (hpart : b - a < 64) : (~~~(v >>> a)).ctz.toNat = b - a := by
  have hab := h.nonempty
  have hbit : ∀ i < 64, (~~~(v >>> a)).getLsbD i = decide (b - a ≤ i) := by
    intro i hi
    rw [BitVec.getLsbD_not, BitVec.getLsbD_ushiftRight, h.bits]
    simp only [hi, decide_true, Bool.true_and, ← decide_not, decide_eq_decide]
    omega
  refine ctz_eq ?_ fun i hi => ?_
  · rw [hbit _ hpart]
    exact decide_eq_true (le_refl _)
  · rw [hbit i (by omega)]
    exact decide_eq_false (by omega)

theorem IsRun.clz : v.clz.toNat = 64 - b := by
  have hab := h.nonempty
  have hb := h.fits
  have hlast : v.getLsbD (b - 1) = true := by
    rw [h.bits]
    exact decide_eq_true (by omega)
  have hne : v ≠ 0 := by
    rintro rfl
    simp at hlast
  have hfirst := BitVec.getLsbD_true_clz_of_ne_zero (by decide : 0 < 64) hne
  rw [h.bits, decide_eq_true_eq] at hfirst
  have hle : v.clz.toNat ≤ 64 := by simpa using BitVec.le_def.mp (BitVec.clz_le (x := v))
  -- the highest one is not among the zeros that are counted
  have hhigh : b - 1 < 64 - v.clz.toNat := by
    by_contra hout
    have hsmall : v.toNat < 2 ^ (b - 1) :=
      BitVec.toNat_lt_two_pow_sub_clz.trans_le (Nat.pow_le_pow_right (by decide) (by omega))
    rw [← BitVec.testBit_toNat, Nat.testBit_lt_two_pow hsmall] at hlast
    cases hlast
  omega

/-- A run ends where only zeros follow. -/
theorem IsRun.le_of_low {size : Nat} (hlow : ∀ i, size ≤ i → v.getLsbD i = false) : b ≤ size := by
  have hab := h.nonempty
  by_contra hout
  have hlast := h.bits (b - 1)
  rw [hlow _ (by omega), eq_comm, decide_eq_false_iff_not] at hlast
  omega

end Counts

section Element

variable {v : BitVec 64} {size : Nat}

theorem getLsbD_low {n : Nat} (hn : n ≤ 64) (i : Nat) :
    (BitVec.allOnes 64 >>> (64 - n)).getLsbD i = decide (i < n) := by
  rw [BitVec.getLsbD_ushiftRight, BitVec.getLsbD_allOnes, decide_eq_decide]
  omega

theorem getLsbD_ones (hsize : size ≤ 64) (i : Nat) :
    (v &&& BitVec.allOnes 64 >>> (64 - size)).getLsbD i = (v.getLsbD i && decide (i < size)) := by
  rw [BitVec.getLsbD_and, getLsbD_low hsize]

theorem getLsbD_zeros (hsize : size ≤ 64) (i : Nat) :
    (~~~((v &&& BitVec.allOnes 64 >>> (64 - size)) |||
      ~~~(BitVec.allOnes 64 >>> (64 - size)))).getLsbD i = (!v.getLsbD i && decide (i < size)) := by
  rw [BitVec.getLsbD_not, BitVec.getLsbD_or, getLsbD_ones hsize, BitVec.getLsbD_not,
    getLsbD_low hsize]
  by_cases hi : i < size
  · have hin : i < 64 := by omega
    simp [hi, hin]
  · simp [hi]

theorem rotated_mod {i a : Nat} (hi : i < size) (ha : a ≤ size) :
    (i + (size - a)) % size = if a ≤ i then i - a else i + (size - a) := by
  split
  · rename_i hle
    have hback : i + (size - a) = i - a + size := by omega
    rw [hback, Nat.add_mod_right, Nat.mod_eq_of_lt (by omega)]
  · exact Nat.mod_eq_of_lt (by omega)

/-- The runs of a word that has only the low `size` bits. -/
theorem isRun_low_iff {x : BitVec 64} {f : Nat → Bool} {a b : Nat} (hsize : size ≤ 64)
    (hx : ∀ i, x.getLsbD i = (f i && decide (i < size))) :
    IsRun x a b ↔ a < b ∧ b ≤ size ∧ ∀ i < size, f i = decide (a ≤ i ∧ i < b) := by
  constructor
  · intro hrun
    refine ⟨hrun.nonempty, hrun.le_of_low fun i hi => ?_, fun i hi => ?_⟩
    · rw [hx, decide_eq_false (by omega), Bool.and_false]
    · rw [← hrun.bits, hx, decide_eq_true hi, Bool.and_true]
  · rintro ⟨hab, hb, hbits⟩
    refine ⟨hab, hb.trans hsize, fun i => ?_⟩
    rw [hx]
    by_cases hi : i < size
    · rw [hbits i hi, decide_eq_true hi, Bool.and_true]
    · rw [decide_eq_false hi, Bool.and_false, eq_comm, decide_eq_false_iff_not]
      omega

/-- What is found is a rotated run of ones, neither empty nor full. -/
theorem run?_eq_some (hsize : size ≤ 64) (hone : ∃ i < size, v.getLsbD i = true)
    (hzero : ∃ i < size, v.getLsbD i = false) {rot ones : Nat}
    (h : run? size v = some (rot, ones)) : rot ≤ size ∧ 0 < ones ∧ ones < size ∧
      ∀ i < size, v.getLsbD i = decide ((i + (size - rot)) % size < ones) := by
  obtain ⟨i₁, hi₁, hone⟩ := hone
  obtain ⟨i₀, hi₀, hzero⟩ := hzero
  simp only [run?] at h
  split at h
  · rename_i hmask
    obtain ⟨a, b, hrun⟩ := isShiftedMask_iff.mp hmask
    obtain ⟨hab, hb, hbits⟩ := (isRun_low_iff hsize (getLsbD_ones hsize)).mp hrun
    -- the run is not the whole element, because of the zero
    rw [hbits i₀ hi₀, decide_eq_false_iff_not] at hzero
    rw [hrun.ctz, hrun.length (by omega)] at h
    cases h
    refine ⟨by omega, by omega, by omega, fun i hi => ?_⟩
    rw [hbits i hi, rotated_mod hi (by omega), decide_eq_decide]
    split <;> omega
  · split at h
    · rename_i hmask
      obtain ⟨a, b, hrun⟩ := isShiftedMask_iff.mp hmask
      obtain ⟨hab, hb, hbits⟩ := (isRun_low_iff hsize (getLsbD_zeros hsize)).mp hrun
      have hflipped := hbits i₁ hi₁
      rw [hone, Bool.not_true, eq_comm, decide_eq_false_iff_not] at hflipped
      rw [hrun.ctz, hrun.clz] at h
      cases h
      refine ⟨by omega, by omega, by omega, fun i hi => ?_⟩
      rw [← Bool.not_not (v.getLsbD i), hbits i hi, rotated_mod hi (by omega), ← decide_not,
        decide_eq_decide]
      split <;> omega
    · cases h

/-- A rotated run of ones is found: it stands together, or it goes around the end and the zeros
stand together. -/
theorem exists_run? (hsize : size ≤ 64) {ones rot : Nat} (hpos : 0 < ones) (hlt : ones < size)
    (h : ∀ i < size, v.getLsbD i = decide ((i + rot) % size < ones)) :
    ∃ found, run? size v = some found := by
  have hrot : rot % size < size := Nat.mod_lt rot (by omega)
  obtain ⟨a, ha, hback⟩ : ∃ a ≤ size, rot % size = size - a :=
    ⟨size - rot % size, by omega, by omega⟩
  have hbits : ∀ i < size, v.getLsbD i =
      decide ((if a ≤ i then i - a else i + (size - a)) < ones) := by
    intro i hi
    rw [h i hi, ← Nat.add_mod_mod, hback, rotated_mod hi ha]
  simp only [run?]
  by_cases htogether : a + ones ≤ size
  · have hrun := (isRun_low_iff hsize (getLsbD_ones (v := v) hsize)).mpr
      ⟨(by omega : a < a + ones), htogether, fun i hi => by
        rw [hbits i hi, decide_eq_decide]
        split <;> omega⟩
    rw [if_pos (isShiftedMask_iff.mpr ⟨_, _, hrun⟩)]
    exact ⟨_, rfl⟩
  · have hrun := (isRun_low_iff hsize (getLsbD_zeros (v := v) hsize)).mpr
      ⟨(by omega : a + ones - size < a), ha, fun i hi => by
        rw [hbits i hi, ← decide_not, decide_eq_decide]
        split <;> omega⟩
    split
    · exact ⟨_, rfl⟩
    · rw [if_pos (isShiftedMask_iff.mpr ⟨_, _, hrun⟩)]
      exact ⟨_, rfl⟩

end Element

/-- The bits of a word come again after every `size` bits. -/
def Repeats (v : BitVec 64) (size : Nat) : Prop :=
  ∀ i, i + size < 64 → v.getLsbD (i + size) = v.getLsbD i

section Halving

variable {v : BitVec 64} {size half : Nat}

/-- What repeats is determined by the first element. -/
theorem Repeats.getLsbD (h : Repeats v size) (hsize : 0 < size) {i : Nat} (hi : i < 64) :
    v.getLsbD i = v.getLsbD (i % size) := by
  induction i using Nat.strong_induction_on with
  | _ i ih =>
      by_cases hlt : i < size
      · rw [Nat.mod_eq_of_lt hlt]
      · have hback : i - size + size = i := by omega
        have hstep := h (i - size) (by omega)
        rw [hback] at hstep
        rw [hstep, ih (i - size) (by omega) (by omega), ← Nat.mod_eq_sub_mod (by omega)]

theorem Repeats.of_dvd (h : Repeats v half) (hpos : 0 < half) (hdvd : half ∣ size) :
    Repeats v size := by
  obtain ⟨c, rfl⟩ := hdvd
  intro i hi
  have hlater := h.getLsbD hpos hi
  rw [Nat.add_mul_mod_self_left] at hlater
  rw [hlater, ← h.getLsbD hpos (by omega)]

theorem halves_eq_iff (hhalf : half < 64) :
    v &&& ((1 : BitVec 64) <<< half - 1) = v >>> half &&& ((1 : BitVec 64) <<< half - 1) ↔
      ∀ i < half, v.getLsbD (i + half) = v.getLsbD i := by
  have hmask : ∀ i, ((1 : BitVec 64) <<< half - 1).getLsbD i = decide (i < half) := by
    intro i
    have hpow : 2 ^ half < 2 ^ 64 := Nat.pow_lt_pow_right (by decide) hhalf
    have hpos : 0 < 2 ^ half := Nat.two_pow_pos half
    have hone : (1 : BitVec 64).toNat = 1 := rfl
    have hnat : ((1 : BitVec 64) <<< half - 1).toNat = 2 ^ half - 1 := by
      rw [BitVec.toNat_sub, BitVec.toNat_shiftLeft, hone, Nat.one_shiftLeft,
        Nat.mod_eq_of_lt hpow]
      omega
    rw [← BitVec.testBit_toNat, hnat, Nat.testBit_two_pow_sub_one]
  constructor
  · intro h i hi
    have hbit := congrArg (·.getLsbD i) h
    simp only [BitVec.getLsbD_and, hmask, hi, decide_true, Bool.and_true,
      BitVec.getLsbD_ushiftRight] at hbit
    rw [hbit, Nat.add_comm]
  · intro h
    refine BitVec.eq_of_getLsbD_eq fun i _ => ?_
    rw [BitVec.getLsbD_and, BitVec.getLsbD_and, hmask, BitVec.getLsbD_ushiftRight,
      Nat.add_comm half]
    by_cases hi : i < half
    · rw [h i hi]
    · rw [decide_eq_false hi, Bool.and_false, Bool.and_false]

theorem Repeats.halve (h : Repeats v (2 * half))
    (hhalves : ∀ i < half, v.getLsbD (i + half) = v.getLsbD i) : Repeats v half := by
  intro i hi
  by_cases hhalf : half = 0
  · rw [hhalf, Nat.add_zero]
  have hmod : i % (2 * half) < 2 * half := Nat.mod_lt i (by omega)
  rw [h.getLsbD (by omega) hi, h.getLsbD (i := i) (by omega) (by omega), ← Nat.mod_add_mod]
  by_cases hlow : i % (2 * half) < half
  · rw [Nat.mod_eq_of_lt (a := i % (2 * half) + half) (by omega)]
    exact hhalves _ hlow
  · have hwrap : (i % (2 * half) + half) % (2 * half) = i % (2 * half) - half := by
      rw [Nat.mod_eq_sub_mod (by omega), Nat.mod_eq_of_lt (by omega)]
      omega
    have hback : i % (2 * half) - half + half = i % (2 * half) := by omega
    rw [hwrap, ← hhalves _ (by omega), hback]

/-- Halving ends at an element that repeats and whose half does not. -/
theorem elementSize_spec {log : Nat} (hpos : 0 < log) (hlog : log ≤ 6)
    (h : Repeats v (2 ^ log)) : ∃ l, 0 < l ∧ l ≤ log ∧ elementSize v log = 2 ^ l ∧
      Repeats v (2 ^ l) ∧ (l = 1 ∨ ¬ Repeats v (2 ^ (l - 1))) := by
  induction log with
  | zero => omega
  | succ log ih =>
      cases log with
      | zero => exact ⟨1, by omega, by omega, rfl, h, .inl rfl⟩
      | succ log =>
          have hhalf : 2 ^ (log + 1) ≤ 2 ^ 5 := Nat.pow_le_pow_right (by decide) (by omega)
          have hiff := halves_eq_iff (v := v) (show 2 ^ (log + 1) < 64 by omega)
          simp only [elementSize, Nat.one_shiftLeft]
          split
          · rename_i heq
            have hsize : 2 ^ (log + 2) = 2 * 2 ^ (log + 1) := by rw [Nat.pow_succ, Nat.mul_comm]
            rw [hsize] at h
            obtain ⟨l, hl, hle, hrest⟩ := ih (by omega) (by omega) (h.halve (hiff.mp heq))
            exact ⟨l, hl, by omega, hrest⟩
          · rename_i hne
            refine ⟨log + 2, by omega, le_refl _, rfl, h, .inr fun hrepeats => hne ?_⟩
            exact hiff.mpr fun i hi => hrepeats i (by simpa using by omega)

/-- The bit of a rotated run at `j`, before the rotation. -/
theorem getLsbD_rotated {ones rot j : Nat} (hsize : size ≤ 64)
    (h : ∀ i < 64, v.getLsbD i = decide ((i + rot) % size < ones)) (hj : j < size) :
    v.getLsbD ((j + (size - rot % size)) % size) = decide (j < ones) := by
  have hrot : rot % size < size := Nat.mod_lt rot (by omega)
  have hback : ((j + (size - rot % size)) % size + rot) % size = j := by
    rw [Nat.mod_add_mod, Nat.add_assoc, ← Nat.add_mod_mod, ← Nat.add_mod_mod (size - _) rot,
      Nat.sub_add_cancel hrot.le, Nat.mod_self, Nat.add_zero, Nat.mod_eq_of_lt hj]
  rw [h _ ((Nat.mod_lt _ (by omega)).trans_le hsize), hback]

theorem ne_of_rotated {ones rot : Nat} (hsize : size ≤ 64) (hpos : 0 < ones) (hones : ones < size)
    (h : ∀ i < 64, v.getLsbD i = decide ((i + rot) % size < ones)) :
    v ≠ 0 ∧ v ≠ BitVec.allOnes 64 := by
  constructor
  · rintro rfl
    have hone := getLsbD_rotated hsize h (hpos.trans hones)
    rw [decide_eq_true hpos] at hone
    simp at hone
  · rintro rfl
    have hzero := getLsbD_rotated hsize h hones
    have hin := (Nat.mod_lt (ones + (size - rot % size)) (by omega : size > 0)).trans_le hsize
    rw [decide_eq_false (lt_irrefl ones), BitVec.getLsbD_allOnes, decide_eq_true hin] at hzero
    cases hzero

/-- A rotated run repeats in no smaller element: somewhere a one would be followed by a zero one
element later. -/
theorem not_repeats_of_lt {ones rot m : Nat} (hm : 0 < m) (hdvd : m ∣ size) (hlt : m < size)
    (hsize : size ≤ 64) (hpos : 0 < ones) (hones : ones < size)
    (h : ∀ i < 64, v.getLsbD i = decide ((i + rot) % size < ones)) : ¬ Repeats v m := by
  intro hrepeats
  have hbit := fun j hj => getLsbD_rotated (j := j) hsize h hj
  have hshift : ∀ j, j + m < size → decide (j + m < ones) = decide (j < ones) := by
    intro j hj
    rw [← hbit j (by omega), ← hbit (j + m) hj,
      hrepeats.getLsbD hm ((Nat.mod_lt _ (by omega)).trans_le hsize),
      hrepeats.getLsbD hm ((Nat.mod_lt (j + (size - rot % size)) (by omega)).trans_le hsize),
      Nat.mod_mod_of_dvd _ hdvd, Nat.mod_mod_of_dvd _ hdvd, Nat.add_right_comm, Nat.add_mod_right]
  by_cases hle : m ≤ ones
  · have hend := hshift (ones - m) (by omega)
    rw [Nat.sub_add_cancel hle] at hend
    simp only [decide_eq_decide] at hend
    omega
  · have hstart := hshift 0 (by omega)
    simp only [decide_eq_decide] at hstart
    omega

theorem elementSize_eq {l ones rot : Nat} (hl : 0 < l) (hle : l ≤ 6) (hpos : 0 < ones)
    (hlt : ones < 2 ^ l) (h : ∀ i < 64, v.getLsbD i = decide ((i + rot) % 2 ^ l < ones)) :
    elementSize v 6 = 2 ^ l := by
  have hrepeats : Repeats v (2 ^ l) := by
    intro i hi
    rw [h _ hi, h i (by omega), Nat.add_right_comm, Nat.add_mod_right]
  have hsize : 2 ^ l ≤ 2 ^ 6 := Nat.pow_le_pow_right (by decide) hle
  have hwhole : Repeats v (2 ^ 6) := fun i hi => absurd hi (by omega)
  obtain ⟨m, hm, _, heq, hends, hsmallest⟩ := elementSize_spec (by decide) (le_refl 6) hwhole
  rw [heq]
  rcases Nat.lt_trichotomy m l with hsmall | rfl | hlarge
  · have hlt' : 2 ^ m < 2 ^ l := Nat.pow_lt_pow_right (by decide) hsmall
    exact absurd hends (not_repeats_of_lt (Nat.two_pow_pos m) (Nat.pow_dvd_pow 2 hsmall.le) hlt'
      hsize hpos hlt h)
  · rfl
  · rcases hsmallest with hone | hnot
    · omega
    · exact absurd (hrepeats.of_dvd (Nat.two_pow_pos l) (Nat.pow_dvd_pow 2 (by omega))) hnot

end Halving

end Codegen.A64.BitmaskImm
