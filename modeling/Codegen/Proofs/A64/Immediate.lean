import Codegen.Proofs.A64.Synonyms

/-!
Immediates are accepted exactly when their field can hold them. What the contents of a field stand
for is said once for each field, as a function from bit vectors of its width to integers; a check of
values is exact when it accepts the values of this function, and when what it makes of a value holds
contents that stand for it.
-/
namespace Codegen.A64

section Exact

/-- The check that gave `result` for `v` is exact. `stands` is what the contents of the field stand
for, and `Holds` says which contents there are in what was made of the value. -/
structure Exact {φ ρ : Type} (stands : φ → Int) (Holds : ρ → φ → Prop) (v : Int)
    (result : Option ρ) : Prop where
  accepts : (∃ r, result = some r) ↔ ∃ f, stands f = v
  holds : ∀ r, result = some r → ∃ f, Holds r f ∧ stands f = v

variable {φ ρ σ : Type} {stands : φ → Int} {Holds : ρ → φ → Prop} {v : Int} {result : Option ρ}

theorem Exact.intro (hsome : ∀ r, result = some r → ∃ f, Holds r f ∧ stands f = v)
    (hnone : result = none → ∀ f, stands f ≠ v) : Exact stands Holds v result := by
  refine ⟨⟨?_, ?_⟩, hsome⟩
  · rintro ⟨r, hr⟩
    obtain ⟨f, _, hf⟩ := hsome r hr
    exact ⟨f, hf⟩
  · rintro ⟨f, hf⟩
    cases hresult : result with
    | none => exact absurd hf (hnone hresult f)
    | some r => exact ⟨r, rfl⟩

theorem Exact.map {Holds' : σ → φ → Prop} {g : ρ → σ} (h : Exact stands Holds v result)
    (hholds : ∀ r f, Holds r f → Holds' (g r) f) : Exact stands Holds' v (result.map g) := by
  refine .intro ?_ ?_
  · intro s hs
    obtain ⟨r, hr, rfl⟩ := Option.map_eq_some_iff.mp hs
    obtain ⟨f, hf, hv⟩ := h.holds r hr
    exact ⟨f, hholds r f hf, hv⟩
  · intro hnone f hf
    obtain ⟨r, hr⟩ := h.accepts.mpr ⟨f, hf⟩
    simp [hr] at hnone

/-- A field in units of `scale` holds the multiples of it. -/
theorem Exact.scaled {check : Int → Option ρ} {scale : Int} (hscale : 0 < scale)
    (h : Exact stands Holds (v / scale) (check (v / scale))) :
    Exact (fun f => scale * stands f) Holds v
      (if v % scale ≠ 0 then none else check (v / scale)) := by
  by_cases hdvd : v % scale = 0
  · have hv : scale * (v / scale) = v := Int.mul_ediv_cancel_of_emod_eq_zero hdvd
    rw [if_neg (not_not_intro hdvd)]
    refine .intro ?_ ?_
    · intro r hr
      obtain ⟨f, hf, hstands⟩ := h.holds r hr
      exact ⟨f, hf, by rw [hstands, hv]⟩
    · intro hnone f hf
      have hquot : stands f = v / scale := by
        rw [← hf, Int.mul_ediv_cancel_left _ (by omega)]
      obtain ⟨r, hr⟩ := h.accepts.mpr ⟨f, hquot⟩
      rw [hr] at hnone
      cases hnone
  · rw [if_pos hdvd]
    refine .intro (fun r hr => by cases hr) ?_
    intro _ f hf
    exact hdvd (by rw [← hf, Int.mul_emod_right])

end Exact

section Masks

theorem and_shifted_mask (x k l : Nat) :
    x &&& ((2 ^ k - 1) * 2 ^ l) = (x / 2 ^ l) % 2 ^ k * 2 ^ l := by
  rw [← Nat.shiftLeft_eq, ← Nat.shiftLeft_eq, ← Nat.shiftRight_eq_div_pow]
  apply Nat.eq_of_testBit_eq
  intro i
  by_cases h : l ≤ i
  · simp [Nat.testBit_shiftLeft, h, Bool.and_comm]
  · simp [Nat.testBit_shiftLeft, h]

/-- The values that have nothing outside of a mask of `k` bits from bit `l` on are the numbers of
`k` bits, shifted by `l`. -/
theorem and_not_mask_eq_zero {v mask : UInt64} {k l : Nat}
    (hmask : mask.toNat = (2 ^ k - 1) * 2 ^ l) :
    v &&& ~~~mask = 0 ↔ ∃ b : BitVec k, v.toNat = b.toNat * 2 ^ l := by
  rw [and_not_eq_zero_iff, hmask, and_shifted_mask]
  constructor
  · intro h
    exact ⟨.ofNat k (v.toNat / 2 ^ l), by rw [BitVec.toNat_ofNat, h]⟩
  · rintro ⟨b, hv⟩
    rw [hv, Nat.mul_div_cancel _ (Nat.two_pow_pos l), Nat.mod_eq_of_lt b.isLt]

theorem toUInt16_shiftRight {v shift : UInt64} {b : Nat} (hb : b < 2 ^ 16)
    (hshift : shift.toNat < 64) (hv : v.toNat = b * 2 ^ shift.toNat) :
    (v >>> shift).toUInt16.toNat = b := by
  rw [UInt64.toNat_toUInt16, UInt64.toNat_shiftRight, Nat.mod_eq_of_lt hshift, hv,
    Nat.shiftRight_eq_div_pow, Nat.mul_div_cancel _ (Nat.two_pow_pos _), Nat.mod_eq_of_lt hb]

end Masks

section Constants

variable {v : UInt64}

namespace Imm12

def stands (f : BitVec 12 × Bool) : Int := f.1.toNat * 2 ^ (if f.2 then 12 else 0)

def Holds (imm : Imm12) (f : BitVec 12 × Bool) : Prop :=
  imm.bits.toNat = f.1.toNat ∧ imm.shift12 = f.2 ∧ imm.value.toNat = stands f

theorem holds_low {b : BitVec 12} (hv : v.toNat = b.toNat * 2 ^ 0) :
    Holds { bits := v.toUInt16 } (b, false) ∧ stands (b, false) = v.toNat := by
  have hlt := b.isLt
  have hbits : v.toUInt16.toNat = b.toNat := by
    rw [UInt64.toNat_toUInt16]
    omega
  refine ⟨⟨hbits, rfl, ?_⟩, ?_⟩
  · simp only [value, Bool.false_eq_true, if_false, UInt16.toNat_toUInt64, hbits]
    simp [stands]
  · simp [stands, hv]

theorem holds_high {b : BitVec 12} (hv : v.toNat = b.toNat * 2 ^ 12) :
    Holds { bits := (v >>> 12).toUInt16, shift12 := true } (b, true) ∧
      stands (b, true) = v.toNat := by
  have hlt := b.isLt
  have hbits : (v >>> 12).toUInt16.toNat = b.toNat :=
    toUInt16_shiftRight (by omega) (by decide) hv
  refine ⟨⟨hbits, rfl, ?_⟩, ?_⟩
  · simp only [value, if_true, UInt64.toNat_shiftLeft, UInt16.toNat_toUInt64, hbits,
      Nat.shiftLeft_eq]
    simp [stands]
    omega
  · simp [stands, hv]

protected theorem exact (v : UInt64) : Exact stands Holds v.toNat (ofValue? v) := by
  have hlow : v &&& ~~~0xfff = 0 ↔ ∃ b : BitVec 12, v.toNat = b.toNat * 2 ^ 0 :=
    and_not_mask_eq_zero rfl
  have hhigh : v &&& ~~~0xfff000 = 0 ↔ ∃ b : BitVec 12, v.toNat = b.toNat * 2 ^ 12 :=
    and_not_mask_eq_zero rfl
  unfold ofValue?
  split
  · rename_i hmask
    refine .intro ?_ (fun h => by cases h)
    rintro _ ⟨⟩
    obtain ⟨b, hb⟩ := hlow.mp hmask
    exact ⟨(b, false), holds_low hb⟩
  · rename_i hout
    split
    · rename_i hmask
      refine .intro ?_ (fun h => by cases h)
      rintro _ ⟨⟩
      obtain ⟨b, hb⟩ := hhigh.mp hmask
      exact ⟨(b, true), holds_high hb⟩
    · rename_i hout'
      refine .intro (fun _ h => by cases h) ?_
      rintro _ ⟨b, shift12⟩ hf
      cases shift12 with
      | false =>
          refine hout (hlow.mpr ⟨b, ?_⟩)
          simp [stands] at hf
          omega
      | true =>
          refine hout' (hhigh.mpr ⟨b, ?_⟩)
          simp [stands] at hf
          omega

end Imm12

namespace MoveWide

def stands (f : BitVec 16 × BitVec 2) : Int := f.1.toNat * 2 ^ (16 * f.2.toNat)

def Holds (imm : MoveWide) (f : BitVec 16 × BitVec 2) : Prop :=
  imm.bits.toNat = f.1.toNat ∧ imm.shift.toNat = f.2.toNat ∧ imm.value.toNat = stands f

theorem outside_iff {quarter : Nat} (h : quarter < 4) :
    v &&& ~~~(0xffff <<< UInt64.ofNat (16 * quarter)) = 0 ↔
      ∃ b : BitVec 16, v.toNat = b.toNat * 2 ^ (16 * quarter) := by
  have hmask : ∀ quarter < 4, ((0xffff : UInt64) <<< UInt64.ofNat (16 * quarter)).toNat =
      (2 ^ 16 - 1) * 2 ^ (16 * quarter) := by decide
  exact and_not_mask_eq_zero (hmask quarter h)

theorem holds_quarter {b : BitVec 16} {quarter : BitVec 2}
    (hv : v.toNat = b.toNat * 2 ^ (16 * quarter.toNat)) :
    Holds { bits := (v >>> UInt64.ofNat (16 * quarter.toNat)).toUInt16
            shift := UInt8.ofNat quarter.toNat } (b, quarter) ∧
      stands (b, quarter) = v.toNat := by
  have hquarter := quarter.isLt
  have hlsb : (UInt64.ofNat (16 * quarter.toNat)).toNat = 16 * quarter.toNat := by
    rw [UInt64.toNat_ofNat']
    omega
  have hbits : (v >>> UInt64.ofNat (16 * quarter.toNat)).toUInt16.toNat = b.toNat :=
    toUInt16_shiftRight b.isLt (by omega) (hlsb.symm ▸ hv)
  have hshift : (UInt8.ofNat quarter.toNat).toNat = quarter.toNat := by
    rw [UInt8.toNat_ofNat']
    omega
  have hshifted : (UInt8.ofNat quarter.toNat * 16).toNat = 16 * quarter.toNat := by
    rw [UInt8.toNat_mul, hshift]
    simp
    omega
  have hstands : stands (b, quarter) = v.toNat := by simp [stands, hv]
  refine ⟨⟨hbits, hshift, ?_⟩, hstands⟩
  rw [hstands, value, lsb, hshifted, hbits, Nat.shiftLeft_eq, ← hv, UInt64.ofNat_toNat]

protected theorem exact (v : UInt64) : Exact stands Holds v.toNat (ofValue? v) := by
  refine .intro ?_ ?_
  · intro imm himm
    obtain ⟨quarter, hmem, himm⟩ := List.exists_of_findSome?_eq_some himm
    obtain ⟨q, rfl⟩ : ∃ q : BitVec 2, q.toNat = quarter := by
      simp at hmem
      exact ⟨.ofNat 2 quarter, by rw [BitVec.toNat_ofNat]; omega⟩
    dsimp only at himm
    split at himm
    · rename_i hmask
      cases himm
      obtain ⟨b, hb⟩ := (outside_iff q.isLt).mp hmask
      exact ⟨(b, q), holds_quarter hb⟩
    · cases himm
  · intro hnone f hf
    have hmem : f.2.toNat ∈ [0, 1, 2, 3] := by
      have hlt := f.2.isLt
      simp
      omega
    have hall := List.findSome?_eq_none_iff.mp hnone f.2.toNat hmem
    dsimp only at hall
    split at hall
    · cases hall
    · rename_i hout
      refine hout ((outside_iff f.2.isLt).mpr ⟨f.1, ?_⟩)
      rw [stands] at hf
      exact_mod_cast hf.symm

end MoveWide

end Constants

section Offsets

/-- The numbers that fit a field are those of its contents. -/
theorem toInt_ofInt_iff {width : Nat} (hwidth : 0 < width) {v : Int} :
    (BitVec.ofInt width v).toInt = v ↔ -(2 ^ (width - 1)) ≤ v ∧ v < 2 ^ (width - 1) := by
  constructor
  · intro h
    rw [← h]
    exact ⟨BitVec.le_toInt _, BitVec.toInt_lt⟩
  · rintro ⟨hlow, hhigh⟩
    exact BitVec.toInt_ofInt_eq_self hwidth hlow hhigh

theorem signedField?_exact {width : Nat} (hwidth : 0 < width) (v : Int) :
    Exact BitVec.toInt (fun (bits : Nat) (f : BitVec width) => bits = f.toNat) v
      (signedField? width v) := by
  have hhalf : ((1 <<< (width - 1) : Nat) : Int) = 2 ^ (width - 1) := by
    rw [Nat.one_shiftLeft]
    push_cast
    rfl
  have hfits : signedField? width v =
      if (BitVec.ofInt width v).toInt = v then some (signedField width v) else none := by
    simp only [signedField?, hhalf, toInt_ofInt_iff hwidth]
  rw [hfits]
  split
  · rename_i hv
    refine .intro ?_ (fun h => by cases h)
    rintro _ ⟨⟩
    exact ⟨.ofInt width v, rfl, hv⟩
  · rename_i hv
    refine .intro (fun _ h => by cases h) ?_
    rintro _ f rfl
    exact hv (by rw [BitVec.ofInt_toInt])

theorem SImm9.exact (v : Int64) :
    Exact BitVec.toInt (fun (imm : SImm9) (f : BitVec 9) =>
      imm.field = f.toNat ∧ imm.value.toInt = f.toInt) v.toInt (ofValue? v) := by
  refine .intro ?_ ?_
  · intro imm himm
    obtain ⟨hvalue, hlow, hhigh⟩ := value_bounds himm
    have hstands : (BitVec.ofInt 9 v.toInt).toInt = v.toInt :=
      (toInt_ofInt_iff (by decide)).mpr (by omega)
    exact ⟨.ofInt 9 v.toInt, ⟨by rw [field, hvalue]; rfl, by rw [hvalue, hstands]⟩, hstands⟩
  · intro hnone f hf
    have hlow := f.le_toInt
    have hhigh := f.toInt_lt
    rw [ofValue?, if_pos (by omega)] at hnone
    cases hnone

variable {ty : ValueType} {scale : Nat}

theorem bytes_bounds (h : ty.bytes = .ok scale) : 0 < scale ∧ scale ≤ 16 := by
  cases ty <;> cases h <;> decide

theorem UImm12.exact (h : ty.bytes = .ok scale) (v : Int64) : ∃ result,
    ofValue v ty = .ok result ∧
      Exact (fun f : BitVec 12 => scale * f.toNat) (fun imm f =>
        imm.ty = ty ∧ imm.field = .ok f.toNat ∧ imm.value.toNat = scale * f.toNat)
        v.toInt result := by
  obtain ⟨hpos, hle⟩ := bytes_bounds h
  simp only [ofValue, h, Checked.ok_bind]
  by_cases hout : v.toInt < 0 ∨ v.toInt % scale ≠ 0 ∨ 0xfff < v.toInt / scale
  · rw [if_pos hout]
    refine ⟨none, rfl, .intro (fun _ h => by cases h) ?_⟩
    intro _ f hf
    have hlt := f.isLt
    have hnonneg : (0 : Int) ≤ scale * f.toNat := Int.mul_nonneg (by omega) (by omega)
    rw [← hf, Int.mul_emod_right, Int.mul_ediv_cancel_left _ (by omega)] at hout
    omega
  · rw [if_neg hout]
    refine ⟨_, rfl, .intro ?_ (fun h => by cases h)⟩
    rintro _ ⟨⟩
    obtain ⟨n, hn⟩ := Int.eq_ofNat_of_zero_le (show 0 ≤ v.toInt by omega)
    rw [hn] at hout ⊢
    have hmul : scale * (n / scale) = n := Nat.mul_div_cancel' (Nat.dvd_of_mod_eq_zero (by omega))
    have hquot : n / scale < 2 ^ 12 := by omega
    have hfits : n ≤ 16 * 0xfff := hmul ▸ Nat.mul_le_mul hle (by omega)
    have hvalue : (UInt16.ofNat (n : Int).toNat).toNat = n := by
      rw [UInt16.toNat_ofNat', Int.toNat_natCast]
      omega
    refine ⟨.ofNatLT (n / scale) hquot, ⟨rfl, ?_, ?_⟩, ?_⟩
    · simp only [field, h, Checked.ok_bind, hvalue]
      rfl
    · simp only [hvalue, BitVec.toNat_ofNatLT, hmul]
    · rw [BitVec.toNat_ofNatLT, ← Int.natCast_mul, hmul]

theorem SImm7.exact (h : ty.bytes = .ok scale) (v : Int64) : ∃ result,
    ofValue v ty = .ok result ∧
      Exact (fun f : BitVec 7 => scale * f.toInt) (fun imm f =>
        imm.ty = ty ∧ imm.field = .ok f.toNat ∧ imm.value.toInt = scale * f.toInt)
        v.toInt result := by
  obtain ⟨hpos, hle⟩ := bytes_bounds h
  simp only [ofValue, h, Checked.ok_bind]
  by_cases hout : v.toInt.tmod scale ≠ 0 ∨ v.toInt.tdiv scale < -64 ∨ 63 < v.toInt.tdiv scale
  · rw [if_pos hout]
    refine ⟨none, rfl, .intro (fun _ h => by cases h) ?_⟩
    intro _ f hf
    have hlow := f.le_toInt
    have hhigh := f.toInt_lt
    rw [← hf, Int.mul_tmod_right, Int.mul_tdiv_cancel_left _ (by omega)] at hout
    omega
  · rw [if_neg hout]
    refine ⟨_, rfl, .intro ?_ (fun h => by cases h)⟩
    rintro _ ⟨⟩
    have hmul : scale * v.toInt.tdiv scale = v.toInt :=
      Int.mul_tdiv_cancel_of_tmod_eq_zero (by omega)
    generalize hq : v.toInt.tdiv scale = q at hout hmul
    have hstands : (BitVec.ofInt 7 q).toInt = q := (toInt_ofInt_iff (by decide)).mpr (by omega)
    -- the size is at most 16, so that sixteen bits are enough for the whole offset
    have hvalue : (Int16.ofInt v.toInt).toInt = v.toInt := by
      have hlow : (scale : Int) * -64 ≤ scale * q :=
        Int.mul_le_mul_of_nonneg_left (by omega) (by omega)
      have hhigh : (scale : Int) * q ≤ scale * 63 :=
        Int.mul_le_mul_of_nonneg_left (by omega) (by omega)
      exact Int16.toInt_ofInt_of_le (by omega) (by omega)
    refine ⟨.ofInt 7 q, ⟨rfl, ?_, ?_⟩, ?_⟩
    · simp only [field, h, Checked.ok_bind, scaledField, hvalue, hq]
      rfl
    · rw [hvalue, hstands, hmul]
    · rw [hstands, hmul]

theorem signedWords_exact {width : Nat} (hwidth : 0 < width) (v : Int) :
    Exact (fun f : BitVec width => 4 * f.toInt) (fun bits f => bits = f.toNat) v
      (if v % 4 ≠ 0 then none else signedField? width (v / 4)) :=
  .scaled (by decide) (signedField?_exact hwidth (v / 4))

theorem wordField_exact {width : Nat} (hwidth : 0 < width) (off : Int64) :
    Exact (fun f : BitVec width => 4 * f.toInt) (fun bits f => bits = f.toNat) off.toInt
      ((BranchTarget.resolved off).wordField width).toOption := by
  have hchecked : ((BranchTarget.resolved off).wordField width).toOption =
      if off.toInt % 4 ≠ 0 then none else signedField? width (off.toInt / 4) := by
    simp only [BranchTarget.wordField]
    split
    · rfl
    · cases signedField? width (off.toInt / 4) with
      | none => rfl
      | some bits => rfl
  rw [hchecked]
  exact signedWords_exact hwidth off.toInt

/-- The displacement of a load from the code is in the bits from bit 5 on. -/
theorem literal_exact {a : Access} {opc rt : Nat} (h : a.literal? = some opc) (hrt : rt < 32)
    (off : Int64) :
    Exact (fun f : BitVec 19 => 4 * f.toInt) (fun word f => field 5 19 word.toNat = f.toNat)
      off.toInt (Word.literal a rt off.toInt).toOption := by
  have hopc : opc < 4 := by
    unfold Access.literal? at h
    split at h
    · cases h
      decide
    · cases h
      decide
    · cases h
      decide
    · cases h
  have hchecked : (Word.literal a rt off.toInt).toOption =
      (if off.toInt % 4 ≠ 0 then none else signedField? 19 (off.toInt / 4)).map fun imm19 =>
        Word.pack [(opc, 30), (0b011, 27), (imm19, 5), (rt, 0)] := by
    simp only [Word.literal, h]
    split
    · rfl
    · cases signedField? 19 (off.toInt / 4) with
      | none => rfl
      | some bits => rfl
  rw [hchecked]
  refine (signedWords_exact (by decide) off.toInt).map ?_
  rintro _ f rfl
  have hpack : Word.pack [(opc, 30), (0b011, 27), (f.toNat, 5), (rt, 0)] =
      Word.pack [(opc, 30), (0b011, 27), (0, 24), (f.toNat, 5), (rt, 0)] := pack_congr (by simp)
  have hreads := reads_pack hpack (by simp [Tiles]; omega)
  simp only [Reads, Nat.reduceSub] at hreads
  exact hreads.2.2.2.1

end Offsets

/-- Every immediate and every displacement is accepted exactly when its field can hold it, and the
field is given contents that stand for the value; what is kept of the value in between is the whole
value. The fields are of twelve bits that may be shifted, of sixteen bits in one of four quarters,
of nine signed bits, of twelve bits or seven signed bits in units of the access size, and of 26 or
19 signed bits in units of a word. -/
theorem immediates_exact :
    (∀ v : UInt64, Exact Imm12.stands Imm12.Holds v.toNat (Imm12.ofValue? v)) ∧
    (∀ v : UInt64, Exact MoveWide.stands MoveWide.Holds v.toNat (MoveWide.ofValue? v)) ∧
    (∀ v : Int64, Exact BitVec.toInt (fun (imm : SImm9) (f : BitVec 9) =>
      imm.field = f.toNat ∧ imm.value.toInt = f.toInt) v.toInt (SImm9.ofValue? v)) ∧
    (∀ (v : Int64) (ty : ValueType) (scale : Nat), ty.bytes = .ok scale →
      (∃ result, UImm12.ofValue v ty = .ok result ∧
        Exact (fun f : BitVec 12 => scale * f.toNat) (fun imm f =>
          imm.ty = ty ∧ imm.field = .ok f.toNat ∧ imm.value.toNat = scale * f.toNat)
          v.toInt result) ∧
      (∃ result, SImm7.ofValue v ty = .ok result ∧
        Exact (fun f : BitVec 7 => scale * f.toInt) (fun imm f =>
          imm.ty = ty ∧ imm.field = .ok f.toNat ∧ imm.value.toInt = scale * f.toInt)
          v.toInt result)) ∧
    (∀ off : Int64, ∀ width ∈ [26, 19],
      Exact (fun f : BitVec width => 4 * f.toInt) (fun bits f => bits = f.toNat) off.toInt
        ((BranchTarget.resolved off).wordField width).toOption) ∧
    ∀ (off : Int64) (a : Access) (opc rt : Nat), a.literal? = some opc → rt < 32 →
      Exact (fun f : BitVec 19 => 4 * f.toInt) (fun word f => field 5 19 word.toNat = f.toNat)
        off.toInt (Word.literal a rt off.toInt).toOption := by
  refine ⟨Imm12.exact, MoveWide.exact, SImm9.exact, ?_, ?_, ?_⟩
  · intro v ty scale h
    exact ⟨UImm12.exact h v, SImm7.exact h v⟩
  · intro off width hwidth
    refine wordField_exact ?_ off
    simp at hwidth
    omega
  · intro off a opc rt h hrt
    exact literal_exact h hrt off

/-- The last offset of quadwords and the one after it, the branch farthest back, and the load
farthest back. -/
theorem immediates_exact_ends :
    (∃ f : BitVec 12, UImm12.field ⟨65520, .i128⟩ = .ok f.toNat ∧ (16 * f.toNat : Int) = 65520) ∧
    (¬ ∃ f : BitVec 12, (16 * f.toNat : Int) = 65536) ∧
    (∃ f : BitVec 26, f.toNat = 0x2000000 ∧ 4 * f.toInt = -0x8000000) ∧
    ∃ f : BitVec 19, field 5 19 (0x98800007 : UInt32).toNat = f.toNat ∧
      4 * f.toInt = -0x100000 := by
  obtain ⟨_, _, _, hscaled, hbranch, hliteral⟩ := immediates_exact
  refine ⟨?_, ?_, ?_, ?_⟩
  · obtain ⟨⟨result, hresult, hexact⟩, _⟩ := hscaled 65520 .i128 16 rfl
    have hlast : UImm12.ofValue 65520 .i128 = .ok (some ⟨65520, .i128⟩) := by decide
    cases hlast.symm.trans hresult
    obtain ⟨f, ⟨_, hfield, _⟩, hf⟩ := hexact.holds _ rfl
    exact ⟨f, hfield, hf⟩
  · obtain ⟨⟨result, hresult, hexact⟩, _⟩ := hscaled 65536 .i128 16 rfl
    have hnext : UImm12.ofValue 65536 .i128 = .ok none := by decide
    cases hnext.symm.trans hresult
    intro hf
    obtain ⟨r, hr⟩ := hexact.accepts.mpr hf
    cases hr
  · obtain ⟨f, hfield, hf⟩ := (hbranch (-0x8000000) 26 (by decide)).holds 0x2000000
      (by decide +kernel)
    exact ⟨f, hfield.symm, hf⟩
  · exact (hliteral (-0x100000) (.load .s32) 0b10 7 rfl (by decide)).holds 0x98800007
      (by decide +kernel)

end Codegen.A64
