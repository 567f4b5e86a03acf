import Codegen.Allocation.Marks
import Codegen.Proofs.Checked
import Mathlib.Data.Nat.Bitwise

/-!
The marks of registers are a set of indices. `n ∈ m` says that the bit of the index `n` is set;
looking a register up tells whether its index is in the set, and marking it puts its index there and
changes no other bit.
-/
namespace Codegen.Allocation.Marks

open Universe (maxRegs)

/-- The word of an index, which has no marks if the index is beyond the last one. -/
def word (m : Marks) (n : Nat) : UInt64 := m.words[n / 64]?.getD 0

instance : Membership Nat Marks := ⟨fun m n => (m.word n).toNat.testBit (n % 64) = true⟩

instance (n : Nat) (m : Marks) : Decidable (n ∈ m) :=
  inferInstanceAs (Decidable ((m.word n).toNat.testBit (n % 64) = true))

variable {m m' : Marks} {r : Reg} {n : Nat}

theorem mem_iff : n ∈ m ↔ (m.word n).toNat.testBit (n % 64) = true := Iff.rfl

theorem not_mem_empty : ¬ n ∈ empty := by
  have hword : empty.word n = 0 := by
    simp only [word, empty, Vector.getElem?_replicate]
    split
    · rfl
    · rfl
  simp [mem_iff, hword]

theorem toNat_bit (r : Reg) : (bit r).toNat = 2 ^ (r.index.toNat % 64) := by
  have hlt : r.index.toNat % 64 < 64 := Nat.mod_lt _ (by decide)
  have hpow : 2 ^ (r.index.toNat % 64) < 2 ^ 64 := Nat.pow_lt_pow_right (by decide) hlt
  simpa [bit, UInt64.toNat_shiftLeft, Nat.one_shiftLeft] using hpow

/-- The bit of a register is set exactly if its index is marked. -/
theorem and_bit_ne_zero {w : UInt64} :
    (w &&& bit r != 0) = w.toNat.testBit (r.index.toNat % 64) := by
  have hzero : w &&& bit r = 0 ↔ w.toNat.testBit (r.index.toNat % 64) = false := by
    rw [← UInt64.toNat_inj, UInt64.toNat_and, toNat_bit, Nat.and_two_pow]
    cases w.toNat.testBit (r.index.toNat % 64) with
    | true => simp
    | false => simp
  cases hbit : w.toNat.testBit (r.index.toNat % 64) with
  | true => simp [hzero, hbit]
  | false => simp [hzero.mpr hbit]

theorem entry_eq_ok {w : UInt64} : entry m.words.toList (r.index / 64).toNat = .ok w ↔
    r.index.toNat < maxRegs ∧ m.word r.index.toNat = w := by
  have hsize : maxRegs / 64 = 2 := rfl
  have hindex : (r.index / 64).toNat = r.index.toNat / 64 := by simp
  have hmax : maxRegs = 128 := rfl
  rw [Checked.entry_eq_ok, hindex, Vector.getElem?_toList, word]
  by_cases h : r.index.toNat / 64 < maxRegs / 64
  · rw [Vector.getElem?_eq_getElem h, Option.getD_some, Option.some_inj]
    have hlt : r.index.toNat < maxRegs := by omega
    simp only [hlt, true_and]
  · rw [Vector.getElem?_eq_none (by omega)]
    have hlt : ¬ r.index.toNat < maxRegs := by omega
    simp [hlt]

theorem has_eq_ok {b : Bool} :
    m.has r = .ok b ↔ r.index.toNat < maxRegs ∧ decide (r.index.toNat ∈ m) = b := by
  simp only [has, Checked.bind_eq_ok, entry_eq_ok, Checked.pure_eq_ok, and_bit_ne_zero, mem_iff,
    Bool.decide_eq_true]
  constructor
  · rintro ⟨w, ⟨hlt, rfl⟩, hb⟩
    exact ⟨hlt, hb⟩
  · rintro ⟨hlt, hb⟩
    exact ⟨_, ⟨hlt, rfl⟩, hb⟩

theorem has_eq (h : r.index.toNat < maxRegs) : m.has r = .ok (decide (r.index.toNat ∈ m)) :=
  has_eq_ok.mpr ⟨h, rfl⟩

theorem exists_add (m : Marks) (h : r.index.toNat < maxRegs) : ∃ m', m.add r = .ok m' := by
  rw [add, entry_eq_ok.mpr ⟨h, rfl⟩]
  exact ⟨_, rfl⟩

/-- Marking a register marks its index and nothing else. -/
theorem mem_of_add (h : m.add r = .ok m') : n ∈ m' ↔ n = r.index.toNat ∨ n ∈ m := by
  obtain ⟨w, hw, hm⟩ := Checked.bind_eq_ok.mp h
  obtain ⟨hlt, rfl⟩ := entry_eq_ok.mp hw
  cases hm
  have hindex : (r.index / 64).toNat = r.index.toNat / 64 := by simp
  have hmax : maxRegs = 128 := rfl
  simp only [mem_iff, word, hindex, Vector.getElem?_setIfInBounds]
  by_cases hword : r.index.toNat / 64 = n / 64
  · rw [if_pos hword, if_pos (by omega), Option.getD_some, UInt64.toNat_or, Nat.testBit_or,
      toNat_bit, Nat.testBit_two_pow, Bool.or_eq_true, decide_eq_true_eq, hword, or_comm]
    refine or_congr_left ?_
    omega
  · rw [if_neg hword]
    refine (or_iff_right ?_).symm
    rintro rfl
    exact hword rfl

theorem mem_of_foldlM {rs : List Reg} (h : rs.foldlM add m = .ok m') :
    (∀ r ∈ rs, r.index.toNat < maxRegs) ∧
      ∀ n, n ∈ m' ↔ n ∈ m ∨ ∃ r ∈ rs, r.index.toNat = n := by
  induction rs generalizing m with
  | nil =>
      cases h
      simp
  | cons r rs ih =>
      obtain ⟨next, hnext, hrest⟩ := Checked.bind_eq_ok.mp h
      obtain ⟨w, hw, _⟩ := Checked.bind_eq_ok.mp hnext
      obtain ⟨hlt, hmem⟩ := ih hrest
      refine ⟨List.forall_mem_cons.mpr ⟨(entry_eq_ok.mp hw).1, hlt⟩, fun n => ?_⟩
      rw [hmem, mem_of_add hnext, List.exists_mem_cons_iff, eq_comm, or_assoc, or_left_comm]

theorem mem_of_ofList {rs : List Reg} (h : ofList rs = .ok m) :
    n ∈ m ↔ ∃ r ∈ rs, r.index.toNat = n := by
  rw [(mem_of_foldlM h).2, or_iff_right not_mem_empty]

theorem has_of_ofList {rs : List Reg} (h : ofList rs = .ok m) (hr : r ∈ rs) :
    m.has r = .ok true :=
  has_eq_ok.mpr ⟨(mem_of_foldlM h).1 r hr, decide_eq_true ((mem_of_ofList h).mpr ⟨r, hr, rfl⟩)⟩

theorem exists_ofList {rs : List Reg} (h : ∀ r ∈ rs, r.index.toNat < maxRegs) :
    ∃ m, ofList rs = .ok m := by
  have hfold : ∀ m, ∃ m', rs.foldlM add m = .ok m' := by
    induction rs with
    | nil => exact fun m => ⟨m, rfl⟩
    | cons r rs ih =>
        intro m
        obtain ⟨next, hnext⟩ := exists_add m (h r List.mem_cons_self)
        rw [List.foldlM_cons, hnext, Checked.ok_bind]
        exact ih (fun s hs => h s (List.mem_cons_of_mem r hs)) next
  exact hfold empty

end Codegen.Allocation.Marks
