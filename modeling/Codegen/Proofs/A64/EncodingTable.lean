import Codegen.Proofs.A64.LogicalImm

/-!
The encoding table: which words are allocated to an instruction.

A word belongs to a class by its leading bits (`WordClass.of?`), and each class leaves some values
of its fields unallocated (`WordClass.Allows`). What `disassemble` finds in a word decides whether
the word is allocated (`allocated_iff`), so that the operands of an instruction are enough to tell.
-/
namespace Codegen.A64

/-- The classes of the table that instructions are emitted in. -/
inductive WordClass where
  | addSubImm | logicalImm | moveWide | bitfield
  | logicalShifted | addSubShifted | addSubExtended | twoSource | threeSource
  | literal | unscaled | indexed | registerOffset | unsignedOffset | pair
  | jump | compareBranch | condBranch | branchReg | hint
  deriving DecidableEq, Repr

namespace WordClass

def ofControl? (word : Nat) : Option WordClass :=
  if field 29 2 word = 0b00 then some .jump
  else if field 29 2 word = 0b01 ∧ field 25 4 word = 0b1010 then some .compareBranch
  else if field 29 3 word = 0b010 ∧ field 25 4 word = 0b1010 then some .condBranch
  else if field 29 3 word = 0b110 ∧ field 25 4 word = 0b1011 then some .branchReg
  else if field 12 20 word = 0xd5032 then some .hint
  else none

/-- The class of a load or store of one register, other than of a literal. -/
def ofAccess? (word : Nat) : Option WordClass :=
  match field 21 1 word, field 10 2 word with
  | 0, 0b00 => some .unscaled
  | 0, 0b01 | 0, 0b11 => some .indexed
  | 1, 0b10 => some .registerOffset
  | _, _ => none

def of? (word : Nat) : Option WordClass :=
  match field 24 5 word with
  | 0b10001 => if field 23 1 word = 0 then some .addSubImm else none
  | 0b10010 => if field 23 1 word = 0 then some .logicalImm else some .moveWide
  | 0b10011 => if field 23 1 word = 0 then some .bitfield else none
  | 0b01010 => some .logicalShifted
  | 0b01011 => if field 21 1 word = 0 then some .addSubShifted else some .addSubExtended
  | 0b11010 => if field 29 2 word = 0 ∧ field 21 3 word = 0b110 then some .twoSource else none
  | 0b11011 => some .threeSource
  | 0b11000 => if field 29 1 word = 0 then some .literal else ofAccess? word
  | 0b11001 => if field 29 1 word = 1 then some .unsignedOffset else none
  | 0b01000 | 0b01001 => if field 29 1 word = 1 then some .pair else none
  | 0b10100 | 0b10101 | 0b10110 | 0b10111 => ofControl? word
  | _ => none

/-- The values of the fields that the class allocates. -/
def Allows (word : Nat) : WordClass → Prop
  | addSubImm | literal | jump | compareBranch => True
  | logicalImm => (field 31 1 word = 0 → field 22 1 word = 0) ∧
      (BitmaskImm.decodeBitMasks (Width.ofSf (field 31 1 word)).bits (field 22 1 word = 1)
        (BitVec.ofNat 6 (field 16 6 word)) (BitVec.ofNat 6 (field 10 6 word))).isSome = true
  | moveWide => field 29 2 word ≠ 0b01 ∧ (field 31 1 word = 0 → field 22 1 word = 0)
  | bitfield => field 29 2 word ≠ 0b11 ∧ field 22 1 word = field 31 1 word ∧
      (field 31 1 word = 0 → field 21 1 word = 0 ∧ field 15 1 word = 0)
  | logicalShifted => field 31 1 word = 0 → field 15 1 word = 0
  | addSubShifted => field 22 2 word ≠ 0b11 ∧ (field 31 1 word = 0 → field 15 1 word = 0)
  | addSubExtended => field 22 2 word = 0 ∧ field 10 3 word ≤ 4
  | twoSource => field 10 6 word ∈ [0b000010, 0b000011, 0b001000, 0b001001, 0b001010, 0b001011]
  | threeSource => field 29 2 word = 0 ∧ (field 21 3 word = 0 ∨ field 31 1 word = 1 ∧
      (field 21 3 word ∈ [0b001, 0b101] ∨ field 21 3 word ∈ [0b010, 0b110] ∧ field 15 1 word = 0))
  | unscaled | unsignedOffset => ¬ (2 ≤ field 30 2 word ∧ field 22 2 word = 3)
  | indexed => ¬ (field 30 2 word = 2 ∧ field 22 2 word = 3 ∨
      field 30 2 word = 3 ∧ 2 ≤ field 22 2 word)
  | registerOffset => field 14 1 word = 1 ∧ ¬ (2 ≤ field 30 2 word ∧ field 22 2 word = 3)
  | pair => field 30 2 word ≠ 3 ∧ (field 30 2 word = 1 → field 22 1 word = 1 ∧ field 23 2 word ≠ 0)
  | condBranch => field 24 1 word = 0 ∧ field 4 1 word = 0
  | branchReg => field 21 4 word ∈ [0b0000, 0b0001, 0b0010] ∧ field 16 5 word = 31 ∧
      field 10 6 word = 0 ∧ field 0 5 word = 0
  | hint => field 0 5 word = 31

end WordClass

/-- The word is that of an instruction. -/
def Allocated (w : UInt32) : Prop := ∃ c, WordClass.of? w.toNat = some c ∧ c.Allows w.toNat

def Form.Allocated : Form → Prop
  | .udf => False
  | .shifted fn w _ _ _ shift amount => (fn.addSub?.isSome → shift ≠ .ror) ∧ amount < w.bits
  | .bitmask _ w _ _ n immr imms =>
    (BitmaskImm.decodeBitMasks w.bits n (BitVec.ofNat 6 immr) (BitVec.ofNat 6 imms)).isSome = true
  | .shiftImm fn w _ _ amount => amount < w.bits ∧ (fn = .lsl → 0 < amount)
  | .access _ _ (.indexScaled _ _ ext) => ext.code.testBit 1 = true
  | _ => True

section Readers

variable {w : UInt32} {f : Form}

theorem field_lt (low width word : Nat) : field low width word < 2 ^ width :=
  Nat.mod_lt _ (Nat.two_pow_pos width)

theorem allocated_iff_of_class {c : WordClass} (hclass : WordClass.of? w.toNat = some c) :
    Allocated w ↔ c.Allows w.toNat := by
  simp only [Allocated, hclass, Option.some.injEq, exists_eq_left']

/-- A field of six bits is below the width unless the width is 32 and the highest bit is set. -/
theorem field_lt_bits_iff (low sf word : Nat) :
    field low 6 word < (Width.ofSf sf).bits ↔ (sf = 0 → field (low + 5) 1 word = 0) := by
  have hlt := field_lt low 6 word
  obtain ⟨_, hhigh⟩ := field_split (a := 5) (b := 1) (rfl : field low 6 word = _)
  rw [hhigh]
  by_cases hsf : sf = 0
  · simp only [Width.ofSf, hsf, if_true, Width.bits, forall_const]
    omega
  · simp only [Width.ofSf, hsf, if_false, Width.bits, false_imp_iff, iff_true]
    exact hlt

theorem ShiftOp.ofCode_eq_ror_iff (word : Nat) :
    ShiftOp.ofCode (UInt8.ofNat (field 22 2 word)) = .ror ↔ field 22 2 word = 0b11 := by
  have hall : ∀ c < 4, ShiftOp.ofCode (UInt8.ofNat c) = .ror ↔ c = 0b11 := by decide
  exact hall _ (field_lt 22 2 word)

theorem allocated_addSub (hclass : field 24 5 w.toNat = 0b01011)
    (h : Form.readAddSub w.toNat = some f) : Allocated w ↔ f.Allocated := by
  have haddSub : (AluFn.ofAddSub (field 29 2 w.toNat)).addSub?.isSome = true := by
    unfold AluFn.ofAddSub
    split <;> rfl
  simp only [Form.readAddSub] at h
  split at h
  · rename_i hshifted
    cases h
    have hof : WordClass.of? w.toNat = some .addSubShifted := by
      simp [WordClass.of?, hclass, hshifted]
    rw [allocated_iff_of_class hof]
    simp only [WordClass.Allows, Form.Allocated, haddSub, forall_const, ne_eq,
      ShiftOp.ofCode_eq_ror_iff, field_lt_bits_iff]
  · rename_i hextended
    split at h
    · rename_i hzero
      cases h
      have hof : WordClass.of? w.toNat = some .addSubExtended := by
        simp [WordClass.of?, hclass, hextended]
      rw [allocated_iff_of_class hof]
      simp [WordClass.Allows, Form.Allocated, hzero]
    · cases h

theorem allocated_logical (hclass : field 24 5 w.toNat = 0b01010)
    (h : Form.readLogical w.toNat = some f) : Allocated w ↔ f.Allocated := by
  have hof : WordClass.of? w.toNat = some .logicalShifted := by simp [WordClass.of?, hclass]
  simp only [Form.readLogical, Option.bind_eq_bind, Option.bind_eq_some_iff] at h
  obtain ⟨fn, hfn, h⟩ := h
  have hlogical : fn.addSub?.isSome = false := by
    unfold AluFn.ofLogical? at hfn
    split at hfn <;> cases hfn <;> rfl
  split at h
  · cases h
    rw [allocated_iff_of_class hof]
    simp [WordClass.Allows, Form.Allocated, hlogical, field_lt_bits_iff]
  · cases h

theorem allocated_imm12 (hclass : field 24 5 w.toNat = 0b10001)
    (h : Form.readImm12 w.toNat = some f) : Allocated w ↔ f.Allocated := by
  simp only [Form.readImm12] at h
  split at h
  · rename_i hlow
    cases h
    have hof : WordClass.of? w.toNat = some .addSubImm := by simp [WordClass.of?, hclass, hlow]
    rw [allocated_iff_of_class hof]
    simp [WordClass.Allows, Form.Allocated]
  · cases h

theorem BitmaskImm.n_of_decodeBitMasks {n : Bool} {immr imms : BitVec 6}
    (h : (decodeBitMasks 32 n immr imms).isSome = true) : n = false := by
  cases n with
  | false => rfl
  | true =>
      have hlog := (elementLog_of_n true imms).1 rfl
      simp [decodeBitMasks, hlog] at h

theorem allocated_bitmask (hclass : field 24 5 w.toNat = 0b10010) (hlow : field 23 1 w.toNat = 0)
    (h : Form.readBitmask w.toNat = some f) : Allocated w ↔ f.Allocated := by
  have hof : WordClass.of? w.toNat = some .logicalImm := by simp [WordClass.of?, hclass, hlow]
  simp only [Form.readBitmask, Option.bind_eq_bind, Option.bind_eq_some_iff] at h
  obtain ⟨fn, _, h⟩ := h
  cases h
  rw [allocated_iff_of_class hof]
  simp only [WordClass.Allows, Form.Allocated, and_iff_right_iff_imp]
  intro hsome hsf
  have hbit := field_lt 22 1 w.toNat
  rw [hsf] at hsome
  have hn := BitmaskImm.n_of_decodeBitMasks hsome
  rw [decide_eq_false_iff_not] at hn
  omega

theorem allocated_moveWide (hclass : field 24 5 w.toNat = 0b10010) (hlow : field 23 1 w.toNat ≠ 0)
    (h : Form.readMoveWide w.toNat = some f) : Allocated w ↔ f.Allocated := by
  have hof : WordClass.of? w.toNat = some .moveWide := by simp [WordClass.of?, hclass, hlow]
  rw [allocated_iff_of_class hof]
  unfold Form.readMoveWide at h
  split at h
  · rename_i hsf hopc
    cases h
    simp [WordClass.Allows, Form.Allocated, hsf, hopc]
  · rename_i hsf hopc
    cases h
    simp [WordClass.Allows, Form.Allocated, hsf, hopc]
  · cases h

/-- A shift by an immediate has both of its fields below the width if the amount is below it. -/
theorem allocated_shiftImm (hclass : field 24 5 w.toNat = 0b10011)
    (h : Form.readShiftImm w.toNat = some f) : Allocated w ↔ f.Allocated := by
  have himmr := field_lt_bits_iff 16 (field 31 1 w.toNat) w.toNat
  have himms := field_lt_bits_iff 10 (field 31 1 w.toNat) w.toNat
  simp only [Form.readShiftImm] at h
  split at h
  · cases h
  · rename_i hn
    simp only [ne_eq, not_or, not_not] at hn
    obtain ⟨hlow, hn⟩ := hn
    have hof : WordClass.of? w.toNat = some .bitfield := by simp [WordClass.of?, hclass, hlow]
    rw [allocated_iff_of_class hof]
    have hallows : WordClass.bitfield.Allows w.toNat ↔ field 29 2 w.toNat ≠ 0b11 ∧
        field 16 6 w.toNat < (Width.ofSf (field 31 1 w.toNat)).bits ∧
        field 10 6 w.toNat < (Width.ofSf (field 31 1 w.toNat)).bits := by
      rw [himmr, himms]
      simp only [WordClass.Allows, hn, true_and, imp_and]
    have hbits : 0 < (Width.ofSf (field 31 1 w.toNat)).bits := by
      cases Width.ofSf (field 31 1 w.toNat) with
      | w32 => decide
      | w64 => decide
    rw [hallows]
    split at h
    · rename_i hfull
      split at h
      · rename_i hopc
        cases h
        simp only [Form.Allocated, hopc, hfull, reduceCtorEq, false_imp_iff, and_true]
        omega
      · rename_i hopc
        cases h
        simp only [Form.Allocated, hopc, hfull, reduceCtorEq, false_imp_iff, and_true]
        omega
      · cases h
    · rename_i hpart
      split at h
      · rename_i hleft
        cases h
        simp only [Form.Allocated, hleft.1, forall_const]
        omega
      · cases h

theorem allocated_shiftReg (hclass : field 24 5 w.toNat = 0b11010)
    (h : Form.readShiftReg w.toNat = some f) : Allocated w ↔ f.Allocated := by
  simp only [Form.readShiftReg, Option.bind_eq_bind, Option.bind_eq_some_iff] at h
  obtain ⟨fn, hfn, h⟩ := h
  split at h
  · rename_i hfixed
    cases h
    have hof : WordClass.of? w.toNat = some .twoSource := by simp [WordClass.of?, hclass, hfixed]
    rw [allocated_iff_of_class hof]
    unfold AluFn.ofShift? at hfn
    split at hfn
    · rename_i hopcode
      simp [WordClass.Allows, Form.Allocated, hopcode]
    · rename_i hopcode
      simp [WordClass.Allows, Form.Allocated, hopcode]
    · rename_i hopcode
      simp [WordClass.Allows, Form.Allocated, hopcode]
    · cases hfn
  · cases h

theorem allocated_multiplyAdd (hclass : field 24 5 w.toNat = 0b11011)
    (h : Form.readMultiplyAdd w.toNat = some f) : Allocated w ↔ f.Allocated := by
  have hof : WordClass.of? w.toNat = some .threeSource := by simp [WordClass.of?, hclass]
  rw [allocated_iff_of_class hof]
  simp only [Form.readMultiplyAdd] at h
  split at h
  · rename_i hfixed
    cases h
    simp [WordClass.Allows, Form.Allocated, hfixed]
  · cases h

theorem allocated_literal (hclass : field 24 5 w.toNat = 0b11000) (hlow : field 29 1 w.toNat = 0)
    (h : Form.readLiteral w.toNat = some f) : Allocated w ↔ f.Allocated := by
  have hof : WordClass.of? w.toNat = some .literal := by simp [WordClass.of?, hclass, hlow]
  simp only [Form.readLiteral, Option.bind_eq_bind, Option.bind_eq_some_iff] at h
  obtain ⟨a, _, h⟩ := h
  cases h
  rw [allocated_iff_of_class hof]
  simp [WordClass.Allows, Form.Allocated]

theorem Access.ofFields?_eq_some {size opc : Nat} {a : Access} (h : ofFields? size opc = some a) :
    ¬ (2 ≤ size ∧ opc = 3) ∧ ¬ (size = 2 ∧ opc = 3 ∨ size = 3 ∧ 2 ≤ opc) := by
  unfold ofFields? at h
  split at h <;> cases h <;> decide

/-- The second bit of the option field, in the word and in the extension that it tells. -/
theorem testBit_ofCode (word : Nat) :
    (ExtendOp.ofCode (UInt8.ofNat (field 13 3 word))).code.testBit 1 = true ↔
      field 14 1 word = 1 := by
  obtain ⟨_, hhigh⟩ := field_split (a := 1) (b := 2) (rfl : field 13 3 word = _)
  obtain ⟨hbit, _⟩ := field_split (a := 1) (b := 1) hhigh
  have hall : ∀ c < 8, (ExtendOp.ofCode (UInt8.ofNat c)).code.testBit 1 = true ↔ c / 2 % 2 = 1 := by
    decide
  rw [hall _ (field_lt 13 3 word), hbit, Nat.pow_one]

theorem allocated_access (hclass : field 24 5 w.toNat = 0b11000) (hlow : field 29 1 w.toNat ≠ 0)
    (h : Form.readAccess w.toNat = some f) : Allocated w ↔ f.Allocated := by
  have hclass : WordClass.of? w.toNat = WordClass.ofAccess? w.toNat := by
    simp [WordClass.of?, hclass, hlow]
  simp only [Form.readAccess, Option.bind_eq_bind, Option.bind_eq_some_iff] at h
  obtain ⟨a, ha, h⟩ := h
  obtain ⟨hsize, hindexed⟩ := Access.ofFields?_eq_some ha
  split at h
  · rename_i h21 h10
    cases h
    have hof : WordClass.of? w.toNat = some .unscaled := by
      simp [hclass, WordClass.ofAccess?, h21, h10]
    rw [allocated_iff_of_class hof]
    simpa only [WordClass.Allows, Form.Allocated, iff_true] using hsize
  · rename_i h21 h10
    cases h
    have hof : WordClass.of? w.toNat = some .indexed := by
      simp [hclass, WordClass.ofAccess?, h21, h10]
    rw [allocated_iff_of_class hof]
    simpa only [WordClass.Allows, Form.Allocated, iff_true] using hindexed
  · rename_i h21 h10
    cases h
    have hof : WordClass.of? w.toNat = some .indexed := by
      simp [hclass, WordClass.ofAccess?, h21, h10]
    rw [allocated_iff_of_class hof]
    simpa only [WordClass.Allows, Form.Allocated, iff_true] using hindexed
  · rename_i h21 h10
    have hof : WordClass.of? w.toNat = some .registerOffset := by
      simp [hclass, WordClass.ofAccess?, h21, h10]
    have hallows : WordClass.registerOffset.Allows w.toNat ↔ field 14 1 w.toNat = 1 := by
      simp only [WordClass.Allows, hsize, not_false_eq_true, and_true]
    rw [allocated_iff_of_class hof, hallows, ← testBit_ofCode]
    split at h
    · cases h
      rfl
    · split at h
      · rename_i hoption
        cases h
        rw [hoption]
        exact iff_of_true (by decide) trivial
      · cases h
  · cases h

theorem allocated_scaled (hclass : field 24 5 w.toNat = 0b11001) (hlow : field 29 1 w.toNat = 1)
    (h : Form.readAccessScaled w.toNat = some f) : Allocated w ↔ f.Allocated := by
  have hof : WordClass.of? w.toNat = some .unsignedOffset := by
    simp [WordClass.of?, hclass, hlow]
  simp only [Form.readAccessScaled, Option.bind_eq_bind, Option.bind_eq_some_iff] at h
  obtain ⟨a, ha, h⟩ := h
  cases h
  rw [allocated_iff_of_class hof]
  simpa only [WordClass.Allows, Form.Allocated, iff_true] using (Access.ofFields?_eq_some ha).1

theorem allocated_pair (hclass : field 24 5 w.toNat = 0b01000 ∨ field 24 5 w.toNat = 0b01001)
    (h : Form.readPair w.toNat = some f) : Allocated w ↔ f.Allocated := by
  have hread : field 29 3 w.toNat = 0b101 ∧ f.Allocated := by
    unfold Form.readPair at h
    split at h
    · rename_i hhigh _ _
      cases h
      exact ⟨hhigh, trivial⟩
    · rename_i hhigh _ _
      cases h
      exact ⟨hhigh, trivial⟩
    · rename_i hhigh _ _
      cases h
      exact ⟨hhigh, trivial⟩
    · cases h
  obtain ⟨hhigh, hf⟩ := hread
  obtain ⟨h29, h30⟩ := field_split (a := 1) (b := 2) hhigh
  have hof : WordClass.of? w.toNat = some .pair := by
    rcases hclass with hclass | hclass
    · simp [WordClass.of?, hclass, h29]
    · simp [WordClass.of?, hclass, h29]
  rw [allocated_iff_of_class hof]
  refine iff_of_true ?_ hf
  simp [WordClass.Allows, h30]

theorem field_class (word : Nat) :
    field 25 4 word = field 24 5 word / 2 ∧ field 24 1 word = field 24 5 word % 2 := by
  obtain ⟨h24, h25⟩ := field_split (a := 1) (b := 4) (rfl : field 24 5 word = _)
  exact ⟨by rw [h25, Nat.pow_one], by rw [h24, Nat.pow_one]⟩

theorem of?_control {word : Nat} (h : 0b10100 ≤ field 24 5 word ∧ field 24 5 word ≤ 0b10111) :
    WordClass.of? word = WordClass.ofControl? word := by
  have hcases : field 24 5 word = 0b10100 ∨ field 24 5 word = 0b10101 ∨
    field 24 5 word = 0b10110 ∨ field 24 5 word = 0b10111 := by omega
  rcases hcases with hcase | hcase | hcase | hcase
  · simp [WordClass.of?, hcase]
  · simp [WordClass.of?, hcase]
  · simp [WordClass.of?, hcase]
  · simp [WordClass.of?, hcase]

/-- The control words that go to a register, and the hints. -/
theorem allocated_branchReg (hcontrol : WordClass.of? w.toNat = WordClass.ofControl? w.toNat)
    (hhigh : field 29 3 w.toNat = 0b110) (h : Form.readControl w.toNat = some f) :
    Allocated w ↔ f.Allocated := by
  obtain ⟨hclass, hlow⟩ := field_class w.toNat
  obtain ⟨h29, _⟩ := field_split (a := 2) (b := 1) hhigh
  simp only [Form.readControl, hhigh] at h
  split at h
  · rename_i hop
    cases h
    obtain ⟨h24, h12, h0⟩ := hop
    have h12 := field_merge (a := 12) (b := 8) h12 (field_merge (a := 5) (b := 3) h24 hhigh)
    have hof : WordClass.of? w.toNat = some .hint := by
      simp [hcontrol, WordClass.ofControl?, h29, hhigh, hclass, h24, h12]
    obtain ⟨h0, _⟩ := field_split (a := 5) (b := 7) h0
    rw [allocated_iff_of_class hof]
    simp [WordClass.Allows, Form.Allocated, h0]
  · split at h
    · rename_i hop
      obtain ⟨h24, h16, h10, h0⟩ := hop
      have hof : WordClass.of? w.toNat = some .branchReg := by
        simp [hcontrol, WordClass.ofControl?, h29, hhigh, hclass, h24]
      have h24 : field 24 1 w.toNat = 0 := by rw [hlow, h24]
      rw [allocated_iff_of_class hof]
      split at h
      · rename_i h21
        cases h
        have h21 := field_merge (a := 3) (b := 1) h21 h24
        simp [WordClass.Allows, Form.Allocated, h21, h16, h10, h0]
      · rename_i h21
        cases h
        have h21 := field_merge (a := 3) (b := 1) h21 h24
        simp [WordClass.Allows, Form.Allocated, h21, h16, h10, h0]
      · cases h
    · cases h

theorem allocated_control (hcontrol : WordClass.of? w.toNat = WordClass.ofControl? w.toNat)
    (h : Form.readControl w.toNat = some f) : Allocated w ↔ f.Allocated := by
  by_cases hreg : field 29 3 w.toNat = 0b110
  · exact allocated_branchReg hcontrol hreg h
  obtain ⟨hclass, hlow⟩ := field_class w.toNat
  obtain ⟨h29, _⟩ := field_split (a := 2) (b := 1) (rfl : field 29 3 w.toNat = _)
  simp only [Form.readControl] at h
  split at h
  · rename_i hhigh
    cases h
    have hof : WordClass.of? w.toNat = some .jump := by
      simp [hcontrol, WordClass.ofControl?, h29, hhigh]
    rw [allocated_iff_of_class hof]
    simp [WordClass.Allows, Form.Allocated]
  · rename_i hhigh
    cases h
    have hof : WordClass.of? w.toNat = some .jump := by
      simp [hcontrol, WordClass.ofControl?, h29, hhigh]
    rw [allocated_iff_of_class hof]
    simp [WordClass.Allows, Form.Allocated]
  · rename_i hhigh
    split at h
    · rename_i hop
      cases h
      have hof : WordClass.of? w.toNat = some .compareBranch := by
        simp [hcontrol, WordClass.ofControl?, h29, hhigh, hclass, hop]
      rw [allocated_iff_of_class hof]
      simp [WordClass.Allows, Form.Allocated]
    · rename_i hop
      cases h
      have hof : WordClass.of? w.toNat = some .compareBranch := by
        simp [hcontrol, WordClass.ofControl?, h29, hhigh, hclass, hop]
      rw [allocated_iff_of_class hof]
      simp [WordClass.Allows, Form.Allocated]
    · cases h
  · rename_i hhigh
    split at h
    · rename_i hop
      cases h
      have hof : WordClass.of? w.toNat = some .condBranch := by
        simp [hcontrol, WordClass.ofControl?, h29, hhigh, hclass, hop]
      rw [allocated_iff_of_class hof]
      simp [WordClass.Allows, Form.Allocated, hlow, hop]
    · cases h
  · rename_i hhigh
    exact absurd hhigh hreg
  · cases h

/-- What is found in a word decides whether it is allocated. -/
theorem allocated_iff (h : disassemble w = some f) : Allocated w ↔ f.Allocated := by
  simp only [disassemble] at h
  split at h
  · exact allocated_logical ‹_› h
  · exact allocated_addSub ‹_› h
  · exact allocated_imm12 ‹_› h
  · split at h
    · exact allocated_bitmask ‹_› ‹_› h
    · exact allocated_moveWide ‹_› ‹_› h
  · exact allocated_shiftImm ‹_› h
  · exact allocated_shiftReg ‹_› h
  · exact allocated_multiplyAdd ‹_› h
  · split at h
    · exact allocated_literal ‹_› ‹_› h
    · exact allocated_access ‹_› ‹_› h
  · split at h
    · exact allocated_scaled ‹_› ‹_› h
    · cases h
  · exact allocated_pair (.inl ‹_›) h
  · exact allocated_pair (.inr ‹_›) h
  · exact allocated_control (of?_control (by omega)) h
  · exact allocated_control (of?_control (by omega)) h
  · exact allocated_control (of?_control (by omega)) h
  · exact allocated_control (of?_control (by omega)) h
  · split at h
    · rename_i hzero
      cases h
      refine iff_of_false ?_ id
      rintro ⟨c, hc, _⟩
      rw [hzero] at hc
      cases hc
    · cases h

end Readers

end Codegen.A64
