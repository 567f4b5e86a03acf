import Codegen.A64.Emission
import Codegen.Proofs.Emit

/-!
Branch words read back. `decode` knows the words that end a block by the fields of the architecture,
independently of how they are made, and `follow` goes through the words of one terminator: a branch
that is taken leaves for the word at its displacement, one that is not goes on with the next word.
-/
namespace Codegen.A64

/-- What the hardware tests: a register by its number, or a condition by its code. -/
inductive Test where
  | zero (n : Nat)
  | notZero (n : Nat)
  | flag (code : Nat)
  deriving DecidableEq, Repr

namespace Test

def invert : Test → Test
  | zero n => notZero n
  | notZero n => zero n
  | flag code => flag (code ^^^ 1)

/-- The number or code fits its field. -/
def Encodable : Test → Prop
  | zero n => n < 32
  | notZero n => n < 32
  | flag code => code < 16

theorem invert_invert (t : Test) : t.invert.invert = t := by
  cases t with
  | zero n => rfl
  | notZero n => rfl
  | flag code => simp only [invert, Nat.xor_assoc, Nat.xor_self, Nat.xor_zero]

theorem Encodable.invert {t : Test} (h : t.Encodable) : t.invert.Encodable := by
  cases t with
  | zero n => exact h
  | notZero n => exact h
  | flag code =>
      have hcode : code < 2 ^ 4 := h
      exact Nat.xor_lt_two_pow hcode (by decide)

end Test

namespace BranchCond

/-- The test of a condition. There is none without a physical register. -/
def test : BranchCond → Option Test
  | unset => none
  | zero r => (hwEnc r).toOption.map .zero
  | notZero r => (hwEnc r).toOption.map .notZero
  | flag c => some (.flag c.code)

theorem invert_symm {c c' : BranchCond} (h : c.invert = .ok c') : c'.invert = .ok c := by
  cases c with
  | unset => cases h
  | zero r =>
      cases h
      rfl
  | notZero r =>
      cases h
      rfl
  | flag c =>
      cases h
      simp only [invert, Cond.invert_invert]

theorem test_of_invert {c c' : BranchCond} {t : Test} (h : c.invert = .ok c')
    (ht : c.test = some t) : c'.test = some t.invert := by
  cases c with
  | unset => cases ht
  | zero r =>
      cases h
      obtain ⟨n, hn, rfl⟩ := Option.map_eq_some_iff.mp ht
      simp only [test, hn, Option.map_some, Test.invert]
  | notZero r =>
      cases h
      obtain ⟨n, hn, rfl⟩ := Option.map_eq_some_iff.mp ht
      simp only [test, hn, Option.map_some, Test.invert]
  | flag c =>
      cases h
      cases ht
      cases c with
      | undeclared code => simp [test, Test.invert, Cond.invert, Cond.code]
      | _ => rfl

end BranchCond

/-- What a word does to control, with the displacement in words. -/
inductive Control where
  | jump (words : Int)
  | branch (test : Test) (words : Int)
  | ret
  deriving DecidableEq, Repr

/-- The bits of a word from `low` on. -/
def field (low width word : Nat) : Nat := word / 2 ^ low % 2 ^ width

/-- The number of a field that holds a signed one. -/
def signed (width bits : Nat) : Int :=
  if bits < 2 ^ (width - 1) then (bits : Int) else (bits : Int) - 2 ^ width

def decode (word : Nat) : Option Control :=
  if field 26 6 word = 0b000101 then some (.jump (signed 26 (field 0 26 word)))
  else if field 24 8 word = 0b10110100 then
    some (.branch (.zero (field 0 5 word)) (signed 19 (field 5 19 word)))
  else if field 24 8 word = 0b10110101 then
    some (.branch (.notZero (field 0 5 word)) (signed 19 (field 5 19 word)))
  else if field 24 8 word = 0b01010100 ∧ field 4 1 word = 0 then
    some (.branch (.flag (field 0 4 word)) (signed 19 (field 5 19 word)))
  else if word = 0xd65f03c0 then some .ret
  else none

/-- The word at an address, the least significant byte first. -/
def fetch (code : List UInt8) (here : Nat) : Option Nat :=
  match code.drop here with
  | a :: b :: c :: d :: _ =>
    some (a.toNat + b.toNat * 2 ^ 8 + c.toNat * 2 ^ 16 + d.toNat * 2 ^ 24)
  | _ => none

/-- How control leaves the words of a terminator. -/
inductive Exit where
  | reach (address : Int)
  | ret
  | stuck
  deriving DecidableEq, Repr

/-- Follows `count` words from `here` on, under a truth assignment to tests. -/
def follow (holds : Test → Bool) (code : List UInt8) : Nat → Nat → Exit
  | 0, here => .reach here
  | count + 1, here =>
    match (fetch code here).bind decode with
    | some (.jump words) => .reach (here + 4 * words)
    | some (.branch test words) =>
      if holds test then .reach (here + 4 * words) else follow holds code count (here + 4)
    | some .ret => .ret
    | none => .stuck

section Fields

theorem signedField_eq (width : Nat) (v : Int) : signedField width v = (v % 2 ^ width).toNat := by
  rw [signedField, BitVec.toNat_ofInt]
  push_cast
  rfl

theorem signedField?_eq_some {width bits : Nat} {v : Int} (h : signedField? width v = some bits) :
    (-(2 ^ (width - 1)) ≤ v ∧ v < 2 ^ (width - 1)) ∧ bits = signedField width v := by
  have hhalf : ((1 <<< (width - 1) : Nat) : Int) = 2 ^ (width - 1) := by
    rw [Nat.one_shiftLeft]
    push_cast
    rfl
  simp only [signedField?, hhalf] at h
  split at h
  · rename_i hrange
    cases h
    exact ⟨hrange, rfl⟩
  · cases h

/-- Reading a signed field gives back what was put there, if it fits. -/
theorem signed_signedField {width : Nat} {v : Int} (hwidth : 0 < width)
    (hlow : -(2 ^ (width - 1)) ≤ v) (hhigh : v < 2 ^ (width - 1)) :
    signed width (signedField width v) = v := by
  obtain ⟨w, rfl⟩ : ∃ w, width = w + 1 := ⟨width - 1, by omega⟩
  have hdouble : (2 : Int) ^ (w + 1) = 2 ^ w + 2 ^ w := by
    rw [Int.pow_succ]
    omega
  have hcast : ((2 ^ w : Nat) : Int) = 2 ^ w := by
    push_cast
    rfl
  rw [Nat.add_sub_cancel] at hlow hhigh
  rw [signedField_eq]
  unfold signed
  rw [Nat.add_sub_cancel]
  by_cases hv : 0 ≤ v
  · rw [Int.emod_eq_of_lt hv (by omega), if_pos (by omega), Int.toNat_of_nonneg hv]
  · have hmod : v % 2 ^ (w + 1) = v + 2 ^ (w + 1) := by
      rw [← Int.add_emod_right, Int.emod_eq_of_lt (by omega) (by omega)]
    rw [hmod, if_neg (by omega)]
    omega

theorem signedField_lt (width : Nat) (v : Int) : signedField width v < 2 ^ width := by
  exact (BitVec.ofInt width v).isLt

/-- The displacement in the field of a branch is the offset of its target. -/
theorem wordField_eq_ok {width bits : Nat} {t : BranchTarget} (hwidth : 0 < width)
    (h : t.wordField width = .ok bits) :
    ∃ off, t = .resolved off ∧ bits < 2 ^ width ∧ 4 * signed width bits = off.toInt := by
  cases t with
  | block b => cases h
  | resolved off =>
      simp only [BranchTarget.wordField] at h
      split at h
      · cases h
      · rename_i haligned
        split at h
        · rename_i hsome
          cases h
          obtain ⟨⟨hlow, hhigh⟩, rfl⟩ := signedField?_eq_some hsome
          refine ⟨off, rfl, signedField_lt width _, ?_⟩
          rw [signed_signedField hwidth hlow hhigh]
          omega
        · cases h

/-- A field from bit 5 to bit 23 between those above and those below. -/
theorem or_fields (high : Nat) {middle low : Nat} (hmiddle : middle < 2 ^ 19) (hlow : low < 2 ^ 5) :
    high <<< 24 ||| middle <<< 5 ||| low = high * 2 ^ 24 + middle * 2 ^ 5 + low := by
  have hhigh : high <<< 24 = (high <<< 19) <<< 5 := by rw [← Nat.shiftLeft_add]
  have hupper : high <<< 19 ||| middle = high <<< 19 + middle :=
    (Nat.shiftLeft_add_eq_or_of_lt hmiddle high).symm
  rw [hhigh, ← Nat.shiftLeft_or_distrib, hupper, ← Nat.shiftLeft_add_eq_or_of_lt hlow,
    Nat.shiftLeft_eq, Nat.shiftLeft_eq]
  omega

end Fields

section Words

theorem decode_jump {imm : Nat} (h : imm < 2 ^ 26) :
    decode (Word.jump false imm).toNat = some (.jump (signed 26 imm)) := by
  have hword : (Word.jump false imm).toNat = 5 * 2 ^ 26 + imm := by
    have hpack : Word.jump false imm = UInt32.ofNat (5 <<< 26 ||| imm) := by
      simp [Word.jump, Word.pack, Word.bit]
    rw [hpack, ← Nat.shiftLeft_add_eq_or_of_lt h, UInt32.toNat_ofNat', Nat.shiftLeft_eq]
    omega
  have hop : field 26 6 (5 * 2 ^ 26 + imm) = 0b000101 := by
    unfold field
    omega
  have himm : field 0 26 (5 * 2 ^ 26 + imm) = imm := by
    unfold field
    omega
  rw [hword, decode, if_pos hop, himm]

theorem decode_ret : decode Word.ret.toNat = some .ret := by decide

theorem fields_word {high middle low : Nat} (hhigh : high < 2 ^ 8) (hmiddle : middle < 2 ^ 19)
    (hlow : low < 2 ^ 5) {w : UInt32}
    (hw : w = UInt32.ofNat (high <<< 24 ||| middle <<< 5 ||| low)) :
    field 26 6 w.toNat = high / 4 ∧ field 24 8 w.toNat = high ∧ field 5 19 w.toNat = middle ∧
      field 0 5 w.toNat = low ∧ field 0 4 w.toNat = low % 16 ∧ field 4 1 w.toNat = low / 16 := by
  have hword : w.toNat = high * 2 ^ 24 + middle * 2 ^ 5 + low := by
    rw [hw, or_fields high hmiddle hlow, UInt32.toNat_ofNat']
    omega
  rw [hword]
  unfold field
  omega

theorem decode_compareBranch (nonZero : Bool) {imm n : Nat} (himm : imm < 2 ^ 19) (hn : n < 2 ^ 5) :
    decode (Word.compareBranch nonZero imm n).toNat =
      some (.branch (if nonZero then .notZero n else .zero n) (signed 19 imm)) := by
  cases nonZero with
  | false =>
      have hpack : Word.compareBranch false imm n =
          UInt32.ofNat (0b10110100 <<< 24 ||| imm <<< 5 ||| n) := by
        simp [Word.compareBranch, Word.pack, Word.bit]
      obtain ⟨hop, hhigh, hmiddle, hlow, _⟩ := fields_word (by decide) himm hn hpack
      simp [decode, hop, hhigh, hmiddle, hlow]
  | true =>
      have hpack : Word.compareBranch true imm n =
          UInt32.ofNat (0b10110101 <<< 24 ||| imm <<< 5 ||| n) := by
        simp [Word.compareBranch, Word.pack, Word.bit]
      obtain ⟨hop, hhigh, hmiddle, hlow, _⟩ := fields_word (by decide) himm hn hpack
      simp [decode, hop, hhigh, hmiddle, hlow]

theorem decode_flag {imm code : Nat} (himm : imm < 2 ^ 19) (hcode : code < 16) :
    decode (Word.pack [(0b01010100, 24), (imm, 5), (code, 0)]).toNat =
      some (.branch (.flag code) (signed 19 imm)) := by
  have hpack : Word.pack [(0b01010100, 24), (imm, 5), (code, 0)] =
      UInt32.ofNat (0b01010100 <<< 24 ||| imm <<< 5 ||| code) := by
    simp [Word.pack]
  obtain ⟨hop, hhigh, hmiddle, _, hlow, hzero⟩ := fields_word (by decide) himm (by omega) hpack
  rw [Nat.mod_eq_of_lt hcode] at hlow
  rw [Nat.div_eq_of_lt hcode] at hzero
  simp [decode, hop, hhigh, hmiddle, hlow, hzero]

theorem decode_branch {cond : BranchCond} {imm : Nat} {w : UInt32}
    (h : Word.branch cond imm = .ok w) (himm : imm < 2 ^ 19) : ∃ t, cond.test = some t ∧
      (t.Encodable → decode w.toNat = some (.branch t (signed 19 imm))) := by
  cases cond with
  | unset => cases h
  | zero r =>
      obtain ⟨n, hn, h⟩ := Checked.bind_eq_ok.mp h
      cases h
      refine ⟨.zero n, by simp [BranchCond.test, hn, Except.toOption], fun hlt => ?_⟩
      exact decode_compareBranch false himm hlt
  | notZero r =>
      obtain ⟨n, hn, h⟩ := Checked.bind_eq_ok.mp h
      cases h
      refine ⟨.notZero n, by simp [BranchCond.test, hn, Except.toOption], fun hlt => ?_⟩
      exact decode_compareBranch true himm hlt
  | flag c =>
      cases h
      exact ⟨.flag c.code, rfl, fun hlt => decode_flag himm hlt⟩

end Words

section Following

/-- A word that was written at `here` after `base` bytes is read there. -/
theorem fetch_of_putNat {b : CodeBuffer} {out : List UInt8} {base here w : Nat} (hw : w < 2 ^ 32)
    (hhere : b.bytes.size = base + here) (hout : (b.putNat 4 w).bytes.toList <+: out) :
    fetch (out.drop base) here = some w := by
  obtain ⟨rest, rfl⟩ := hout
  have hbytes : (b.putNat 4 w).bytes.toList = b.bytes.toList ++ littleEndian 4 w := by
    simp [CodeBuffer.putNat, CodeBuffer.put]
  have hdrop : ((b.putNat 4 w).bytes.toList ++ rest).drop (base + here) =
      littleEndian 4 w ++ rest := by
    rw [hbytes, List.append_assoc, ← hhere, ← Array.length_toList, List.drop_left]
  have hword : littleEndian 4 w = [UInt8.ofNat (w >>> 0), UInt8.ofNat (w >>> 8),
      UInt8.ofNat (w >>> 16), UInt8.ofNat (w >>> 24)] := rfl
  unfold fetch
  rw [List.drop_drop, hdrop, hword]
  simp only [List.cons_append, UInt8.toNat_ofNat', Nat.shiftRight_eq_div_pow, Option.some.injEq]
  omega

variable (holds : Test → Bool) {out : List UInt8} {base here : Nat} {s s' : Emitter}
  (hhere : s.buffer.bytes.size = base + here) (hout : s'.buffer.bytes.toList <+: out)

include hhere hout

theorem follow_ret (h : Inst.ret.emit.exec s = (.ok (), s')) :
    follow holds (out.drop base) 1 here = .ret := by
  cases h
  have hfetch := fetch_of_putNat Word.ret.toNat_lt hhere hout
  simp [follow, hfetch, decode_ret]

theorem follow_jump {t : BranchTarget} (h : (Inst.jump t).emit.exec s = (.ok (), s')) :
    ∃ off, t = .resolved off ∧
      follow holds (out.drop base) 1 here = .reach (here + off.toInt) := by
  obtain ⟨w, hw, rfl⟩ := Emit.exec_checkedWord_eq_ok.mp h
  obtain ⟨bits, hbits, hw⟩ := Checked.bind_eq_ok.mp hw
  cases hw
  obtain ⟨off, rfl, hlt, hoff⟩ := wordField_eq_ok (by decide) hbits
  refine ⟨off, rfl, ?_⟩
  have hfetch := fetch_of_putNat (Word.jump false bits).toNat_lt hhere hout
  simp [follow, hfetch, decode_jump hlt, hoff]

/-- The word of a conditional branch: it is taken, or what follows it is. -/
theorem follow_branch {count : Nat} {t : BranchTarget} {cond : BranchCond}
    (h : (Emit.checkedWord do Word.branch cond (← t.wordField 19)).exec s = (.ok (), s'))
    (hcond : ∀ x, cond.test = some x → x.Encodable) :
    ∃ off test, t = .resolved off ∧ cond.test = some test ∧
      follow holds (out.drop base) (count + 1) here =
        if holds test then .reach (here + off.toInt)
        else follow holds (out.drop base) count (here + 4) := by
  obtain ⟨w, hw, rfl⟩ := Emit.exec_checkedWord_eq_ok.mp h
  obtain ⟨bits, hbits, hbranch⟩ := Checked.bind_eq_ok.mp hw
  obtain ⟨off, rfl, hlt, hoff⟩ := wordField_eq_ok (by decide) hbits
  obtain ⟨test, htest, hdecode⟩ := decode_branch hbranch hlt
  refine ⟨off, test, rfl, htest, ?_⟩
  have hfetch := fetch_of_putNat w.toNat_lt hhere hout
  simp [follow, hfetch, hdecode (hcond test htest), hoff]

/-- A branch that falls through: its word tests the condition or, if inverted, the opposite one. -/
theorem follow_tested {t : BranchTarget} {inverted : Bool} {cond : BranchCond}
    (h : (Inst.branchTo t inverted cond).emit.exec s = (.ok (), s'))
    (hcond : ∀ x, cond.test = some x → x.Encodable) :
    ∃ off tested test, t = .resolved off ∧ cond.invertIf inverted = .ok tested ∧
      tested.test = some test ∧ follow holds (out.drop base) 1 here =
        if holds test then .reach (here + off.toInt) else .reach (here + 4 : Nat) := by
  obtain ⟨w, hw, hs'⟩ := Emit.exec_checkedWord_eq_ok.mp h
  obtain ⟨tested, htested, hw⟩ := Checked.bind_eq_ok.mp hw
  have hword := Emit.exec_checkedWord_eq_ok.mpr ⟨w, hw, hs'⟩
  have hencodable : ∀ x, tested.test = some x → x.Encodable := by
    intro x hx
    cases inverted with
    | false =>
        cases htested
        exact hcond x hx
    | true =>
        -- the opposite of what is tested is the condition itself
        rw [← x.invert_invert]
        exact (hcond _ (BranchCond.test_of_invert (BranchCond.invert_symm htested) hx)).invert
  obtain ⟨off, test, rfl, htest, hfollow⟩ := follow_branch holds hhere hout hword hencodable
  exact ⟨off, tested, test, rfl, htested, htest, hfollow⟩

theorem follow_branchTo {t : BranchTarget} {inverted : Bool} {cond : BranchCond}
    (h : (Inst.branchTo t inverted cond).emit.exec s = (.ok (), s'))
    (hcond : ∀ x, cond.test = some x → x.Encodable)
    (hholds : ∀ x : Test, holds x.invert = !holds x) :
    ∃ off test, t = .resolved off ∧ cond.test = some test ∧
      follow holds (out.drop base) 1 here =
        if holds test != inverted then .reach (here + off.toInt) else .reach (here + 4 : Nat) := by
  obtain ⟨off, tested, test, rfl, htested, htest, hfollow⟩ :=
    follow_tested holds hhere hout h hcond
  cases inverted with
  | false =>
      cases htested
      refine ⟨off, test, rfl, htest, ?_⟩
      rw [Bool.bne_false]
      exact hfollow
  | true =>
      have hback := BranchCond.test_of_invert (BranchCond.invert_symm htested) htest
      refine ⟨off, test.invert, rfl, hback, ?_⟩
      rw [hholds, Bool.bne_true, Bool.not_not]
      exact hfollow

/-- Both words of a branch that does not fall through. -/
theorem follow_branchElse {t n : BranchTarget} {cond : BranchCond}
    (h : (Inst.branchElse t n cond).emit.exec s = (.ok (), s'))
    (hcond : ∀ x, cond.test = some x → x.Encodable) :
    ∃ off off' test, t = .resolved off ∧ n = .resolved off' ∧ cond.test = some test ∧
      follow holds (out.drop base) 2 here =
        if holds test then .reach (here + off.toInt)
        else .reach ((here + 4 : Nat) + off'.toInt) := by
  obtain ⟨⟨⟩, m, hfirst, hsecond⟩ := Emit.exec_bind_eq_ok.mp h
  obtain ⟨⟨bytes, _, hbytes⟩, _⟩ := Emit.Writes.checkedWord _ m () s' hsecond
  have hmiddle : m.buffer.bytes.toList <+: out := by
    refine List.IsPrefix.trans ?_ hout
    rw [hbytes]
    exact List.prefix_append _ _
  have hnext : m.buffer.bytes.size = base + (here + 4) := by
    rw [(Emit.Writes.checkedWord _ s () m hfirst).size, hhere, Nat.add_assoc]
  obtain ⟨off, test, rfl, htest, hfollow⟩ := follow_branch holds hhere hmiddle hfirst hcond
  obtain ⟨off', rfl, hjump⟩ := follow_jump holds hnext hout hsecond
  exact ⟨off, off', test, rfl, rfl, htest, by rw [hfollow, hjump]⟩

end Following

end Codegen.A64
