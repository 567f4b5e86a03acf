import Codegen.Proofs.A64.Bitmask
import Codegen.Proofs.A64.Disassembly

/-!
Shifts by an immediate are bitfield moves. A bitfield move rotates its source to the right by `immr`
and takes over the bits that came from the lowest `imms + 1`; the bits above those are zeros or
copies of bit `imms`. Where it rotates by less than it takes over, it extracts the bits from `immr`
to `imms` (a shift to the right), and otherwise it inserts the low bits with zeros below (a shift to
the left).

The move is read from the fields of a word by `bitfieldOf`, which knows nothing of shifts. Results
are compared bit by bit.
-/
namespace Codegen.A64

open BitmaskImm (elementLog pattern getLsbD_pattern toNat_and_levels)

section Moves

/-- The masks of a bitfield move on `w` bits: the bits that are taken over, and those that are not
above them. The elements are those of logical immediates, but one may be without a zero. -/
def bitfieldMasks (w : Nat) (n : Bool) (immr imms : BitVec 6) : Option (BitVec w × BitVec w) :=
  let len := elementLog n imms
  let levels := BitVec.ofNat 6 (2 ^ len - 1)
  let s := imms &&& levels
  let r := immr &&& levels
  if len < 1 ∨ w < 2 ^ len then none
  else some (pattern w (2 ^ len) (s.toNat + 1) r.toNat,
    pattern w (2 ^ len) (((s - r) &&& levels).toNat + 1) 0)

/-- What a bitfield move makes of its source, filled up with zeros or, if signed, with the highest
bit that is taken over. -/
def bitfieldMove {w : Nat} (signed n : Bool) (immr imms : BitVec 6) (src : BitVec w) :
    Option (BitVec w) := do
  let (wmask, tmask) ← bitfieldMasks w n immr imms
  let bottom := src.rotateRight immr.toNat &&& wmask
  let top := BitVec.fill w (signed && src.getLsbD imms.toNat)
  some ((top &&& ~~~tmask) ||| (bottom &&& tmask))

/-- The move in the low bits of a register, with zeros above them. Fields beyond the width are not
allocated. -/
def bitfieldIn (w : Width) (signed : Bool) (immr imms : Nat) (x : BitVec 64) :
    Option (BitVec 64) :=
  if w.bits ≤ immr ∨ w.bits ≤ imms then none
  else (bitfieldMove signed (decide (w = .w64)) (.ofNat 6 immr) (.ofNat 6 imms)
    (x.setWidth w.bits)).map (·.setWidth 64)

/-- What the bitfield move of a word makes of a register. There is none for words of other classes,
for an `N` that is not the one of the width, and for the move that keeps bits of its destination. -/
def bitfieldOf (word : UInt32) (x : BitVec 64) : Option (BitVec 64) :=
  let sf := field 31 1 word.toNat
  let immr := field 16 6 word.toNat
  let imms := field 10 6 word.toNat
  if field 23 6 word.toNat ≠ 0b100110 ∨ field 22 1 word.toNat ≠ sf then none
  else match field 29 2 word.toNat with
    | 0b00 => bitfieldIn (.ofSf sf) true immr imms x
    | 0b10 => bitfieldIn (.ofSf sf) false immr imms x
    | _ => none

/-- The eight bits from bit 4 on, and the same with their sign. -/
example : bitfieldMove false true 4 11 (0xfab0 : BitVec 64) = some 0xab ∧
    bitfieldMove true true 4 11 (0xfab0 : BitVec 64) = some 0xffffffffffffffab := by
  decide +kernel

def AluFn.shiftBy? {n : Nat} (fn : AluFn) (x : BitVec n) (amount : Nat) : Option (BitVec n) :=
  match fn with
  | lsl => some (x <<< amount)
  | lsr => some (x >>> amount)
  | asr => some (x.sshiftRight amount)
  | _ => none

end Moves

section Bits

theorem getLsbD_rotateRight_eq {w r i : Nat} (x : BitVec w) (hi : i < w) :
    (x.rotateRight r).getLsbD i = x.getLsbD ((i + r) % w) := by
  have hr : r % w < w := Nat.mod_lt r (by omega)
  have hsum : (i + r) % w = (i + r % w) % w := (Nat.add_mod_mod i r w).symm
  rw [BitVec.getLsbD_rotateRight, hsum]
  by_cases hwrap : i < w - r % w
  · rw [Nat.mod_eq_of_lt (show i + r % w < w by omega)]
    simp [hwrap, Nat.add_comm]
  · have hback : (i + r % w) % w = i - (w - r % w) := by
      rw [Nat.mod_eq_sub_mod (by omega), Nat.mod_eq_of_lt (by omega)]
      omega
    simp [hwrap, hi, hback]

variable {w : Width}

theorem Width.bits_cases (w : Width) : w.bits = 32 ∧ w ≠ .w64 ∨ w.bits = 64 ∧ w = .w64 := by
  cases w with
  | w32 => exact .inl ⟨rfl, by decide⟩
  | w64 => exact .inr ⟨rfl, rfl⟩

/-- With `N` for the width and `imms` within it, the element is the whole register. -/
theorem elementLog_whole {imms : BitVec 6} (hs : imms.toNat < w.bits) :
    ∃ len, elementLog (decide (w = .w64)) imms = len ∧ 0 < len ∧ len < 7 ∧ 2 ^ len = w.bits := by
  have hcode : (BitVec.ofBool (decide (w = .w64)) ++ ~~~imms).toNat =
      64 * (decide (w = .w64)).toNat + (63 - imms.toNat) := by
    rw [BitVec.toNat_append, ← Nat.shiftLeft_add_eq_or_of_lt (~~~imms).isLt, BitVec.toNat_not,
      BitVec.toNat_ofBool, Nat.shiftLeft_eq]
    omega
  rcases w.bits_cases with ⟨hbits, hw⟩ | ⟨hbits, hw⟩
  · refine ⟨5, ?_, by decide, by decide, hbits.symm⟩
    simp only [hw, decide_false, Bool.toNat_false] at hcode ⊢
    rw [elementLog, hcode, Nat.log2_eq_iff (by omega)]
    omega
  · refine ⟨6, ?_, by decide, by decide, hbits.symm⟩
    simp only [hw, decide_true, Bool.toNat_true] at hcode ⊢
    rw [elementLog, hcode, Nat.log2_eq_iff (by omega)]
    omega

theorem bitfieldMasks_eq {immr imms : BitVec 6} (hr : immr.toNat < w.bits)
    (hs : imms.toNat < w.bits) :
    bitfieldMasks w.bits (decide (w = .w64)) immr imms =
      some (pattern w.bits w.bits (imms.toNat + 1) immr.toNat,
        pattern w.bits w.bits ((imms.toNat + (w.bits - immr.toNat)) % w.bits + 1) 0) := by
  obtain ⟨len, hlen, hpos, hlt, hpow⟩ := elementLog_whole hs
  have hlevels : ∀ f : BitVec 6, (f &&& BitVec.ofNat 6 (w.bits - 1)).toNat = f.toNat % w.bits := by
    intro f
    rw [← hpow, toNat_and_levels hlt]
  have hdiff : ((imms &&& BitVec.ofNat 6 (w.bits - 1)) - (immr &&& BitVec.ofNat 6 (w.bits - 1)) &&&
      BitVec.ofNat 6 (w.bits - 1)).toNat = (imms.toNat + (w.bits - immr.toNat)) % w.bits := by
    rw [hlevels, BitVec.toNat_sub, hlevels, hlevels, Nat.mod_eq_of_lt hr, Nat.mod_eq_of_lt hs]
    rcases w.bits_cases with ⟨hbits, _⟩ | ⟨hbits, _⟩
    · rw [hbits] at hr hs ⊢
      omega
    · rw [hbits] at hr hs ⊢
      omega
  have hfits : ¬ (len < 1 ∨ w.bits < w.bits) := by omega
  simp only [bitfieldMasks, hlen, hpow, if_neg hfits, hdiff, hlevels, Nat.mod_eq_of_lt hr,
    Nat.mod_eq_of_lt hs]

/-- The bits of a bitfield move. Those up to the distance from `immr` to `imms` come from the
source, those above it from the extension. -/
theorem bitfieldMove_eq {immr imms : Nat} (signed : Bool) (src : BitVec w.bits)
    (hr : immr < w.bits) (hs : imms < w.bits) :
    ∃ y, bitfieldMove signed (decide (w = .w64)) (.ofNat 6 immr) (.ofNat 6 imms) src = some y ∧
      ∀ i, i < w.bits → y.getLsbD i =
        if i ≤ (imms + (w.bits - immr)) % w.bits then
          decide ((i + immr) % w.bits ≤ imms) && src.getLsbD ((i + immr) % w.bits)
        else signed && src.getLsbD imms := by
  have hfits : ∀ f, f < w.bits → (BitVec.ofNat 6 f).toNat = f := by
    intro f hf
    rw [BitVec.toNat_ofNat]
    rcases w.bits_cases with ⟨hbits, _⟩ | ⟨hbits, _⟩
    · omega
    · omega
  have hmasks := @bitfieldMasks_eq w (.ofNat 6 immr) (.ofNat 6 imms)
    (by rwa [hfits immr hr]) (by rwa [hfits imms hs])
  rw [hfits immr hr, hfits imms hs] at hmasks
  refine ⟨_, by simp only [bitfieldMove, hmasks, hfits immr hr, hfits imms hs, Option.bind_eq_bind,
    Option.bind_some]; rfl, ?_⟩
  intro i hi
  have hpos : 0 < w.bits := by omega
  rw [BitVec.getLsbD_or, BitVec.getLsbD_and, BitVec.getLsbD_and, BitVec.getLsbD_and,
    BitVec.getLsbD_not, BitVec.getLsbD_fill, getLsbD_rotateRight_eq src hi,
    getLsbD_pattern hpos (Nat.dvd_refl _) hi, getLsbD_pattern hpos (Nat.dvd_refl _) hi,
    Nat.add_zero, Nat.mod_eq_of_lt hi]
  simp only [hi, decide_true, Bool.and_true, Bool.true_and, Nat.lt_succ_iff]
  split
  · rename_i hlow
    simp [hlow, Bool.and_comm]
  · rename_i hhigh
    simp [hhigh]

variable {amount : Nat} (x : BitVec w.bits)

/-- Everything is taken over, and what came round the end is above `imms`. -/
theorem bitfieldMove_left (h : amount < w.bits) :
    bitfieldMove false (decide (w = .w64)) (.ofNat 6 ((w.bits - amount) % w.bits))
      (.ofNat 6 (w.bits - 1 - amount)) x = some (x <<< amount) := by
  have hr : (w.bits - amount) % w.bits < w.bits := Nat.mod_lt _ (by omega)
  have hwhole : (w.bits - 1 - amount + (w.bits - (w.bits - amount) % w.bits)) % w.bits =
      w.bits - 1 := by
    by_cases hzero : amount = 0
    · simp only [hzero, Nat.sub_zero, Nat.mod_self, Nat.add_mod_right]
      exact Nat.mod_eq_of_lt (by omega)
    · rw [Nat.mod_eq_of_lt (show w.bits - amount < w.bits by omega), Nat.mod_eq_of_lt (by omega)]
      omega
  obtain ⟨y, hmove, hy⟩ := bitfieldMove_eq false x hr (show w.bits - 1 - amount < w.bits by omega)
  rw [hmove]
  refine congrArg some (BitVec.eq_of_getLsbD_eq fun i hi => ?_)
  rw [hy i hi, hwhole, if_pos (by omega), Nat.add_mod_mod, BitVec.getLsbD_shiftLeft]
  by_cases hlow : i < amount
  · have hround : ¬ i + (w.bits - amount) ≤ w.bits - 1 - amount := by omega
    rw [Nat.mod_eq_of_lt (show i + (w.bits - amount) < w.bits by omega)]
    simp [hlow, hround]
  · have hback : (i + (w.bits - amount)) % w.bits = i - amount := by
      rw [Nat.mod_eq_sub_mod (by omega), Nat.mod_eq_of_lt (by omega)]
      omega
    have htaken : i - amount ≤ w.bits - 1 - amount := by omega
    simp [hlow, hi, hback, htaken]

/-- The high bits are taken over, and the extension is above them. -/
theorem bitfieldMove_right (signed : Bool) (h : amount < w.bits) :
    bitfieldMove signed (decide (w = .w64)) (.ofNat 6 amount) (.ofNat 6 (w.bits - 1)) x =
      some (if signed then x.sshiftRight amount else x >>> amount) := by
  have hrest : (w.bits - 1 + (w.bits - amount)) % w.bits = w.bits - 1 - amount := by
    rw [Nat.mod_eq_sub_mod (by omega), Nat.mod_eq_of_lt (by omega)]
    omega
  obtain ⟨y, hmove, hy⟩ := bitfieldMove_eq signed x h (show w.bits - 1 < w.bits by omega)
  rw [hmove]
  refine congrArg some (BitVec.eq_of_getLsbD_eq fun i hi => ?_)
  have hshift : (if signed then x.sshiftRight amount else x >>> amount).getLsbD i =
      if amount + i < w.bits then x.getLsbD (amount + i) else signed && x.msb := by
    cases signed with
    | true =>
        have hin : ¬ w.bits ≤ i := by omega
        rw [if_pos rfl, BitVec.getLsbD_sshiftRight]
        simp [hin]
    | false =>
        rw [if_neg (by decide), BitVec.getLsbD_ushiftRight]
        split
        · rfl
        · rename_i hout
          rw [BitVec.getLsbD_of_ge x _ (by omega), Bool.false_and]
  rw [hy i hi, hrest, hshift, Nat.add_comm i]
  by_cases hlow : i ≤ w.bits - 1 - amount
  · have htaken : amount + i ≤ w.bits - 1 := by omega
    have hin : amount + i < w.bits := by omega
    rw [if_pos hlow, if_pos hin, Nat.mod_eq_of_lt hin]
    simp [htaken]
  · rw [if_neg hlow, if_neg (by omega), BitVec.msb_eq_getLsbD_last]

end Bits

section Words

variable {fn : AluFn} {w : Width} {rd rn amount opc immr imms : Nat} {word : UInt32}

theorem Word.exists_shiftFields? :
    (∃ fields, Word.shiftFields? fn w amount = some fields) ↔ fn ∈ [AluFn.lsl, .lsr, .asr] := by
  cases fn with
  | lsl | lsr | asr => simp [Word.shiftFields?]
  | _ => simp [Word.shiftFields?]

theorem Word.shiftFields?_lt (h : Word.shiftFields? fn w amount = some (opc, immr, imms))
    (hamount : amount < w.bits) : immr < w.bits ∧ imms < w.bits ∧ (opc = 0b00 ∨ opc = 0b10) := by
  have hmod := Nat.mod_lt (w.bits - amount) (show w.bits > 0 by omega)
  cases fn with
  | lsl | lsr | asr =>
      cases h
      omega
  | _ => cases h

/-- The fields of a shift are those of a bitfield move that makes it. -/
theorem bitfieldMove_shiftFields (h : Word.shiftFields? fn w amount = some (opc, immr, imms))
    (hamount : amount < w.bits) (x : BitVec w.bits) :
    ∃ y, fn.shiftBy? x amount = some y ∧
      bitfieldMove (decide (opc = 0b00)) (decide (w = .w64)) (.ofNat 6 immr) (.ofNat 6 imms) x =
        some y := by
  cases fn with
  | lsl =>
      cases h
      exact ⟨_, rfl, bitfieldMove_left x hamount⟩
  | lsr =>
      cases h
      exact ⟨_, rfl, bitfieldMove_right x false hamount⟩
  | asr =>
      cases h
      exact ⟨_, rfl, bitfieldMove_right x true hamount⟩
  | _ => cases h

theorem Word.aluShift_eq_ok {op : AluOp} :
    Word.aluShift op rd rn amount = .ok word ↔
      ∃ fn w opc immr imms, op = .op fn w ∧ amount < w.bits ∧
        Word.shiftFields? fn w amount = some (opc, immr, imms) ∧
        word = Word.pack [(w.sf, 31), (opc, 29), (0b100110, 23), (w.sf, 22), (immr, 16), (imms, 10),
          (rn, 5), (rd, 0)] := by
  cases op with
  | undeclared code => simp [Word.aluShift, AluOp.parts]
  | op fn w =>
      simp only [Word.aluShift, AluOp.parts, Checked.ok_bind, Checked.broken_bind,
        Checked.ite_broken_eq_ok, Nat.not_le, AluOp.op.injEq]
      constructor
      · rintro ⟨hamount, h⟩
        split at h
        · rename_i opc immr imms hfields
          cases h
          exact ⟨fn, w, opc, immr, imms, ⟨rfl, rfl⟩, hamount, hfields, rfl⟩
        · cases h
      · rintro ⟨_, _, opc, immr, imms, ⟨rfl, rfl⟩, hamount, hfields, rfl⟩
        exact ⟨hamount, by rw [hfields]; rfl⟩

theorem Word.exists_defect_of_aluShift {op : AluOp} {f : Failure}
    (h : Word.aluShift op rd rn amount = .error f) : ∃ d, f = .defect d := by
  cases op with
  | undeclared code =>
      cases h
      exact ⟨_, rfl⟩
  | op fn w =>
      simp only [Word.aluShift, AluOp.parts, Checked.ok_bind, Checked.broken_bind] at h
      split at h
      · cases h
        exact ⟨_, rfl⟩
      · split at h
        · cases h
        · cases h
          exact ⟨_, rfl⟩

theorem bitfieldOf_aluShift (h : Word.aluShift (.op fn w) rd rn amount = .ok word) (hrd : rd < 32)
    (hrn : rn < 32) :
    field 0 5 word.toNat = rd ∧ field 5 5 word.toNat = rn ∧ ∀ x : BitVec 64, ∃ y,
      fn.shiftBy? (x.setWidth w.bits) amount = some y ∧
      bitfieldOf word x = some (y.setWidth 64) := by
  obtain ⟨_, _, opc, immr, imms, ⟨rfl, rfl⟩, hamount, hfields, hword⟩ := Word.aluShift_eq_ok.mp h
  obtain ⟨hr, hs, hopc⟩ := Word.shiftFields?_lt hfields hamount
  have hbits := w.bits_cases
  have hsf := w.sf_lt
  have hreads := reads_pack hword (by simp [Tiles]; omega)
  simp only [Reads, Nat.reduceSub] at hreads
  refine ⟨hreads.2.2.2.2.2.2.2.1, hreads.2.2.2.2.2.2.1, fun x => ?_⟩
  obtain ⟨y, hy, hmove⟩ := bitfieldMove_shiftFields hfields hamount (x.setWidth w.bits)
  refine ⟨y, hy, ?_⟩
  have hin : bitfieldIn w (decide (opc = 0b00)) immr imms x = some (y.setWidth 64) := by
    rw [bitfieldIn, if_neg (by omega), hmove, Option.map_some]
  simp only [bitfieldOf, hreads, Width.ofSf_sf, ne_eq, not_true_eq_false, or_self, if_false]
  rcases hopc with rfl | rfl
  · exact hin
  · exact hin

/-- A shift by an immediate has a word exactly if it is one of the three shifts and the amount is
below the width, and the bitfield move of the word makes this shift of every register value, with
zeros above 32 bits. What has no word is refused as a broken rule. -/
theorem aluShift_moves (op : AluOp) (rd rn amount : Nat) :
    ((∃ word, Word.aluShift op rd rn amount = .ok word) ↔
      ∃ fn w, op = .op fn w ∧ fn ∈ [AluFn.lsl, .lsr, .asr] ∧ amount < w.bits) ∧
    (∀ f, Word.aluShift op rd rn amount = .error f → ∃ d, f = .defect d) ∧
    ∀ fn w word, op = .op fn w → Word.aluShift op rd rn amount = .ok word → rd < 32 → rn < 32 →
      field 0 5 word.toNat = rd ∧ field 5 5 word.toNat = rn ∧ ∀ x : BitVec 64, ∃ y,
        fn.shiftBy? (x.setWidth w.bits) amount = some y ∧
        bitfieldOf word x = some (y.setWidth 64) := by
  refine ⟨⟨?_, ?_⟩, fun f h => Word.exists_defect_of_aluShift h, ?_⟩
  · rintro ⟨word, h⟩
    obtain ⟨fn, w, opc, immr, imms, hop, hamount, hfields, _⟩ := Word.aluShift_eq_ok.mp h
    exact ⟨fn, w, hop, Word.exists_shiftFields?.mp ⟨_, hfields⟩, hamount⟩
  · rintro ⟨fn, w, hop, hfn, hamount⟩
    obtain ⟨⟨opc, immr, imms⟩, hfields⟩ := Word.exists_shiftFields?.mpr hfn
    exact ⟨_, Word.aluShift_eq_ok.mpr ⟨fn, w, opc, immr, imms, hop, hamount, hfields, rfl⟩⟩
  · rintro fn w word rfl h hrd hrn
    exact bitfieldOf_aluShift h hrd hrn

theorem aluShift_moves_narrow :
    Word.aluShift (.op .asr .w32) 0 1 31 = .ok 0x131f7c20 ∧
      bitfieldOf 0x131f7c20 0xffffffff80000000 = some 0x00000000ffffffff := by
  have hword : Word.aluShift (.op .asr .w32) 0 1 31 = .ok 0x131f7c20 := by decide +kernel
  obtain ⟨_, _, hmoves⟩ := aluShift_moves (.op .asr .w32) 0 1 31
  obtain ⟨_, _, hmove⟩ := hmoves .asr .w32 _ rfl hword (by decide) (by decide)
  obtain ⟨y, hy, hof⟩ := hmove 0xffffffff80000000
  cases hy
  exact ⟨hword, hof.trans (by decide +kernel)⟩

end Words

end Codegen.A64
