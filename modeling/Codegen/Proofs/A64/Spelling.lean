import Codegen.A64.Listing
import Codegen.Proofs.Checked

/-!
The texts of an access and of the instructions around it, as an assembler reads them. Mnemonics and
operands are written out here for every access and every mode, and the texts of the listing are held
against them.
-/
namespace Codegen.A64

/-- A register goes by its name, and the low half of a general one has a `w` in place of the `x`. -/
inductive Sized (name : Naming) (r : Reg) : Bool → String → Prop
  | whole {narrow : Bool} :
      (narrow = true → r.isPhysical = true → r.cls = .i64 → ∀ rest : String, name r ≠ s!"x{rest}") →
      Sized name r narrow (name r)
  | half {rest : String} : r.isPhysical = true → r.cls = .i64 → name r = s!"x{rest}" →
      Sized name r true s!"w{rest}"

/-- How an access is written: its mnemonics with a scaled and with an unscaled offset, and whether
its data register is the low half. -/
structure Spelling where
  scaled : String
  unscaled : String
  narrow : Bool

def Access.spelling : Access → Spelling
  | load .u8 => ⟨"ldrb", "ldurb", true⟩
  | load .s8 => ⟨"ldrsb", "ldursb", false⟩
  | load .u16 => ⟨"ldrh", "ldurh", true⟩
  | load .s16 => ⟨"ldrsh", "ldursh", false⟩
  | load .u32 => ⟨"ldr", "ldur", true⟩
  | load .s32 => ⟨"ldrsw", "ldursw", false⟩
  | load .u64 => ⟨"ldr", "ldur", false⟩
  | store .b8 => ⟨"strb", "sturb", true⟩
  | store .b16 => ⟨"strh", "sturh", true⟩
  | store .b32 => ⟨"str", "stur", true⟩
  | store .b64 => ⟨"str", "stur", false⟩

/-- A distance from the instruction. -/
def fromHere (d : Int) : String := if d < 0 then s!"pc-{d.natAbs}" else s!"pc+{d.natAbs}"

/-- The place of an access in a finalized mode, and whether it is shown as unscaled. The base of a
pre-indexed mode has been updated before. -/
inductive Address.Spelled (name : Naming) : Address → Bool → String → Prop
  | base {rn : Reg} : Spelled name (base rn) true s!"[{name rn}]"
  | unscaledZero {rn : Reg} : Spelled name (unscaled rn ⟨0⟩) true s!"[{name rn}]"
  | unscaled {rn : Reg} {imm : SImm9} : imm.value ≠ 0 →
      Spelled name (unscaled rn imm) true s!"[{name rn}, #{imm.value.toInt}]"
  | scaledZero {rn : Reg} {ty : ValueType} : Spelled name (scaled rn ⟨0, ty⟩) false s!"[{name rn}]"
  | scaled {rn : Reg} {imm : UImm12} : imm.value ≠ 0 →
      Spelled name (scaled rn imm) false s!"[{name rn}, #{imm.value.toNat}]"
  | index {rn rm : Reg} : Spelled name (index rn rm) false s!"[{name rn}, {name rm}]"
  | indexScaled {rn rm : Reg} {ty : ValueType} {shift : Nat} : ty.bytes = .ok (1 <<< shift) →
      Spelled name (indexScaled rn rm ty) false s!"[{name rn}, {name rm}, lsl #{shift}]"
  | indexExtended {rn rm : Reg} {ty : ValueType} {ext : ExtendOp} {low : String} {shift : Nat} :
      ty.bytes = .ok (1 <<< shift) → Sized name rm (ext = .uxtw ∨ ext = .sxtw) low →
      Spelled name (indexExtended rn rm ty ext) false
        s!"[{name rn}, {low}, {embed ext.text} #{shift}]"
  | literal {offset : Int64} : Spelled name (literal offset) false (fromHere offset.toInt)
  | preIndexed {rn : Reg} {imm : SImm9} : Spelled name (preIndexed rn imm) false s!"[{name rn}]"
  | postIndexed {rn : Reg} {imm : SImm9} :
      Spelled name (postIndexed rn imm) false s!"[{name rn}], #{imm.value.toInt}"

/-- A load or store of `r` in a finalized mode. -/
inductive Access.Spelled (name : Naming) (a : Access) (r : Reg) (address : Address) : String → Prop
  | scaled {data place : String} : Sized name r a.spelling.narrow data →
      address.Spelled name false place → Spelled name a r address
        s!"{a.spelling.scaled} {data}, {place}"
  | unscaled {data place : String} : Sized name r a.spelling.narrow data →
      address.Spelled name true place → Spelled name a r address
        s!"{a.spelling.unscaled} {data}, {place}"

inductive Setup.Spelled (name : Naming) : Setup → String → Prop
  | literal {rd : Reg} {offset : Int64} :
      Spelled name (literal rd offset) s!"ldr {name rd}, {fromHere offset.toInt}"
  | sum {rd rn rm : Reg} : Spelled name (sum rd rn rm) s!"add {name rd}, {name rn}, {name rm}"

/-- The update of the base, for the modes that have one. -/
inductive Mem.UpdateSpelled (name : Naming) : Mem → List String → Prop
  | sub {rn : Reg} {imm : SImm9} : imm.value.toInt ≤ 0 →
      UpdateSpelled name (direct (.preIndexed rn imm))
        [s!"sub {name rn}, {name rn}, #{imm.value.toInt.natAbs}"]
  | add {rn : Reg} {imm : SImm9} : 0 < imm.value.toInt →
      UpdateSpelled name (direct (.preIndexed rn imm))
        [s!"add {name rn}, {name rn}, #{imm.value.toInt.natAbs}"]
  | none {mem : Mem} : (∀ rn imm, mem ≠ direct (.preIndexed rn imm)) → UpdateSpelled name mem []

/-- The mode of an access after the update of its base. -/
def Address.updated : Address → Address
  | preIndexed rn _ => base rn
  | address => address

section Texts

variable {name : Naming} {a : Access} {r : Reg}

theorem sized_sizedName (name : Naming) (narrow : Bool) (r : Reg) :
    Sized name r narrow (sizedName name narrow r) := by
  unfold sizedName
  dsimp only
  split
  · rename_i hlow
    simp only [Bool.and_eq_true, decide_eq_true_eq] at hlow
    obtain ⟨⟨rfl, hphysical⟩, hcls⟩ := hlow
    split
    · rename_i rest hname
      have hhalf : name r = s!"x{String.ofList rest}" := by
        rw [← String.ofList_toList (s := name r), hname, String.ofList_cons]
        rfl
      rw [String.ofList_cons]
      exact .half hphysical hcls hhalf
    · rename_i hother
      refine .whole fun _ _ _ rest hname => hother rest.toList ?_
      rw [hname, String.toList_append]
      rfl
  · rename_i hwhole
    refine .whole fun hnarrow hphysical hcls => absurd ?_ hwhole
    simp only [hnarrow, hphysical, hcls, decide_true, Bool.and_self]

theorem pc_signed (d : Int) : "pc" ++ Text.signed d = fromHere d := by
  cases d with
  | ofNat n => rfl
  | negSucc n =>
      have hneg : Int.negSucc n < 0 := Int.negSucc_lt_zero n
      have hsign : toString (Int.negSucc n) = "-" ++ toString (n + 1) := rfl
      rw [Text.signed, fromHere, if_pos hneg, if_pos hneg, hsign, ← String.append_assoc]
      rfl

theorem showOperands_two (mnemonic a b : String) :
    showOperands mnemonic [a, b] = s!"{mnemonic} {a}, {b}" := by
  have hcommas : ", ".intercalate [a, b] = a ++ ", " ++ b := rfl
  simp only [showOperands, hcommas, toString, String.append_assoc]

theorem showOperands_three (mnemonic a b c : String) :
    showOperands mnemonic [a, b, c] = s!"{mnemonic} {a}, {b}, {c}" := by
  have hcommas : ", ".intercalate [a, b, c] = a ++ ", " ++ b ++ ", " ++ c := rfl
  simp only [showOperands, hcommas, toString, String.append_assoc]

theorem bytes_eq_shift {ty : ValueType} {bytes : Nat} (h : ty.bytes = .ok bytes) :
    ty.bytes = .ok (1 <<< scaleShift bytes) := by
  have hshift : 1 <<< scaleShift bytes = bytes := by
    cases ty with
    | _ => cases h <;> decide
  rw [hshift, h]

theorem Access.mnemonic_eq (a : Access) (unscaled : Bool) : a.mnemonic unscaled =
    if unscaled then a.spelling.unscaled else a.spelling.scaled := by
  cases a with
  | load op | store op =>
      cases op with
      | _ => cases unscaled <;> rfl

theorem Access.isNarrow_eq (a : Access) : a.isNarrow = a.spelling.narrow := by
  cases a with
  | load op | store op =>
      cases op with
      | _ => rfl

theorem offset_text (rn v : String) :
    "[" ++ rn ++ ", " ++ ("#" ++ v) ++ "]" = s!"[{rn}, #{v}]" := by
  have hcomma : (", #" : String) = ", " ++ "#" := rfl
  simp only [hcomma, toString, String.append_assoc]

/-- The place that the listing shows, which puts some of the texts together in another order. -/
theorem Address.spelled_of_text {address : Address} {place : String}
    (h : address.updated.text name = .ok place) :
    address.Spelled name address.isUnscaled place := by
  cases address with
  | unset => cases h
  | base rn | preIndexed rn imm =>
      cases h
      constructor
  | index rn rm =>
      cases h
      exact .index
  | unscaled rn imm =>
      cases h
      split
      · rename_i hzero
        have himm : imm = ⟨0⟩ := congrArg SImm9.mk hzero
        rw [himm]
        exact .unscaledZero
      · rename_i hoffset
        exact offset_text (name rn) _ ▸ .unscaled hoffset
  | scaled rn imm =>
      cases h
      split
      · rename_i hzero
        have himm : imm = ⟨0, imm.ty⟩ := congrArg (UImm12.mk · imm.ty) hzero
        rw [himm]
        exact .scaledZero
      · rename_i hoffset
        exact offset_text (name rn) _ ▸ .scaled hoffset
  | indexScaled rn rm ty =>
      obtain ⟨bytes, hbytes, h⟩ := Checked.bind_eq_ok.mp h
      have hplace : place = s!"[{name rn}, {name rm}, lsl #{scaleShift bytes}]" := by
        simp only [toString, ← String.append_assoc] at h ⊢
        exact (Except.ok.inj h).symm
      rw [hplace]
      exact .indexScaled (bytes_eq_shift hbytes)
  | indexExtended rn rm ty ext =>
      obtain ⟨bytes, hbytes, h⟩ := Checked.bind_eq_ok.mp h
      have hword : ext.isWord = decide (ext = .uxtw ∨ ext = .sxtw) := by
        cases ext with
        | _ => rfl
      have hsized := sized_sizedName name ext.isWord rm
      simp only [hword] at h hsized
      generalize sizedName name (decide (ext = .uxtw ∨ ext = .sxtw)) rm = low at h hsized
      have hplace : place =
          s!"[{name rn}, {low}, {embed ext.text} #{scaleShift bytes}]" := by
        simp only [toString, ← String.append_assoc] at h ⊢
        exact (Except.ok.inj h).symm
      rw [hplace]
      exact .indexExtended (bytes_eq_shift hbytes) hsized
  | literal offset =>
      cases h
      rw [pc_signed]
      exact .literal
  | postIndexed rn imm =>
      cases h
      have hcomma : ("], #" : String) = "], " ++ "#" := rfl
      have hplace : "[" ++ name rn ++ "], " ++ imm.text = s!"[{name rn}], #{imm.value.toInt}" := by
        simp only [SImm9.text, immText, hcomma, toString, String.append_assoc]
      rw [hplace]
      exact .postIndexed

theorem Access.spelled_of_showAccess {address : Address} {text : String}
    (h : showAccess name a address.isUnscaled r address.updated = .ok text) :
    a.Spelled name r address text := by
  obtain ⟨place, hplace, h⟩ := Checked.bind_eq_ok.mp h
  cases h
  have haddress := Address.spelled_of_text hplace
  have hdata := sized_sizedName name a.spelling.narrow r
  rw [showOperands_two, mnemonic_eq, isNarrow_eq]
  cases hunscaled : address.isUnscaled with
  | true =>
      rw [hunscaled] at haddress
      exact .unscaled hdata haddress
  | false =>
      rw [hunscaled] at haddress
      exact .scaled hdata haddress

theorem Setup.spelled_of_text {step : Setup} {text : String} (h : step.text name = .ok text) :
    step.Spelled name text := by
  cases step with
  | literal rd offset =>
      cases h
      rw [showOperands_two, pc_signed]
      exact .literal
  | sum rd rn rm =>
      cases h
      exact .sum

/-- An addition to or a subtraction from a register, unless it is shown as a move. -/
theorem showAluImm_update {fn : AluFn} {n : Nat} (hn : n < 2 ^ 16) (hzero : fn = .add → n ≠ 0)
    (r : Reg) : showAluImm name (.op fn .w64) r r { bits := UInt16.ofNat n } =
      .ok s!"{fn.mnemonic} {name r}, {name r}, #{n}" := by
  have hbits : (UInt16.ofNat n).toNat = n := by rw [UInt16.toNat_ofNat', Nat.mod_eq_of_lt hn]
  have hmove : ¬ (AluOp.op fn .w64 = .op .add .w64 ∧ UInt16.ofNat n = 0) := by
    rintro ⟨hop, hnone⟩
    cases hop
    rw [hnone] at hbits
    exact hzero rfl hbits.symm
  have hcomma : (", #" : String) = ", " ++ "#" := rfl
  rw [showAluImm, if_neg hmove]
  have hshown : showAlu name (.op fn .w64) [r, r] [Imm12.text { bits := UInt16.ofNat n }] =
      .ok (showOperands fn.mnemonic [name r, name r, "#" ++ toString (UInt16.ofNat n).toNat]) := rfl
  rw [hshown, showOperands_three, hbits]
  simp only [hcomma, toString, String.append_assoc]

theorem Mem.updateSpelled_of_showBaseUpdate {rn : Reg} {imm : SImm9} {text : String}
    (h : showBaseUpdate name rn imm = .ok text) :
    (Mem.direct (.preIndexed rn imm)).UpdateSpelled name [text] := by
  have hlow := imm.value.le_toInt
  have hhigh := imm.value.toInt_lt
  have habs : imm.value.toInt.natAbs < 2 ^ 16 := by omega
  unfold showBaseUpdate at h
  dsimp only at h
  by_cases hneg : imm.value.toInt ≤ 0
  · have hnat : (-imm.value.toInt).toNat = imm.value.toInt.natAbs := by omega
    rw [if_pos hneg, hnat] at h
    cases (showAluImm_update habs (fun hadd => by cases hadd) rn).symm.trans h
    exact .sub hneg
  · have hnat : imm.value.toInt.toNat = imm.value.toInt.natAbs := by omega
    rw [if_neg hneg, hnat] at h
    cases (showAluImm_update habs (fun _ => by omega) rn).symm.trans h
    exact .add (by omega)

theorem Mem.UpdateSpelled.ne_empty {mem : Mem} {update : List String}
    (h : mem.UpdateSpelled name update) : "" ∉ update := by
  cases h with
  | sub => simp [toString]
  | add => simp [toString]
  | none => exact List.not_mem_nil

theorem Setup.Spelled.ne_empty {step : Setup} {text : String} (h : step.Spelled name text) :
    text ≠ "" := by
  cases h with
  | literal => simp [toString]
  | sum => simp [toString]

theorem Setup.spelled_ne_empty {steps : List Setup} {texts : List String}
    (h : List.Forall₂ (Setup.Spelled name) steps texts) : "" ∉ texts := by
  induction h with
  | nil => exact List.not_mem_nil
  | cons hstep _ ih =>
      rw [List.mem_cons, not_or]
      exact ⟨hstep.ne_empty.symm, ih⟩

theorem Access.Spelled.ne_empty {address : Address} {text : String}
    (h : a.Spelled name r address text) : text ≠ "" := by
  cases h with
  | scaled => simp [toString]
  | unscaled => simp [toString]

end Texts

end Codegen.A64
