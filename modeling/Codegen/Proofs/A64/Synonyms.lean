import Codegen.Proofs.A64.Bitmask
import Codegen.Proofs.A64.Disassembly
import Codegen.Proofs.A64.Expansion
import Codegen.Proofs.A64.Operands
import Codegen.Proofs.Universe

/-!
The word of an instruction tells the instruction. `Inst.form` is the form that the word is to have.
Some instructions share their words: `Inst.canonical` gives the one that stands for its synonyms.
Up to these, what `disassemble` finds in the word are the operation and every operand.
-/
namespace Codegen.A64

section Forms

/-- The mode that stands for its synonyms: a base alone is one at offset zero, and an index that is
scaled is one that is extended from its whole width. -/
def Address.canonical : Address → Address
  | base rn => unscaled rn ⟨0⟩
  | indexScaled rn rm ty => indexExtended rn rm ty .uxtx
  | a => a

def Address.place? : Address → Option Place
  | unscaled rn imm => some (.unscaled (number rn) imm.value.toInt)
  | scaled rn imm => some (.scaled (number rn) imm.value.toNat)
  | index rn rm => some (.index (number rn) (number rm))
  | indexExtended rn rm _ ext => some (.indexScaled (number rn) (number rm) ext)
  | literal offset => some (.literal offset.toInt)
  | preIndexed rn imm => some (.preIndexed (number rn) imm.value.toInt)
  | postIndexed rn imm => some (.postIndexed (number rn) imm.value.toInt)
  | _ => none

namespace Inst

/-- The instruction with its memory operand reduced, at the given offset and for the given pool. -/
def reduced (here : CodeOffset) (pool : ConstantPool) : Inst → Inst
  | load op rd mem => load op rd (.direct (mem.finalize here (.pool pool)).address)
  | store op rt mem => store op rt (.direct (mem.finalize here (.pool pool)).address)
  | i => i

/-- The instruction that stands for its synonyms. A plain register operand is one that is shifted by
nothing, or one that is extended from its whole width where only that form has the stack pointer. A
move is a logical or with the register of number 31, or an addition of zero. -/
def canonical : Inst → Inst
  | alu (.op fn w) rd rn rm =>
    if fn.shift?.isSome then alu (.op fn w) rd rn rm
    else if (fn = .add ∨ fn = .sub) ∧ (rd = sp ∨ rn = sp) then
      aluExtended (.op fn w) rd rn rm (if w = .w32 then .uxtw else .uxtx)
    else aluShifted (.op fn w) rd rn rm ⟨.lsl, 0⟩
  | aluShift (.op fn w) rd rn imm =>
    aluShift (.op (if imm.amount.toNat = 0 ∧ fn = .lsl then .lsr else fn) w) rd rn imm
  | mov rd rm =>
    if rd = sp ∨ rm = sp then aluImm (.op .add .w64) rd rm ⟨0, false⟩
    else aluShifted (.op .orr .w64) rd xzr rm ⟨.lsl, 0⟩
  | load op rd (.direct a) => load op rd (.direct a.canonical)
  | store op rt (.direct a) => store op rt (.direct a.canonical)
  | branchTo t true cond =>
    match cond.invert with
    | .ok opposite => branchTo t false opposite
    | .error _ => branchTo t true cond
  | i => i

/-- The form of the word of an instruction that stands for its synonyms. -/
def form : Inst → Option Form
  | nop4 => some .nop
  | alu (.op fn w) rd rn rm => some (.shiftReg fn w (number rd) (number rn) (number rm))
  | aluThree (.op .madd w) rd rn rm ra =>
    some (.multiplyAdd w (number rd) (number rn) (number rm) (number ra))
  | aluImm (.op fn w) rd rn imm =>
    some (.imm12 fn w (number rd) (number rn) imm.bits.toNat imm.shift12)
  | aluBitmask (.op fn w) rd rn imm =>
    some (.bitmask fn w (number rd) (number rn) imm.n imm.immr.toNat imm.imms.toNat)
  | aluShift (.op fn w) rd rn imm =>
    some (.shiftImm fn w (number rd) (number rn) imm.amount.toNat)
  | aluShifted (.op fn w) rd rn rm shift =>
    some (.shifted fn w (number rd) (number rn) (number rm) shift.op shift.amount.toNat)
  | aluExtended (.op fn w) rd rn rm ext =>
    some (.extended fn w (number rd) (number rn) (number rm) ext)
  | load op rd (.direct a) => a.place?.map (.access (.load op) (number rd))
  | store op rt (.direct a) => a.place?.map (.access (.store op) (number rt))
  | storePair rt rt2 (.access mode rn imm) =>
    some (.pair false (number rt) (number rt2) mode (number rn) imm.value.toInt)
  | loadPair rd rd2 (.access mode rn imm) =>
    some (.pair true (number rd) (number rd2) mode (number rn) imm.value.toInt)
  | movZ rd imm => some (.moveWide false (number rd) imm.bits.toNat imm.shift.toNat)
  | movN rd imm => some (.moveWide true (number rd) imm.bits.toNat imm.shift.toNat)
  | call _ _ => some (.call 0)
  | callReg rn => some (.callReg (number rn))
  | ret => some (.ret (number lr))
  | jump (.resolved offset) => some (.jump offset.toInt)
  | branchTo (.resolved offset) false cond => cond.test.map (.branch · offset.toInt)
  | udf _ => some .udf
  | _ => none

end Inst

end Forms

section Operands

def Address.Made : Address → Prop
  | unscaled _ imm | preIndexed _ imm | postIndexed _ imm => ∃ v, SImm9.ofValue? v = some imm
  | indexExtended _ _ _ ext => ext ∈ ExtendOp.declared
  | _ => True

def Mem.Made : Mem → Prop
  | direct a => a.Made
  | _ => True

def PairMem.Made : PairMem → Prop
  | access _ _ imm => ∃ v, SImm7.ofValue v imm.ty = .ok (some imm)
  | unset => True

def BranchCond.Made : BranchCond → Prop
  | flag c => c ∈ Cond.declared
  | _ => True

/-- The operands of the instruction are as their constructors make them, and its codes are declared
ones. -/
def Inst.Made : Inst → Prop
  | aluImm _ _ _ imm => ∃ v, Imm12.ofValue? v = some imm
  | aluBitmask _ _ _ imm => ∃ v w, BitmaskImm.ofValue? v w = some imm
  | aluShifted _ _ _ _ shift => shift.op ∈ ShiftOp.declared
  | aluExtended _ _ _ _ ext => ext ∈ ExtendOp.declared
  | load _ _ mem | store _ _ mem => mem.Made
  | storePair _ _ mem | loadPair _ _ mem => mem.Made
  | movZ _ imm | movN _ imm => ∃ v, MoveWide.ofValue? v = some imm
  | branchTo _ _ cond => cond.Made
  | _ => True

def Address.Known (a : Address) : Prop :=
  ∀ used modified, a.regs = .ok (used, modified) → ∀ r ∈ used ++ modified, registers.Known r

/-- The register operands are registers of the target. -/
def Inst.Known (i : Inst) : Prop :=
  ∀ o, i.occurrences = .ok o → ∀ r ∈ o.all, registers.Known r

theorem Inst.known_iff {i : Inst} :
    i.Known ↔ ∀ o ∈ i.occurrences.toOption, ∀ r ∈ o.all, registers.Known r := by
  unfold Known
  cases i.occurrences with
  | error f => simp [Except.toOption]
  | ok o => simp [Except.toOption]

instance (i : Inst) : Decidable i.Known := decidable_of_iff _ Inst.known_iff.symm

theorem hwEnc_of_known {r : Reg} (h : registers.Known r) : hwEnc r = .ok (number r) := by
  have hall : ∀ r ∈ registers.regs.map (·.reg), hwEnc r = .ok (number r) := by decide
  exact hall r h

theorem number_lt {r : Reg} (h : registers.Known r) : number r < 32 := by
  have hall : ∀ r ∈ registers.regs.map (·.reg), number r < 32 := by decide
  exact hall r h

theorem and_not_eq_zero_iff {v mask : UInt64} :
    v &&& ~~~mask = 0 ↔ v.toNat &&& mask.toNat = v.toNat := by
  rw [← UInt64.toNat_and, UInt64.toNat_inj, ← UInt64.toBitVec_inj, ← UInt64.toBitVec_inj]
  constructor
  · intro h
    ext i hi
    have hbit := congrArg (·.getLsbD i) h
    simp at hbit ⊢
    grind
  · intro h
    ext i hi
    have hbit := congrArg (·.getLsbD i) h
    simp at hbit ⊢
    grind

theorem toNat_le_of_and_not {v mask : UInt64} (h : v &&& ~~~mask = 0) : v.toNat ≤ mask.toNat := by
  rw [← and_not_eq_zero_iff.mp h]
  exact Nat.and_le_right

theorem Imm12.bits_lt {v : UInt64} {imm : Imm12} (h : ofValue? v = some imm) :
    imm.bits.toNat < 2 ^ 12 := by
  unfold ofValue? at h
  split at h
  · rename_i hmask
    cases h
    have hle := toNat_le_of_and_not hmask
    simp at hle ⊢
    omega
  · split at h
    · rename_i hmask
      cases h
      have hle := toNat_le_of_and_not hmask
      simp [Nat.shiftRight_eq_div_pow] at hle ⊢
      omega
    · cases h

theorem MoveWide.shift_lt {v : UInt64} {imm : MoveWide} (h : ofValue? v = some imm) :
    imm.shift.toNat < 4 := by
  obtain ⟨quarter, hquarter, h⟩ := List.exists_of_findSome?_eq_some h
  have hlt : quarter < 4 := by
    simp at hquarter
    omega
  dsimp only at h
  split at h
  · cases h
    rw [UInt8.toNat_ofNat']
    omega
  · cases h

theorem SImm9.value_bounds {v : Int64} {imm : SImm9} (h : ofValue? v = some imm) :
    imm.value.toInt = v.toInt ∧ -256 ≤ imm.value.toInt ∧ imm.value.toInt ≤ 255 := by
  unfold ofValue? at h
  split at h
  · rename_i hrange
    cases h
    have hvalue : (Int16.ofInt v.toInt).toInt = v.toInt :=
      Int16.toInt_ofInt_of_le (by omega) (by omega)
    rw [hvalue]
    exact ⟨rfl, hrange⟩
  · cases h

theorem SImm7.value_bounds {v : Int64} {imm : SImm7} (h : ofValue v imm.ty = .ok (some imm))
    (hty : imm.ty.bytes = .ok 8) : imm.value.toInt.tmod 8 = 0 ∧
      -64 ≤ imm.value.toInt.tdiv 8 ∧ imm.value.toInt.tdiv 8 ≤ 63 := by
  cases imm with
  | mk value ty =>
      simp only [ofValue, hty, Checked.ok_bind] at h
      split at h
      · cases h
      · rename_i hrange
        cases h
        have hdiv := Int.mul_tdiv_add_tmod v.toInt 8
        push_cast at hrange
        rw [Int16.toInt_ofInt_of_le (by omega) (by omega)]
        omega

end Operands

section Words

/-- The word tells the operation and the operands of the instruction. -/
def Inst.ToldBy (i : Inst) (w : UInt32) : Prop :=
  ∃ f, disassemble w = some f ∧ i.canonical.form = some f

variable {word : UInt32}

theorem disassemble_access {a : Access} {rt : Nat} {address : Address}
    (h : Word.access a rt address = .ok word) (hmade : address.Made) (hregs : address.Known)
    (hrt : rt < 32) :
    ∃ place, address.canonical.place? = some place ∧
      disassemble word = some (.access a rt place) := by
  cases address with
  | unset => cases h
  | base rn =>
      have hrn := hregs _ _ rfl rn (by simp)
      simp only [Word.access, hwEnc_of_known hrn, Checked.ok_bind, Checked.pure_eq_ok] at h
      have hzero : SImm9.field ⟨0⟩ = 0 := by decide
      have hword : word = Word.accessImm9 a 0b00 (number rn) rt (SImm9.field ⟨0⟩) := by
        rw [hzero, h]
      rw [hword]
      exact ⟨_, rfl, disassemble_imm9 (by simp) (by decide) (number_lt hrn) hrt⟩
  | unscaled rn imm | preIndexed rn imm | postIndexed rn imm =>
      obtain ⟨v, hv⟩ := hmade
      have hrn := hregs _ _ rfl rn (by simp)
      simp only [Word.access, hwEnc_of_known hrn, Checked.ok_bind, Checked.pure_eq_ok] at h
      rw [← h]
      exact ⟨_, rfl, disassemble_imm9 (by simp) (SImm9.value_bounds hv).2 (number_lt hrn) hrt⟩
  | scaled rn imm =>
      have hrn := hregs _ _ rfl rn (by simp)
      simp only [Word.access, hwEnc_of_known hrn, Checked.ok_bind] at h
      split at h
      · cases h
      · rename_i hscale
        cases h
        exact ⟨_, rfl, disassemble_scaled (by omega) (by omega) (number_lt hrn) hrt⟩
  | index rn rm =>
      have hrn := hregs _ _ rfl rn (by simp)
      have hrm := hregs _ _ rfl rm (by simp)
      simp only [Word.access, hwEnc_of_known hrn, hwEnc_of_known hrm, Checked.ok_bind,
        Checked.pure_eq_ok] at h
      rw [← h]
      exact ⟨_, rfl, disassemble_index (by decide) (fun _ => rfl) (number_lt hrn) (number_lt hrm)
        hrt⟩
  | indexScaled rn rm ty =>
      have hrn := hregs _ _ rfl rn (by simp)
      have hrm := hregs _ _ rfl rm (by simp)
      simp only [Word.access, hwEnc_of_known hrn, hwEnc_of_known hrm, Checked.bind_eq_ok,
        Checked.ok_bind, Checked.pure_eq_ok] at h
      obtain ⟨⟨⟩, _, rfl⟩ := h
      exact ⟨_, rfl, disassemble_index (by decide) (fun h => by cases h) (number_lt hrn)
        (number_lt hrm) hrt⟩
  | indexExtended rn rm ty ext =>
      have hrn := hregs _ _ rfl rn (by simp)
      have hrm := hregs _ _ rfl rm (by simp)
      simp only [Word.access, hwEnc_of_known hrn, hwEnc_of_known hrm, Checked.bind_eq_ok,
        Checked.ok_bind, Checked.pure_eq_ok] at h
      obtain ⟨⟨⟩, _, rfl⟩ := h
      exact ⟨_, rfl, disassemble_index hmade (fun h => by cases h) (number_lt hrn) (number_lt hrm)
        hrt⟩
  | literal offset => exact ⟨_, rfl, disassemble_literal h hrt⟩

section Instructions

variable {op : AluOp} {rd rn rm ra : Reg}

theorem toldBy_alu (hknown : (Inst.alu op rd rn rm).Known)
    (h : (do Word.alu op (← hwEnc rd) (← hwEnc rn) (← hwEnc rm) (rd = sp || rn = sp)) = .ok word) :
    (Inst.alu op rd rn rm).ToldBy word := by
  have hrd := hknown _ rfl rd (by simp [Inst.Occurrences.all])
  have hrn := hknown _ rfl rn (by simp [Inst.Occurrences.all])
  have hrm := hknown _ rfl rm (by simp [Inst.Occurrences.all])
  simp only [hwEnc_of_known hrd, hwEnc_of_known hrn, hwEnc_of_known hrm, Checked.ok_bind] at h
  have hrd := number_lt hrd
  have hrn := number_lt hrn
  have hrm := number_lt hrm
  cases op with
  | undeclared code => cases h
  | op fn w =>
      have hextended : ∀ opS, fn.addSub? = some opS →
          disassemble (Word.addSubExtended w opS (number rm) (0b010 ||| w.sf) (number rn)
            (number rd)) = some (.extended fn w (number rd) (number rn) (number rm)
              (if w = .w32 then .uxtw else .uxtx)) := by
        intro opS hopS
        cases w with
        | w32 =>
            have huxtw : ExtendOp.uxtw ∈ ExtendOp.declared := by decide
            have hcode : 0b010 ||| Width.w32.sf = ExtendOp.uxtw.code := by decide
            rw [hcode]
            exact disassemble_addSubExtended hopS huxtw hrd hrn hrm
        | w64 =>
            have huxtx : ExtendOp.uxtx ∈ ExtendOp.declared := by decide
            have hcode : 0b010 ||| Width.w64.sf = ExtendOp.uxtx.code := by decide
            rw [hcode]
            exact disassemble_addSubExtended hopS huxtx hrd hrn hrm
      have hlsl : ShiftOp.lsl ∈ ShiftOp.declared := by decide
      have hshifted := fun opS (hopS : fn.addSub? = some opS) =>
        disassemble_addSubShifted (w := w) hopS hlsl (Nat.two_pow_pos 6) hrd hrn hrm
      have hlogical := fun opc (hopc : fn.logical? = some opc) =>
        disassemble_logicalShifted (w := w) hopc hlsl (Nat.two_pow_pos 6) hrd hrn hrm
      have hshift := fun opcode (hopcode : fn.shift? = some opcode) =>
        disassemble_shiftReg (w := w) hopcode hrd hrn hrm
      simp only [Word.alu, AluOp.parts, Checked.ok_bind] at h
      cases fn with
      | add | sub =>
          by_cases hsp : rd = sp ∨ rn = sp
          · simp [AluFn.addSub?, hsp] at h
            rw [← h]
            exact ⟨_, hextended _ rfl, by simp [Inst.canonical, AluFn.shift?, hsp, Inst.form]⟩
          · simp [AluFn.addSub?, hsp] at h
            rw [← h]
            exact ⟨_, hshifted _ rfl, by simp [Inst.canonical, AluFn.shift?, hsp, Inst.form]⟩
      | adds | subs =>
          simp [AluFn.addSub?] at h
          rw [← h.2]
          exact ⟨_, hshifted _ rfl, by simp [Inst.canonical, AluFn.shift?, Inst.form]⟩
      | orr | and | eor =>
          cases h
          exact ⟨_, hlogical _ rfl, rfl⟩
      | lsl | lsr | asr =>
          cases h
          exact ⟨_, hshift _ rfl, rfl⟩
      | madd => cases h

theorem toldBy_aluThree (hknown : (Inst.aluThree op rd rn rm ra).Known)
    (h : (do Word.aluThree op (← hwEnc rd) (← hwEnc rn) (← hwEnc rm) (← hwEnc ra)) = .ok word) :
    (Inst.aluThree op rd rn rm ra).ToldBy word := by
  have hrd := hknown _ rfl rd (by simp [Inst.Occurrences.all])
  have hrn := hknown _ rfl rn (by simp [Inst.Occurrences.all])
  have hrm := hknown _ rfl rm (by simp [Inst.Occurrences.all])
  have hra := hknown _ rfl ra (by simp [Inst.Occurrences.all])
  simp only [hwEnc_of_known hrd, hwEnc_of_known hrn, hwEnc_of_known hrm, hwEnc_of_known hra,
    Checked.ok_bind] at h
  cases op with
  | undeclared code => cases h
  | op fn w =>
      cases fn with
      | madd =>
          cases h
          exact ⟨_, disassemble_multiplyAdd (number_lt hrd) (number_lt hrn) (number_lt hrm)
            (number_lt hra), rfl⟩
      | _ => cases h

theorem addSubOf_eq_ok {shape : AluForm} {opS : Nat} {w : Width}
    (h : Word.addSubOf op shape = .ok (opS, w)) : ∃ fn, op = .op fn w ∧ fn.addSub? = some opS := by
  cases op with
  | undeclared code => cases h
  | op fn w' =>
      simp only [Word.addSubOf] at h
      split at h
      · rename_i hadd
        cases h
        exact ⟨fn, rfl, hadd⟩
      · cases h

theorem toldBy_aluImm {imm : Imm12} (hknown : (Inst.aluImm op rd rn imm).Known)
    (hmade : (Inst.aluImm op rd rn imm).Made)
    (h : (do Word.aluImm op (← hwEnc rd) (← hwEnc rn) imm) = .ok word) :
    (Inst.aluImm op rd rn imm).ToldBy word := by
  have hrd := hknown _ rfl rd (by simp [Inst.Occurrences.all])
  have hrn := hknown _ rfl rn (by simp [Inst.Occurrences.all])
  simp only [hwEnc_of_known hrd, hwEnc_of_known hrn, Checked.ok_bind] at h
  obtain ⟨⟨opS, w⟩, hop, hword⟩ := Checked.bind_eq_ok.mp h
  obtain ⟨fn, rfl, hfn⟩ := addSubOf_eq_ok hop
  obtain ⟨v, hv⟩ := hmade
  have himm := Imm12.bits_lt hv
  cases hword
  rw [Nat.mod_eq_of_lt (show imm.bits.toNat < 0x1000 from himm)]
  exact ⟨_, disassemble_addSubImm hfn himm (number_lt hrd) (number_lt hrn), rfl⟩

theorem toldBy_aluExtended {ext : ExtendOp} (hknown : (Inst.aluExtended op rd rn rm ext).Known)
    (hmade : (Inst.aluExtended op rd rn rm ext).Made)
    (h : (do Word.aluExtended op (← hwEnc rd) (← hwEnc rn) (← hwEnc rm) ext) = .ok word) :
    (Inst.aluExtended op rd rn rm ext).ToldBy word := by
  have hrd := hknown _ rfl rd (by simp [Inst.Occurrences.all])
  have hrn := hknown _ rfl rn (by simp [Inst.Occurrences.all])
  have hrm := hknown _ rfl rm (by simp [Inst.Occurrences.all])
  simp only [hwEnc_of_known hrd, hwEnc_of_known hrn, hwEnc_of_known hrm, Checked.ok_bind] at h
  obtain ⟨⟨opS, w⟩, hop, hword⟩ := Checked.bind_eq_ok.mp h
  obtain ⟨fn, rfl, hfn⟩ := addSubOf_eq_ok hop
  cases hword
  exact ⟨_, disassemble_addSubExtended hfn hmade (number_lt hrd) (number_lt hrn) (number_lt hrm),
    rfl⟩

theorem toldBy_aluBitmask {imm : BitmaskImm} (hknown : (Inst.aluBitmask op rd rn imm).Known)
    (hmade : (Inst.aluBitmask op rd rn imm).Made)
    (h : (do Word.aluBitmask op (← hwEnc rd) (← hwEnc rn) imm) = .ok word) :
    (Inst.aluBitmask op rd rn imm).ToldBy word := by
  have hrd := hknown _ rfl rd (by simp [Inst.Occurrences.all])
  have hrn := hknown _ rfl rn (by simp [Inst.Occurrences.all])
  simp only [hwEnc_of_known hrd, hwEnc_of_known hrn, Checked.ok_bind] at h
  cases op with
  | undeclared code => cases h
  | op fn w =>
      cases hlogical : fn.logical? with
      | none => simp [Word.aluBitmask, hlogical] at h
      | some opc =>
          simp only [Word.aluBitmask, hlogical, Checked.ite_broken_eq_ok, Except.ok.injEq] at h
          obtain ⟨v, w', hv⟩ := hmade
          obtain ⟨himmr, himms⟩ := BitmaskImm.fields_lt hv
          rw [← h.2]
          exact ⟨_, disassemble_bitmask hlogical himmr himms (number_lt hrd) (number_lt hrn), rfl⟩

theorem toldBy_aluShift {imm : ShiftImm} (hknown : (Inst.aluShift op rd rn imm).Known)
    (h : (do Word.aluShift op (← hwEnc rd) (← hwEnc rn) imm.amount.toNat) = .ok word) :
    (Inst.aluShift op rd rn imm).ToldBy word := by
  have hrd := hknown _ rfl rd (by simp [Inst.Occurrences.all])
  have hrn := hknown _ rfl rn (by simp [Inst.Occurrences.all])
  simp only [hwEnc_of_known hrd, hwEnc_of_known hrn, Checked.ok_bind] at h
  cases op with
  | undeclared code => cases h
  | op fn w =>
      simp only [Word.aluShift, AluOp.parts, Checked.ok_bind] at h
      split at h
      · cases h
      · rename_i hamount
        split at h
        · rename_i opc immr imms hfields
          cases h
          exact ⟨_, disassemble_shiftImm hfields (Nat.lt_of_not_le hamount) (number_lt hrd)
            (number_lt hrn), rfl⟩
        · cases h

theorem toldBy_aluShifted {shift : ShiftAmount} (hknown : (Inst.aluShifted op rd rn rm shift).Known)
    (hmade : (Inst.aluShifted op rd rn rm shift).Made)
    (h : (do Word.aluShifted op (← hwEnc rd) (← hwEnc rn) (← hwEnc rm) shift) = .ok word) :
    (Inst.aluShifted op rd rn rm shift).ToldBy word := by
  have hrd := hknown _ rfl rd (by simp [Inst.Occurrences.all])
  have hrn := hknown _ rfl rn (by simp [Inst.Occurrences.all])
  have hrm := hknown _ rfl rm (by simp [Inst.Occurrences.all])
  simp only [hwEnc_of_known hrd, hwEnc_of_known hrn, hwEnc_of_known hrm, Checked.ok_bind] at h
  cases op with
  | undeclared code => cases h
  | op fn w =>
      have hbits : w.bits ≤ 64 := by
        cases w with
        | w32 => decide
        | w64 => decide
      simp only [Word.aluShifted, AluOp.parts, Checked.ok_bind] at h
      split at h
      · cases h
      · rename_i hamount
        split at h
        · rename_i opS hopS
          split at h
          · cases h
          · cases h
            exact ⟨_, disassemble_addSubShifted hopS hmade (by omega) (number_lt hrd)
              (number_lt hrn) (number_lt hrm), rfl⟩
        · split at h
          · rename_i opc hopc
            cases h
            exact ⟨_, disassemble_logicalShifted hopc hmade (by omega) (number_lt hrd)
              (number_lt hrn) (number_lt hrm), rfl⟩
          · cases h

theorem toldBy_mov (hrd : number rd < 32) (hrm : number rm < 32) : (Inst.mov rd rm).ToldBy
    (if rd = sp || rm = sp then Word.movSp (number rd) (number rm)
      else Word.mov (number rd) (number rm)) := by
  by_cases hsp : rd = sp ∨ rm = sp
  · have hadd : AluFn.add.addSub? = some 0b00 := rfl
    refine ⟨.imm12 .add .w64 (number rd) (number rm) 0 false, ?_, ?_⟩
    · simpa [hsp, Word.movSp] using
        disassemble_addSubImm (w := .w64) hadd (Nat.two_pow_pos 12) hrd hrm
    · simp [Inst.canonical, hsp, Inst.form]
  · have horr : AluFn.orr.logical? = some 0b01 := rfl
    have hlsl : ShiftOp.lsl ∈ ShiftOp.declared := by decide
    refine ⟨.shifted .orr .w64 (number rd) 31 (number rm) .lsl 0, ?_, ?_⟩
    · have hform := disassemble_logicalShifted (w := .w64) horr hlsl (Nat.two_pow_pos 6) hrd
        (show 31 < 32 by decide) hrm
      simpa [hsp, Word.mov, ShiftOp.code] using hform
    · simp [Inst.canonical, hsp, Inst.form, number, xzr]

theorem toldBy_pair {load : Bool} {mem : PairMem} (hmade : mem.Made)
    (hknown : ∀ used modified, mem.regs = .ok (used, modified) →
      ∀ r ∈ rd :: rn :: (used ++ modified), registers.Known r)
    (h : (do Word.pair load (← hwEnc rd) (← hwEnc rn) mem) = .ok word) :
    (if load then Inst.loadPair rd rn mem else .storePair rd rn mem).ToldBy word := by
  obtain ⟨d, hd, h⟩ := Checked.bind_eq_ok.mp h
  obtain ⟨n, hn, h⟩ := Checked.bind_eq_ok.mp h
  cases mem with
  | unset => cases h
  | access mode base imm =>
      have hregs : registers.Known rd ∧ registers.Known rn ∧ registers.Known base := by
        cases mode with
        | _ => exact ⟨hknown _ _ rfl rd (by simp), hknown _ _ rfl rn (by simp),
            hknown _ _ rfl base (by simp)⟩
      obtain ⟨hrd, hrn, hbase⟩ := hregs
      rw [hwEnc_of_known hrd] at hd
      rw [hwEnc_of_known hrn] at hn
      cases hd
      cases hn
      obtain ⟨v, hv⟩ := hmade
      simp only [Word.pair, Checked.bind_eq_ok, hwEnc_of_known hbase, Checked.ok_bind] at h
      obtain ⟨scale, hscale, h⟩ := h
      split at h
      · cases h
      · rename_i hne
        cases Decidable.not_not.mp hne
        cases h
        refine ⟨_, disassemble_pair (SImm7.value_bounds hv hscale) (number_lt hrd) (number_lt hrn)
          (number_lt hbase), ?_⟩
        cases load with
        | false => rfl
        | true => rfl

theorem toldBy_moveWide (complement : Bool) {imm : MoveWide} {v : UInt64}
    (hv : MoveWide.ofValue? v = some imm) (hrd : registers.Known rd) :
    (if complement then Inst.movN rd imm else .movZ rd imm).ToldBy
      (Word.moveWide (if complement then 0b00 else 0b10) (number rd) imm) := by
  refine ⟨_, disassemble_moveWide (MoveWide.shift_lt hv) (number_lt hrd), ?_⟩
  cases complement with
  | false => rfl
  | true => rfl

theorem toldBy_jump {target : BranchTarget}
    (h : (do return Word.jump false (← target.wordField 26)) = .ok word) :
    (Inst.jump target).ToldBy word := by
  obtain ⟨bits, hbits, hword⟩ := Checked.bind_eq_ok.mp h
  obtain ⟨offset, rfl, hlt, hoffset⟩ := wordField_eq_ok (by decide) hbits
  cases hword
  refine ⟨_, disassemble_jump hlt, ?_⟩
  simp only [Bool.false_eq_true, if_false, hoffset]
  rfl

theorem toldBy_branch {target : BranchTarget} {cond : BranchCond} (hmade : cond.Made)
    (hregs : ∀ r ∈ cond.reg?.toList, registers.Known r)
    (h : (do Word.branch cond (← target.wordField 19)) = .ok word) :
    (Inst.branchTo target false cond).ToldBy word := by
  obtain ⟨bits, hbits, hbranch⟩ := Checked.bind_eq_ok.mp h
  obtain ⟨offset, rfl, hlt, hoffset⟩ := wordField_eq_ok (by decide) hbits
  cases cond with
  | unset => cases hbranch
  | zero r | notZero r =>
      have hr := hregs r (by simp [BranchCond.reg?])
      simp only [Word.branch, hwEnc_of_known hr, Checked.ok_bind, Checked.pure_eq_ok] at hbranch
      rw [← hbranch]
      refine ⟨_, disassemble_compareBranch hlt (number_lt hr), ?_⟩
      simp [Inst.canonical, Inst.form, BranchCond.test, hwEnc_of_known hr, Except.toOption, hoffset]
  | flag c =>
      cases hbranch
      have hcode : ∀ c ∈ Cond.declared, c.code < 16 := by decide
      refine ⟨_, disassemble_flag hlt (hcode c hmade), ?_⟩
      simp [Inst.canonical, Inst.form, BranchCond.test, hoffset]

/-- The word of an inverted branch is that of the branch on the opposite condition. -/
theorem toldBy_branchTo {target : BranchTarget} {inverted : Bool} {cond : BranchCond}
    (hmade : cond.Made) (hregs : ∀ r ∈ cond.reg?.toList, registers.Known r)
    (h : (do Word.branch (← cond.invertIf inverted) (← target.wordField 19)) = .ok word) :
    (Inst.branchTo target inverted cond).ToldBy word := by
  obtain ⟨tested, htested, hword⟩ := Checked.bind_eq_ok.mp h
  cases inverted with
  | false =>
      cases htested
      exact toldBy_branch hmade hregs hword
  | true =>
      have hinvert : cond.invert = .ok tested := htested
      have hopposite : tested.Made ∧ tested.reg? = cond.reg? := by
        cases cond with
        | unset => cases hinvert
        | zero r | notZero r =>
            cases hinvert
            exact ⟨trivial, rfl⟩
        | flag c =>
            cases hinvert
            have hall : ∀ c ∈ Cond.declared, c.invert ∈ Cond.declared := by decide
            exact ⟨hall c hmade, rfl⟩
      obtain ⟨f, hf, hform⟩ := toldBy_branch hopposite.1 (hopposite.2 ▸ hregs) hword
      refine ⟨f, hf, ?_⟩
      simpa only [Inst.canonical, hinvert] using hform

end Instructions

end Words

section Emission

open Emit (exec_bind_eq_ok exec_checkedWord_eq_ok)

theorem Mem.made_finalize {mem : Mem} (h : mem.Made) (here : CodeOffset) (sink : ConstantSink) :
    (mem.finalize here sink).address.Made := by
  cases mem with
  | direct a => exact h
  | constant data => trivial
  | stack offset =>
      simp only [finalize]
      cases himm : SImm9.ofValue? offset with
      | some imm => exact ⟨offset, himm⟩
      | none => trivial

/-- The registers of a reduced operand are those of the operand, or reserved ones. -/
theorem Mem.known_finalize {mem : Mem} (h : ∀ used modified, mem.regs = .ok (used, modified) →
    ∀ r ∈ used ++ modified, registers.Known r) (here : CodeOffset) (sink : ConstantSink) :
    (mem.finalize here sink).address.Known := by
  cases mem with
  | direct a => exact h
  | constant data =>
      intro used modified hregs r hr
      cases hregs
      cases hr
  | stack offset =>
      intro used modified hregs r hr
      simp only [finalize] at hregs
      cases himm : SImm9.ofValue? offset with
      | some imm =>
          rw [himm] at hregs
          cases hregs
          cases List.mem_singleton.mp hr
          decide
      | none =>
          rw [himm] at hregs
          cases hregs
          cases List.mem_singleton.mp hr
          decide

/-- The operand of an access that was emitted has registers. -/
theorem Mem.regs_of_access {mem : Mem} {a : Access} {rt : Nat} {here : CodeOffset}
    {sink : ConstantSink} {word : UInt32}
    (h : Word.access a rt (mem.finalize here sink).address = .ok word) :
    ∃ used modified, mem.regs = .ok (used, modified) := by
  cases mem with
  | direct address =>
      cases address with
      | unset => cases h
      | _ => exact ⟨_, _, rfl⟩
  | constant data => exact ⟨[], [], rfl⟩
  | stack offset => exact ⟨[fp], [], rfl⟩

variable {s t : Emitter}

/-- The one word of an access tells the address that the operand is reduced to. -/
theorem disassemble_emitAccess {a : Access} {r : Reg} {mem : Mem}
    (h : (do emitAccess a (← Emit.ofChecked (hwEnc r)) mem).exec s = (.ok (), t))
    (hmade : mem.Made) (hknown : ∀ used modified, mem.regs = .ok (used, modified) →
      registers.Known r ∧ ∀ r' ∈ used ++ modified, registers.Known r')
    (hone : t.buffer.bytes.size = s.buffer.bytes.size + 4) :
    ∃ word place, t.buffer.bytes.toList = s.buffer.bytes.toList ++ littleEndian 4 word.toNat ∧
      (mem.finalize s.buffer.offset (.pool s.pool)).address.canonical.place? = some place ∧
      disassemble word = some (.access a (number r) place) := by
  obtain ⟨rt, m, hrt, h⟩ := exec_bind_eq_ok.mp h
  obtain ⟨hrt, rfl⟩ : hwEnc r = .ok rt ∧ s = m := Prod.mk.inj hrt
  obtain ⟨steps, word, _, hword, rfl⟩ := exec_emitAccess.mp h
  obtain ⟨used, modified, hregs⟩ := mem.regs_of_access hword
  obtain ⟨hr, _⟩ := hknown used modified hregs
  rw [hwEnc_of_known hr] at hrt
  cases hrt
  have hsteps : steps = [] := by
    rw [CodeBuffer.size_put, length_wordBytes, List.length_append, List.length_singleton] at hone
    exact List.length_eq_zero_iff.mp (by omega)
  obtain ⟨place, hplace, hform⟩ := disassemble_access hword (Mem.made_finalize hmade _ _)
    (Mem.known_finalize (fun used modified h => (hknown used modified h).2) _ _) (number_lt hr)
  refine ⟨word, place, ?_, hplace, hform⟩
  simp [hsteps, wordBytes, CodeBuffer.put]

/-- The word of an instruction that is emitted as one word, for registers of the target and operands
as their constructors make them: it tells the operation, every register and every other operand, up
to synonyms. -/
theorem Inst.toldBy_of_emit {i : Inst} (hknown : i.Known) (hmade : i.Made)
    (hemit : i.emit.exec s = (.ok (), t)) (hone : t.buffer.bytes.size = s.buffer.bytes.size + 4) :
    ∃ word : UInt32, t.buffer.bytes.toList = s.buffer.bytes.toList ++ littleEndian 4 word.toNat ∧
      (i.reduced s.buffer.offset s.pool).ToldBy word := by
  have hchecked : ∀ {w : Checked UInt32}, (Emit.checkedWord w).exec s = (.ok (), t) →
      ∃ word, w = .ok word ∧
        t.buffer.bytes.toList = s.buffer.bytes.toList ++ littleEndian 4 word.toNat := by
    intro w h
    obtain ⟨word, hword, rfl⟩ := exec_checkedWord_eq_ok.mp h
    exact ⟨word, hword, CodeBuffer.toList_put _ _⟩
  cases i with
  | unset | branch => cases hemit
  | nop =>
      cases hemit
      omega
  | nop4 =>
      cases hemit
      exact ⟨Word.nop, CodeBuffer.toList_put _ _, .nop, disassemble_nop, rfl⟩
  | alu op rd rn rm =>
      obtain ⟨word, hword, hbytes⟩ := hchecked hemit
      exact ⟨word, hbytes, toldBy_alu hknown hword⟩
  | aluThree op rd rn rm ra =>
      obtain ⟨word, hword, hbytes⟩ := hchecked hemit
      exact ⟨word, hbytes, toldBy_aluThree hknown hword⟩
  | aluImm op rd rn imm =>
      obtain ⟨word, hword, hbytes⟩ := hchecked hemit
      exact ⟨word, hbytes, toldBy_aluImm hknown hmade hword⟩
  | aluBitmask op rd rn imm =>
      obtain ⟨word, hword, hbytes⟩ := hchecked hemit
      exact ⟨word, hbytes, toldBy_aluBitmask hknown hmade hword⟩
  | aluShift op rd rn imm =>
      obtain ⟨word, hword, hbytes⟩ := hchecked hemit
      exact ⟨word, hbytes, toldBy_aluShift hknown hword⟩
  | aluShifted op rd rn rm shift =>
      obtain ⟨word, hword, hbytes⟩ := hchecked hemit
      exact ⟨word, hbytes, toldBy_aluShifted hknown hmade hword⟩
  | aluExtended op rd rn rm ext =>
      obtain ⟨word, hword, hbytes⟩ := hchecked hemit
      exact ⟨word, hbytes, toldBy_aluExtended hknown hmade hword⟩
  | load op rd mem =>
      have hregs : ∀ used modified, mem.regs = .ok (used, modified) →
          registers.Known rd ∧ ∀ r ∈ used ++ modified, registers.Known r := by
        intro used modified hregs
        have hall := hknown { used, defined := [rd], modified } (by simp [occurrences, hregs])
        simp only [Occurrences.all, List.mem_append, List.mem_singleton] at hall ⊢
        exact ⟨hall rd (by simp), fun r hr => hall r (by tauto)⟩
      obtain ⟨word, place, hbytes, hplace, hform⟩ := disassemble_emitAccess hemit hmade hregs hone
      exact ⟨word, hbytes, _, hform, by simp [reduced, canonical, form, hplace]⟩
  | store op rt mem =>
      have hregs : ∀ used modified, mem.regs = .ok (used, modified) →
          registers.Known rt ∧ ∀ r ∈ used ++ modified, registers.Known r := by
        intro used modified hregs
        have hall := hknown { used := rt :: used, modified } (by simp [occurrences, hregs])
        simp only [Occurrences.all, List.mem_append, List.mem_cons, List.not_mem_nil] at hall ⊢
        exact ⟨hall rt (by simp), fun r hr => hall r (by tauto)⟩
      obtain ⟨word, place, hbytes, hplace, hform⟩ := disassemble_emitAccess hemit hmade hregs hone
      exact ⟨word, hbytes, _, hform, by simp [reduced, canonical, form, hplace]⟩
  | storePair rt rt2 mem =>
      obtain ⟨word, hword, hbytes⟩ := hchecked hemit
      refine ⟨word, hbytes, toldBy_pair hmade ?_ hword⟩
      intro used modified hregs r hr
      refine hknown { used := rt :: rt2 :: used, modified } (by simp [occurrences, hregs]) r ?_
      simpa [Occurrences.all] using hr
  | loadPair rd rd2 mem =>
      obtain ⟨word, hword, hbytes⟩ := hchecked hemit
      refine ⟨word, hbytes, toldBy_pair hmade ?_ hword⟩
      intro used modified hregs r hr
      refine hknown { used, defined := [rd, rd2], modified } (by simp [occurrences, hregs]) r ?_
      simp only [Occurrences.all, List.mem_append, List.mem_cons, List.not_mem_nil] at hr ⊢
      tauto
  | mov rd rm =>
      have hrd := hknown _ rfl rd (by simp [Occurrences.all])
      have hrm := hknown _ rfl rm (by simp [Occurrences.all])
      obtain ⟨word, hword, hbytes⟩ := hchecked hemit
      simp only [hwEnc_of_known hrd, hwEnc_of_known hrm, Checked.ok_bind, Checked.pure_eq_ok]
        at hword
      exact ⟨word, hbytes, hword ▸ toldBy_mov (number_lt hrd) (number_lt hrm)⟩
  | movZ rd imm =>
      have hrd := hknown _ rfl rd (by simp [Occurrences.all])
      obtain ⟨word, hword, hbytes⟩ := hchecked hemit
      obtain ⟨v, hv⟩ := hmade
      simp only [hwEnc_of_known hrd, Checked.ok_bind, Checked.pure_eq_ok] at hword
      rw [← hword] at hbytes
      exact ⟨_, hbytes, toldBy_moveWide false hv hrd⟩
  | movN rd imm =>
      have hrd := hknown _ rfl rd (by simp [Occurrences.all])
      obtain ⟨word, hword, hbytes⟩ := hchecked hemit
      obtain ⟨v, hv⟩ := hmade
      simp only [hwEnc_of_known hrd, Checked.ok_bind, Checked.pure_eq_ok] at hword
      rw [← hword] at hbytes
      exact ⟨_, hbytes, toldBy_moveWide true hv hrd⟩
  | call callee stackmap =>
      refine ⟨Word.jump true 0, ?_, .call 0, disassemble_jump (Nat.two_pow_pos 26), rfl⟩
      cases stackmap with
      | some m =>
          cases hemit
          exact CodeBuffer.toList_put (s.buffer.reloc .call callee 0) _
      | none =>
          cases hemit
          exact CodeBuffer.toList_put (s.buffer.reloc .call callee 0) _
  | callReg rn =>
      have hrn := hknown _ rfl rn (by simp [Occurrences.all])
      obtain ⟨word, hword, hbytes⟩ := hchecked hemit
      simp only [hwEnc_of_known hrn, Checked.ok_bind, Checked.pure_eq_ok] at hword
      exact ⟨word, hbytes, _, hword ▸ disassemble_callReg (number_lt hrn), rfl⟩
  | ret =>
      cases hemit
      exact ⟨Word.ret, CodeBuffer.toList_put _ _, .ret 30, disassemble_ret, rfl⟩
  | jump target =>
      obtain ⟨word, hword, hbytes⟩ := hchecked hemit
      exact ⟨word, hbytes, toldBy_jump hword⟩
  | branchTo target inverted cond =>
      obtain ⟨word, hword, hbytes⟩ := hchecked hemit
      refine ⟨word, hbytes, toldBy_branchTo hmade (fun r hr => hknown _ rfl r ?_) hword⟩
      simpa [Occurrences.all] using hr
  | branchElse taken notTaken cond =>
      have hsize := (writes_emit _ s () t hemit).size
      simp [size] at hsize
      omega
  | udf trap =>
      cases hemit
      refine ⟨0, ?_, .udf, disassemble_zero, rfl⟩
      exact CodeBuffer.toList_put (s.buffer.trap trap) _

def constantLoad : Inst := .load .u32 (gpr 3) (.constant [1, 2, 3, 4])

def oneWord : Emitter :=
  { buffer := { bytes := #[0x1f, 0x20, 0x03, 0xd5] }, pool := { base := 16 } }

theorem Inst.toldBy_of_emit_constantLoad :
    constantLoad.Known ∧ constantLoad.Made ∧ ∃ t, constantLoad.emit.exec oneWord = (.ok (), t) ∧
      t.buffer.bytes.size = oneWord.buffer.bytes.size + 4 ∧ ∃ word : UInt32,
        t.buffer.bytes.toList = oneWord.buffer.bytes.toList ++ littleEndian 4 word.toNat ∧
        (constantLoad.reduced oneWord.buffer.offset oneWord.pool).ToldBy word := by
  have hknown : constantLoad.Known := by decide
  have hemit : constantLoad.emit.exec oneWord = (.ok (), (constantLoad.emit.exec oneWord).2) := by
    decide +kernel
  have hone : (constantLoad.emit.exec oneWord).2.buffer.bytes.size =
      oneWord.buffer.bytes.size + 4 := by decide +kernel
  exact ⟨hknown, trivial, _, hemit, hone, toldBy_of_emit hknown trivial hemit hone⟩

end Emission

end Codegen.A64
