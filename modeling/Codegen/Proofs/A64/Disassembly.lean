import Codegen.Proofs.A64.Form

/-!
Words read back. The fields of a packed word tile its bits (`Tiles`), so that each of them stands in
its place (`Reads`); from there, one lemma for each class of words says that `disassemble` finds the
operands that the word was made of.
-/
namespace Codegen.A64

section Fields

def Tiles : Nat → List (Nat × Nat) → Prop
  | _, [] => True
  | top, (v, low) :: rest => low ≤ top ∧ v < 2 ^ (top - low) ∧ Tiles low rest

def Reads (word : Nat) : Nat → List (Nat × Nat) → Prop
  | _, [] => True
  | top, (v, low) :: rest => field low (top - low) word = v ∧ Reads word low rest

theorem reads_foldl {top : Nat} {fields : List (Nat × Nat)} (h : Tiles top fields) (a : Nat) :
    ∃ r < 2 ^ top, fields.foldl (fun word f => word ||| (f.1 <<< f.2)) (a * 2 ^ top) =
      a * 2 ^ top + r ∧ Reads (a * 2 ^ top + r) top fields := by
  induction fields generalizing top a with
  | nil => exact ⟨0, Nat.two_pow_pos top, rfl, trivial⟩
  | cons f fields ih =>
      obtain ⟨v, low⟩ := f
      obtain ⟨hlow, hv, hrest⟩ := h
      have htop : 2 ^ top = 2 ^ (top - low) * 2 ^ low := by
        rw [← Nat.pow_add, Nat.sub_add_cancel hlow]
      have hor : a * 2 ^ top ||| v <<< low = (a * 2 ^ (top - low) + v) * 2 ^ low := by
        rw [htop, ← Nat.mul_assoc, ← Nat.shiftLeft_eq, ← Nat.shiftLeft_eq _ low,
          ← Nat.shiftLeft_or_distrib, ← Nat.shiftLeft_eq a, ← Nat.shiftLeft_add_eq_or_of_lt hv]
      obtain ⟨r, hr, hfold, hreads⟩ := ih hrest (a * 2 ^ (top - low) + v)
      have hsum : (a * 2 ^ (top - low) + v) * 2 ^ low + r = a * 2 ^ top + (v * 2 ^ low + r) := by
        rw [htop, Nat.add_mul, Nat.mul_assoc, Nat.add_assoc]
      have hlt : v * 2 ^ low + r < 2 ^ top := by
        rw [htop]
        calc v * 2 ^ low + r < (v + 1) * 2 ^ low := by rw [Nat.add_mul]; omega
          _ ≤ 2 ^ (top - low) * 2 ^ low := Nat.mul_le_mul_right _ hv
      refine ⟨v * 2 ^ low + r, hlt, ?_, ?_, ?_⟩
      · rw [List.foldl_cons, hor, hfold, hsum]
      · rw [← hsum, field, Nat.add_comm, Nat.add_mul_div_right _ _ (Nat.two_pow_pos low),
          Nat.div_eq_of_lt hr, Nat.zero_add, Nat.add_comm, Nat.add_mul_mod_self_right,
          Nat.mod_eq_of_lt hv]
      · rw [← hsum]
        exact hreads

theorem pack_congr {fields others : List (Nat × Nat)}
    (h : fields.foldl (fun word f => word ||| (f.1 <<< f.2)) 0 =
      others.foldl (fun word f => word ||| (f.1 <<< f.2)) 0) :
    Word.pack fields = Word.pack others := congrArg UInt32.ofNat h

theorem pack_concat_zero (fields : List (Nat × Nat)) (low : Nat) :
    Word.pack (fields ++ [(0, low)]) = Word.pack fields := by
  simp [Word.pack]

/-- A word packed from fields that tile it has each of them in its place. -/
theorem reads_pack {fields : List (Nat × Nat)} {w : UInt32} (hw : w = Word.pack fields)
    (h : Tiles 32 fields) : Reads w.toNat 32 fields := by
  obtain ⟨r, hr, hfold, hreads⟩ := reads_foldl h 0
  rw [Nat.zero_mul, Nat.zero_add] at hfold hreads
  rw [hw, Word.pack, hfold, UInt32.toNat_ofNat', Nat.mod_eq_of_lt hr]
  exact hreads

theorem field_split {low a b x v : Nat} (h : field low (a + b) x = v) :
    field low a x = v % 2 ^ a ∧ field (low + a) b x = v / 2 ^ a := by
  subst h
  unfold field
  constructor
  · rw [Nat.pow_add, Nat.mod_mul_right_mod]
  · rw [Nat.pow_add, Nat.pow_add, Nat.mod_mul_right_div_self, Nat.div_div_eq_div_mul]

theorem field_merge {low a b x u v : Nat} (hu : field low a x = u) (hv : field (low + a) b x = v) :
    field low (a + b) x = u + 2 ^ a * v := by
  subst hu hv
  unfold field
  rw [Nat.pow_add, Nat.pow_add, ← Nat.div_div_eq_div_mul, Nat.mod_mul]

end Fields

@[simp] theorem Width.ofSf_sf (w : Width) : Width.ofSf w.sf = w := by
  cases w with
  | w32 => rfl
  | w64 => rfl

theorem Width.sf_lt (w : Width) : w.sf < 2 := by
  cases w with
  | w32 => decide
  | w64 => decide

theorem AluFn.ofAddSub_eq {fn : AluFn} {opS : Nat} (h : fn.addSub? = some opS) :
    AluFn.ofAddSub opS = fn ∧ opS < 4 := by
  cases fn with
  | add | adds | sub | subs =>
      cases h
      decide
  | _ => cases h

theorem AluFn.ofLogical?_eq {fn : AluFn} {opc : Nat} (h : fn.logical? = some opc) :
    AluFn.ofLogical? opc = some fn ∧ opc < 4 := by
  cases fn with
  | orr | and | eor =>
      cases h
      decide
  | _ => cases h

theorem AluFn.ofShift?_eq {fn : AluFn} {opcode : Nat} (h : fn.shift? = some opcode) :
    AluFn.ofShift? opcode = some fn ∧ opcode < 64 := by
  cases fn with
  | lsl | lsr | asr =>
      cases h
      decide
  | _ => cases h

theorem ShiftOp.ofCode_code {s : ShiftOp} (h : s ∈ ShiftOp.declared) :
    ShiftOp.ofCode (UInt8.ofNat s.code) = s ∧ s.code < 4 := by
  revert s
  decide

theorem ExtendOp.ofCode_code {e : ExtendOp} (h : e ∈ ExtendOp.declared) :
    ExtendOp.ofCode (UInt8.ofNat e.code) = e ∧ e.code < 8 := by
  revert e
  decide

theorem Word.bit_lt (b : Bool) : Word.bit b < 2 := by
  cases b with
  | false => decide
  | true => decide

@[simp] theorem Word.bit_eq_one (b : Bool) : (Word.bit b = 1) = (b = true) := by
  cases b with
  | false => simp [Word.bit]
  | true => simp [Word.bit]

section Words

variable {w : Width} {fn : AluFn} {rd rn rm : Nat}

theorem disassemble_addSubShifted {opS amount : Nat} {shift : ShiftOp} (hfn : fn.addSub? = some opS)
    (hshift : shift ∈ ShiftOp.declared) (hamount : amount < 64) (hrd : rd < 32) (hrn : rn < 32)
    (hrm : rm < 32) :
    disassemble (Word.addSubShifted w opS shift.code rm amount rn rd) =
      some (.shifted fn w rd rn rm shift amount) := by
  obtain ⟨hofAddSub, hopS⟩ := AluFn.ofAddSub_eq hfn
  obtain ⟨hofCode, hcode⟩ := ShiftOp.ofCode_code hshift
  have hsf := w.sf_lt
  have hpack : Word.addSubShifted w opS shift.code rm amount rn rd =
      Word.pack [(w.sf, 31), (opS, 29), (0b01011, 24), (shift.code, 22), (0, 21), (rm, 16),
        (amount, 10), (rn, 5), (rd, 0)] :=
    pack_congr (by simp)
  have hreads := reads_pack hpack (by simp [Tiles]; omega)
  simp only [Reads, Nat.reduceSub] at hreads
  simp [disassemble, Form.readAddSub, hreads, hofAddSub, hofCode]

theorem disassemble_addSubExtended {opS : Nat} {ext : ExtendOp} (hfn : fn.addSub? = some opS)
    (hext : ext ∈ ExtendOp.declared) (hrd : rd < 32) (hrn : rn < 32) (hrm : rm < 32) :
    disassemble (Word.addSubExtended w opS rm ext.code rn rd) =
      some (.extended fn w rd rn rm ext) := by
  obtain ⟨hofAddSub, hopS⟩ := AluFn.ofAddSub_eq hfn
  obtain ⟨hofCode, hcode⟩ := ExtendOp.ofCode_code hext
  have hsf := w.sf_lt
  have hpack : Word.addSubExtended w opS rm ext.code rn rd =
      Word.pack [(w.sf, 31), (opS, 29), (0b01011, 24), (0, 22), (1, 21), (rm, 16), (ext.code, 13),
        (0, 10), (rn, 5), (rd, 0)] :=
    pack_congr (by simp)
  have hreads := reads_pack hpack (by simp [Tiles]; omega)
  simp only [Reads, Nat.reduceSub] at hreads
  simp [disassemble, Form.readAddSub, hreads, hofAddSub, hofCode]

theorem disassemble_logicalShifted {opc amount : Nat} {shift : ShiftOp}
    (hfn : fn.logical? = some opc) (hshift : shift ∈ ShiftOp.declared) (hamount : amount < 64)
    (hrd : rd < 32) (hrn : rn < 32) (hrm : rm < 32) :
    disassemble (Word.logicalShifted w opc shift.code rm amount rn rd) =
      some (.shifted fn w rd rn rm shift amount) := by
  obtain ⟨hofLogical, hopc⟩ := AluFn.ofLogical?_eq hfn
  obtain ⟨hofCode, hcode⟩ := ShiftOp.ofCode_code hshift
  have hsf := w.sf_lt
  have hpack : Word.logicalShifted w opc shift.code rm amount rn rd =
      Word.pack [(w.sf, 31), (opc, 29), (0b01010, 24), (shift.code, 22), (0, 21), (rm, 16),
        (amount, 10), (rn, 5), (rd, 0)] :=
    pack_congr (by simp)
  have hreads := reads_pack hpack (by simp [Tiles]; omega)
  simp only [Reads, Nat.reduceSub] at hreads
  simp [disassemble, Form.readLogical, hreads, hofLogical, hofCode]

theorem disassemble_addSubImm {opS imm : Nat} {shift12 : Bool} (hfn : fn.addSub? = some opS)
    (himm : imm < 2 ^ 12) (hrd : rd < 32) (hrn : rn < 32) :
    disassemble (Word.addSubImm w opS shift12 imm rn rd) =
      some (.imm12 fn w rd rn imm shift12) := by
  obtain ⟨hofAddSub, hopS⟩ := AluFn.ofAddSub_eq hfn
  have hsf := w.sf_lt
  have hbit := Word.bit_lt shift12
  have hpack : Word.addSubImm w opS shift12 imm rn rd =
      Word.pack [(w.sf, 31), (opS, 29), (0b10001, 24), (0, 23), (Word.bit shift12, 22), (imm, 10),
        (rn, 5), (rd, 0)] :=
    pack_congr (by simp)
  have hreads := reads_pack hpack (by simp [Tiles]; omega)
  simp only [Reads, Nat.reduceSub] at hreads
  simp [disassemble, Form.readImm12, hreads, hofAddSub]

theorem disassemble_bitmask {opc immr imms : Nat} {n : Bool} (hfn : fn.logical? = some opc)
    (himmr : immr < 64) (himms : imms < 64) (hrd : rd < 32) (hrn : rn < 32) :
    disassemble (Word.pack [(w.sf, 31), (opc, 29), (0b100100, 23), (Word.bit n, 22), (immr, 16),
      (imms, 10), (rn, 5), (rd, 0)]) = some (.bitmask fn w rd rn n immr imms) := by
  obtain ⟨hofLogical, hopc⟩ := AluFn.ofLogical?_eq hfn
  have hsf := w.sf_lt
  have hbit := Word.bit_lt n
  generalize hword : Word.pack _ = word
  have hpack : word = Word.pack [(w.sf, 31), (opc, 29), (0b10010, 24), (0, 23), (Word.bit n, 22),
      (immr, 16), (imms, 10), (rn, 5), (rd, 0)] :=
    hword ▸ pack_congr (by simp)
  have hreads := reads_pack hpack (by simp [Tiles]; omega)
  simp only [Reads, Nat.reduceSub] at hreads
  simp [disassemble, Form.readBitmask, hreads, hofLogical]

theorem disassemble_shiftImm {opc immr imms amount : Nat}
    (hfields : Word.shiftFields? fn w amount = some (opc, immr, imms)) (hamount : amount < w.bits)
    (hrd : rd < 32) (hrn : rn < 32) :
    disassemble (Word.pack [(w.sf, 31), (opc, 29), (0b100110, 23), (w.sf, 22), (immr, 16),
      (imms, 10), (rn, 5), (rd, 0)]) =
      some (.shiftImm (if amount = 0 ∧ fn = .lsl then .lsr else fn) w rd rn amount) := by
  have hsf := w.sf_lt
  have hbits : w.bits ≤ 64 ∧ 0 < w.bits := by
    cases w with
    | w32 => decide
    | w64 => decide
  have hlt : opc < 4 ∧ immr < 64 ∧ imms < 64 := by
    have hmod := Nat.mod_lt (w.bits - amount) hbits.2
    cases fn with
    | lsl | lsr | asr =>
        cases hfields
        omega
    | _ => cases hfields
  generalize hword : Word.pack _ = word
  have hpack : word = Word.pack [(w.sf, 31), (opc, 29), (0b10011, 24), (0, 23), (w.sf, 22),
      (immr, 16), (imms, 10), (rn, 5), (rd, 0)] :=
    hword ▸ pack_congr (by simp)
  have hreads := reads_pack hpack (by simp [Tiles]; omega)
  simp only [Reads, Nat.reduceSub] at hreads
  simp only [disassemble, Form.readShiftImm, hreads]
  cases fn with
  | lsr | asr =>
      cases hfields
      simp
  | lsl =>
      cases hfields
      by_cases hzero : amount = 0
      · simp [hzero]
      · have hnext : (w.bits - amount) % w.bits = w.bits - 1 - amount + 1 := by
          rw [Nat.mod_eq_of_lt (by omega)]
          omega
        have htop : w.bits - 1 - amount ≠ w.bits - 1 := by omega
        have hback : w.bits - 1 - (w.bits - 1 - amount) = amount := by omega
        simp [hzero, hnext, htop, hback]
  | _ => cases hfields

theorem disassemble_shiftReg {opcode : Nat} (hfn : fn.shift? = some opcode) (hrd : rd < 32)
    (hrn : rn < 32) (hrm : rm < 32) :
    disassemble (Word.pack [(w.sf, 31), (0b0011010110, 21), (rm, 16), (opcode, 10), (rn, 5),
      (rd, 0)]) = some (.shiftReg fn w rd rn rm) := by
  obtain ⟨hofShift, hopcode⟩ := AluFn.ofShift?_eq hfn
  have hsf := w.sf_lt
  generalize hword : Word.pack _ = word
  have hreads := reads_pack hword.symm (by simp [Tiles]; omega)
  simp only [Reads, Nat.reduceSub] at hreads
  obtain ⟨h21, h24⟩ := field_split (a := 3) (b := 7) hreads.2.1
  obtain ⟨h24, h29⟩ := field_split (a := 5) (b := 2) h24
  simp [disassemble, Form.readShiftReg, hreads, h21, h24, h29, hofShift]

theorem disassemble_multiplyAdd {ra : Nat} (hrd : rd < 32) (hrn : rn < 32) (hrm : rm < 32)
    (hra : ra < 32) :
    disassemble (Word.pack [(w.sf, 31), (0b11011, 24), (rm, 16), (ra, 10), (rn, 5), (rd, 0)]) =
      some (.multiplyAdd w rd rn rm ra) := by
  have hsf := w.sf_lt
  generalize hword : Word.pack _ = word
  have hpack : word = Word.pack [(w.sf, 31), (0, 29), (0b11011, 24), (0, 21), (rm, 16), (0, 15),
      (ra, 10), (rn, 5), (rd, 0)] :=
    hword ▸ pack_congr (by simp)
  have hreads := reads_pack hpack (by simp [Tiles]; omega)
  simp only [Reads, Nat.reduceSub] at hreads
  simp [disassemble, Form.readMultiplyAdd, hreads]

theorem disassemble_moveWide {complement : Bool} {imm : MoveWide} (hshift : imm.shift.toNat < 4)
    (hrd : rd < 32) :
    disassemble (Word.moveWide (if complement then 0b00 else 0b10) rd imm) =
      some (.moveWide complement rd imm.bits.toNat imm.shift.toNat) := by
  have hbits := imm.bits.toNat_lt
  have hpack : Word.moveWide (if complement then 0b00 else 0b10) rd imm = Word.pack [(1, 31),
      (if complement then 0b00 else 0b10, 29), (0b10010, 24), (1, 23), (imm.shift.toNat, 21),
      (imm.bits.toNat, 5), (rd, 0)] := by
    cases complement with
    | false => simp [Word.moveWide, Word.pack]
    | true => simp [Word.moveWide, Word.pack]
  have hreads := reads_pack hpack (by cases complement <;> simp [Tiles] <;> omega)
  simp only [Reads, Nat.reduceSub] at hreads
  cases complement with
  | false => simp_all [disassemble, Form.readMoveWide]
  | true => simp_all [disassemble, Form.readMoveWide]

theorem Access.opcode_eq (a : Access) : ∃ size opc, Access.ofFields? size opc = some a ∧
    size < 4 ∧ opc < 4 ∧ a.opcode = size * 2 ^ 8 + 0b111000 * 2 ^ 2 + opc := by
  cases a with
  | load op =>
      cases op with
      | u8 => exact ⟨0, 1, by decide⟩
      | s8 => exact ⟨0, 2, by decide⟩
      | u16 => exact ⟨1, 1, by decide⟩
      | s16 => exact ⟨1, 2, by decide⟩
      | u32 => exact ⟨2, 1, by decide⟩
      | s32 => exact ⟨2, 2, by decide⟩
      | u64 => exact ⟨3, 1, by decide⟩
  | store op =>
      cases op with
      | b8 => exact ⟨0, 0, by decide⟩
      | b16 => exact ⟨1, 0, by decide⟩
      | b32 => exact ⟨2, 0, by decide⟩
      | b64 => exact ⟨3, 0, by decide⟩

theorem Access.opcode_lt (a : Access) : a.opcode < 2 ^ 10 := by
  obtain ⟨size, opc, _, _, _, h⟩ := a.opcode_eq
  omega

/-- The fields of a word that begins with the opcode of an access, set apart by bits 24 and 25. -/
theorem reads_opcode {a : Access} {word : Nat} (form : Nat) (hform : form < 4)
    (h : field 22 10 word = a.opcode + form * 2 ^ 2) :
    ∃ size opc, Access.ofFields? size opc = some a ∧ field 30 2 word = size ∧ field 29 1 word = 1 ∧
      field 24 5 word = 0b11000 + form ∧ field 22 2 word = opc := by
  obtain ⟨size, opc, hof, hsize, hopc, hopcode⟩ := a.opcode_eq
  obtain ⟨h22, h24⟩ := field_split (a := 2) (b := 8) h
  obtain ⟨h24, h29⟩ := field_split (a := 5) (b := 3) h24
  obtain ⟨h29, h30⟩ := field_split (a := 1) (b := 2) h29
  exact ⟨size, opc, hof, h30.trans (by omega), h29.trans (by omega), h24.trans (by omega),
    h22.trans (by omega)⟩

variable {a : Access} {rt : Nat}

theorem disassemble_imm9 {mode : Nat} {imm : SImm9} {place : Place}
    (hmode : (mode, place) ∈ [(0b00, Place.unscaled rn imm.value.toInt),
      (0b01, .postIndexed rn imm.value.toInt), (0b11, .preIndexed rn imm.value.toInt)])
    (himm : -256 ≤ imm.value.toInt ∧ imm.value.toInt ≤ 255) (hrn : rn < 32) (hrt : rt < 32) :
    disassemble (Word.accessImm9 a mode rn rt imm.field) = some (.access a rt place) := by
  have hfield : imm.field < 2 ^ 9 := signedField_lt 9 _
  have hsigned : signed 9 imm.field = imm.value.toInt :=
    signed_signedField (by decide) (by omega) (by omega)
  have hmodes : mode < 4 := by
    simp at hmode
    omega
  have hopcode := a.opcode_lt
  have hpack : Word.accessImm9 a mode rn rt imm.field = Word.pack [(a.opcode, 22), (0, 21),
      (imm.field, 12), (mode, 10), (rn, 5), (rt, 0)] :=
    pack_congr (by simp)
  have hreads := reads_pack hpack (by simp [Tiles]; omega)
  simp only [Reads, Nat.reduceSub] at hreads
  obtain ⟨size, opc, hof, h30, h29, h24, h22⟩ := reads_opcode (a := a) 0 (by decide) hreads.1
  simp only [disassemble, Form.readAccess, hreads, h24, h29, h30, h22, hof, hsigned]
  simp at hmode
  rcases hmode with ⟨rfl, rfl⟩ | ⟨rfl, rfl⟩ | ⟨rfl, rfl⟩
  · rfl
  · rfl
  · rfl

theorem disassemble_index {scaled : Bool} {ext : ExtendOp} (hext : ext ∈ ExtendOp.declared)
    (hplain : scaled = false → ext = .uxtx) (hrn : rn < 32) (hrm : rm < 32) (hrt : rt < 32) :
    disassemble (Word.accessIndex a rn rm rt scaled ext.code) =
      some (.access a rt (if scaled then .indexScaled rn rm ext else .index rn rm)) := by
  obtain ⟨hofCode, hcode⟩ := ExtendOp.ofCode_code hext
  have hbit := Word.bit_lt scaled
  have hopcode := a.opcode_lt
  generalize hword : Word.accessIndex a rn rm rt scaled ext.code = word
  have hreads := reads_pack hword.symm (by simp [Tiles]; omega)
  simp only [Reads, Nat.reduceSub] at hreads
  obtain ⟨size, opc, hof, h30, h29, h24, h22⟩ :=
    reads_opcode (a := a) 0 (by decide) hreads.1
  cases scaled with
  | true => simp [disassemble, Form.readAccess, hreads, h24, h29, h30, h22, hof, hofCode]
  | false =>
      cases hplain rfl
      simp [disassemble, Form.readAccess, hreads, h24, h29, h30, h22, hof, ExtendOp.code, Word.bit]

theorem disassemble_scaled {offset : Nat} (hdvd : offset % a.bytes = 0)
    (hle : offset / a.bytes ≤ 0xfff) (hrn : rn < 32) (hrt : rt < 32) :
    disassemble (Word.pack [(a.opcode, 22), (1, 24), (offset / a.bytes, 10), (rn, 5), (rt, 0)]) =
      some (.access a rt (.scaled rn offset)) := by
  have hopcode : a.opcode <<< 22 ||| 1 <<< 24 = (a.opcode + 1 * 2 ^ 2) <<< 22 ∧
      a.opcode + 1 * 2 ^ 2 < 2 ^ 10 := by
    cases a with
    | load op =>
        cases op with
        | _ => decide
    | store op =>
        cases op with
        | _ => decide
  generalize hword : Word.pack _ = word
  have hpack : word = Word.pack [(a.opcode + 1 * 2 ^ 2, 22), (offset / a.bytes, 10), (rn, 5),
      (rt, 0)] := by
    simp only [← hword, Word.pack, List.foldl_cons, Nat.zero_or, hopcode.1]
  have hreads := reads_pack hpack (by simp [Tiles]; omega)
  simp only [Reads, Nat.reduceSub] at hreads
  obtain ⟨size, opc, hof, h30, h29, h24, h22⟩ :=
    reads_opcode (a := a) 1 (by decide) hreads.1
  simp [disassemble, Form.readAccessScaled, hreads, h24, h29, h30, h22, hof,
    Nat.div_mul_cancel (Nat.dvd_of_mod_eq_zero hdvd)]

theorem disassemble_literal {offset : Int} {word : UInt32} (h : Word.literal a rt offset = .ok word)
    (hrt : rt < 32) : disassemble word = some (.access a rt (.literal offset)) := by
  have hopc : ∀ opc, a.literal? = some opc → Access.ofLiteral? opc = some a ∧ opc < 4 := by
    intro opc hopc
    cases a with
    | load op =>
        cases op with
        | u32 | u64 | s32 =>
            cases hopc
            decide
        | _ => cases hopc
    | store op => cases hopc
  simp only [Word.literal] at h
  split at h
  · cases h
  · rename_i opc hliteral
    obtain ⟨hof, hlt⟩ := hopc opc hliteral
    split at h
    · cases h
    · rename_i haligned
      split at h
      · cases h
      · rename_i imm himm
        cases h
        obtain ⟨⟨hlow, hhigh⟩, rfl⟩ := signedField?_eq_some himm
        have hfield := signedField_lt 19 (offset / 4)
        have hsigned : 4 * signed 19 (signedField 19 (offset / 4)) = offset := by
          rw [signed_signedField (by decide) hlow hhigh]
          omega
        generalize hword : Word.pack _ = word
        have hpack : word = Word.pack [(opc, 30), (0, 29), (0b11000, 24),
            (signedField 19 (offset / 4), 5), (rt, 0)] :=
          hword ▸ pack_congr (by simp)
        have hreads := reads_pack hpack (by simp [Tiles]; omega)
        simp only [Reads, Nat.reduceSub] at hreads
        simp [disassemble, Form.readLiteral, hreads, hof, hsigned]

theorem disassemble_pair {load : Bool} {rt2 : Nat} {mode : PairMode} {imm : SImm7}
    (himm : imm.value.toInt.tmod 8 = 0 ∧ -64 ≤ imm.value.toInt.tdiv 8 ∧ imm.value.toInt.tdiv 8 ≤ 63)
    (hrt : rt < 32) (hrt2 : rt2 < 32) (hrn : rn < 32) :
    disassemble (Word.pack [(0b101010, 26), (Word.pairMode mode, 23), (Word.bit load, 22),
      (imm.scaledField 8, 15), (rt2, 10), (rn, 5), (rt, 0)]) =
      some (.pair load rt rt2 mode rn imm.value.toInt) := by
  have hfield : imm.scaledField 8 < 2 ^ 7 := signedField_lt 7 _
  have hsigned : 8 * signed 7 (imm.scaledField 8) = imm.value.toInt := by
    have hscaled : imm.scaledField 8 = signedField 7 (imm.value.toInt.tdiv 8) := rfl
    rw [hscaled, signed_signedField (by decide) (by omega) (by omega)]
    have hdiv := Int.mul_tdiv_add_tmod imm.value.toInt 8
    omega
  have hbit := Word.bit_lt load
  have hmode : Word.pairMode mode < 8 := by
    cases mode with
    | _ => decide
  generalize hword : Word.pack _ = word
  have hreads := reads_pack hword.symm (by simp [Tiles]; omega)
  simp only [Reads, Nat.reduceSub] at hreads
  obtain ⟨h26, h29⟩ := field_split (a := 3) (b := 3) hreads.1
  obtain ⟨h23, h24⟩ := field_split (a := 1) (b := 2) hreads.2.1
  have hop := field_merge h24 h26
  cases mode with
  | _ => simp [disassemble, Form.readPair, hreads, h23, hop, h29, hsigned, Word.pairMode]

theorem disassemble_control {w : UInt32} (h : field 26 3 w.toNat = 0b101) :
    disassemble w = Form.readControl w.toNat := by
  have hmerge := field_merge (a := 2) rfl h
  have hlt : field 24 2 w.toNat < 4 := Nat.mod_lt _ (by decide)
  simp only [Nat.reduceAdd, Nat.reducePow, Nat.reduceMul] at hmerge
  have hcases : field 24 2 w.toNat = 0 ∨ field 24 2 w.toNat = 1 ∨ field 24 2 w.toNat = 2 ∨
    field 24 2 w.toNat = 3 := by omega
  rcases hcases with hlow | hlow | hlow | hlow
  · simp [disassemble, hmerge, hlow]
  · simp [disassemble, hmerge, hlow]
  · simp [disassemble, hmerge, hlow]
  · simp [disassemble, hmerge, hlow]

theorem disassemble_jump {link : Bool} {imm : Nat} (himm : imm < 2 ^ 26) :
    disassemble (Word.jump link imm) =
      some (if link then .call (4 * signed 26 imm) else .jump (4 * signed 26 imm)) := by
  have hbit := Word.bit_lt link
  generalize hword : Word.jump link imm = word
  have hreads := reads_pack hword.symm (by simp [Tiles]; omega)
  simp only [Reads, Nat.reduceSub] at hreads
  obtain ⟨h26, h29⟩ := field_split (a := 3) (b := 2) hreads.2.1
  have hop := field_merge h29 hreads.1
  rw [disassemble_control h26]
  cases link with
  | false => simp [Form.readControl, hreads, hop, Word.bit]
  | true => simp [Form.readControl, hreads, hop, Word.bit]

theorem disassemble_compareBranch {nonZero : Bool} {imm : Nat} (himm : imm < 2 ^ 19)
    (hrt : rt < 32) : disassemble (Word.compareBranch nonZero imm rt) =
      some (.branch (if nonZero then .notZero rt else .zero rt) (4 * signed 19 imm)) := by
  have hbit := Word.bit_lt nonZero
  generalize hword : Word.compareBranch nonZero imm rt = word
  have hreads := reads_pack hword.symm (by simp [Tiles]; omega)
  simp only [Reads, Nat.reduceSub] at hreads
  obtain ⟨h25, h29⟩ := field_split (a := 4) (b := 2) hreads.2.1
  have h24 := field_merge hreads.2.2.1 h25
  have hop := field_merge h29 hreads.1
  cases nonZero with
  | false => simp [disassemble, Form.readControl, hreads, h24, hop, Word.bit]
  | true => simp [disassemble, Form.readControl, hreads, h24, hop, Word.bit]

theorem disassemble_flag {imm code : Nat} (himm : imm < 2 ^ 19) (hcode : code < 16) :
    disassemble (Word.pack [(0b01010100, 24), (imm, 5), (code, 0)]) =
      some (.branch (.flag code) (4 * signed 19 imm)) := by
  generalize hword : Word.pack _ = word
  have hpack : word = Word.pack [(0b010, 29), (0b10100, 24), (imm, 5), (0, 4), (code, 0)] :=
    hword ▸ pack_congr (by simp)
  have hreads := reads_pack hpack (by simp [Tiles]; omega)
  simp only [Reads, Nat.reduceSub] at hreads
  simp [disassemble, Form.readControl, hreads]

theorem disassemble_callReg (hrn : rn < 32) :
    disassemble (Word.callReg rn) = some (.callReg rn) := by
  generalize hword : Word.callReg rn = word
  have hreads := reads_pack (hword.symm.trans (pack_concat_zero _ 0).symm) (by simp [Tiles]; omega)
  simp only [Reads, List.cons_append, List.nil_append, Nat.reduceSub] at hreads
  obtain ⟨h25, h29⟩ := field_split (a := 4) (b := 3) hreads.1
  obtain ⟨h21, h24⟩ := field_split (a := 3) (b := 1) hreads.2.1
  obtain ⟨h5, h10⟩ := field_split (a := 5) (b := 6) hreads.2.2.2.1
  have hop := field_merge h24 h25
  simp [disassemble, Form.readControl, hreads, hop, h29, h21, h5, h10, Nat.mod_eq_of_lt hrn,
    Nat.div_eq_of_lt hrn]

theorem disassemble_ret : disassemble Word.ret = some (.ret 30) := by decide
theorem disassemble_nop : disassemble Word.nop = some .nop := by decide
theorem disassemble_zero : disassemble 0 = some .udf := by decide

end Words

end Codegen.A64
