import Codegen.Proofs.A64.Machine
import Codegen.Proofs.A64.Synonyms

/-!
Accesses do what their operands say. `Performs` is the effect of a load or store in terms of its
registers and its address; the words that are emitted for it have that effect, whatever the operand
expands to. A far stack slot goes through the pool and the reserved register `tmp`.
-/
namespace Codegen.A64

section Effects

/-- The address, the base that is written back and the registers that are used up. -/
structure Effect where
  address : BitVec 64
  back : Option (Reg × BitVec 64) := none
  scratch : List Reg := []

def Address.effect (m : Machine) (a : Access) : Address → Effect
  | unset => { address := 0 }
  | base rn => { address := m.value rn }
  | unscaled rn imm => { address := m.value rn + BitVec.ofInt 64 imm.value.toInt }
  | scaled rn imm => { address := m.value rn + BitVec.ofNat 64 imm.value.toNat }
  | index rn rm => { address := m.value rn + m.value rm }
  | indexScaled rn rm _ => { address := m.value rn + m.value rm <<< a.bytes.log2 }
  | indexExtended rn rm _ ext =>
    { address := m.value rn + ext.extend (m.value rm) <<< a.bytes.log2 }
  | literal offset => { address := m.pc + BitVec.ofInt 64 offset.toInt }
  | preIndexed rn imm =>
    { address := m.value rn + BitVec.ofInt 64 imm.value.toInt
      back := some (rn, m.value rn + BitVec.ofInt 64 imm.value.toInt) }
  | postIndexed rn imm =>
    { address := m.value rn
      back := some (rn, m.value rn + BitVec.ofInt 64 imm.value.toInt) }

/-- What an operand means, given how far the pool has its constant from the code. -/
def Mem.effect (m : Machine) (a : Access) (label : List UInt8 → Int) : Mem → Effect
  | direct address => address.effect m a
  | constant data => { address := m.pc + BitVec.ofInt 64 (label data) }
  | stack offset =>
    { address := m.value fp + BitVec.ofInt 64 offset.toInt
      scratch := if (SImm9.ofValue? offset).isSome then [] else [tmp] }

/-- The effect of an access of the register `r`. -/
structure Performs (a : Access) (r : Reg) (e : Effect) (m m' : Machine) : Prop where
  loaded : ∀ op, a = .load op → r ≠ xzr →
    m'.value r = op.extend (ofLittleEndian (m.bytes e.address a.bytes))
  unstored : ∀ op, a = .load op → m'.mem = m.mem
  stored : ∀ op, a = .store op → ∀ b, m'.mem b =
    ((littleEndian a.bytes (m.value r).toNat)[(b - e.address).toNat]?).getD (m.mem b)
  updated : ∀ rn v, e.back = some (rn, v) → m'.value rn = v
  others : ∀ q, General q → (∀ op, a = .load op → q ≠ r) →
    (∀ rn v, e.back = some (rn, v) → q ≠ rn) → q ∉ e.scratch → m'.value q = m.value q
  flags : m'.flags = m.flags

end Effects

section Operands

/-- A register that holds data or an index: not the stack pointer. -/
def DataReg (r : Reg) : Prop := General r ∧ r ≠ sp

/-- A register that holds a base: not the zero register. -/
def BaseReg (r : Reg) : Prop := General r ∧ r ≠ xzr

instance (r : Reg) : Decidable (DataReg r) := inferInstanceAs (Decidable (General r ∧ r ≠ sp))

instance (r : Reg) : Decidable (BaseReg r) := inferInstanceAs (Decidable (General r ∧ r ≠ xzr))

/-- The registers and the extension of a mode are ones that it is defined for. -/
def Address.Sound (data : Reg) : Address → Prop
  | unset => True
  | base rn | unscaled rn _ | scaled rn _ => BaseReg rn
  | index rn rm | indexScaled rn rm _ => BaseReg rn ∧ DataReg rm
  | indexExtended rn rm _ ext => BaseReg rn ∧ DataReg rm ∧ ext ∈ ExtendOp.indexing
  | literal _ => True
  | preIndexed rn _ | postIndexed rn _ => BaseReg rn ∧ rn ≠ data

/-- The same of an operand. A far stack slot goes through `tmp`, which then cannot be stored. -/
def Mem.Sound (a : Access) (data : Reg) : Mem → Prop
  | direct address => address.Sound data
  | constant _ => True
  | stack offset => SImm9.ofValue? offset = none → ∀ op, a = .store op → data ≠ tmp

theorem Address.Sound.known {address : Address} {r : Reg} (h : address.Sound r) :
    address.Known := by
  intro used modified hregs q hq
  cases address with
  | unset => cases hregs
  | base rn | unscaled rn imm | scaled rn imm =>
      cases hregs
      cases List.mem_singleton.mp hq
      exact h.1.1
  | index rn rm | indexScaled rn rm ty =>
      cases hregs
      simp only [List.append_nil, List.mem_cons, List.not_mem_nil, or_false] at hq
      rcases hq with rfl | rfl
      · exact h.1.1.1
      · exact h.2.1.1
  | indexExtended rn rm ty ext =>
      cases hregs
      simp only [List.append_nil, List.mem_cons, List.not_mem_nil, or_false] at hq
      rcases hq with rfl | rfl
      · exact h.1.1.1
      · exact h.2.1.1.1
  | literal offset =>
      cases hregs
      cases hq
  | preIndexed rn imm | postIndexed rn imm =>
      cases hregs
      cases List.mem_singleton.mp hq
      exact h.1.1.1

theorem Address.Sound.back {address : Address} {r rn : Reg} {m : Machine} {a : Access}
    {v : BitVec 64} (h : address.Sound r) (hback : (address.effect m a).back = some (rn, v)) :
    BaseReg rn ∧ rn ≠ r := by
  cases address with
  | preIndexed rn' imm | postIndexed rn' imm =>
      cases hback
      exact h
  | _ => cases hback

/-- The place that a word tells is the address of the mode. -/
theorem Address.Sound.resolve {address : Address} {r : Reg} {place : Place} (h : address.Sound r)
    (hplace : address.canonical.place? = some place) (m : Machine) (a : Access) :
    place.resolve m a = some ((address.effect m a).address,
      (address.effect m a).back.map fun b => (number b.1, b.2)) := by
  cases address with
  | unset => cases hplace
  | base rn =>
      cases hplace
      simp [Place.resolve, effect, m.base_number h.1 h.2]
  | unscaled rn imm | scaled rn imm =>
      cases hplace
      simp [Place.resolve, effect, m.base_number h.1 h.2]
  | index rn rm =>
      cases hplace
      simp [Place.resolve, effect, m.base_number h.1.1 h.1.2, m.read_number h.2.2]
  | indexScaled rn rm ty =>
      cases hplace
      simp [Place.resolve, effect, m.base_number h.1.1 h.1.2, m.read_number h.2.2,
        ExtendOp.indexing, ExtendOp.extend]
  | indexExtended rn rm ty ext =>
      cases hplace
      simp [Place.resolve, effect, m.base_number h.1.1 h.1.2, m.read_number h.2.1.2, h.2.2]
  | literal offset =>
      cases hplace
      simp [Place.resolve, effect]
  | preIndexed rn imm | postIndexed rn imm =>
      cases hplace
      simp [Place.resolve, effect, m.base_number h.1.1 h.1.2]

end Operands

section Steps

variable {a : Access} {r : Reg} (m : Machine)

/-- An effect after steps that change nothing but registers that it uses up. -/
theorem Performs.after {e e' : Effect} {m₁ m' : Machine} (h : Performs a r e' m₁ m')
    (hmem : m₁.mem = m.mem) (hflags : m₁.flags = m.flags)
    (hvalue : ∀ q, General q → q ∉ e.scratch → m₁.value q = m.value q)
    (haddress : e'.address = e.address) (hback : e'.back = e.back) (hscratch : e'.scratch = [])
    (hr : General r) (hstore : ∀ op, a = .store op → r ∉ e.scratch) : Performs a r e m m' := by
  have hbytes : m₁.bytes e.address = m.bytes e.address := by
    funext count
    rw [Machine.bytes, Machine.bytes, hmem]
  constructor
  · intro op hop hxzr
    rw [h.loaded op hop hxzr, haddress, hbytes]
  · intro op hop
    rw [h.unstored op hop, hmem]
  · intro op hop b
    rw [h.stored op hop b, haddress, hmem, hvalue r hr (hstore op hop)]
  · intro rn v hrn
    exact h.updated rn v (hback.trans hrn)
  · intro q hq hload hne hused
    rw [h.others q hq hload (hback ▸ hne) (by rw [hscratch]; exact List.not_mem_nil),
      hvalue q hq hused]
  · rw [h.flags, hflags]

end Steps

section Emission

/-- The access, the register and the operand of a load or store. -/
def Inst.access? : Inst → Option (Access × Reg × Mem)
  | load op rd mem => some (.load op, rd, mem)
  | store op rt mem => some (.store op, rt, mem)
  | _ => none

theorem Inst.emit_of_access? {i : Inst} {a : Access} {r : Reg} {mem : Mem}
    (h : i.access? = some (a, r, mem)) :
    i.emit = (do emitAccess a (← Emit.ofChecked (hwEnc r)) mem) := by
  cases i with
  | load op rd mem | store op rt mem =>
      cases h
      rfl
  | _ => cases h

end Emission

end Codegen.A64
