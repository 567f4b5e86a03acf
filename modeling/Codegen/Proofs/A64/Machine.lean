import Codegen.Proofs.A64.Form
import Codegen.Proofs.Universe

/-!
A machine that runs words: the part of the architecture that accesses of one register, literal loads
and plain additions need. `Form.step` is given by what a word tells; every other word, and every
access whose behaviour the architecture leaves open, has no step.
-/
namespace Codegen.A64

/-- Memory is addressed modulo `2 ^ 64`. -/
structure Machine where
  regs : Fin 31 → BitVec 64
  sp : BitVec 64
  pc : BitVec 64
  flags : BitVec 4
  mem : BitVec 64 → UInt8

def ofLittleEndian : List UInt8 → Nat
  | [] => 0
  | b :: bytes => b.toNat + 2 ^ 8 * ofLittleEndian bytes

/-- What a load of the number `n` gives. -/
def LoadOp.extend (op : LoadOp) (n : Nat) : BitVec 64 :=
  match op with
  | u8 | u16 | u32 | u64 => BitVec.ofNat 64 n
  | s8 => (BitVec.ofNat 8 n).signExtend 64
  | s16 => (BitVec.ofNat 16 n).signExtend 64
  | s32 => (BitVec.ofNat 32 n).signExtend 64

namespace ExtendOp

def extend (ext : ExtendOp) (x : BitVec 64) : BitVec 64 :=
  match ext with
  | uxtw => (x.setWidth 32).setWidth 64
  | sxtw => (x.setWidth 32).signExtend 64
  | _ => x

/-- The extensions that an index has. Those of bytes and halfwords are not defined. -/
def indexing : List ExtendOp := [uxtw, uxtx, sxtw, sxtx]

end ExtendOp

namespace Machine

variable (m : Machine)

/-- The register of a number where 31 is the zero register. -/
def read (n : Nat) : BitVec 64 := if h : n < 31 then m.regs ⟨n, h⟩ else 0

/-- The register of a number where 31 is the stack pointer. -/
def base (n : Nat) : BitVec 64 := if n = 31 then m.sp else m.read n

def write (n : Nat) (v : BitVec 64) : Machine :=
  { m with regs := fun k => if k.val = n then v else m.regs k }

def writeBase (n : Nat) (v : BitVec 64) : Machine :=
  if n = 31 then { m with sp := v } else m.write n v

def bytes (address : BitVec 64) (count : Nat) : List UInt8 :=
  (List.range count).map fun i => m.mem (address + BitVec.ofNat 64 i)

def put (address : BitVec 64) (data : List UInt8) : Machine :=
  { m with mem := fun b => (data[(b - address).toNat]?).getD (m.mem b) }

def next : Machine := { m with pc := m.pc + 4 }

def transfer (a : Access) (rt : Nat) (address : BitVec 64) : Machine :=
  match a with
  | .load op => m.write rt (op.extend (ofLittleEndian (m.bytes address a.bytes)))
  | .store _ => m.put address (littleEndian a.bytes (m.read rt).toNat)

def update : Option (Nat × BitVec 64) → Machine
  | none => m
  | some (rn, v) => m.writeBase rn v

end Machine

/-- The address of an access and, if the base is written back, its number and new value. -/
def Place.resolve (m : Machine) (a : Access) :
    Place → Option (BitVec 64 × Option (Nat × BitVec 64))
  | unscaled rn offset => some (m.base rn + BitVec.ofInt 64 offset, none)
  | scaled rn offset => some (m.base rn + BitVec.ofNat 64 offset, none)
  | index rn rm => some (m.base rn + m.read rm, none)
  | indexScaled rn rm ext =>
    if ext ∈ ExtendOp.indexing then
      some (m.base rn + ext.extend (m.read rm) <<< a.bytes.log2, none)
    else none
  | literal offset => some (m.pc + BitVec.ofInt 64 offset, none)
  | preIndexed rn offset =>
    let address := m.base rn + BitVec.ofInt 64 offset
    some (address, some (rn, address))
  | postIndexed rn offset => some (m.base rn, some (rn, m.base rn + BitVec.ofInt 64 offset))

/-- What a word does. It is not defined what an access does that writes back the register of its
data. -/
def Form.step (m : Machine) : Form → Option Machine
  | access a rt place => do
    let (address, back) ← place.resolve m a
    if back.any fun b => b.1 = rt ∧ rt ≠ 31 then none
    else some ((m.transfer a rt address).update back).next
  | shifted .add .w64 rd rn rm .lsl amount =>
    some (m.write rd (m.read rn + m.read rm <<< amount)).next
  | _ => none

def Machine.run (m : Machine) : List UInt32 → Option Machine
  | [] => some m
  | w :: words => do
    let f ← disassemble w
    let m' ← f.step m
    m'.run words

/-- The general purpose registers, the zero register and the stack pointer. -/
def General (r : Reg) : Prop := registers.Known r ∧ r.cls = .i64

instance (r : Reg) : Decidable (General r) :=
  inferInstanceAs (Decidable (registers.Known r ∧ r.cls = .i64))

/-- The value of a register; that of the zero register is zero. -/
def Machine.value (m : Machine) (r : Reg) : BitVec 64 :=
  if r = A64.sp then m.sp else m.read (number r)

section Registers

variable {q r : Reg}

theorem general_cases (h : General r) : r = xzr ∨ r = sp ∨ ∃ n : Fin 31, r = gpr n := by
  have hall : ∀ r ∈ registers.regs.map (·.reg), r.cls = .i64 →
      r = xzr ∨ r = sp ∨ ∃ n : Fin 31, r = gpr n := by decide +kernel
  exact hall r h.1 h.2

theorem number_gpr (n : Fin 31) : number (gpr n) = n.val := by
  revert n
  decide

theorem gpr_ne_sp (n : Fin 31) : gpr n ≠ sp := by
  revert n
  decide

namespace Machine

variable (m : Machine) (v : BitVec 64)

theorem read_number (hr : r ≠ A64.sp) : m.read (number r) = m.value r := by
  rw [value, if_neg hr]

theorem base_number (hr : General r) (hne : r ≠ xzr) : m.base (number r) = m.value r := by
  rcases general_cases hr with rfl | rfl | ⟨n, rfl⟩
  · exact absurd rfl hne
  · rfl
  · rw [base, if_neg (by rw [number_gpr]; omega), value, if_neg (gpr_ne_sp n)]

end Machine

end Registers

/-- Reading the low bytes of a number back gives the number, modulo the bits that they have. -/
theorem ofLittleEndian_littleEndian (count n : Nat) :
    ofLittleEndian (littleEndian count n) = n % 2 ^ (8 * count) := by
  induction count generalizing n with
  | zero => simp [littleEndian, ofLittleEndian, Nat.mod_one]
  | succ count ih =>
      have htail : littleEndian (count + 1) n =
          UInt8.ofNat n :: littleEndian count (n / 2 ^ 8) := by
        unfold littleEndian
        rw [List.range_succ_eq_map, List.map_cons, List.map_map]
        refine congrArg₂ List.cons rfl (List.map_congr_left fun i _ => ?_)
        rw [Function.comp_apply, ← Nat.shiftRight_eq_div_pow, ← Nat.shiftRight_add]
        exact congrArg (fun k => UInt8.ofNat (n >>> k)) (by omega)
      have hpow : 2 ^ (8 * (count + 1)) = 2 ^ 8 * 2 ^ (8 * count) := by
        rw [← Nat.pow_add, Nat.mul_succ, Nat.add_comm]
      rw [htail, ofLittleEndian, ih, UInt8.toNat_ofNat', hpow, Nat.mod_mul]

end Codegen.A64
