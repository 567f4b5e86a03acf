import Codegen.Proofs.A64.Expansion
import Codegen.Proofs.A64.Machine
import Mathlib.Computability.StateTransition

/-!
Execution from memory. A machine fetches the word at its program counter, reads it and does what it
tells; a run ends at the first word without a step, which a return, a call and an undefined
instruction do not have. The rules of `Machine.At` say where code that stands in memory goes on, one
rule for each kind of word.
-/
namespace Codegen.A64

/-- The flags by name: negative, zero, carry, overflow. -/
def packFlags (n z c v : Bool) : BitVec 4 :=
  BitVec.ofNat 4 (8 * n.toNat + 4 * z.toNat + 2 * c.toNat + v.toNat)

/-- The sum of two numbers and a carry. It has a carry if it is too large as a number without sign,
and it overflows if it is too large as a number with one. -/
def addWithCarry {n : Nat} (x y : BitVec n) (carry : Bool) : BitVec n × BitVec 4 :=
  let sum := x + y + BitVec.ofNat n carry.toNat
  (sum, packFlags sum.msb (sum = 0) (sum.toNat ≠ x.toNat + y.toNat + carry.toNat)
    (sum.toInt ≠ x.toInt + y.toInt + carry.toNat))

/-- Whether flags satisfy the condition of a code. An odd code is the opposite of the even one
before it, except for the last one. -/
def holdsFor (flags : BitVec 4) (code : Nat) : Bool :=
  let n := flags.getLsbD 3
  let z := flags.getLsbD 2
  let c := flags.getLsbD 1
  let v := flags.getLsbD 0
  let even :=
    match code / 2 with
    | 0 => z
    | 1 => c
    | 2 => n
    | 3 => v
    | 4 => c && !z
    | 5 => n == v
    | 6 => n == v && !z
    | _ => true
  if code % 2 = 1 ∧ code ≠ 15 then !even else even

def ShiftOp.apply {n : Nat} (shift : ShiftOp) (x : BitVec n) (amount : Nat) : Option (BitVec n) :=
  match shift with
  | lsl => some (x <<< amount)
  | lsr => some (x >>> amount)
  | asr => some (x.sshiftRight amount)
  | ror => some (x.rotateRight amount)
  | undeclared _ => none

/-- What an operation gives for two operands, and the flags if it sets them. -/
def AluFn.apply {n : Nat} (fn : AluFn) (x y : BitVec n) : Option (BitVec n × Option (BitVec 4)) :=
  match fn with
  | add => some ((addWithCarry x y false).1, none)
  | adds => some ((addWithCarry x y false).1, some (addWithCarry x y false).2)
  | sub => some ((addWithCarry x (~~~y) true).1, none)
  | subs => some ((addWithCarry x (~~~y) true).1, some (addWithCarry x (~~~y) true).2)
  | and => some (x &&& y, none)
  | orr => some (x ||| y, none)
  | eor => some (x ^^^ y, none)
  | madd | lsl | lsr | asr => none

namespace Machine

def setFlags (m : Machine) : Option (BitVec 4) → Machine
  | some flags => { m with flags }
  | none => m

def jumpBy (m : Machine) (offset : Int) : Machine := { m with pc := m.pc + BitVec.ofInt 64 offset }

def holds (m : Machine) : Test → Bool
  | .zero n => m.read n = 0
  | .notZero n => m.read n ≠ 0
  | .flag code => holdsFor m.flags code

end Machine

/-- What a word does. Results of 32 bits leave zeros above them. The register 31 of an operation
with an immediate is the stack pointer, except where a result with flags goes. -/
def Form.execute (m : Machine) : Form → Option Machine
  | nop => some m.next
  | shifted fn w rd rn rm shift amount =>
    if w.bits ≤ amount ∨ shift = .ror ∧ fn.addSub?.isSome then none
    else do
      let y ← shift.apply ((m.read rm).setWidth w.bits) amount
      let (v, flags) ← fn.apply ((m.read rn).setWidth w.bits) y
      some ((m.write rd (v.setWidth 64)).setFlags flags).next
  | imm12 fn w rd rn bits shift12 => do
    let y := BitVec.ofNat w.bits (if shift12 then bits <<< 12 else bits)
    let (v, flags) ← fn.apply ((m.base rn).setWidth w.bits) y
    let written :=
      if flags.isSome then m.write rd (v.setWidth 64) else m.writeBase rd (v.setWidth 64)
    some (written.setFlags flags).next
  | moveWide complement rd bits quarter =>
    let v := BitVec.ofNat 64 bits <<< (16 * quarter)
    some (m.write rd (if complement then ~~~v else v)).next
  | jump offset => some (m.jumpBy offset)
  | branch test offset => some (if m.holds test then m.jumpBy offset else m.next)
  | access a rt place => (access a rt place).step m
  | _ => none

namespace Machine

def form? (m : Machine) : Option Form :=
  disassemble (UInt32.ofNat (ofLittleEndian (m.bytes m.pc 4)))

def step? (m : Machine) : Option Machine := do (← m.form?).execute m

/-- The run from a machine comes to an end, with a property. -/
def Ends (m : Machine) (post : Machine → Prop) : Prop :=
  ∃ m' ∈ StateTransition.eval step? m, post m'

/-- The code stands in memory from the program counter on. -/
def Holds (m : Machine) (code : List UInt8) : Prop := m.bytes m.pc code.length = code

instance (m : Machine) (code : List UInt8) : Decidable (m.Holds code) :=
  inferInstanceAs (Decidable (_ = _))

end Machine

section Arithmetic

theorem addWithCarry_add (x y : BitVec 64) : (addWithCarry x y false).1 = x + y := by
  simp [addWithCarry]

theorem addWithCarry_sub (x y : BitVec 64) : (addWithCarry x (~~~y) true).1 = x - y := by
  have hsub : x - y = x + (~~~y + 1#64) := by rw [BitVec.sub_eq_add_neg, BitVec.neg_eq_not_add]
  rw [hsub, ← BitVec.add_assoc]
  rfl

theorem holdsFor_packFlags (n z c v : Bool) : holdsFor (packFlags n z c v) 10 = (n == v) := by
  revert n z c v
  decide

theorem toInt_not_add_one (y : BitVec 64) : (~~~y).toInt + 1 = -y.toInt := by
  have hlt := y.isLt
  rw [BitVec.toInt_eq_toNat_cond, BitVec.toInt_eq_toNat_cond, BitVec.toNat_not]
  split <;> split <;> omega

/-- A difference that wraps around has the sign opposite to the exact one. -/
theorem sign_eq_overflow {d : Int} (hlow : -2 ^ 64 < d) (hhigh : d < 2 ^ 64) :
    (d.bmod (2 ^ 64) < 0 ↔ d.bmod (2 ^ 64) ≠ d) ↔ 0 ≤ d := by
  have hmod : d.bmod (2 ^ 64) = if d % 2 ^ 64 < 2 ^ 63 then d % 2 ^ 64 else d % 2 ^ 64 - 2 ^ 64 :=
    rfl
  rw [hmod]
  split
  · omega
  · omega

/-- After a comparison, the sign of the difference and its overflow agree exactly if the first
operand is not below the second as a number with sign. -/
theorem holdsFor_compare (x y : BitVec 64) :
    holdsFor (addWithCarry x (~~~y) true).2 10 = decide (y.toInt ≤ x.toInt) := by
  have hdiff : (addWithCarry x (~~~y) true).1.toInt = (x.toInt - y.toInt).bmod (2 ^ 64) := by
    rw [addWithCarry_sub, BitVec.toInt_sub]
  have hexact : x.toInt + (~~~y).toInt + (true.toNat : Int) = x.toInt - y.toInt := by
    have hnot := toInt_not_add_one y
    rw [Bool.toNat_true]
    omega
  have hx := BitVec.le_toInt x
  have hx' := BitVec.toInt_lt (x := x)
  have hy := BitVec.le_toInt y
  have hy' := BitVec.toInt_lt (x := y)
  have hsign := sign_eq_overflow (d := x.toInt - y.toInt) (by omega) (by omega)
  rw [← hdiff, Int.sub_nonneg] at hsign
  rw [addWithCarry, holdsFor_packFlags, BitVec.msb_eq_toInt, Bool.eq_iff_iff, beq_iff_eq,
    decide_eq_decide, decide_eq_true_iff, hexact]
  exact hsign

theorem holdsFor_invert (flags : BitVec 4) : holdsFor flags 11 = !holdsFor flags 10 := rfl

end Arithmetic

namespace Form

variable (m : Machine) (rd rn rm : Nat)

/-- The 64-bit operations whose second operand is shifted to the left. -/
theorem execute_shifted {fn : AluFn} {amount : Nat} {v : BitVec 64} {flags : Option (BitVec 4)}
    (hamount : amount < 64)
    (happly : fn.apply (m.read rn) (m.read rm <<< amount) = some (v, flags)) :
    (shifted fn .w64 rd rn rm .lsl amount).execute m =
      some ((m.write rd v).setFlags flags).next := by
  have hwide : (shifted fn .w64 rd rn rm .lsl amount).execute m =
      if 64 ≤ amount ∨ ShiftOp.lsl = .ror ∧ fn.addSub?.isSome then none
      else (fn.apply ((m.read rn).setWidth 64) ((m.read rm).setWidth 64 <<< amount)).bind fun r =>
        some ((m.write rd (r.1.setWidth 64)).setFlags r.2).next := rfl
  rw [hwide, if_neg (by simp [hamount])]
  simp only [BitVec.setWidth_eq, happly, Option.bind_some]

/-- The 64-bit operations with an immediate on registers other than the stack pointer. -/
theorem execute_imm12 {fn : AluFn} {bits : Nat} {v : BitVec 64} (hrd : rd ≠ 31) (hrn : rn ≠ 31)
    (happly : fn.apply (m.read rn) (BitVec.ofNat 64 bits) = some (v, none)) :
    (imm12 fn .w64 rd rn bits false).execute m = some (m.write rd v).next := by
  have hwide : (imm12 fn .w64 rd rn bits false).execute m =
      (fn.apply ((m.base rn).setWidth 64) (BitVec.ofNat 64 bits)).bind fun r =>
        some (((if r.2.isSome then m.write rd (r.1.setWidth 64)
          else m.writeBase rd (r.1.setWidth 64)).setFlags r.2).next) := rfl
  rw [hwide, Machine.base, if_neg hrn]
  simp only [BitVec.setWidth_eq, happly, Option.bind_some, Machine.writeBase, if_neg hrd]
  rfl

theorem execute_mov :
    (shifted .orr .w64 rd 31 rm .lsl 0).execute m = some (m.write rd (m.read rm)).next := by
  have happly : AluFn.orr.apply (m.read 31) (m.read rm <<< 0) = some (m.read rm, none) := by
    simp [AluFn.apply, Machine.read]
  rw [execute_shifted m rd 31 rm (by decide) happly]
  rfl

theorem execute_add : (shifted .add .w64 rd rn rm .lsl 0).execute m =
    some (m.write rd (m.read rn + m.read rm)).next := by
  rw [execute_shifted m rd rn rm (by decide) rfl, addWithCarry_add, BitVec.shiftLeft_zero]
  rfl

theorem execute_subs : (shifted .subs .w64 rd rn rm .lsl 0).execute m =
    some ((m.write rd (m.read rn - m.read rm)).setFlags
      (some (addWithCarry (m.read rn) (~~~(m.read rm)) true).2)).next := by
  rw [execute_shifted m rd rn rm (by decide) rfl, addWithCarry_sub, BitVec.shiftLeft_zero]

theorem execute_addImm {bits : Nat} (hrd : rd ≠ 31) (hrn : rn ≠ 31) :
    (imm12 .add .w64 rd rn bits false).execute m =
      some (m.write rd (m.read rn + BitVec.ofNat 64 bits)).next := by
  apply execute_imm12 m rd rn hrd hrn
  rw [AluFn.apply, addWithCarry_add]

theorem execute_subImm {bits : Nat} (hrd : rd ≠ 31) (hrn : rn ≠ 31) :
    (imm12 .sub .w64 rd rn bits false).execute m =
      some (m.write rd (m.read rn - BitVec.ofNat 64 bits)).next := by
  apply execute_imm12 m rd rn hrd hrn
  rw [AluFn.apply, addWithCarry_sub]

end Form

/-- Where the machine of accesses has a step, it is this one. A word has no room for a larger
amount. -/
theorem Form.execute_of_step {m m' : Machine} {f : Form} (h : f.step m = some m')
    (hamount : ∀ rd rn rm amount, f = .shifted .add .w64 rd rn rm .lsl amount → amount < 64) :
    f.execute m = some m' := by
  unfold step at h
  split at h
  · exact h
  · rename_i rd rn rm amount
    rw [← h, execute_shifted m rd rn rm (hamount rd rn rm amount rfl) rfl, addWithCarry_add]
    rfl
  · cases h

section Placement

theorem take_drop_wordBytes {words : List UInt32} {k : Nat} {w : UInt32}
    (h : words[k]? = some w) :
    ((wordBytes words).drop (4 * k)).take 4 = littleEndian 4 w.toNat := by
  induction words generalizing k with
  | nil => cases h
  | cons v words ih =>
      have hlength : (littleEndian 4 v.toNat).length = 4 := rfl
      rw [wordBytes, List.flatMap_cons]
      cases k with
      | zero =>
          cases h
          exact List.take_left' hlength
      | succ k =>
          rw [Nat.mul_succ, Nat.add_comm, ← List.drop_drop, List.drop_left' hlength]
          exact ih h

theorem Machine.bytes_add (m : Machine) (address : BitVec 64) (count more : Nat) :
    m.bytes address (count + more) =
      m.bytes address count ++ m.bytes (address + BitVec.ofNat 64 count) more := by
  simp only [bytes, List.range_add, List.map_append, List.map_map, BitVec.add_assoc,
    ← BitVec.ofNat_add]
  rfl

/-- Words with what they tell. -/
structure Listing where
  entries : List (UInt32 × Form)
  reads : ∀ e ∈ entries, disassemble e.1 = some e.2

def Listing.code (l : Listing) : List UInt8 := wordBytes (l.entries.map (·.1))

/-- The machine is at the entry `k` of a listing that stands in memory from `start` on. -/
structure Machine.At (l : Listing) (start : BitVec 64) (k : Nat) (m : Machine) : Prop where
  code : m.bytes start l.code.length = l.code
  pc : m.pc = start + BitVec.ofNat 64 (4 * k)

end Placement

namespace Machine

section Frame

variable (m : Machine) (n : Nat) (v : BitVec 64)

@[simp] theorem read_write (k : Nat) :
    (m.write n v).read k = if k = n ∧ k < 31 then v else m.read k := by
  by_cases hk : k < 31
  · simp [read, write, hk]
  · simp [read, hk]

@[simp] theorem read_next : m.next.read n = m.read n := by simp only [read, next]

@[simp] theorem read_jumpBy (offset : Int) : (m.jumpBy offset).read n = m.read n := by
  simp only [read, jumpBy]

@[simp] theorem read_setFlags (flags : BitVec 4) : (m.setFlags (some flags)).read n = m.read n := by
  simp only [read, setFlags]

@[simp] theorem flags_next : m.next.flags = m.flags := by simp only [next]

@[simp] theorem flags_setFlags (flags : BitVec 4) : (m.setFlags (some flags)).flags = flags := by
  simp only [setFlags]

theorem write_zero : m.write 31 v = m := by
  -- the number 31 is that of no register
  have hregs : (m.write 31 v).regs = m.regs := by
    funext k
    exact if_neg (Nat.ne_of_lt k.isLt)
  exact congrArg (fun regs => { m with regs }) hregs

end Frame

variable {m m' : Machine} {post : Machine → Prop}

theorem Ends.of_step (h : m.step? = some m') (hrest : m'.Ends post) : m.Ends post := by
  obtain ⟨last, hlast, hpost⟩ := hrest
  refine ⟨last, ?_, hpost⟩
  rw [StateTransition.reaches_eval (.single h)]
  exact hlast

theorem Ends.here (h : m.step? = none) (hpost : post m) : m.Ends post :=
  ⟨m, StateTransition.mem_eval.mpr ⟨.refl, h⟩, hpost⟩

theorem holds_put (m : Machine) {code : List UInt8} (h : code.length < 2 ^ 64) :
    (m.put m.pc code).Holds code := by
  apply List.ext_getElem
  · simp [bytes]
  · intro i hi hcode
    have hplace : (m.pc + BitVec.ofNat 64 i - m.pc).toNat = i := by
      rw [BitVec.add_comm, BitVec.add_sub_cancel, BitVec.toNat_ofNat]
      exact Nat.mod_eq_of_lt (Nat.lt_trans hcode h)
    simp only [bytes, put, List.getElem_map, List.getElem_range, hplace]
    rw [List.getElem?_eq_getElem hcode, Option.getD_some]

namespace At

variable {l : Listing} {start : BitVec 64} {k : Nat} {w : UInt32} {f : Form}

theorem of_holds (h : m.Holds l.code) : m.At l m.pc 0 := ⟨h, by simp⟩

theorem form? (h : m.At l start k) (hf : l.entries[k]? = some (w, f)) : m.form? = some f := by
  have hw : (l.entries.map (·.1))[k]? = some w := by
    rw [List.getElem?_map, hf]
    rfl
  have hk : k < (l.entries.map (·.1)).length := (List.getElem?_eq_some_iff.mp hw).1
  have hlength : l.code.length = 4 * k + (4 + 4 * (l.entries.length - k - 1)) := by
    rw [Listing.code, length_wordBytes]
    rw [List.length_map] at hk ⊢
    omega
  have hcode := h.code
  rw [hlength, bytes_add, bytes_add, ← h.pc] at hcode
  have hbytes : m.bytes m.pc 4 = littleEndian 4 w.toNat := by
    rw [← take_drop_wordBytes hw, ← Listing.code, ← hcode, List.drop_left' (by simp [bytes]),
      List.take_left' (by simp [bytes])]
  rw [Machine.form?, hbytes, ofLittleEndian_littleEndian, Nat.mod_eq_of_lt w.toNat_lt,
    UInt32.ofNat_toNat]
  exact l.reads _ (List.mem_of_getElem? hf)

theorem step? (h : m.At l start k) (hf : l.entries[k]? = some (w, f)) :
    m.step? = f.execute m := by
  rw [Machine.step?, h.form? hf]
  rfl

/-- Memory and the place of the program counter are all that matters. -/
theorem move (h : m.At l start k) {k' : Nat} (offset : Int) (hmem : m'.mem = m.mem)
    (hpc : m'.pc = m.pc + BitVec.ofInt 64 offset) (hk : (4 * k : Int) + offset = 4 * k') :
    m'.At l start k' := by
  constructor
  · rw [bytes, hmem]
    exact h.code
  · have hoffset : BitVec.ofNat 64 (4 * k) + BitVec.ofInt 64 offset = BitVec.ofNat 64 (4 * k') := by
      rw [← BitVec.ofInt_natCast, ← BitVec.ofInt_natCast, ← BitVec.ofInt_add]
      exact congrArg _ (by omega)
    rw [hpc, h.pc, BitVec.add_assoc, hoffset]

theorem data (h : m.At l start k) (hf : l.entries[k]? = some (w, f))
    {rd : Nat} {v : BitVec 64} (hexecute : f.execute m = some (m.write rd v).next)
    (hrest : (m.write rd v).next.At l start (k + 1) → (m.write rd v).next.Ends post) :
    m.Ends post := by
  apply Ends.of_step ((h.step? hf).trans hexecute)
  apply hrest
  exact h.move 4 rfl rfl (by omega)

theorem compare (h : m.At l start k) (flags : BitVec 4) {rn rm : Nat}
    (hf : l.entries[k]? = some (w, .shifted .subs .w64 31 rn rm .lsl 0))
    (hflags : flags = (addWithCarry (m.read rn) (~~~(m.read rm)) true).2)
    (hrest : (m.setFlags (some flags)).next.At l start (k + 1) →
      (m.setFlags (some flags)).next.Ends post) : m.Ends post := by
  have hexecute := Form.execute_subs m 31 rn rm
  rw [write_zero, ← hflags] at hexecute
  apply Ends.of_step ((h.step? hf).trans hexecute)
  apply hrest
  exact h.move 4 rfl rfl (by omega)

theorem jump (h : m.At l start k) (k' : Nat) {offset : Int}
    (hf : l.entries[k]? = some (w, .jump offset)) (hk : (4 * k : Int) + offset = 4 * k')
    (hrest : (m.jumpBy offset).At l start k' → (m.jumpBy offset).Ends post) : m.Ends post := by
  apply Ends.of_step (h.step? hf)
  exact hrest (h.move offset rfl rfl hk)

theorem taken (h : m.At l start k) (k' : Nat) {test : Test} {offset : Int}
    (hf : l.entries[k]? = some (w, .branch test offset)) (hholds : m.holds test = true)
    (hk : (4 * k : Int) + offset = 4 * k')
    (hrest : (m.jumpBy offset).At l start k' → (m.jumpBy offset).Ends post) : m.Ends post := by
  have hstep := h.step? hf
  rw [Form.execute, if_pos hholds] at hstep
  apply Ends.of_step hstep
  exact hrest (h.move offset rfl rfl hk)

theorem notTaken (h : m.At l start k) {test : Test} {offset : Int}
    (hf : l.entries[k]? = some (w, .branch test offset)) (hholds : m.holds test = false)
    (hrest : m.next.At l start (k + 1) → m.next.Ends post) : m.Ends post := by
  have hstep := h.step? hf
  rw [Form.execute, if_neg (by simp [hholds])] at hstep
  apply Ends.of_step hstep
  apply hrest
  exact h.move 4 rfl rfl (by omega)

/-- A word without a step ends the run. -/
theorem stop (h : m.At l start k) (hf : l.entries[k]? = some (w, f))
    (hexecute : f.execute m = none) (hpost : m.form? = some f → post m) : m.Ends post := by
  apply Ends.here ((h.step? hf).trans hexecute)
  exact hpost (h.form? hf)

end At

end Machine

end Codegen.A64
