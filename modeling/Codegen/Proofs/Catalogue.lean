import Codegen.Proofs.A64.Execution
import Codegen.Proofs.Compile
import Mathlib.Algebra.BigOperators.Intervals

/-!
The catalogue computes what it says. The code of a function of the catalogue is found by evaluation,
for both block orders, and then run from its first word in any machine that has it in memory.
-/
namespace Codegen.Catalogue

open A64 (Machine Form Listing)
open A64.Machine

def Returns (m : Machine) (result : BitVec 64) : Prop :=
  m.Ends fun last => last.form? = some (.ret 30) ∧ last.read 0 = result

section Runs

variable {m : Machine}

/-- The code of `select`; the block that is laid out next is the one taken or the other one. -/
def selectListing : BlockOrder → Listing
  | .fallthrough =>
    { entries :=
        [(0xaa0003e1, .shifted .orr .w64 1 31 0 .lsl 0), (0xb5000061, .branch (.notZero 1) 12),
          (0xd1000420, .imm12 .sub .w64 0 1 1 false), (0xd65f03c0, .ret 30),
          (0x91000420, .imm12 .add .w64 0 1 1 false), (0x17fffffe, .jump (-8))]
      reads := by decide }
  | _ =>
    { entries :=
        [(0xaa0003e1, .shifted .orr .w64 1 31 0 .lsl 0), (0xb4000061, .branch (.zero 1) 12),
          (0x91000420, .imm12 .add .w64 0 1 1 false), (0x14000002, .jump 8),
          (0xd1000420, .imm12 .sub .w64 0 1 1 false), (0xd65f03c0, .ret 30)]
      reads := by decide }

theorem returns_select_identity (h : m.Holds (selectListing .identity).code) :
    Returns m (if m.read 0 ≠ 0 then m.read 0 + 1 else m.read 0 - 1) := by
  refine (At.of_holds h).data rfl (Form.execute_mov m 1 0) fun h => ?_
  by_cases hzero : m.read 0 = 0#64
  · refine h.taken 4 rfl (by simp [holds, hzero]) (by omega) fun h => ?_
    refine h.data rfl (Form.execute_subImm _ 0 1 (by decide) (by decide)) fun h => ?_
    exact h.stop rfl rfl fun hform => ⟨hform, by simp [hzero]⟩
  · refine h.notTaken rfl (by simp [holds, hzero]) fun h => ?_
    refine h.data rfl (Form.execute_addImm _ 0 1 (by decide) (by decide)) fun h => ?_
    refine h.jump 5 rfl (by omega) fun h => ?_
    exact h.stop rfl rfl fun hform => ⟨hform, by simp [hzero]⟩

theorem returns_select_fallthrough (h : m.Holds (selectListing .fallthrough).code) :
    Returns m (if m.read 0 ≠ 0 then m.read 0 + 1 else m.read 0 - 1) := by
  refine (At.of_holds h).data rfl (Form.execute_mov m 1 0) fun h => ?_
  by_cases hzero : m.read 0 = 0#64
  · refine h.notTaken rfl (by simp [holds, hzero]) fun h => ?_
    refine h.data rfl (Form.execute_subImm _ 0 1 (by decide) (by decide)) fun h => ?_
    exact h.stop rfl rfl fun hform => ⟨hform, by simp [hzero]⟩
  · refine h.taken 4 rfl (by simp [holds, hzero]) (by omega) fun h => ?_
    refine h.data rfl (Form.execute_addImm _ 0 1 (by decide) (by decide)) fun h => ?_
    refine h.jump 3 rfl (by omega) fun h => ?_
    exact h.stop rfl rfl fun hform => ⟨hform, by simp [hzero]⟩

def maximumListing : BlockOrder → Listing
  | .fallthrough =>
    { entries :=
        [(0xaa0003e2, .shifted .orr .w64 2 31 0 .lsl 0),
          (0xaa0103e1, .shifted .orr .w64 1 31 1 .lsl 0),
          (0xeb01005f, .shifted .subs .w64 31 2 1 .lsl 0), (0x5400006a, .branch (.flag 10) 12),
          (0xaa0103e0, .shifted .orr .w64 0 31 1 .lsl 0), (0xd65f03c0, .ret 30),
          (0xaa0203e0, .shifted .orr .w64 0 31 2 .lsl 0), (0x17fffffe, .jump (-8))]
      reads := by decide }
  | _ =>
    { entries :=
        [(0xaa0003e2, .shifted .orr .w64 2 31 0 .lsl 0),
          (0xaa0103e1, .shifted .orr .w64 1 31 1 .lsl 0),
          (0xeb01005f, .shifted .subs .w64 31 2 1 .lsl 0), (0x5400006b, .branch (.flag 11) 12),
          (0xaa0203e0, .shifted .orr .w64 0 31 2 .lsl 0), (0x14000002, .jump 8),
          (0xaa0103e0, .shifted .orr .w64 0 31 1 .lsl 0), (0xd65f03c0, .ret 30)]
      reads := by decide }

theorem returns_maximum_identity (h : m.Holds (maximumListing .identity).code) :
    Returns m (if (m.read 1).toInt ≤ (m.read 0).toInt then m.read 0 else m.read 1) := by
  have hholds := A64.holdsFor_compare (m.read 0) (m.read 1)
  refine (At.of_holds h).data rfl (Form.execute_mov m 2 0) fun h => ?_
  refine h.data rfl (Form.execute_mov _ 1 1) fun h => ?_
  refine h.compare (A64.addWithCarry (m.read 0) (~~~(m.read 1)) true).2 rfl (by simp) fun h => ?_
  by_cases hle : (m.read 1).toInt ≤ (m.read 0).toInt
  · refine h.notTaken rfl (by simp [holds, A64.holdsFor_invert, hholds, hle]) fun h => ?_
    refine h.data rfl (Form.execute_mov _ 0 2) fun h => ?_
    refine h.jump 7 rfl (by omega) fun h => ?_
    exact h.stop rfl rfl fun hform => ⟨hform, by simp [hle]⟩
  · refine h.taken 6 rfl (by simp [holds, A64.holdsFor_invert, hholds, hle]) (by omega) fun h => ?_
    refine h.data rfl (Form.execute_mov _ 0 1) fun h => ?_
    exact h.stop rfl rfl fun hform => ⟨hform, by simp [hle]⟩

theorem returns_maximum_fallthrough (h : m.Holds (maximumListing .fallthrough).code) :
    Returns m (if (m.read 1).toInt ≤ (m.read 0).toInt then m.read 0 else m.read 1) := by
  have hholds := A64.holdsFor_compare (m.read 0) (m.read 1)
  refine (At.of_holds h).data rfl (Form.execute_mov m 2 0) fun h => ?_
  refine h.data rfl (Form.execute_mov _ 1 1) fun h => ?_
  refine h.compare (A64.addWithCarry (m.read 0) (~~~(m.read 1)) true).2 rfl (by simp) fun h => ?_
  by_cases hle : (m.read 1).toInt ≤ (m.read 0).toInt
  · refine h.taken 6 rfl (by simp [holds, hholds, hle]) (by omega) fun h => ?_
    refine h.data rfl (Form.execute_mov _ 0 2) fun h => ?_
    refine h.jump 5 rfl (by omega) fun h => ?_
    exact h.stop rfl rfl fun hform => ⟨hform, by simp [hle]⟩
  · refine h.notTaken rfl (by simp [holds, hholds, hle]) fun h => ?_
    refine h.data rfl (Form.execute_mov _ 0 1) fun h => ?_
    exact h.stop rfl rfl fun hform => ⟨hform, by simp [hle]⟩

/-- The code of `sum_loop`: the sum is in the register 1 and the counter in the register 2. -/
def sumLoopListing : Listing where
  entries :=
    [(0xd2800001, .moveWide false 1 0 0), (0xaa0003e2, .shifted .orr .w64 2 31 0 .lsl 0),
      (0xb4000082, .branch (.zero 2) 16), (0x8b020021, .shifted .add .w64 1 1 2 .lsl 0),
      (0xd1000442, .imm12 .sub .w64 2 2 1 false), (0x17fffffd, .jump (-12)),
      (0xaa0103e0, .shifted .orr .w64 0 31 1 .lsl 0), (0xd65f03c0, .ret 30)]
  reads := by decide

/-- The head of the loop, with a counter of `n`: what is left to add is the sum up to `n`. -/
theorem returns_loop {start : BitVec 64} (n : Nat) (hn : n < 2 ^ 64)
    (h : m.At sumLoopListing start 2) (hcounter : m.read 2 = BitVec.ofNat 64 n) :
    Returns m (m.read 1 + BitVec.ofNat 64 (∑ i ∈ Finset.Icc 1 n, i)) := by
  induction n generalizing m with
  | zero =>
      refine h.taken 6 rfl (by simp [holds, hcounter]) (by omega) fun h => ?_
      refine h.data rfl (Form.execute_mov _ 0 1) fun h => ?_
      exact h.stop rfl rfl fun hform => ⟨hform, by simp⟩
  | succ n ih =>
      have hne : BitVec.ofNat 64 (n + 1) ≠ 0#64 := by
        intro hzero
        have hnat := congrArg BitVec.toNat hzero
        rw [BitVec.toNat_ofNat, Nat.mod_eq_of_lt hn] at hnat
        exact Nat.succ_ne_zero n hnat
      have hpred : BitVec.ofNat 64 (n + 1) - 1#64 = BitVec.ofNat 64 n := by
        rw [BitVec.ofNat_add, BitVec.add_sub_cancel]
      refine h.notTaken rfl (by simp [holds, hcounter, hne]) fun h => ?_
      refine h.data rfl (Form.execute_add _ 1 1 2) fun h => ?_
      refine h.data rfl (Form.execute_subImm _ 2 2 (by decide) (by decide)) fun h => ?_
      refine h.jump 2 rfl (by omega) fun h => ?_
      have hrest := ih (by omega) h (by simp [hcounter, hpred])
      -- the counter is added before it is counted down
      have hsum : m.read 1 + m.read 2 + BitVec.ofNat 64 (∑ i ∈ Finset.Icc 1 n, i) =
          m.read 1 + BitVec.ofNat 64 (∑ i ∈ Finset.Icc 1 (n + 1), i) := by
        rw [Finset.sum_Icc_succ_top (by omega), BitVec.ofNat_add, hcounter, BitVec.add_assoc,
          BitVec.add_comm (BitVec.ofNat 64 (n + 1))]
      rw [← hsum]
      simpa [Returns] using hrest

theorem returns_sumLoop (h : m.Holds sumLoopListing.code) :
    Returns m (BitVec.ofNat 64 (∑ i ∈ Finset.Icc 1 (m.read 0).toNat, i)) := by
  refine (At.of_holds h).data rfl rfl fun h => ?_
  refine h.data rfl (Form.execute_mov _ 2 0) fun h => ?_
  have hrest := returns_loop (m.read 0).toNat (m.read 0).isLt h (by simp)
  simpa [Returns] using hrest

def trapIfZeroListing : BlockOrder → Listing
  | .fallthrough =>
    { entries :=
        [(0xb4000041, .branch (.zero 1) 8), (0xd65f03c0, .ret 30), (0x00000000, .udf),
          (0xd65f03c0, .ret 30)]
      reads := by decide }
  | _ =>
    { entries :=
        [(0xb5000061, .branch (.notZero 1) 12), (0x00000000, .udf), (0xd65f03c0, .ret 30),
          (0xd65f03c0, .ret 30)]
      reads := by decide }

def trapOffset : BlockOrder → CodeOffset
  | .fallthrough => 8
  | _ => 4

/-- The run comes to an undefined instruction at the given offset from the beginning of the code. -/
def TrapsAt (m : Machine) (offset : CodeOffset) : Prop :=
  m.Ends fun last => last.form? = some .udf ∧ last.pc = m.pc + BitVec.ofNat 64 offset.toNat

theorem trapIfZero_identity (h : m.Holds (trapIfZeroListing .identity).code) :
    (m.read 1 ≠ 0 → Returns m (m.read 0)) ∧ (m.read 1 = 0 → TrapsAt m 4) := by
  have h := At.of_holds h
  constructor
  · intro hne
    refine h.taken 3 rfl (by simpa [holds] using hne) (by omega) fun h => ?_
    exact h.stop rfl rfl fun hform => ⟨hform, by simp⟩
  · intro hzero
    refine h.notTaken rfl (by simpa [holds] using hzero) fun h => ?_
    exact h.stop rfl rfl fun hform => ⟨hform, h.pc⟩

theorem trapIfZero_fallthrough (h : m.Holds (trapIfZeroListing .fallthrough).code) :
    (m.read 1 ≠ 0 → Returns m (m.read 0)) ∧ (m.read 1 = 0 → TrapsAt m 8) := by
  have h := At.of_holds h
  constructor
  · intro hne
    refine h.notTaken rfl (by simpa [holds] using hne) fun h => ?_
    exact h.stop rfl rfl fun hform => ⟨hform, by simp⟩
  · intro hzero
    refine h.taken 2 rfl (by simpa [holds] using hzero) (by omega) fun h => ?_
    exact h.stop rfl rfl fun hform => ⟨hform, h.pc⟩

end Runs

section Code

variable {cfg : Config} (hisa : cfg.isa = A64.targetName) (hexecutable : cfg.executable = false)

include hisa hexecutable

theorem compile_of_unsorted {f : Routine} {l : Listing} {size : CodeOffset} {records : Records}
    (hf : f.InOrder) (h : f.assembleUnsorted cfg.order = .ok ⟨l.code, size, records⟩) :
    ∃ c, compile cfg f = .ok c ∧ c.code = l.code ∧ c.records = records := by
  obtain ⟨c, hc, hassembled⟩ :=
    exists_compile cfg hisa hexecutable (Routine.assemble_of_unsorted hf h)
  exact ⟨c, hc, congrArg Assembled.code hassembled, congrArg Assembled.records hassembled⟩

variable (horder : cfg.order = .identity ∨ cfg.order = .fallthrough)

include horder

theorem computes_select : ∃ c, compile cfg select = .ok c ∧ ∀ m : Machine, m.Holds c.code →
    Returns m (if m.read 0 ≠ 0 then m.read 0 + 1 else m.read 0 - 1) := by
  have hf : select.InOrder := by decide +kernel
  have hcode : ∀ order ∈ [BlockOrder.identity, .fallthrough],
      select.assembleUnsorted order = .ok ⟨(selectListing order).code, 24, {}⟩ := by decide +kernel
  obtain ⟨c, hc, hcode, _⟩ :=
    compile_of_unsorted hisa hexecutable hf (hcode cfg.order (by simpa using horder))
  refine ⟨c, hc, fun m hm => ?_⟩
  rw [hcode] at hm
  rcases horder with horder | horder
  · rw [horder] at hm
    exact returns_select_identity hm
  · rw [horder] at hm
    exact returns_select_fallthrough hm

theorem computes_maximum : ∃ c, compile cfg maximum = .ok c ∧ ∀ m : Machine, m.Holds c.code →
    ∃ result, Returns m result ∧ result.toInt = max (m.read 0).toInt (m.read 1).toInt := by
  have hf : maximum.InOrder := by decide +kernel
  have hcode : ∀ order ∈ [BlockOrder.identity, .fallthrough],
      maximum.assembleUnsorted order = .ok ⟨(maximumListing order).code, 32, {}⟩ := by
    decide +kernel
  obtain ⟨c, hc, hcode, _⟩ :=
    compile_of_unsorted hisa hexecutable hf (hcode cfg.order (by simpa using horder))
  refine ⟨c, hc, fun m hm => ?_⟩
  refine ⟨if (m.read 1).toInt ≤ (m.read 0).toInt then m.read 0 else m.read 1, ?_, ?_⟩
  · rw [hcode] at hm
    rcases horder with horder | horder
    · rw [horder] at hm
      exact returns_maximum_identity hm
    · rw [horder] at hm
      exact returns_maximum_fallthrough hm
  · rw [max_comm, max_def, apply_ite BitVec.toInt]

theorem code_sumLoop : ∃ c, compile cfg sumLoop = .ok c ∧ c.code = sumLoopListing.code := by
  have hf : sumLoop.InOrder := by decide +kernel
  have hcode : ∀ order ∈ [BlockOrder.identity, .fallthrough],
      sumLoop.assembleUnsorted order = .ok ⟨sumLoopListing.code, 32, {}⟩ := by decide +kernel
  obtain ⟨c, hc, hcode, _⟩ :=
    compile_of_unsorted hisa hexecutable hf (hcode cfg.order (by simpa using horder))
  exact ⟨c, hc, hcode⟩

theorem computes_sumLoop : ∃ c, compile cfg sumLoop = .ok c ∧ ∀ m : Machine, m.Holds c.code →
    Returns m (BitVec.ofNat 64 (∑ i ∈ Finset.Icc 1 (m.read 0).toNat, i)) := by
  obtain ⟨c, hc, hcode⟩ := code_sumLoop hisa hexecutable horder
  refine ⟨c, hc, fun m hm => ?_⟩
  rw [hcode] at hm
  exact returns_sumLoop hm

theorem computes_trapIfZero : ∃ c, compile cfg trapIfZero = .ok c ∧ ∀ m : Machine,
    m.Holds c.code → (m.read 1 ≠ 0 → Returns m (m.read 0)) ∧ (m.read 1 = 0 →
      ∃ site ∈ c.records.traps, site.code = .divisionByZero ∧ TrapsAt m site.offset) := by
  have hf : trapIfZero.InOrder := by decide +kernel
  have hcode : ∀ order ∈ [BlockOrder.identity, .fallthrough],
      trapIfZero.assembleUnsorted order = .ok ⟨(trapIfZeroListing order).code, 16,
        { traps := [⟨trapOffset order, .divisionByZero⟩] }⟩ := by decide +kernel
  obtain ⟨c, hc, hcode, hrecords⟩ :=
    compile_of_unsorted hisa hexecutable hf (hcode cfg.order (by simpa using horder))
  refine ⟨c, hc, fun m hm => ?_⟩
  have hruns : (m.read 1 ≠ 0 → Returns m (m.read 0)) ∧
      (m.read 1 = 0 → TrapsAt m (trapOffset cfg.order)) := by
    rw [hcode] at hm
    rcases horder with horder | horder
    · rw [horder] at hm ⊢
      exact trapIfZero_identity hm
    · rw [horder] at hm ⊢
      exact trapIfZero_fallthrough hm
  refine ⟨hruns.1, fun hzero => ⟨⟨trapOffset cfg.order, .divisionByZero⟩, ?_, rfl, hruns.2 hzero⟩⟩
  rw [hrecords]
  exact List.mem_singleton_self _

/-- For both block orders and whatever is reported, the functions compile, and their code in memory
runs from its first word to a return with the result that is documented, or to the recorded trap. -/
theorem catalogue_computes :
    (∃ c, compile cfg select = .ok c ∧ ∀ m : Machine, m.Holds c.code →
      Returns m (if m.read 0 ≠ 0 then m.read 0 + 1 else m.read 0 - 1)) ∧
    (∃ c, compile cfg maximum = .ok c ∧ ∀ m : Machine, m.Holds c.code →
      ∃ result, Returns m result ∧ result.toInt = max (m.read 0).toInt (m.read 1).toInt) ∧
    (∃ c, compile cfg sumLoop = .ok c ∧ ∀ m : Machine, m.Holds c.code →
      Returns m (BitVec.ofNat 64 (∑ i ∈ Finset.Icc 1 (m.read 0).toNat, i))) ∧
    ∃ c, compile cfg trapIfZero = .ok c ∧ ∀ m : Machine, m.Holds c.code →
      (m.read 1 ≠ 0 → Returns m (m.read 0)) ∧ (m.read 1 = 0 →
        ∃ site ∈ c.records.traps, site.code = .divisionByZero ∧ TrapsAt m site.offset) :=
  ⟨computes_select hisa hexecutable horder, computes_maximum hisa hexecutable horder,
    computes_sumLoop hisa hexecutable horder, computes_trapIfZero hisa hexecutable horder⟩

end Code

/-- A machine with the number ten in every register and the code in memory. -/
def tens (code : List UInt8) : Machine :=
  Machine.put ⟨fun _ => 10, 0, 4096, 0, fun _ => 0⟩ 4096 code

def sumLoopConfig : Config := { isa := A64.targetName, order := .identity }

theorem catalogue_computes_tens : ∃ c, compile sumLoopConfig sumLoop = .ok c ∧
    (tens c.code).Holds c.code ∧ Returns (tens c.code) 55 := by
  obtain ⟨_, _, ⟨c, hc, hruns⟩, _⟩ := @catalogue_computes sumLoopConfig rfl rfl (.inl rfl)
  obtain ⟨d, hd, hcode⟩ := @code_sumLoop sumLoopConfig rfl rfl (.inl rfl)
  cases hc.symm.trans hd
  have hlength : c.code.length < 2 ^ 64 := by
    rw [hcode]
    decide
  have hholds : (tens c.code).Holds c.code := holds_put _ hlength
  exact ⟨c, hc, hholds, hruns (tens c.code) hholds⟩

end Codegen.Catalogue
