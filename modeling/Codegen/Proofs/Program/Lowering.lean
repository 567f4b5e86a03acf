import Codegen.Proofs.A64.Execution
import Codegen.Proofs.Program.ControlFlow

/-!
Branch lowering, state by state. A condition is tested against the registers and flags of one
moment, and `Inst.goesOn` says in which block control then goes on after a lowered branch: what the
words of the branch test is its condition, or the condition that `invert` gives.

In every state, a lowered branch leads where the branch led before it was lowered, with one
exception. The codes that always hold have opposite codes that always hold as well, so a branch on
such a code leaves for the block that it should not take if the other one is laid out next.
-/
namespace Codegen

namespace A64

structure Status where
  file : Reg → BitVec 64
  flags : BitVec 4

namespace BranchCond

def holds (s : Status) : BranchCond → Bool
  | unset => false
  | zero r => s.file r = 0
  | notZero r => s.file r ≠ 0
  | flag c => holdsFor s.flags c.code

/-- A register compared with zero, or a declared code. -/
def Declared : BranchCond → Prop
  | unset => False
  | zero _ => True
  | notZero _ => True
  | flag c => c ∈ Cond.declared

/-- The codes that hold whatever the flags are. -/
def Constant (cond : BranchCond) : Prop := cond = flag .al ∨ cond = flag .nv

variable {cond opposite : BranchCond} (s : Status)

theorem Declared.exists_invert (h : cond.Declared) : ∃ opposite, cond.invert = .ok opposite := by
  cases cond with
  | unset => cases h
  | zero r => exact ⟨notZero r, rfl⟩
  | notZero r => exact ⟨zero r, rfl⟩
  | flag c => exact ⟨flag c.invert, rfl⟩

theorem Constant.holds (h : cond.Constant) : cond.holds s = true := by
  rcases h with rfl | rfl
  · rfl
  · rfl

theorem Constant.invert (h : cond.Constant) (hinvert : cond.invert = .ok opposite) :
    opposite.Constant := by
  rcases h with rfl | rfl
  · cases hinvert
    exact .inr rfl
  · cases hinvert
    exact .inl rfl

/-- A code that differs in the lowest bit has the opposite meaning, unless both always hold. -/
theorem holdsFor_invert_code (flags : BitVec 4) {c : Cond} (hc : c ∈ Cond.declared)
    (hal : c ≠ .al) (hnv : c ≠ .nv) : holdsFor flags c.invert.code = !holdsFor flags c.code := by
  revert flags c
  decide

theorem holds_invert (h : cond.Declared) (hvaries : ¬ cond.Constant)
    (hinvert : cond.invert = .ok opposite) : opposite.holds s = !cond.holds s := by
  cases cond with
  | unset => cases h
  | zero r =>
      cases hinvert
      simp [BranchCond.holds]
  | notZero r =>
      cases hinvert
      simp [BranchCond.holds]
  | flag c =>
      cases hinvert
      apply holdsFor_invert_code s.flags h
      · rintro rfl
        exact hvaries (.inl rfl)
      · rintro rfl
        exact hvaries (.inr rfl)

end BranchCond

/-- The block where control goes on after a lowered branch, with the block that is laid out after
it. -/
def Inst.goesOn (s : Status) (next : Option Nat) : Inst → Option Nat
  | branchTo (.block b) inverted cond =>
    match cond.invertIf inverted with
    | .ok tested => if tested.holds s then some b else next
    | .error _ => none
  | branchElse (.block t) (.block n) cond => some (if cond.holds s then t else n)
  | _ => none

/-- The status of a machine. The number of a register decides which one is read. -/
def Machine.status (m : Machine) : Status where
  file r := m.read (number r)
  flags := m.flags

/-- The machine does the test of a condition on its own registers and flags. -/
theorem Machine.holds_test (m : Machine) {cond : BranchCond} {test : Test}
    (h : cond.test = some test) : m.holds test = cond.holds m.status := by
  have hnumber : ∀ {r : Reg} {k : Nat}, (hwEnc r).toOption = some k → k = number r := by
    intro r k hk
    cases r with
    | virtual c i => cases hk
    | physical c e i =>
        cases hk
        rfl
  cases cond with
  | unset => cases h
  | zero r =>
      obtain ⟨k, hk, rfl⟩ := Option.map_eq_some_iff.mp h
      rw [hnumber hk]
      rfl
  | notZero r =>
      obtain ⟨k, hk, rfl⟩ := Option.map_eq_some_iff.mp h
      rw [hnumber hk]
      rfl
  | flag c =>
      cases h
      rfl

namespace Inst

section Lowering

variable {next : Option Nat} (s : Status)

theorem goesOn_branchTo {b : Nat} {inverted : Bool} {cond tested : BranchCond}
    (h : cond.invertIf inverted = .ok tested) :
    (branchTo (.block b) inverted cond).goesOn s next =
      if tested.holds s then some b else next := by
  simp only [goesOn, h]

theorem lower_branch_cases (next : Option Nat) (t n : Nat) (cond : BranchCond) :
    (next = some t ∧
        (branch (.block t) (.block n) cond).lower next = branchTo (.block n) true cond) ∨
      (next ≠ some t ∧ next = some n ∧
        (branch (.block t) (.block n) cond).lower next = branchTo (.block t) false cond) ∨
      (next ≠ some t ∧ next ≠ some n ∧
        (branch (.block t) (.block n) cond).lower next =
          branchElse (.block t) (.block n) cond) := by
  by_cases ht : next = some t
  · exact .inl ⟨ht, by simp only [lower, Program.isNext_iff.mpr ht, if_true]⟩
  · have htaken := Program.isNext_iff.not.mpr ht
    by_cases hn : next = some n
    · refine .inr (.inl ⟨ht, hn, ?_⟩)
      simp only [lower, htaken, Program.isNext_iff.mpr hn, Bool.false_eq_true, if_false, if_true]
    · refine .inr (.inr ⟨ht, hn, ?_⟩)
      simp only [lower, htaken, Program.isNext_iff.not.mpr hn, Bool.false_eq_true, if_false]

/-- A lowered branch goes on in the block that its condition selects, in every state, unless its
condition always holds and the block that it always takes is laid out next. -/
theorem goesOn_lower_iff (next : Option Nat) (t n : Nat) {cond : BranchCond}
    (hcond : cond.Declared) :
    ((branch (.block t) (.block n) cond).lower next).goesOn s next =
        some (if cond.holds s then t else n) ↔
      ¬ (cond.Constant ∧ next = some t ∧ t ≠ n) := by
  rcases lower_branch_cases next t n cond with ⟨ht, hlow⟩ | ⟨ht, hn, hlow⟩ | ⟨ht, hn, hlow⟩
  · obtain ⟨opposite, hopposite⟩ := hcond.exists_invert
    have htested : cond.invertIf true = .ok opposite := hopposite
    rw [hlow, goesOn_branchTo s htested, ht]
    by_cases hconstant : cond.Constant
    · -- the opposite code holds too, so the branch leaves the block that is laid out next
      rw [(hconstant.invert hopposite).holds s, hconstant.holds s]
      simp [hconstant, eq_comm]
    · rw [BranchCond.holds_invert s hcond hconstant hopposite]
      cases cond.holds s with
      | false => simp [hconstant]
      | true => simp [hconstant]
  · have htested : cond.invertIf false = .ok cond := rfl
    rw [hlow, goesOn_branchTo s htested]
    simp only [ht, false_and, and_false, not_false_eq_true, iff_true]
    rw [hn]
    cases cond.holds s with
    | false => rfl
    | true => rfl
  · rw [hlow]
    simp [goesOn, ht]

/-- No carry, so that the condition of the branch does not hold. -/
theorem goesOn_lower_iff_unsignedLess : BranchCond.Declared (.flag .hs) ∧
    ((branch (.block 1) (.block 2) (.flag .hs)).lower (some 1)).goesOn
      { file := fun _ => 0, flags := 0b1000 } (some 1) = some 2 := by
  have hdeclared : BranchCond.Declared (.flag .hs) := by
    show Cond.hs ∈ Cond.declared
    decide
  have hvaries : ¬ BranchCond.Constant (.flag .hs) := by simp [BranchCond.Constant]
  exact ⟨hdeclared, (goesOn_lower_iff _ (some 1) 1 2 hdeclared).mpr fun h => hvaries h.1⟩

/-- A branch that is always taken does not go on in the block that it takes if that is laid out
next. -/
theorem not_goesOn_lower_always : ¬ ∀ (s : Status) (next : Option Nat) (t n : Nat)
    (cond : BranchCond), cond.Declared →
      ((branch (.block t) (.block n) cond).lower next).goesOn s next =
        some (if cond.holds s then t else n) := by
  intro h
  have hdeclared : BranchCond.Declared (.flag .al) := by
    show Cond.al ∈ Cond.declared
    decide
  have hleads := h { file := fun _ => 0, flags := 0 } (some 1) 1 2 (.flag .al) hdeclared
  -- its word tests `nv`, which holds as well
  have hleaves : ((branch (.block 1) (.block 2) (.flag .al)).lower (some 1)).goesOn
      { file := fun _ => 0, flags := 0 } (some 1) = some 2 := rfl
  rw [hleaves] at hleads
  cases hleads

end Lowering

end Inst

end A64

namespace Program

open A64 (BranchCond Exit Inst Machine follow)

variable (m : Machine) {out : List UInt8} {base here : Nat} {s s' : Emitter}
  {offsets : List CodeOffset} {next : Option Nat}

/-- On every machine, the words of a lowered branch lead to the block where control goes on. -/
theorem follow_goesOn {low : Inst} {t n : Nat} {cond : BranchCond}
    (hlow : (Inst.branch (.block t) (.block n) cond).lower next = low)
    (hhere : s.buffer.bytes.size = base + here) (hout : s'.buffer.bytes.toList <+: out)
    (hcond : ∀ x, cond.test = some x → x.Encodable)
    (hemit : (low.settle offsets (UInt32.ofNat here)).emit.exec s = (.ok (), s'))
    (hfit : here + low.size.toNat < 2 ^ 32)
    (hnext : ∀ c, next = some c → (offsets.getD c 0).toNat = here + low.size.toNat) :
    ∃ b, low.goesOn m.status next = some b ∧
      follow m.holds (out.drop base) low.words here = .reach (offsets.getD b 0).toNat := by
  -- a branch that falls through does so to the next block, in whatever sense it is inverted
  have hsingle : ∀ b c inverted, next = some c → low = .branchTo (.block b) inverted cond →
      ∃ b, low.goesOn m.status next = some b ∧
        follow m.holds (out.drop base) low.words here = .reach (offsets.getD b 0).toNat := by
    rintro b c inverted hc rfl
    obtain ⟨off, tested, test, hoff, htested, htest, hfollow⟩ :=
      A64.follow_tested m.holds hhere hout hemit hcond
    rw [Inst.goesOn_branchTo _ htested, Inst.words_branchTo, hfollow, m.holds_test htest,
      reach_settle (by omega) hoff]
    cases tested.holds m.status with
    | true => exact ⟨b, rfl, rfl⟩
    | false => exact ⟨c, hc, congrArg (fun k : Nat => Exit.reach k) (hnext c hc).symm⟩
  rcases Inst.lower_branch_cases next t n cond with ⟨ht, hcase⟩ | ⟨_, hn, hcase⟩ | ⟨_, _, hcase⟩
  · exact hsingle n t true ht (hlow.symm.trans hcase)
  · exact hsingle t n false hn (hlow.symm.trans hcase)
  · rw [hcase] at hlow
    subst hlow
    have hsecond : here + 8 < 2 ^ 32 := hfit
    obtain ⟨off, off', test, hoff, hoff', htest, hfollow⟩ :=
      A64.follow_branchElse m.holds hhere hout hemit hcond
    have hjump : UInt32.ofNat here + 4 = UInt32.ofNat (here + 4) := (UInt32.ofNat_add _ _).symm
    rw [hjump] at hoff'
    refine ⟨_, rfl, ?_⟩
    rw [Inst.words_branchElse, hfollow, m.holds_test htest, reach_settle (by omega) hoff,
      reach_settle (by omega) hoff']
    cases cond.holds m.status with
    | false => rfl
    | true => rfl

end Program

end Codegen
