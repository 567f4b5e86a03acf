import Codegen.A64.Control
import Codegen.A64.Operands
import Codegen.Proofs.Checked

/-!
Control flow of one instruction. Where every target has a new number or an offset, `relabel` and
`resolve` are the plain rewritings `renumber` and `settle`, which cannot fail. None of the
rewritings of targets touches a register.
-/
namespace Codegen

def Terminator.renumber (f : Nat → Nat) : Terminator → Terminator
  | none => none
  | jump t => jump (f t)
  | branch t n => branch (f t) (f n)
  | ret => ret
  | undeclared c => undeclared c

theorem Terminator.succs_renumber (f : Nat → Nat) (term : Terminator) :
    (term.renumber f).succs = term.succs.map f := by
  cases term with
  | _ => rfl

theorem Terminator.renumber_ne_none {f : Nat → Nat} {term : Terminator} (h : term ≠ .none) :
    term.renumber f ≠ .none := by
  cases term with
  | none => exact absurd rfl h
  | _ => intro heq; cases heq

namespace A64

namespace BranchTarget

/-- The target is one of `count` blocks. -/
def Within (count : Nat) (t : BranchTarget) : Prop := ∃ b, t = block b ∧ b < count

def IsResolved (t : BranchTarget) : Prop := ∃ off, t = resolved off

def renumber (f : Nat → Nat) : BranchTarget → BranchTarget
  | block b => block (f b)
  | resolved off => resolved off

/-- The distance from `here` to the offset of the block. -/
def settle (offsets : List CodeOffset) (here : CodeOffset) : BranchTarget → BranchTarget
  | block b => resolved (Int64.ofInt ((offsets.getD b 0).toNat - here.toNat))
  | resolved off => resolved off

theorem isResolved_settle (offsets : List CodeOffset) (here : CodeOffset) (t : BranchTarget) :
    (t.settle offsets here).IsResolved := by
  cases t with
  | block b => exact ⟨_, rfl⟩
  | resolved off => exact ⟨off, rfl⟩

theorem mustBlock_eq_ok {t : BranchTarget} {b : Nat} : t.mustBlock = .ok b ↔ t = block b := by
  cases t with
  | block c => simp [mustBlock]
  | resolved off => simp [mustBlock]

theorem relabel_eq_renumber {f : Nat → Nat} {labels : List Nat} {b : Nat}
    (h : entry labels b = .ok (f b)) : (block b).relabel labels = .ok (block (f b)) := by
  simp only [relabel, h, Checked.ok_bind]
  rfl

theorem resolve_eq_settle {offsets : List CodeOffset} (here : CodeOffset) {t : BranchTarget}
    (h : t.Within offsets.length) : t.resolve offsets here = .ok (t.settle offsets here) := by
  obtain ⟨b, rfl, hb⟩ := h
  simp only [resolve, settle, entry, List.getElem?_eq_getElem hb, Checked.ok_bind,
    List.getD_eq_getElem?_getD, Option.getD_some]
  rfl

end BranchTarget

namespace Inst

def targets : Inst → List BranchTarget
  | jump t => [t]
  | branch t n _ => [t, n]
  | branchTo t _ _ => [t]
  | branchElse t n _ => [t, n]
  | _ => []

/-- A conditional branch that is not lowered yet. -/
def isBranch : Inst → Bool
  | branch .. => true
  | _ => false

def renumber (f : Nat → Nat) : Inst → Inst
  | jump t => jump (t.renumber f)
  | branch t n cond => branch (t.renumber f) (n.renumber f) cond
  | i => i

/-- The lowered instruction at `here` with its targets as offsets. -/
def settle (offsets : List CodeOffset) (here : CodeOffset) : Inst → Inst
  | jump t => jump (t.settle offsets here)
  | branchTo t inverted cond => branchTo (t.settle offsets here) inverted cond
  | branchElse t n cond => branchElse (t.settle offsets here) (n.settle offsets (here + 4)) cond
  | i => i

/-- What the terminator says of the instruction itself. -/
theorem targets_of_terminator {i : Inst} {term : Terminator} (h : i.terminator = .ok term) :
    i.targets = term.succs.map .block := by
  cases i with
  | jump t =>
      obtain ⟨b, hb, h⟩ := Checked.bind_eq_ok.mp h
      cases BranchTarget.mustBlock_eq_ok.mp hb
      cases h
      rfl
  | branch t n cond =>
      obtain ⟨b, hb, h⟩ := Checked.bind_eq_ok.mp h
      obtain ⟨c, hc, h⟩ := Checked.bind_eq_ok.mp h
      cases BranchTarget.mustBlock_eq_ok.mp hb
      cases BranchTarget.mustBlock_eq_ok.mp hc
      cases h
      rfl
  | branchTo t inverted cond => cases h
  | branchElse t n cond => cases h
  | _ =>
      cases h
      rfl

theorem isBranch_of_terminator {i : Inst} (h : i.terminator = .ok .none) : i.isBranch = false := by
  cases i with
  | branch t n cond =>
      obtain ⟨b, _, h⟩ := Checked.bind_eq_ok.mp h
      obtain ⟨c, _, h⟩ := Checked.bind_eq_ok.mp h
      cases h
  | _ => rfl

theorem relabel_eq_renumber {f : Nat → Nat} {labels : List Nat} {i : Inst} {term : Terminator}
    (h : i.terminator = .ok term) (hlabels : ∀ s ∈ term.succs, entry labels s = .ok (f s)) :
    i.relabel labels = .ok (i.renumber f) := by
  cases i with
  | jump t =>
      obtain ⟨b, hb, h⟩ := Checked.bind_eq_ok.mp h
      cases BranchTarget.mustBlock_eq_ok.mp hb
      cases h
      have hlabel := BranchTarget.relabel_eq_renumber (hlabels b (by simp [Terminator.succs]))
      simp only [relabel, hlabel, Checked.ok_bind]
      rfl
  | branch t n cond =>
      obtain ⟨b, hb, h⟩ := Checked.bind_eq_ok.mp h
      obtain ⟨c, hc, h⟩ := Checked.bind_eq_ok.mp h
      cases BranchTarget.mustBlock_eq_ok.mp hb
      cases BranchTarget.mustBlock_eq_ok.mp hc
      cases h
      have htaken := BranchTarget.relabel_eq_renumber (hlabels b (by simp [Terminator.succs]))
      have hother := BranchTarget.relabel_eq_renumber (hlabels c (by simp [Terminator.succs]))
      simp only [relabel, htaken, hother, Checked.ok_bind]
      rfl
  | branchTo t inverted cond => cases h
  | branchElse t n cond => cases h
  | _ => rfl

theorem terminator_renumber {i : Inst} {term : Terminator} (h : i.terminator = .ok term)
    (f : Nat → Nat) : (i.renumber f).terminator = .ok (term.renumber f) := by
  cases i with
  | jump t =>
      obtain ⟨b, hb, h⟩ := Checked.bind_eq_ok.mp h
      cases BranchTarget.mustBlock_eq_ok.mp hb
      cases h
      rfl
  | branch t n cond =>
      obtain ⟨b, hb, h⟩ := Checked.bind_eq_ok.mp h
      obtain ⟨c, hc, h⟩ := Checked.bind_eq_ok.mp h
      cases BranchTarget.mustBlock_eq_ok.mp hb
      cases BranchTarget.mustBlock_eq_ok.mp hc
      cases h
      rfl
  | branchTo t inverted cond => cases h
  | branchElse t n cond => cases h
  | _ =>
      cases h
      rfl

theorem occurrences_renumber (f : Nat → Nat) (i : Inst) :
    (i.renumber f).occurrences = i.occurrences := by
  cases i with
  | _ => rfl

theorem isBranch_lower (next : Option Nat) (i : Inst) : (i.lower next).isBranch = false := by
  cases i with
  | branch t n cond =>
      simp only [lower]
      split
      · rfl
      · split
        · rfl
        · rfl
  | jump t =>
      simp only [lower]
      split
      · rfl
      · rfl
  | _ => rfl

theorem targets_lower_subset (next : Option Nat) (i : Inst) :
    ∀ t ∈ (i.lower next).targets, t ∈ i.targets := by
  cases i with
  | branch t n cond =>
      intro x hx
      simp only [lower] at hx
      split at hx
      · exact List.mem_cons_of_mem t hx
      · split at hx
        · exact List.mem_cons.mpr ((List.mem_cons.mp hx).imp id (by simp))
        · exact hx
  | jump t =>
      intro x hx
      simp only [lower] at hx
      split at hx
      · cases hx
      · exact hx
  | _ => exact fun x hx => hx

theorem occurrences_lower (next : Option Nat) (i : Inst) :
    (i.lower next).occurrences = i.occurrences := by
  cases i with
  | branch t n cond =>
      simp only [lower]
      split
      · rfl
      · split
        · rfl
        · rfl
  | jump t =>
      simp only [lower]
      split
      · rfl
      · rfl
  | _ => rfl

/-- A lowered branch whose targets are blocks with an offset can be resolved. -/
theorem resolve_eq_settle {offsets : List CodeOffset} (here : CodeOffset) {i : Inst}
    (h : ∀ t ∈ i.targets, t.Within offsets.length) :
    i.resolve here offsets = .ok (i.settle offsets here) := by
  cases i with
  | jump t | branchTo t inverted cond =>
      have ht := BranchTarget.resolve_eq_settle here (h t List.mem_cons_self)
      simp only [resolve, settle, ht, Checked.ok_bind]
      rfl
  | branchElse t n cond =>
      have ht := BranchTarget.resolve_eq_settle here (h t List.mem_cons_self)
      have hn := BranchTarget.resolve_eq_settle (here + 4) (h n (by simp [targets]))
      simp only [resolve, settle, ht, hn, Checked.ok_bind]
      rfl
  | _ => rfl

theorem isResolved_of_mem_settle {offsets : List CodeOffset} {here : CodeOffset} {i : Inst}
    (h : i.isBranch = false) : ∀ t ∈ (i.settle offsets here).targets, t.IsResolved := by
  cases i with
  | branch t n cond => cases h
  | jump t | branchTo t inverted cond =>
      intro x hx
      rw [List.mem_singleton.mp hx]
      exact BranchTarget.isResolved_settle offsets here t
  | branchElse t n cond =>
      intro x hx
      rcases List.mem_cons.mp hx with rfl | hx
      · exact BranchTarget.isResolved_settle offsets here t
      · rw [List.mem_singleton.mp hx]
        exact BranchTarget.isResolved_settle offsets (here + 4) n
  | _ => intro x hx; cases hx

theorem isBranch_settle (offsets : List CodeOffset) (here : CodeOffset) (i : Inst) :
    (i.settle offsets here).isBranch = i.isBranch := by
  cases i with
  | _ => rfl

theorem occurrences_settle (offsets : List CodeOffset) (here : CodeOffset) (i : Inst) :
    (i.settle offsets here).occurrences = i.occurrences := by
  cases i with
  | _ => rfl

theorem size_settle (offsets : List CodeOffset) (here : CodeOffset) (i : Inst) :
    (i.settle offsets here).size = i.size := by
  cases i with
  | _ => rfl

end Inst

end A64

end Codegen
