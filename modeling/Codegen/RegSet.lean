import Codegen.Register

/-!
Finite sets of registers, kept as the ascending list of their elements. Equal sets are equal
values, and nothing depends on the order in which elements arrived.
-/
namespace Codegen

/-- Ascending by key, without repetition. -/
abbrev Ascending (rs : List Reg) : Prop := rs.Pairwise fun a b => a.key < b.key

structure RegSet where
  toList : List Reg
  ascending : Ascending toList
  deriving DecidableEq

namespace RegSet

/-- Inserts a register at its place in an ascending list. -/
def insertInto (r : Reg) : List Reg → List Reg
  | [] => [r]
  | x :: xs =>
    if r.key < x.key then r :: x :: xs
    else if r = x then x :: xs
    else x :: insertInto r xs

theorem mem_insertInto {r y : Reg} {rs : List Reg} :
    y ∈ insertInto r rs ↔ y = r ∨ y ∈ rs := by
  induction rs with
  | nil => simp [insertInto]
  | cons x xs ih =>
    simp only [insertInto]
    split
    · simp
    · split
      · rename_i h
        subst h
        simp
      · simp only [List.mem_cons, ih]
        constructor
        · rintro (h | h | h) <;> simp [h]
        · rintro (h | h | h) <;> simp [h]

theorem ascending_insertInto {r : Reg} {rs : List Reg} (h : Ascending rs) :
    Ascending (insertInto r rs) := by
  induction rs with
  | nil => simp [insertInto, Ascending]
  | cons x xs ih =>
    simp only [Ascending, List.pairwise_cons] at h
    simp only [insertInto]
    split
    · rename_i hlt
      simp only [Ascending, List.pairwise_cons]
      refine ⟨fun y hy => ?_, h.1, h.2⟩
      rcases List.mem_cons.mp hy with rfl | hy
      · exact hlt
      · exact Nat.lt_trans hlt (h.1 y hy)
    · split
      · simp only [Ascending, List.pairwise_cons]
        exact h
      · rename_i hlt hne
        simp only [Ascending, List.pairwise_cons]
        refine ⟨fun y hy => ?_, ih h.2⟩
        rcases mem_insertInto.mp hy with rfl | hy
        · have hk : y.key ≠ x.key := fun hk => hne (Reg.key_injective hk)
          omega
        · exact h.1 y hy

def empty : RegSet := ⟨[], List.Pairwise.nil⟩

instance : EmptyCollection RegSet := ⟨empty⟩

instance : Inhabited RegSet := ⟨empty⟩

instance : Membership Reg RegSet := ⟨fun s r => r ∈ s.toList⟩

def insert (s : RegSet) (r : Reg) : RegSet :=
  ⟨insertInto r s.toList, ascending_insertInto s.ascending⟩

def ofList (rs : List Reg) : RegSet := rs.foldl insert empty

def contains (s : RegSet) (r : Reg) : Bool := s.toList.contains r

def diff (s t : RegSet) : RegSet :=
  ⟨s.toList.filter fun r => !t.contains r, s.ascending.filter _⟩

def union (s t : RegSet) : RegSet := t.toList.foldl insert s

def intersects (s t : RegSet) : Bool := s.toList.any t.contains

def size (s : RegSet) : Nat := s.toList.length

@[simp] theorem mem_insert {s : RegSet} {r y : Reg} : y ∈ s.insert r ↔ y = r ∨ y ∈ s :=
  mem_insertInto

@[simp] theorem not_mem_empty {r : Reg} : ¬ r ∈ empty := List.not_mem_nil

@[simp] theorem contains_eq_true {s : RegSet} {r : Reg} : s.contains r = true ↔ r ∈ s := by
  simp [contains, Membership.mem]

@[simp] theorem mem_diff {s t : RegSet} {r : Reg} : r ∈ s.diff t ↔ r ∈ s ∧ ¬ r ∈ t := by
  show r ∈ s.toList.filter _ ↔ _
  rw [List.mem_filter, Bool.not_eq_true', ← Bool.not_eq_true, contains_eq_true]
  exact Iff.rfl

theorem mem_foldl_insert {s : RegSet} {rs : List Reg} {r : Reg} :
    r ∈ rs.foldl insert s ↔ r ∈ s ∨ r ∈ rs := by
  induction rs generalizing s with
  | nil => simp
  | cons x xs ih =>
    simp only [List.foldl_cons, ih, mem_insert, List.mem_cons]
    constructor
    · rintro ((h | h) | h) <;> simp [h]
    · rintro (h | h | h) <;> simp [h]

@[simp] theorem mem_union {s t : RegSet} {r : Reg} : r ∈ s.union t ↔ r ∈ s ∨ r ∈ t :=
  mem_foldl_insert

@[simp] theorem mem_ofList {rs : List Reg} {r : Reg} : r ∈ ofList rs ↔ r ∈ rs := by
  simp [ofList, mem_foldl_insert]

end RegSet

end Codegen
