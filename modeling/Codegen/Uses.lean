import Codegen.RegSet

/-!
Register uses of one instruction.

Every register is used (only read), defined (only written) or modified (read and written in one
step). After `normalize`, a modified register is in neither of the other two sets.
-/
namespace Codegen

/-- What one instruction does with its registers. -/
structure Uses where
  used : RegSet := ∅
  defined : RegSet := ∅
  modified : RegSet := ∅
  deriving DecidableEq

namespace Uses

/-- Takes the modified registers out of the used and the defined ones. -/
def normalize (u : Uses) : Uses :=
  { u with used := u.used.diff u.modified, defined := u.defined.diff u.modified }

/-- The registers read: the used ones, then the modified ones. -/
def reads (u : Uses) : List Reg := u.used.toList ++ u.modified.toList

/-- The registers written: the defined ones, then the modified ones. -/
def writes (u : Uses) : List Reg := u.defined.toList ++ u.modified.toList

/-- The three sets of the given occurrences. -/
def ofLists (used defined modified : List Reg) : Uses :=
  ⟨RegSet.ofList used, RegSet.ofList defined, RegSet.ofList modified⟩

def listText (rs : RegSet) : String := ", ".intercalate (rs.toList.map Reg.text)

def text (u : Uses) : String :=
  "used=[" ++ listText u.used ++ "] defined=[" ++ listText u.defined ++
    "] modified=[" ++ listText u.modified ++ "]"

/-- Normalizing loses no read. -/
theorem mem_reads_normalize {u : Uses} {r : Reg} : r ∈ u.normalize.reads ↔ r ∈ u.reads := by
  have h : r ∈ (u.used.diff u.modified).toList ↔ r ∈ u.used.toList ∧ ¬ r ∈ u.modified.toList :=
    RegSet.mem_diff
  simp only [reads, normalize, List.mem_append, h]
  by_cases hm : r ∈ u.modified.toList <;> simp [hm]

/-- Normalizing loses no write. -/
theorem mem_writes_normalize {u : Uses} {r : Reg} : r ∈ u.normalize.writes ↔ r ∈ u.writes := by
  have h : r ∈ (u.defined.diff u.modified).toList ↔
      r ∈ u.defined.toList ∧ ¬ r ∈ u.modified.toList := RegSet.mem_diff
  simp only [writes, normalize, List.mem_append, h]
  by_cases hm : r ∈ u.modified.toList <;> simp [hm]

end Uses

end Codegen
