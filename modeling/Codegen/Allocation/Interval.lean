import Codegen.Allocation.Liveness

/-!
Live intervals: the hull of the positions at which a register is live.

The instruction with number `i` reads at position `2 * i` and writes at `2 * i + 1`, so that a
register last read by an instruction can take a result of the same instruction.
-/
namespace Codegen.Allocation

/-- Where an instruction reads. Positions are natural numbers without a bound, which agree with
positions in signed 32-bit numbers as long as there are no more than `2 ^ 30` instructions. -/
def readPos (i : Nat) : Nat := 2 * i

/-- Where an instruction writes. The last write of `2 ^ 30` instructions is at `2 ^ 31 - 1`. -/
def writePos (i : Nat) : Nat := 2 * i + 1

/-- The positions from the first to the last, both included. Like the positions themselves, the ends
agree with signed 32-bit numbers up to `2 ^ 30` instructions. -/
structure Span where
  first : Nat
  last : Nat
  deriving DecidableEq, Repr

/-- Two spans share a position. -/
def Span.meets (a b : Span) : Bool := a.first ≤ b.last && b.first ≤ a.last

/-- The least span that also has the position. -/
def Span.extend (s : Span) (pos : Nat) : Span := ⟨min s.first pos, max s.last pos⟩

/-- A register and a position at which it is live. -/
abbrev Occurrence := Reg × Nat

/-- The tracked registers of instructions that are numbered from `i` on. -/
def instOccurrences (u : Universe) : Nat → List Operands → List Occurrence
  | _, [] => []
  | i, inst :: rest =>
    (inst.reads.filter (tracked u)).map (·, readPos i) ++
    (inst.writes.filter (tracked u)).map (·, writePos i) ++
    instOccurrences u (i + 1) rest

/-- The occurrences in a block: what is live at its entry, what is live at its exit unless it is
empty, and what its instructions read and write. -/
def blockOccurrences (u : Universe) (entries : List RegSet) (start : Nat) (entry : RegSet)
    (b : Block) : List Occurrence :=
  entry.toList.map (·, readPos start) ++
  (if b.insts.isEmpty then []
    else (liveAtExit entries b).toList.map (·, writePos (start + b.insts.length - 1))) ++
  instOccurrences u start b.insts

/-- The occurrences in the blocks whose instructions are numbered from `start` on. -/
def occurrencesFrom (u : Universe) (entries : List RegSet) :
    Nat → List (RegSet × Block) → List Occurrence
  | _, [] => []
  | start, (entry, b) :: rest =>
    blockOccurrences u entries start entry b ++
      occurrencesFrom u entries (start + b.insts.length) rest

/-- Every position at which a tracked register is live. -/
def occurrences (u : Universe) (g : Graph) (entries : List RegSet) : List Occurrence :=
  occurrencesFrom u entries 0 (entries.zip g)

/-- The hull of some positions. -/
def spanOf : List Nat → Option Span
  | [] => none
  | pos :: rest => some (rest.foldl Span.extend ⟨pos, pos⟩)

/-- The hull of the positions of a register. -/
def hull? (occs : List Occurrence) (r : Reg) : Option Span :=
  spanOf (occs.filterMap fun o => if o.1 = r then some o.2 else none)

/-- A register and its hull. -/
structure Interval where
  reg : Reg
  span : Span
  deriving DecidableEq, Repr

/-- The hull of every register that occurs, in the order of the registers. -/
def hulls (occs : List Occurrence) : List Interval :=
  (RegSet.ofList (occs.map (·.1))).toList.filterMap fun r =>
    (hull? occs r).map fun s => { reg := r, span := s }

/-- The intervals of the virtual registers, by first position and then by register. -/
def intervals (hulls : List Interval) : List Interval :=
  (hulls.filter (·.reg.isVirtual)).mergeSort fun a b => a.span.first ≤ b.span.first

def fixedHulls (hulls : List Interval) : List Interval := hulls.filter (·.reg.isPhysical)

/-- The span at which a physical register is live as itself meets another span. -/
def occupied? (fixed : List Interval) (r : Reg) (s : Span) : Option Span :=
  match fixed.find? (·.reg = r) with
  | some h => if h.span.meets s then some h.span else none
  | none => none

end Codegen.Allocation
