import Codegen.Allocation.Graph

/-!
Liveness: which tracked registers hold a value that is still read, at the entry and at the exit of
every block.

The registers live at the exit of a block are those live at the entry of some successor. Going
backwards through an instruction, what it writes is no longer live and what it reads is. The
solution is reached by rounds from the empty sets, and it is the least one.
-/
namespace Codegen.Allocation

/-- The registers live before an instruction, from those live after it. -/
def liveBefore (u : Universe) (i : Operands) (after : RegSet) : RegSet :=
  (after.diff (RegSet.ofList i.writes)).union (RegSet.ofList (i.reads.filter (tracked u)))

/-- The registers live at the entry of a block, from those live at its exit. -/
def liveAtEntry (u : Universe) (b : Block) (atExit : RegSet) : RegSet :=
  b.insts.foldr (liveBefore u) atExit

/-- The registers live at the exit of a block, from those live at the entry of every block. -/
def liveAtExit (entries : List RegSet) (b : Block) : RegSet :=
  b.succs.foldl (fun live s => live.union (entries.getD s ∅)) ∅

/-- One round: every entry from the entries of the round before. -/
def round (u : Universe) (g : Graph) (entries : List RegSet) : List RegSet :=
  g.map fun b => liveAtEntry u b (liveAtExit entries b)

/-- Rounds until nothing changes. -/
def rounds (u : Universe) (g : Graph) : Nat → List RegSet → List RegSet
  | 0, entries => entries
  | fuel + 1, entries =>
    let next := round u g entries
    if next = entries then entries else rounds u g fuel next

/-- The number of rounds that always suffices: every round but the last adds a register that some
instruction reads to the entry of some block. -/
def roundBound (g : Graph) : Nat :=
  g.length * (g.insts.foldl (fun n i => n + i.reads.length) 0) + 1

/-- The registers live at the entry of every block. -/
def liveness (u : Universe) (g : Graph) : Checked (List RegSet) :=
  if g.isClosed then .ok (rounds u g (roundBound g) (g.map fun _ => ∅))
  else .error .outOfBounds

end Codegen.Allocation
