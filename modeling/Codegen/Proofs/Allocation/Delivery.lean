import Codegen.Proofs.Allocation.Scan

/-!
Allocation with hash maps. The keys of a map come in any order, another one each time they are gone
through, and a sort of a slice may leave elements that it does not tell apart in any order. A
`Delivery` is one choice of all these orders, and `allocateBy` is the allocator that makes it: it
keeps four sets for each block, fills them in passes from the last block to the first until nothing
changes, and extends hulls as the keys come.

Nothing bounds the number of passes in advance. `allocateBy` gives nothing if they are more than the
rounds that suffice for `liveness`; that they never are is a theorem, and not assumed here.
-/
namespace Codegen.Allocation

/-- One instruction: the sets of its registers, and destination and source if it is a move. -/
structure Insn where
  uses : Uses
  move : Option (Reg × Reg) := none
  deriving DecidableEq

/-- A block: the number of its first instruction, its instructions, and the blocks that may follow
it. -/
structure Stretch where
  start : Nat
  insns : List Insn
  succs : List Nat
  deriving DecidableEq

abbrev Function := List Stretch

def Insn.operands (i : Insn) : Operands := .ofUses i.uses i.move

def Stretch.block (b : Stretch) : Block := { insts := b.insns.map (·.operands), succs := b.succs }

/-- The blocks of a function without the numbers of their instructions. -/
def Function.graph (f : Function) : Graph := f.map (·.block)

/-- The instructions of the blocks, numbered from `start` on, follow one another. -/
def Function.InOrder : Nat → Function → Prop
  | _, [] => True
  | start, b :: rest => b.start = start ∧ InOrder (start + b.insns.length) rest

section Orders

/-- What instructions are asked for their registers for. -/
inductive Phase where
  | liveness
  | hulls
  | clobbers
  deriving DecidableEq, Repr

/-- The sets that are listed to get the registers of an instruction. -/
inductive Listed where
  | used
  | modifiedRead
  | defined
  | modifiedWritten
  deriving DecidableEq, Repr

/-- A place at which the keys of a set are gone through: in a pass of the analysis the set `liveIn`
of the successor at a position and the sets `gen` and `liveOut` of a block, for the hulls the sets
`liveIn` and `liveOut` of a block, and wherever its registers are asked for the sets of an
instruction. -/
inductive Site where
  | successor (pass block position : Nat)
  | gen (pass block : Nat)
  | liveOut (pass block : Nat)
  | hullsIn (block : Nat)
  | hullsOut (block : Nat)
  | operands (phase : Phase) (block inst : Nat) (set : Listed)
  deriving DecidableEq, Repr

/-- A way to sort by `before`. Of elements that `before` does not tell apart any may come first. -/
structure Sorting {α : Type} (before : α → α → Prop) where
  sort : List α → List α
  perm : ∀ l, (sort l).Perm l
  sorted : ∀ l, (sort l).Pairwise fun a b => ¬ before b a

/-- Intervals are ordered by their first position and then by their register. -/
def Interval.Before (a b : Interval) : Prop :=
  a.span.first < b.span.first ∨ a.span.first = b.span.first ∧ a.reg.key < b.reg.key

/-- The orders in which the keys of maps come, and the sorts of what came. -/
structure Delivery where
  keys : Site → RegSet → List Reg
  keys_perm : ∀ site s, (keys site s).Perm s.toList
  table : List Interval → List Interval
  table_perm : ∀ its, (table its).Perm its
  regs : Sorting fun a b : Reg => a.key < b.key
  intervals : Sorting Interval.Before

variable (d : Delivery)

/-- The registers of a set: its keys as they come, then sorted. -/
def Delivery.list (site : Site) (s : RegSet) : List Reg := d.regs.sort (d.keys site s)

def Delivery.operands (phase : Phase) (block inst : Nat) (i : Insn) : Operands :=
  { reads := d.list (.operands phase block inst .used) i.uses.used ++
      d.list (.operands phase block inst .modifiedRead) i.uses.modified
    writes := d.list (.operands phase block inst .defined) i.uses.defined ++
      d.list (.operands phase block inst .modifiedWritten) i.uses.modified
    move := i.move }

def Delivery.graph (phase : Phase) (f : Function) : Graph :=
  f.mapIdx fun block b =>
    { insts := b.insns.mapIdx fun inst i => d.operands phase block inst i, succs := b.succs }

theorem Delivery.mem_keys {site : Site} {s : RegSet} {r : Reg} : r ∈ d.keys site s ↔ r ∈ s :=
  (d.keys_perm site s).mem_iff

/-- However the keys of a set come, sorting them gives one list. -/
theorem Delivery.list_eq (site : Site) (s : RegSet) : d.list site s = s.toList := by
  have hperm : (d.list site s).Perm s.toList := (d.regs.perm _).trans (d.keys_perm site s)
  refine hperm.eq_of_pairwise ?_ (d.regs.sorted _) ?_
  · intro a b _ _ hab hba
    exact Reg.key_injective (by omega)
  · refine s.ascending.imp fun hab => ?_
    omega

theorem Delivery.operands_eq (phase : Phase) (block inst : Nat) (i : Insn) :
    d.operands phase block inst i = i.operands := by
  simp only [Delivery.operands, d.list_eq, Insn.operands, Operands.ofUses, Uses.reads, Uses.writes]

/-- The registers of the instructions are the same in every phase. -/
theorem Delivery.graph_eq (phase : Phase) (f : Function) : d.graph phase f = f.graph := by
  have hmap : ∀ {α β : Type} (h : α → β) (l : List α), l.mapIdx (fun _ a => h a) = l.map h := by
    intro α β h l
    apply List.ext_getElem?
    intro n
    rw [List.getElem?_mapIdx, List.getElem?_map]
  simp only [Delivery.graph, d.operands_eq, hmap]
  rfl

end Orders

section Passes

/-- What a block reads before it writes it, and what it writes. -/
structure Summary where
  gen : RegSet := ∅
  kill : RegSet := ∅

/-- The sets of a block: its summary, and what is live at its entry and at its exit. -/
structure Info extends Summary where
  liveIn : RegSet := ∅
  liveOut : RegSet := ∅

variable (u : Universe) (d : Delivery) (g : Graph)

def Summary.read (s : Summary) (r : Reg) : Summary :=
  if tracked u r && !s.kill.contains r then { s with gen := s.gen.insert r } else s

def Summary.write (s : Summary) (r : Reg) : Summary :=
  if tracked u r then { s with kill := s.kill.insert r } else s

def Summary.scan (s : Summary) (insts : List Operands) : Summary :=
  insts.foldl (fun s i => i.writes.foldl (write u) (i.reads.foldl (read u) s)) s

def Info.ofBlock (b : Block) : Info := { toSummary := ({} : Summary).scan u b.insts }

/-- Adds a register that comes, and notes a change. -/
def note (state : RegSet × Bool) (r : Reg) : RegSet × Bool :=
  if state.1.contains r then state else (state.1.insert r, true)

/-- What is live at the exit of a block: what was, and what comes from its successors. -/
def gather (pass block : Nat) (infos : List Info) (succs : List Nat) (live : RegSet) : RegSet :=
  succs.zipIdx.foldl (fun live (s, position) =>
    (d.keys (.successor pass block position) (infos.getD s {}).liveIn).foldl RegSet.insert live)
    live

/-- Brings the sets of one block up to date, and notes whether more became live at its entry. -/
def visit (pass : Nat) (state : List Info × Bool) (block : Nat) : List Info × Bool :=
  let info := state.1.getD block {}
  -- what becomes live at the exit is no change by itself: only entries are read by other blocks
  let liveOut := gather d pass block state.1 (g.getD block ⟨[], []⟩).succs info.liveOut
  let read := (d.keys (.gen pass block) info.gen).foldl note (info.liveIn, state.2)
  let passing := (d.keys (.liveOut pass block) liveOut).filter fun r => !info.kill.contains r
  let (liveIn, changed) := passing.foldl note read
  (state.1.set block { info with liveIn, liveOut }, changed)

/-- One pass, from the last block to the first. -/
def sweep (pass : Nat) (infos : List Info) : List Info × Bool :=
  (List.range g.length).reverse.foldl (visit d g pass) (infos, false)

/-- Passes until nothing changes, and nothing if the passes that are left do not suffice. -/
def settle : Nat → Nat → List Info → Option (List Info)
  | 0, _, _ => none
  | left + 1, pass, infos =>
    let (infos, changed) := sweep d g pass infos
    if changed then settle left (pass + 1) infos else some infos

end Passes

section Tables

/-- The table of hulls with one more position. -/
def extend (table : List Interval) (o : Occurrence) : List Interval :=
  if table.any (·.reg = o.1) then
    table.map fun it => if it.reg = o.1 then { it with span := it.span.extend o.2 } else it
  else table ++ [{ reg := o.1, span := ⟨o.2, o.2⟩ }]

variable (d : Delivery) (u : Universe)

/-- The occurrences in the blocks numbered from `block` on, as the keys of their sets come. -/
def arrivals : Nat → List (Info × Nat × Block) → List Occurrence
  | _, [] => []
  | block, (info, start, b) :: rest =>
    (d.keys (.hullsIn block) info.liveIn).map (·, readPos start) ++
    (if b.insts.isEmpty then []
      else (d.keys (.hullsOut block) info.liveOut).map
        (·, writePos (start + b.insts.length - 1))) ++
    instOccurrences u start b.insts ++
    arrivals (block + 1) rest

/-- Allocation, with the orders of the delivery. -/
def allocateBy (f : Function) : Option (Checked Result) :=
  let g := d.graph .liveness f
  if g.isClosed then do
    let infos ← settle d g (roundBound g) 0 (g.map (Info.ofBlock u))
    -- instructions are asked for their registers again
    let g := d.graph .hulls f
    let table := (arrivals d u 0 (infos.zip ((f.map (·.start)).zip g))).foldl extend []
    let intervals := d.intervals.sort (d.table (table.filter (·.reg.isVirtual)))
    return scan u (g.insts.filterMap (·.move)) (fixedHulls table) intervals (d.graph .clobbers f)
  else return .error .outOfBounds

end Tables

end Codegen.Allocation
