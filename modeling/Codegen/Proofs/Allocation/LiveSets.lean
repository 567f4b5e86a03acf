import Codegen.Proofs.Allocation.LiveInterval
import Mathlib.Data.List.Chain
import Mathlib.Data.Set.Lattice
import Mathlib.Order.Bounds.Defs

/-!
The sets of the analysis against paths and against its equations.

`ReadOn` says that some path from the beginning of a block comes to an instruction that reads a
register before any instruction on it writes the register; the path is a list of blocks. `Solves`
states the equations. A solution holds every tracked register that is read on a path, by induction
on the path, and the registers that the passes find are read on one, so what they end with is the
least solution and nothing else.
-/
namespace Codegen

def RegSet.toSet (s : RegSet) : Set Reg := {r | r ∈ s}

namespace Allocation

section Paths

/-- One of the instructions reads the register and none before it writes the register. An
instruction that does both reads first. -/
def Exposed (r : Reg) (insts : List Operands) : Prop :=
  ∃ before i after, insts = before ++ i :: after ∧ r ∈ i.reads ∧ ∀ j ∈ before, r ∉ j.writes

def Graph.instsAt (g : Graph) (n : Nat) : List Operands := (g[n]?.map (·.insts)).getD []

def Graph.Follows (g : Graph) (m n : Nat) : Prop := ∃ b, g[m]? = some b ∧ n ∈ b.succs

/-- A path from the beginning of the block comes to an instruction that reads the register, and no
instruction before that one writes the register. -/
def ReadOn (g : Graph) (n : Nat) (r : Reg) : Prop :=
  ∃ path : List Nat, (n :: path).IsChain g.Follows ∧ Exposed r ((n :: path).flatMap g.instsAt)

variable {g : Graph} {r : Reg}

theorem not_exposed_nil : ¬ Exposed r [] := by
  rintro ⟨before, i, after, heq, _⟩
  cases before with
  | nil => cases heq
  | cons j before => cases heq

theorem exposed_cons {i : Operands} {insts : List Operands} :
    Exposed r (i :: insts) ↔ r ∈ i.reads ∨ r ∉ i.writes ∧ Exposed r insts := by
  constructor
  · rintro ⟨before, j, after, heq, hread, hpass⟩
    cases before with
    | nil =>
        cases heq
        exact .inl hread
    | cons k before =>
        cases heq
        obtain ⟨hfirst, hlater⟩ := List.forall_mem_cons.mp hpass
        exact .inr ⟨hfirst, before, j, after, rfl, hread, hlater⟩
  · rintro (hread | ⟨hwrite, before, j, after, rfl, hread, hpass⟩)
    · exact ⟨[], i, insts, rfl, hread, List.forall_mem_nil _⟩
    · exact ⟨i :: before, j, after, rfl, hread, List.forall_mem_cons.mpr ⟨hwrite, hpass⟩⟩

theorem exposed_append {front back : List Operands} :
    Exposed r (front ++ back) ↔
      Exposed r front ∨ (∀ i ∈ front, r ∉ i.writes) ∧ Exposed r back := by
  induction front with
  | nil => simp [not_exposed_nil]
  | cons i front ih =>
      rw [List.cons_append, exposed_cons, exposed_cons, ih, List.forall_mem_cons]
      tauto

theorem Graph.instsAt_eq {n : Nat} {b : Block} (hb : g[n]? = some b) : g.instsAt n = b.insts := by
  rw [Graph.instsAt, hb]
  rfl

theorem exists_block_of_exposed {n : Nat} (h : Exposed r (g.instsAt n)) : ∃ b, g[n]? = some b := by
  cases hb : g[n]? with
  | none =>
      rw [Graph.instsAt, hb] at h
      exact absurd h not_exposed_nil
  | some b => exact ⟨b, rfl⟩

/-- What is live is read on a path: the blocks that are entered on the way to the read. -/
theorem Live.exists_path {insts : List Operands} {succs : List Nat} (h : Live g r insts succs) :
    ∃ path : List Nat, (∀ s ∈ path.head?, s ∈ succs) ∧ path.IsChain g.Follows ∧
      Exposed r (insts ++ path.flatMap g.instsAt) := by
  induction h with
  | read hread => exact ⟨[], by simp, .nil, exposed_cons.mpr (.inl hread)⟩
  | pass hwrite _ ih =>
      obtain ⟨path, hhead, hchain, hexposed⟩ := ih
      exact ⟨path, hhead, hchain, exposed_cons.mpr (.inr ⟨hwrite, hexposed⟩)⟩
  | @exit s b succs hs hb _ ih =>
      obtain ⟨path, hhead, hchain, hexposed⟩ := ih
      refine ⟨s :: path, by simpa using hs, List.isChain_cons.mpr ⟨?_, hchain⟩, ?_⟩
      · exact fun t ht => ⟨b, hb, hhead t ht⟩
      · rw [List.nil_append, List.flatMap_cons, Graph.instsAt_eq hb]
        exact hexposed

theorem LiveIn.readOn {n : Nat} (h : LiveIn g n r) : ReadOn g n r := by
  obtain ⟨b, hb, hlive⟩ := h
  obtain ⟨path, hhead, hchain, hexposed⟩ := hlive.exists_path
  refine ⟨path, List.isChain_cons.mpr ⟨fun s hs => ⟨b, hb, hhead s hs⟩, hchain⟩, ?_⟩
  rwa [List.flatMap_cons, Graph.instsAt_eq hb]

end Paths

section Equations

/-- The equations of liveness: live at the exit of a block is what is live at the entry of a
successor, and live at its entry is what it reads before it writes it and, of what is live at its
exit, what it does not write. -/
structure Solves (u : Universe) (g : Graph) (liveIn liveOut : Nat → Set Reg) : Prop where
  exit : ∀ n b, g[n]? = some b → liveOut n = ⋃ s ∈ b.succs, liveIn s
  entry : ∀ n b, g[n]? = some b →
    liveIn n = (Info.ofBlock u b).gen.toSet ∪ (liveOut n \ (Info.ofBlock u b).kill.toSet)

variable {u : Universe} {g : Graph} {r : Reg}

theorem mem_foldr_empty {insts : List Operands} :
    r ∈ insts.foldr (liveBefore u) ∅ ↔ tracked u r = true ∧ Exposed r insts := by
  induction insts with
  | nil =>
      have hempty : ¬ r ∈ (∅ : RegSet) := RegSet.not_mem_empty
      simp [hempty, not_exposed_nil]
  | cons i insts ih =>
      rw [List.foldr_cons, mem_liveBefore, ih, exposed_cons]
      tauto

theorem mem_gen {b : Block} :
    r ∈ (Info.ofBlock u b).gen ↔ tracked u r = true ∧ Exposed r b.insts := by
  have hempty : ¬ r ∈ (∅ : RegSet) := RegSet.not_mem_empty
  rw [← mem_foldr_empty]
  simpa [Info.ofBlock, hempty] using (Summary.mem_scan (u := u) b.insts {} r).1

theorem mem_kill {b : Block} :
    r ∈ (Info.ofBlock u b).kill ↔ tracked u r = true ∧ ∃ i ∈ b.insts, r ∈ i.writes := by
  have hempty : ¬ r ∈ (∅ : RegSet) := RegSet.not_mem_empty
  simpa [Info.ofBlock, hempty] using (Summary.mem_scan (u := u) b.insts {} r).2

theorem Solves.mem_of_readOn {liveIn liveOut : Nat → Set Reg} (h : Solves u g liveIn liveOut)
    (ht : tracked u r = true) {n : Nat} (hread : ReadOn g n r) : r ∈ liveIn n := by
  obtain ⟨path, hchain, hexposed⟩ := hread
  -- by induction on the path: the first block reads the register, or lets it pass to the next one
  induction path generalizing n with
  | nil =>
      rw [List.flatMap_singleton] at hexposed
      obtain ⟨b, hb⟩ := exists_block_of_exposed hexposed
      rw [Graph.instsAt_eq hb] at hexposed
      rw [h.entry n b hb]
      exact .inl (mem_gen.mpr ⟨ht, hexposed⟩)
  | cons s path ih =>
      obtain ⟨⟨b, hb, hs⟩, hrest⟩ := List.isChain_cons_cons.mp hchain
      rw [List.flatMap_cons, Graph.instsAt_eq hb, exposed_append] at hexposed
      rw [h.entry n b hb]
      rcases hexposed with hhere | ⟨hpass, hlater⟩
      · exact .inl (mem_gen.mpr ⟨ht, hhere⟩)
      · refine .inr ⟨?_, ?_⟩
        · rw [h.exit n b hb]
          exact Set.mem_biUnion hs (ih hrest hlater)
        · intro hkill
          obtain ⟨i, hi, hwrite⟩ := (mem_kill.mp hkill).2
          exact hpass i hi hwrite

end Equations

/-- The sets of the blocks are those of liveness. -/
structure LiveSets (u : Universe) (g : Graph) (infos : List Info) : Prop where
  length : infos.length = g.length
  entry : ∀ n r, r ∈ (infos.getD n {}).liveIn ↔ tracked u r = true ∧ ReadOn g n r
  exit : ∀ n b, g[n]? = some b → ∀ r,
    r ∈ (infos.getD n {}).liveOut ↔ ∃ s ∈ b.succs, r ∈ (infos.getD s {}).liveIn
  least : IsLeast {sets : (Nat → Set Reg) × (Nat → Set Reg) | Solves u g sets.1 sets.2}
    (fun n => (infos.getD n {}).liveIn.toSet, fun n => (infos.getD n {}).liveOut.toSet)

section Result

variable {u : Universe} {g : Graph} {least : List RegSet} {infos : List Info}
  (hins : ins infos = least)
  (houts : ∀ n b, g[n]? = some b → (infos.getD n {}).liveOut = liveAtExit least b)

include hins houts

theorem mem_liveOut_iff {n : Nat} {b : Block} (hb : g[n]? = some b) {r : Reg} :
    r ∈ (infos.getD n {}).liveOut ↔ ∃ s ∈ b.succs, r ∈ (infos.getD s {}).liveIn := by
  simp only [houts n b hb, mem_liveAtExit, ← hins, getD_ins]

variable (hleast : liveness u g = .ok least)

include hleast

theorem solves_infos : Solves u g (fun n => (infos.getD n {}).liveIn.toSet)
    (fun n => (infos.getD n {}).liveOut.toSet) := by
  constructor
  · intro n b hb
    ext r
    simp only [Set.mem_iUnion, exists_prop]
    exact mem_liveOut_iff hins houts hb
  · intro n b hb
    ext r
    have htracked : ∀ x ∈ liveAtExit least b, tracked u x = true := by
      intro x hx
      obtain ⟨s, _, hs⟩ := mem_liveAtExit.mp hx
      exact tracked_of_mem_liveness hleast hs
    change r ∈ (infos.getD n {}).liveIn ↔ r ∈ (Info.ofBlock u b).gen ∨
      r ∈ (infos.getD n {}).liveOut ∧ r ∉ (Info.ofBlock u b).kill
    rw [← getD_ins, hins, getD_of_fixed (liveness_fixed hleast) hb, mem_liveAtEntry htracked,
      houts n b hb]

theorem mem_liveIn_iff {n : Nat} {r : Reg} :
    r ∈ (infos.getD n {}).liveIn ↔ tracked u r = true ∧ ReadOn g n r := by
  constructor
  · intro hr
    rw [← getD_ins, hins] at hr
    exact ⟨tracked_of_mem_liveness hleast hr, (liveIn_of_mem_liveness hleast hr).readOn⟩
  · rintro ⟨ht, hread⟩
    exact (solves_infos hins houts hleast).mem_of_readOn ht hread

theorem isLeast_infos (hlength : infos.length = g.length) :
    IsLeast {sets : (Nat → Set Reg) × (Nat → Set Reg) | Solves u g sets.1 sets.2}
      (fun n => (infos.getD n {}).liveIn.toSet, fun n => (infos.getD n {}).liveOut.toSet) := by
  refine ⟨solves_infos hins houts hleast, ?_⟩
  rintro ⟨liveIn, liveOut⟩ (hsolves : Solves u g liveIn liveOut)
  -- the other solution has at the entries what is read on a path, and then at the exits too
  have hentry : ∀ n r, r ∈ (infos.getD n {}).liveIn → r ∈ liveIn n := by
    intro n r hr
    obtain ⟨ht, hread⟩ := (mem_liveIn_iff hins houts hleast).mp hr
    exact hsolves.mem_of_readOn ht hread
  refine ⟨hentry, fun n r hr => ?_⟩
  cases hb : g[n]? with
  | none =>
      have hn : infos[n]? = none := by
        rw [List.getElem?_eq_none_iff, hlength]
        exact List.getElem?_eq_none_iff.mp hb
      change r ∈ (infos.getD n {}).liveOut at hr
      rw [List.getD_eq_getElem?_getD, hn] at hr
      exact absurd hr RegSet.not_mem_empty
  | some b =>
      obtain ⟨s, hs, hr⟩ := (mem_liveOut_iff hins houts hb).mp hr
      change r ∈ liveOut n
      rw [hsolves.exit n b hb]
      exact Set.mem_biUnion hs (hentry s r hr)

end Result

/-- The passes end, in whatever order the keys come, with the sets of liveness, and the rounds give
the same sets at the entries. -/
theorem settle_liveSets (u : Universe) (d : Delivery) (g : Graph) (hclosed : g.isClosed = true) :
    ∃ infos, settle d g (roundBound g) 0 (g.map (Info.ofBlock u)) = some infos ∧
      liveness u g = .ok (ins infos) ∧ LiveSets u g infos := by
  obtain ⟨least, hleast⟩ : ∃ least, liveness u g = .ok least := ⟨_, if_pos hclosed⟩
  obtain ⟨infos, hsettle, hins, houts⟩ := settle_eq hleast d
  have hlength : infos.length = g.length := by
    rw [← liveness_length hleast, ← hins, ins, List.length_map]
  refine ⟨infos, hsettle, by rw [hleast, hins], ?_⟩
  exact
    { length := hlength
      entry := fun n r => mem_liveIn_iff hins houts hleast
      exit := fun n b hb r => mem_liveOut_iff hins houts hb
      least := isLeast_infos hins houts hleast hlength }

/-- An empty entry, a block that follows itself and reads and writes one register at once, a block
that writes another, one that reads it, and a block that no path from the entry comes to. -/
def detour : Graph :=
  let (v, w) := (Reg.virtual .i64 0, Reg.virtual .i64 1)
  [{ insts := [], succs := [1, 2] },
   { insts := [{ reads := [v], writes := [v] }], succs := [1, 3] },
   { insts := [{ writes := [w] }], succs := [3] },
   { insts := [{ reads := [w] }], succs := [] },
   { insts := [{ reads := [A64.gpr 0, A64.sp] }], succs := [0] }]

theorem liveness_detour : liveness A64.registers detour =
    .ok [.ofList [.virtual .i64 0, .virtual .i64 1], .ofList [.virtual .i64 0, .virtual .i64 1], ∅,
      .ofList [.virtual .i64 1], .ofList [A64.gpr 0, .virtual .i64 0, .virtual .i64 1]] := by
  decide +kernel

/-- The stack pointer is read, but it is not tracked. -/
theorem settle_liveSets_detour :
    detour.isClosed = true ∧
      ∃ infos, settle (.monotone true) detour (roundBound detour) 0
          (detour.map (Info.ofBlock A64.registers)) = some infos ∧
        LiveSets A64.registers detour infos ∧
        (infos.getD 4 {}).liveIn = .ofList [A64.gpr 0, .virtual .i64 0, .virtual .i64 1] := by
  have hclosed : detour.isClosed = true := by decide
  obtain ⟨infos, hsettle, hlive, hsets⟩ :=
    settle_liveSets A64.registers (.monotone true) detour hclosed
  refine ⟨hclosed, infos, hsettle, hsets, ?_⟩
  rw [liveness_detour] at hlive
  rw [← getD_ins, ← Except.ok.inj hlive]
  rfl

end Allocation
end Codegen
