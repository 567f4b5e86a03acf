import Codegen.A64.Register
import Codegen.Proofs.Allocation.Separation
import Mathlib.Logic.Function.Basic

/-!
Register allocation preserves meaning.

The machine gives every instruction an arbitrary meaning: the values of its results and the
successor that it chooses are any functions of the values that it reads. Of a run it records which
blocks are visited, which instructions run, and what each of them reads. A graph and the same graph
with every register replaced by the one that stands for it have the same records, for runs of any
length.

The invariant of a run is agreement on the registers that are live in the sense of `Live`, through
the assignment, and on the physical registers that are never handed out.
-/
namespace Codegen.Allocation

/-- What the instructions of a graph do, by their numbers. -/
structure Meaning (V : Type*) where
  /-- The value of the result at a position among those that the instruction writes. -/
  result : Nat → List V → Nat → V
  /-- The position of the next block among the successors, if the instruction is the last one. -/
  choice : Nat → List V → Nat
  /-- The same for a block that has no instruction. -/
  skip : Nat → Nat

/-- A visit of a block: the numbers of its instructions, each with the values that it read. -/
structure Visit (V : Type*) where
  block : Nat
  steps : List (Nat × List V)

/-- Writes the value of each position to the register at that position. -/
def store {V : Type*} : List Reg → (Nat → V) → (Reg → V) → Reg → V
  | [], _, file => file
  | r :: rs, value, file => store rs (fun k => value (k + 1)) (Function.update file r (value 0))

/-- Runs instructions that are numbered from `number` on: what they read, the last choice, and the
registers after them. -/
def runInsts {V : Type*} (m : Meaning V) :
    Nat → List Operands → Nat → (Reg → V) → List (Nat × List V) × Nat × (Reg → V)
  | _, [], choice, file => ([], choice, file)
  | number, i :: rest, _, file =>
    let values := i.reads.map file
    let after := runInsts m (number + 1) rest (m.choice number values)
      (store i.writes (m.result number values) file)
    ((number, values) :: after.1, after.2)

/-- The first visits of a run from a block. -/
def run {V : Type*} (m : Meaning V) (g : Graph) : Nat → Nat → (Reg → V) → List (Visit V)
  | 0, _, _ => []
  | count + 1, b, file =>
    match g[b]? with
    | none => []
    | some block =>
      let out := runInsts m (g.start b) block.insts (m.skip b) file
      ⟨b, out.1⟩ :: match block.succs[out.2.1]? with
        | none => []
        | some next => run m g count next out.2.2

def Operands.replace (m : RegMap) (i : Operands) : Operands :=
  { reads := i.reads.map m.standIn
    writes := i.writes.map m.standIn
    move := i.move.map fun (dst, src) => (m.standIn dst, m.standIn src) }

def Graph.replace (m : RegMap) (g : Graph) : Graph :=
  g.map fun b => { b with insts := b.insts.map (Operands.replace m) }

section Store

variable {V : Type*}

theorem store_of_not_mem {ws : List Reg} {r : Reg} (h : r ∉ ws) (value : Nat → V) (file : Reg → V) :
    store ws value file r = file r := by
  induction ws generalizing value file with
  | nil => rfl
  | cons w ws ih =>
      rw [store, ih fun hr => h (List.mem_cons_of_mem w hr), Function.update_of_ne]
      intro heq
      exact h (heq ▸ List.mem_cons_self)

/-- What is written to a register is written to its replacement, if no other register that is
written has the same replacement. -/
theorem store_map_of_mem {ws : List Reg} {r : Reg} {f : Reg → Reg} (h : r ∈ ws)
    (hf : ∀ w ∈ ws, w ≠ r → f w ≠ f r) (value : Nat → V) (file file' : Reg → V) :
    store ws value file r = store (ws.map f) value file' (f r) := by
  induction ws generalizing value file file' with
  | nil => cases h
  | cons w ws ih =>
      rw [List.map_cons, store, store]
      have hrest : ∀ x ∈ ws, x ≠ r → f x ≠ f r := fun x hx => hf x (List.mem_cons_of_mem w hx)
      by_cases hr : r ∈ ws
      · exact ih hr hrest _ _ _
      · have hw : w = r := by
          rcases List.mem_cons.mp h with heq | hr'
          · exact heq.symm
          · exact absurd hr' hr
        have hfr : f r ∉ ws.map f := by
          intro hmem
          obtain ⟨x, hx, hfx⟩ := List.mem_map.mp hmem
          exact hrest x hx (fun heq => hr (heq ▸ hx)) hfx
        rw [store_of_not_mem hr, store_of_not_mem hfr, hw, Function.update_self,
          Function.update_self]

end Store

section Replace

variable (m : RegMap) (g : Graph)

theorem start_replace (b : Nat) : (g.replace m).start b = g.start b := by
  simp only [Graph.start, Graph.replace, Graph.insts, ← List.map_take, List.length_flatMap,
    List.map_map]
  congr 1
  apply List.map_congr_left
  intro block _
  simp only [Function.comp_apply, List.length_map]

theorem getElem?_replace (b : Nat) :
    (g.replace m)[b]? =
      g[b]?.map fun block => { block with insts := block.insts.map (Operands.replace m) } :=
  List.getElem?_map

end Replace

/-- Two register files agree, through an assignment, on the tracked registers with a property, and
on the physical registers that are never handed out. -/
structure Agree {V : Type*} (u : Universe) (m : RegMap) (live : Reg → Prop) (file file' : Reg → V) :
    Prop where
  live : ∀ r, tracked u r = true → live r → file r = file' (m.standIn r)
  reserved : ∀ r, u.Known r → r.isPhysical = true → u.isAllocable r = false → file r = file' r

theorem isPhysical_of_not_tracked {u : Universe} {r : Reg} (h : ¬ tracked u r = true) :
    r.isPhysical = true ∧ u.isAllocable r = false := by
  simp only [tracked, Bool.or_eq_true, not_or, Bool.not_eq_true] at h
  exact ⟨by simp only [Reg.isPhysical, h.1, Bool.not_false], h.2⟩

section Simulation

variable {V : Type*} {u : Universe} {g : Graph} {entries : List RegSet} {assigned : List Assigned}
  (hlive : liveness u g = .ok entries)
  (hscan : assignAll (settingOf u g (occurrences u g entries)) []
    (intervals (hulls (occurrences u g entries))) = .ok assigned)
  (hwithin : g.Within u)

include hscan in
/-- Registers at one write position stand apart: each is covered there, or is never handed out. -/
theorem standIn_ne {r s : Reg} {pos : Nat}
    (hr : tracked u r = true → Covers (occurrences u g entries) r pos)
    (hs : tracked u s = true → Covers (occurrences u g entries) s pos) (hne : r ≠ s) :
    (assignmentOf assigned).standIn r ≠ (assignmentOf assigned).standIn s := by
  -- A register that is never handed out stands for itself, and nothing else stands for it.
  have hreserved : ∀ {a b : Reg}, (tracked u a = true → Covers (occurrences u g entries) a pos) →
      a ≠ b → ¬ tracked u b = true →
      (assignmentOf assigned).standIn a ≠ (assignmentOf assigned).standIn b := by
    intro a b ha hab hb heq
    obtain ⟨hphys, halloc⟩ := isPhysical_of_not_tracked hb
    rw [RegMap.standIn_of_physical _ hphys] at heq
    cases hva : a.isVirtual with
    | true =>
        have hcover := ha (by simp only [tracked, hva, Bool.true_or])
        have hout := isAllocable_standIn hscan hva hcover
        rw [heq, halloc] at hout
        cases hout
    | false =>
        have hpa : a.isPhysical = true := by simp only [Reg.isPhysical, hva, Bool.not_false]
        rw [RegMap.standIn_of_physical _ hpa] at heq
        exact hab heq
  by_cases htr : tracked u r = true
  · by_cases hts : tracked u s = true
    · exact standIn_ne_of_covers hscan (hr htr) (hs hts) hne
    · exact hreserved hr hne hts
  · exact (hreserved hs hne.symm htr).symm

include hwithin in
theorem reads_eq {i : Operands} {rest : List Operands} {succs : List Nat} {file file' : Reg → V}
    (hi : i ∈ g.insts)
    (h : Agree u (assignmentOf assigned) (fun r => Live g r (i :: rest) succs) file file') :
    i.reads.map file = (i.replace (assignmentOf assigned)).reads.map file' := by
  simp only [Operands.replace, List.map_map]
  apply List.map_congr_left
  intro r hr
  by_cases ht : tracked u r = true
  · exact h.live r ht (.read hr)
  · obtain ⟨hphys, halloc⟩ := isPhysical_of_not_tracked ht
    rw [Function.comp_apply, RegMap.standIn_of_physical _ hphys]
    have hmentioned : r ∈ i.mentioned := List.mem_append_left _ (List.mem_append_left _ hr)
    exact h.reserved r (hwithin i hi r hmentioned hphys) hphys halloc

include hlive hscan in
/-- Agreement where an instruction begins, carried over the instruction. -/
theorem agree_store {n k : Nat} {b : Block} {i : Operands} {rest : List Operands}
    {file file' : Reg → V} (hb : g[n]? = some b) (hdrop : b.insts.drop k = i :: rest)
    (h : Agree u (assignmentOf assigned) (fun r => Live g r (i :: rest) b.succs) file file')
    (value : Nat → V) :
    Agree u (assignmentOf assigned) (fun r => Live g r rest b.succs) (store i.writes value file)
      (store (i.replace (assignmentOf assigned)).writes value file') := by
  have hlen := liveness_length hlive
  have hfix := liveness_fixed hlive
  have hi : b.insts[k]? = some i := by rw [← List.head?_drop, hdrop, List.head?_cons]
  have htail : b.insts.drop (k + 1) = rest := by rw [← List.tail_drop, hdrop, List.tail_cons]
  have hwrite : ∀ w ∈ i.writes, tracked u w = true →
      Covers (occurrences u g entries) w (writePos (g.start n + k)) :=
    fun w hw ht => covers_of_write hlen hb hi hw ht
  -- A register that keeps its value keeps it under the assignment as well.
  have hkeep : ∀ r, r ∉ i.writes →
      (tracked u r = true → Covers (occurrences u g entries) r (writePos (g.start n + k))) →
      (assignmentOf assigned).standIn r ∉ i.writes.map (assignmentOf assigned).standIn := by
    intro r hr hcover hmem
    obtain ⟨w, hw, heq⟩ := List.mem_map.mp hmem
    exact standIn_ne hscan (hwrite w hw) hcover (fun hwr => hr (hwr ▸ hw)) heq
  have hmove : ∀ r, r ∈ i.writes →
      store i.writes value file r =
        store (i.writes.map (assignmentOf assigned).standIn) value file'
          ((assignmentOf assigned).standIn r) :=
    fun r hr => store_map_of_mem hr
      (fun w hw hwr => standIn_ne hscan (hwrite w hw) (hwrite r hr) hwr) _ _ _
  constructor
  · intro r ht hl
    by_cases hr : r ∈ i.writes
    · exact hmove r hr
    · have hcover : Covers (occurrences u g entries) r (writePos (g.start n + k)) := by
        apply covers_of_live hlen hfix hb hi ht
        rw [htail]
        exact Live.mem hfix ht hl
      rw [store_of_not_mem hr]
      exact (h.live r ht (.pass hr hl)).trans
        (store_of_not_mem (hkeep r hr fun _ => hcover) _ _).symm
  · intro r hknown hphys halloc
    have hnot : ¬ tracked u r = true := by
      simp only [Reg.isPhysical, Bool.not_eq_true'] at hphys
      simp only [tracked, hphys, halloc, Bool.or_false, Bool.false_eq_true, not_false_eq_true]
    have hstand := RegMap.standIn_of_physical (assignmentOf assigned) hphys
    by_cases hr : r ∈ i.writes
    · have heq := hmove r hr
      rw [hstand] at heq
      exact heq
    · have hkept := hkeep r hr fun ht => absurd ht hnot
      rw [hstand] at hkept
      rw [store_of_not_mem hr]
      exact (h.reserved r hknown hphys halloc).trans (store_of_not_mem hkept _ _).symm

include hlive hscan hwithin in
/-- The instructions of a block from one of them on: the same reads, the same choice, and agreement
at the exit. -/
theorem runInsts_agree {n k : Nat} {b : Block} {rest : List Operands} {file file' : Reg → V}
    (m : Meaning V) (number choice : Nat) (hb : g[n]? = some b) (hdrop : b.insts.drop k = rest)
    (h : Agree u (assignmentOf assigned) (fun r => Live g r rest b.succs) file file') :
    let out := runInsts m number rest choice file
    let out' := runInsts m number (rest.map (Operands.replace (assignmentOf assigned))) choice file'
    out.1 = out'.1 ∧ out.2.1 = out'.2.1 ∧
      Agree u (assignmentOf assigned) (fun r => Live g r [] b.succs) out.2.2 out'.2.2 := by
  -- on what is left of the block, with agreement on what is live where it begins
  induction rest generalizing k number choice file file' with
  | nil => exact ⟨rfl, rfl, h⟩
  | cons i rest ih =>
      have hi : i ∈ b.insts := List.mem_of_mem_drop (hdrop ▸ List.mem_cons_self)
      have hmem : i ∈ g.insts := List.mem_flatMap.mpr ⟨b, List.mem_of_getElem? hb, hi⟩
      have hreads := reads_eq hwithin hmem h
      have htail : b.insts.drop (k + 1) = rest := by rw [← List.tail_drop, hdrop, List.tail_cons]
      have hafter := agree_store hlive hscan hb hdrop h (m.result number (i.reads.map file))
      obtain ⟨hsteps, hchoice, hexit⟩ :=
        ih (number + 1) (m.choice number (i.reads.map file)) htail hafter
      simp only [List.map_cons, runInsts, ← hreads]
      exact ⟨by rw [hsteps], hchoice, hexit⟩

include hlive hscan hwithin in
theorem run_agree (m : Meaning V) (count n : Nat) {file file' : Reg → V}
    (h : Agree u (assignmentOf assigned) (LiveIn g n) file file') :
    run m g count n file = run m (g.replace (assignmentOf assigned)) count n file' := by
  induction count generalizing n file file' with
  | zero => rfl
  | succ count ih =>
      simp only [run, getElem?_replace, start_replace]
      cases hb : g[n]? with
      | none => rfl
      | some b =>
          simp only [Option.map_some]
          have hentry : Agree u (assignmentOf assigned) (fun r => Live g r b.insts b.succs) file
              file' := ⟨fun r ht hl => h.live r ht ⟨b, hb, hl⟩, h.reserved⟩
          obtain ⟨hsteps, hchoice, hexit⟩ := runInsts_agree hlive hscan hwithin m (g.start n)
            (m.skip n) hb List.drop_zero hentry
          rw [hsteps, hchoice]
          generalize (runInsts m (g.start n)
            (b.insts.map (Operands.replace (assignmentOf assigned))) (m.skip n) file').2.1 = choice
          cases hnext : b.succs[choice]? with
          | none => rfl
          | some next =>
              have hsucc : next ∈ b.succs := List.mem_of_getElem? hnext
              simp only [List.cons.injEq, true_and]
              apply ih next
              -- what is live at the entry of a successor is live at the exit
              refine ⟨fun r ht hl => ?_, hexit.reserved⟩
              obtain ⟨target, htarget, hl⟩ := hl
              exact hexit.live r ht (.exit hsucc htarget hl)

end Simulation

/-- Every virtual register that occurs is assigned a register of its class that may be handed out,
and under every meaning of the instructions the graph and the graph with its registers replaced run
alike, from register files that agree on what is live at the entry. -/
theorem allocate_preserves_runs {u : Universe} {g : Graph} {result : Result}
    (hu : u.check = .ok ()) (hwithin : g.Within u) (h : allocate u g = .ok result) :
    (∀ i ∈ g.insts, ∀ v, v ∈ i.reads ∨ v ∈ i.writes → v.isVirtual = true →
      ∃ p, result.assignment.get? v = some p ∧ u.HandedOut p ∧ p.cls = v.cls) ∧
    ∀ {V : Type*} (m : Meaning V) (file file' : Reg → V),
      Agree u result.assignment (LiveIn g 0) file file' →
      ∀ count, run m g count 0 file = run m (g.replace result.assignment) count 0 file' := by
  constructor
  · intro i hi v hv hvirtual
    obtain ⟨p, hget, hcls, halloc⟩ := exists_get? h hi hv hvirtual
    exact ⟨p, hget, Universe.handedOut_of_known hu (known_of_get? hwithin h hget) halloc, hcls⟩
  · intro V m file file' hagree count
    obtain ⟨entries, assigned, hlive, hscan, hresult⟩ := allocate_eq_ok h
    rw [hresult] at hagree ⊢
    exact run_agree hlive hscan hwithin m count 0 hagree

/-- A loop that adds up the numbers from its argument down, which comes and goes in a register. -/
def sumLoop : Graph :=
  let (arg, n, sum) := (A64.gpr 0, Reg.virtual .i64 0, Reg.virtual .i64 1)
  [{ insts := [{ reads := [arg], writes := [n], move := some (n, arg) }, { writes := [sum] }]
     succs := [1] },
   { insts := [{ reads := [n, sum], writes := [sum] }, { reads := [n], writes := [n] },
       { reads := [n] }]
     succs := [1, 2] },
   { insts := [{ reads := [sum], writes := [arg], move := some (arg, sum) }, {}], succs := [] }]

theorem liveness_sumLoop : liveness A64.registers sumLoop =
    .ok [.ofList [A64.gpr 0], .ofList [.virtual .i64 0, .virtual .i64 1],
      .ofList [.virtual .i64 1]] := by
  decide +kernel

/-- The hulls are in order already, so that nothing is left to sort. -/
theorem allocate_sumLoop : allocate A64.registers sumLoop =
    .ok { assignment := ⟨[(.virtual .i64 0, A64.gpr 1), (.virtual .i64 1, A64.gpr 2)]⟩
          clobbered := [A64.gpr 0, A64.gpr 1, A64.gpr 2] } := by
  simp only [allocate, liveness_sumLoop, Checked.ok_bind]
  rw [intervals, List.mergeSort_of_pairwise (by decide +kernel)]
  decide +kernel

/-- Only the argument is live at the entry of the loop, so that it runs alike from any registers. -/
theorem allocate_preserves_runs_sumLoop :
    A64.registers.check = .ok () ∧ sumLoop.Within A64.registers ∧
    ∀ (m : Meaning Nat) (file : Reg → Nat) (count : Nat), run m sumLoop count 0 file =
      run m (sumLoop.replace ⟨[(.virtual .i64 0, A64.gpr 1), (.virtual .i64 1, A64.gpr 2)]⟩) count 0
        file := by
  have hcheck : A64.registers.check = .ok () := by decide +kernel
  have hwithin : sumLoop.Within A64.registers := by decide +kernel
  refine ⟨hcheck, hwithin, fun m file => ?_⟩
  apply (allocate_preserves_runs hcheck hwithin allocate_sumLoop).2
  constructor
  · intro r ht hlive
    have hmem := hlive.mem (liveness_fixed liveness_sumLoop) ht
    have harg : r = A64.gpr 0 := by
      simpa only [List.getD_cons_zero, RegSet.mem_ofList, List.mem_singleton] using hmem
    rw [harg]
    rfl
  · intro r _ _ _
    rfl

end Codegen.Allocation
