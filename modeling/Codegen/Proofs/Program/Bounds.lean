import Codegen.Proofs.A64.Bounds
import Codegen.Proofs.Allocation.Bounds
import Codegen.Proofs.Program.Session

/-!
No step of the pipeline looks outside of a table. Whatever is built and whatever is asked of it in
any order, a step succeeds, breaks a rule or is refused.

Most tables are read through `entry`, which fails where there is nothing to read. Three readings do
not ask: the successors of a block, the flags of placed blocks in the layout that follows control
flow, and the instructions in the range of a block. `Linked`, which holds of every program that is
reached, answers for the first two, and the ranges tile the instructions.
-/
namespace Codegen

open A64 (Inst Naming)
open Checked (InBounds)

namespace Builder

theorem inBounds_step (b : Builder) (step : BuildStep) : InBounds (b.step step) := by
  cases step with
  | start => exact Checked.inBounds_ok _
  | push insts =>
      rw [Builder.step, push]
      split
      · exact Checked.inBounds_ok _
      · exact Checked.inBounds_broken _

theorem inBounds_run (steps : List BuildStep) : InBounds (run (steps.map .ok)) := by
  have hfrom : ∀ b : Builder,
      InBounds ((steps.map .ok).foldlM (fun b s => do Builder.step b (← s)) b) := by
    induction steps with
    | nil => exact fun b => Checked.inBounds_ok b
    | cons step steps ih =>
        intro b
        rw [List.map_cons, List.foldlM_cons, Checked.inBounds_bind]
        exact ⟨b.inBounds_step step, fun c _ => ih c⟩
  exact hfrom {}

theorem inBounds_checkInner (block : Nat) (insts : List Inst) :
    InBounds (checkInner block insts) := by
  induction insts with
  | nil => exact Checked.inBounds_ok ()
  | cons i insts ih => simp [checkInner, i.inBounds_terminator, ih]

theorem inBounds_checkSuccs (count block : Nat) (succs : List Nat) :
    InBounds (checkSuccs count block succs) := by
  induction succs with
  | nil => exact Checked.inBounds_ok ()
  | cons s succs ih => simp [checkSuccs, ih]

theorem inBounds_checkBlock (count block : Nat) (insts : List Inst) :
    InBounds (checkBlock count block insts) := by
  unfold checkBlock
  split
  · exact Checked.inBounds_broken _
  · rename_i last _
    simp [inBounds_checkInner, last.inBounds_terminator, inBounds_checkSuccs]

theorem inBounds_checkBlocks (count block : Nat) (bodies : List (List Inst)) :
    InBounds (checkBlocks count block bodies) := by
  induction bodies generalizing block with
  | nil => exact Checked.inBounds_ok []
  | cons insts bodies ih => simp [checkBlocks, inBounds_checkBlock, ih]

theorem inBounds_build (b : Builder) : InBounds b.build := by
  simp [build, inBounds_checkBlocks]

end Builder

namespace Program

section Passes

theorem inBounds_require (p : Program) (pass : Pass) : InBounds (p.require pass) := by
  simp [require]

theorem inBounds_graph (p : Program) : InBounds p.graph := by
  refine Checked.inBounds_mapM fun b _ => ?_
  have hinsts : InBounds (b.insts.mapM fun i => do
      return Allocation.Operands.ofUses (← i.uses) i.move?) := by
    refine Checked.inBounds_mapM fun i _ => ?_
    simp [i.inBounds_uses]
  rw [Checked.inBounds_bind]
  exact ⟨hinsts, fun _ _ => Checked.inBounds_pure _⟩

theorem isClosed_graph {p : Program} (h : ∀ b ∈ p.blocks, ∀ s ∈ b.succs, s < p.blocks.length)
    {g : Allocation.Graph} (hg : p.graph = .ok g) : g.isClosed = true := by
  have hlength : p.blocks.length = g.length := (Checked.mapM_eq_ok.mp hg).length_eq
  simp only [Allocation.Graph.isClosed, List.all_eq_true, decide_eq_true_eq]
  intro c hc s hs
  obtain ⟨b, hb, hbc⟩ := Checked.exists_of_mem_mapM hg hc
  obtain ⟨insts, _, hbc⟩ := Checked.bind_eq_ok.mp hbc
  cases hbc
  rw [← hlength]
  exact h b hb s hs

theorem root_allocationFailure (f : Failure) : (allocationFailure f).root = f.root := by
  cases f with
  | _ => rfl

theorem inBounds_assignment {p : Program}
    (h : ∀ b ∈ p.blocks, ∀ s ∈ b.succs, s < p.blocks.length) : InBounds p.assignment := by
  simp only [assignment, Checked.inBounds_bind, inBounds_require, inBounds_graph, true_and]
  intro _ _ g hg
  -- allocation is only asked for with the registers of the target, which are checked here
  have hcheck : A64.registers.check = .ok () := by decide +kernel
  exact Checked.inBounds_mapError (Allocation.inBounds_allocate hcheck (isClosed_graph h hg))
    root_allocationFailure

theorem inBounds_approveOrder (p : Program) (order : List Nat) :
    InBounds (p.approveOrder order) := by
  simp [approveOrder, checkOrder, inBounds_require]

end Passes

section Emission

theorem inBounds_emitInsts (index : Nat) (want : CodeOffset) (insts : List Inst) :
    Emit.InBounds (emitInsts index want insts) := by
  induction insts generalizing index want with
  | nil => exact Emit.inBounds_pure ()
  | cons i insts ih =>
      have hrest :
          Emit.InBounds (i.emit >>= fun _ => emitInsts (index + 1) (want + i.size) insts) :=
        Emit.inBounds_bind i.inBounds_emit fun _ => ih _ _
      refine Emit.inBounds_bind Emit.inBounds_get fun s => ?_
      dsimp only
      split
      · refine Emit.inBounds_bind (Emit.inBounds_ofChecked ?_) fun _ => hrest
        exact Checked.inBounds_broken _
      · exact hrest

theorem inBounds_emitPool (start : CodeOffset) : Emit.InBounds (emitPool start) := by
  refine Emit.inBounds_bind Emit.inBounds_get fun s => ?_
  split
  · exact Emit.inBounds_onBuffer _
  · exact Emit.inBounds_pure ()

theorem inBounds_emit (p : Program) (buffer : CodeBuffer) : InBounds (p.emit buffer).1 := by
  have hcode : Emit.InBounds p.emitCode :=
    Emit.inBounds_bind Emit.inBounds_get fun s =>
      Emit.inBounds_bind (inBounds_emitInsts 0 _ p.insts) fun _ =>
        Emit.inBounds_bind (inBounds_emitPool _) fun _ =>
          Emit.inBounds_bind Emit.inBounds_get fun _ => Emit.inBounds_pure _
  have hrequire := p.inBounds_require .emit
  unfold emit
  split
  · rename_i f hf
    rw [hf] at hrequire
    exact Checked.inBounds_error.mpr (Checked.inBounds_error.mp hrequire)
  · exact hcode { buffer, pool := .after p.codeSize }

end Emission

section Listing

variable (name : Naming)

theorem inBounds_instLines (off : Option CodeOffset) (insts : List Inst) :
    InBounds (instLines name off insts) := by
  induction insts generalizing off with
  | nil => exact Checked.inBounds_ok _
  | cons i insts ih => simp [instLines, i.inBounds_text, ih]

theorem inBounds_blockLines (n : Nat) (off : Option CodeOffset) (blocks : List Block) :
    InBounds (blockLines name n off blocks) := by
  induction blocks generalizing n off with
  | nil => exact Checked.inBounds_ok _
  | cons b blocks ih => simp [blockLines, inBounds_instLines, ih]

theorem inBounds_textWithOffsets (p : Program) : InBounds (p.textWithOffsets name) := by
  simp [textWithOffsets, inBounds_require, inBounds_blockLines]

end Listing

section Linked

/-- There is an entry, and the successors of every block are blocks. Unlike the targets of branches,
which are offsets once they are resolved, the successors stay numbers of blocks at every stage. -/
structure Linked (p : Program) : Prop where
  entry : 0 < p.blocks.length
  succs : ∀ b ∈ p.blocks, ∀ s ∈ b.succs, s < p.blocks.length

theorem Linked.of_build {builder : Builder} {p : Program} (h : builder.build = .ok p) :
    p.Linked := by
  obtain ⟨hsome, hinsts, hclosed, _⟩ := Builder.build_eq_ok_iff.mp h
  refine ⟨?_, fun b hb s hs => ?_⟩
  · rw [← List.length_map (·.insts), hinsts]
    exact List.length_pos_iff.mpr hsome
  · obtain ⟨front, last, term, hends⟩ := hclosed b hb
    exact hends.within s (hends.succs ▸ hs)

/-- Blocks that are as many as before and have the successors that they had are linked as before. -/
theorem Linked.of_same {p q : Program} (h : p.Linked) (hlength : q.blocks.length = p.blocks.length)
    (hsame : ∀ c ∈ q.blocks, ∃ b ∈ p.blocks, c.succs = b.succs) : q.Linked := by
  refine ⟨by rw [hlength]; exact h.entry, fun c hc s hs => ?_⟩
  obtain ⟨b, hb, hsuccs⟩ := hsame c hc
  rw [hlength]
  exact h.succs b hb s (hsuccs ▸ hs)

theorem length_settleBlocks (offsets : List CodeOffset) (off : CodeOffset) (blocks : List Block) :
    (settleBlocks offsets off blocks).length = blocks.length := by
  induction blocks generalizing off with
  | nil => rfl
  | cons b blocks ih => simp only [settleBlocks, List.length_cons, ih]

theorem Linked.arranged {p : Program} (h : p.Linked) {order : List Nat}
    (horder : p.approveOrder order = .ok ()) : (p.arranged order).Linked := by
  obtain ⟨⟨⟩, _, hcheck⟩ := Checked.bind_eq_ok.mp horder
  have hlength : (p.arranged order).blocks.length = p.blocks.length := by
    rw [Program.arranged, List.length_map, (checkOrder_eq_ok.mp hcheck).1.1]
  refine ⟨by rw [hlength]; exact h.entry, fun c hc s hs => ?_⟩
  obtain ⟨b, hb, rfl⟩ := mem_arranged horder c hc
  obtain ⟨t, ht, rfl⟩ := List.mem_map.mp hs
  rw [hlength]
  exact idxOf_lt_of_checkOrder hcheck (h.succs b hb t ht)

theorem Linked.rewritten {p : Program} (h : p.Linked) {q : Request}
    (happrove : p.approve q = .ok ()) : (p.rewritten q).Linked := by
  cases q with
  | allocate =>
      rw [Program.rewritten]
      cases p.assignment with
      | error f => exact h
      | ok result =>
          refine h.of_same (List.length_map _) fun c hc => ?_
          obtain ⟨b, hb, rfl⟩ := List.mem_map.mp hc
          exact ⟨b, hb, rfl⟩
  | reorder order => exact h.arranged happrove
  | reorderFallthrough => exact h.arranged happrove
  | lowerBranches =>
      refine h.of_same (length_lowerFrom 0 p.blocks) fun c hc => ?_
      obtain ⟨b, hb, next, rfl⟩ := mem_lowerFrom hc
      exact ⟨b, hb, rfl⟩
  | resolveOffsets =>
      refine h.of_same (length_settleBlocks _ 0 p.blocks) fun c hc => ?_
      obtain ⟨b, hb, off, rfl⟩ := mem_settleBlocks hc
      exact ⟨b, hb, rfl⟩
  | emit | list name | listOffsets name => exact h

end Linked

section FallthroughOrder

def flags (count : Nat) (placed : List Nat) : List Bool :=
  (List.range count).map fun b => placed.contains b

def setFlag (table : List Bool) (b : Nat) : Checked (List Bool) :=
  if b < table.length then .ok (table.set b true) else .error .outOfBounds

def firstUnset (table : List Bool) : List Nat → Checked (Option Nat)
  | [] => .ok none
  | b :: rest => do
    if ← entry table b then firstUnset table rest else return some b

/-- Places `count` blocks after those of the order, beginning with `next`. The blocks and the flags
of the placed ones are read at positions that are not looked at before. -/
def followFrom (p : Program) : Nat → List Bool → List Nat → Nat → Checked (List Nat)
  | 0, _, order, _ => .ok order
  | count + 1, table, order, next => do
    let table ← setFlag table next
    let order := order ++ [next]
    let block ← entry p.blocks next
    match ← firstUnset table block.succs.reverse with
    | some b => followFrom p count table order b
    | none =>
      match ← firstUnset table (List.range table.length) with
      | some b => followFrom p count table order b
      | none => return order

/-- The order that follows control flow, found with a table of flags. -/
def followOrder (p : Program) : Checked (List Nat) :=
  p.followFrom p.blocks.length (List.replicate p.blocks.length false) [] 0

variable {count : Nat} {placed : List Nat}

theorem entry_flags {b : Nat} (hb : b < count) :
    entry (flags count placed) b = .ok (placed.contains b) := by
  rw [Checked.entry_eq_ok, flags, List.getElem?_map, List.getElem?_range hb]
  rfl

theorem setFlag_flags {b : Nat} (hb : b < count) :
    setFlag (flags count placed) b = .ok (flags count (placed ++ [b])) := by
  have hlength : ∀ l, (flags count l).length = count := fun l => by simp [flags]
  rw [setFlag, if_pos (by rwa [hlength])]
  congr 1
  apply List.ext_getElem (by rw [List.length_set, hlength, hlength])
  intro n hn _
  by_cases hnb : b = n
  · simp [flags, hnb]
  · simp [flags, hnb, Ne.symm hnb]

theorem firstUnset_flags {bs : List Nat} (h : ∀ b ∈ bs, b < count) :
    firstUnset (flags count placed) bs = .ok (bs.find? fun b => !placed.contains b) := by
  induction bs with
  | nil => rfl
  | cons b bs ih =>
      rw [firstUnset, entry_flags (h b List.mem_cons_self), Checked.ok_bind, List.find?_cons]
      cases placed.contains b with
      | true => exact ih fun c hc => h c (List.mem_cons_of_mem b hc)
      | false => rfl

/-- One step: every position that is read is there, and the next block is the one that is placed. -/
theorem followFrom_flags {p : Program} (h : p.Linked) (n : Nat) {next : Nat}
    (hnext : next < p.blocks.length) :
    p.followFrom n (flags p.blocks.length placed) placed next =
      .ok (p.orderFrom n placed next) := by
  induction n generalizing placed next with
  | zero => rfl
  | succ n ih =>
      have hblock : p.blocks[next]? = some p.blocks[next] := List.getElem?_eq_getElem hnext
      have hsuccs : ∀ s ∈ p.blocks[next].succs.reverse, s < p.blocks.length := fun s hs =>
        h.succs _ (List.getElem_mem hnext) s (List.mem_reverse.mp hs)
      have hrange : ∀ s ∈ List.range p.blocks.length, s < p.blocks.length := fun s hs =>
        List.mem_range.mp hs
      have hlength : (flags p.blocks.length (placed ++ [next])).length = p.blocks.length := by
        simp [flags]
      simp only [followFrom, orderFrom, nextBlock?, setFlag_flags hnext,
        Checked.entry_eq_ok.mpr hblock, hblock, hlength, Checked.ok_bind, Option.elim,
        firstUnset_flags hsuccs, firstUnset_flags hrange]
      cases hfollow :
          p.blocks[next].succs.reverse.find? fun s => !(placed ++ [next]).contains s with
      | some b => exact ih (hsuccs b (List.mem_of_find?_eq_some hfollow))
      | none =>
          simp only [Option.none_or]
          cases hany :
              (List.range p.blocks.length).find? fun b => !(placed ++ [next]).contains b with
          | some b => exact ih (hrange b (List.mem_of_find?_eq_some hany))
          | none => rfl

/-- In a linked program the order that follows control flow is found within bounds. -/
theorem Linked.followOrder_eq {p : Program} (h : p.Linked) :
    p.followOrder = .ok p.fallthroughOrder := by
  have hempty : List.replicate p.blocks.length false = flags p.blocks.length [] := by
    simp [flags, List.map_const']
  rw [followOrder, hempty]
  exact followFrom_flags h _ h.entry

end FallthroughOrder

end Program

theorem A64.Access.bytes_pos (a : A64.Access) : 0 < a.bytes := by
  cases a with
  | load op => cases op <;> decide
  | store op => cases op <;> decide

theorem A64.Width.bits_pos (w : A64.Width) : 0 < w.bits := by
  cases w <;> decide

theorem ValueType.pos_of_bytes {ty : ValueType} {n : Nat} (h : ty.bytes = .ok n) : 0 < n := by
  cases ty <;> cases h <;> decide

/-- A constant is placed at a multiple of an alignment that is not zero. -/
theorem ConstantSink.align_place (s : ConstantSink) (bytes : List UInt8) :
    (do let aligned ← s.align (UInt32.ofNat (alignmentOf bytes.length))
        return (aligned.offset, aligned.append bytes)) = Except.ok (s.place bytes) := by
  have hround : ∀ n, (UInt32.ofNat (alignmentOf n)).toNat = alignmentOf n ∧
      UInt32.ofNat (alignmentOf n) ≠ 0 := by
    intro n
    unfold alignmentOf
    split
    · decide
    · split
      · decide
      · decide
  obtain ⟨htoNat, hne⟩ := hround bytes.length
  cases s with
  | discard => rfl
  | pool p =>
      rw [align, if_neg hne, htoNat]
      rfl

namespace Session

theorem Outcome.linked {p p' : Program} {q : Request} {reply : Checked Reply}
    (h : Outcome p q p' reply) (hp : p.Linked) : p'.Linked := by
  cases h with
  | failed early => exact hp
  | done approved => exact hp.rewritten approved

theorem Outcome.early {p p' : Program} {q : Request} {f : Failure}
    (h : Outcome p q p' (.error f)) (hq : q.rewrites = true) : p.approve q = .error f := by
  cases h with
  | failed early => exact early hq

theorem Reachable.linked {p : Program} (h : Reachable p) : p.Linked := by
  induction h with
  | built hbuild => exact .of_build hbuild
  | request q hreach ih => exact (perform_outcome hreach.invariant q).linked ih

theorem Reachable.performAll {s : Session} (h : Reachable s.program) (requests : List Request) :
    Reachable (s.performAll requests).1.program := by
  induction requests generalizing s with
  | nil => exact h
  | cons q rest ih => exact ih (.request q h)

theorem inBounds_approve {p : Program} (h : p.Linked) {q : Request} (hq : q.rewrites = true) :
    InBounds (p.approve q) := by
  cases q with
  | allocate => simp [Program.approve, Program.inBounds_assignment h.succs]
  | reorder order => exact p.inBounds_approveOrder order
  | reorderFallthrough => exact p.inBounds_approveOrder _
  | lowerBranches => exact p.inBounds_require _
  | resolveOffsets => exact p.inBounds_require _
  | emit | list name | listOffsets name => cases hq

/-- A request of a reachable program: what rewrites it fails on what is decided before, the others
go through the instructions. -/
theorem inBounds_perform {s : Session} (h : Reachable s.program) (q : Request) :
    InBounds (s.perform q).2 := by
  cases hq : q.rewrites with
  | true =>
      intro f hf
      have houtcome := perform_outcome h.invariant q
      rw [hf] at houtcome
      exact inBounds_approve h.linked hq f (houtcome.early hq)
  | false =>
      cases q with
      | emit => simp [perform, s.program.inBounds_emit]
      | list name => simp [perform, Program.text, Program.inBounds_blockLines]
      | listOffsets name => simp [perform, s.program.inBounds_textWithOffsets]
      | _ => cases hq

/-- Whatever is built by any steps, and whatever is asked of it before: a request succeeds, breaks a
rule or is refused. The positions that are read without asking are there at every stage, nothing is
divided by zero, and the storage of intervals gives a place whenever it is asked. -/
theorem performAll_inBounds (steps : List BuildStep) :
    let built := Builder.run (steps.map .ok) >>= Builder.build
    (InBounds built ∧ ∀ p, built = .ok p → ∀ (buffer : CodeBuffer) (requests : List Request),
      let s := (performAll { program := p, buffer } requests).1
      (∀ q, InBounds (s.perform q).2) ∧
        Program.Tiles s.program.insts 0 s.program.blocks s.program.ranges ∧
        s.program.Linked ∧ s.program.followOrder = .ok s.program.fallthroughOrder) ∧
    ((∀ a : A64.Access, 0 < a.bytes) ∧ (∀ w : A64.Width, 0 < w.bits) ∧
      (∀ (ty : ValueType) (n : Nat), ty.bytes = .ok n → 0 < n) ∧
      ∀ (sink : ConstantSink) (data : List UInt8),
        (do let aligned ← sink.align (UInt32.ofNat (ConstantSink.alignmentOf data.length))
            return (aligned.offset, aligned.append data)) = Except.ok (sink.place data)) ∧
    ∀ count, InBounds (Allocation.Arena.empty.allocateAll count) := by
  intro built
  refine ⟨⟨?_, fun p hp buffer requests => ?_⟩, ⟨?_, ?_, ?_, ConstantSink.align_place⟩, ?_⟩
  · rw [Checked.inBounds_bind]
    exact ⟨Builder.inBounds_run steps, fun builder _ => builder.inBounds_build⟩
  · obtain ⟨builder, _, hbuild⟩ := Checked.bind_eq_ok.mp hp
    have hreach : Reachable (performAll { program := p, buffer } requests).1.program :=
      Reachable.performAll (.built hbuild) requests
    exact ⟨fun q => inBounds_perform hreach q,
      Program.tiles_of_nonempty hreach.invariant.nonempty, hreach.linked,
      hreach.linked.followOrder_eq⟩
  · exact A64.Access.bytes_pos
  · exact A64.Width.bits_pos
  · exact fun ty n => ValueType.pos_of_bytes
  · exact Allocation.Arena.sound_empty.inBounds_allocateAll

def countdownSteps : List BuildStep :=
  countdown.blocks.flatMap fun insts => [.start, .push insts]

theorem performAll_inBounds_countdown :
    ∃ p, Builder.run (countdownSteps.map .ok) >>= Builder.build = .ok p ∧
      let s := (performAll { program := p, buffer := {} } detours).1
      (∀ q, InBounds (s.perform q).2) ∧
        Program.Tiles s.program.insts 0 s.program.blocks s.program.ranges ∧
        s.program.Linked ∧ s.program.followOrder = .ok s.program.fallthroughOrder := by
  have hbuilt : ∃ p, Builder.run (countdownSteps.map .ok) >>= Builder.build = .ok p := ⟨_, rfl⟩
  obtain ⟨p, hp⟩ := hbuilt
  exact ⟨p, hp, (performAll_inBounds countdownSteps).1.2 p hp {} detours⟩

end Session

end Codegen
