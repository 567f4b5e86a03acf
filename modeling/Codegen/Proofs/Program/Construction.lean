import Codegen.Proofs.Program.Invariant

/-!
Construction of programs. Whatever is started and pushed, the blocks of the builder are what was
pushed from each start to the next one, and a program is built from them exactly if each of them
ends with its one terminator and branches to blocks that were started.
-/
namespace Codegen

open A64 (Inst)

namespace A64.Inst

def endsBlock : Inst → Bool
  | ret | jump _ | branch .. => true
  | _ => false

def isLowered : Inst → Bool
  | branchTo .. | branchElse .. => true
  | _ => false

theorem endsBlock_of_terminator {i : Inst} {term : Terminator} (h : i.terminator = .ok term) :
    i.endsBlock = true ↔ term ≠ .none := by
  cases i with
  | jump t =>
      obtain ⟨b, _, h⟩ := Checked.bind_eq_ok.mp h
      cases h
      simp [endsBlock]
  | branch t n cond =>
      obtain ⟨b, _, h⟩ := Checked.bind_eq_ok.mp h
      obtain ⟨c, _, h⟩ := Checked.bind_eq_ok.mp h
      cases h
      simp [endsBlock]
  | branchTo t inverted cond => cases h
  | branchElse t n cond => cases h
  | _ =>
      cases h
      simp [endsBlock]

/-- Until branches are lowered, an instruction has a terminator exactly if it branches to blocks. -/
theorem exists_terminator {i : Inst} (hlowered : i.isLowered = false)
    (htargets : ∀ t ∈ i.targets, ∃ b, t = .block b) : ∃ term, i.terminator = .ok term := by
  cases i with
  | jump t =>
      obtain ⟨b, rfl⟩ := htargets t List.mem_cons_self
      exact ⟨.jump b, rfl⟩
  | branch t n cond =>
      obtain ⟨b, rfl⟩ := htargets t List.mem_cons_self
      obtain ⟨c, rfl⟩ := htargets n (by simp [targets])
      exact ⟨.branch b c, rfl⟩
  | branchTo t inverted cond => cases hlowered
  | branchElse t n cond => cases hlowered
  | ret => exact ⟨.ret, rfl⟩
  | _ => exact ⟨.none, rfl⟩

end A64.Inst

section Blocks

/-- Instructions make a block of a function with `count` blocks: exactly the last one of them ends a
block, and all that they branch to are blocks of the function. -/
structure WellFormedBlock (count : Nat) (body : List Inst) : Prop where
  last : ∃ front last, body = front ++ [last] ∧ last.endsBlock = true ∧
    ∀ i ∈ front, i.endsBlock = false
  targets : ∀ i ∈ body, ∀ t ∈ i.targets, t.Within count

/-- The instructions of a block that is closed, as long as branches are not lowered. -/
theorem exists_closed_iff {count : Nat} {body : List Inst}
    (hplain : ∀ i ∈ body, i.isLowered = false) :
    (∃ b : Block, b.insts = body ∧ b.Closed count) ↔ WellFormedBlock count body := by
  constructor
  · rintro ⟨b, rfl, hclosed⟩
    refine ⟨?_, fun i hi t ht => ?_⟩
    · obtain ⟨front, last, term, hends⟩ := hclosed
      refine ⟨front, last, hends.insts, ?_, fun i hi => ?_⟩
      · exact (Inst.endsBlock_of_terminator hends.ends).mpr hends.proper
      · have hnone := Inst.endsBlock_of_terminator (hends.inner i hi)
        simpa using hnone
    · obtain ⟨term, hterm, hwithin⟩ := hclosed.terminator hi
      rw [Inst.targets_of_terminator hterm] at ht
      obtain ⟨s, hs, rfl⟩ := List.mem_map.mp ht
      exact ⟨s, rfl, hwithin s hs⟩
  · rintro ⟨⟨front, last, rfl, hlast, hfront⟩, htargets⟩
    have hterminator : ∀ i ∈ front ++ [last], ∃ term, i.terminator = .ok term := by
      intro i hi
      refine Inst.exists_terminator (hplain i hi) fun t ht => ?_
      obtain ⟨b, hb, _⟩ := htargets i hi t ht
      exact ⟨b, hb⟩
    obtain ⟨term, hterm⟩ := hterminator last (by simp)
    refine ⟨{ insts := front ++ [last], succs := term.succs }, rfl, front, last, term,
      { insts := rfl
        inner := fun i hi => ?_
        ends := hterm
        proper := (Inst.endsBlock_of_terminator hterm).mp hlast
        succs := rfl
        within := fun s hs => ?_ }⟩
    · obtain ⟨term, hterm⟩ := hterminator i (by simp [hi])
      have hnone : term = .none := by
        by_contra hne
        have hends := (Inst.endsBlock_of_terminator hterm).mpr hne
        rw [hfront i hi] at hends
        cases hends
      rw [hterm, hnone]
    · have hmem : A64.BranchTarget.block s ∈ last.targets := by
        rw [Inst.targets_of_terminator hterm]
        exact List.mem_map_of_mem hs
      obtain ⟨b, hb, hlt⟩ := htargets last (by simp) _ hmem
      cases hb
      exact hlt

theorem exists_blocks {count : Nat} {bodies : List (List Inst)}
    (h : ∀ body ∈ bodies, ∃ b : Block, b.insts = body ∧ b.Closed count) :
    ∃ blocks : List Block, blocks.map (·.insts) = bodies ∧ ∀ b ∈ blocks, b.Closed count := by
  induction bodies with
  | nil => exact ⟨[], rfl, fun b hb => by cases hb⟩
  | cons body bodies ih =>
      obtain ⟨⟨first, hfirst, hclosed⟩, hrest⟩ := List.forall_mem_cons.mp h
      obtain ⟨others, hothers, hall⟩ := ih hrest
      exact ⟨first :: others, by rw [List.map_cons, hfirst, hothers],
        List.forall_mem_cons.mpr ⟨hclosed, hall⟩⟩

end Blocks

namespace BuildStep

def insts : BuildStep → List Inst
  | start => []
  | push insts => insts

/-- What is pushed before the next block is started. -/
def upToStart : List BuildStep → List Inst
  | .push insts :: rest => insts ++ upToStart rest
  | .start :: _ | [] => []

/-- What is pushed from each start to the next one. -/
def sections : List BuildStep → List (List Inst)
  | [] => []
  | .start :: rest => upToStart rest :: sections rest
  | .push _ :: rest => sections rest

/-- A block is started, and all that is started becomes a block. -/
def WellFormed (steps : List BuildStep) : Prop :=
  .start ∈ steps ∧ ∀ body ∈ sections steps, WellFormedBlock (steps.count .start) body

theorem length_sections (steps : List BuildStep) :
    (sections steps).length = steps.count .start := by
  induction steps with
  | nil => rfl
  | cons step steps ih =>
      cases step with
      | start => rw [sections, List.length_cons, ih, List.count_cons_self]
      | push insts => rw [sections, ih, List.count_cons_of_ne (by simp)]

theorem mem_of_mem_upToStart {steps : List BuildStep} {i : Inst} (h : i ∈ upToStart steps) :
    i ∈ steps.flatMap insts := by
  induction steps with
  | nil => cases h
  | cons step steps ih =>
      cases step with
      | start => cases h
      | push insts => exact List.mem_append.mpr ((List.mem_append.mp h).imp id ih)

theorem mem_of_mem_sections {steps : List BuildStep} {body : List Inst} {i : Inst}
    (hbody : body ∈ sections steps) (hi : i ∈ body) : i ∈ steps.flatMap insts := by
  induction steps with
  | nil => cases hbody
  | cons step steps ih =>
      refine List.mem_append_right _ ?_
      cases step with
      | start =>
          rcases List.mem_cons.mp hbody with rfl | hbody
          · exact mem_of_mem_upToStart hi
          · exact ih hbody
      | push insts => exact ih hbody

theorem upToStart_append_start (before after : List BuildStep) :
    upToStart (before ++ .start :: after) = upToStart before := by
  induction before with
  | nil => rfl
  | cons step before ih =>
      cases step with
      | start => rfl
      | push insts => exact congrArg (insts ++ ·) ih

theorem sections_append_start (before after : List BuildStep) :
    sections (before ++ .start :: after) =
      sections before ++ upToStart after :: sections after := by
  induction before with
  | nil => rfl
  | cons step before ih =>
      cases step with
      | start =>
          rw [List.cons_append, sections, upToStart_append_start, ih, sections, List.cons_append]
      | push insts => exact ih

end BuildStep

namespace Builder

open BuildStep (upToStart sections)

/-- Does a step. One that fails leaves the builder as it was. -/
def attempt (b : Builder) (step : BuildStep) : Builder := (b.step step).toOption.getD b

/-- Does all steps, from no block at all, whether or not some of them fail. -/
def replay (steps : List BuildStep) : Builder := steps.foldl attempt {}

/-- The blocks after some more steps: the last one grows up to the next start, and from then on each
start opens a block. -/
theorem blocks_foldl (b : Builder) (steps : List BuildStep) : (steps.foldl attempt b).blocks =
    b.closed ++ (b.current.map (· ++ upToStart steps)).toList ++ sections steps := by
  induction steps generalizing b with
  | nil => simp [blocks, upToStart, sections]
  | cons step steps ih =>
      rw [List.foldl_cons, ih]
      cases step with
      | start => simp [attempt, step, start, blocks, upToStart, sections, Except.toOption]
      | push insts =>
          cases hcurrent : b.current with
          | none =>
              simp [attempt, step, push, hcurrent, upToStart, sections, Except.toOption, broken]
          | some body =>
              simp [attempt, step, push, hcurrent, upToStart, sections, Except.toOption]

theorem blocks_replay (steps : List BuildStep) : (replay steps).blocks = sections steps := by
  rw [replay, blocks_foldl]
  rfl

/-- A block is open from the first start on. -/
theorem isSome_current_foldl (b : Builder) (steps : List BuildStep) :
    (steps.foldl attempt b).current.isSome = true ↔ b.current.isSome = true ∨ .start ∈ steps := by
  induction steps generalizing b with
  | nil => simp
  | cons step steps ih =>
      rw [List.foldl_cons, ih]
      cases step with
      | start => simp [attempt, step, start, Except.toOption]
      | push insts =>
          cases hcurrent : b.current with
          | none => simp [attempt, step, push, hcurrent, Except.toOption, broken]
          | some body => simp [attempt, step, push, hcurrent, Except.toOption]

theorem isSome_current_replay (steps : List BuildStep) :
    (replay steps).current.isSome = true ↔ .start ∈ steps := by
  rw [replay, isSome_current_foldl]
  simp

theorem replay_concat (steps : List BuildStep) (step : BuildStep) :
    replay (steps ++ [step]) = (replay steps).attempt step := by
  rw [replay, List.foldl_append]
  rfl

theorem start_replay (steps : List BuildStep) : (replay steps).start.1 = steps.count .start := by
  rw [start, blocks_replay, BuildStep.length_sections]

/-- Before the first start nothing can be pushed. -/
theorem push_replay_of_not_mem {steps : List BuildStep} (h : .start ∉ steps) (insts : List Inst) :
    (replay steps).push insts = broken .pushOutsideBlock ∧
      replay (steps ++ [.push insts]) = replay steps := by
  have hcurrent : (replay steps).current = none := by
    rw [← Option.not_isSome_iff_eq_none, isSome_current_replay]
    exact h
  have hpush : (replay steps).push insts = broken .pushOutsideBlock := by rw [push, hcurrent]
  refine ⟨hpush, ?_⟩
  rw [replay_concat, attempt, step, hpush]
  rfl

theorem push_replay_of_mem {steps : List BuildStep} (h : .start ∈ steps) (insts : List Inst) :
    (replay steps).push insts = .ok (replay (steps ++ [.push insts])) := by
  obtain ⟨body, hbody⟩ := Option.isSome_iff_exists.mp ((isSome_current_replay steps).mpr h)
  rw [replay_concat, attempt, step, push, hbody]
  rfl

theorem replay_of_run {steps : List BuildStep} {b : Builder} (h : run (steps.map .ok) = .ok b) :
    replay steps = b := by
  have hfrom : ∀ a : Builder,
      (steps.map .ok).foldlM (fun b s => do Builder.step b (← s)) a = .ok b →
        steps.foldl attempt a = b := by
    clear h
    induction steps with
    | nil => exact fun a ha => Except.ok.inj ha
    | cons step steps ih =>
        intro a ha
        rw [List.map_cons, List.foldlM_cons] at ha
        obtain ⟨c, hc, hrest⟩ := Checked.bind_eq_ok.mp ha
        have hattempt : a.attempt step = c := by
          rw [attempt, show a.step step = .ok c from hc]
          rfl
        rw [List.foldl_cons, hattempt]
        exact ih c hrest
  exact hfrom {} h

/-- A program is built exactly from what was pushed, if all of it closes its block. -/
theorem build_replay_eq_ok {steps : List BuildStep} {p : Program} :
    (replay steps).build = .ok p ↔ .start ∈ steps ∧ p.blocks.map (·.insts) = sections steps ∧
      (∀ b ∈ p.blocks, b.Closed (steps.count .start)) ∧ p = { blocks := p.blocks } := by
  have hstart : sections steps ≠ [] ↔ .start ∈ steps := by
    rw [← List.length_pos_iff, BuildStep.length_sections, List.count_pos_iff]
  rw [build_eq_ok_iff, blocks_replay, hstart]
  refine and_congr_right fun _ => and_congr_right fun hinsts => ?_
  rw [← BuildStep.length_sections, ← hinsts, List.length_map]

theorem exists_build_iff {steps : List BuildStep}
    (hplain : ∀ i ∈ steps.flatMap BuildStep.insts, i.isLowered = false) :
    (∃ p, (replay steps).build = .ok p) ↔ BuildStep.WellFormed steps := by
  have hbody : ∀ body ∈ sections steps, (∃ b : Block, b.insts = body ∧
      b.Closed (steps.count .start)) ↔ WellFormedBlock (steps.count .start) body := by
    intro body hbody
    exact exists_closed_iff fun i hi => hplain i (BuildStep.mem_of_mem_sections hbody hi)
  simp only [build_replay_eq_ok]
  constructor
  · rintro ⟨p, hstart, hinsts, hclosed, _⟩
    refine ⟨hstart, fun body hmem => (hbody body hmem).mp ?_⟩
    obtain ⟨b, hb, rfl⟩ := List.mem_map.mp (hinsts ▸ hmem)
    exact ⟨b, rfl, hclosed b hb⟩
  · rintro ⟨hstart, hwellFormed⟩
    obtain ⟨blocks, hinsts, hclosed⟩ :=
      exists_blocks fun body hmem => (hbody body hmem).mpr (hwellFormed body hmem)
    exact ⟨{ blocks }, hstart, hinsts, hclosed, rfl⟩

/-- The number that a start gives is that of the block of what is pushed next. -/
theorem block_of_start {before after : List BuildStep} {p : Program}
    (h : p.blocks.map (·.insts) = sections (before ++ .start :: after)) :
    ∃ b, p.blocks[(replay before).start.1]? = some b ∧ b.insts = upToStart after ∧
      (replay before).start.1 = before.count .start := by
  have hplace : (sections (before ++ .start :: after))[before.count .start]? =
      some (upToStart after) := by
    rw [BuildStep.sections_append_start, ← BuildStep.length_sections,
      List.getElem?_append_right (Nat.le_refl _), Nat.sub_self, List.getElem?_cons_zero]
  rw [← h, List.getElem?_map] at hplace
  obtain ⟨b, hb, hinsts⟩ := Option.map_eq_some_iff.mp hplace
  rw [start_replay]
  exact ⟨b, hb, hinsts, rfl⟩

/-- A program is built exactly if a block was started and every block that was started is well
formed. A push fails exactly before the first start, and then adds nothing. The blocks of the
program are what was pushed from each start to the next one, under the numbers that the starts gave,
with the successors of their last instructions. -/
theorem build_iff_wellFormed {steps : List BuildStep}
    (hplain : ∀ i ∈ steps.flatMap BuildStep.insts, i.isLowered = false) :
    ((∃ p, (replay steps).build = .ok p) ↔ BuildStep.WellFormed steps) ∧
    (∀ before insts after, steps = before ++ .push insts :: after →
      (.start ∉ before → (replay before).push insts = broken .pushOutsideBlock ∧
        replay (before ++ [.push insts]) = replay before) ∧
      (.start ∈ before → (replay before).push insts = .ok (replay (before ++ [.push insts])))) ∧
    (∀ b, run (steps.map .ok) = .ok b → replay steps = b) ∧
    ∀ p, (replay steps).build = .ok p →
      (p.blocks.length = steps.count .start ∧ ∀ before after, steps = before ++ .start :: after →
        ∃ b, p.blocks[(replay before).start.1]? = some b ∧ b.insts = upToStart after ∧
          (replay before).start.1 = before.count .start) ∧
      Program.Tiles p.insts 0 p.blocks p.ranges ∧
      ∀ b ∈ p.blocks, ∃ last term, b.insts.getLast? = some last ∧ last.terminator = .ok term ∧
        b.succs = term.succs := by
  refine ⟨exists_build_iff hplain, ?_, fun b => replay_of_run, fun p hp => ?_⟩
  · rintro before insts after rfl
    exact ⟨fun h => push_replay_of_not_mem h insts, fun h => push_replay_of_mem h insts⟩
  · obtain ⟨_, hinsts, hclosed, _⟩ := build_replay_eq_ok.mp hp
    refine ⟨⟨?_, ?_⟩, Program.tiles_of_nonempty fun b hb => (hclosed b hb).nonempty, ?_⟩
    · rw [← BuildStep.length_sections, ← hinsts, List.length_map]
    · rintro before after rfl
      exact block_of_start hinsts
    · intro b hb
      obtain ⟨front, last, term, hends⟩ := hclosed b hb
      exact ⟨last, term, by rw [hends.insts, List.getLast?_concat], hends.ends, hends.succs⟩

/-- A push that fails, one of nothing, and two blocks. -/
def strayPush : List BuildStep :=
  [.push [.ret], .start, .push [],
    .push [.unset, .branch (.block 0) (.block 1) (.zero (.virtual .i64 0))], .start, .push [.ret]]

theorem build_iff_wellFormed_strayPush :
    (∀ i ∈ strayPush.flatMap BuildStep.insts, i.isLowered = false) ∧
    BuildStep.WellFormed strayPush ∧
    (replay []).push [.ret] = broken .pushOutsideBlock ∧ replay [.push [.ret]] = replay [] ∧
    ∃ p, (replay strayPush).build = .ok p ∧ p.blocks.length = 2 ∧
      Program.Tiles p.insts 0 p.blocks p.ranges := by
  have hplain : ∀ i ∈ strayPush.flatMap BuildStep.insts, i.isLowered = false := by decide
  have hbuild : ∃ p, (replay strayPush).build = .ok p := ⟨_, rfl⟩
  obtain ⟨hiff, hpush, _, hblocks⟩ := build_iff_wellFormed hplain
  obtain ⟨p, hp⟩ := hbuild
  obtain ⟨⟨hcount, _⟩, htiles, _⟩ := hblocks p hp
  obtain ⟨hfails, hkept⟩ := (hpush [] [.ret] _ rfl).1 (by decide)
  exact ⟨hplain, hiff.mp ⟨p, hp⟩, hfails, hkept, p, hp, hcount, htiles⟩

end Builder

end Codegen
