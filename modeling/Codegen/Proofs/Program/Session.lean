import Codegen.Program.Session
import Codegen.Proofs.Program.Invariant
import Mathlib.Computability.RegularExpressions

/-!
Sessions of any length. A request is approved or refused on the program as it stands; what follows
an approved pass is a plain rewriting, so a pass that fails fails before the first change. The
invariant holds after every list of requests, and the passes that succeed follow the schedule.
-/
namespace Codegen

open A64 (Inst)

/-- The pass that is asked for. A listing without offsets is none. -/
def Request.pass? : Request → Option Pass
  | .allocate => some .allocate
  | .reorder _ => some .reorder
  | .reorderFallthrough => some .reorder
  | .lowerBranches => some .lowerBranches
  | .resolveOffsets => some .resolveOffsets
  | .emit => some .emit
  | .list _ => none
  | .listOffsets _ => some .listOffsets

/-- The request asks for a change of the program. -/
def Request.rewrites : Request → Bool
  | .allocate | .reorder _ | .reorderFallthrough | .lowerBranches | .resolveOffsets => true
  | .emit | .list _ | .listOffsets _ => false

namespace Pass

/-- The stage after a pass. -/
def leadsTo : Pass → Stage → Stage
  | allocate, _ => .allocated
  | lowerBranches, _ => .lowered
  | resolveOffsets, _ => .resolved
  | reorder, s | emit, s | listOffsets, s => s

/-- The orders of passes of a whole run. -/
def schedule : RegularExpression Pass :=
  .star (.char reorder) * .char allocate * .star (.char reorder) * .char lowerBranches *
    .char resolveOffsets * .star (.char emit + .char listOffsets)

/-- The orders of passes that lead to a stage. -/
def course : Stage → RegularExpression Pass
  | .built => .star (.char reorder)
  | .allocated => .star (.char reorder) * .char allocate * .star (.char reorder)
  | .lowered =>
    .star (.char reorder) * .char allocate * .star (.char reorder) * .char lowerBranches
  | .resolved => schedule

end Pass

namespace Program

/-- What is decided about a request before anything is changed or written. -/
def approve (p : Program) : Request → Checked Unit
  | .allocate => p.assignment.map fun _ => ()
  | .reorder order => p.approveOrder order
  | .reorderFallthrough => p.approveOrder p.fallthroughOrder
  | .lowerBranches => p.require .lowerBranches
  | .resolveOffsets => p.require .resolveOffsets
  | .emit => p.require .emit
  | .list _ => .ok ()
  | .listOffsets _ => p.require .listOffsets

def rewritten (p : Program) : Request → Program
  | .allocate => p.assignment.toOption.elim p p.renamed
  | .reorder order => p.arranged order
  | .reorderFallthrough => p.arranged p.fallthroughOrder
  | .lowerBranches => p.lowered
  | .resolveOffsets => p.settled
  | .emit | .list _ | .listOffsets _ => p

end Program

namespace Session

/-- Carries out requests one after the other, and gives the passes that succeeded. -/
def performAll (s : Session) : List Request → Session × List Pass
  | [] => (s, [])
  | q :: rest =>
    let (t, reply) := s.perform q
    let done := if reply.isOk then q.pass?.toList else []
    let (u, later) := t.performAll rest
    (u, done ++ later)

/-- How a request ends. If it fails, the program stays as it was, and a pass has failed before its
first change. Otherwise it was approved, and the program is rewritten. -/
inductive Outcome (p : Program) (q : Request) : Program → Checked Reply → Prop where
  | failed {f : Failure} (early : q.rewrites = true → p.approve q = .error f) :
      Outcome p q p (.error f)
  | done {reply : Reply} (approved : p.approve q = .ok ()) : Outcome p q (p.rewritten q) (.ok reply)

theorem outcome_pass {s : Session} {q : Request} {result : Checked Program}
    (h : result = (s.program.approve q).map fun _ => s.program.rewritten q) :
    Outcome s.program q (s.pass result).1.program (s.pass result).2 := by
  rw [h]
  cases happrove : s.program.approve q with
  | error f => exact .failed fun _ => happrove
  | ok u => exact .done happrove

theorem perform_outcome {s : Session} (h : s.program.Invariant) (q : Request) :
    Outcome s.program q (s.perform q).1.program (s.perform q).2 := by
  cases q with
  | allocate =>
      refine outcome_pass ?_
      simp only [Program.allocate_eq, Program.approve, Program.rewritten]
      cases s.program.assignment with
      | error f => rfl
      | ok result => rfl
  | reorder order => exact outcome_pass (h.reorder_eq order)
  | reorderFallthrough => exact outcome_pass (h.reorder_eq s.program.fallthroughOrder)
  | lowerBranches => exact outcome_pass s.program.lowerBranches_eq
  | resolveOffsets => exact outcome_pass h.resolveOffsets_eq
  | emit =>
      simp only [perform, Program.emit]
      cases hrequire : s.program.require .emit with
      | error f => exact .failed fun hrewrites => by cases hrewrites
      | ok u =>
          simp only
          cases (s.program.emitCode.exec ⟨s.buffer, .after s.program.codeSize⟩).1 with
          | error f => exact .failed fun hrewrites => by cases hrewrites
          | ok pool => exact .done hrequire
  | list name =>
      simp only [perform]
      cases s.program.text name with
      | error f => exact .failed fun hrewrites => by cases hrewrites
      | ok text => exact .done rfl
  | listOffsets name =>
      simp only [perform, Program.textWithOffsets]
      cases hrequire : s.program.require .listOffsets with
      | error f => exact .failed fun hrewrites => by cases hrewrites
      | ok u =>
          simp only [Checked.ok_bind]
          cases Program.blockLines name 0 (some 0) s.program.blocks with
          | error f => exact .failed fun hrewrites => by cases hrewrites
          | ok text => exact .done hrequire

theorem invariant_rewritten {p : Program} (h : p.Invariant) {q : Request}
    (happrove : p.approve q = .ok ()) : (p.rewritten q).Invariant := by
  cases q with
  | allocate =>
      simp only [Program.approve] at happrove
      cases hresult : p.assignment with
      | error f =>
          rw [hresult] at happrove
          cases happrove
      | ok result =>
          simp only [Program.rewritten, hresult, Except.toOption, Option.elim]
          exact h.renamed hresult
  | reorder order => exact h.arranged happrove
  | reorderFallthrough => exact h.arranged happrove
  | lowerBranches => exact h.lower (by simpa [Pass.stages] using Program.require_eq_ok.mp happrove)
  | resolveOffsets =>
      exact h.settle (by simpa [Pass.stages] using Program.require_eq_ok.mp happrove)
  | emit => exact h
  | list name => exact h
  | listOffsets name => exact h

theorem Outcome.invariant {p p' : Program} {q : Request} {reply : Checked Reply}
    (h : Outcome p q p' reply) (hp : p.Invariant) : p'.Invariant := by
  cases h with
  | failed early => exact hp
  | done approved => exact invariant_rewritten hp approved

/-- A pass that is approved runs at one of its stages and leads to the next one. -/
theorem stage_rewritten {p : Program} {q : Request} {pass : Pass} (hpass : q.pass? = some pass)
    (happrove : p.approve q = .ok ()) :
    p.stage ∈ pass.stages ∧ (p.rewritten q).stage = pass.leadsTo p.stage := by
  cases q with
  | allocate =>
      cases hpass
      simp only [Program.approve] at happrove
      cases hresult : p.assignment with
      | error f =>
          rw [hresult] at happrove
          cases happrove
      | ok result =>
          refine ⟨Program.require_eq_ok.mp (Program.assignment_eq_ok.mp hresult).1, ?_⟩
          simp only [Program.rewritten, hresult, Except.toOption, Option.elim]
          rfl
  | reorder order | reorderFallthrough =>
      cases hpass
      obtain ⟨⟨⟩, hrequire, _⟩ := Checked.bind_eq_ok.mp happrove
      exact ⟨Program.require_eq_ok.mp hrequire, rfl⟩
  | lowerBranches | resolveOffsets | emit =>
      cases hpass
      exact ⟨Program.require_eq_ok.mp happrove, rfl⟩
  | list name => cases hpass
  | listOffsets name =>
      cases hpass
      exact ⟨Program.require_eq_ok.mp happrove, rfl⟩

theorem rewritten_of_pass?_eq_none {p : Program} {q : Request} (h : q.pass? = none) :
    p.rewritten q = p := by
  cases q with
  | list name => rfl
  | _ => cases h

end Session

namespace Pass

open RegularExpression

theorem append_mem_star {r : RegularExpression Pass} {done : List Pass} {pass : Pass}
    (hdone : done ∈ (star r).matches') (hpass : [pass] ∈ r.matches') :
    done ++ [pass] ∈ (star r).matches' := by
  rw [matches'_star, Language.mem_kstar] at hdone ⊢
  obtain ⟨words, rfl, hwords⟩ := hdone
  refine ⟨words ++ [[pass]], by simp, ?_⟩
  intro word hword
  rcases List.mem_append.mp hword with hword | hword
  · exact hwords word hword
  · rw [List.mem_singleton.mp hword]
    exact hpass

theorem append_mem_mul {r t : RegularExpression Pass} {done later : List Pass}
    (hdone : done ∈ r.matches') (hlater : later ∈ t.matches') :
    done ++ later ∈ (r * t).matches' := by
  rw [matches'_mul]
  exact Language.append_mem_mul hdone hlater

theorem append_mem_mul_star {r t : RegularExpression Pass} {done : List Pass} {pass : Pass}
    (hdone : done ∈ (r * star t).matches') (hpass : [pass] ∈ t.matches') :
    done ++ [pass] ∈ (r * star t).matches' := by
  rw [matches'_mul] at hdone
  obtain ⟨first, hfirst, last, hlast, rfl⟩ := Language.mem_mul.mp hdone
  rw [List.append_assoc]
  exact append_mem_mul hfirst (append_mem_star hlast hpass)

/-- After `r` nothing has to follow from a repetition. -/
theorem mem_mul_star {r : RegularExpression Pass} (t : RegularExpression Pass) {done : List Pass}
    (hdone : done ∈ r.matches') : done ∈ (r * star t).matches' := by
  have hnil : [] ∈ (star t).matches' := by
    rw [matches'_star]
    exact Language.nil_mem_kstar _
  simpa using append_mem_mul hdone hnil

/-- A pass at one of its stages continues the orders that lead to the stage. -/
theorem append_mem_course (pass : Pass) {done : List Pass} {stage : Stage}
    (hdone : done ∈ (course stage).matches') (hpass : stage ∈ pass.stages) :
    done ++ [pass] ∈ (course (pass.leadsTo stage)).matches' := by
  cases pass with
  | allocate =>
      obtain rfl : stage = .built := by simpa [stages] using hpass
      exact mem_mul_star (char reorder) (append_mem_mul hdone (Set.mem_singleton [allocate]))
  | reorder =>
      rcases (by simpa [stages] using hpass : stage = .built ∨ stage = .allocated) with rfl | rfl
      · exact append_mem_star hdone (Set.mem_singleton [reorder])
      · exact append_mem_mul_star hdone (Set.mem_singleton [reorder])
  | lowerBranches =>
      obtain rfl : stage = .allocated := by simpa [stages] using hpass
      exact append_mem_mul hdone (Set.mem_singleton [lowerBranches])
  | resolveOffsets =>
      obtain rfl : stage = .lowered := by simpa [stages] using hpass
      exact mem_mul_star _ (append_mem_mul hdone (Set.mem_singleton [resolveOffsets]))
  | emit =>
      obtain rfl : stage = .resolved := by simpa [stages] using hpass
      exact append_mem_mul_star hdone (.inl rfl)
  | listOffsets =>
      obtain rfl : stage = .resolved := by simpa [stages] using hpass
      exact append_mem_mul_star hdone (.inr rfl)

/-- What leads to a stage can be continued to a whole run. -/
theorem exists_append_mem_schedule {done : List Pass} {stage : Stage}
    (hdone : done ∈ (course stage).matches') : ∃ later, done ++ later ∈ schedule.matches' := by
  cases stage with
  | built =>
      have hallocated := append_mem_course allocate hdone (by decide)
      have hlowered := append_mem_course lowerBranches hallocated (by decide)
      have hresolved := append_mem_course resolveOffsets hlowered (by decide)
      simp only [List.append_assoc] at hresolved
      exact ⟨_, hresolved⟩
  | allocated =>
      have hlowered := append_mem_course lowerBranches hdone (by decide)
      have hresolved := append_mem_course resolveOffsets hlowered (by decide)
      rw [List.append_assoc] at hresolved
      exact ⟨_, hresolved⟩
  | lowered => exact ⟨_, append_mem_course resolveOffsets hdone (by decide)⟩
  | resolved =>
      rw [← List.append_nil done] at hdone
      exact ⟨_, hdone⟩

end Pass

namespace Session

/-- The program keeps the invariant and was brought to its stage by the passes `done`. -/
structure Reached (done : List Pass) (p : Program) : Prop where
  invariant : p.Invariant
  course : done ∈ (Pass.course p.stage).matches'

theorem Reached.of_build {builder : Builder} {p : Program} (h : builder.build = .ok p) :
    Reached [] p := by
  refine ⟨.of_build h, ?_⟩
  rw [(Builder.build_eq_ok h).1]
  exact Language.nil_mem_kstar _

/-- One request: the passes that succeeded grow by the one that succeeds now. -/
theorem Reached.step {done : List Pass} {p p' : Program} {q : Request} {reply : Checked Reply}
    (h : Reached done p) (houtcome : Outcome p q p' reply) :
    Reached (done ++ if reply.isOk then q.pass?.toList else []) p' := by
  refine ⟨houtcome.invariant h.invariant, ?_⟩
  cases houtcome with
  | failed early =>
      change done ++ [] ∈ _
      rw [List.append_nil]
      exact h.course
  | done approved =>
      change done ++ q.pass?.toList ∈ _
      cases hpass : q.pass? with
      | none =>
          rw [Option.toList_none, List.append_nil, rewritten_of_pass?_eq_none hpass]
          exact h.course
      | some pass =>
          obtain ⟨hstage, hnext⟩ := stage_rewritten hpass approved
          rw [hnext]
          exact Pass.append_mem_course pass h.course hstage

theorem Reached.performAll {done : List Pass} {s : Session} (h : Reached done s.program)
    (requests : List Request) :
    Reached (done ++ (s.performAll requests).2) (s.performAll requests).1.program := by
  induction requests generalizing done s with
  | nil =>
      rw [Session.performAll, List.append_nil]
      exact h
  | cons q rest ih =>
      have hstep := h.step (perform_outcome h.invariant q)
      have hrest := ih hstep
      rwa [List.append_assoc] at hrest

/-- The program was built, and changed by requests only. -/
inductive Reachable : Program → Prop where
  | built {builder : Builder} {p : Program} : builder.build = .ok p → Reachable p
  | request {s : Session} (q : Request) : Reachable s.program → Reachable (s.perform q).1.program

theorem Reachable.invariant {p : Program} (h : Reachable p) : p.Invariant := by
  induction h with
  | built hbuild => exact .of_build hbuild
  | request q _ ih => exact (perform_outcome ih q).invariant ih

/-- After any requests in any order the invariant holds, the passes that succeeded begin an order of
the schedule, and a further request that fails leaves the program as it is: a pass fails on what is
decided before its first change. -/
theorem performAll_invariant {builder : Builder} {p : Program} (hbuild : builder.build = .ok p)
    (buffer : CodeBuffer) (requests : List Request) :
    let after := performAll { program := p, buffer } requests
    let s := after.1
    (Program.Tiles s.program.insts 0 s.program.blocks s.program.ranges ∧ s.program.Invariant) ∧
      (∃ later, after.2 ++ later ∈ Pass.schedule.matches') ∧
      ∀ q f, (s.perform q).2 = .error f →
        (s.perform q).1.program = s.program ∧
          (q.rewrites = true → s.program.approve q = .error f) := by
  have hstart : Reached [] ({ program := p, buffer } : Session).program := .of_build hbuild
  have hreached := hstart.performAll requests
  rw [List.nil_append] at hreached
  intro after s
  refine ⟨⟨Program.tiles_of_nonempty hreached.invariant.nonempty, hreached.invariant⟩,
    Pass.exists_append_mem_schedule hreached.course, ?_⟩
  intro q f hfailed
  have houtcome := perform_outcome hreached.invariant q
  rw [hfailed] at houtcome
  generalize (Session.perform _ q).1.program = p' at houtcome ⊢
  cases houtcome with
  | failed early => exact ⟨rfl, early⟩

def countdown : Builder where
  closed :=
    [[.movZ (.virtual .i64 0) { bits := 9 }, .jump (.block 1)],
      [.aluImm (.op .sub .w64) (.virtual .i64 0) (.virtual .i64 0) { bits := 1 },
        .branch (.block 1) (.block 2) (.notZero (.virtual .i64 0))]]
  current := some [.ret]

/-- Requests of which the first, the third and the fifth fail. -/
def detours : List Request :=
  [.emit, .reorder [0, 2, 1], .reorder [1, 0, 2], .allocate, .allocate, .reorderFallthrough,
    .lowerBranches, .resolveOffsets, .listOffsets Reg.text, .emit]

theorem performAll_invariant_countdown : ∃ p, countdown.build = .ok p ∧
    let after := performAll { program := p, buffer := {} } detours
    let s := after.1
    (Program.Tiles s.program.insts 0 s.program.blocks s.program.ranges ∧ s.program.Invariant) ∧
      (∃ later, after.2 ++ later ∈ Pass.schedule.matches') ∧
      ∀ q f, (s.perform q).2 = .error f →
        (s.perform q).1.program = s.program ∧
          (q.rewrites = true → s.program.approve q = .error f) := by
  have hbuild : ∃ p, countdown.build = .ok p := ⟨_, rfl⟩
  obtain ⟨p, hp⟩ := hbuild
  exact ⟨p, hp, performAll_invariant hp {} detours⟩

end Session

end Codegen
