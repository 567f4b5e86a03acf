import Codegen.Compile
import Codegen.Proofs.A64.Listing
import Codegen.Proofs.Program.Emission

/-!
Reports do not change the code. Whatever a configuration asks to be shown, compilation succeeds
exactly when the code can be assembled, and gives that code: every program that can be emitted can
also be listed, before and after its branches are resolved.
-/
namespace Codegen

open A64 (Inst Naming)

namespace Program

section Listing

variable (name : Naming)

theorem exists_instLines {insts : List Inst} (off : Option CodeOffset)
    (h : ∀ i ∈ insts, i.Shown) : ∃ lines, instLines name off insts = .ok lines := by
  induction insts generalizing off with
  | nil => exact ⟨_, rfl⟩
  | cons i insts ih =>
      obtain ⟨text, htext⟩ := h i List.mem_cons_self name
      obtain ⟨lines, hlines⟩ := ih (off.map (· + i.size)) fun j hj =>
        h j (List.mem_cons_of_mem i hj)
      simp only [instLines, htext, hlines, Checked.ok_bind]
      exact ⟨_, rfl⟩

theorem exists_blockLines {blocks : List Block} (n : Nat) (off : Option CodeOffset)
    (h : ∀ i ∈ blocks.flatMap (·.insts), i.Shown) :
    ∃ lines, blockLines name n off blocks = .ok lines := by
  induction blocks generalizing n off with
  | nil => exact ⟨_, rfl⟩
  | cons b blocks ih =>
      rw [List.flatMap_cons, List.forall_mem_append] at h
      obtain ⟨first, hfirst⟩ := exists_instLines name off h.1
      obtain ⟨rest, hrest⟩ := ih (n + 1) first.2 h.2
      simp only [blockLines, hfirst, hrest, Checked.ok_bind]
      exact ⟨_, rfl⟩

end Listing

section Emitted

variable {p : Program} {buffer out : CodeBuffer} {pool : ConstantPool}
  (h : p.emit buffer = (.ok pool, out))

include h

theorem emit_of_mem {i : Inst} (hi : i ∈ p.insts) : ∃ s t, i.emit.exec s = (.ok (), t) := by
  obtain ⟨u, hencoded, _⟩ := encoded_of_emit h
  obtain ⟨n, hn⟩ := List.getElem?_of_mem hi
  obtain ⟨s, t, _, hemit, _⟩ := emitted_at hencoded hn
  exact ⟨s, t, hemit⟩

theorem shown_of_emit : ∀ i ∈ p.insts, i.Shown := by
  intro i hi
  obtain ⟨s, t, hemit⟩ := emit_of_mem h hi
  exact Inst.shown_of_emit hemit

theorem exists_text (name : Naming) : ∃ text, p.text name = .ok text :=
  exists_blockLines name 0 none (shown_of_emit h)

theorem exists_textWithOffsets (name : Naming) : ∃ text, p.textWithOffsets name = .ok text := by
  obtain ⟨lines, hlines⟩ := exists_blockLines name 0 (some 0) (shown_of_emit h)
  cases hrequire : p.require .emit with
  | error f =>
      simp only [emit, hrequire] at h
      cases h
  | ok u =>
      -- offsets are shown at the stage at which code is emitted
      have hstage := require_eq_ok.mp hrequire
      have hoffsets : p.require .listOffsets = .ok () := require_eq_ok.mpr hstage
      exact ⟨lines, by simp only [textWithOffsets, hoffsets, hlines, Checked.ok_bind]⟩

end Emitted

section Settled

variable {offsets : List CodeOffset}

theorem shown_of_settleInsts {off : CodeOffset} {insts : List Inst}
    (h : ∀ i ∈ settleInsts offsets off insts, i.Shown) : ∀ i ∈ insts, i.Shown := by
  induction insts generalizing off with
  | nil => intro i hi; cases hi
  | cons j insts ih =>
      rw [settleInsts, List.forall_mem_cons] at h
      rw [List.forall_mem_cons]
      exact ⟨Inst.shown_of_settle h.1, ih h.2⟩

theorem shown_of_settleBlocks {off : CodeOffset} {blocks : List Block}
    (h : ∀ i ∈ (settleBlocks offsets off blocks).flatMap (·.insts), i.Shown) :
    ∀ i ∈ blocks.flatMap (·.insts), i.Shown := by
  induction blocks generalizing off with
  | nil => intro i hi; cases hi
  | cons b blocks ih =>
      rw [settleBlocks, List.flatMap_cons, List.forall_mem_append] at h
      rw [List.flatMap_cons, List.forall_mem_append]
      exact ⟨shown_of_settleInsts h.1, ih h.2⟩

end Settled

end Program

/-- What is compiled, without the reports about it. -/
structure Assembled where
  code : List UInt8
  codeSize : CodeOffset
  records : Records
  deriving DecidableEq, Repr

def Compiled.assembled (c : Compiled) : Assembled where
  code := c.code
  codeSize := c.codeSize
  records := c.records

namespace Program

def assemble (p : Program) : Checked Assembled :=
  (p.settled.emit {}).1.map fun _ =>
    { code := (p.settled.emit {}).2.bytes.toList
      codeSize := p.settled.codeSize
      records := (p.settled.emit {}).2.records }

/-- The passes that run after branches are lowered, with the reports that the configuration asks
for. -/
def finish (cfg : Config) (name : String) (p : Program) : Checked Compiled := do
  let listing ← if cfg.listing then p.text A64.registers.name else pure ""
  let p ← p.resolveOffsets
  let (pool, buffer) := p.emit {}
  let _ ← pool
  let disassembly ← if cfg.disassembly then disassemble p buffer.records else pure ""
  if cfg.executable then refuse .notExecutable
  return {
    name
    code := buffer.bytes.toList
    codeSize := p.codeSize
    records := buffer.records
    listing
    disassembly
    passes := if cfg.passes then passNames cfg.order else [] }

def laidOut (order : BlockOrder) (p : Program) : Checked Program := do
  let p ← if order = .fallthrough then p.reorder p.fallthroughOrder else pure p
  p.lowerBranches

theorem invariant_of_laidOut {order : BlockOrder} {p q : Program} (hp : p.Invariant)
    (hstage : p.stage = .allocated) (h : p.laidOut order = .ok q) :
    q.Invariant ∧ q.stage = .lowered := by
  have hlower : ∀ {r : Program}, r.Invariant → r.stage = .allocated → r.lowerBranches = .ok q →
      q.Invariant ∧ q.stage = .lowered := by
    intro r hr hallocated h
    rw [lowerBranches_eq, Checked.map_eq_ok] at h
    obtain ⟨⟨⟩, _, rfl⟩ := h
    exact ⟨hr.lower hallocated, rfl⟩
  unfold laidOut at h
  dsimp only at h
  split at h
  · obtain ⟨r, hr, h⟩ := Checked.bind_eq_ok.mp h
    rw [hp.reorder_eq, Checked.map_eq_ok] at hr
    obtain ⟨⟨⟩, happroved, rfl⟩ := hr
    exact hlower (hp.arranged happroved) hstage h
  · exact hlower hp hstage h

theorem finish_assembled {cfg : Config} {p : Program} (name : String) (hp : p.Invariant)
    (hstage : p.stage = .lowered) (hexecutable : cfg.executable = false) :
    ((finish cfg name p).map Compiled.assembled).toOption = p.assemble.toOption := by
  have hrequire : p.require .resolveOffsets = .ok () :=
    Program.require_eq_ok.mpr (by rw [hstage]; decide)
  have hresolve : p.resolveOffsets = .ok p.settled := by
    rw [hp.resolveOffsets_eq, hrequire]
    rfl
  simp only [finish, hresolve, hexecutable, Checked.ok_bind, Bool.false_eq_true, if_false]
  cases hemit : p.settled.emit {} with
  | mk result buffer =>
      cases result with
      | error f =>
          -- the listing comes before emission, and nothing is compiled whether it fails or not
          simp only [assemble, hemit]
          cases cfg.listing with
          | false => rfl
          | true =>
              cases p.text A64.registers.name with
              | error f => rfl
              | ok text => rfl
      | ok pool =>
          have hshown : ∀ i ∈ p.insts, i.Shown := shown_of_settleBlocks (shown_of_emit hemit)
          obtain ⟨listing, hlisting⟩ := exists_blockLines A64.registers.name 0 none hshown
          obtain ⟨offsets, hoffsets⟩ := exists_textWithOffsets hemit A64.registers.name
          have htext : p.text A64.registers.name = .ok listing := hlisting
          simp only [assemble, hemit, htext, disassemble, hoffsets, Checked.ok_bind]
          cases cfg.listing with
          | false =>
              cases cfg.disassembly with
              | false => rfl
              | true => rfl
          | true =>
              cases cfg.disassembly with
              | false => rfl
              | true => rfl

end Program

namespace Routine

def lowered (order : BlockOrder) (f : Routine) : Checked Program := do
  let p ← f.build
  let p ← p.allocate
  p.laidOut order

theorem compilePasses_eq (cfg : Config) (f : Routine) :
    compilePasses cfg f = f.lowered cfg.order >>= Program.finish cfg f.name := by
  unfold compilePasses lowered Program.laidOut
  by_cases horder : cfg.order = .fallthrough
  · simp only [if_pos horder, bind_assoc]
    rfl
  · simp only [if_neg horder, bind_assoc, pure_bind]
    rfl

theorem invariant_of_lowered {order : BlockOrder} {f : Routine} {p : Program}
    (h : f.lowered order = .ok p) : p.Invariant ∧ p.stage = .lowered := by
  obtain ⟨built, hbuilt, h⟩ := Checked.bind_eq_ok.mp h
  obtain ⟨builder, _, hbuilt⟩ := Checked.bind_eq_ok.mp hbuilt
  obtain ⟨allocated, hallocated, h⟩ := Checked.bind_eq_ok.mp h
  rw [Program.allocate_eq, Checked.map_eq_ok] at hallocated
  obtain ⟨result, hresult, rfl⟩ := hallocated
  exact Program.invariant_of_laidOut ((Program.Invariant.of_build hbuilt).renamed hresult) rfl h

end Routine

/-- The code of a function, whatever is reported about it. -/
def assemble (order : BlockOrder) (f : Routine) : Checked Assembled := do
  (← f.lowered order).assemble

theorem compile_assembled (cfg : Config) (f : Routine) (hisa : cfg.isa = A64.targetName)
    (hexecutable : cfg.executable = false) :
    ((compile cfg f).map Compiled.assembled).toOption = (assemble cfg.order f).toOption := by
  have hpasses : ((compilePasses cfg f).map Compiled.assembled).toOption =
      (assemble cfg.order f).toOption := by
    rw [Routine.compilePasses_eq, assemble]
    cases hlowered : f.lowered cfg.order with
    | error e => rfl
    | ok p =>
        obtain ⟨hp, hstage⟩ := Routine.invariant_of_lowered hlowered
        exact Program.finish_assembled f.name hp hstage hexecutable
  rw [← hpasses, compile, hisa, if_neg (by decide), if_pos rfl]
  cases compilePasses cfg f with
  | error e => rfl
  | ok c => rfl

theorem exists_compile (cfg : Config) {f : Routine} {a : Assembled}
    (hisa : cfg.isa = A64.targetName) (hexecutable : cfg.executable = false)
    (h : assemble cfg.order f = .ok a) :
    ∃ c, compile cfg f = .ok c ∧ c.assembled = a := by
  have hsame := compile_assembled cfg f hisa hexecutable
  rw [h] at hsame
  cases hc : compile cfg f with
  | error e =>
      rw [hc] at hsame
      cases hsame
  | ok c =>
      rw [hc] at hsame
      exact ⟨c, rfl, Option.some.inj hsame⟩

section Evaluation

open Allocation

/-- Allocation without sorting: the intervals come in the order of their registers. -/
def Allocation.allocateUnsorted (u : Universe) (g : Graph) (entries : List RegSet) :
    Checked Result :=
  let hulls := hulls (occurrences u g entries)
  scan u (g.insts.filterMap (·.move)) (fixedHulls hulls) (hulls.filter (·.reg.isVirtual)) g

namespace Routine

variable (f : Routine)

def built : Program := f.build.toOption.getD { blocks := [] }

def flow : Graph := f.built.graph.toOption.getD []

def live : List RegSet := (liveness A64.registers f.flow).toOption.getD []

/-- The function can be built, and the intervals of its registers are in order already. -/
def InOrder : Prop :=
  f.build = .ok f.built ∧ f.built.graph = .ok f.flow ∧
    liveness A64.registers f.flow = .ok f.live ∧
    ((hulls (occurrences A64.registers f.flow f.live)).filter (·.reg.isVirtual)).Pairwise
      fun a b => a.span.first ≤ b.span.first

instance : Decidable f.InOrder := inferInstanceAs (Decidable (_ ∧ _))

def assembleUnsorted (order : BlockOrder) : Checked Assembled := do
  let result ← allocateUnsorted A64.registers f.flow f.live
  (← (f.built.renamed result).laidOut order).assemble

variable {f}

/-- Sorting is by well-founded recursion, which does not evaluate. Where nothing is left to sort,
code is found by evaluation without it. -/
theorem assemble_of_unsorted {order : BlockOrder} {a : Assembled} (hf : f.InOrder)
    (h : f.assembleUnsorted order = .ok a) : assemble order f = .ok a := by
  obtain ⟨hbuild, hgraph, hlive, hsorted⟩ := hf
  obtain ⟨result, hresult, h⟩ := Checked.bind_eq_ok.mp h
  have hintervals : intervals (hulls (occurrences A64.registers f.flow f.live)) =
      (hulls (occurrences A64.registers f.flow f.live)).filter (·.reg.isVirtual) :=
    List.mergeSort_of_pairwise (hsorted.imp fun h => decide_eq_true h)
  have hallocated : Allocation.allocate A64.registers f.flow = .ok result := by
    simp only [Allocation.allocate, hlive, Checked.ok_bind, hintervals]
    exact hresult
  have hstage : f.built.require .allocate = .ok () := by
    obtain ⟨builder, _, hbuilt⟩ := Checked.bind_eq_ok.mp hbuild
    exact Program.require_eq_ok.mpr (by rw [(Builder.build_eq_ok hbuilt).1]; decide)
  have hallocate : f.built.allocate = .ok (f.built.renamed result) := by
    rw [Program.allocate_eq, Program.assignment_eq_ok.mpr ⟨hstage, f.flow, hgraph, hallocated⟩]
    rfl
  simp only [assemble, lowered, hbuild, hallocate, Checked.ok_bind]
  exact h

end Routine

end Evaluation

/-- Compilation with any reports succeeds exactly when compilation with any other reports does, with
the same code, code size and records; and what is emitted can be shown. -/
theorem compile_reports (cfg other : Config) (f : Routine) (hisa : cfg.isa = A64.targetName)
    (hexecutable : cfg.executable = false)
    (hother : other = { cfg with
      listing := other.listing, disassembly := other.disassembly, passes := other.passes }) :
    ((∃ c, compile cfg f = .ok c) ↔ ∃ c, compile other f = .ok c) ∧
      (∀ c d, compile cfg f = .ok c → compile other f = .ok d →
        c.code = d.code ∧ c.codeSize = d.codeSize ∧ c.records = d.records) ∧
      ∀ (p : Program) buffer pool out, p.emit buffer = (.ok pool, out) →
        ∀ name, (∃ text, p.text name = .ok text) ∧ (∃ text, p.textWithOffsets name = .ok text) ∧
          ∀ i ∈ p.insts, ∀ sink, ∃ shown, i.textWith name sink = .ok shown := by
  have hsame : ((compile cfg f).map Compiled.assembled).toOption =
      ((compile other f).map Compiled.assembled).toOption := by
    rw [compile_assembled cfg f hisa hexecutable,
      compile_assembled other f (by rw [hother]; exact hisa) (by rw [hother]; exact hexecutable),
      hother]
  refine ⟨?_, ?_, ?_⟩
  · cases hcfg : compile cfg f with
    | error e =>
        cases hcompiled : compile other f with
        | error e' => simp
        | ok d =>
            rw [hcfg, hcompiled] at hsame
            cases hsame
    | ok c =>
        cases hcompiled : compile other f with
        | error e' =>
            rw [hcfg, hcompiled] at hsame
            cases hsame
        | ok d => simp
  · intro c d hc hd
    rw [hc, hd] at hsame
    have hassembled : c.assembled = d.assembled := Option.some.inj hsame
    simpa only [Compiled.assembled, Assembled.mk.injEq] using hassembled
  · intro p buffer pool out hemit name
    refine ⟨Program.exists_text hemit name, Program.exists_textWithOffsets hemit name, ?_⟩
    intro i hi sink
    obtain ⟨s, t, hi⟩ := Program.emit_of_mem hemit hi
    exact Inst.exists_textWith hi name sink

def lookup : Routine where
  name := "lookup"
  steps := Routine.ofBlocks [
    [.load .u32 (.virtual .i64 0) (.direct (.indexScaled (A64.gpr 0) (A64.gpr 1) .i32)),
      .mov (A64.gpr 0) (.virtual .i64 0), .ret]]

theorem assemble_lookup : assemble .fallthrough lookup =
    .ok ⟨wordBytes [0xb8617801, 0xaa0103e0, 0xd65f03c0], 12, {}⟩ := by
  apply Routine.assemble_of_unsorted
  · decide +kernel
  · decide +kernel

def reporting : Config :=
  { isa := A64.targetName, listing := true, disassembly := true, passes := true }

theorem compile_reports_lookup : ∃ c d, compile { isa := A64.targetName } lookup = .ok c ∧
    compile reporting lookup = .ok d ∧
    c.code = wordBytes [0xb8617801, 0xaa0103e0, 0xd65f03c0] ∧
    c.code = d.code ∧ c.codeSize = d.codeSize ∧ c.records = d.records := by
  obtain ⟨hsucceeds, hsame, _⟩ :=
    compile_reports { isa := A64.targetName } reporting lookup rfl rfl rfl
  obtain ⟨c, hc, hassembled⟩ := exists_compile { isa := A64.targetName } rfl rfl assemble_lookup
  obtain ⟨d, hd⟩ := hsucceeds.mp ⟨c, hc⟩
  exact ⟨c, d, hc, hd, congrArg Assembled.code hassembled, hsame c d hc hd⟩

end Codegen
