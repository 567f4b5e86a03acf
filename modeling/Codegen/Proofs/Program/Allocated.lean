import Codegen.Proofs.A64.Replacement
import Codegen.Proofs.Allocation.Pressure
import Codegen.Proofs.Allocation.Simulation
import Codegen.Proofs.Program.Rewriting

/-!
What allocation leaves behind in the instructions of a program.

The registers that it lists as clobbered are computed from the operands before they are replaced,
through the assignment and by index; they are the ones that the replaced instructions write. And
operands that one instruction reads together, or writes together, are still different registers
afterwards, since they are live at one position. In one class they differ by their numbers as well;
a general register and a vector register may share theirs.
-/
namespace Codegen

open A64 (Inst hwEnc)

namespace Allocation

variable {u : Universe} {g : Graph} {result : Result}

section Clobbered

theorem clobbers_of_allocate (h : allocate u g = .ok result) :
    clobbers u result.assignment g = .ok result.clobbered := by
  obtain ⟨entries, _, h⟩ := Checked.bind_eq_ok.mp h
  obtain ⟨assigned, _, h⟩ := Checked.bind_eq_ok.mp h
  obtain ⟨⟨⟩, _, h⟩ := Checked.bind_eq_ok.mp h
  obtain ⟨clobbered, hclobbers, h⟩ := Checked.bind_eq_ok.mp h
  cases h
  exact hclobbers

theorem mem_written {m : RegMap} {r : Reg} :
    r ∈ written m g ↔ ∃ i ∈ g.insts, ∃ s ∈ i.writes, m.apply s = .ok r := by
  have happly : ∀ s : Reg,
      (if s.isPhysical = true then some s else m.get? s) = some r ↔ m.apply s = .ok r := by
    intro s
    unfold RegMap.apply
    cases s.isPhysical with
    | true => simp
    | false =>
        cases m.get? s with
        | none => simp
        | some p => simp
  simp only [written, List.mem_flatMap, List.mem_filterMap, happly]

variable (hcheck : u.check = .ok ()) {m : RegMap} {rs : List Reg}

include hcheck

/-- Registers of the table are told apart by their index, so nothing is lost by marking indices. -/
theorem mem_clobbers (hrs : clobbers u m g = .ok rs) (hknown : ∀ r ∈ written m g, u.Known r)
    {r : Reg} : r ∈ rs ↔ u.isAllocable r = true ∧ r ∈ written m g := by
  rw [clobbers_eq hcheck] at hrs
  cases hrs
  simp only [List.mem_filter, List.contains_iff_mem, List.mem_map]
  constructor
  · rintro ⟨⟨info, hinfo, rfl⟩, s, ⟨hs, hallocable⟩, hindex⟩
    have heq : s = info.reg :=
      Universe.eq_of_index_eq hcheck (hknown s hs)
        (List.mem_map_of_mem (List.mem_of_mem_take hinfo)) (UInt32.toNat_inj.mp hindex)
    rw [← heq]
    exact ⟨hallocable, hs⟩
  · rintro ⟨hallocable, hr⟩
    exact ⟨Universe.handedOut_of_known hcheck (hknown r hr) hallocable, r, ⟨hr, hallocable⟩, rfl⟩

theorem pairwise_clobbers (hrs : clobbers u m g = .ok rs) :
    rs.Pairwise fun r s => r.index < s.index := by
  rw [clobbers_eq hcheck] at hrs
  cases hrs
  refine List.Pairwise.filter _ (List.pairwise_map.mpr ?_)
  refine List.Pairwise.sublist (List.take_sublist _ _) (List.pairwise_iff_getElem.mpr ?_)
  intro i j hi hj hij
  have hfirst := Universe.index_of_check hcheck (List.getElem?_eq_getElem hi)
  have hsecond := Universe.index_of_check hcheck (List.getElem?_eq_getElem hj)
  exact UInt32.lt_iff_toNat_lt.mpr (by omega)

end Clobbered

/-- Registers that one instruction reads share its read position, and those that it writes share its
write position. -/
theorem standIn_ne_of_mem (h : allocate u g = .ok result) {i : Operands} (hi : i ∈ g.insts)
    {r s : Reg} (hne : r ≠ s)
    (hmem : r ∈ i.reads ∧ s ∈ i.reads ∨ r ∈ i.writes ∧ s ∈ i.writes) :
    result.assignment.standIn r ≠ result.assignment.standIn s := by
  obtain ⟨entries, assigned, hlive, hscan, hresult⟩ := allocate_eq_ok h
  have hlen := liveness_length hlive
  obtain ⟨b, hb, hib⟩ := List.mem_flatMap.mp hi
  obtain ⟨n, hn⟩ := List.mem_iff_getElem?.mp hb
  obtain ⟨k, hk⟩ := List.mem_iff_getElem?.mp hib
  rw [hresult]
  rcases hmem with ⟨hr, hs⟩ | ⟨hr, hs⟩
  · exact standIn_ne hscan (covers_of_read hlen hn hk hr) (covers_of_read hlen hn hk hs) hne
  · exact standIn_ne hscan (covers_of_write hlen hn hk hr) (covers_of_write hlen hn hk hs) hne

end Allocation

namespace A64.Inst

theorem mem_writes_rename {i : Inst} {o : Occurrences} {f : Reg → Reg} {us us' : Uses} {r : Reg}
    (ho : i.occurrences = .ok o) (hf : (i.rename f).occurrences = .ok (o.map f))
    (hus : i.uses = .ok us) (hus' : (i.rename f).uses = .ok us') :
    r ∈ us'.writes ↔ ∃ s ∈ us.writes, f s = r := by
  obtain ⟨o₁, ho₁, rfl⟩ := uses_eq_ok.mp hus
  obtain ⟨o₂, ho₂, rfl⟩ := uses_eq_ok.mp hus'
  cases ho.symm.trans ho₁
  cases hf.symm.trans ho₂
  rw [(accounts_normalize _).writes]
  simp only [(accounts_normalize o).writes, Occurrences.map, List.mem_map, or_and_right, exists_or]

/-- The two targets of a load of a pair. -/
def pairTargets : Inst → List (Reg × Reg)
  | loadPair rd rd2 _ => [(rd, rd2)]
  | _ => []

/-- A data register and a base that is written back. -/
def writtenBack : Inst → List (Reg × Reg)
  | load _ rt (.direct (.preIndexed rn _)) | load _ rt (.direct (.postIndexed rn _))
  | store _ rt (.direct (.preIndexed rn _)) | store _ rt (.direct (.postIndexed rn _)) => [(rt, rn)]
  | storePair rt rt2 (.access .preIndexed rn _) | storePair rt rt2 (.access .postIndexed rn _)
  | loadPair rt rt2 (.access .preIndexed rn _) | loadPair rt rt2 (.access .postIndexed rn _) =>
    [(rt, rn), (rt2, rn)]
  | _ => []

/-- The registers have one number in an encoding. A word tells the number alone: the word of an
access has general registers, whatever the class of its operands. -/
def SameNumber (r s : Reg) : Prop :=
  r = s ∨ ∃ n, hwEnc r = .ok n ∧ hwEnc s = .ok n

/-- The architecture does not say what the access does: a pair is loaded into one register, or a
data register is also the base that is written back, unless the base is the stack pointer. -/
inductive Unpredictable (i : Inst) : Prop where
  | pair {r s : Reg} : (r, s) ∈ i.pairTargets → SameNumber r s → Unpredictable i
  | base {t n : Reg} : (t, n) ∈ i.writtenBack → SameNumber t n → hwEnc n ≠ .ok 31 →
      Unpredictable i

theorem isPhysical_of_hwEnc {r : Reg} {n : Nat} (h : hwEnc r = .ok n) : r.isPhysical = true := by
  cases r with
  | virtual c k => cases h
  | physical c e k => rfl

theorem pairTargets_rename (f : Reg → Reg) (i : Inst) :
    (i.rename f).pairTargets = i.pairTargets.map (Prod.map f f) := by
  cases i with
  | _ => rfl

theorem writtenBack_rename (f : Reg → Reg) (i : Inst) :
    (i.rename f).writtenBack = i.writtenBack.map (Prod.map f f) := by
  cases i with
  | load op rt mem | store op rt mem =>
      cases mem with
      | direct a =>
          cases a with
          | _ => rfl
      | _ => rfl
  | storePair rt rt2 mem | loadPair rt rt2 mem =>
      cases mem with
      | unset => rfl
      | access mode rn imm =>
          cases mode with
          | _ => rfl
  | _ => rfl

section Together

variable {i : Inst} {o : Occurrences} {r s : Reg}

theorem defined_of_pairTargets (ho : i.occurrences = .ok o) (h : (r, s) ∈ i.pairTargets) :
    r ∈ o.defined ∧ s ∈ o.defined := by
  cases i with
  | loadPair rd rd2 mem =>
      obtain ⟨⟨used, modified⟩, _, ho⟩ := Checked.bind_eq_ok.mp ho
      cases ho
      cases List.mem_singleton.mp h
      exact ⟨List.mem_cons_self, List.mem_cons_of_mem _ List.mem_cons_self⟩
  | _ => cases h

/-- A base that is written back is modified, and the data registers are used or defined with it. -/
theorem modified_of_writtenBack (ho : i.occurrences = .ok o) (h : (r, s) ∈ i.writtenBack) :
    (r ∈ o.used ∨ r ∈ o.defined) ∧ s ∈ o.modified := by
  cases i with
  | load op rt mem | store op rt mem =>
      cases mem with
      | direct a =>
          cases a with
          | preIndexed rn imm | postIndexed rn imm =>
              cases ho
              cases List.mem_singleton.mp h
              simp
          | _ => cases h
      | _ => cases h
  | storePair rt rt2 mem | loadPair rt rt2 mem =>
      cases mem with
      | unset => cases h
      | access mode rn imm =>
          cases mode with
          | offset => cases h
          | preIndexed | postIndexed =>
              cases ho
              simp only [writtenBack, List.mem_cons, Prod.mk.injEq, List.not_mem_nil,
                or_false] at h
              rcases h with ⟨rfl, rfl⟩ | ⟨rfl, rfl⟩ <;> simp
  | _ => cases h

/-- Registers that an access wants apart are both read or both written. -/
theorem together_of_access (ho : i.occurrences = .ok o)
    (h : (r, s) ∈ i.pairTargets ++ i.writtenBack) :
    (r ∈ o.used ∨ r ∈ o.modified) ∧ (s ∈ o.used ∨ s ∈ o.modified) ∨
      (r ∈ o.defined ∨ r ∈ o.modified) ∧ (s ∈ o.defined ∨ s ∈ o.modified) := by
  rcases List.mem_append.mp h with h | h
  · obtain ⟨hr, hs⟩ := defined_of_pairTargets ho h
    exact .inr ⟨.inl hr, .inl hs⟩
  · obtain ⟨hr | hr, hs⟩ := modified_of_writtenBack ho h
    · exact .inl ⟨.inl hr, .inr hs⟩
    · exact .inr ⟨.inl hr, .inr hs⟩

theorem mem_all_of_access (ho : i.occurrences = .ok o)
    (h : (r, s) ∈ i.pairTargets ++ i.writtenBack) : r ∈ o.all ∧ s ∈ o.all := by
  simp only [Occurrences.all, List.mem_append]
  have htogether := together_of_access ho h
  tauto

end Together

/-- What a renaming keeps of an instruction: registers that it reads together or writes together
stay different, where a base that is written back counts as both, and no access becomes
unpredictable, unless by registers of two classes. -/
structure KeptApart (f : Reg → Reg) (i : Inst) : Prop where
  operands : ∃ us, i.uses = .ok us ∧
    (∀ t n, (t, n) ∈ i.writtenBack → n ∈ us.reads ∧ n ∈ us.writes) ∧
    ∀ r s, r ≠ s → (r ∈ us.reads ∧ s ∈ us.reads ∨ r ∈ us.writes ∧ s ∈ us.writes) → f r ≠ f s
  accesses : ∀ r s, (r, s) ∈ i.pairTargets ++ i.writtenBack → r ≠ s → f r ≠ f s
  predictable : (i.rename f).Unpredictable → i.Unpredictable ∨
    ∃ r s, (r, s) ∈ i.pairTargets ++ i.writtenBack ∧ r.cls ≠ s.cls ∧ SameNumber (f r) (f s)

end A64.Inst

namespace Program

variable {p q : Program}

theorem insts_renamed (p : Program) (result : Allocation.Result) :
    (p.renamed result).insts = p.insts.map (·.rename result.assignment.standIn) := by
  simp only [insts, renamed, List.flatMap_map, List.map_flatMap]

section Outcome

variable {g : Allocation.Graph} {result : Allocation.Result} (hg : p.graph = .ok g)
  (hresult : Allocation.allocate A64.registers g = .ok result)

include hg hresult

/-- The graph lists the registers that are written before they are replaced. -/
theorem mem_written_iff {r : Reg} : r ∈ Allocation.written result.assignment g ↔
    ∃ j ∈ (p.renamed result).insts, ∃ us, j.uses = .ok us ∧ r ∈ us.writes := by
  rw [Allocation.mem_written, insts_renamed]
  constructor
  · rintro ⟨operands, hmem, s, hs, happly⟩
    obtain ⟨i, hi, us, hus, rfl⟩ := exists_of_mem_graph hg hmem
    obtain ⟨o, ho, rfl⟩ := Inst.uses_eq_ok.mp hus
    obtain ⟨_, hrenamed⟩ := mapRegs_of_allocate hresult ho hmem
    have hus' := Inst.uses_eq_ok.mpr ⟨_, hrenamed, rfl⟩
    exact ⟨_, List.mem_map_of_mem hi, _, hus', (Inst.mem_writes_rename ho hrenamed hus hus').mpr
      ⟨s, hs, RegMap.standIn_of_apply happly⟩⟩
  · rintro ⟨j, hj, us', hus', hr⟩
    obtain ⟨i, hi, rfl⟩ := List.mem_map.mp hj
    obtain ⟨b, hb, hib⟩ := List.mem_flatMap.mp hi
    obtain ⟨us, hus, hmem⟩ := uses_of_graph hg hb hib
    obtain ⟨o, ho, rfl⟩ := Inst.uses_eq_ok.mp hus
    obtain ⟨_, hrenamed⟩ := mapRegs_of_allocate hresult ho hmem
    obtain ⟨s, hs, rfl⟩ := (Inst.mem_writes_rename ho hrenamed hus hus').mp hr
    exact ⟨_, hmem, s, hs, (apply_of_allocate hresult hmem (.inr hs)).1⟩

end Outcome

theorem check_registers : A64.registers.check = .ok () := by decide +kernel

/-- The clobbered registers are those that may be handed out and that an instruction of the
allocated program writes, in ascending order of their index. -/
theorem mem_clobbered_iff (hnative : ∀ i ∈ p.insts, i.Native) (h : p.allocate = .ok q) :
    (∀ r, r ∈ q.clobbered ↔ A64.registers.isAllocable r = true ∧
      ∃ j ∈ q.insts, ∃ us, j.uses = .ok us ∧ r ∈ us.writes) ∧
    q.clobbered.Pairwise (fun r s => r.index < s.index) ∧ q.clobbered.Nodup := by
  rw [allocate_eq, Checked.map_eq_ok] at h
  obtain ⟨result, hassignment, rfl⟩ := h
  obtain ⟨_, g, hg, hresult⟩ := assignment_eq_ok.mp hassignment
  have hclobbers := Allocation.clobbers_of_allocate hresult
  have hascending := Allocation.pairwise_clobbers check_registers hclobbers
  have hknown : ∀ r ∈ Allocation.written result.assignment g, A64.registers.Known r := by
    intro r hr
    obtain ⟨operands, hmem, s, hs, happly⟩ := Allocation.mem_written.mp hr
    obtain ⟨i, hi, us, hus, rfl⟩ := exists_of_mem_graph hg hmem
    obtain ⟨o, ho, rfl⟩ := Inst.uses_eq_ok.mp hus
    rw [← RegMap.standIn_of_apply happly]
    exact known_standIn hnative hg hresult hi ho (Inst.mem_uses_iff.mp (.inr hs))
  refine ⟨fun r => ?_, hascending, hascending.imp fun {r s} hlt heq => ?_⟩
  · rw [← mem_written_iff hg hresult]
    exact Allocation.mem_clobbers check_registers hclobbers hknown
  · rw [heq] at hlt
    exact UInt32.lt_irrefl _ hlt

/-- Two numbers are popped from one place and their sum is pushed to another. -/
def poppedSum : Program where
  blocks :=
    [{ insts :=
        [.mov (.virtual .i64 0) (A64.gpr 0),
         .loadPair (.virtual .i64 1) (.virtual .i64 2)
           (.access .postIndexed (A64.gpr 1) ⟨16, .i64⟩),
         .alu (.op .add .w64) (.virtual .i64 3) (.virtual .i64 1) (.virtual .i64 2),
         .store .b64 (.virtual .i64 3) (.direct (.preIndexed (.virtual .i64 0) ⟨8⟩)),
         .ret]
       succs := [] }]

/-- The sum takes the register of the place that is no longer read. -/
def poppedSumRegs : Allocation.Result where
  assignment :=
    { entries := [(.virtual .i64 0, A64.gpr 0), (.virtual .i64 1, A64.gpr 2),
        (.virtual .i64 2, A64.gpr 3), (.virtual .i64 3, A64.gpr 1)] }
  clobbered := [A64.gpr 0, A64.gpr 1, A64.gpr 2, A64.gpr 3]

theorem assignment_poppedSum : poppedSum.assignment = .ok poppedSumRegs := by
  rw [assignment_eq_ok]
  refine ⟨rfl, poppedSum.graph.toOption.getD [], by decide +kernel, ?_⟩
  have hlive : Allocation.liveness A64.registers (poppedSum.graph.toOption.getD []) =
      .ok [.ofList [A64.gpr 0, A64.gpr 1]] := by decide +kernel
  simp only [Allocation.allocate, hlive, Checked.ok_bind]
  rw [Allocation.intervals, List.mergeSort_of_pairwise (by decide +kernel)]
  decide +kernel

theorem allocate_poppedSum : poppedSum.allocate = .ok (poppedSum.renamed poppedSumRegs) := by
  rw [allocate_eq, assignment_poppedSum]
  rfl

theorem mem_clobbered_iff_poppedSum :
    (∀ i ∈ poppedSum.insts, i.Native) ∧
    poppedSum.allocate = .ok (poppedSum.renamed poppedSumRegs) ∧
    (∀ r, r ∈ [A64.gpr 0, A64.gpr 1, A64.gpr 2, A64.gpr 3] ↔
      A64.registers.isAllocable r = true ∧
        ∃ j ∈ (poppedSum.renamed poppedSumRegs).insts, ∃ us, j.uses = .ok us ∧ r ∈ us.writes) := by
  have hnative : ∀ i ∈ poppedSum.insts, i.Native := by decide +kernel
  exact ⟨hnative, allocate_poppedSum, (mem_clobbered_iff hnative allocate_poppedSum).1⟩

/-- A register that may be handed out is told apart from the others of its class by its number. -/
theorem eq_of_hwEnc_eq {r s : Reg} (hr : A64.registers.Known r) (hs : A64.registers.Known s)
    (hallocable : A64.registers.isAllocable r = true) (hcls : r.cls = s.cls)
    (heq : hwEnc r = hwEnc s) : r = s := by
  have hall : ∀ r ∈ A64.registers.regs.map (·.reg), ∀ s ∈ A64.registers.regs.map (·.reg),
      A64.registers.isAllocable r = true → r.cls = s.cls → hwEnc r = hwEnc s → r = s := by
    decide +kernel
  exact hall r hr s hs hallocable hcls heq

section Apart

variable {g : Allocation.Graph} {result : Allocation.Result} (hg : p.graph = .ok g)
  (hresult : Allocation.allocate A64.registers g = .ok result)
  {i : Inst} (hi : i ∈ p.insts) {o : Inst.Occurrences} (ho : i.occurrences = .ok o) {r s : Reg}

include hg hresult hi ho

/-- A virtual register is replaced by one of its class that may be handed out. -/
theorem standIn_of_virtual (hr : r ∈ o.all) (hv : r.isVirtual = true) :
    (result.assignment.standIn r).cls = r.cls ∧
      A64.registers.isAllocable (result.assignment.standIn r) = true := by
  obtain ⟨b, hb, hib⟩ := List.mem_flatMap.mp hi
  obtain ⟨us, hus, hmem⟩ := uses_of_graph hg hb hib
  obtain ⟨o', ho', rfl⟩ := Inst.uses_eq_ok.mp hus
  cases ho.symm.trans ho'
  obtain ⟨phys, hget, hcls, hallocable⟩ :=
    Allocation.exists_get? hresult hmem (Inst.mem_uses_iff.mpr hr) hv
  rw [RegMap.standIn_of_get? hv hget]
  exact ⟨hcls, hallocable⟩

theorem cls_standIn (hr : r ∈ o.all) : (result.assignment.standIn r).cls = r.cls := by
  cases hv : r.isVirtual with
  | true => exact (standIn_of_virtual hg hresult hi ho hr hv).1
  | false =>
      have hphysical : r.isPhysical = true := by simp only [Reg.isPhysical, hv, Bool.not_false]
      rw [RegMap.standIn_of_physical _ hphysical]

/-- Different registers of one class that share their number were physical all along. -/
theorem isPhysical_of_sameNumber (hnative : ∀ i ∈ p.insts, i.Native) (hr : r ∈ o.all)
    (hs : s ∈ o.all) (hcls : r.cls = s.cls)
    (hne : result.assignment.standIn r ≠ result.assignment.standIn s)
    (h : Inst.SameNumber (result.assignment.standIn r) (result.assignment.standIn s)) :
    r.isPhysical = true ∧ s.isPhysical = true := by
  have hknown := known_standIn hnative hg hresult hi ho hr
  have hknown' := known_standIn hnative hg hresult hi ho hs
  have hsame : (result.assignment.standIn r).cls = (result.assignment.standIn s).cls := by
    rw [cls_standIn hg hresult hi ho hr, cls_standIn hg hresult hi ho hs, hcls]
  rcases h with heq | ⟨n, hn, hn'⟩
  · exact absurd heq hne
  constructor
  · cases hv : r.isVirtual with
    | false => simp only [Reg.isPhysical, hv, Bool.not_false]
    | true =>
        have hallocable := (standIn_of_virtual hg hresult hi ho hr hv).2
        exact absurd (eq_of_hwEnc_eq hknown hknown' hallocable hsame (hn.trans hn'.symm)) hne
  · cases hv : s.isVirtual with
    | false => simp only [Reg.isPhysical, hv, Bool.not_false]
    | true =>
        have hallocable := (standIn_of_virtual hg hresult hi ho hs hv).2
        exact absurd (eq_of_hwEnc_eq hknown' hknown hallocable hsame.symm
          (hn'.trans hn.symm)).symm hne

end Apart

/-- In the allocated program every instruction has its operands apart as it had them before. Only
registers of two classes are given one number. -/
theorem allocate_keepsApart (hnative : ∀ i ∈ p.insts, i.Native) (h : p.allocate = .ok q) :
    ∃ result, p.assignment = .ok result ∧ q = p.renamed result ∧
      ∀ i ∈ p.insts, i.KeptApart result.assignment.standIn := by
  rw [allocate_eq, Checked.map_eq_ok] at h
  obtain ⟨result, hassignment, rfl⟩ := h
  obtain ⟨_, g, hg, hresult⟩ := assignment_eq_ok.mp hassignment
  refine ⟨result, hassignment, rfl, fun i hi => ?_⟩
  obtain ⟨b, hb, hib⟩ := List.mem_flatMap.mp hi
  obtain ⟨us, hus, hmem⟩ := uses_of_graph hg hb hib
  obtain ⟨o, ho, rfl⟩ := Inst.uses_eq_ok.mp hus
  have haccounts := Inst.accounts_normalize o
  have haccesses : ∀ r s, (r, s) ∈ i.pairTargets ++ i.writtenBack → r ≠ s →
      result.assignment.standIn r ≠ result.assignment.standIn s := by
    intro r s hrs hne
    refine Allocation.standIn_ne_of_mem hresult hmem hne ?_
    simp only [Allocation.Operands.ofUses, haccounts.reads, haccounts.writes]
    exact Inst.together_of_access ho hrs
  -- a clash in one class after allocation is between registers that allocation did not touch
  have hclash : ∀ r s, (r, s) ∈ i.pairTargets ++ i.writtenBack → r.cls = s.cls →
      Inst.SameNumber (result.assignment.standIn r) (result.assignment.standIn s) →
      Inst.SameNumber r s := by
    intro r s hrs hcls hsame
    by_cases hne : r = s
    · exact .inl hne
    · obtain ⟨hr, hs⟩ := Inst.mem_all_of_access ho hrs
      obtain ⟨hpr, hps⟩ := isPhysical_of_sameNumber hg hresult hi ho hnative hr hs hcls
        (haccesses r s hrs hne) hsame
      rwa [RegMap.standIn_of_physical _ hpr, RegMap.standIn_of_physical _ hps] at hsame
  refine ⟨⟨_, hus, fun t n htn => ?_, fun r s hne htogether => ?_⟩, haccesses, fun hafter => ?_⟩
  · obtain ⟨_, hn⟩ := Inst.modified_of_writtenBack ho htn
    exact ⟨(haccounts.reads n).mpr (.inr hn), (haccounts.writes n).mpr (.inr hn)⟩
  · exact Allocation.standIn_ne_of_mem hresult hmem hne htogether
  · cases hafter with
    | pair hrs hsame =>
        rw [Inst.pairTargets_rename] at hrs
        obtain ⟨⟨r, s⟩, hbefore, heq⟩ := List.mem_map.mp hrs
        cases heq
        have haccess := List.mem_append_left i.writtenBack hbefore
        by_cases hcls : r.cls = s.cls
        · exact .inl (.pair hbefore (hclash r s haccess hcls hsame))
        · exact .inr ⟨r, s, haccess, hcls, hsame⟩
    | base htn hsame hstack =>
        rw [Inst.writtenBack_rename] at htn
        obtain ⟨⟨t, n⟩, hbefore, heq⟩ := List.mem_map.mp htn
        cases heq
        have haccess := List.mem_append_right i.pairTargets hbefore
        by_cases hcls : t.cls = n.cls
        · refine .inl (.base hbefore (hclash t n haccess hcls hsame) fun hn => hstack ?_)
          rw [RegMap.standIn_of_physical _ (Inst.isPhysical_of_hwEnc hn)]
          exact hn
        · exact .inr ⟨t, n, haccess, hcls, hsame⟩

theorem allocate_keepsApart_poppedSum :
    (∀ i ∈ poppedSum.insts, i.Native) ∧
    poppedSum.allocate = .ok (poppedSum.renamed poppedSumRegs) ∧
    ∀ i ∈ poppedSum.insts, i.KeptApart poppedSumRegs.assignment.standIn := by
  have hnative : ∀ i ∈ poppedSum.insts, i.Native := by decide +kernel
  refine ⟨hnative, allocate_poppedSum, ?_⟩
  obtain ⟨result, hassignment, _, hapart⟩ := allocate_keepsApart hnative allocate_poppedSum
  cases assignment_poppedSum.symm.trans hassignment
  exact hapart

/-- A pair is loaded into a general register and a vector register. -/
def mixedPair : Program where
  blocks :=
    [{ insts :=
        [.loadPair (.virtual .i64 0) (.virtual .v128 0) (.access .offset (A64.gpr 1) ⟨0, .i64⟩),
         .ret]
       succs := [] }]

def mixedPairRegs : Allocation.Result where
  assignment := { entries := [(.virtual .i64 0, A64.gpr 0), (.virtual .v128 0, A64.vec 0)] }
  clobbered := [A64.gpr 0, A64.vec 0]

theorem assignment_mixedPair : mixedPair.assignment = .ok mixedPairRegs := by
  rw [assignment_eq_ok]
  refine ⟨rfl, mixedPair.graph.toOption.getD [], by decide +kernel, ?_⟩
  have hlive : Allocation.liveness A64.registers (mixedPair.graph.toOption.getD []) =
      .ok [.ofList [A64.gpr 1]] := by decide +kernel
  simp only [Allocation.allocate, hlive, Checked.ok_bind]
  rw [Allocation.intervals, List.mergeSort_of_pairwise (by decide +kernel)]
  decide +kernel

/-- The word of `ldp x0, x0, [x1]`. -/
example (s : Emitter) : (Inst.loadPair (A64.gpr 0) (A64.vec 0)
    (.access .offset (A64.gpr 1) ⟨0, .i64⟩)).emit.exec s =
      (.ok (), { s with buffer := s.buffer.put (littleEndian 4 0xa9400020) }) := rfl

/-- Registers of two classes share their numbers, so that allocation makes an access
unpredictable. -/
theorem not_keepsPredictable_mixedPair : ¬ ∀ (p q : Program) (result : Allocation.Result),
    (∀ i ∈ p.insts, i.Native) → p.allocate = .ok q → p.assignment = .ok result →
      ∀ i ∈ p.insts, (i.rename result.assignment.standIn).Unpredictable → i.Unpredictable := by
  intro h
  have hnative : ∀ i ∈ mixedPair.insts, i.Native := by decide +kernel
  have hallocate : mixedPair.allocate = .ok (mixedPair.renamed mixedPairRegs) := by
    rw [allocate_eq, assignment_mixedPair]
    rfl
  have hafter : ((Inst.loadPair (.virtual .i64 0) (.virtual .v128 0)
      (.access .offset (A64.gpr 1) ⟨0, .i64⟩)).rename
        mixedPairRegs.assignment.standIn).Unpredictable :=
    .pair List.mem_cons_self (.inr ⟨0, rfl, rfl⟩)
  -- before allocation the two are virtual registers, which have no number
  cases h mixedPair _ _ hnative hallocate assignment_mixedPair _ List.mem_cons_self hafter with
  | pair hrs hsame =>
      cases List.mem_singleton.mp hrs
      obtain heq | ⟨n, hn, _⟩ := hsame
      · cases heq
      · cases hn
  | base htn => cases htn

end Program

end Codegen
