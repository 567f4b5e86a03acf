import Codegen.A64.Control
import Codegen.A64.Operands
import Codegen.Proofs.Checked

/-!
Replacing registers. On an instruction whose registers all have a replacement, `mapRegs` is the
plain renaming `rename`, which touches nothing but the registers: the register operands are renamed
one by one, and how the instruction ends a block and how large it is stay the same.
-/
namespace Codegen.A64

def Address.rename (f : Reg → Reg) : Address → Address
  | unset => unset
  | base rn => base (f rn)
  | unscaled rn imm => unscaled (f rn) imm
  | scaled rn imm => scaled (f rn) imm
  | index rn rm => index (f rn) (f rm)
  | indexScaled rn rm ty => indexScaled (f rn) (f rm) ty
  | indexExtended rn rm ty ext => indexExtended (f rn) (f rm) ty ext
  | literal off => literal off
  | preIndexed rn imm => preIndexed (f rn) imm
  | postIndexed rn imm => postIndexed (f rn) imm

def Mem.rename (f : Reg → Reg) : Mem → Mem
  | direct a => direct (a.rename f)
  | constant data => constant data
  | stack off => stack off

def PairMem.rename (f : Reg → Reg) : PairMem → PairMem
  | unset => unset
  | access mode rn imm => access mode (f rn) imm

def BranchCond.rename (f : Reg → Reg) : BranchCond → BranchCond
  | unset => unset
  | zero r => zero (f r)
  | notZero r => notZero (f r)
  | flag c => flag c

namespace Inst

def rename (f : Reg → Reg) : Inst → Inst
  | unset => unset
  | nop => nop
  | nop4 => nop4
  | alu op rd rn rm => alu op (f rd) (f rn) (f rm)
  | aluThree op rd rn rm ra => aluThree op (f rd) (f rn) (f rm) (f ra)
  | aluImm op rd rn imm => aluImm op (f rd) (f rn) imm
  | aluBitmask op rd rn imm => aluBitmask op (f rd) (f rn) imm
  | aluShift op rd rn imm => aluShift op (f rd) (f rn) imm
  | aluShifted op rd rn rm shift => aluShifted op (f rd) (f rn) (f rm) shift
  | aluExtended op rd rn rm ext => aluExtended op (f rd) (f rn) (f rm) ext
  | load op rd mem => load op (f rd) (mem.rename f)
  | store op rt mem => store op (f rt) (mem.rename f)
  | storePair rt rt2 mem => storePair (f rt) (f rt2) (mem.rename f)
  | loadPair rd rd2 mem => loadPair (f rd) (f rd2) (mem.rename f)
  | mov rd rm => mov (f rd) (f rm)
  | movZ rd imm => movZ (f rd) imm
  | movN rd imm => movN (f rd) imm
  | call callee stackmap => call callee stackmap
  | callReg rn => callReg (f rn)
  | ret => ret
  | jump t => jump t
  | branch t n cond => branch t n (cond.rename f)
  | branchTo t inverted cond => branchTo t inverted (cond.rename f)
  | branchElse t n cond => branchElse t n (cond.rename f)
  | udf trap => udf trap

namespace Occurrences

def all (o : Occurrences) : List Reg := o.used ++ o.defined ++ o.modified

def map (f : Reg → Reg) (o : Occurrences) : Occurrences :=
  { used := o.used.map f, defined := o.defined.map f, modified := o.modified.map f }

theorem mem_all_map {f : Reg → Reg} {o : Occurrences} {r : Reg} :
    r ∈ (o.map f).all ↔ ∃ s ∈ o.all, f s = r := by
  simp only [all, map, ← List.map_append, List.mem_map]

end Occurrences

theorem uses_eq_ok {i : Inst} {us : Uses} :
    i.uses = .ok us ↔ ∃ o, i.occurrences = .ok o ∧
      (Uses.ofLists o.used o.defined o.modified).normalize = us := by
  simp only [uses, Checked.bind_eq_ok, Checked.pure_eq_ok]

theorem mem_uses_iff {o : Occurrences} {r : Reg} :
    (r ∈ (Uses.ofLists o.used o.defined o.modified).normalize.reads ∨
      r ∈ (Uses.ofLists o.used o.defined o.modified).normalize.writes) ↔ r ∈ o.all := by
  have hofList : ∀ rs : List Reg, r ∈ (RegSet.ofList rs).toList ↔ r ∈ rs :=
    fun rs => RegSet.mem_ofList
  rw [Uses.mem_reads_normalize, Uses.mem_writes_normalize]
  simp only [Uses.reads, Uses.writes, Uses.ofLists, List.mem_append, hofList, Occurrences.all]
  tauto

end Inst

section Replacement

variable {g : Reg → Checked Reg} {f : Reg → Reg}

theorem Address.mapRegs_eq_rename {a : Address} {used modified : List Reg}
    (h : a.regs = .ok (used, modified)) (hg : ∀ r ∈ used ++ modified, g r = .ok (f r)) :
    a.mapRegs g = .ok (a.rename f) ∧ (a.rename f).regs = .ok (used.map f, modified.map f) := by
  cases a with
  | unset => cases h
  | _ =>
      cases h
      simp_all [mapRegs, rename, regs]

theorem Mem.mapRegs_eq_rename {mem : Mem} {used modified : List Reg} (hfp : f fp = fp)
    (h : mem.regs = .ok (used, modified)) (hg : ∀ r ∈ used ++ modified, g r = .ok (f r)) :
    mem.mapRegs g = .ok (mem.rename f) ∧
      (mem.rename f).regs = .ok (used.map f, modified.map f) := by
  cases mem with
  | direct a =>
      obtain ⟨hmap, hregs⟩ := Address.mapRegs_eq_rename h hg
      simp only [mapRegs, rename, hmap, Checked.ok_bind, regs, hregs, and_true]
      rfl
  | constant data =>
      cases h
      exact ⟨rfl, rfl⟩
  | stack off =>
      cases h
      refine ⟨rfl, ?_⟩
      simp only [rename, regs, List.map_cons, List.map_nil, hfp]

theorem PairMem.mapRegs_eq_rename {mem : PairMem} {used modified : List Reg}
    (h : mem.regs = .ok (used, modified)) (hg : ∀ r ∈ used ++ modified, g r = .ok (f r)) :
    mem.mapRegs g = .ok (mem.rename f) ∧
      (mem.rename f).regs = .ok (used.map f, modified.map f) := by
  cases mem with
  | unset => cases h
  | access mode rn imm =>
      cases mode with
      | _ =>
          cases h
          simp_all [mapRegs, rename, regs]

theorem mapCond_eq_rename {cond : BranchCond} (hg : ∀ r ∈ cond.reg?.toList, g r = .ok (f r)) :
    Inst.mapCond g cond = .ok (cond.rename f) ∧
      (cond.rename f).reg?.toList = cond.reg?.toList.map f := by
  cases cond with
  | _ => simp_all [Inst.mapCond, BranchCond.rename, BranchCond.reg?]

end Replacement

namespace Inst

/-- Where every register has a replacement, replacing is renaming. -/
theorem mapRegs_eq_rename {m : RegMap} {f : Reg → Reg} {i : Inst} {o : Occurrences}
    (h : i.occurrences = .ok o) (hm : ∀ r ∈ o.all, m.apply r = .ok (f r)) (hfp : f fp = fp) :
    i.mapRegs m m = .ok (i.rename f) ∧ (i.rename f).occurrences = .ok (o.map f) := by
  cases i with
  | unset => cases h
  | load op rd mem =>
      obtain ⟨⟨used, modified⟩, hregs, h⟩ := Checked.bind_eq_ok.mp h
      cases h
      simp only [Occurrences.all, List.mem_append, List.mem_singleton] at hm
      obtain ⟨hmap, hrenamed⟩ := Mem.mapRegs_eq_rename hfp hregs fun r hr =>
        hm r ((List.mem_append.mp hr).imp .inl id)
      simp [mapRegs, rename, occurrences, Occurrences.map, hmap, hrenamed, hm rd]
  | store op rt mem =>
      obtain ⟨⟨used, modified⟩, hregs, h⟩ := Checked.bind_eq_ok.mp h
      cases h
      simp only [Occurrences.all, List.mem_append, List.mem_cons, List.not_mem_nil, or_false] at hm
      obtain ⟨hmap, hrenamed⟩ := Mem.mapRegs_eq_rename hfp hregs fun r hr =>
        hm r ((List.mem_append.mp hr).imp .inr id)
      simp [mapRegs, rename, occurrences, Occurrences.map, hmap, hrenamed, hm rt]
  | storePair rt rt2 mem =>
      obtain ⟨⟨used, modified⟩, hregs, h⟩ := Checked.bind_eq_ok.mp h
      cases h
      simp only [Occurrences.all, List.mem_append, List.mem_cons, List.not_mem_nil, or_false] at hm
      obtain ⟨hmap, hrenamed⟩ := PairMem.mapRegs_eq_rename hregs fun r hr =>
        hm r ((List.mem_append.mp hr).imp (.inr ∘ .inr) id)
      simp [mapRegs, rename, occurrences, Occurrences.map, hmap, hrenamed, hm rt, hm rt2]
  | loadPair rd rd2 mem =>
      obtain ⟨⟨used, modified⟩, hregs, h⟩ := Checked.bind_eq_ok.mp h
      cases h
      simp only [Occurrences.all, List.mem_append, List.mem_cons, List.not_mem_nil, or_false] at hm
      obtain ⟨hmap, hrenamed⟩ := PairMem.mapRegs_eq_rename hregs fun r hr =>
        hm r ((List.mem_append.mp hr).imp .inl id)
      simp [mapRegs, rename, occurrences, Occurrences.map, hmap, hrenamed, hm rd, hm rd2]
  | branch _ _ cond | branchTo _ _ cond | branchElse _ _ cond =>
      cases h
      simp only [Occurrences.all, List.append_nil] at hm
      obtain ⟨hmap, hrenamed⟩ := mapCond_eq_rename hm
      simp [mapRegs, rename, occurrences, Occurrences.map, hmap, hrenamed]
  | _ =>
      cases h
      simp_all [mapRegs, rename, occurrences, Occurrences.map, Occurrences.all]

theorem terminator_rename (f : Reg → Reg) (i : Inst) : (i.rename f).terminator = i.terminator := by
  cases i with
  | _ => rfl

end Inst

end Codegen.A64
