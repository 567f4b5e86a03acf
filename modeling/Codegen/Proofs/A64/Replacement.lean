import Codegen.Proofs.A64.Operands
import Codegen.Proofs.Allocation.Liveness
import Codegen.Proofs.Allocation.Scan

/-!
The two accounts that an instruction gives of its registers, which ones it reads and writes and how
they are replaced, agree. Replacing succeeds exactly if every register of the first account has a
replacement, and the registers of the outcome are the replaced ones, although several of them may
have become one.

That a register stands in an instruction is said without either account: some renaming of that
register alone changes the instruction.
-/
namespace Codegen

def RegSet.image (f : Reg → Reg) (s : RegSet) : RegSet := ofList (s.toList.map f)

theorem RegSet.mem_image {f : Reg → Reg} {s : RegSet} {r : Reg} :
    r ∈ s.image f ↔ ∃ x, x ∈ s ∧ f x = r := by
  rw [image, mem_ofList, List.mem_map]
  exact Iff.rfl

namespace Uses

def image (f : Reg → Reg) (u : Uses) : Uses :=
  ⟨u.used.image f, u.defined.image f, u.modified.image f⟩

theorem ofLists_map (f : Reg → Reg) (used defined modified : List Reg) :
    ofLists (used.map f) (defined.map f) (modified.map f) =
      (ofLists used defined modified).image f := by
  have hset : ∀ rs : List Reg, RegSet.ofList (rs.map f) = (RegSet.ofList rs).image f := by
    intro rs
    refine RegSet.ext fun r => ?_
    rw [RegSet.mem_image, RegSet.mem_ofList, List.mem_map]
    simp only [RegSet.mem_ofList]
  simp only [ofLists, image, hset]

/-- Registers that become modified through the image leave the other two sets in the end, so it does
not matter that others have left them before. -/
theorem normalize_image_normalize (f : Reg → Reg) (u : Uses) :
    (u.normalize.image f).normalize = (u.image f).normalize := by
  have hset : ∀ s t : RegSet,
      ((s.diff t).image f).diff (t.image f) = (s.image f).diff (t.image f) := by
    intro s t
    refine RegSet.ext fun r => ?_
    simp only [RegSet.mem_diff, RegSet.mem_image]
    constructor
    · rintro ⟨⟨x, ⟨hx, _⟩, hr⟩, hout⟩
      exact ⟨⟨x, hx, hr⟩, hout⟩
    · rintro ⟨⟨x, hx, hr⟩, hout⟩
      exact ⟨⟨x, ⟨hx, fun ht => hout ⟨x, ht, hr⟩⟩, hr⟩, hout⟩
  simp only [normalize, image, hset]

end Uses

namespace RegMap

/-- Virtual registers are assigned physical ones. -/
def Physical (m : RegMap) : Prop := ∀ e ∈ m.entries, e.2.isPhysical = true

theorem exists_apply_iff {m : RegMap} {r : Reg} :
    (∃ p, m.apply r = .ok p) ↔ (r.isVirtual = true → ∃ p, m.get? r = some p) := by
  unfold apply
  cases hv : r.isVirtual with
  | false => simp [Reg.isPhysical, hv]
  | true =>
      cases m.get? r with
      | none => simp [Reg.isPhysical, hv]
      | some p => simp [Reg.isPhysical, hv]

theorem standIn_of_apply {m : RegMap} {r p : Reg} (h : m.apply r = .ok p) : m.standIn r = p := by
  simp only [standIn, h]

theorem Physical.isPhysical_of_apply {m : RegMap} (hm : m.Physical) {r p : Reg}
    (h : m.apply r = .ok p) : p.isPhysical = true := by
  unfold apply at h
  split at h
  · cases h
    assumption
  · split at h
    · next hget =>
        cases h
        exact hm _ (mem_of_get? hget)
    · cases h

end RegMap

namespace A64

section Renaming

variable {f f' : Reg → Reg}

theorem Address.rename_rename (a : Address) : (a.rename f).rename f' = a.rename (f' ∘ f) := by
  cases a with
  | _ => rfl

theorem Mem.rename_rename (mem : Mem) : (mem.rename f).rename f' = mem.rename (f' ∘ f) := by
  cases mem with
  | direct a => exact congrArg direct a.rename_rename
  | constant data => rfl
  | stack off => rfl

theorem PairMem.rename_rename (mem : PairMem) :
    (mem.rename f).rename f' = mem.rename (f' ∘ f) := by
  cases mem with
  | _ => rfl

theorem BranchCond.rename_rename (cond : BranchCond) :
    (cond.rename f).rename f' = cond.rename (f' ∘ f) := by
  cases cond with
  | _ => rfl

theorem Address.rename_eq_self {a : Address} {used modified : List Reg}
    (h : a.regs = .ok (used, modified)) (hf : ∀ r ∈ used ++ modified, f r = r) :
    a.rename f = a := by
  cases a with
  | unset => rfl
  | _ =>
      cases h
      simp_all [rename]

theorem Mem.rename_eq_self {mem : Mem} {used modified : List Reg}
    (h : mem.regs = .ok (used, modified)) (hf : ∀ r ∈ used ++ modified, f r = r) :
    mem.rename f = mem := by
  cases mem with
  | direct a => exact congrArg direct (Address.rename_eq_self h hf)
  | constant data => rfl
  | stack off => rfl

theorem PairMem.rename_eq_self {mem : PairMem} {used modified : List Reg}
    (h : mem.regs = .ok (used, modified)) (hf : ∀ r ∈ used ++ modified, f r = r) :
    mem.rename f = mem := by
  cases mem with
  | unset => rfl
  | access mode rn imm =>
      cases mode with
      | _ =>
          cases h
          simp_all [rename]

theorem BranchCond.rename_eq_self {cond : BranchCond} (hf : ∀ r ∈ cond.reg?.toList, f r = r) :
    cond.rename f = cond := by
  cases cond with
  | _ => simp_all [rename, reg?]

end Renaming

section Success

variable {g : Reg → Checked Reg}

theorem Address.exists_mapRegs_iff {a : Address} {used modified : List Reg}
    (h : a.regs = .ok (used, modified)) :
    (∃ b, a.mapRegs g = .ok b) ↔ ∀ r ∈ used ++ modified, ∃ p, g r = .ok p := by
  cases a with
  | unset => cases h
  | _ =>
      cases h
      simp [mapRegs, Checked.exists_bind_eq_ok, -bind_pure_comp]

theorem Mem.exists_mapRegs_iff {mem : Mem} {used modified : List Reg} (hfp : ∃ p, g fp = .ok p)
    (h : mem.regs = .ok (used, modified)) :
    (∃ b, mem.mapRegs g = .ok b) ↔ ∀ r ∈ used ++ modified, ∃ p, g r = .ok p := by
  cases mem with
  | direct a =>
      rw [← Address.exists_mapRegs_iff h]
      simp [mapRegs, Checked.exists_bind_eq_ok, -bind_pure_comp]
  | constant data =>
      cases h
      simp [mapRegs]
  | stack off =>
      cases h
      simpa [mapRegs] using hfp

theorem PairMem.exists_mapRegs_iff {mem : PairMem} {used modified : List Reg}
    (h : mem.regs = .ok (used, modified)) :
    (∃ b, mem.mapRegs g = .ok b) ↔ ∀ r ∈ used ++ modified, ∃ p, g r = .ok p := by
  cases mem with
  | unset => cases h
  | access mode rn imm =>
      cases mode with
      | _ =>
          cases h
          simp [mapRegs, Checked.exists_bind_eq_ok, -bind_pure_comp]

theorem exists_mapCond_iff (cond : BranchCond) :
    (∃ c, Inst.mapCond g cond = .ok c) ↔ ∀ r ∈ cond.reg?.toList, ∃ p, g r = .ok p := by
  cases cond with
  | _ => simp [Inst.mapCond, BranchCond.reg?, Checked.exists_bind_eq_ok, -bind_pure_comp]

end Success

namespace Inst

theorem rename_rename (f f' : Reg → Reg) (i : Inst) :
    (i.rename f).rename f' = i.rename (f' ∘ f) := by
  cases i with
  | load op rd mem => simp [rename, mem.rename_rename]
  | store op rt mem => simp [rename, mem.rename_rename]
  | storePair rt rt2 mem => simp [rename, mem.rename_rename]
  | loadPair rd rd2 mem => simp [rename, mem.rename_rename]
  | branch t n cond => simp [rename, cond.rename_rename]
  | branchTo t inverted cond => simp [rename, cond.rename_rename]
  | branchElse t n cond => simp [rename, cond.rename_rename]
  | _ => rfl

def skeleton (i : Inst) : Inst := i.rename fun _ => xzr

theorem skeleton_rename (f : Reg → Reg) (i : Inst) : (i.rename f).skeleton = i.skeleton :=
  rename_rename f _ i

theorem kind_rename (f : Reg → Reg) (i : Inst) : (i.rename f).kind = i.kind := by
  cases i with
  | _ => rfl

theorem size_rename (f : Reg → Reg) (i : Inst) : (i.rename f).size = i.size := by
  cases i with
  | load op rd mem | store op rt mem =>
      cases mem with
      | _ => rfl
  | _ => rfl

def Mentions (i : Inst) (r : Reg) : Prop :=
  ∃ f : Reg → Reg, (∀ s, s ≠ r → f s = s) ∧ i.rename f ≠ i

theorem rename_eq_self {f : Reg → Reg} {i : Inst} {o : Occurrences} (h : i.occurrences = .ok o)
    (hf : ∀ r ∈ o.all, f r = r) : i.rename f = i := by
  cases i with
  | unset => rfl
  | load op rd mem =>
      obtain ⟨⟨used, modified⟩, hregs, h⟩ := Checked.bind_eq_ok.mp h
      cases h
      simp only [Occurrences.all, List.mem_append, List.mem_singleton] at hf
      have hmem := Mem.rename_eq_self hregs fun r hr =>
        hf r ((List.mem_append.mp hr).imp .inl id)
      simp [rename, hmem, hf rd]
  | store op rt mem =>
      obtain ⟨⟨used, modified⟩, hregs, h⟩ := Checked.bind_eq_ok.mp h
      cases h
      simp only [Occurrences.all, List.mem_append, List.mem_cons, List.not_mem_nil, or_false] at hf
      have hmem := Mem.rename_eq_self hregs fun r hr =>
        hf r ((List.mem_append.mp hr).imp .inr id)
      simp [rename, hmem, hf rt]
  | storePair rt rt2 mem =>
      obtain ⟨⟨used, modified⟩, hregs, h⟩ := Checked.bind_eq_ok.mp h
      cases h
      simp only [Occurrences.all, List.mem_append, List.mem_cons, List.not_mem_nil, or_false] at hf
      have hmem := PairMem.rename_eq_self hregs fun r hr =>
        hf r ((List.mem_append.mp hr).imp (.inr ∘ .inr) id)
      simp [rename, hmem, hf rt, hf rt2]
  | loadPair rd rd2 mem =>
      obtain ⟨⟨used, modified⟩, hregs, h⟩ := Checked.bind_eq_ok.mp h
      cases h
      simp only [Occurrences.all, List.mem_append, List.mem_cons, List.not_mem_nil, or_false] at hf
      have hmem := PairMem.rename_eq_self hregs fun r hr =>
        hf r ((List.mem_append.mp hr).imp .inl id)
      simp [rename, hmem, hf rd, hf rd2]
  | branch _ _ cond | branchTo _ _ cond | branchElse _ _ cond =>
      cases h
      simp only [Occurrences.all, List.append_nil] at hf
      simp [rename, BranchCond.rename_eq_self hf]
  | _ =>
      cases h
      simp_all [rename, Occurrences.all]

theorem Mentions.mem_all {i : Inst} {o : Occurrences} {r : Reg} (h : i.Mentions r)
    (ho : i.occurrences = .ok o) : r ∈ o.all := by
  obtain ⟨f, hf, hne⟩ := h
  by_contra hr
  exact hne (rename_eq_self ho fun s hs => hf s fun hsr => hr (hsr ▸ hs))

/-- Replacing succeeds exactly if what is written has a replacement in `post` and what is read has
one in `pre`. -/
theorem exists_mapRegs_iff {pre post : RegMap} {i : Inst} {o : Occurrences}
    (h : i.occurrences = .ok o) :
    (∃ j, i.mapRegs pre post = .ok j) ↔
      (∀ r ∈ o.defined, ∃ p, post.apply r = .ok p) ∧
        ∀ r ∈ o.used ++ o.modified, ∃ p, pre.apply r = .ok p := by
  have hfp : ∃ p, pre.apply fp = .ok p := ⟨fp, rfl⟩
  cases i with
  | unset => cases h
  | load op rd mem | store op rt mem =>
      obtain ⟨⟨used, modified⟩, hregs, h⟩ := Checked.bind_eq_ok.mp h
      cases h
      have hmem := Mem.exists_mapRegs_iff hfp hregs
      simp only [List.mem_append] at hmem
      simp [mapRegs, Checked.exists_bind_eq_ok, hmem, -bind_pure_comp]
  | storePair rt rt2 mem =>
      obtain ⟨⟨used, modified⟩, hregs, h⟩ := Checked.bind_eq_ok.mp h
      cases h
      have hmem := PairMem.exists_mapRegs_iff (g := pre.apply) hregs
      simp only [List.mem_append] at hmem
      simp [mapRegs, Checked.exists_bind_eq_ok, hmem, -bind_pure_comp]
  | loadPair rd rd2 mem =>
      obtain ⟨⟨used, modified⟩, hregs, h⟩ := Checked.bind_eq_ok.mp h
      cases h
      have hmem := PairMem.exists_mapRegs_iff (g := pre.apply) hregs
      simp only [List.mem_append] at hmem
      simp [mapRegs, Checked.exists_bind_eq_ok, hmem, and_assoc, -bind_pure_comp]
  | branch _ _ cond | branchTo _ _ cond | branchElse _ _ cond =>
      cases h
      have hcond := exists_mapCond_iff (g := pre.apply) cond
      simp [mapRegs, Checked.exists_bind_eq_ok, hcond, -bind_pure_comp]
  | _ =>
      cases h
      simp [mapRegs, Checked.exists_bind_eq_ok, -bind_pure_comp]

/-- `j` is `i` with its registers replaced by physical ones, and nothing else. -/
structure Replaced (m : RegMap) (i j : Inst) : Prop where
  renamed : j = i.rename m.standIn
  physical : ∀ r, j.Mentions r → r.isPhysical = true
  skeleton : j.skeleton = i.skeleton
  kind : j.kind = i.kind
  size : j.size = i.size
  terminator : j.terminator = i.terminator

/-- The register operands, each of them read, written or both, as the three sets report them. -/
structure Accounts (us : Uses) (o : Occurrences) : Prop where
  reads : ∀ r, r ∈ us.reads ↔ r ∈ o.used ∨ r ∈ o.modified
  writes : ∀ r, r ∈ us.writes ↔ r ∈ o.defined ∨ r ∈ o.modified
  apart : ∀ r, r ∈ us.modified → ¬ r ∈ us.used ∧ ¬ r ∈ us.defined

theorem accounts_normalize (o : Occurrences) :
    Accounts (Uses.ofLists o.used o.defined o.modified).normalize o := by
  have hofList : ∀ (rs : List Reg) (r : Reg), r ∈ (RegSet.ofList rs).toList ↔ r ∈ rs :=
    fun _ _ => RegSet.mem_ofList
  refine ⟨fun r => ?_, fun r => ?_, fun r hr => ?_⟩
  · rw [Uses.mem_reads_normalize]
    simp only [Uses.reads, Uses.ofLists, List.mem_append, hofList]
  · rw [Uses.mem_writes_normalize]
    simp only [Uses.writes, Uses.ofLists, List.mem_append, hofList]
  · exact ⟨fun hused => (RegSet.mem_diff.mp hused).2 hr,
      fun hdefined => (RegSet.mem_diff.mp hdefined).2 hr⟩

section Agreement

variable {m : RegMap} {i : Inst} {o : Occurrences}

theorem exists_mapRegs_iff_all (ho : i.occurrences = .ok o) :
    (∃ j, i.mapRegs m m = .ok j) ↔ ∀ r ∈ o.all, ∃ p, m.apply r = .ok p := by
  rw [exists_mapRegs_iff ho]
  simp only [Occurrences.all, List.mem_append, or_imp, forall_and]
  tauto

theorem mapRegs_eq_ok {j : Inst} (ho : i.occurrences = .ok o) (h : i.mapRegs m m = .ok j) :
    j = i.rename m.standIn ∧ j.occurrences = .ok (o.map m.standIn) ∧
      ∀ r ∈ o.all, m.apply r = .ok (m.standIn r) := by
  have happly : ∀ r ∈ o.all, m.apply r = .ok (m.standIn r) := by
    intro r hr
    obtain ⟨p, hp⟩ := (exists_mapRegs_iff_all ho).mp ⟨j, h⟩ r hr
    rw [hp, RegMap.standIn_of_apply hp]
  obtain ⟨hmap, hrenamed⟩ := mapRegs_eq_rename ho happly (m.standIn_of_physical (by decide))
  rw [h] at hmap
  cases hmap
  exact ⟨rfl, hrenamed, happly⟩

theorem replaced_of_mapRegs {j : Inst} (hm : m.Physical) (ho : i.occurrences = .ok o)
    (h : i.mapRegs m m = .ok j) : Replaced m i j := by
  obtain ⟨rfl, hj, happly⟩ := mapRegs_eq_ok ho h
  refine ⟨rfl, fun r hr => ?_, skeleton_rename _ i, kind_rename _ i, size_rename _ i,
    terminator_rename _ i⟩
  obtain ⟨s, hs, rfl⟩ := Occurrences.mem_all_map.mp (hr.mem_all hj)
  exact hm.isPhysical_of_apply (happly s hs)

theorem uses_of_mapRegs {j : Inst} (ho : i.occurrences = .ok o) (h : i.mapRegs m m = .ok j) :
    j.uses =
      .ok ((Uses.ofLists o.used o.defined o.modified).normalize.image m.standIn).normalize := by
  obtain ⟨_, hj, _⟩ := mapRegs_eq_ok ho h
  refine uses_eq_ok.mpr ⟨_, hj, ?_⟩
  rw [Uses.normalize_image_normalize, ← Uses.ofLists_map]
  rfl

/-- The registers that an instruction reports are the ones that are replaced: they decide whether
replacing succeeds, and their images are what the outcome reports. No register of the instruction
is left out, and none that is read or written is lost. -/
theorem mapRegs_agrees {us : Uses} (hm : m.Physical) (hus : i.uses = .ok us) :
    ((∃ j, i.mapRegs m m = .ok j) ↔
        ∀ r, r ∈ us.used ∨ r ∈ us.defined ∨ r ∈ us.modified →
          r.isVirtual = true → ∃ p, m.get? r = some p) ∧
      (∀ j, i.mapRegs m m = .ok j →
        Replaced m i j ∧ j.uses = .ok (us.image m.standIn).normalize) ∧
      ∃ o, i.occurrences = .ok o ∧ (∀ r, i.Mentions r → r ∈ o.all) ∧ Accounts us o := by
  obtain ⟨o, ho, rfl⟩ := uses_eq_ok.mp hus
  refine ⟨?_, fun j hj => ⟨replaced_of_mapRegs hm ho hj, uses_of_mapRegs ho hj⟩, o, ho,
    fun r hr => hr.mem_all ho, accounts_normalize o⟩
  rw [exists_mapRegs_iff_all ho]
  refine forall_congr' fun r => ?_
  rw [RegMap.exists_apply_iff, ← mem_uses_iff]
  simp only [Uses.reads, Uses.writes, List.mem_append]
  have hset : ∀ s : RegSet, r ∈ s.toList ↔ r ∈ s := fun _ => Iff.rfl
  simp only [hset]
  tauto

end Agreement

/-- A store of `r` whose base `b` is written back. -/
def storeBack (r b : Reg) : Inst := store .b64 r (.direct (.preIndexed b ⟨8⟩))

/-- What is stored and the base get one register, which is then modified only. -/
theorem mapRegs_agrees_storeBack :
    let m : RegMap := ⟨[(.virtual .i64 0, gpr 3), (.virtual .i64 1, gpr 3)]⟩
    m.Physical ∧
      (storeBack (.virtual .i64 0) (.virtual .i64 1)).uses =
        .ok (Uses.ofLists [.virtual .i64 0] [] [.virtual .i64 1]) ∧
      Replaced m (storeBack (.virtual .i64 0) (.virtual .i64 1)) (storeBack (gpr 3) (gpr 3)) ∧
      (storeBack (gpr 3) (gpr 3)).uses = .ok (Uses.ofLists [] [] [gpr 3]) := by
  intro m
  have hm : m.Physical := by
    show ∀ e ∈ m.entries, e.2.isPhysical = true
    decide
  have hus : (storeBack (.virtual .i64 0) (.virtual .i64 1)).uses =
      .ok (Uses.ofLists [.virtual .i64 0] [] [.virtual .i64 1]) := by decide
  have hmap : (storeBack (.virtual .i64 0) (.virtual .i64 1)).mapRegs m m =
      .ok (storeBack (gpr 3) (gpr 3)) := by decide
  obtain ⟨hreplaced, huses⟩ := (mapRegs_agrees hm hus).2.1 _ hmap
  have himage : ((Uses.ofLists [.virtual .i64 0] [] [.virtual .i64 1]).image m.standIn).normalize =
      Uses.ofLists [] [] [gpr 3] := by decide
  exact ⟨hm, hus, hreplaced, himage ▸ huses⟩

end Inst

end A64

end Codegen
