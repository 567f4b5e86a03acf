import Codegen.Proofs.Allocation.Scan

/-!
The outcome of allocation, by hulls: every register that occurs stands for a register of its own
class that may be handed out, and two registers whose hulls share a position stand for different
ones.
-/
namespace Codegen.Allocation

def settingOf (u : Universe) (g : Graph) (occs : List Occurrence) : Setting :=
  { target := u, moves := g.insts.filterMap (·.move), fixed := fixedHulls (hulls occs) }

def assignmentOf (assigned : List Assigned) : RegMap :=
  ⟨assigned.map fun a => (a.interval.reg, a.phys)⟩

/-- The registers that the instruction reads, writes or moves. -/
def Operands.mentioned (i : Operands) : List Reg :=
  i.reads ++ i.writes ++ i.move.elim [] fun m => [m.1, m.2]

/-- The physical registers of a graph are in the table of the universe. -/
def Graph.Within (g : Graph) (u : Universe) : Prop :=
  ∀ i ∈ g.insts, ∀ r ∈ i.mentioned, r.isPhysical = true → u.Known r

instance (g : Graph) (u : Universe) : Decidable (g.Within u) :=
  inferInstanceAs (Decidable (∀ i ∈ g.insts, ∀ r ∈ i.mentioned, r.isPhysical = true → u.Known r))

variable {u : Universe} {g : Graph}

theorem allocate_eq_ok {result : Result} (h : allocate u g = .ok result) :
    ∃ entries assigned, liveness u g = .ok entries ∧
      assignAll (settingOf u g (occurrences u g entries)) []
        (intervals (hulls (occurrences u g entries))) = .ok assigned ∧
      result.assignment = assignmentOf assigned := by
  obtain ⟨entries, hentries, h⟩ := Checked.bind_eq_ok.mp h
  obtain ⟨assigned, hassigned, h⟩ := Checked.bind_eq_ok.mp h
  obtain ⟨⟨⟩, _, h⟩ := Checked.bind_eq_ok.mp h
  obtain ⟨clobbered, _, h⟩ := Checked.bind_eq_ok.mp h
  cases h
  exact ⟨entries, assigned, hentries, hassigned, rfl⟩

theorem mem_hulls {occs : List Occurrence} {it : Interval} :
    it ∈ hulls occs ↔ hull? occs it.reg = some it.span := by
  simp only [hulls, List.mem_filterMap, Option.map_eq_some_iff]
  constructor
  · rintro ⟨r, _, s, hs, rfl⟩
    exact hs
  · intro h
    refine ⟨it.reg, ?_, it.span, h, rfl⟩
    show it.reg ∈ RegSet.ofList (occs.map (·.1))
    rw [RegSet.mem_ofList]
    by_contra habsent
    have hnone : (occs.filterMap fun o => if o.1 = it.reg then some o.2 else none) = [] := by
      rw [List.filterMap_eq_nil_iff]
      intro o ho
      have hother : o.1 ≠ it.reg := fun heq => habsent (heq ▸ List.mem_map_of_mem ho)
      rw [if_neg hother]
    simp only [hull?, hnone, spanOf] at h
    cases h

theorem mem_intervals {occs : List Occurrence} {it : Interval} :
    it ∈ intervals (hulls occs) ↔ hull? occs it.reg = some it.span ∧ it.reg.isVirtual = true := by
  simp only [intervals, List.mem_mergeSort, List.mem_filter, mem_hulls]

theorem occupied?_of_hull {occs : List Occurrence} {r : Reg} {h s : Span}
    (hphys : r.isPhysical = true) (hhull : hull? occs r = some h) (hmeets : h.meets s = true) :
    occupied? (fixedHulls (hulls occs)) r s = some h := by
  have hmem : (⟨r, h⟩ : Interval) ∈ fixedHulls (hulls occs) :=
    List.mem_filter.mpr ⟨mem_hulls.mpr hhull, hphys⟩
  have hsome : ((fixedHulls (hulls occs)).find? fun it => decide (it.reg = r)).isSome = true :=
    List.find?_isSome.mpr ⟨_, hmem, by simp⟩
  obtain ⟨it, hit⟩ := Option.isSome_iff_exists.mp hsome
  have hreg : it.reg = r := by simpa using List.find?_some hit
  have hspan := mem_hulls.mp (List.mem_of_mem_filter (List.mem_of_find?_eq_some hit))
  rw [hreg, hhull] at hspan
  cases hspan
  simp only [occupied?, hit, hmeets, if_true]

section Outcome

variable {occs : List Occurrence} {assigned : List Assigned}
  (hscan : assignAll (settingOf u g occs) [] (intervals (hulls occs)) = .ok assigned)

include hscan

theorem mem_intervals_of_assigned {a : Assigned} (ha : a ∈ assigned) :
    a.interval ∈ intervals (hulls occs) := by
  have hmap := assignAll_intervals hscan
  rw [List.map_nil, List.nil_append] at hmap
  rw [← hmap]
  exact List.mem_map_of_mem ha

theorem get?_of_hull {v : Reg} {s : Span} (hv : v.isVirtual = true) (hs : hull? occs v = some s) :
    ∃ a ∈ assigned, a.interval = ⟨v, s⟩ ∧ (assignmentOf assigned).get? v = some a.phys := by
  have hmem : (⟨v, s⟩ : Interval) ∈ intervals (hulls occs) := mem_intervals.mpr ⟨hs, hv⟩
  have hmap := assignAll_intervals hscan
  rw [List.map_nil, List.nil_append] at hmap
  rw [← hmap] at hmem
  obtain ⟨b, hb, hinterval⟩ := List.mem_map.mp hmem
  have hsome : ((assignmentOf assigned).get? v).isSome = true := by
    refine List.lookup_isSome_iff.mpr ⟨(b.interval.reg, b.phys), List.mem_map_of_mem hb, ?_⟩
    simp [hinterval]
  obtain ⟨p, hp⟩ := Option.isSome_iff_exists.mp hsome
  obtain ⟨a, ha, heq⟩ := List.mem_map.mp (RegMap.mem_of_get? hp)
  cases heq
  refine ⟨a, ha, ?_, hp⟩
  have hspan := (mem_intervals.mp (mem_intervals_of_assigned hscan ha)).1
  rw [hs] at hspan
  cases a with
  | mk interval phys =>
      cases interval
      cases hspan
      rfl

theorem standIn_of_covers {r : Reg} {pos : Nat} (hv : r.isVirtual = true) (h : Covers occs r pos) :
    ∃ a ∈ assigned, a.interval.reg = r ∧
      (a.interval.span.first ≤ pos ∧ pos ≤ a.interval.span.last) ∧
      (assignmentOf assigned).standIn r = a.phys := by
  obtain ⟨s, hs, hpos⟩ := h
  obtain ⟨a, ha, hinterval, hget⟩ := get?_of_hull hscan hv hs
  exact ⟨a, ha, by rw [hinterval], by rw [hinterval]; exact hpos, RegMap.standIn_of_get? hv hget⟩

/-- The register of a virtual register is not one that is live as itself. -/
theorem standIn_ne_physical {v p : Reg} {pos : Nat} (hv : v.isVirtual = true)
    (hp : p.isPhysical = true) (hcv : Covers occs v pos) (hcp : Covers occs p pos) :
    (assignmentOf assigned).standIn v ≠ p := by
  obtain ⟨a, ha, _, hpos, hstand⟩ := standIn_of_covers hscan hv hcv
  obtain ⟨h, hhull, hin⟩ := hcp
  intro heq
  rw [hstand] at heq
  have hfree : occupied? (fixedHulls (hulls occs)) a.phys a.interval.span = none :=
    (assignAll_fits hscan a ha).free
  rw [heq, occupied?_of_hull hp hhull (Span.meets_of_mem hin hpos)] at hfree
  cases hfree

/-- Registers whose hulls share a position stand for different registers. -/
theorem standIn_ne_of_covers {r s : Reg} {pos : Nat} (hr : Covers occs r pos)
    (hs : Covers occs s pos) (hne : r ≠ s) :
    (assignmentOf assigned).standIn r ≠ (assignmentOf assigned).standIn s := by
  cases hvr : r.isVirtual with
  | true =>
      cases hvs : s.isVirtual with
      | true =>
          obtain ⟨a, ha, har, hapos, hastand⟩ := standIn_of_covers hscan hvr hr
          obtain ⟨b, hb, hbs, hbpos, hbstand⟩ := standIn_of_covers hscan hvs hs
          rw [hastand, hbstand]
          have hdiff : a ≠ b := fun hab => hne (by rw [← har, ← hbs, hab])
          exact (assignAll_apart hscan).forall ha hb hdiff (Span.meets_of_mem hapos hbpos)
      | false =>
          have hp : s.isPhysical = true := by simp only [Reg.isPhysical, hvs, Bool.not_false]
          rw [RegMap.standIn_of_physical _ hp]
          exact standIn_ne_physical hscan hvr hp hr hs
  | false =>
      have hp : r.isPhysical = true := by simp only [Reg.isPhysical, hvr, Bool.not_false]
      rw [RegMap.standIn_of_physical _ hp]
      cases hvs : s.isVirtual with
      | true => exact (standIn_ne_physical hscan hvs hp hs hr).symm
      | false =>
          have hq : s.isPhysical = true := by simp only [Reg.isPhysical, hvs, Bool.not_false]
          rw [RegMap.standIn_of_physical _ hq]
          exact hne

theorem isAllocable_standIn {v : Reg} {pos : Nat} (hv : v.isVirtual = true)
    (h : Covers occs v pos) : u.isAllocable ((assignmentOf assigned).standIn v) = true := by
  obtain ⟨a, ha, _, _, hstand⟩ := standIn_of_covers hscan hv h
  rw [hstand]
  exact (assignAll_fits hscan a ha).allocable

end Outcome

/-- Every virtual register that is read or written has a register, of its class, that may be handed
out. -/
theorem exists_get? {result : Result} (h : allocate u g = .ok result) {i : Operands} {v : Reg}
    (hi : i ∈ g.insts) (hmem : v ∈ i.reads ∨ v ∈ i.writes) (hv : v.isVirtual = true) :
    ∃ p, result.assignment.get? v = some p ∧ p.cls = v.cls ∧ u.isAllocable p = true := by
  obtain ⟨entries, assigned, hlive, hscan, hresult⟩ := allocate_eq_ok h
  have ht : tracked u v = true := by simp only [tracked, hv, Bool.true_or]
  obtain ⟨pos, s, hs, _⟩ := covers_of_mem_operands (liveness_length hlive) hi hmem ht
  obtain ⟨a, ha, hinterval, hget⟩ := get?_of_hull hscan hv hs
  have hfits := assignAll_fits hscan a ha
  have hcls := hfits.cls
  rw [hinterval] at hcls
  exact ⟨a.phys, by rw [hresult, hget], hcls, hfits.allocable⟩

theorem source_of_get? {P : Reg → Prop} {result : Result} (h : allocate u g = .ok result)
    (hmoves : ∀ i ∈ g.insts, ∀ r ∈ i.mentioned, r.isPhysical = true → P r)
    (htable : ∀ r, u.Known r → P r) {v p : Reg} (hget : result.assignment.get? v = some p) :
    P p := by
  obtain ⟨entries, assigned, _, hscan, hresult⟩ := allocate_eq_ok h
  have hsource : ∀ a ∈ assigned, P a.phys := by
    refine assignAll_source ?_ htable hscan
    intro m hm r hside hphys
    obtain ⟨j, hj, hmove⟩ := List.mem_filterMap.mp hm
    refine hmoves j hj r (List.mem_append_right _ ?_) hphys
    rw [hmove]
    simpa using hside
  rw [hresult] at hget
  obtain ⟨a, ha, heq⟩ := List.mem_map.mp (RegMap.mem_of_get? hget)
  cases heq
  exact hsource a ha

theorem known_of_get? (hwithin : g.Within u) {result : Result} (h : allocate u g = .ok result)
    {v p : Reg} (hget : result.assignment.get? v = some p) : u.Known p :=
  source_of_get? h hwithin (fun _ hr => hr) hget

end Codegen.Allocation
