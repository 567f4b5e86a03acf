import Codegen.Proofs.Allocation.Confluence

/-!
Live intervals against paths of the graph.

`OccursAt` says at which positions a register is read, written, live at the entry of a block or live
at its exit, with liveness by paths; it does not mention the analysis. The analysis finds no other
registers than those that are live, so the hulls that allocation works with are the hulls of these
positions.
-/
namespace Codegen.Allocation

/-- The register is read or written at the position, or it is live there at the entry or at the exit
of a block. -/
inductive OccursAt (g : Graph) (r : Reg) : Nat → Prop
  | read {n k b i} : g[n]? = some b → b.insts[k]? = some i → r ∈ i.reads →
      OccursAt g r (readPos (g.start n + k))
  | write {n k b i} : g[n]? = some b → b.insts[k]? = some i → r ∈ i.writes →
      OccursAt g r (writePos (g.start n + k))
  | entry {n} : LiveIn g n r → OccursAt g r (readPos (g.start n))
  | exit {n s b} : g[n]? = some b → b.insts ≠ [] → s ∈ b.succs → LiveIn g s r →
      OccursAt g r (writePos (g.start n + b.insts.length - 1))

/-- The position is in the live interval of the register, from the first position at which it occurs
to the last. -/
def LiveOver (g : Graph) (r : Reg) (pos : Nat) : Prop :=
  ∃ first last, OccursAt g r first ∧ OccursAt g r last ∧ first ≤ pos ∧ pos ≤ last

section Paths

variable {g : Graph} {r : Reg}

theorem Live.exists_read {insts : List Operands} {succs : List Nat} (h : Live g r insts succs)
    (hinsts : ∀ i ∈ insts, i ∈ g.insts) : ∃ i ∈ g.insts, r ∈ i.reads := by
  induction h with
  | @read i rest succs hread => exact ⟨i, hinsts i List.mem_cons_self, hread⟩
  | @pass i rest succs hwrite hrest ih =>
      exact ih fun j hj => hinsts j (List.mem_cons_of_mem i hj)
  | @exit s b succs hs hb hlive ih =>
      exact ih fun j hj => List.mem_flatMap.mpr ⟨b, List.mem_of_getElem? hb, hj⟩

theorem LiveIn.exists_read {n : Nat} (h : LiveIn g n r) : ∃ i ∈ g.insts, r ∈ i.reads := by
  obtain ⟨b, hb, hlive⟩ := h
  exact hlive.exists_read fun j hj => List.mem_flatMap.mpr ⟨b, List.mem_of_getElem? hb, hj⟩

theorem OccursAt.exists_operand {pos : Nat} (h : OccursAt g r pos) :
    ∃ i ∈ g.insts, r ∈ i.reads ∨ r ∈ i.writes := by
  have hmem : ∀ {n k : Nat} {b : Block} {i : Operands}, g[n]? = some b → b.insts[k]? = some i →
      i ∈ g.insts := fun hb hi =>
    List.mem_flatMap.mpr ⟨_, List.mem_of_getElem? hb, List.mem_of_getElem? hi⟩
  cases h with
  | read hb hi hread => exact ⟨_, hmem hb hi, .inl hread⟩
  | write hb hi hwrite => exact ⟨_, hmem hb hi, .inr hwrite⟩
  | entry hlive =>
      obtain ⟨i, hi, hread⟩ := hlive.exists_read
      exact ⟨i, hi, .inl hread⟩
  | exit _ _ _ hlive =>
      obtain ⟨i, hi, hread⟩ := hlive.exists_read
      exact ⟨i, hi, .inl hread⟩

end Paths

variable {u : Universe} {g : Graph} {entries : List RegSet} {r : Reg}

theorem live_of_mem_foldr {b : Block} {insts : List Operands}
    (hexits : ∀ s ∈ b.succs, r ∈ entries.getD s ∅ → LiveIn g s r)
    (h : r ∈ insts.foldr (liveBefore u) (liveAtExit entries b)) : Live g r insts b.succs := by
  induction insts with
  | nil =>
      obtain ⟨s, hs, hr⟩ := mem_liveAtExit.mp h
      obtain ⟨c, hc, hlive⟩ := hexits s hs hr
      exact .exit hs hc hlive
  | cons i rest ih =>
      rcases mem_liveBefore.mp h with ⟨hrest, hwrite⟩ | ⟨hread, _⟩
      · exact .pass hwrite (ih hrest)
      · exact .read hread

/-- The analysis finds only registers that are live. -/
theorem liveIn_of_mem_liveness (h : liveness u g = .ok entries) {n : Nat}
    (hr : r ∈ entries.getD n ∅) : LiveIn g n r := by
  refine liveness_induction (P := fun xs => ∀ n, ∀ r ∈ xs.getD n ∅, LiveIn g n r) ?_ ?_ h n r hr
  · intro n r hr
    rw [getD_map_empty] at hr
    exact absurd hr RegSet.not_mem_empty
  · intro xs hxs n r hr
    rw [List.getD_eq_getElem?_getD, round, List.getElem?_map] at hr
    cases hb : g[n]? with
    | none =>
        rw [hb] at hr
        exact absurd hr RegSet.not_mem_empty
    | some b =>
        rw [hb] at hr
        exact ⟨b, hb, live_of_mem_foldr (fun s _ hs => hxs s r hs) hr⟩

section Positions

theorem exists_of_mem_instOccurrences {insts : List Operands} {start pos : Nat}
    (h : (r, pos) ∈ instOccurrences u start insts) :
    tracked u r = true ∧ ∃ k i, insts[k]? = some i ∧
      (r ∈ i.reads ∧ pos = readPos (start + k) ∨ r ∈ i.writes ∧ pos = writePos (start + k)) := by
  induction insts generalizing start with
  | nil => cases h
  | cons i insts ih =>
      simp only [instOccurrences, List.mem_append, List.mem_map, Prod.mk.injEq] at h
      rcases h with (⟨s, hs, rfl, rfl⟩ | ⟨s, hs, rfl, rfl⟩) | hrest
      · obtain ⟨hread, ht⟩ := List.mem_filter.mp hs
        exact ⟨ht, 0, i, rfl, .inl ⟨hread, rfl⟩⟩
      · obtain ⟨hwrite, ht⟩ := List.mem_filter.mp hs
        exact ⟨ht, 0, i, rfl, .inr ⟨hwrite, rfl⟩⟩
      · obtain ⟨ht, k, j, hj, hpos⟩ := ih hrest
        refine ⟨ht, k + 1, j, hj, ?_⟩
        rwa [← Nat.add_assoc, Nat.add_right_comm]

theorem exists_of_mem_occurrencesFrom {pairs : List (RegSet × Block)} {start : Nat} {o : Occurrence}
    (h : o ∈ occurrencesFrom u entries start pairs) :
    ∃ n entry b, pairs[n]? = some (entry, b) ∧
      o ∈ blockOccurrences u entries
        (start + (Graph.insts ((pairs.take n).map (·.2))).length) entry b := by
  induction pairs generalizing start with
  | nil => cases h
  | cons pair pairs ih =>
      obtain ⟨entry, b⟩ := pair
      rcases List.mem_append.mp h with hhere | hrest
      · exact ⟨0, entry, b, rfl, hhere⟩
      · obtain ⟨n, entry', b', hn, ho⟩ := ih hrest
        refine ⟨n + 1, entry', b', hn, ?_⟩
        simpa only [List.take_succ_cons, List.map_cons, Graph.insts, List.flatMap_cons,
          List.length_append, Nat.add_assoc] using ho

theorem exists_of_mem_occurrences (hlen : entries.length = g.length) {o : Occurrence}
    (h : o ∈ occurrences u g entries) :
    ∃ n b, g[n]? = some b ∧
      o ∈ blockOccurrences u entries (g.start n) (entries.getD n ∅) b := by
  obtain ⟨n, entry, b, hpair, ho⟩ := exists_of_mem_occurrencesFrom h
  obtain ⟨hentry, hb⟩ := List.getElem?_zip_eq_some.mp hpair
  have hsnd : (entries.zip g).map (·.2) = g := List.map_snd_zip (Nat.le_of_eq hlen.symm)
  rw [List.map_take, hsnd, Nat.zero_add] at ho
  refine ⟨n, b, hb, ?_⟩
  rw [List.getD_eq_getElem?_getD, hentry]
  exact ho

/-- The positions at which allocation finds a register are those at which it occurs. -/
theorem mem_occurrences_iff (h : liveness u g = .ok entries) {pos : Nat} :
    (r, pos) ∈ occurrences u g entries ↔ tracked u r = true ∧ OccursAt g r pos := by
  have hlen := liveness_length h
  constructor
  · intro ho
    obtain ⟨n, b, hb, ho⟩ := exists_of_mem_occurrences hlen ho
    rcases List.mem_append.mp ho with hends | hinside
    · rcases List.mem_append.mp hends with hentry | hexit
      · obtain ⟨s, hs, heq⟩ := List.mem_map.mp hentry
        cases heq
        exact ⟨tracked_of_mem_liveness h hs, .entry (liveIn_of_mem_liveness h hs)⟩
      · split at hexit
        · cases hexit
        · rename_i hne
          obtain ⟨s, hs, heq⟩ := List.mem_map.mp hexit
          cases heq
          obtain ⟨succ, hsucc, hlive⟩ := mem_liveAtExit.mp hs
          exact ⟨tracked_of_mem_liveness h hlive,
            .exit hb (by simpa using hne) hsucc (liveIn_of_mem_liveness h hlive)⟩
    · obtain ⟨ht, k, i, hi, ⟨hread, rfl⟩ | ⟨hwrite, rfl⟩⟩ := exists_of_mem_instOccurrences hinside
      · exact ⟨ht, .read hb hi hread⟩
      · exact ⟨ht, .write hb hi hwrite⟩
  · rintro ⟨ht, ho⟩
    cases ho with
    | read hb hi hread =>
        exact mem_occurrences hlen hb
          (List.mem_append_right _ (mem_instOccurrences_read hi hread ht))
    | write hb hi hwrite =>
        exact mem_occurrences hlen hb
          (List.mem_append_right _ (mem_instOccurrences_write hi hwrite ht))
    | entry hlive =>
        have hmem := hlive.mem (liveness_fixed h) ht
        obtain ⟨b, hb, _⟩ := hlive
        refine mem_occurrences hlen hb (List.mem_append_left _ (List.mem_append_left _ ?_))
        exact List.mem_map.mpr ⟨r, hmem, rfl⟩
    | exit hb hne hs hlive =>
        have hmem := mem_liveAtExit.mpr ⟨_, hs, hlive.mem (liveness_fixed h) ht⟩
        refine mem_occurrences hlen hb (List.mem_append_left _ (List.mem_append_right _ ?_))
        rw [if_neg (by simpa using hne)]
        exact List.mem_map.mpr ⟨r, hmem, rfl⟩

theorem mem_of_hull? {occs : List Occurrence} {s : Span} (h : hull? occs r = some s) :
    (r, s.first) ∈ occs ∧ (r, s.last) ∈ occs := by
  have hmem : ∀ pos, pos ∈ occs.filterMap (fun o => if o.1 = r then some o.2 else none) →
      (r, pos) ∈ occs := by
    intro pos hpos
    obtain ⟨⟨q, p⟩, ho, heq⟩ := List.mem_filterMap.mp hpos
    split at heq
    · rename_i hq
      cases heq
      cases hq
      exact ho
    · cases heq
  obtain ⟨hfirst, hlast, _⟩ := spanOf_eq_some.mp h
  exact ⟨hmem _ hfirst, hmem _ hlast⟩

/-- The hulls of allocation are the live intervals. -/
theorem covers_iff (h : liveness u g = .ok entries) {pos : Nat} :
    Covers (occurrences u g entries) r pos ↔ tracked u r = true ∧ LiveOver g r pos := by
  constructor
  · rintro ⟨s, hs, hfirst, hlast⟩
    obtain ⟨hf, hl⟩ := mem_of_hull? hs
    obtain ⟨ht, hf⟩ := (mem_occurrences_iff h).mp hf
    obtain ⟨_, hl⟩ := (mem_occurrences_iff h).mp hl
    exact ⟨ht, s.first, s.last, hf, hl, hfirst, hlast⟩
  · rintro ⟨ht, first, last, hf, hl, hfirst, hlast⟩
    exact covers_between ((mem_occurrences_iff h).mpr ⟨ht, hf⟩)
      ((mem_occurrences_iff h).mpr ⟨ht, hl⟩) hfirst hlast

end Positions

end Codegen.Allocation
