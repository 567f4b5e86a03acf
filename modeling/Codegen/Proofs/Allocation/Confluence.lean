import Codegen.Proofs.Allocation.Passes
import Codegen.Proofs.Allocation.Simulation
import Mathlib.Data.List.Induction
import Mathlib.Data.List.Nodup
import Mathlib.Order.MinMax

/-!
Allocation gives one outcome, in whatever order the keys of its maps come.

A hull is a least and a greatest position, so it does not depend on the order of the occurrences.
The table of hulls then holds the same hulls in some order; sorting the intervals by first position
and register leaves one order, since a register has one interval, and the hulls of the physical
registers are only looked up.
-/
namespace Codegen.Allocation

section Hulls

theorem foldl_extend_mem (ps : List Nat) (s : Span) :
    ((ps.foldl Span.extend s).first = s.first ∨ (ps.foldl Span.extend s).first ∈ ps) ∧
      ((ps.foldl Span.extend s).last = s.last ∨ (ps.foldl Span.extend s).last ∈ ps) := by
  induction ps generalizing s with
  | nil => exact ⟨.inl rfl, .inl rfl⟩
  | cons p ps ih =>
      obtain ⟨hfirst, hlast⟩ := ih (s.extend p)
      have hmin : (s.extend p).first = s.first ∨ (s.extend p).first = p := min_choice s.first p
      have hmax : (s.extend p).last = s.last ∨ (s.extend p).last = p := max_choice s.last p
      simp only [List.foldl_cons, List.mem_cons]
      constructor
      · rcases hfirst with hfirst | hfirst
        · rw [hfirst]
          exact hmin.imp_right .inl
        · exact .inr (.inr hfirst)
      · rcases hlast with hlast | hlast
        · rw [hlast]
          exact hmax.imp_right .inl
        · exact .inr (.inr hlast)

theorem spanOf_eq_some {ps : List Nat} {s : Span} :
    spanOf ps = some s ↔ s.first ∈ ps ∧ s.last ∈ ps ∧ ∀ p ∈ ps, s.first ≤ p ∧ p ≤ s.last := by
  have hspan : ∀ {t : Span}, spanOf ps = some t →
      t.first ∈ ps ∧ t.last ∈ ps ∧ ∀ p ∈ ps, t.first ≤ p ∧ p ≤ t.last := by
    intro t ht
    cases ps with
    | nil => cases ht
    | cons p ps =>
        cases ht
        obtain ⟨hfirst, hlast, hall⟩ := foldl_extend ps ⟨p, p⟩
        obtain ⟨hmin, hmax⟩ := foldl_extend_mem ps ⟨p, p⟩
        refine ⟨List.mem_cons.mpr hmin, List.mem_cons.mpr hmax, fun q hq => ?_⟩
        rcases List.mem_cons.mp hq with rfl | hq
        · exact ⟨hfirst, hlast⟩
        · exact hall q hq
  refine ⟨hspan, fun ⟨hfirst, hlast, hall⟩ => ?_⟩
  obtain ⟨t, ht, _⟩ := spanOf_mem hfirst
  obtain ⟨hfirst', hlast', hall'⟩ := hspan ht
  have hmin : t.first = s.first := Nat.le_antisymm (hall' _ hfirst).1 (hall _ hfirst').1
  have hmax : t.last = s.last := Nat.le_antisymm (hall _ hlast').2 (hall' _ hlast).2
  rw [ht]
  cases s
  cases t
  cases hmin
  cases hmax
  rfl

theorem hull?_perm {occs occs' : List Occurrence} (h : occs.Perm occs') (r : Reg) :
    hull? occs r = hull? occs' r := by
  have hperm := h.filterMap fun o => if o.1 = r then some o.2 else none
  refine Option.ext fun s => ?_
  simp only [hull?, spanOf_eq_some, hperm.mem_iff]

theorem hull?_concat (occs : List Occurrence) (o : Occurrence) (r : Reg) :
    hull? (occs ++ [o]) r =
      if o.1 = r then some ((hull? occs r).elim ⟨o.2, o.2⟩ (·.extend o.2)) else hull? occs r := by
  have hspan : ∀ (ps : List Nat) (p : Nat),
      spanOf (ps ++ [p]) = some ((spanOf ps).elim ⟨p, p⟩ (·.extend p)) := by
    intro ps p
    cases ps with
    | nil => rfl
    | cons q ps => simp [spanOf]
  rw [hull?, List.filterMap_append]
  split
  · rename_i ho
    simp only [List.filterMap_cons, List.filterMap_nil, ho, if_true]
    exact hspan _ _
  · rename_i ho
    simp only [List.filterMap_cons, List.filterMap_nil, ho, if_false, List.append_nil]
    rfl

theorem regs_extend (table : List Interval) (o : Occurrence) :
    (extend table o).map (·.reg) =
      if o.1 ∈ table.map (·.reg) then table.map (·.reg) else table.map (·.reg) ++ [o.1] := by
  have hany : (table.any (·.reg = o.1)) = true ↔ o.1 ∈ table.map (·.reg) := by
    simp only [List.any_eq_true, decide_eq_true_eq, List.mem_map]
  simp only [extend, hany]
  split
  · rw [List.map_map]
    refine List.map_congr_left fun it _ => ?_
    dsimp only [Function.comp_apply]
    split
    · rfl
    · rfl
  · rw [List.map_append, List.map_singleton]

/-- What is in a table with one more position: the hulls of the other registers as they were, and
that of the register with the position. -/
theorem mem_extend {table : List Interval} {o : Occurrence} {it : Interval} :
    it ∈ extend table o ↔ it.reg ≠ o.1 ∧ it ∈ table ∨
      it.reg = o.1 ∧ ((∃ s, ⟨o.1, s⟩ ∈ table ∧ it.span = s.extend o.2) ∨
        (∀ s, ⟨o.1, s⟩ ∉ table) ∧ it.span = ⟨o.2, o.2⟩) := by
  obtain ⟨r, span⟩ := it
  unfold extend
  split
  · rename_i hany
    obtain ⟨⟨_, known⟩, hknown, hreg⟩ := List.any_eq_true.mp hany
    cases of_decide_eq_true hreg
    rw [List.mem_map]
    constructor
    · rintro ⟨⟨q, s⟩, hold, heq⟩
      dsimp only at heq
      split at heq
      · rename_i hq
        cases heq
        exact .inr ⟨hq, .inl ⟨s, hq ▸ hold, rfl⟩⟩
      · rename_i hq
        cases heq
        exact .inl ⟨hq, hold⟩
    · rintro (⟨hne, hmem⟩ | ⟨rfl, ⟨s, hmem, rfl⟩ | ⟨habsent, _⟩⟩)
      · exact ⟨⟨r, span⟩, hmem, if_neg hne⟩
      · exact ⟨_, hmem, if_pos rfl⟩
      · exact absurd hknown (habsent known)
  · rename_i hany
    have habsent : ∀ s, ⟨o.1, s⟩ ∉ table := by
      intro s hs
      exact hany (List.any_eq_true.mpr ⟨_, hs, by simp⟩)
    rw [List.mem_append, List.mem_singleton]
    constructor
    · rintro (hmem | heq)
      · refine .inl ⟨?_, hmem⟩
        rintro rfl
        exact habsent _ hmem
      · cases heq
        exact .inr ⟨rfl, .inr ⟨habsent, rfl⟩⟩
    · rintro (⟨_, hmem⟩ | ⟨rfl, ⟨s, hmem, _⟩ | ⟨_, rfl⟩⟩)
      · exact .inl hmem
      · exact absurd hmem (habsent s)
      · exact .inr rfl

/-- The table has one entry for each register that occurs, with its hull. -/
theorem table_spec (occs : List Occurrence) :
    ((occs.foldl extend []).map (·.reg)).Nodup ∧
      ∀ r s, ⟨r, s⟩ ∈ occs.foldl extend [] ↔ hull? occs r = some s := by
  -- the table is extended by the occurrence that comes last
  induction occs using List.reverseRecOn with
  | nil => simp [hull?, spanOf]
  | append_singleton occs o ih =>
      obtain ⟨hnodup, hmem⟩ := ih
      rw [List.foldl_concat]
      generalize occs.foldl extend [] = table at hnodup hmem
      constructor
      · rw [regs_extend]
        split
        · exact hnodup
        · rename_i habsent
          exact List.nodup_append.mpr ⟨hnodup, List.pairwise_singleton _ _, fun a ha b hb => by
            rw [List.mem_singleton.mp hb]
            rintro rfl
            exact habsent ha⟩
      · intro r s
        rw [mem_extend, hull?_concat]
        simp only [hmem]
        by_cases hr : r = o.1
        · subst hr
          rw [if_pos rfl]
          cases hhull : hull? occs o.1 with
          | none => simp [eq_comm]
          | some t => simp [eq_comm]
        · rw [if_neg (Ne.symm hr)]
          simp [hr]

theorem hulls_ascending (occs : List Occurrence) :
    (hulls occs).Pairwise fun a b => a.reg.key < b.reg.key := by
  refine List.Pairwise.filterMap _ ?_ (RegSet.ofList (occs.map (·.1))).ascending
  intro r r' hlt it hit it' hit'
  obtain ⟨s, _, rfl⟩ := Option.map_eq_some_iff.mp hit
  obtain ⟨s', _, rfl⟩ := Option.map_eq_some_iff.mp hit'
  exact hlt

/-- In whatever order the occurrences came, the table holds the hulls. -/
theorem table_perm {occs occs' : List Occurrence} (h : occs.Perm occs') :
    (occs.foldl extend []).Perm (hulls occs') := by
  obtain ⟨hnodup, hmem⟩ := table_spec occs
  refine (List.perm_ext_iff_of_nodup (List.Nodup.of_map _ hnodup) ?_).mpr fun it => ?_
  · refine (hulls_ascending occs').imp ?_
    rintro a _ hlt rfl
    exact Nat.lt_irrefl _ hlt
  · rw [hmem, hull?_perm h, mem_hulls]

theorem eq_of_mem_hulls {occs : List Occurrence} {a b : Interval} (ha : a ∈ hulls occs)
    (hb : b ∈ hulls occs) (h : a.reg = b.reg) : a = b := by
  rw [mem_hulls] at ha hb
  rw [h, hb] at ha
  cases a
  cases b
  cases h
  cases ha
  rfl

end Hulls

section Order

/-- Sorting by first position leaves intervals that begin together in the order of their
registers. -/
theorem pairwise_before_mergeSort {its : List Interval}
    (h : its.Pairwise fun a b => a.reg.key < b.reg.key) :
    (its.mergeSort fun a b => a.span.first ≤ b.span.first).Pairwise Interval.Before := by
  have htrans : ∀ a b c : Interval, decide (a.span.first ≤ b.span.first) = true →
      decide (b.span.first ≤ c.span.first) = true →
      decide (a.span.first ≤ c.span.first) = true := by
    simp only [decide_eq_true_eq]
    intro a b c hab hbc
    exact Nat.le_trans hab hbc
  have htotal : ∀ a b : Interval,
      (decide (a.span.first ≤ b.span.first) || decide (b.span.first ≤ a.span.first)) = true := by
    simp only [Bool.or_eq_true, decide_eq_true_eq]
    intro a b
    exact Nat.le_total _ _
  generalize hsorted : its.mergeSort (fun a b => a.span.first ≤ b.span.first) = sorted
  have hperm : sorted.Perm its := hsorted ▸ List.mergeSort_perm its _
  rw [List.pairwise_iff_forall_sublist]
  intro a b hab
  have hle : a.span.first ≤ b.span.first := by
    have hpairwise := List.pairwise_mergeSort htrans htotal its
    rw [hsorted, List.pairwise_iff_forall_sublist] at hpairwise
    exact of_decide_eq_true (hpairwise hab)
  by_cases heq : a.span.first = b.span.first
  · refine .inr ⟨heq, ?_⟩
    -- those that begin there are sorted already, so they stay as they are
    let together : Interval → Bool := fun it => it.span.first = b.span.first
    have hkept : (its.filter together).Sublist sorted := by
      rw [← hsorted]
      refine List.sublist_mergeSort htrans htotal ?_ List.filter_sublist
      refine List.pairwise_of_forall_mem_list fun x hx y hy => ?_
      have hx := of_decide_eq_true (List.mem_filter.mp hx).2
      have hy := of_decide_eq_true (List.mem_filter.mp hy).2
      exact decide_eq_true (by omega)
    have hsame : its.filter together = sorted.filter together := by
      have hfilter := hkept.filter together
      rw [List.filter_filter] at hfilter
      simp only [Bool.and_self] at hfilter
      exact hfilter.eq_of_length (hperm.filter together).length_eq.symm
    have hpair : [a, b].Sublist (its.filter together) := by
      have hfilter := hab.filter together
      rwa [← hsame, List.filter_cons_of_pos (by simp [together, heq]),
        List.filter_cons_of_pos (by simp [together]), List.filter_nil] at hfilter
    exact List.pairwise_iff_forall_sublist.mp h (hpair.trans List.filter_sublist)
  · exact .inl (by omega)

/-- However the intervals come, sorting them by first position and register gives one list. -/
theorem sort_eq_intervals (d : Delivery) {occs : List Occurrence} {table : List Interval}
    (h : table.Perm (hulls occs)) :
    d.intervals.sort (d.table (table.filter (·.reg.isVirtual))) = intervals (hulls occs) := by
  have hbefore : (intervals (hulls occs)).Pairwise Interval.Before :=
    pairwise_before_mergeSort ((hulls_ascending occs).filter _)
  have hperm : (d.intervals.sort (d.table (table.filter (·.reg.isVirtual)))).Perm
      (intervals (hulls occs)) :=
    (d.intervals.perm _).trans <| (d.table_perm _).trans <| (h.filter _).trans
      (List.mergeSort_perm _ _).symm
  refine hperm.eq_of_pairwise ?_ (d.intervals.sorted _) (hbefore.imp ?_)
  · -- two intervals that the order does not tell apart belong to one register
    intro a b ha hb hab hba
    have hmem : ∀ it ∈ intervals (hulls occs), it ∈ hulls occs := fun it hit =>
      mem_hulls.mpr (mem_intervals.mp hit).1
    refine eq_of_mem_hulls (hmem a (hperm.mem_iff.mp ha)) (hmem b hb) ?_
    simp only [Interval.Before, not_or, not_and, Nat.not_lt] at hab hba
    exact Reg.key_injective (by omega)
  · intro a b hab hba
    simp only [Interval.Before] at hab hba
    omega

end Order

section Lookups

variable {u : Universe} {fixed fixed' : List Interval}

theorem occupied?_perm {occs : List Occurrence} {table : List Interval}
    (h : table.Perm (hulls occs)) (r : Reg) (s : Span) :
    occupied? (fixedHulls table) r s = occupied? (fixedHulls (hulls occs)) r s := by
  have hfind : ∀ its : List Interval, its.Perm (fixedHulls (hulls occs)) → ∀ it,
      its.find? (·.reg = r) = some it ↔ it ∈ fixedHulls (hulls occs) ∧ it.reg = r := by
    intro its hperm it
    constructor
    · intro hit
      exact ⟨hperm.mem_iff.mp (List.mem_of_find?_eq_some hit), by simpa using List.find?_some hit⟩
    · rintro ⟨hit, hreg⟩
      have hsome : (its.find? (·.reg = r)).isSome = true :=
        List.find?_isSome.mpr ⟨it, hperm.mem_iff.mpr hit, by simpa using hreg⟩
      obtain ⟨found, hfound⟩ := Option.isSome_iff_exists.mp hsome
      have hmem := hperm.mem_iff.mp (List.mem_of_find?_eq_some hfound)
      have hfoundReg : found.reg = r := by simpa using List.find?_some hfound
      rw [hfound, eq_of_mem_hulls (List.mem_of_mem_filter hmem) (List.mem_of_mem_filter hit)
        (hfoundReg.trans hreg.symm)]
  have hsame : (fixedHulls table).find? (·.reg = r) =
      (fixedHulls (hulls occs)).find? (·.reg = r) := by
    refine Option.ext fun it => ?_
    rw [hfind (fixedHulls table) (h.filter _), hfind (fixedHulls (hulls occs)) (.refl _)]
  simp only [occupied?, hsame]

variable (h : ∀ r s, occupied? fixed r s = occupied? fixed' r s)

include h

theorem pick_congr (moves : List (Reg × Reg)) (taken : Marks) (it : Interval)
    (candidates : List Reg) :
    pick { target := u, moves, fixed } taken it candidates =
      pick { target := u, moves, fixed := fixed' } taken it candidates := by
  induction candidates with
  | nil => rfl
  | cons r rest ih => simp only [pick, ih, h]

theorem assignAll_congr (moves : List (Reg × Reg)) (done : List Assigned) (its : List Interval) :
    assignAll { target := u, moves, fixed } done its =
      assignAll { target := u, moves, fixed := fixed' } done its := by
  induction its generalizing done with
  | nil => rfl
  | cons it rest ih => simp only [assignAll, assignNext, pick_congr h, ih]

theorem validate_congr (assigned : List Assigned) :
    validate u fixed assigned = validate u fixed' assigned := by
  induction assigned with
  | nil => rfl
  | cons x rest ih => simp only [validate, h, ih]

/-- The scan looks hulls up and depends on nothing else of their table. -/
theorem scan_congr (moves : List (Reg × Reg)) (its : List Interval) (g : Graph) :
    scan u moves fixed its g = scan u moves fixed' its g := by
  simp only [scan, assignAll_congr h, validate_congr h]

end Lookups

section Occurrences

variable (u : Universe) (entries : List RegSet)

/-- The occurrences in blocks with the numbers of their first instructions. -/
def occurrencesAt : List (RegSet × Nat × Block) → List Occurrence
  | [] => []
  | (entry, start, b) :: rest => blockOccurrences u entries start entry b ++ occurrencesAt rest

variable {u entries}

theorem arrivals_perm (d : Delivery) (n : Nat) {blocks : List (Info × Nat × Block)}
    (h : ∀ b ∈ blocks, b.1.liveOut = liveAtExit entries b.2.2) :
    (arrivals d u n blocks).Perm
      (occurrencesAt u entries (blocks.map fun b => (b.1.liveIn, b.2))) := by
  induction blocks generalizing n with
  | nil => exact .refl _
  | cons first blocks ih =>
      obtain ⟨info, start, b⟩ := first
      have hout : info.liveOut = liveAtExit entries b := h _ List.mem_cons_self
      have hrest := ih (n + 1) fun c hc => h c (List.mem_cons_of_mem _ hc)
      simp only [arrivals, List.map_cons, occurrencesAt, blockOccurrences, ← hout]
      refine .append (.append_right _ (.append ?_ ?_)) hrest
      · exact (d.keys_perm _ _).map _
      · split
        · exact .refl _
        · exact (d.keys_perm _ _).map _

/-- Blocks whose instructions follow one another need not carry their numbers. -/
theorem occurrencesAt_eq {f : Function} {start : Nat} (h : Function.InOrder start f)
    (sets : List RegSet) :
    occurrencesAt u entries (sets.zip ((f.map (·.start)).zip f.graph)) =
      occurrencesFrom u entries start (sets.zip f.graph) := by
  induction f generalizing start sets with
  | nil => simp [Function.graph, occurrencesAt, occurrencesFrom]
  | cons b f ih =>
      obtain ⟨rfl, hrest⟩ := h
      cases sets with
      | nil => simp [occurrencesAt, occurrencesFrom]
      | cons s sets =>
          have hlength : b.block.insts.length = b.insns.length := List.length_map _
          simp only [Function.graph, List.map_cons, List.zip_cons_cons, occurrencesAt,
            occurrencesFrom, hlength]
          rw [← Function.graph, ih hrest]

end Occurrences

/-- Allocation of blocks with the numbers of their first instructions, without maps. -/
def allocateAt (u : Universe) (f : Function) : Checked Result := do
  let entries ← liveness u f.graph
  let hulls := hulls (occurrencesAt u entries (entries.zip ((f.map (·.start)).zip f.graph)))
  scan u (f.graph.insts.filterMap (·.move)) (fixedHulls hulls) (intervals hulls) f.graph

theorem allocateAt_eq (u : Universe) {f : Function} (h : Function.InOrder 0 f) :
    allocateAt u f = allocate u f.graph := by
  simp only [allocateAt, occurrencesAt_eq h]
  rfl

theorem allocateBy_eq (d : Delivery) (u : Universe) (f : Function) :
    allocateBy d u f = some (allocateAt u f) := by
  simp only [allocateBy, d.graph_eq, allocateAt]
  cases hclosed : f.graph.isClosed with
  | false =>
      rw [liveness, hclosed]
      rfl
  | true =>
      have hliveness : ∃ entries, liveness u f.graph = .ok entries := by
        rw [liveness, if_pos hclosed]
        exact ⟨_, rfl⟩
      obtain ⟨entries, hentries⟩ := hliveness
      obtain ⟨infos, hinfos, hins, hexits⟩ := settle_eq hentries d
      generalize hblocks : (f.map (·.start)).zip f.graph = blocks
      have hexit : ∀ b ∈ infos.zip blocks, b.1.liveOut = liveAtExit entries b.2.2 := by
        rintro ⟨info, start, b⟩ hmem
        obtain ⟨n, hn⟩ := List.mem_iff_getElem?.mp hmem
        rw [← hblocks, List.getElem?_zip_eq_some, List.getElem?_zip_eq_some] at hn
        have hinfo : infos.getD n {} = info := by
          rw [List.getD_eq_getElem?_getD, hn.1, Option.getD_some]
        rw [← hinfo]
        exact hexits n b hn.2.2
      have hentry : (infos.zip blocks).map (fun b => (b.1.liveIn, b.2)) = entries.zip blocks := by
        rw [← hins, ins, List.zip_map_left]
        rfl
      have htable := arrivals_perm (u := u) d 0 hexit
      rw [hentry] at htable
      have htable := table_perm htable
      simp only [if_true, hinfos, hentries, Checked.ok_bind, Option.bind_eq_bind, Option.bind_some]
      rw [sort_eq_intervals d htable, scan_congr (occupied?_perm htable)]
      rfl

/-- Allocation does not depend on the orders in which the keys of its maps come, nor on how what
came is sorted: it ends, and with the same registers or the same failure, which for blocks whose
instructions follow one another is the outcome of `allocate`. -/
theorem allocateBy_confluent (d e : Delivery) (u : Universe) (f : Function) :
    allocateBy d u f = allocateBy e u f ∧
      ∃ outcome, allocateBy d u f = some outcome ∧
        (Function.InOrder 0 f → outcome = allocate u f.graph) := by
  refine ⟨by rw [allocateBy_eq, allocateBy_eq], allocateAt u f, allocateBy_eq d u f, ?_⟩
  intro h
  exact allocateAt_eq u h

/-- A merge sort sorts. -/
def Sorting.merge {α : Type} {before : α → α → Prop} [DecidableRel before]
    (trans : ∀ a b c, ¬ before b a → ¬ before c b → ¬ before c a)
    (total : ∀ a b, ¬ before b a ∨ ¬ before a b) : Sorting before where
  sort l := l.mergeSort fun a b => !decide (before b a)
  perm l := List.mergeSort_perm l _
  sorted l := by
    have hpairwise : (l.mergeSort fun a b => !decide (before b a)).Pairwise
        fun a b => (!decide (before b a)) = true :=
      List.pairwise_mergeSort (by simpa using trans) (by simpa using total) l
    exact hpairwise.imp fun h => by simpa using h

instance : DecidableRel Interval.Before := fun a b =>
  inferInstanceAs (Decidable
    (a.span.first < b.span.first ∨ a.span.first = b.span.first ∧ a.reg.key < b.reg.key))

/-- Keys come from the least to the greatest, or the other way round. -/
def Delivery.monotone (descending : Bool) : Delivery where
  keys _ s := if descending then s.toList.reverse else s.toList
  keys_perm _ s := by
    split
    · exact List.reverse_perm _
    · exact .refl _
  table its := if descending then its.reverse else its
  table_perm its := by
    split
    · exact List.reverse_perm _
    · exact .refl _
  regs := .merge (fun a b c => by omega) (fun a b => by omega)
  intervals := .merge
    (fun a b c => by simp only [Interval.Before]; omega)
    (fun a b => by simp only [Interval.Before]; omega)

/-- The loop that adds up numbers, with the sets of its instructions. -/
def sumLoopFunction : Function :=
  let (arg, n, sum) := (A64.gpr 0, Reg.virtual .i64 0, Reg.virtual .i64 1)
  [{ start := 0
     insns := [{ uses := .ofLists [arg] [n] [], move := some (n, arg) },
       { uses := .ofLists [] [sum] [] }]
     succs := [1] },
   { start := 2
     insns := [{ uses := .ofLists [n] [] [sum] }, { uses := .ofLists [] [] [n] },
       { uses := .ofLists [n] [] [] }]
     succs := [1, 2] },
   { start := 5
     insns := [{ uses := .ofLists [sum] [arg] [], move := some (arg, sum) }, { uses := {} }]
     succs := [] }]

theorem allocateBy_confluent_sumLoop :
    allocateBy (.monotone false) A64.registers sumLoopFunction =
        allocateBy (.monotone true) A64.registers sumLoopFunction ∧
      allocateBy (.monotone true) A64.registers sumLoopFunction = some (.ok
        { assignment := ⟨[(.virtual .i64 0, A64.gpr 1), (.virtual .i64 1, A64.gpr 2)]⟩
          clobbered := [A64.gpr 0, A64.gpr 1, A64.gpr 2] }) := by
  obtain ⟨_, outcome, houtcome, hallocate⟩ :=
    allocateBy_confluent (.monotone true) (.monotone false) A64.registers sumLoopFunction
  have hgraph : sumLoopFunction.graph = sumLoop := by decide +kernel
  have horder : Function.InOrder 0 sumLoopFunction := ⟨rfl, rfl, rfl, trivial⟩
  refine ⟨(allocateBy_confluent _ _ _ _).1, ?_⟩
  rw [houtcome, hallocate horder, hgraph, allocate_sumLoop]

end Codegen.Allocation
