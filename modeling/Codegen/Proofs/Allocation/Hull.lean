import Codegen.Allocation.Interval
import Codegen.Proofs.Allocation.Liveness

/-!
Hulls cover liveness: a tracked register that an instruction writes, or that is live after it, has
the write position of the instruction in its hull.

Only write positions matter to what registers may share, since nothing else changes a register.
-/
namespace Codegen.Allocation

def Graph.start (g : Graph) (b : Nat) : Nat := (Graph.insts (g.take b)).length

/-- The position lies in the hull of the register. -/
def Covers (occs : List Occurrence) (r : Reg) (pos : Nat) : Prop :=
  ∃ s, hull? occs r = some s ∧ s.first ≤ pos ∧ pos ≤ s.last

variable {u : Universe} {g : Graph} {entries : List RegSet}

theorem foldl_extend (ps : List Nat) (s : Span) :
    (ps.foldl Span.extend s).first ≤ s.first ∧ s.last ≤ (ps.foldl Span.extend s).last ∧
      ∀ p ∈ ps, (ps.foldl Span.extend s).first ≤ p ∧ p ≤ (ps.foldl Span.extend s).last := by
  induction ps generalizing s with
  | nil => exact ⟨Nat.le_refl _, Nat.le_refl _, fun p hp => absurd hp List.not_mem_nil⟩
  | cons p ps ih =>
      obtain ⟨hfirst, hlast, hall⟩ := ih (s.extend p)
      have hmin : (s.extend p).first = min s.first p := rfl
      have hmax : (s.extend p).last = max s.last p := rfl
      rw [List.foldl_cons]
      refine ⟨by omega, by omega, fun q hq => ?_⟩
      rcases List.mem_cons.mp hq with rfl | hq
      · exact ⟨by omega, by omega⟩
      · exact hall q hq

theorem spanOf_mem {ps : List Nat} {p : Nat} (h : p ∈ ps) :
    ∃ s, spanOf ps = some s ∧ s.first ≤ p ∧ p ≤ s.last := by
  cases ps with
  | nil => cases h
  | cons q ps =>
      obtain ⟨hfirst, hlast, hall⟩ := foldl_extend ps ⟨q, q⟩
      refine ⟨_, rfl, ?_⟩
      rcases List.mem_cons.mp h with rfl | h
      · exact ⟨hfirst, hlast⟩
      · exact hall p h

theorem covers_of_mem {occs : List Occurrence} {r : Reg} {pos : Nat} (h : (r, pos) ∈ occs) :
    Covers occs r pos := by
  apply spanOf_mem
  exact List.mem_filterMap.mpr ⟨(r, pos), h, by simp⟩

theorem covers_between {occs : List Occurrence} {r : Reg} {p q pos : Nat} (hp : (r, p) ∈ occs)
    (hq : (r, q) ∈ occs) (hle : p ≤ pos) (hge : pos ≤ q) : Covers occs r pos := by
  obtain ⟨s, hs, hfirst, _⟩ := covers_of_mem hp
  obtain ⟨t, ht, _, hlast⟩ := covers_of_mem hq
  rw [hs] at ht
  cases ht
  exact ⟨s, hs, Nat.le_trans hfirst hle, Nat.le_trans hge hlast⟩

theorem mem_instOccurrences_read {insts : List Operands} {start k : Nat} {i : Operands} {r : Reg}
    (hi : insts[k]? = some i) (hr : r ∈ i.reads) (ht : tracked u r = true) :
    (r, readPos (start + k)) ∈ instOccurrences u start insts := by
  induction insts generalizing start k with
  | nil => cases hi
  | cons j insts ih =>
      simp only [instOccurrences, List.mem_append]
      cases k with
      | zero =>
          cases hi
          exact .inl (.inl (List.mem_map.mpr ⟨r, List.mem_filter.mpr ⟨hr, ht⟩, rfl⟩))
      | succ k =>
          rw [← Nat.add_assoc, Nat.add_right_comm]
          exact .inr (ih hi)

theorem mem_instOccurrences_write {insts : List Operands} {start k : Nat} {i : Operands} {r : Reg}
    (hi : insts[k]? = some i) (hr : r ∈ i.writes) (ht : tracked u r = true) :
    (r, writePos (start + k)) ∈ instOccurrences u start insts := by
  induction insts generalizing start k with
  | nil => cases hi
  | cons j insts ih =>
      simp only [instOccurrences, List.mem_append]
      cases k with
      | zero =>
          cases hi
          exact .inl (.inr (List.mem_map.mpr ⟨r, List.mem_filter.mpr ⟨hr, ht⟩, rfl⟩))
      | succ k =>
          rw [← Nat.add_assoc, Nat.add_right_comm]
          exact .inr (ih hi)

theorem mem_occurrencesFrom {pairs : List (RegSet × Block)} {start n : Nat} {entry : RegSet}
    {b : Block} {o : Occurrence} (hn : pairs[n]? = some (entry, b))
    (ho : o ∈ blockOccurrences u entries
      (start + (Graph.insts ((pairs.take n).map (·.2))).length) entry b) :
    o ∈ occurrencesFrom u entries start pairs := by
  induction pairs generalizing start n with
  | nil => cases hn
  | cons pair pairs ih =>
      obtain ⟨first, block⟩ := pair
      simp only [occurrencesFrom, List.mem_append]
      cases n with
      | zero =>
          cases hn
          exact .inl ho
      | succ n =>
          refine .inr (ih hn ?_)
          simpa only [List.take_succ_cons, List.map_cons, Graph.insts, List.flatMap_cons,
            List.length_append, Nat.add_assoc] using ho

theorem mem_occurrences (hlen : entries.length = g.length) {n : Nat} {b : Block}
    (hb : g[n]? = some b) {o : Occurrence}
    (ho : o ∈ blockOccurrences u entries (g.start n) (entries.getD n ∅) b) :
    o ∈ occurrences u g entries := by
  have hlt : n < entries.length := by
    rw [hlen]
    exact (List.getElem?_eq_some_iff.mp hb).1
  have hentry : entries[n]? = some (entries.getD n ∅) := by
    rw [List.getD_eq_getElem?_getD, List.getElem?_eq_getElem hlt, Option.getD_some]
  have hpair : (entries.zip g)[n]? = some (entries.getD n ∅, b) := by
    rw [List.getElem?_zip_eq_some]
    exact ⟨hentry, hb⟩
  have hsnd : (entries.zip g).map (·.2) = g := List.map_snd_zip (Nat.le_of_eq hlen.symm)
  apply mem_occurrencesFrom hpair
  rw [List.map_take, hsnd, Nat.zero_add]
  exact ho

section Block

variable {b : Block} {r : Reg} (start : Nat) (entry : RegSet)

/-- From a point at which a register is live there is an occurrence at or after the write position
before the point: a read on the way, or the exit of the block. -/
theorem exists_later (hne : b.insts ≠ []) (ht : tracked u r = true) {k : Nat}
    (hk : k ≤ b.insts.length)
    (h : r ∈ (b.insts.drop k).foldr (liveBefore u) (liveAtExit entries b)) :
    ∃ q, (r, q) ∈ blockOccurrences u entries start entry b ∧ 2 * (start + k) ≤ q + 1 := by
  generalize hrest : b.insts.drop k = rest at h
  induction rest generalizing k with
  | nil =>
      -- the block is over, and what is live at its exit occurs at its last write position
      have hlen : b.insts.length ≤ k := List.drop_eq_nil_iff.mp hrest
      have hpos : 0 < b.insts.length := List.length_pos_iff.mpr hne
      refine ⟨writePos (start + b.insts.length - 1), ?_, by simp only [writePos]; omega⟩
      simp only [blockOccurrences, List.mem_append]
      refine .inl (.inr ?_)
      rw [if_neg (by simpa using hne)]
      exact List.mem_map.mpr ⟨r, h, rfl⟩
  | cons i rest ih =>
      have hi : b.insts[k]? = some i := by
        rw [← List.head?_drop, hrest, List.head?_cons]
      have hlt : k < b.insts.length := (List.getElem?_eq_some_iff.mp hi).1
      have htail : b.insts.drop (k + 1) = rest := by
        rw [← List.tail_drop, hrest, List.tail_cons]
      rcases mem_liveBefore.mp h with ⟨hafter, _⟩ | ⟨hread, _⟩
      · obtain ⟨q, hq, hle⟩ := ih hlt htail hafter
        exact ⟨q, hq, by omega⟩
      · refine ⟨readPos (start + k), ?_, by simp only [readPos]; omega⟩
        exact List.mem_append_right _ (mem_instOccurrences_read hi hread ht)

/-- To a point at which a register is live there is an occurrence at or before the read position
after the point: a write on the way, or the entry of the block. -/
theorem exists_earlier {entry : RegSet} (hentry : entry = liveAtEntry u b (liveAtExit entries b))
    (ht : tracked u r = true) {k : Nat} (hk : k ≤ b.insts.length)
    (h : r ∈ (b.insts.drop k).foldr (liveBefore u) (liveAtExit entries b)) :
    ∃ p, (r, p) ∈ blockOccurrences u entries start entry b ∧ p ≤ 2 * (start + k) := by
  induction k with
  | zero =>
      refine ⟨readPos start, ?_, Nat.le_refl _⟩
      simp only [blockOccurrences, List.mem_append]
      refine .inl (.inl (List.mem_map.mpr ⟨r, ?_, rfl⟩))
      rw [hentry]
      exact h
  | succ k ih =>
      have hi : b.insts[k]? = some b.insts[k] := List.getElem?_eq_getElem hk
      by_cases hw : r ∈ b.insts[k].writes
      · refine ⟨writePos (start + k), ?_, by simp only [writePos]; omega⟩
        exact List.mem_append_right _ (mem_instOccurrences_write hi hw ht)
      · have hbefore : r ∈ (b.insts.drop k).foldr (liveBefore u) (liveAtExit entries b) := by
          rw [List.drop_eq_getElem_cons hk, List.foldr_cons]
          exact mem_liveBefore.mpr (.inl ⟨h, hw⟩)
        obtain ⟨p, hp, hle⟩ := ih (Nat.le_of_lt hk) hbefore
        exact ⟨p, hp, by omega⟩

end Block

theorem covers_of_write (hlen : entries.length = g.length) {n k : Nat} {b : Block} {i : Operands}
    {r : Reg} (hb : g[n]? = some b) (hi : b.insts[k]? = some i) (hr : r ∈ i.writes)
    (ht : tracked u r = true) :
    Covers (occurrences u g entries) r (writePos (g.start n + k)) := by
  apply covers_of_mem
  apply mem_occurrences hlen hb
  exact List.mem_append_right _ (mem_instOccurrences_write hi hr ht)

theorem covers_of_read (hlen : entries.length = g.length) {n k : Nat} {b : Block} {i : Operands}
    {r : Reg} (hb : g[n]? = some b) (hi : b.insts[k]? = some i) (hr : r ∈ i.reads)
    (ht : tracked u r = true) :
    Covers (occurrences u g entries) r (readPos (g.start n + k)) := by
  apply covers_of_mem
  apply mem_occurrences hlen hb
  exact List.mem_append_right _ (mem_instOccurrences_read hi hr ht)

theorem covers_of_mem_operands (hlen : entries.length = g.length) {i : Operands} {r : Reg}
    (hi : i ∈ g.insts) (hr : r ∈ i.reads ∨ r ∈ i.writes) (ht : tracked u r = true) :
    ∃ pos, Covers (occurrences u g entries) r pos := by
  obtain ⟨b, hb, hib⟩ := List.mem_flatMap.mp hi
  obtain ⟨n, hn⟩ := List.mem_iff_getElem?.mp hb
  obtain ⟨k, hk⟩ := List.mem_iff_getElem?.mp hib
  rcases hr with hread | hwrite
  · exact ⟨_, covers_of_read hlen hn hk hread ht⟩
  · exact ⟨_, covers_of_write hlen hn hk hwrite ht⟩

/-- What is live after an instruction is covered at its write position. -/
theorem covers_of_live (hlen : entries.length = g.length) (hfix : round u g entries = entries)
    {n k : Nat} {b : Block} {i : Operands} {r : Reg} (hb : g[n]? = some b)
    (hi : b.insts[k]? = some i) (ht : tracked u r = true)
    (h : r ∈ (b.insts.drop (k + 1)).foldr (liveBefore u) (liveAtExit entries b)) :
    Covers (occurrences u g entries) r (writePos (g.start n + k)) := by
  obtain ⟨hk, heq⟩ := List.getElem?_eq_some_iff.mp hi
  by_cases hw : r ∈ i.writes
  · exact covers_of_write hlen hb hi hw ht
  have hne : b.insts ≠ [] := List.ne_nil_of_length_pos (Nat.lt_of_le_of_lt (Nat.zero_le k) hk)
  have hbefore : r ∈ (b.insts.drop k).foldr (liveBefore u) (liveAtExit entries b) := by
    rw [List.drop_eq_getElem_cons hk, heq, List.foldr_cons]
    exact mem_liveBefore.mpr (.inl ⟨h, hw⟩)
  obtain ⟨q, hq, hlater⟩ := exists_later (g.start n) (entries.getD n ∅) hne ht hk h
  obtain ⟨p, hp, hearlier⟩ := exists_earlier (g.start n) (getD_of_fixed hfix hb) ht
    (Nat.le_of_lt hk) hbefore
  apply covers_between (mem_occurrences hlen hb hp) (mem_occurrences hlen hb hq)
  · simp only [writePos]; omega
  · simp only [writePos]; omega

end Codegen.Allocation
