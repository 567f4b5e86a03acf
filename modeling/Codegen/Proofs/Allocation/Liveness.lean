import Codegen.Allocation.Liveness
import Codegen.Proofs.Checked
import Mathlib.Data.List.Perm.Subperm

/-!
The liveness analysis against paths of the graph.

`Live` says that a register is read on some path before anything writes it; it does not mention the
analysis. The rounds of the analysis ascend and stay below the registers that are read, so the
bound on their number is never what ends them: the result is a fixed point, and therefore holds
every tracked register that is live.
-/
namespace Codegen.RegSet

theorem nodup (s : RegSet) : s.toList.Nodup := by
  refine s.ascending.imp ?_
  rintro a b hlt rfl
  exact Nat.lt_irrefl _ hlt

theorem ext {s t : RegSet} (h : ∀ r, r ∈ s ↔ r ∈ t) : s = t := by
  have hperm : s.toList.Perm t.toList := (List.perm_ext_iff_of_nodup s.nodup t.nodup).mpr h
  have hlist : s.toList = t.toList :=
    hperm.eq_of_pairwise (fun a b _ _ hab hba => absurd hab (Nat.lt_asymm hba)) s.ascending
      t.ascending
  cases s
  cases t
  cases hlist
  rfl

theorem size_le_of_subset {s : RegSet} {rs : List Reg} (h : ∀ r ∈ s, r ∈ rs) :
    s.size ≤ rs.length :=
  (List.subperm_of_subset s.nodup h).length_le

theorem size_lt_of_subset {s t : RegSet} (h : ∀ r ∈ s, r ∈ t) (hne : s ≠ t) : s.size < t.size := by
  by_contra hge
  have hsub := List.subperm_of_subset s.nodup h
  have hperm := hsub.perm_of_length_le (Nat.le_of_not_lt hge)
  exact hne (ext fun r => hperm.mem_iff)

end Codegen.RegSet

namespace Codegen.Allocation

/-- The register is read on a path that begins with the instructions `rest` and goes on with one of
the blocks `succs`, and nothing before the read writes it. -/
inductive Live (g : Graph) (r : Reg) : List Operands → List Nat → Prop
  | read {i rest succs} : r ∈ i.reads → Live g r (i :: rest) succs
  | pass {i rest succs} : r ∉ i.writes → Live g r rest succs → Live g r (i :: rest) succs
  | exit {s b succs} : s ∈ succs → g[s]? = some b → Live g r b.insts b.succs → Live g r [] succs

/-- The register is live at the entry of the block with number `b`. -/
def LiveIn (g : Graph) (b : Nat) (r : Reg) : Prop :=
  ∃ block, g[b]? = some block ∧ Live g r block.insts block.succs

def Graph.reads (g : Graph) : List Reg := g.insts.flatMap (·.reads)

/-- Every set is contained in the set at the same position. -/
def Below (xs ys : List RegSet) : Prop := List.Forall₂ (fun s t => ∀ r ∈ s, r ∈ t) xs ys

/-- The number of elements of all sets together. -/
def weight (xs : List RegSet) : Nat := (xs.map (·.size)).sum

variable {u : Universe} {g : Graph}

@[simp] theorem mem_liveBefore {i : Operands} {after : RegSet} {r : Reg} :
    r ∈ liveBefore u i after ↔ (r ∈ after ∧ r ∉ i.writes) ∨ (r ∈ i.reads ∧ tracked u r = true) := by
  simp only [liveBefore, RegSet.mem_union, RegSet.mem_diff, RegSet.mem_ofList, List.mem_filter]

theorem mem_foldl_union {f : Nat → RegSet} {succs : List Nat} {s : RegSet} {r : Reg} :
    r ∈ succs.foldl (fun live n => live.union (f n)) s ↔ r ∈ s ∨ ∃ n ∈ succs, r ∈ f n := by
  induction succs generalizing s with
  | nil => simp
  | cons n ns ih =>
      simp only [List.foldl_cons, ih, RegSet.mem_union, List.exists_mem_cons_iff, or_assoc]

@[simp] theorem mem_liveAtExit {entries : List RegSet} {b : Block} {r : Reg} :
    r ∈ liveAtExit entries b ↔ ∃ s ∈ b.succs, r ∈ entries.getD s ∅ := by
  have hempty : ¬ r ∈ (∅ : RegSet) := RegSet.not_mem_empty
  simp only [liveAtExit, mem_foldl_union (f := fun s => entries.getD s ∅), hempty, false_or]

theorem liveBefore_mono {i : Operands} {s t : RegSet} (h : ∀ r ∈ s, r ∈ t) :
    ∀ r ∈ liveBefore u i s, r ∈ liveBefore u i t := by
  intro r hr
  rcases mem_liveBefore.mp hr with ⟨hs, hw⟩ | hread
  · exact mem_liveBefore.mpr (.inl ⟨h r hs, hw⟩)
  · exact mem_liveBefore.mpr (.inr hread)

theorem foldr_liveBefore_mono {insts : List Operands} {s t : RegSet} (h : ∀ r ∈ s, r ∈ t) :
    ∀ r ∈ insts.foldr (liveBefore u) s, r ∈ insts.foldr (liveBefore u) t := by
  induction insts with
  | nil => exact h
  | cons i rest ih => exact liveBefore_mono ih

theorem mem_foldr_liveBefore {insts : List Operands} {s : RegSet} {r : Reg}
    (h : r ∈ insts.foldr (liveBefore u) s) : r ∈ s ∨ r ∈ insts.flatMap (·.reads) := by
  induction insts with
  | nil => exact .inl h
  | cons i rest ih =>
      simp only [List.flatMap_cons, List.mem_append]
      rcases mem_liveBefore.mp h with ⟨hrest, _⟩ | ⟨hread, _⟩
      · rcases ih hrest with hs | hlater
        · exact .inl hs
        · exact .inr (.inr hlater)
      · exact .inr (.inl hread)

theorem Below.getD {xs ys : List RegSet} (h : Below xs ys) (n : Nat) :
    ∀ r ∈ xs.getD n ∅, r ∈ ys.getD n ∅ := by
  induction h generalizing n with
  | nil => exact fun r hr => hr
  | cons hxy hrest ih =>
      cases n with
      | zero => exact hxy
      | succ n => exact ih n

theorem round_mono {xs ys : List RegSet} (h : Below xs ys) :
    Below (round u g xs) (round u g ys) := by
  refine List.forall₂_map_left_iff.mpr (List.forall₂_map_right_iff.mpr (List.forall₂_same.mpr ?_))
  intro b _
  apply foldr_liveBefore_mono
  intro r hr
  obtain ⟨s, hs, hmem⟩ := mem_liveAtExit.mp hr
  exact mem_liveAtExit.mpr ⟨s, hs, h.getD s r hmem⟩

theorem weight_lt {xs ys : List RegSet} (h : Below xs ys) (hne : xs ≠ ys) :
    weight xs < weight ys := by
  induction h with
  | nil => exact absurd rfl hne
  | @cons s t xs ys hst hrest ih =>
      simp only [weight, List.map_cons, List.sum_cons]
      by_cases hs : s = t
      · have hlt := ih fun htail => hne (by rw [hs, htail])
        simp only [weight] at hlt
        rw [hs]
        omega
      · have hlt := RegSet.size_lt_of_subset hst hs
        have hle : (xs.map (·.size)).sum ≤ (ys.map (·.size)).sum := by
          by_cases htail : xs = ys
          · exact Nat.le_of_eq (by rw [htail])
          · exact Nat.le_of_lt (ih htail)
        omega

theorem weight_le {xs : List RegSet} {rs : List Reg} (h : ∀ s ∈ xs, ∀ r ∈ s, r ∈ rs) :
    weight xs ≤ xs.length * rs.length := by
  induction xs with
  | nil => exact Nat.zero_le _
  | cons s xs ih =>
      have hs := RegSet.size_le_of_subset (h s List.mem_cons_self)
      have hxs := ih fun t ht => h t (List.mem_cons_of_mem s ht)
      simp only [weight, List.map_cons, List.sum_cons, List.length_cons, Nat.succ_mul] at hxs ⊢
      omega

/-- The sets of a round: one for each block, of registers that are read, and the next round only
adds to them. -/
structure Rising (u : Universe) (g : Graph) (entries : List RegSet) : Prop where
  length : entries.length = g.length
  known : ∀ s ∈ entries, ∀ r ∈ s, r ∈ g.reads
  below : Below entries (round u g entries)

theorem mem_reads_of_mem_block {b : Block} {r : Reg} (hb : b ∈ g)
    (hr : r ∈ b.insts.flatMap (·.reads)) : r ∈ g.reads := by
  obtain ⟨i, hi, hread⟩ := List.mem_flatMap.mp hr
  exact List.mem_flatMap.mpr ⟨i, List.mem_flatMap.mpr ⟨b, hb, hi⟩, hread⟩

theorem mem_getD_imp {xs : List RegSet} {P : Reg → Prop} (h : ∀ s ∈ xs, ∀ r ∈ s, P r) {n : Nat}
    {r : Reg} (hr : r ∈ xs.getD n ∅) : P r := by
  rw [List.getD_eq_getElem?_getD] at hr
  cases hn : xs[n]? with
  | none =>
      rw [hn] at hr
      exact absurd hr RegSet.not_mem_empty
  | some s =>
      rw [hn] at hr
      exact h s (List.mem_of_getElem? hn) r hr

theorem Rising.initial : Rising u g (g.map fun _ => ∅) := by
  have hempty : ∀ s ∈ g.map fun _ => (∅ : RegSet), ∀ (P : Reg → Prop), ∀ r ∈ s, P r := by
    intro s hs P r hr
    obtain ⟨_, _, rfl⟩ := List.mem_map.mp hs
    exact absurd hr RegSet.not_mem_empty
  refine ⟨List.length_map _, fun s hs => hempty s hs _, ?_⟩
  refine List.forall₂_map_left_iff.mpr (List.forall₂_map_right_iff.mpr (List.forall₂_same.mpr ?_))
  intro b _ r hr
  exact absurd hr RegSet.not_mem_empty

theorem Rising.round {entries : List RegSet} (h : Rising u g entries) :
    Rising u g (Allocation.round u g entries) := by
  refine ⟨List.length_map _, ?_, round_mono h.below⟩
  intro s hs r hr
  obtain ⟨b, hb, rfl⟩ := List.mem_map.mp hs
  rcases mem_foldr_liveBefore hr with hexit | hread
  · obtain ⟨n, _, hn⟩ := mem_liveAtExit.mp hexit
    exact mem_getD_imp h.known hn
  · exact mem_reads_of_mem_block hb hread

/-- Rounds that may go on until every block has every register that is read end at a fixed point:
every round but the last adds a register. -/
theorem rounds_fixed {fuel : Nat} {entries : List RegSet} (h : Rising u g entries)
    (hfuel : g.length * g.reads.length < weight entries + fuel) :
    round u g (rounds u g fuel entries) = rounds u g fuel entries := by
  induction fuel generalizing entries with
  | zero =>
      -- there are not that many elements to add, so the rounds do not get here
      have hle := weight_le h.known
      rw [h.length] at hle
      omega
  | succ fuel ih =>
      simp only [rounds]
      by_cases hfix : round u g entries = entries
      · rw [if_pos hfix]
        exact hfix
      · rw [if_neg hfix]
        have hlt := weight_lt h.below fun heq => hfix heq.symm
        exact ih h.round (by omega)

theorem foldl_reads_length (insts : List Operands) (n : Nat) :
    insts.foldl (fun n i => n + i.reads.length) n = n + (insts.flatMap (·.reads)).length := by
  induction insts generalizing n with
  | nil => rfl
  | cons i rest ih => simp only [List.foldl_cons, ih, List.flatMap_cons, List.length_append]; omega

theorem roundBound_eq (g : Graph) : roundBound g = g.length * g.reads.length + 1 := by
  rw [roundBound, foldl_reads_length, Nat.zero_add]
  rfl

theorem liveness_fixed {entries : List RegSet} (h : liveness u g = .ok entries) :
    round u g entries = entries := by
  simp only [liveness] at h
  split at h
  · cases h
    apply rounds_fixed Rising.initial
    rw [roundBound_eq]
    omega
  · cases h

theorem liveness_length {entries : List RegSet} (h : liveness u g = .ok entries) :
    entries.length = g.length := by
  rw [← liveness_fixed h]
  exact List.length_map _

theorem getD_of_fixed {entries : List RegSet} (h : round u g entries = entries) {n : Nat}
    {b : Block} (hb : g[n]? = some b) :
    entries.getD n ∅ = liveAtEntry u b (liveAtExit entries b) := by
  have hround : (round u g entries)[n]? = some (liveAtEntry u b (liveAtExit entries b)) := by
    simp only [round, List.getElem?_map, hb, Option.map_some]
  rw [h] at hround
  rw [List.getD_eq_getElem?_getD, hround, Option.getD_some]

theorem Live.mem {entries : List RegSet} (hfix : round u g entries = entries) {r : Reg}
    (ht : tracked u r = true) {insts : List Operands} {succs : List Nat}
    (h : Live g r insts succs) :
    r ∈ insts.foldr (liveBefore u) (liveAtExit entries ⟨insts, succs⟩) := by
  -- the exits are those of the block whatever is left of it, so the induction may drop instructions
  have hexits : ∀ is, liveAtExit entries ⟨is, succs⟩ = liveAtExit entries ⟨[], succs⟩ := by
    intro is
    rfl
  rw [hexits]
  clear hexits
  induction h with
  | read hread => exact mem_liveBefore.mpr (.inr ⟨hread, ht⟩)
  | pass hwrite _ ih => exact mem_liveBefore.mpr (.inl ⟨ih, hwrite⟩)
  | exit hs hb _ ih =>
      refine mem_liveAtExit.mpr ⟨_, hs, ?_⟩
      rw [getD_of_fixed hfix hb]
      exact ih

theorem LiveIn.mem {entries : List RegSet} (hfix : round u g entries = entries) {r : Reg}
    (ht : tracked u r = true) {n : Nat} (h : LiveIn g n r) : r ∈ entries.getD n ∅ := by
  obtain ⟨b, hb, hlive⟩ := h
  rw [getD_of_fixed hfix hb]
  exact hlive.mem hfix ht

end Codegen.Allocation
