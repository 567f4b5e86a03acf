import Codegen.Proofs.Allocation.Delivery
import Mathlib.Data.List.GetD

/-!
The passes of the analysis end, and they end with the sets that the rounds give, in whatever order
the keys come.

Every visit of a block keeps the sets below the least solution (`Bounded`) and lets them grow; a
pass notes a change exactly if more became live somewhere, and if it notes none, every block is
settled (`Swept`). So each pass but the last adds a register to sets that are bounded, and the last
one leaves a solution, which is the least one.
-/
namespace Codegen.Allocation

variable {u : Universe} {d : Delivery} {g : Graph}

section Least

theorem below_iff {xs ys : List RegSet} :
    Below xs ys ↔ xs.length = ys.length ∧ ∀ n, ∀ r ∈ xs.getD n ∅, r ∈ ys.getD n ∅ := by
  constructor
  · intro h
    exact ⟨h.length_eq, h.getD⟩
  · rintro ⟨hlength, hmem⟩
    refine List.forall₂_iff_get.mpr ⟨hlength, fun n hx hy r hr => ?_⟩
    have hn := hmem n r
    rw [List.getD_eq_getElem _ _ hx, List.getD_eq_getElem _ _ hy] at hn
    exact hn hr

theorem Below.refl (xs : List RegSet) : Below xs xs := below_iff.mpr ⟨rfl, fun _ _ hr => hr⟩

theorem Below.trans {xs ys zs : List RegSet} (hxy : Below xs ys) (hyz : Below ys zs) :
    Below xs zs := by
  obtain ⟨hlen, hmem⟩ := below_iff.mp hxy
  obtain ⟨hlen', hmem'⟩ := below_iff.mp hyz
  exact below_iff.mpr ⟨hlen.trans hlen', fun n r hr => hmem' n r (hmem n r hr)⟩

theorem Below.antisymm {xs ys : List RegSet} (hxy : Below xs ys) (hyx : Below ys xs) :
    xs = ys := by
  induction hxy with
  | nil => rfl
  | cons hst _ ih =>
      cases hyx with
      | cons hts hrest => rw [RegSet.ext fun r => ⟨hst r, hts r⟩, ih hrest]

theorem Below.weight_le {xs ys : List RegSet} (h : Below xs ys) : weight xs ≤ weight ys := by
  by_cases heq : xs = ys
  · exact Nat.le_of_eq (congrArg weight heq)
  · exact Nat.le_of_lt (weight_lt h heq)

/-- What holds of empty sets and is kept by rounds holds of the result of the analysis. -/
theorem liveness_induction {P : List RegSet → Prop} (hempty : P (g.map fun _ => ∅))
    (hround : ∀ xs, P xs → P (round u g xs)) {least : List RegSet}
    (h : liveness u g = .ok least) : P least := by
  have hrounds : ∀ fuel xs, P xs → P (rounds u g fuel xs) := by
    intro fuel
    induction fuel with
    | zero => exact fun xs hxs => hxs
    | succ fuel ih =>
        intro xs hxs
        simp only [rounds]
        split
        · exact hxs
        · exact ih _ (hround xs hxs)
  simp only [liveness] at h
  split at h
  · cases h
    exact hrounds _ _ hempty
  · cases h

theorem getD_map_empty (n : Nat) : (g.map fun _ => (∅ : RegSet)).getD n ∅ = ∅ := by
  rw [List.getD_eq_getElem?_getD, List.getElem?_map]
  cases g[n]? with
  | none => rfl
  | some b => rfl

/-- The analysis gives the least sets that a round does not add to. -/
theorem liveness_least {least xs : List RegSet} (h : liveness u g = .ok least)
    (hlength : xs.length = g.length) (hxs : Below (round u g xs) xs) : Below least xs := by
  refine liveness_induction (P := fun ys => Below ys xs) ?_ ?_ h
  · refine below_iff.mpr ⟨by rw [List.length_map, hlength], fun n r hr => ?_⟩
    rw [getD_map_empty] at hr
    exact absurd hr RegSet.not_mem_empty
  · intro ys hys
    exact (round_mono hys).trans hxs

theorem weight_lt_roundBound {least : List RegSet} (h : liveness u g = .ok least) :
    weight least < roundBound g := by
  have hrising : Rising u g least :=
    liveness_induction (P := Rising u g) .initial (fun _ hxs => hxs.round) h
  have hle := weight_le hrising.known
  rw [hrising.length] at hle
  rw [roundBound_eq]
  omega

theorem tracked_of_mem_foldr {insts : List Operands} {s : RegSet}
    (hs : ∀ r ∈ s, tracked u r = true) {r : Reg} (h : r ∈ insts.foldr (liveBefore u) s) :
    tracked u r = true := by
  induction insts with
  | nil => exact hs r h
  | cons i insts ih =>
      rcases mem_liveBefore.mp h with ⟨hrest, _⟩ | ⟨_, ht⟩
      · exact ih hrest
      · exact ht

theorem tracked_of_mem_liveness {least : List RegSet} (h : liveness u g = .ok least) {n : Nat}
    {r : Reg} (hr : r ∈ least.getD n ∅) : tracked u r = true := by
  refine liveness_induction (P := fun xs => ∀ n, ∀ r ∈ xs.getD n ∅, tracked u r = true)
    ?_ ?_ h n r hr
  · intro n r hr
    rw [getD_map_empty] at hr
    exact absurd hr RegSet.not_mem_empty
  · intro xs hxs
    have hall : ∀ s ∈ round u g xs, ∀ r ∈ s, tracked u r = true := by
      intro s hs r hr
      obtain ⟨b, _, rfl⟩ := List.mem_map.mp hs
      refine tracked_of_mem_foldr (fun x hx => ?_) hr
      obtain ⟨n, _, hn⟩ := mem_liveAtExit.mp hx
      exact hxs n x hn
    intro n r hr
    exact mem_getD_imp hall hr

end Least

section Summary

namespace Summary

variable (s : Summary) {r x : Reg}

@[simp] theorem kill_read : (s.read u x).kill = s.kill := by
  unfold read
  split
  · rfl
  · rfl

@[simp] theorem gen_write : (s.write u x).gen = s.gen := by
  unfold write
  split
  · rfl
  · rfl

theorem mem_gen_read :
    r ∈ (s.read u x).gen ↔ r ∈ s.gen ∨ r ∉ s.kill ∧ r = x ∧ tracked u r = true := by
  unfold read
  by_cases hx : tracked u x = true ∧ x ∉ s.kill
  · rw [if_pos (by simpa [← RegSet.contains_eq_true] using hx), RegSet.mem_insert, or_comm]
    refine or_congr_right ⟨?_, fun h => h.2.1⟩
    rintro rfl
    exact ⟨hx.2, rfl, hx.1⟩
  · rw [if_neg (by simpa [← RegSet.contains_eq_true] using hx)]
    refine ⟨Or.inl, ?_⟩
    rintro (hr | ⟨hk, rfl, ht⟩)
    · exact hr
    · exact absurd ⟨ht, hk⟩ hx

theorem mem_kill_write :
    r ∈ (s.write u x).kill ↔ r ∈ s.kill ∨ r = x ∧ tracked u r = true := by
  unfold write
  by_cases hx : tracked u x = true
  · rw [if_pos hx, RegSet.mem_insert, or_comm]
    refine or_congr_right ⟨?_, fun h => h.1⟩
    rintro rfl
    exact ⟨rfl, hx⟩
  · rw [if_neg hx]
    refine ⟨Or.inl, ?_⟩
    rintro (hr | ⟨rfl, ht⟩)
    · exact hr
    · exact absurd ht hx

theorem foldl_read (rs : List Reg) :
    (rs.foldl (read u) s).kill = s.kill ∧
      ∀ r, r ∈ (rs.foldl (read u) s).gen ↔
        r ∈ s.gen ∨ r ∉ s.kill ∧ r ∈ rs ∧ tracked u r = true := by
  induction rs generalizing s with
  | nil => simp
  | cons x rs ih =>
      obtain ⟨hkill, hgen⟩ := ih (s.read u x)
      refine ⟨by rw [List.foldl_cons, hkill, kill_read], fun r => ?_⟩
      rw [List.foldl_cons, hgen, mem_gen_read, kill_read, List.mem_cons]
      tauto

theorem foldl_write (ws : List Reg) :
    (ws.foldl (write u) s).gen = s.gen ∧
      ∀ r, r ∈ (ws.foldl (write u) s).kill ↔ r ∈ s.kill ∨ r ∈ ws ∧ tracked u r = true := by
  induction ws generalizing s with
  | nil => simp
  | cons x ws ih =>
      obtain ⟨hgen, hkill⟩ := ih (s.write u x)
      refine ⟨by rw [List.foldl_cons, hgen, gen_write], fun r => ?_⟩
      rw [List.foldl_cons, hkill, mem_kill_write, List.mem_cons]
      tauto

end Summary

/-- What is live before some instructions: what they read before they write it, and of what is live
after them what they do not write. -/
theorem mem_foldr_liveBefore_iff {insts : List Operands} {s : RegSet} {r : Reg} :
    r ∈ insts.foldr (liveBefore u) s ↔
      r ∈ insts.foldr (liveBefore u) ∅ ∨ r ∈ s ∧ ∀ i ∈ insts, r ∉ i.writes := by
  have hempty : ¬ r ∈ (∅ : RegSet) := RegSet.not_mem_empty
  induction insts with
  | nil => simp [hempty]
  | cons i insts ih =>
      simp only [List.foldr_cons, mem_liveBefore, ih, List.forall_mem_cons]
      tauto

/-- Going forwards through some instructions finds what going backwards through them finds. -/
theorem Summary.mem_scan (insts : List Operands) (s : Summary) (r : Reg) :
    (r ∈ (s.scan u insts).gen ↔
      r ∈ s.gen ∨ r ∉ s.kill ∧ r ∈ insts.foldr (liveBefore u) ∅) ∧
    (r ∈ (s.scan u insts).kill ↔
      r ∈ s.kill ∨ tracked u r = true ∧ ∃ i ∈ insts, r ∈ i.writes) := by
  have hempty : ∀ r, ¬ r ∈ (∅ : RegSet) := fun r => RegSet.not_mem_empty
  induction insts generalizing s with
  | nil => simp [scan, hempty]
  | cons i insts ih =>
      obtain ⟨hkill, hgen⟩ := s.foldl_read (u := u) i.reads
      obtain ⟨hgen', hkill'⟩ := (i.reads.foldl (read u) s).foldl_write (u := u) i.writes
      obtain ⟨ihgen, ihkill⟩ := ih (i.writes.foldl (write u) (i.reads.foldl (read u) s))
      have hstep : s.scan u (i :: insts) =
          (i.writes.foldl (write u) (i.reads.foldl (read u) s)).scan u insts := rfl
      have htracked : r ∈ insts.foldr (liveBefore u) ∅ → tracked u r = true :=
        tracked_of_mem_foldr fun x hx => absurd hx (hempty x)
      rw [hstep, ihgen, ihkill, hgen', hgen, hkill', hkill, List.foldr_cons, mem_liveBefore,
        List.exists_mem_cons_iff]
      clear ih hstep ihgen ihkill hgen' hgen hkill' hkill
      by_cases ht : tracked u r = true
      · simp only [ht, and_true, true_and, not_or, or_assoc]
        grind
      · simp [ht, mt htracked ht]

/-- What is live at the entry of a block, by its summary. -/
theorem mem_liveAtEntry {b : Block} {atExit : RegSet} (htracked : ∀ r ∈ atExit, tracked u r = true)
    {r : Reg} : r ∈ liveAtEntry u b atExit ↔
      r ∈ (Info.ofBlock u b).gen ∨ r ∈ atExit ∧ r ∉ (Info.ofBlock u b).kill := by
  have hempty : ∀ r, ¬ r ∈ (∅ : RegSet) := fun r => RegSet.not_mem_empty
  obtain ⟨hgen, hkill⟩ := Summary.mem_scan (u := u) b.insts {} r
  have hwrites : (∀ i ∈ b.insts, r ∉ i.writes) ↔ ¬ ∃ i ∈ b.insts, r ∈ i.writes := by
    simp only [not_exists, not_and]
  rw [liveAtEntry, mem_foldr_liveBefore_iff, hwrites]
  simp only [Info.ofBlock, hgen, hkill, hempty, not_false_eq_true, true_and, false_or]
  refine or_congr_right (and_congr_right fun hr => ?_)
  rw [htracked r hr, eq_self, true_and]

end Summary

section Visit

def ins (infos : List Info) : List RegSet := infos.map (·.liveIn)

theorem getD_ins (infos : List Info) (n : Nat) :
    (ins infos).getD n ∅ = (infos.getD n {}).liveIn := by
  rw [ins, List.getD_eq_getElem?_getD, List.getD_eq_getElem?_getD, List.getElem?_map]
  cases infos[n]? with
  | none => rfl
  | some info => rfl

/-- Whatever comes, a change is noted exactly if there was something new. -/
theorem foldl_note (ks : List Reg) (live : RegSet) (changed : Bool) :
    ks.foldl note (live, changed) =
      (ks.foldl RegSet.insert live, changed || decide (ks.foldl RegSet.insert live ≠ live)) := by
  induction ks generalizing live changed with
  | nil => simp
  | cons k ks ih =>
      rw [List.foldl_cons, List.foldl_cons, note]
      by_cases hk : k ∈ live
      · have hinsert : live.insert k = live := by
          refine RegSet.ext fun r => ?_
          rw [RegSet.mem_insert, or_iff_right_iff_imp]
          rintro rfl
          exact hk
        rw [if_pos (RegSet.contains_eq_true.mpr hk), ih, hinsert]
      · have hnew : ks.foldl RegSet.insert (live.insert k) ≠ live := by
          intro heq
          apply hk
          rw [← heq, RegSet.mem_foldl_insert]
          exact .inl (RegSet.mem_insert.mpr (.inl rfl))
        rw [if_neg (fun h => hk (RegSet.contains_eq_true.mp h)), ih]
        simp [hnew]

theorem mem_gather {pass block : Nat} {infos : List Info} {succs : List Nat} {live : RegSet}
    {r : Reg} : r ∈ gather d pass block infos succs live ↔
      r ∈ live ∨ ∃ s ∈ succs, r ∈ (infos.getD s {}).liveIn := by
  have hfrom : ∀ n live, r ∈ (succs.zipIdx n).foldl (fun live p =>
      (d.keys (.successor pass block p.2) (infos.getD p.1 {}).liveIn).foldl RegSet.insert live)
        live ↔ r ∈ live ∨ ∃ s ∈ succs, r ∈ (infos.getD s {}).liveIn := by
    induction succs with
    | nil => simp
    | cons s succs ih =>
        intro n live
        rw [List.zipIdx_cons, List.foldl_cons, ih, RegSet.mem_foldl_insert, d.mem_keys,
          List.exists_mem_cons_iff, or_assoc]
  exact hfrom 0 live

variable (d g)

def visited (pass : Nat) (infos : List Info) (block : Nat) : Info :=
  let info := infos.getD block {}
  let liveOut := gather d pass block infos (g.getD block ⟨[], []⟩).succs info.liveOut
  let passing := (d.keys (.liveOut pass block) liveOut).filter fun r => !info.kill.contains r
  { info with
    liveIn := (d.keys (.gen pass block) info.gen ++ passing).foldl RegSet.insert info.liveIn
    liveOut }

theorem visit_eq (pass : Nat) (state : List Info × Bool) (block : Nat) :
    visit d g pass state block =
      (state.1.set block (visited d g pass state.1 block),
        state.2 || decide ((visited d g pass state.1 block).liveIn ≠
          (state.1.getD block {}).liveIn)) := by
  rw [visit, ← List.foldl_append, foldl_note]
  rfl

variable {d g}

theorem mem_liveOut_visited {pass block : Nat} {infos : List Info} {r : Reg} :
    r ∈ (visited d g pass infos block).liveOut ↔ r ∈ (infos.getD block {}).liveOut ∨
      ∃ s ∈ (g.getD block ⟨[], []⟩).succs, r ∈ (infos.getD s {}).liveIn := mem_gather

theorem mem_liveIn_visited {pass block : Nat} {infos : List Info} {r : Reg} :
    r ∈ (visited d g pass infos block).liveIn ↔ r ∈ (infos.getD block {}).liveIn ∨
      r ∈ (infos.getD block {}).gen ∨
        r ∈ (visited d g pass infos block).liveOut ∧ r ∉ (infos.getD block {}).kill := by
  simp only [visited, RegSet.mem_foldl_insert, List.mem_append, List.mem_filter, d.mem_keys,
    Bool.not_eq_true', ← Bool.not_eq_true, RegSet.contains_eq_true]

theorem getD_set_of_ne {infos : List Info} {block n : Nat} {info : Info} (h : block ≠ n) :
    (infos.set block info).getD n {} = infos.getD n {} := by
  rw [List.getD_eq_getElem?_getD, List.getElem?_set_ne h, ← List.getD_eq_getElem?_getD]

theorem getD_set_self {infos : List Info} {block : Nat} {info : Info} (h : block < infos.length) :
    (infos.set block info).getD block {} = info := by
  rw [List.getD_eq_getElem?_getD, List.getElem?_set_self h, Option.getD_some]

/-- The sets at the entries change only if the set of the visited block does. -/
theorem ins_set_eq_iff {infos : List Info} {block : Nat} {info : Info} (h : block < infos.length) :
    ins infos = ins (infos.set block info) ↔ info.liveIn = (infos.getD block {}).liveIn := by
  constructor
  · intro heq
    rw [← getD_ins, heq, getD_ins, getD_set_self h]
  · intro heq
    apply List.ext_getElem?
    intro n
    simp only [ins, List.getElem?_map, List.getElem?_set]
    split
    · rename_i hn
      subst hn
      rw [List.getElem?_eq_getElem h, Option.map_some, Option.map_some, heq,
        List.getD_eq_getElem _ _ h]
    · rfl

end Visit

section Sweep

/-- Nothing has to be added to the sets of the block. -/
structure Settled (g : Graph) (infos : List Info) (block : Nat) : Prop where
  gathered : ∀ s ∈ (g.getD block ⟨[], []⟩).succs, ∀ r ∈ (infos.getD s {}).liveIn,
    r ∈ (infos.getD block {}).liveOut
  read : ∀ r ∈ (infos.getD block {}).gen, r ∈ (infos.getD block {}).liveIn
  passing : ∀ r ∈ (infos.getD block {}).liveOut, r ∉ (infos.getD block {}).kill →
    r ∈ (infos.getD block {}).liveIn

/-- What visits of some blocks do. The sets at the entries grow, a change is noted exactly if one of
them did, and where none is noted, the visited blocks and those that were settled are settled. -/
structure Swept (g : Graph) (blocks : List Nat) (before after : List Info × Bool) : Prop where
  grows : Below (ins before.1) (ins after.1)
  noted : after.2 = (before.2 || decide (ins before.1 ≠ ins after.1))
  kept : after.2 = false → ∀ b, Settled g before.1 b → Settled g after.1 b
  settled : after.2 = false → ∀ b ∈ blocks, Settled g after.1 b

theorem Swept.refl (state : List Info × Bool) : Swept g [] state state :=
  { grows := .refl _
    noted := by simp
    kept := fun _ _ h => h
    settled := fun _ b hb => by cases hb }

theorem Swept.trans {bs cs : List Nat} {x y z : List Info × Bool} (hxy : Swept g bs x y)
    (hyz : Swept g cs y z) : Swept g (bs ++ cs) x z := by
  have hfirst : z.2 = false → y.2 = false := by
    intro hz
    have hnoted := hyz.noted
    rw [hz, eq_comm, Bool.or_eq_false_iff] at hnoted
    exact hnoted.1
  -- sets that grow and are in the end what they were have not changed on the way
  have hsame : ins x.1 = ins z.1 ↔ ins x.1 = ins y.1 ∧ ins y.1 = ins z.1 := by
    constructor
    · intro heq
      have hmid : ins x.1 = ins y.1 := hxy.grows.antisymm (heq ▸ hyz.grows)
      exact ⟨hmid, hmid ▸ heq⟩
    · rintro ⟨hxy, hyz⟩
      exact hxy.trans hyz
  exact
    { grows := hxy.grows.trans hyz.grows
      noted := by
        rw [hyz.noted, hxy.noted, Bool.or_assoc, ← Bool.decide_or]
        simp only [ne_eq, hsame, not_and_or]
      kept := fun hz b hb => hyz.kept hz b (hxy.kept (hfirst hz) b hb)
      settled := by
        intro hz b hb
        rcases List.mem_append.mp hb with hb | hb
        · exact hyz.kept hz b (hxy.settled (hfirst hz) b hb)
        · exact hyz.settled hz b hb }

section Visited

variable {infos : List Info} {block : Nat} {info : Info} (hblock : block < infos.length)
  (hsame : info.liveIn = (infos.getD block {}).liveIn)

include hblock hsame

theorem liveIn_set (n : Nat) :
    ((infos.set block info).getD n {}).liveIn = (infos.getD n {}).liveIn := by
  rw [← getD_ins, ← getD_ins, ← (ins_set_eq_iff hblock).mpr hsame]

theorem Settled.set_of_ne {b : Nat} (h : Settled g infos b) (hne : block ≠ b) :
    Settled g (infos.set block info) b := by
  constructor
  · intro s hs r hr
    rw [liveIn_set hblock hsame] at hr
    rw [getD_set_of_ne hne]
    exact h.gathered s hs r hr
  · rw [getD_set_of_ne hne]
    exact h.read
  · rw [getD_set_of_ne hne]
    exact h.passing

end Visited

/-- A visit that adds nothing at the entry leaves the block settled. -/
theorem settled_visited {pass block : Nat} {infos : List Info} (hblock : block < infos.length)
    (hsame : (visited d g pass infos block).liveIn = (infos.getD block {}).liveIn) :
    Settled g (infos.set block (visited d g pass infos block)) block := by
  constructor
  · intro s hs r hr
    -- the block may follow itself, and then it is its own entry that must not have changed
    rw [liveIn_set hblock hsame] at hr
    rw [getD_set_self hblock, mem_liveOut_visited]
    exact .inr ⟨s, hs, hr⟩
  · intro r hr
    rw [getD_set_self hblock] at hr ⊢
    exact mem_liveIn_visited.mpr (.inr (.inl hr))
  · intro r hr hkill
    rw [getD_set_self hblock] at hr hkill ⊢
    exact mem_liveIn_visited.mpr (.inr (.inr ⟨hr, hkill⟩))

theorem swept_visit (pass : Nat) {state : List Info × Bool} {block : Nat}
    (hblock : block < state.1.length) :
    Swept g [block] state (visit d g pass state block) := by
  obtain ⟨infos, changed⟩ := state
  rw [visit_eq]
  have hsame : (changed || decide ((visited d g pass infos block).liveIn ≠
      (infos.getD block {}).liveIn)) = false →
        (visited d g pass infos block).liveIn = (infos.getD block {}).liveIn := by
    intro h
    simpa using (Bool.or_eq_false_iff.mp h).2
  constructor
  · refine below_iff.mpr ⟨by simp [ins], fun n r hr => ?_⟩
    rw [getD_ins] at hr ⊢
    by_cases hn : block = n
    · subst hn
      rw [getD_set_self hblock, mem_liveIn_visited]
      exact .inl hr
    · rwa [getD_set_of_ne hn]
  · simp only [ne_eq, ins_set_eq_iff hblock]
  · intro hunchanged b hb
    by_cases hn : block = b
    · subst hn
      exact settled_visited hblock (hsame hunchanged)
    · exact hb.set_of_ne hblock (hsame hunchanged) hn
  · intro hunchanged b hb
    rw [List.mem_singleton.mp hb]
    exact settled_visited hblock (hsame hunchanged)

theorem length_visit (pass : Nat) (state : List Info × Bool) (block : Nat) :
    (visit d g pass state block).1.length = state.1.length := by
  rw [visit_eq, List.length_set]

theorem swept_foldl (pass : Nat) {blocks : List Nat} {state : List Info × Bool}
    (hblocks : ∀ b ∈ blocks, b < state.1.length) :
    Swept g blocks state (blocks.foldl (visit d g pass) state) := by
  induction blocks generalizing state with
  | nil => exact .refl state
  | cons b blocks ih =>
      have hfirst : Swept g [b] state (visit d g pass state b) :=
        swept_visit pass (hblocks b List.mem_cons_self)
      have hlater : ∀ c ∈ blocks, c < (visit d g pass state b).1.length := by
        intro c hc
        rw [length_visit]
        exact hblocks c (List.mem_cons_of_mem b hc)
      exact hfirst.trans (ih hlater)

end Sweep

section Bounded

variable {least : List RegSet}

/-- The sets of every block are below the least solution. -/
structure Bounded (u : Universe) (g : Graph) (least : List RegSet) (infos : List Info) : Prop where
  length : infos.length = g.length
  summary : ∀ n b, g[n]? = some b → (infos.getD n {}).toSummary = (Info.ofBlock u b).toSummary
  liveIn : ∀ n, ∀ r ∈ (infos.getD n {}).liveIn, r ∈ least.getD n ∅
  liveOut : ∀ n b, g[n]? = some b → ∀ r ∈ (infos.getD n {}).liveOut, r ∈ liveAtExit least b

theorem Bounded.initial : Bounded u g least (g.map (Info.ofBlock u)) := by
  have hget : ∀ n, (g.map (Info.ofBlock u)).getD n {} = (g[n]?.map (Info.ofBlock u)).getD {} := by
    intro n
    rw [List.getD_eq_getElem?_getD, List.getElem?_map]
  constructor
  · exact List.length_map _
  · intro n b hb
    rw [hget, hb]
    rfl
  · intro n r hr
    rw [hget] at hr
    cases hb : g[n]? with
    | none =>
        rw [hb] at hr
        exact absurd hr RegSet.not_mem_empty
    | some b =>
        rw [hb] at hr
        exact absurd hr RegSet.not_mem_empty
  · intro n b hb r hr
    rw [hget, hb] at hr
    exact absurd hr RegSet.not_mem_empty

theorem Bounded.set {infos : List Info} (h : Bounded u g least infos) {block : Nat}
    (hblock : block < g.length) {info : Info}
    (hsummary : info.toSummary = (infos.getD block {}).toSummary)
    (hin : ∀ r ∈ info.liveIn, r ∈ least.getD block ∅)
    (hout : ∀ r ∈ info.liveOut, r ∈ liveAtExit least g[block]) :
    Bounded u g least (infos.set block info) := by
  have hlt : block < infos.length := by rw [h.length]; exact hblock
  constructor
  · rw [List.length_set, h.length]
  · intro n b hn
    by_cases hne : block = n
    · subst hne
      rw [getD_set_self hlt, hsummary]
      exact h.summary block b hn
    · rw [getD_set_of_ne hne]
      exact h.summary n b hn
  · intro n
    by_cases hne : block = n
    · subst hne
      rw [getD_set_self hlt]
      exact hin
    · rw [getD_set_of_ne hne]
      exact h.liveIn n
  · intro n b hn
    by_cases hne : block = n
    · subst hne
      rw [List.getElem?_eq_getElem hblock] at hn
      cases hn
      rw [getD_set_self hlt]
      exact hout
    · rw [getD_set_of_ne hne]
      exact h.liveOut n b hn

variable (hleast : liveness u g = .ok least)

include hleast

theorem Bounded.visit {state : List Info × Bool} (h : Bounded u g least state.1) (pass : Nat)
    {block : Nat} (hblock : block < g.length) :
    Bounded u g least (visit d g pass state block).1 := by
  obtain ⟨infos, changed⟩ := state
  have hb : g[block]? = some g[block] := List.getElem?_eq_getElem hblock
  have hgetD : g.getD block ⟨[], []⟩ = g[block] := List.getD_eq_getElem _ _ hblock
  have hout : ∀ r ∈ (visited d g pass infos block).liveOut, r ∈ liveAtExit least g[block] := by
    intro r hr
    rcases mem_liveOut_visited.mp hr with hr | ⟨s, hs, hr⟩
    · exact h.liveOut block _ hb r hr
    · rw [hgetD] at hs
      exact mem_liveAtExit.mpr ⟨s, hs, h.liveIn s r hr⟩
  have htracked : ∀ r ∈ liveAtExit least g[block], tracked u r = true := by
    intro r hr
    obtain ⟨s, _, hs⟩ := mem_liveAtExit.mp hr
    exact tracked_of_mem_liveness hleast hs
  have hin : ∀ r ∈ (visited d g pass infos block).liveIn, r ∈ least.getD block ∅ := by
    intro r hr
    rcases mem_liveIn_visited.mp hr with hr | hr
    · exact h.liveIn block r hr
    · rw [getD_of_fixed (liveness_fixed hleast) hb, mem_liveAtEntry htracked,
        ← h.summary block _ hb]
      exact hr.imp_right fun ⟨hr, hkill⟩ => ⟨hout r hr, hkill⟩
  rw [visit_eq]
  exact h.set hblock rfl hin hout

theorem Bounded.foldl {state : List Info × Bool} (h : Bounded u g least state.1) (pass : Nat)
    {blocks : List Nat} (hblocks : ∀ b ∈ blocks, b < g.length) :
    Bounded u g least (blocks.foldl (Allocation.visit d g pass) state).1 := by
  induction blocks generalizing state with
  | nil => exact h
  | cons b blocks ih =>
      exact ih (h.visit hleast pass (hblocks b List.mem_cons_self)) fun c hc =>
        hblocks c (List.mem_cons_of_mem b hc)

omit hleast in
theorem Bounded.below {infos : List Info} (h : Bounded u g least infos)
    (hlength : least.length = g.length) : Below (ins infos) least := by
  refine below_iff.mpr ⟨by rw [ins, List.length_map, h.length, hlength], fun n r hr => ?_⟩
  rw [getD_ins] at hr
  exact h.liveIn n r hr

/-- The passes end: each one but the last adds to sets that are bounded. -/
theorem exists_settle {infos : List Info} (h : Bounded u g least infos) {room : Nat}
    (hroom : weight least < weight (ins infos) + room) (pass : Nat) :
    ∃ final, settle d g room pass infos = some final ∧ Bounded u g least final ∧
      ∀ b < g.length, Settled g final b := by
  have hlength := liveness_length hleast
  -- by induction on the room that is left below the least solution
  induction room generalizing infos pass with
  | zero =>
      have hle := (h.below hlength).weight_le
      omega
  | succ room ih =>
      have hblocks : ∀ b ∈ (List.range g.length).reverse, b < g.length := fun b hb =>
        List.mem_range.mp (List.mem_reverse.mp hb)
      have hswept : Swept g (List.range g.length).reverse (infos, false) (sweep d g pass infos) :=
        swept_foldl pass fun b hb => by
          rw [h.length]
          exact hblocks b hb
      have hbounded : Bounded u g least (sweep d g pass infos).1 := by
        change Bounded u g least (List.foldl (visit d g pass) (infos, false) _).1
        exact Bounded.foldl hleast h pass hblocks
      rw [settle]
      cases hresult : sweep d g pass infos with
      | mk next changed =>
          rw [hresult] at hswept hbounded
          cases changed with
          | true =>
              have hne : ins infos ≠ ins next := by simpa using hswept.noted.symm
              have hlt : weight (ins infos) < weight (ins next) := weight_lt hswept.grows hne
              have hmore : weight least < weight (ins next) + room := by omega
              exact ih hbounded hmore (pass + 1)
          | false =>
              refine ⟨next, rfl, hbounded, fun b hb => hswept.settled rfl b ?_⟩
              exact List.mem_reverse.mpr (List.mem_range.mpr hb)

omit hleast in
/-- Sets that are settled hold what a round adds to them. -/
theorem below_of_settled {infos : List Info} (h : Bounded u g least infos)
    (htracked : ∀ n, ∀ r ∈ least.getD n ∅, tracked u r = true)
    (hsettled : ∀ b < g.length, Settled g infos b) : Below (round u g (ins infos)) (ins infos) := by
  have hlength : (ins infos).length = g.length := by rw [ins, List.length_map, h.length]
  refine below_iff.mpr ⟨by rw [round, List.length_map, hlength], fun n r hr => ?_⟩
  cases hb : g[n]? with
  | none =>
      rw [List.getD_eq_getElem?_getD, round, List.getElem?_map, hb] at hr
      exact absurd hr RegSet.not_mem_empty
  | some b =>
      obtain ⟨hlt, hget⟩ := List.getElem?_eq_some_iff.mp hb
      have hgetD : g.getD n ⟨[], []⟩ = b := by rw [List.getD_eq_getElem _ _ hlt, hget]
      have hexit : ∀ x ∈ liveAtExit (ins infos) b, x ∈ (infos.getD n {}).liveOut := by
        intro x hx
        obtain ⟨s, hs, hx⟩ := mem_liveAtExit.mp hx
        rw [getD_ins] at hx
        exact (hsettled n hlt).gathered s (hgetD ▸ hs) x hx
      have hexitTracked : ∀ x ∈ liveAtExit (ins infos) b, tracked u x = true := by
        intro x hx
        obtain ⟨s, _, hx⟩ := mem_liveAtExit.mp hx
        rw [getD_ins] at hx
        exact htracked s x (h.liveIn s x hx)
      rw [List.getD_eq_getElem?_getD, round, List.getElem?_map, hb] at hr
      rw [getD_ins]
      have hr : r ∈ liveAtEntry u b (liveAtExit (ins infos) b) := hr
      rw [mem_liveAtEntry hexitTracked, ← h.summary n b hb] at hr
      rcases hr with hr | ⟨hr, hkill⟩
      · exact (hsettled n hlt).read r hr
      · exact (hsettled n hlt).passing r (hexit r hr) hkill

/-- Whatever the orders of the keys, the passes end with what the rounds give: at the entries the
least solution, at the exits what is live at the entries of the successors. -/
theorem settle_eq (d : Delivery) : ∃ final,
    settle d g (roundBound g) 0 (g.map (Info.ofBlock u)) = some final ∧ ins final = least ∧
      ∀ n b, g[n]? = some b → (final.getD n {}).liveOut = liveAtExit least b := by
  have hinitial : Bounded u g least (g.map (Info.ofBlock u)) := .initial
  have hroom : weight least < weight (ins (g.map (Info.ofBlock u))) + roundBound g := by
    have hlt := weight_lt_roundBound hleast
    omega
  obtain ⟨final, hfinal, hbounded, hsettled⟩ := exists_settle (d := d) hleast hinitial hroom 0
  have hlength : (ins final).length = g.length := by rw [ins, List.length_map, hbounded.length]
  have hins : ins final = least := by
    refine (hbounded.below (liveness_length hleast)).antisymm (liveness_least hleast hlength ?_)
    exact below_of_settled hbounded (fun n r hr => tracked_of_mem_liveness hleast hr) hsettled
  refine ⟨final, hfinal, hins, fun n b hb => RegSet.ext fun r => ⟨hbounded.liveOut n b hb r, ?_⟩⟩
  obtain ⟨hlt, hget⟩ := List.getElem?_eq_some_iff.mp hb
  intro hr
  obtain ⟨s, hs, hr⟩ := mem_liveAtExit.mp hr
  rw [← hins, getD_ins] at hr
  refine (hsettled n hlt).gathered s ?_ r hr
  rw [List.getD_eq_getElem _ _ hlt, hget]
  exact hs

end Bounded

end Codegen.Allocation
