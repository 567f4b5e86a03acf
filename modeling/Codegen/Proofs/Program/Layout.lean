import Codegen.Proofs.Program.Bounds

/-!
Layouts. Laying blocks out in an order renames them and does nothing else, so orders compose and
have inverses. The order that follows control flow places one new block at a time and ends when all
of them are placed.
-/
namespace Codegen

open A64 (Inst)

section Renumbering

/-- Only the blocks among the targets are looked at. -/
theorem A64.Inst.renumber_congr {f g : Nat → Nat} {i : Inst}
    (h : ∀ b, .block b ∈ i.targets → f b = g b) : i.renumber f = i.renumber g := by
  have htarget : ∀ t ∈ i.targets, t.renumber f = t.renumber g := by
    intro t ht
    cases t with
    | block b => exact congrArg A64.BranchTarget.block (h b ht)
    | resolved off => rfl
  cases i with
  | jump t => exact congrArg Inst.jump (htarget t List.mem_cons_self)
  | branch t n cond =>
      simp only [Inst.renumber, htarget t List.mem_cons_self, htarget n (by simp [Inst.targets])]
  | _ => rfl

theorem A64.Inst.renumber_id (i : Inst) : i.renumber id = i := by
  have htarget : ∀ t : A64.BranchTarget, t.renumber id = t := by
    intro t
    cases t with
    | _ => rfl
  cases i with
  | jump t => exact congrArg Inst.jump (htarget t)
  | branch t n cond => simp only [Inst.renumber, htarget]
  | _ => rfl

theorem A64.Inst.renumber_renumber (f g : Nat → Nat) (i : Inst) :
    (i.renumber f).renumber g = i.renumber (g ∘ f) := by
  have htarget : ∀ t : A64.BranchTarget, (t.renumber f).renumber g = t.renumber (g ∘ f) := by
    intro t
    cases t with
    | _ => rfl
  cases i with
  | jump t => exact congrArg Inst.jump (htarget t)
  | branch t n cond => simp only [Inst.renumber, htarget]
  | _ => rfl

namespace Block

variable {count : Nat} {b : Block}

/-- The targets of a closed block are blocks, so only these need the same numbers. -/
theorem Closed.renumber_congr (h : b.Closed count) {f g : Nat → Nat}
    (hfg : ∀ s < count, f s = g s) : b.renumber f = b.renumber g := by
  have hinsts : ∀ i ∈ b.insts, i.renumber f = i.renumber g := by
    intro i hi
    obtain ⟨term, hterm, hwithin⟩ := h.terminator hi
    refine Inst.renumber_congr fun s hs => hfg s (hwithin s ?_)
    rw [Inst.targets_of_terminator hterm] at hs
    simpa using hs
  have hsuccs : ∀ s ∈ b.succs, f s = g s := by
    intro s hs
    obtain ⟨front, last, term, hends⟩ := h
    exact hfg s (hends.within s (hends.succs ▸ hs))
  simp only [renumber, List.map_congr_left hinsts, List.map_congr_left hsuccs]

theorem renumber_id (b : Block) : b.renumber id = b := by
  have hinsts : b.insts.map (·.renumber id) = b.insts :=
    List.map_id'' Inst.renumber_id b.insts
  simp only [renumber, hinsts, List.map_id]

theorem renumber_renumber (f g : Nat → Nat) (b : Block) :
    (b.renumber f).renumber g = b.renumber (g ∘ f) := by
  simp [renumber, Inst.renumber_renumber]

end Block

end Renumbering

namespace Program

section Orders

/-- The order has each of `count` blocks once, the entry first. -/
structure IsOrder (count : Nat) (order : List Nat) : Prop where
  perm : order.Perm (List.range count)
  entry : order[0]? = some 0

/-- Lays out in the order `second` what was laid out in the order `first`. -/
def composeOrders (first second : List Nat) : List Nat := second.map fun k => first.getD k 0

/-- The place of every one of `count` blocks in the order. -/
def inverseOrder (count : Nat) (order : List Nat) : List Nat := (List.range count).map order.idxOf

/-- As many different blocks as there are blocks are all of them. -/
theorem perm_range_iff {count : Nat} {order : List Nat} : order.Perm (List.range count) ↔
    order.length = count ∧ (∀ b ∈ order, b < count) ∧ order.Nodup := by
  constructor
  · intro h
    refine ⟨by rw [h.length_eq, List.length_range], fun b hb => ?_, ?_⟩
    · exact List.mem_range.mp (h.mem_iff.mp hb)
    · exact h.nodup_iff.mpr List.nodup_range
  · rintro ⟨hlength, hbound, hnodup⟩
    exact (subperm_range hbound hnodup).perm_of_length_le (by simp [hlength])

theorem checkOrder_iff {p : Program} {order : List Nat} :
    p.checkOrder order = .ok () ↔ IsOrder p.blocks.length order := by
  rw [checkOrder_eq_ok, List.head?_eq_getElem?]
  constructor
  · rintro ⟨⟨hlength, hentry⟩, hrest⟩
    exact ⟨perm_range_iff.mpr ⟨hlength, hrest⟩, hentry⟩
  · rintro ⟨hperm, hentry⟩
    obtain ⟨hlength, hrest⟩ := perm_range_iff.mp hperm
    exact ⟨⟨hlength, hentry⟩, hrest⟩

namespace IsOrder

variable {count : Nat} {order first second : List Nat}

theorem length (h : IsOrder count order) : order.length = count := (perm_range_iff.mp h.perm).1

theorem lt (h : IsOrder count order) {b : Nat} (hb : b ∈ order) : b < count :=
  (perm_range_iff.mp h.perm).2.1 b hb

theorem nodup (h : IsOrder count order) : order.Nodup := (perm_range_iff.mp h.perm).2.2

theorem getElem?_idxOf (h : IsOrder count order) {b : Nat} (hb : b < count) :
    order[order.idxOf b]? = some b :=
  List.getElem?_idxOf (h.perm.mem_iff.mpr (List.mem_range.mpr hb))

theorem idxOf_lt (h : IsOrder count order) {b : Nat} (hb : b < count) : order.idxOf b < count := by
  obtain ⟨hlt, _⟩ := List.getElem?_eq_some_iff.mp (h.getElem?_idxOf hb)
  rwa [h.length] at hlt

theorem idxOf_of_getElem? (h : IsOrder count order) {k b : Nat} (hk : order[k]? = some b) :
    order.idxOf b = k := by
  obtain ⟨hlt, rfl⟩ := List.getElem?_eq_some_iff.mp hk
  exact h.nodup.idxOf_getElem k hlt

theorem getElem?_getD (h : IsOrder count order) {k : Nat} (hk : k < count) :
    order[k]? = some (order.getD k 0) := by
  rw [← h.length] at hk
  rw [List.getElem?_eq_getElem hk, List.getD_eq_getElem _ _ hk]

theorem getD_lt (h : IsOrder count order) {k : Nat} (hk : k < count) : order.getD k 0 < count :=
  h.lt (List.mem_of_getElem? (h.getElem?_getD hk))

theorem getD_inj (h : IsOrder count order) {j k : Nat} (hj : j < count) (hk : k < count)
    (heq : order.getD j 0 = order.getD k 0) : j = k := by
  rw [← h.idxOf_of_getElem? (h.getElem?_getD hj), heq, h.idxOf_of_getElem? (h.getElem?_getD hk)]

theorem compose_range (h : IsOrder count order) :
    composeOrders order (List.range count) = order := by
  refine List.ext_getElem (by simp [composeOrders, h.length]) fun k hk hk' => ?_
  simp only [composeOrders, List.getElem_map, List.getElem_range]
  exact List.getD_eq_getElem _ _ hk'

/-- Composed with an order, numbers of blocks give an order exactly if they are one. -/
theorem compose_iff (h : IsOrder count first) (hbound : ∀ k ∈ second, k < count) :
    IsOrder count (composeOrders first second) ↔ IsOrder count second := by
  have hzero : 0 < count := h.lt (List.mem_of_getElem? h.entry)
  have hfirst : first.getD 0 0 = 0 := by simp [h.entry]
  constructor
  · intro hcompose
    refine ⟨perm_range_iff.mpr ⟨?_, hbound, hcompose.nodup.of_map _⟩, ?_⟩
    · simpa [composeOrders] using hcompose.length
    · obtain ⟨k, hk, hentry⟩ := Option.map_eq_some_iff.mp (List.getElem?_map ▸ hcompose.entry)
      rw [hk, h.getD_inj (hbound k (List.mem_of_getElem? hk)) hzero (hentry.trans hfirst.symm)]
  · intro hsecond
    refine ⟨?_, ?_⟩
    · have hperm := hsecond.perm.map fun k => first.getD k 0
      rw [← composeOrders, ← composeOrders, h.compose_range] at hperm
      exact hperm.trans h.perm
    · rw [composeOrders, List.getElem?_map, hsecond.entry, Option.map_some, hfirst]

theorem idxOf_compose (hfirst : IsOrder count first) (hsecond : IsOrder count second) {b : Nat}
    (hb : b < count) :
    (composeOrders first second).idxOf b = second.idxOf (first.idxOf b) := by
  have hcompose := (hfirst.compose_iff fun k hk => hsecond.lt hk).mpr hsecond
  have hplace := hsecond.getElem?_idxOf (hfirst.idxOf_lt hb)
  refine hcompose.idxOf_of_getElem? ?_
  rw [composeOrders, List.getElem?_map, hplace, Option.map_some, List.getD_eq_getElem?_getD,
    hfirst.getElem?_idxOf hb, Option.getD_some]

theorem compose_inverse (h : IsOrder count order) :
    composeOrders order (inverseOrder count order) = List.range count := by
  have hback : ∀ b ∈ List.range count, order.getD (order.idxOf b) 0 = b := by
    intro b hb
    rw [List.getD_eq_getElem?_getD, h.getElem?_idxOf (List.mem_range.mp hb), Option.getD_some]
  rw [composeOrders, inverseOrder, List.map_map]
  exact (List.map_congr_left hback).trans (List.map_id _)

theorem range (hcount : 0 < count) : IsOrder count (List.range count) :=
  ⟨.refl _, List.getElem?_range hcount⟩

theorem inverse (h : IsOrder count order) : IsOrder count (inverseOrder count order) := by
  have hbound : ∀ k ∈ inverseOrder count order, k < count := by
    intro k hk
    obtain ⟨b, hb, rfl⟩ := List.mem_map.mp hk
    exact h.idxOf_lt (List.mem_range.mp hb)
  rw [← h.compose_iff hbound, h.compose_inverse]
  exact range (h.lt (List.mem_of_getElem? h.entry))

/-- The inverse leads from a block to its place exactly where the order leads back. -/
theorem getElem?_inverse (h : IsOrder count order) {b k : Nat} :
    (inverseOrder count order)[b]? = some k ↔ order[k]? = some b := by
  constructor
  · intro hb
    obtain ⟨c, hc, rfl⟩ := Option.map_eq_some_iff.mp (List.getElem?_map ▸ hb)
    obtain ⟨hlt, rfl⟩ := List.getElem?_eq_some_iff.mp hc
    rw [List.getElem_range]
    exact h.getElem?_idxOf (by simpa using hlt)
  · intro hk
    rw [inverseOrder, List.getElem?_map, List.getElem?_range (h.lt (List.mem_of_getElem? hk)),
      Option.map_some, h.idxOf_of_getElem? hk]

end IsOrder

end Orders

section Arranging

variable {p : Program} {order first second : List Nat}

theorem length_arranged (h : IsOrder p.blocks.length order) :
    (p.arranged order).blocks.length = p.blocks.length := by
  rw [arranged, List.length_map, h.length]

theorem getElem?_arranged {k old : Nat} {b : Block} (hk : order[k]? = some old)
    (hold : p.blocks[old]? = some b) :
    (p.arranged order).blocks[k]? = some (b.renumber order.idxOf) := by
  rw [arranged, List.getElem?_map, hk, Option.map_some, List.getD_eq_getElem?_getD, hold,
    Option.getD_some]

/-- Two layouts are one, since a place in the second order of a place in the first order is a place
in both. -/
theorem arranged_arranged (hclosed : ∀ b ∈ p.blocks, b.Closed p.blocks.length)
    (hfirst : IsOrder p.blocks.length first) (hsecond : IsOrder p.blocks.length second) :
    (p.arranged first).arranged second = p.arranged (composeOrders first second) := by
  have hblock : ∀ k ∈ second,
      ((p.arranged first).blocks.getD k ⟨[], []⟩).renumber second.idxOf =
        (p.blocks.getD (first.getD k 0) ⟨[], []⟩).renumber (composeOrders first second).idxOf := by
    intro k hk
    have hlt := hfirst.getD_lt (hsecond.lt hk)
    have hold := List.getElem?_eq_getElem hlt
    rw [List.getD_eq_getElem?_getD, getElem?_arranged (hfirst.getElem?_getD (hsecond.lt hk)) hold,
      Option.getD_some, List.getD_eq_getElem _ _ hlt, Block.renumber_renumber]
    refine (hclosed _ (List.getElem_mem hlt)).renumber_congr fun s hs => ?_
    exact (hfirst.idxOf_compose hsecond hs).symm
  have hmap : (composeOrders first second).map (fun old =>
      (p.blocks.getD old ⟨[], []⟩).renumber (composeOrders first second).idxOf) =
      second.map fun k => (p.blocks.getD (first.getD k 0) ⟨[], []⟩).renumber
        (composeOrders first second).idxOf := List.map_map
  unfold arranged at hblock ⊢
  rw [hmap, ← List.map_congr_left hblock]

theorem arranged_range (hclosed : ∀ b ∈ p.blocks, b.Closed p.blocks.length)
    (h : IsOrder p.blocks.length (List.range p.blocks.length)) :
    p.arranged (List.range p.blocks.length) = p := by
  have hplace : ∀ s < p.blocks.length, (List.range p.blocks.length).idxOf s = id s := fun s hs =>
    h.idxOf_of_getElem? (List.getElem?_range hs)
  have hblocks : (List.range p.blocks.length).map (fun old =>
      (p.blocks.getD old ⟨[], []⟩).renumber (List.range p.blocks.length).idxOf) = p.blocks := by
    refine List.ext_getElem (by simp) fun k hk hk' => ?_
    rw [List.getElem_map, List.getElem_range, List.getD_eq_getElem _ _ hk',
      (hclosed _ (List.getElem_mem hk')).renumber_congr hplace, Block.renumber_id]
  rw [arranged, hblocks]

end Arranging

section Reordering

/-- The program `q` is `p` with its blocks in the given order: the block at each place is the one
that the order names, its targets and successors replaced by their places, and all else is kept. -/
structure Relabelled (order : List Nat) (p q : Program) : Prop where
  count : q.blocks.length = p.blocks.length
  block : ∀ (k old : Nat) (b : Block), order[k]? = some old → p.blocks[old]? = some b →
    q.blocks[k]? =
      some { insts := b.insts.map (·.renumber order.idxOf), succs := b.succs.map order.idxOf }
  rest : q = { p with blocks := q.blocks }

variable {p q : Program} {order : List Nat}

theorem relabelled_arranged (h : IsOrder p.blocks.length order) :
    Relabelled order p (p.arranged order) where
  count := length_arranged h
  block := fun _ _ _ hk hold => getElem?_arranged hk hold
  rest := rfl

theorem approveOrder_iff (hstage : p.stage = .built ∨ p.stage = .allocated) :
    p.approveOrder order = .ok () ↔ IsOrder p.blocks.length order := by
  have hrequire : p.require .reorder = .ok () :=
    require_eq_ok.mpr (by simpa [Pass.stages] using hstage)
  rw [approveOrder, hrequire, Checked.ok_bind, checkOrder_iff]

/-- Until branches are lowered, a program is laid out in every order of its blocks and in no
other. -/
theorem Invariant.reorder_eq_ok (h : p.Invariant)
    (hstage : p.stage = .built ∨ p.stage = .allocated) :
    p.reorder order = .ok q ↔ IsOrder p.blocks.length order ∧ p.arranged order = q := by
  rw [h.reorder_eq, Checked.map_eq_ok]
  constructor
  · rintro ⟨⟨⟩, happrove, heq⟩
    exact ⟨(approveOrder_iff hstage).mp happrove, heq⟩
  · rintro ⟨horder, heq⟩
    exact ⟨(), (approveOrder_iff hstage).mpr horder, heq⟩

/-- Laying blocks out succeeds exactly for the orders of the blocks that begin with the entry, and
relabels the block graph. A second order of places does the same as both orders composed, and the
inverse of the order restores the program. -/
theorem reorder_relabels {p : Program} (hreach : Session.Reachable p)
    (hstage : p.stage = .built ∨ p.stage = .allocated) (order : List Nat) :
    ((∃ q, p.reorder order = .ok q) ↔
      order.Perm (List.range p.blocks.length) ∧ order[0]? = some 0) ∧
    ∀ q, p.reorder order = .ok q →
      Relabelled order p q ∧ Tiles q.insts 0 q.blocks q.ranges ∧
      (∀ (second : List Nat) (r : Program), (∀ k ∈ second, k < p.blocks.length) →
        (q.reorder second = .ok r ↔ p.reorder (composeOrders order second) = .ok r)) ∧
      (∀ b k : Nat, (inverseOrder p.blocks.length order)[b]? = some k ↔ order[k]? = some b) ∧
      q.reorder (inverseOrder p.blocks.length order) = .ok p := by
  have hinv := hreach.invariant
  have hclosed := hinv.closed hstage
  refine ⟨?_, fun q hq => ?_⟩
  · simp only [hinv.reorder_eq_ok hstage, exists_and_left, exists_eq', and_true]
    exact ⟨fun h => ⟨h.perm, h.entry⟩, fun h => ⟨h.1, h.2⟩⟩
  obtain ⟨horder, rfl⟩ := (hinv.reorder_eq_ok hstage).mp hq
  have hinv' := hinv.arranged ((approveOrder_iff hstage).mpr horder)
  -- the new layout is at the stage of the old one, so it is laid out under the same conditions
  have hagain : ∀ {second r}, (p.arranged order).reorder second = .ok r ↔
      IsOrder p.blocks.length second ∧ (p.arranged order).arranged second = r := by
    intro second r
    rw [hinv'.reorder_eq_ok hstage, length_arranged horder]
  refine ⟨relabelled_arranged horder, tiles_of_nonempty hinv'.nonempty, ?_,
    fun b k => horder.getElem?_inverse, ?_⟩
  · intro second r hbound
    rw [hagain, hinv.reorder_eq_ok hstage, horder.compose_iff hbound]
    refine and_congr_right fun hsecond => ?_
    rw [arranged_arranged hclosed horder hsecond]
  · refine hagain.mpr ⟨horder.inverse, ?_⟩
    rw [arranged_arranged hclosed horder horder.inverse, horder.compose_inverse]
    exact arranged_range hclosed (.range (horder.lt (List.mem_of_getElem? horder.entry)))

def crossing : Builder where
  closed :=
    [[.branch (.block 1) (.block 2) (.flag .eq)],
      [.aluImm (.op .add .w64) (.virtual .i64 0) (.virtual .i64 0) { bits := 1 }, .jump (.block 0)],
      [.branch (.block 2) (.block 3) (.notZero (.virtual .i64 0))]]
  current := some [.ret]

theorem reorder_relabels_crossing : ∃ p q, crossing.build = .ok p ∧ p.stage = .built ∧
    p.reorder [0, 2, 3, 1] = .ok q ∧ Relabelled [0, 2, 3, 1] p q ∧
    Tiles q.insts 0 q.blocks q.ranges ∧ q.reorder [0, 3, 1, 2] = .ok p := by
  have hbuild : ∃ p, crossing.build = .ok p ∧ p.blocks.length = 4 := ⟨_, rfl, rfl⟩
  obtain ⟨p, hp, hcount⟩ := hbuild
  have hstage := (Builder.build_eq_ok hp).1
  obtain ⟨haccept, hlaidOut⟩ := reorder_relabels (.built hp) (.inl hstage) [0, 2, 3, 1]
  obtain ⟨q, hq⟩ := haccept.mpr ⟨by rw [hcount]; decide, rfl⟩
  obtain ⟨hrelabelled, htiles, _, _, hback⟩ := hlaidOut q hq
  rw [hcount] at hback
  exact ⟨p, q, hp, hstage, hq, hrelabelled, htiles, hback⟩

end Reordering

section FollowingControl

/-- The block after `current` in a layout that follows control flow, once some blocks are placed: of
the successors that are not placed the last one and, if all of them are placed, the lowest block
that is not. -/
inductive ComesAfter (p : Program) (placed : List Nat) (current : Nat) : Nat → Prop where
  | successor {b : Block} {front back : List Nat} {next : Nat} (block : p.blocks[current]? = some b)
      (succs : b.succs = front ++ next :: back) (unplaced : next ∉ placed)
      (last : ∀ s ∈ back, s ∈ placed) : ComesAfter p placed current next
  | lowest {b : Block} {next : Nat} (block : p.blocks[current]? = some b)
      (succs : ∀ s ∈ b.succs, s ∈ placed) (within : next < p.blocks.length)
      (unplaced : next ∉ placed) (lowest : ∀ c < next, c ∈ placed) :
      ComesAfter p placed current next

variable {p : Program} {placed : List Nat} {current next : Nat}

theorem comesAfter_of_nextBlock? (hcurrent : current < p.blocks.length)
    (h : p.nextBlock? placed current = some next) : p.ComesAfter placed current next := by
  have hblock := List.getElem?_eq_getElem hcurrent
  simp only [nextBlock?, hblock, Option.elim, Option.or_eq_some_iff] at h
  rcases h with h | ⟨hnone, h⟩
  · obtain ⟨hunplaced, back, front, hsuccs, hback⟩ := List.find?_eq_some_iff_append.mp h
    rw [List.reverse_eq_append_iff, List.reverse_cons, List.append_assoc] at hsuccs
    refine .successor hblock hsuccs (by simpa using hunplaced) fun s hs => ?_
    simpa using hback s (List.mem_reverse.mp hs)
  · obtain ⟨hunplaced, hwithin, hbelow⟩ := List.find?_range_eq_some.mp h
    refine .lowest hblock ?_ (List.mem_range.mp hwithin) (by simpa using hunplaced) ?_
    · simpa using hnone
    · simpa using hbelow

theorem mem_of_nextBlock?_eq_none (h : p.nextBlock? placed current = none) {b : Nat}
    (hb : b < p.blocks.length) : b ∈ placed := by
  have hnone := List.find?_eq_none.mp (Option.or_eq_none_iff.mp h).2 b (List.mem_range.mpr hb)
  simpa using hnone

theorem ComesAfter.unplaced {current next : Nat} (h : p.ComesAfter placed current next) :
    next ∉ placed := by
  cases h with
  | successor _ _ unplaced _ => exact unplaced
  | lowest _ _ _ unplaced _ => exact unplaced

theorem ComesAfter.lt (hlinked : p.Linked) (h : p.ComesAfter placed current next) :
    next < p.blocks.length := by
  cases h with
  | successor block succs _ _ =>
      exact hlinked.succs _ (List.mem_of_getElem? block) next (by simp [succs])
  | lowest _ _ within _ _ => exact within

/-- The beginning of a layout that follows control flow. -/
structure Begun (p : Program) (order : List Nat) : Prop where
  nodup : order.Nodup
  within : ∀ b ∈ order, b < p.blocks.length
  entry : order[0]? = some 0
  after : ∀ (k current next : Nat), order[k]? = some current → order[k + 1]? = some next →
    p.ComesAfter (order.take (k + 1)) current next

theorem Begun.entry_only (hlinked : p.Linked) : p.Begun [0] where
  nodup := List.nodup_singleton 0
  within := by simpa using hlinked.entry
  entry := rfl
  after := by simp

theorem Begun.place (h : p.Begun (placed ++ [current])) (hlinked : p.Linked)
    (hnext : p.ComesAfter (placed ++ [current]) current next) :
    p.Begun (placed ++ [current] ++ [next]) where
  nodup := by
    rw [List.nodup_append_comm, List.singleton_append, List.nodup_cons]
    exact ⟨hnext.unplaced, h.nodup⟩
  within := by
    intro b hb
    rcases List.mem_append.mp hb with hb | hb
    · exact h.within b hb
    · rw [List.mem_singleton.mp hb]
      exact hnext.lt hlinked
  entry := by
    rw [List.getElem?_append_left (by simp)]
    exact h.entry
  after := by
    intro k c n hk hk'
    rcases Nat.lt_or_ge (k + 1) (placed ++ [current]).length with hlt | hge
    · rw [List.getElem?_append_left (by omega)] at hk
      rw [List.getElem?_append_left hlt] at hk'
      rw [List.take_append_of_le_length (by omega)]
      exact h.after k c n hk hk'
    · -- only the last place is new
      obtain ⟨hlast, _⟩ := List.getElem?_eq_some_iff.mp hk'
      obtain rfl : k = placed.length := by
        simp only [List.length_append, List.length_singleton] at hlast hge
        omega
      obtain rfl : current = c := by simpa using hk
      obtain rfl : next = n := by simpa using hk'
      rwa [List.take_left' (by simp)]

theorem Begun.length_le {order : List Nat} (h : p.Begun order) :
    order.length ≤ p.blocks.length := by
  simpa using (subperm_range h.within h.nodup).length_le

theorem Begun.orderFrom {count : Nat} (h : p.Begun (placed ++ [next])) (hlinked : p.Linked)
    (hcount : placed.length + count = p.blocks.length) :
    p.Begun (p.orderFrom count placed next) ∧
      (p.orderFrom count placed next).length = p.blocks.length := by
  induction count generalizing placed next with
  | zero =>
      have hroom := h.length_le
      rw [List.length_append, List.length_singleton] at hroom
      omega
  | succ count ih =>
      simp only [Program.orderFrom]
      cases hnext : p.nextBlock? (placed ++ [next]) next with
      | some b =>
          have hafter := comesAfter_of_nextBlock? (h.within next (by simp)) hnext
          refine ih (h.place hlinked hafter) ?_
          rw [List.length_append, List.length_singleton]
          omega
      | none =>
          have hperm : (placed ++ [next]).Perm (List.range p.blocks.length) :=
            (List.perm_ext_iff_of_nodup h.nodup List.nodup_range).mpr fun b =>
              ⟨fun hb => List.mem_range.mpr (h.within b hb),
                fun hb => mem_of_nextBlock?_eq_none hnext (List.mem_range.mp hb)⟩
          exact ⟨h, by simpa using hperm.length_eq⟩

theorem Linked.begun_fallthroughOrder (h : p.Linked) : p.Begun p.fallthroughOrder ∧
    p.fallthroughOrder.length = p.blocks.length := by
  have hentry : p.Begun ([] ++ [0]) := .entry_only h
  exact hentry.orderFrom h (Nat.zero_add _)

theorem Linked.isOrder_fallthroughOrder (h : p.Linked) :
    IsOrder p.blocks.length p.fallthroughOrder := by
  obtain ⟨hbegun, hlength⟩ := h.begun_fallthroughOrder
  exact ⟨perm_range_iff.mpr ⟨hlength, hbegun.within, hbegun.nodup⟩, hbegun.entry⟩

/-- The order that follows control flow has every block of a program that was built, the entry
first, so the blocks can be laid out in it. After each block comes the last of its successors that
is not placed before, or else the lowest block that is not. -/
theorem fallthroughOrder_greedy {builder : Builder} {p : Program}
    (hbuild : builder.build = .ok p) :
    (p.fallthroughOrder.Perm (List.range p.blocks.length) ∧ p.fallthroughOrder[0]? = some 0) ∧
    (∃ q, p.reorder p.fallthroughOrder = .ok q) ∧
    ∀ k, k + 1 < p.blocks.length → ∃ current next, p.fallthroughOrder[k]? = some current ∧
      p.fallthroughOrder[k + 1]? = some next ∧
      p.ComesAfter (p.fallthroughOrder.take (k + 1)) current next := by
  have hlinked := Linked.of_build hbuild
  have hinv := Invariant.of_build hbuild
  have horder := hlinked.isOrder_fallthroughOrder
  obtain ⟨hbegun, hlength⟩ := hlinked.begun_fallthroughOrder
  refine ⟨⟨horder.perm, horder.entry⟩, ?_, fun k hk => ?_⟩
  · exact ⟨_, (hinv.reorder_eq_ok (.inl (Builder.build_eq_ok hbuild).1)).mpr ⟨horder, rfl⟩⟩
  · have hcurrent := List.getElem?_eq_getElem (l := p.fallthroughOrder) (i := k) (by omega)
    have hnext := List.getElem?_eq_getElem (l := p.fallthroughOrder) (i := k + 1) (by omega)
    exact ⟨_, _, hcurrent, hnext, hbegun.after k _ _ hcurrent hnext⟩

theorem fallthroughOrder_greedy_crossing : ∃ p, crossing.build = .ok p ∧
    p.fallthroughOrder = [0, 2, 3, 1] ∧ (∃ q, p.reorder p.fallthroughOrder = .ok q) ∧
    p.ComesAfter [0] 0 2 ∧ p.ComesAfter [0, 2] 2 3 ∧ p.ComesAfter [0, 2, 3] 3 1 := by
  have hbuild : ∃ p, crossing.build = .ok p ∧ p.blocks.length = 4 ∧
      p.fallthroughOrder = [0, 2, 3, 1] := ⟨_, rfl, rfl, by decide⟩
  obtain ⟨p, hp, hcount, horder⟩ := hbuild
  obtain ⟨_, haccept, hafter⟩ := fallthroughOrder_greedy hp
  rw [hcount, horder] at hafter
  refine ⟨p, hp, horder, haccept, ?_, ?_, ?_⟩
  · obtain ⟨_, _, ⟨⟩, ⟨⟩, h⟩ := hafter 0 (by decide)
    exact h
  · obtain ⟨_, _, ⟨⟩, ⟨⟩, h⟩ := hafter 1 (by decide)
    exact h
  · obtain ⟨_, _, ⟨⟩, ⟨⟩, h⟩ := hafter 2 (by decide)
    exact h

end FollowingControl

end Program

end Codegen
