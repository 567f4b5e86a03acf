import Codegen.Proofs.A64.Decoding
import Codegen.Proofs.Program.Emission

/-!
Emitted control flow is the block graph. The words emitted for the terminator of a block are decoded
and followed; they lead to the offset of the successor that the terminator chose before branches
were lowered, whatever shape it was lowered to.
-/
namespace Codegen

open A64 (Inst BranchCond BranchTarget Cond Exit Test)

namespace A64.Inst

def flag? : Inst → Option Cond
  | branch _ _ (.flag c) => some c
  | _ => none

/-- The physical registers of the instruction are those of the target, and its condition code is a
declared one. -/
structure Supported (i : Inst) : Prop where
  regs : ∀ o, i.occurrences = .ok o → ∀ r ∈ o.all, r.isPhysical = true → A64.registers.Known r
  flags : ∀ c, i.flag? = some c → c ∈ Cond.declared

theorem supported_iff {i : Inst} : i.Supported ↔
    (∀ o ∈ i.occurrences.toOption, ∀ r ∈ o.all, r.isPhysical = true → A64.registers.Known r) ∧
      ∀ c ∈ i.flag?, c ∈ Cond.declared := by
  have hoption : ∀ o, o ∈ i.occurrences.toOption ↔ i.occurrences = .ok o := by
    intro o
    cases i.occurrences with
    | error f => simp [Except.toOption]
    | ok o' => simp [Except.toOption]
  constructor
  · intro h
    exact ⟨fun o ho => h.regs o ((hoption o).mp ho), h.flags⟩
  · intro h
    exact ⟨fun o ho => h.1 o ((hoption o).mpr ho), h.2⟩

instance (i : Inst) : Decidable i.Supported := decidable_of_iff _ supported_iff.symm

theorem flag?_rename (f : Reg → Reg) (i : Inst) : (i.rename f).flag? = i.flag? := by
  cases i with
  | branch t n cond =>
      cases cond with
      | _ => rfl
  | _ => rfl

theorem flag?_renumber (f : Nat → Nat) (i : Inst) : (i.renumber f).flag? = i.flag? := by
  cases i with
  | branch t n cond =>
      cases cond with
      | _ => rfl
  | _ => rfl

/-- The block where control goes on after an instruction that is not lowered, under a truth
assignment to tests. -/
def successor? (holds : Test → Bool) : Inst → Option Nat
  | .jump (.block b) => some b
  | .branch (.block t) (.block n) cond => cond.test.map fun x => if holds x then t else n
  | _ => none

def words (i : Inst) : Nat := i.size.toNat / 4

theorem words_ret : ret.words = 1 := by simp [words, size]

theorem words_jump (t : BranchTarget) : (jump t).words = 1 := by simp [words, size]

theorem words_branchTo (t : BranchTarget) (inverted : Bool) (cond : BranchCond) :
    (branchTo t inverted cond).words = 1 := by simp [words, size]

theorem words_branchElse (t n : BranchTarget) (cond : BranchCond) :
    (branchElse t n cond).words = 2 := by simp [words, size]

theorem words_settle (offsets : List CodeOffset) (here : CodeOffset) (i : Inst) :
    (i.settle offsets here).words = i.words := by
  rw [words, size_settle, words]

end A64.Inst

namespace Program

/-- What allocation and layout make of a program. -/
inductive Prepared (start : Program) : Program → Prop where
  | start : Prepared start start
  | allocate {p p' : Program} : Prepared start p → p.allocate = .ok p' → Prepared start p'
  | reorder {p p' : Program} {order : List Nat} :
      Prepared start p → p.reorder order = .ok p' → Prepared start p'

section Supported

variable {p : Program} (hsupported : ∀ i ∈ p.insts, i.Supported)

include hsupported

theorem supported_renamed {result : Allocation.Result} (hresult : p.assignment = .ok result) :
    ∀ i ∈ (p.renamed result).insts, i.Supported := by
  obtain ⟨_, g, hg, halloc⟩ := assignment_eq_ok.mp hresult
  have hnative : ∀ i ∈ p.insts, i.Native := fun i hi => (hsupported i hi).regs
  intro j hj
  obtain ⟨c, hc, hj⟩ := List.mem_flatMap.mp hj
  obtain ⟨b, hb, rfl⟩ := List.mem_map.mp hc
  obtain ⟨i, hi, rfl⟩ := List.mem_map.mp hj
  have hi' := hsupported i (List.mem_flatMap.mpr ⟨b, hb, hi⟩)
  constructor
  · intro o' ho' r hr _
    obtain ⟨us, hus, hmem⟩ := uses_of_graph hg hb hi
    obtain ⟨o, ho, rfl⟩ := Inst.uses_eq_ok.mp hus
    rw [(mapRegs_of_allocate halloc ho hmem).2] at ho'
    cases ho'
    obtain ⟨s, hs, rfl⟩ := Inst.Occurrences.mem_all_map.mp hr
    exact known_standIn hnative hg halloc (List.mem_flatMap.mpr ⟨b, hb, hi⟩) ho hs
  · intro c hc
    rw [Inst.flag?_rename] at hc
    exact hi'.flags c hc

theorem supported_renumber {i : Inst} (hi : i ∈ p.insts) (f : Nat → Nat) :
    (i.renumber f).Supported := by
  have hi' := hsupported i hi
  constructor
  · intro o ho
    rw [Inst.occurrences_renumber] at ho
    exact hi'.regs o ho
  · intro c hc
    rw [Inst.flag?_renumber] at hc
    exact hi'.flags c hc

end Supported

theorem Prepared.supported {start p : Program} (h : Prepared start p) (hstart : start.Invariant)
    (hsupported : ∀ i ∈ start.insts, i.Supported) :
    p.Invariant ∧ ∀ i ∈ p.insts, i.Supported := by
  induction h with
  | start => exact ⟨hstart, hsupported⟩
  | @allocate p p' _ hallocate ih =>
      obtain ⟨hinvariant, hinsts⟩ := ih
      rw [allocate_eq, Checked.map_eq_ok] at hallocate
      obtain ⟨result, hresult, rfl⟩ := hallocate
      exact ⟨hinvariant.renamed hresult, supported_renamed hinsts hresult⟩
  | @reorder p p' order _ hreorder ih =>
      obtain ⟨hinvariant, hinsts⟩ := ih
      rw [hinvariant.reorder_eq, Checked.map_eq_ok] at hreorder
      obtain ⟨⟨⟩, horder, rfl⟩ := hreorder
      refine ⟨hinvariant.arranged horder, ?_⟩
      intro j hj
      obtain ⟨c, hc, hj⟩ := List.mem_flatMap.mp hj
      obtain ⟨b, hb, rfl⟩ := mem_arranged horder c hc
      obtain ⟨i, hi, rfl⟩ := List.mem_map.mp hj
      exact supported_renumber hinsts (List.mem_flatMap.mpr ⟨b, hb, hi⟩) _

theorem encodable_of_supported {t n : BranchTarget} {cond : BranchCond}
    (h : (Inst.branch t n cond).Supported) : ∀ x, cond.test = some x → x.Encodable := by
  have hnumber : ∀ r, r ∈ cond.reg?.toList → ∀ k, (A64.hwEnc r).toOption = some k → k < 32 := by
    intro r hr k hk
    have hphys : r.isPhysical = true := by
      cases r with
      | virtual c i => cases hk
      | physical c e i => rfl
    have hall : ∀ r ∈ A64.registers.regs.map (·.reg), ∀ k ∈ (A64.hwEnc r).toOption, k < 32 := by
      decide
    refine hall r (h.regs _ rfl r ?_ hphys) k hk
    simpa [Inst.Occurrences.all] using hr
  intro x hx
  cases cond with
  | unset => cases hx
  | zero r =>
      obtain ⟨k, hk, rfl⟩ := Option.map_eq_some_iff.mp hx
      exact hnumber r (by simp [BranchCond.reg?]) k hk
  | notZero r =>
      obtain ⟨k, hk, rfl⟩ := Option.map_eq_some_iff.mp hx
      exact hnumber r (by simp [BranchCond.reg?]) k hk
  | flag c =>
      cases hx
      have hall : ∀ c ∈ Cond.declared, c.code < 16 := by decide
      exact hall c (h.flags c rfl)

section Blocks

theorem getElem?_lowerFrom (k n : Nat) (blocks : List Block) :
    (lowerFrom k blocks)[n]? = blocks[n]?.map fun b =>
      { b with
        insts :=
          lowerLast (if n + 1 < blocks.length then some (k + n + 1) else none) b.insts } := by
  induction blocks generalizing k n with
  | nil => rfl
  | cons b blocks ih =>
      cases n with
      | zero =>
          cases blocks with
          | nil => rfl
          | cons c blocks => simp [lowerFrom]
      | succ n =>
          rw [lowerFrom, List.getElem?_cons_succ, List.getElem?_cons_succ, ih, List.length_cons]
          have hnext : k + 1 + n + 1 = k + (n + 1) + 1 := by omega
          simp only [hnext, Nat.add_lt_add_iff_right]

variable (offsets : List CodeOffset)

theorem settleInsts_append (off : Nat) (front back : List Inst) :
    settleInsts offsets (UInt32.ofNat off) (front ++ back) =
      settleInsts offsets (UInt32.ofNat off) front ++
        settleInsts offsets (UInt32.ofNat (off + bytesOf front)) back := by
  induction front generalizing off with
  | nil => rfl
  | cons i front ih =>
      have hnext : UInt32.ofNat off + i.size = UInt32.ofNat (off + i.size.toNat) := by
        rw [UInt32.ofNat_add, UInt32.ofNat_toNat]
      rw [List.cons_append, settleInsts, settleInsts, hnext, ih, bytesOf_cons, Nat.add_assoc]
      rfl

theorem bytesOf_settleInsts (off : CodeOffset) (insts : List Inst) :
    bytesOf (settleInsts offsets off insts) = bytesOf insts := by
  have hsizes := congrArg (List.map UInt32.toNat) (map_size_settleInsts offsets off insts)
  rw [List.map_map, List.map_map] at hsizes
  exact congrArg List.sum hsizes

theorem getElem?_settleBlocks (off n : Nat) (blocks : List Block) :
    (settleBlocks offsets (UInt32.ofNat off) blocks)[n]? = blocks[n]?.map fun b =>
      { b with
        insts := settleInsts offsets
          (UInt32.ofNat (off + bytesOf ((blocks.take n).flatMap (·.insts)))) b.insts } := by
  induction blocks generalizing off n with
  | nil => rfl
  | cons b blocks ih =>
      cases n with
      | zero => rfl
      | succ n =>
          have hnext : UInt32.ofNat off + sizeOf b.insts =
              UInt32.ofNat (off + bytesOf b.insts) := by
            rw [sizeOf_eq, UInt32.ofNat_add]
          rw [settleBlocks, List.getElem?_cons_succ, List.getElem?_cons_succ, hnext, ih,
            List.take_succ_cons, List.flatMap_cons, bytesOf_append, Nat.add_assoc]

/-- Resolving moves no block. -/
theorem bytesOf_take_settleBlocks (off : CodeOffset) (n : Nat) (blocks : List Block) :
    bytesOf (((settleBlocks offsets off blocks).take n).flatMap (·.insts)) =
      bytesOf ((blocks.take n).flatMap (·.insts)) := by
  induction blocks generalizing off n with
  | nil => rfl
  | cons b blocks ih =>
      cases n with
      | zero => rfl
      | succ n =>
          rw [settleBlocks, List.take_succ_cons, List.flatMap_cons, bytesOf_append, ih,
            bytesOf_settleInsts, List.take_succ_cons, List.flatMap_cons, bytesOf_append]

end Blocks

section Terminators

theorem last_of_block {q : Program} {n : Nat} {c : Block} {front : List Inst} {i : Inst}
    (hc : q.blocks[n]? = some c) (hinsts : c.insts = front ++ [i]) :
    q.ranges[n]? = some ((q.before n).length, (q.before n ++ front).length + 1) ∧
      q.before (n + 1) = q.before n ++ front ++ [i] ∧
      q.insts[(q.before n ++ front).length]? = some i ∧
      q.position (q.before n ++ front).length = bytesOf (q.before n ++ front) := by
  obtain ⟨hn, rfl⟩ := List.getElem?_eq_some_iff.mp hc
  have hbefore : q.before (n + 1) = q.before n ++ front ++ [i] := by
    rw [before, List.take_succ_eq_append_getElem hn, List.flatMap_append, List.flatMap_singleton,
      hinsts, List.append_assoc]
    rfl
  have hsplit : q.insts =
      q.before n ++ front ++ i :: (q.blocks.drop (n + 1)).flatMap (·.insts) := by
    rw [insts_eq_before (n + 1), hbefore, List.append_assoc, List.singleton_append]
  refine ⟨?_, hbefore, ?_, ?_⟩
  · rw [getElem?_ranges hc, hinsts]
    simp [Nat.add_assoc]
  · rw [hsplit, List.getElem?_append_right (Nat.le_refl _), Nat.sub_self]
    rfl
  · rw [position, hsplit, List.take_left]

/-- The block that is laid out after another one. -/
def after? (p : Program) (n : Nat) : Option Nat :=
  if n + 1 < p.blocks.length then some (n + 1) else none

theorem last_of_settled {p : Program} {n : Nat} {b : Block} {front : List Inst} {last : Inst}
    (hb : p.blocks[n]? = some b) (hinsts : b.insts = front ++ [last]) :
    ∃ c front', p.lowered.settled.blocks[n]? = some c ∧
      c.insts = front' ++ [(last.lower (p.after? n)).settle p.lowered.settled.offsets
        (UInt32.ofNat (bytesOf (p.lowered.settled.before n ++ front')))] := by
  have hlowered : p.lowered.blocks[n]? =
      some { b with insts := front ++ [last.lower (p.after? n)] } := by
    rw [lowered, getElem?_lowerFrom, hb, Option.map_some, hinsts, lowerLast_append, Nat.zero_add]
    rfl
  have hbytes : bytesOf (p.lowered.settled.before n) = bytesOf (p.lowered.before n) :=
    bytesOf_take_settleBlocks _ _ _ _
  have hsettled := getElem?_settleBlocks p.lowered.settled.offsets 0 n p.lowered.blocks
  rw [hlowered, Option.map_some, Nat.zero_add] at hsettled
  refine ⟨_, settleInsts p.lowered.settled.offsets
    (UInt32.ofNat (bytesOf (p.lowered.before n))) front, hsettled, ?_⟩
  rw [bytesOf_append, hbytes, bytesOf_settleInsts]
  exact settleInsts_append _ _ _ _

end Terminators

section Following

open A64 (follow)

theorem reach_settle {offsets : List CodeOffset} {here b : Nat} {off : Int64}
    (hhere : here < 2 ^ 32)
    (h : (BranchTarget.block b).settle offsets (UInt32.ofNat here) = .resolved off) :
    (here : Int) + off.toInt = (offsets.getD b 0).toNat := by
  cases h
  have hlt := (offsets.getD b 0).toNat_lt
  rw [UInt32.toNat_ofNat', Nat.mod_eq_of_lt hhere,
    Int64.toInt_ofInt_of_le (by omega) (by omega)]
  omega

theorem isNext_iff {next : Option Nat} {b : Nat} :
    (BranchTarget.block b).isNext next = true ↔ next = some b := by
  cases next with
  | none => simp [BranchTarget.isNext]
  | some n => simp [BranchTarget.isNext, eq_comm]

variable {holds : Test → Bool} {out : List UInt8} {base here : Nat} {s s' : Emitter}
  {offsets : List CodeOffset} {next : Option Nat}
  (hhere : s.buffer.bytes.size = base + here) (hout : s'.buffer.bytes.toList <+: out)
  (hholds : ∀ t : Test, holds t.invert = !holds t)

include hhere hout

/-- A jump, which is dropped if its target begins where it would stand. -/
theorem follow_jump_lowered {b : Nat} {low : Inst} (hlow : (Inst.jump (.block b)).lower next = low)
    (hemit : (low.settle offsets (UInt32.ofNat here)).emit.exec s = (.ok (), s'))
    (hfit : here + low.size.toNat < 2 ^ 32)
    (hnext : ∀ c, next = some c → (offsets.getD c 0).toNat = here + low.size.toNat) :
    follow holds (out.drop base) low.words here = .reach (offsets.getD b 0).toNat := by
  by_cases hb : next = some b
  · simp only [Inst.lower, isNext_iff.mpr hb, if_true] at hlow
    subst hlow
    rw [hnext b hb]
    rfl
  · simp only [Inst.lower, isNext_iff.not.mpr hb, Bool.false_eq_true, if_false] at hlow
    subst hlow
    obtain ⟨off, hoff, hfollow⟩ := A64.follow_jump holds hhere hout hemit
    rw [Inst.words_jump, hfollow, reach_settle (by omega) hoff]

include hholds

/-- A conditional branch in each of its lowered shapes. -/
theorem follow_branch_lowered {t n : Nat} {cond : BranchCond} {low : Inst}
    (hlow : (Inst.branch (.block t) (.block n) cond).lower next = low)
    (hcond : ∀ x, cond.test = some x → x.Encodable)
    (hemit : (low.settle offsets (UInt32.ofNat here)).emit.exec s = (.ok (), s'))
    (hfit : here + low.size.toNat < 2 ^ 32)
    (hnext : ∀ c, next = some c → (offsets.getD c 0).toNat = here + low.size.toNat) :
    ∃ x, cond.test = some x ∧ follow holds (out.drop base) low.words here =
      .reach (offsets.getD (if holds x then t else n) 0).toNat := by
  by_cases ht : next = some t
  · -- the inverted condition branches away from the next block
    simp only [Inst.lower, isNext_iff.mpr ht, if_true] at hlow
    subst hlow
    obtain ⟨off, x, hoff, hx, hfollow⟩ := A64.follow_branchTo holds hhere hout hemit hcond hholds
    refine ⟨x, hx, ?_⟩
    rw [Inst.words_branchTo, hfollow, reach_settle (by omega) hoff]
    cases holds x with
    | false => rfl
    | true => exact congrArg (fun k : Nat => Exit.reach k) (hnext t ht).symm
  · by_cases hn : next = some n
    · simp only [Inst.lower, isNext_iff.not.mpr ht, isNext_iff.mpr hn, Bool.false_eq_true, if_false,
        if_true] at hlow
      subst hlow
      obtain ⟨off, x, hoff, hx, hfollow⟩ := A64.follow_branchTo holds hhere hout hemit hcond hholds
      refine ⟨x, hx, ?_⟩
      rw [Inst.words_branchTo, hfollow, reach_settle (by omega) hoff]
      cases holds x with
      | false => exact congrArg (fun k : Nat => Exit.reach k) (hnext n hn).symm
      | true => rfl
    · -- neither target is next: the second word is a jump, at an address of its own
      simp only [Inst.lower, isNext_iff.not.mpr ht, isNext_iff.not.mpr hn, Bool.false_eq_true,
        if_false] at hlow
      subst hlow
      have hsecond : here + 8 < 2 ^ 32 := hfit
      obtain ⟨off, off', x, hoff, hoff', hx, hfollow⟩ :=
        A64.follow_branchElse holds hhere hout hemit hcond
      have hjump : UInt32.ofNat here + 4 = UInt32.ofNat (here + 4) := (UInt32.ofNat_add _ _).symm
      rw [hjump] at hoff'
      refine ⟨x, hx, ?_⟩
      rw [Inst.words_branchElse, hfollow, reach_settle (by omega) hoff,
        reach_settle (by omega) hoff']
      cases holds x with
      | false => rfl
      | true => rfl

/-- The words of a lowered terminator lead where the terminator leads. -/
theorem follow_lowered {last low : Inst} {term : Terminator} (hterm : last.terminator = .ok term)
    (hproper : term ≠ .none) (hsupported : last.Supported) (hlow : last.lower next = low)
    (hemit : (low.settle offsets (UInt32.ofNat here)).emit.exec s = (.ok (), s'))
    (hfit : here + low.size.toNat < 2 ^ 32)
    (hnext : ∀ c, next = some c → (offsets.getD c 0).toNat = here + low.size.toNat) :
    (last = .ret ∧ follow holds (out.drop base) low.words here = .ret) ∨
      ∃ m ∈ term.succs, last.successor? holds = some m ∧
        follow holds (out.drop base) low.words here = .reach (offsets.getD m 0).toNat := by
  cases last with
  | ret =>
      subst hlow
      refine .inl ⟨rfl, ?_⟩
      have hwords : (Inst.ret.lower next).words = 1 := Inst.words_ret
      rw [hwords]
      exact A64.follow_ret holds hhere hout hemit
  | jump t =>
      obtain ⟨b, hb, hterm⟩ := Checked.bind_eq_ok.mp hterm
      cases BranchTarget.mustBlock_eq_ok.mp hb
      cases hterm
      refine .inr ⟨b, by simp [Terminator.succs], rfl, ?_⟩
      exact follow_jump_lowered hhere hout hlow hemit hfit hnext
  | branch t n cond =>
      obtain ⟨b, hb, hterm⟩ := Checked.bind_eq_ok.mp hterm
      obtain ⟨c, hc, hterm⟩ := Checked.bind_eq_ok.mp hterm
      cases BranchTarget.mustBlock_eq_ok.mp hb
      cases BranchTarget.mustBlock_eq_ok.mp hc
      cases hterm
      obtain ⟨x, hx, hfollow⟩ := follow_branch_lowered hhere hout hholds hlow
        (encodable_of_supported hsupported) hemit hfit hnext
      have hsuccessor : (Inst.branch (.block b) (.block c) cond).successor? holds =
          some (if holds x then b else c) := by
        rw [Inst.successor?, hx, Option.map_some]
      refine .inr ⟨_, ?_, hsuccessor, hfollow⟩
      cases holds x with
      | false => simp [Terminator.succs]
      | true => simp [Terminator.succs]
  | branchTo t inverted cond => cases hterm
  | branchElse t n cond => cases hterm
  | _ =>
      cases hterm
      exact absurd rfl hproper

end Following

section Exits

open A64 (follow)

def exit (q : Program) (holds : Test → Bool) (code : List UInt8) (n : Nat) : Option Exit := do
  let (_, stop) ← q.ranges[n]?
  let last ← q.insts[stop - 1]?
  return follow holds code last.words (q.position (stop - 1))

theorem exit_eq {q : Program} {n : Nat} {c : Block} {front : List Inst} {i : Inst}
    (holds : Test → Bool) (code : List UInt8) (hc : q.blocks[n]? = some c)
    (hinsts : c.insts = front ++ [i]) :
    q.exit holds code n = some (follow holds code i.words (bytesOf (q.before n ++ front))) := by
  obtain ⟨hrange, _, hlast, hposition⟩ := last_of_block hc hinsts
  simp only [exit, hrange, Nat.add_sub_cancel, hlast, hposition, Option.bind_eq_bind,
    Option.bind_some, Option.pure_def]

theorem bytesOf_before_mono (q : Program) {m n : Nat} (h : m ≤ n) :
    bytesOf (q.before m) ≤ bytesOf (q.before n) := by
  have hsplit : q.before n = q.before m ++ ((q.blocks.take n).drop m).flatMap (·.insts) := by
    have hm : q.before m = ((q.blocks.take n).take m).flatMap (·.insts) := by
      rw [before, List.take_take, Nat.min_eq_left h]
    rw [hm, ← List.flatMap_append, List.take_append_drop, before]
  rw [hsplit, bytesOf_append]
  omega

/-- Without a next block, no terminator is dropped. -/
theorem size_lower_none {last : Inst} {term : Terminator} (hterm : last.terminator = .ok term)
    (hproper : term ≠ .none) : 0 < (last.lower none).size.toNat := by
  cases last with
  | jump t | ret => simp [Inst.lower, BranchTarget.isNext, Inst.size]
  | branch t n cond => simp [Inst.lower, BranchTarget.isNext, Inst.size]
  | branchTo t inverted cond | branchElse t n cond => cases hterm
  | _ =>
      cases hterm
      exact absurd rfl hproper

theorem length_offsets (p : Program) : p.lowered.settled.offsets.length = p.blocks.length :=
  (length_layOut 0 p.lowered.blocks).trans (length_lowerFrom 0 p.blocks)

variable {p : Program} (hclosed : ∀ b ∈ p.blocks, b.Closed p.blocks.length)

include hclosed

/-- Every block begins before the end of the code, since the last one does not fall through. -/
theorem bytesOf_before_lt {m : Nat} (hm : m < p.blocks.length) :
    bytesOf (p.lowered.settled.before m) < bytesOf p.lowered.settled.insts := by
  obtain ⟨n, hn⟩ : ∃ n, p.blocks.length = n + 1 := ⟨p.blocks.length - 1, by omega⟩
  have hb := List.getElem?_eq_getElem (l := p.blocks) (i := n) (by omega)
  obtain ⟨front, last, term, hends⟩ := hclosed _ (List.mem_of_getElem? hb)
  obtain ⟨c, front', hc, hinsts⟩ := last_of_settled hb hends.insts
  -- nothing comes after the last block, so its terminator has at least one word
  have hafter : p.after? n = none := by
    rw [after?, if_neg (by omega)]
  have hsize := size_lower_none hends.ends hends.proper
  have hlast := (last_of_block hc hinsts).2.1
  have hle := bytesOf_before_mono p.lowered.settled (show m ≤ n by omega)
  have hall := bytesOf_before_le (p := p.lowered.settled) (n + 1)
  rw [hlast, bytesOf_append, bytesOf_append, bytesOf_cons, Inst.size_settle,
    hafter] at hall
  omega

variable {buffer : CodeBuffer} {pool : ConstantPool} {t : Emitter} {out : List UInt8}
  {holds : Test → Bool}
  (hplaced : layOut 0 p.lowered.settled.blocks =
    (p.lowered.settled.offsets, p.lowered.settled.codeSize))
  (hsize : bytesOf p.lowered.settled.insts < 2 ^ 32)

include hplaced hsize

omit hclosed in
theorem toNat_offset {m : Nat} (hm : m < p.blocks.length) :
    (p.lowered.settled.offsets.getD m 0).toNat = bytesOf (p.lowered.settled.before m) := by
  have hlength : m < p.lowered.settled.blocks.length := by
    have hsettled := length_layOut 0 p.lowered.settled.blocks
    rw [hplaced, length_offsets] at hsettled
    omega
  have hle := bytesOf_before_le (p := p.lowered.settled) m
  rw [List.getD_eq_getElem?_getD, getElem?_offsets hplaced hlength, Option.getD_some,
    UInt32.toNat_ofNat', Nat.mod_eq_of_lt (by omega)]

theorem exit_of_encoded (hsupported : ∀ i ∈ p.insts, i.Supported)
    (hholds : ∀ x : Test, holds x.invert = !holds x)
    (hencoded : (p.lowered.settled.insts.forM Inst.emit).exec { buffer, pool } = (.ok (), t))
    (hout : t.buffer.bytes.toList <+: out) {n : Nat} {b : Block} (hb : p.blocks[n]? = some b) :
    ∃ last, b.insts.getLast? = some last ∧
      ((last = .ret ∧ p.lowered.settled.exit holds (out.drop buffer.bytes.size) n = some .ret) ∨
        ∃ m < p.blocks.length, last.successor? holds = some m ∧
          p.lowered.settled.exit holds (out.drop buffer.bytes.size) n =
            some (.reach (p.lowered.settled.offsets.getD m 0).toNat)) := by
  have hmem := List.mem_of_getElem? hb
  obtain ⟨front, last, term, hends⟩ := hclosed b hmem
  have hlast : last ∈ p.insts := by
    refine List.mem_flatMap.mpr ⟨b, hmem, ?_⟩
    simp [hends.insts]
  refine ⟨last, by simp [hends.insts], ?_⟩
  obtain ⟨c, front', hc, hinsts⟩ := last_of_settled hb hends.insts
  obtain ⟨_, hbefore, hinst, hposition⟩ := last_of_block hc hinsts
  rw [exit_eq holds _ hc hinsts, Inst.words_settle]
  -- the terminator stands at `here`, and where it ends the next block begins
  generalize hhere : bytesOf (p.lowered.settled.before n ++ front') = here at *
  generalize hlow : last.lower (p.after? n) = low at *
  have hend : bytesOf (p.lowered.settled.before (n + 1)) = here + low.size.toNat := by
    rw [hbefore, bytesOf_append, hhere, bytesOf_cons, Inst.size_settle]
    rfl
  have hfit : here + low.size.toNat < 2 ^ 32 := by
    have hle := bytesOf_before_le (p := p.lowered.settled) (n + 1)
    omega
  have hnext : ∀ k, p.after? n = some k →
      (p.lowered.settled.offsets.getD k 0).toNat = here + low.size.toNat := by
    intro k hk
    unfold after? at hk
    split at hk
    · cases hk
      rw [toNat_offset hplaced hsize (by assumption), hend]
    · cases hk
  obtain ⟨s, s', _, hemit, hbegin, _, hstays⟩ := emitted_at hencoded hinst
  replace hstays := hstays.trans hout
  have hbegin : s.buffer.bytes.size = buffer.bytes.size + here := by
    rw [← hposition]
    exact hbegin
  rcases follow_lowered hbegin hstays hholds hends.ends hends.proper (hsupported last hlast) hlow
    hemit hfit hnext with ⟨rfl, hfollow⟩ | ⟨m, hm, hsuccessor, hfollow⟩
  · exact .inl ⟨rfl, congrArg some hfollow⟩
  · exact .inr ⟨m, hends.within m hm, hsuccessor, congrArg some hfollow⟩

end Exits

/-- In emitted code below the limit, the words of the last instruction of a block lead to the offset
of the successor that the instruction had before it was lowered, and this is an offset of code. A
return stays one. -/
theorem exit_of_emit {builder : Builder} {start p lowered q : Program} {buffer out : CodeBuffer}
    {pool : ConstantPool} {holds : Test → Bool} (hbuild : builder.build = .ok start)
    (hsupported : ∀ i ∈ start.insts, i.Supported) (hprepared : Prepared start p)
    (hlower : p.lowerBranches = .ok lowered) (hresolve : lowered.resolveOffsets = .ok q)
    (hemit : q.emit buffer = (.ok pool, out)) (hsize : bytesOf q.insts < 2 ^ 32)
    (hholds : ∀ t : Test, holds t.invert = !holds t) :
    ∀ (n : Nat) (b : Block), p.blocks[n]? = some b → ∃ last, b.insts.getLast? = some last ∧
      ((last = .ret ∧ q.exit holds (out.bytes.toList.drop buffer.bytes.size) n = some .ret) ∨
        ∃ (m : Nat) (off : CodeOffset), last.successor? holds = some m ∧ q.offsets[m]? = some off ∧
          q.exit holds (out.bytes.toList.drop buffer.bytes.size) n = some (.reach off.toNat) ∧
          off.toNat < q.codeSize.toNat) := by
  obtain ⟨hinvariant, hinsts⟩ := hprepared.supported (.of_build hbuild) hsupported
  rw [lowerBranches_eq, Checked.map_eq_ok] at hlower
  obtain ⟨⟨⟩, hrequire, rfl⟩ := hlower
  have hstage : p.stage = .allocated := by
    simpa [Pass.stages] using require_eq_ok.mp hrequire
  have hlowered := hinvariant.lower hstage
  rw [hlowered.resolveOffsets_eq, Checked.map_eq_ok] at hresolve
  obtain ⟨⟨⟩, _, rfl⟩ := hresolve
  have hplaced := (hlowered.settle rfl).placed rfl
  have hclosed := hinvariant.closed (.inr hstage)
  obtain ⟨t, hencoded, hout⟩ := encoded_of_emit hemit
  intro n b hb
  obtain ⟨last, hlast, hexit⟩ :=
    exit_of_encoded hclosed hplaced hsize hinsts hholds hencoded hout hb
  refine ⟨last, hlast, hexit.imp id ?_⟩
  rintro ⟨m, hm, hsuccessor, hexit⟩
  have hoffset := toNat_offset hplaced hsize hm
  have hlt := bytesOf_before_lt hclosed hm
  refine ⟨m, _, hsuccessor, ?_, hexit, ?_⟩
  · have hlength : m < p.lowered.settled.offsets.length := by rwa [length_offsets]
    rw [List.getD_eq_getElem _ _ hlength, List.getElem?_eq_getElem hlength]
  · rw [hoffset, toNat_codeSize hplaced hsize]
    exact hlt

/-- What the countdown builds. -/
def counting : Program := (Session.countdown.build.toOption).getD { blocks := [] }

def countingRegs : Allocation.Result where
  assignment := { entries := [(.virtual .i64 0, A64.gpr 0)] }
  clobbered := [A64.gpr 0]

theorem assignment_counting : counting.assignment = .ok countingRegs := by
  rw [assignment_eq_ok]
  refine ⟨rfl, counting.graph.toOption.getD [], by decide +kernel, ?_⟩
  have hlive : Allocation.liveness A64.registers (counting.graph.toOption.getD []) =
      .ok [.ofList [], .ofList [.virtual .i64 0], .ofList []] := by decide +kernel
  simp only [Allocation.allocate, hlive, Checked.ok_bind]
  rw [Allocation.intervals, List.mergeSort_of_pairwise (by decide +kernel)]
  decide +kernel

/-- The countdown with its loop at the end, where neither target of the branch comes next. -/
def loopLast : Program := (counting.renamed countingRegs).arranged [0, 2, 1]

theorem prepared_loopLast : Prepared counting loopLast := by
  have hallocate : counting.allocate = .ok (counting.renamed countingRegs) := by
    rw [allocate_eq, assignment_counting]
    rfl
  have hreorder : (counting.renamed countingRegs).reorder [0, 2, 1] = .ok loopLast := by
    decide +kernel
  exact .reorder (.allocate .start hallocate) hreorder

/-- Every register is zero, and the conditions with an even code hold. -/
def allZero : Test → Bool
  | .zero _ => true
  | .notZero _ => false
  | .flag code => !code.testBit 0

def loopLastCode : CodeBuffer := (loopLast.lowered.settled.emit {}).2

theorem exit_of_emit_counting :
    (∃ b, loopLast.blocks[2]? = some b ∧ b.insts.getLast? =
      some (.branch (.block 2) (.block 1) (.notZero (A64.gpr 0)))) ∧
    loopLast.lowered.settled.offsets[1]? = some 8 ∧
    loopLast.lowered.settled.exit allZero (loopLastCode.bytes.toList.drop 0) 2 =
      some (.reach 8) := by
  have hbuild : Session.countdown.build = .ok counting := by decide +kernel
  have hsupported : ∀ i ∈ counting.insts, i.Supported := by decide +kernel
  have hemit : loopLast.lowered.settled.emit {} = (.ok (.after 24), loopLastCode) := by
    refine Prod.ext ?_ rfl
    decide +kernel
  have hholds : ∀ t : Test, allZero t.invert = !allZero t := by
    intro t
    cases t with
    | zero n => rfl
    | notZero n => rfl
    | flag code =>
        simp only [allZero, Test.invert, Nat.testBit_xor]
        cases code.testBit 0 with
        | false => rfl
        | true => rfl
  have hblock : loopLast.blocks[2]? = some (loopLast.blocks.getD 2 ⟨[], []⟩) := by decide +kernel
  have hbranch : (loopLast.blocks.getD 2 ⟨[], []⟩).insts.getLast? =
      some (.branch (.block 2) (.block 1) (.notZero (A64.gpr 0))) := by decide +kernel
  have hoffset : loopLast.lowered.settled.offsets[1]? = some 8 := by decide +kernel
  obtain ⟨last, hlast, hexit⟩ := exit_of_emit hbuild hsupported prepared_loopLast rfl
    (by decide +kernel) hemit (by decide +kernel) hholds 2 _ hblock
  refine ⟨⟨_, hblock, hbranch⟩, hoffset, ?_⟩
  cases hbranch.symm.trans hlast
  rcases hexit with ⟨hret, _⟩ | ⟨m, off, hm, hoff, hexit, _⟩
  · cases hret
  · cases hm
    cases hoffset.symm.trans hoff
    exact hexit

end Program

end Codegen
