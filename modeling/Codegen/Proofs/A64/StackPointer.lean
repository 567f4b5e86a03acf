import Codegen.Proofs.A64.Execution
import Codegen.Proofs.A64.Words

/-!
The two registers of number 31. Which of them a word names is told by its form and by the position
in it: `Form.positions` gives the registers of a form, each with what 31 stands for there. An
instruction is emitted as it is meant if the positions of its words name the stack pointer and the
zero register where its operands are these. Emission refuses the stack pointer in few places;
`Inst.Exchanges` lists the operands that it exchanges, and there are no others.
-/
namespace Codegen.A64

section Reading

/-- What the number 31 stands for. -/
inductive Role where
  | stack
  | zero
  deriving DecidableEq, Repr

namespace Role

def reg : Role → Reg
  | stack => sp
  | zero => xzr

def other : Role → Reg
  | stack => xzr
  | zero => sp

def named (role : Role) (n : Nat) : Reg := if h : n < 31 then gpr ⟨n, h⟩ else role.reg

end Role

/-- What 31 stands for where the result of an operation on an immediate or an extended register
goes: a result with flags may be dropped, one without them may go to the stack pointer. -/
def AluFn.destination : AluFn → Role
  | adds | subs => .zero
  | _ => .stack

def Place.positions : Place → List (Role × Nat)
  | unscaled rn _ | scaled rn _ | preIndexed rn _ | postIndexed rn _ => [(.stack, rn)]
  | index rn rm | indexScaled rn rm _ => [(.stack, rn), (.zero, rm)]
  | literal _ => []

def Test.positions : Test → List (Role × Nat)
  | .zero n | .notZero n => [(.zero, n)]
  | .flag _ => []

/-- The positions of the registers of a form, in the order of the operands. -/
def Form.positions : Form → List (Role × Nat)
  | shifted _ _ rd rn rm _ _ | shiftReg _ _ rd rn rm => [(.zero, rd), (.zero, rn), (.zero, rm)]
  | extended fn _ rd rn rm _ => [(fn.destination, rd), (.stack, rn), (.zero, rm)]
  | multiplyAdd _ rd rn rm ra => [(.zero, rd), (.zero, rn), (.zero, rm), (.zero, ra)]
  | imm12 fn _ rd rn _ _ => [(fn.destination, rd), (.stack, rn)]
  | bitmask _ _ rd rn _ _ _ => [(.stack, rd), (.zero, rn)]
  | shiftImm _ _ rd rn _ => [(.zero, rd), (.zero, rn)]
  | moveWide _ rd _ _ => [(.zero, rd)]
  | access _ rt place => (.zero, rt) :: place.positions
  | pair _ rt rt2 _ rn _ => [(.zero, rt), (.zero, rt2), (.stack, rn)]
  | callReg rn | ret rn => [(.zero, rn)]
  | branch test _ => test.positions
  | nop | udf | jump _ | call _ => []

end Reading

section Execution

namespace Machine

def withSp (m : Machine) (v : BitVec 64) : Machine := { m with sp := v }

variable (m : Machine) (v : BitVec 64)

theorem base_withSp {n : Nat} (h : n ≠ 31) : (m.withSp v).base n = m.base n := by
  simp only [base, if_neg h]
  rfl

theorem writeBase_withSp {n : Nat} (h : n ≠ 31) (x : BitVec 64) :
    (m.withSp v).writeBase n x = (m.writeBase n x).withSp v := by
  simp only [writeBase, if_neg h]
  rfl

theorem transfer_withSp (a : Access) (rt : Nat) (address : BitVec 64) :
    (m.withSp v).transfer a rt address = (m.transfer a rt address).withSp v := by
  cases a with
  | load op => rfl
  | store op => rfl

theorem setFlags_withSp (flags : Option (BitVec 4)) :
    (m.withSp v).setFlags flags = (m.setFlags flags).withSp v := by
  cases flags with
  | none => rfl
  | some f => rfl

end Machine

variable {m : Machine}

/-- An address that does not name the stack pointer does not depend on it. -/
theorem Place.resolve_withSp {place : Place} (h : (.stack, 31) ∉ place.positions) (v : BitVec 64)
    (a : Access) : place.resolve (m.withSp v) a = place.resolve m a := by
  have hbase : ∀ rn, (.stack, rn) ∈ place.positions → (m.withSp v).base rn = m.base rn := by
    intro rn hrn
    refine m.base_withSp v ?_
    rintro rfl
    exact h hrn
  have hread : (m.withSp v).read = m.read := rfl
  cases place with
  | literal offset => rfl
  | unscaled rn offset | scaled rn offset | index rn rm | indexScaled rn rm ext
    | preIndexed rn offset | postIndexed rn offset =>
      simp only [resolve, hread, hbase rn (by simp [positions])]

theorem Place.mem_positions_back {place : Place} {a : Access} {address x : BitVec 64} {rn : Nat}
    (h : place.resolve m a = some (address, some (rn, x))) : (.stack, rn) ∈ place.positions := by
  cases place with
  | literal offset | unscaled rn offset | scaled rn offset | index rn rm => cases h
  | indexScaled rn rm ext => simp [resolve] at h
  | preIndexed rn offset | postIndexed rn offset =>
      cases h
      exact List.mem_singleton_self _

theorem AluFn.destination_of_apply {n : Nat} {fn : AluFn} {x y r : BitVec n}
    (h : fn.apply x y = some (r, none)) : fn.destination = .stack := by
  cases fn with
  | adds | subs => cases h
  | _ => rfl

/-- The positions are those of the machine: a word that does not name the stack pointer neither
reads nor writes it. -/
theorem Form.execute_withSp {f : Form} (h : (.stack, 31) ∉ f.positions) (v : BitVec 64) :
    f.execute (m.withSp v) = (f.execute m).map (·.withSp v) := by
  cases f with
  | branch test offset =>
      have hholds : (m.withSp v).holds test = m.holds test := by
        cases test with
        | _ => rfl
      simp only [execute, hholds]
      split
      · rfl
      · rfl
  | shifted fn w rd rn rm shift amount =>
      have hread : (m.withSp v).read = m.read := rfl
      simp only [execute, hread]
      split
      · rfl
      · cases shift.apply ((m.read rm).setWidth w.bits) amount with
        | none => rfl
        | some y =>
            simp only [Option.bind_eq_bind, Option.bind_some]
            cases fn.apply ((m.read rn).setWidth w.bits) y with
            | none => rfl
            | some result =>
                obtain ⟨x, flags⟩ := result
                exact congrArg (fun m' => some m'.next)
                  ((m.write rd (x.setWidth 64)).setFlags_withSp v flags)
  | imm12 fn w rd rn bits shift12 =>
      have hrn : rn ≠ 31 := fun hrn => h (by simp [positions, hrn])
      simp only [execute, m.base_withSp v hrn]
      cases happly : fn.apply ((m.base rn).setWidth w.bits)
          (BitVec.ofNat w.bits (if shift12 then bits <<< 12 else bits)) with
      | none => rfl
      | some result =>
          obtain ⟨x, flags⟩ := result
          cases flags with
          | some f => rfl
          | none =>
              have hrd : rd ≠ 31 := fun hrd =>
                h (by simp [positions, hrd, AluFn.destination_of_apply happly])
              exact congrArg (fun m' => some m'.next) (m.writeBase_withSp v hrd (x.setWidth 64))
  | access a rt place =>
      have hplace : (.stack, 31) ∉ place.positions := fun hplace => h (by simp [positions, hplace])
      simp only [execute, step, Place.resolve_withSp hplace]
      cases hres : place.resolve m a with
      | none => rfl
      | some result =>
          obtain ⟨address, back⟩ := result
          simp only [Option.bind_eq_bind, Option.bind_some, m.transfer_withSp]
          split
          · rfl
          · cases back with
            | none => rfl
            | some b =>
                have hne : b.1 ≠ 31 := fun hb => hplace (hb ▸ Place.mem_positions_back hres)
                exact congrArg (fun m' => some m'.next) (Machine.writeBase_withSp _ v hne b.2)
  | _ => rfl

end Execution

section Meaning

/-- The position names the stack pointer exactly if the operand is the stack pointer, and the zero
register exactly if it is the zero register. -/
def NamedAt (r : Reg) (position : Role × Nat) : Prop :=
  General r → (position.1.named position.2 = sp ↔ r = sp) ∧
    (position.1.named position.2 = xzr ↔ r = xzr)

def Address.operands : Address → List Reg
  | unset | literal _ => []
  | base rn | unscaled rn _ | scaled rn _ | preIndexed rn _ | postIndexed rn _ => [rn]
  | index rn rm | indexScaled rn rm _ | indexExtended rn rm _ _ => [rn, rm]

namespace Inst

/-- The register operands of an instruction of one word, in the order of the positions in it. A
return goes to the link register. -/
def operands : Inst → List Reg
  | alu _ rd rn rm | aluShifted _ rd rn rm _ | aluExtended _ rd rn rm _ => [rd, rn, rm]
  | aluThree _ rd rn rm ra => [rd, rn, rm, ra]
  | aluImm _ rd rn _ | aluBitmask _ rd rn _ | aluShift _ rd rn _ => [rd, rn]
  | load _ r (.direct a) | store _ r (.direct a) => r :: a.operands
  | storePair rt rt2 (.access _ rn _) | loadPair rt rt2 (.access _ rn _) => [rt, rt2, rn]
  | mov rd rm => [rd, rm]
  | movZ rd _ | movN rd _ => [rd]
  | callReg rn => [rn]
  | ret => [lr]
  | branch _ _ cond | branchTo _ _ cond | branchElse _ _ cond => cond.reg?.toList
  | _ => []

/-- The word names the stack pointer and the zero register where the operands are these. -/
def MeantBy (i : Inst) (w : UInt32) : Prop :=
  ∃ f, disassemble w = some f ∧ List.Forall₂ NamedAt i.canonical.operands f.positions

end Inst

/-- The words that were written name the stack pointer and the zero register where the operands of
the instruction are these. -/
def Inst.EmittedAsMeant (i : Inst) (s t : Emitter) : Prop :=
  Written MeantBy (i.singles s.buffer.offset s.pool) s t

end Meaning

section Exchange

/-- The base of an address is never the zero register, and its index never the stack pointer. -/
def Address.Exchanges : Address → Prop
  | unset | literal _ => False
  | base rn | unscaled rn _ | scaled rn _ | preIndexed rn _ | postIndexed rn _ => rn = xzr
  | index rn rm | indexScaled rn rm _ | indexExtended rn rm _ _ => rn = xzr ∨ rm = sp

def Mem.Exchanges : Mem → Prop
  | direct a => a.Exchanges
  | _ => False

/-- The instruction has an operand that is the one register of number 31 where its word can only
name the other. -/
def Inst.Exchanges : Inst → Prop
  | alu (.op fn _) rd rn rm =>
    rm = sp ∨
      if (fn = .add ∨ fn = .sub) ∧ (rd = sp ∨ rn = sp) then rd = xzr ∨ rn = xzr
      else rd = sp ∨ rn = sp
  | aluThree _ rd rn rm ra => rd = sp ∨ rn = sp ∨ rm = sp ∨ ra = sp
  | aluShifted _ rd rn rm _ => rd = sp ∨ rn = sp ∨ rm = sp
  | aluShift _ rd rn _ => rd = sp ∨ rn = sp
  | aluImm (.op fn _) rd rn _ => rd = fn.destination.other ∨ rn = xzr
  | aluBitmask _ rd rn _ => rd = xzr ∨ rn = sp
  | aluExtended (.op fn _) rd rn rm _ => rd = fn.destination.other ∨ rn = xzr ∨ rm = sp
  | load _ r mem | store _ r mem => r = sp ∨ mem.Exchanges
  | storePair rt rt2 (.access _ rn _) | loadPair rt rt2 (.access _ rn _) =>
    rt = sp ∨ rt2 = sp ∨ rn = xzr
  | mov rd rm => rd = sp ∧ rm = xzr ∨ rd = xzr ∧ rm = sp
  | movZ rd _ | movN rd _ => rd = sp
  | callReg rn => rn = sp
  | branchTo _ _ cond | branchElse _ _ cond => cond.reg? = some sp
  | _ => False

@[simp] theorem namedAt_iff {role : Role} {r : Reg} :
    NamedAt r (role, number r) ↔ r ≠ role.other := by
  by_cases hr : General r
  · simp only [NamedAt, hr, forall_const]
    rcases general_cases hr with rfl | rfl | ⟨n, rfl⟩
    · cases role with
      | stack => decide
      | zero => decide
    · cases role with
      | stack => decide
      | zero => decide
    · revert n
      cases role with
      | stack => decide
      | zero => decide
  · have hne : r ≠ role.other := by
      rintro rfl
      cases role with
      | stack => exact hr (by decide)
      | zero => exact hr (by decide)
    exact ⟨fun _ => hne, fun _ h => absurd h hr⟩

theorem Address.namedAt_iff {a : Address} {place : Place} (h : a.canonical.place? = some place) :
    List.Forall₂ NamedAt a.canonical.operands place.positions ↔ ¬ a.Exchanges := by
  cases a with
  | unset => cases h
  | _ =>
      cases h
      simp [canonical, operands, Place.positions, Exchanges, Role.other]

theorem BranchCond.namedAt_iff {cond : BranchCond} {test : Test} (h : cond.test = some test) :
    List.Forall₂ NamedAt cond.reg?.toList test.positions ↔ cond.reg? ≠ some sp := by
  cases cond with
  | unset => cases h
  | flag c =>
      cases h
      simp [reg?, Test.positions]
  | zero r | notZero r =>
      cases r with
      | virtual c n => cases h
      | physical c e n =>
          cases h
          have hnamed : NamedAt (.physical c e n) (.zero, e.toNat) ↔ .physical c e n ≠ sp :=
            A64.namedAt_iff
          simp [reg?, Test.positions, hnamed]

theorem Inst.namedAt_alu {fn : AluFn} {w : Width} {rd rn rm : Reg} {f : Form}
    (h : (alu (.op fn w) rd rn rm).canonical.form = some f) :
    List.Forall₂ NamedAt (alu (.op fn w) rd rn rm).canonical.operands f.positions ↔
      ¬ (alu (.op fn w) rd rn rm).Exchanges := by
  -- all forms but the extended one name the zero register in every position
  have hzero : ∀ {p : Prop}, (p ↔ rd ≠ sp ∧ rn ≠ sp ∧ rm ≠ sp) →
      ¬ ((fn = .add ∨ fn = .sub) ∧ (rd = sp ∨ rn = sp)) →
      (p ↔ ¬ (alu (.op fn w) rd rn rm).Exchanges) := by
    intro p hp hfn
    rw [hp, Exchanges, if_neg hfn]
    tauto
  by_cases hshift : fn.shift?.isSome
  · simp only [canonical, if_pos hshift] at h ⊢
    cases h
    refine hzero (by simp [operands, Form.positions, Role.other]) ?_
    rintro ⟨rfl | rfl, _⟩
    · cases hshift
    · cases hshift
  · by_cases hsp : (fn = .add ∨ fn = .sub) ∧ (rd = sp ∨ rn = sp)
    · have hfn : fn.destination = .stack := by
        rcases hsp.1 with rfl | rfl
        · rfl
        · rfl
      simp only [canonical, if_neg hshift, if_pos hsp] at h ⊢
      cases h
      rw [Exchanges, if_pos hsp]
      simp only [operands, Form.positions, hfn, List.forall₂_cons, namedAt_iff, Role.other,
        List.Forall₂.nil, and_true]
      tauto
    · simp only [canonical, if_neg hshift, if_neg hsp] at h ⊢
      cases h
      exact hzero (by simp [operands, Form.positions, Role.other]) hsp

theorem Inst.namedAt_mov {rd rm : Reg} {f : Form} (h : (mov rd rm).canonical.form = some f) :
    List.Forall₂ NamedAt (mov rd rm).canonical.operands f.positions ↔ ¬ (mov rd rm).Exchanges := by
  have hne : sp ≠ xzr := by decide
  by_cases hsp : rd = sp ∨ rm = sp
  · simp only [canonical, if_pos hsp] at h ⊢
    cases h
    simp only [operands, Form.positions, List.forall₂_cons, namedAt_iff, AluFn.destination,
      Role.other, List.Forall₂.nil, and_true, Exchanges]
    rcases hsp with rfl | rfl
    · simp [hne]
    · simp [hne]
  · simp only [canonical, if_neg hsp] at h ⊢
    cases h
    simp only [operands, Form.positions, List.forall₂_cons, namedAt_iff, Role.other,
      List.Forall₂.nil, and_true, Exchanges]
    tauto

/-- An inverted branch tells the opposite condition, which tests the same register. -/
theorem Inst.exists_of_form_branchTo {target : BranchTarget} {inverted : Bool} {cond : BranchCond}
    {f : Form} (h : (branchTo target inverted cond).canonical.form = some f) :
    ∃ (tested : BranchCond) (test : Test) (offset : Int), tested.reg? = cond.reg? ∧
      (branchTo target inverted cond).canonical.operands = tested.reg?.toList ∧
      tested.test = some test ∧ f = .branch test offset := by
  have hplain : ∀ {tested : BranchCond}, (branchTo target false tested).form = some f →
      ∃ test offset, tested.test = some test ∧ f = .branch test offset := by
    intro tested h
    cases target with
    | block b => cases h
    | resolved offset =>
        obtain ⟨test, htest, rfl⟩ := Option.map_eq_some_iff.mp h
        exact ⟨test, _, htest, rfl⟩
  cases inverted with
  | false =>
      obtain ⟨test, offset, htest, hf⟩ := hplain h
      exact ⟨cond, test, offset, rfl, rfl, htest, hf⟩
  | true =>
      cases cond with
      | unset =>
          cases target with
          | _ => cases h
      | zero r | notZero r | flag c =>
          obtain ⟨test, offset, htest, hf⟩ := hplain h
          refine ⟨_, test, offset, ?_, ?_, htest, hf⟩
          · rfl
          · rfl

theorem Inst.namedAt_branchTo {target : BranchTarget} {inverted : Bool} {cond : BranchCond}
    {f : Form} (h : (branchTo target inverted cond).canonical.form = some f) :
    List.Forall₂ NamedAt (branchTo target inverted cond).canonical.operands f.positions ↔
      ¬ (branchTo target inverted cond).Exchanges := by
  obtain ⟨tested, test, offset, hreg, hoperands, htest, rfl⟩ := exists_of_form_branchTo h
  rw [hoperands, Exchanges, ← hreg]
  exact BranchCond.namedAt_iff htest

theorem Inst.meantBy_iff {i : Inst} {w : UInt32} (h : i.ToldBy w) :
    i.MeantBy w ↔ ¬ i.Exchanges := by
  obtain ⟨f, hf, hform⟩ := h
  have hread : i.MeantBy w ↔ List.Forall₂ NamedAt i.canonical.operands f.positions := by
    simp [MeantBy, hf]
  rw [hread]
  clear hread hf
  cases i with
  | unset | nop | branch taken notTaken cond | branchElse taken notTaken cond => cases hform
  | nop4 | call callee stackmap | udf trap | movZ rd imm | movN rd imm | callReg rn =>
      cases hform
      simp [canonical, operands, Form.positions, Exchanges, Role.other]
  | ret =>
      cases hform
      have hlr : lr ≠ Role.zero.other := by decide
      simp [canonical, operands, Form.positions, Exchanges, hlr]
  | jump target =>
      cases target with
      | block b => cases hform
      | resolved offset =>
          cases hform
          simp [canonical, operands, Form.positions, Exchanges]
  | alu op rd rn rm =>
      cases op with
      | undeclared code => cases hform
      | op fn w => exact namedAt_alu hform
  | mov rd rm => exact namedAt_mov hform
  | branchTo target inverted cond => exact namedAt_branchTo hform
  | aluThree op rd rn rm ra =>
      cases op with
      | undeclared code => cases hform
      | op fn w =>
          cases fn with
          | madd =>
              cases hform
              simp [canonical, operands, Form.positions, Exchanges, Role.other]
          | _ => cases hform
  | aluImm op rd rn imm | aluBitmask op rd rn imm | aluExtended op rd rn rm ext
    | aluShift op rd rn imm | aluShifted op rd rn rm shift =>
      cases op with
      | undeclared code => cases hform
      | op fn w =>
          cases hform
          simp [canonical, operands, Form.positions, Exchanges, Role.other]
  | load op r mem | store op r mem =>
      cases mem with
      | constant data | stack offset => cases hform
      | direct a =>
          obtain ⟨place, hplace, rfl⟩ := Option.map_eq_some_iff.mp hform
          simp [canonical, operands, Form.positions, Exchanges, Mem.Exchanges, Role.other,
            Address.namedAt_iff hplace]
  | storePair rt rt2 mem | loadPair rt rt2 mem =>
      cases mem with
      | unset => cases hform
      | access mode rn imm =>
          cases hform
          simp [canonical, operands, Form.positions, Exchanges, Role.other]

end Exchange

section Emission

variable {s t : Emitter}

/-- The instructions that set up an address have neither register of number 31. -/
theorem Mem.exchanges_finalize (mem : Mem) (here : CodeOffset) (sink : ConstantSink) :
    (∀ step ∈ (mem.finalize here sink).setup, ¬ step.toInst.Exchanges) ∧
      ((mem.finalize here sink).address.Exchanges ↔ mem.Exchanges) := by
  have hne : tmp ≠ sp ∧ tmp ≠ xzr ∧ fp ≠ sp ∧ fp ≠ xzr := by decide
  cases mem with
  | direct a => simp [finalize, Exchanges]
  | constant data => simp [finalize, Exchanges, Address.Exchanges]
  | stack offset =>
      simp only [finalize]
      cases SImm9.ofValue? offset with
      | some imm => simp [Exchanges, Address.Exchanges, hne]
      | none =>
          simp [Exchanges, Address.Exchanges, Setup.toInst, Inst.Exchanges, hne]

theorem Inst.exchanges_singles (i : Inst) (here : CodeOffset) (pool : ConstantPool) :
    (∀ j ∈ i.singles here pool, ¬ j.Exchanges) ↔ ¬ i.Exchanges := by
  cases i with
  | nop => simp [singles, Exchanges]
  | load op r mem | store op r mem =>
      obtain ⟨hsetup, haddress⟩ := mem.exchanges_finalize here (.pool pool)
      simp only [singles, List.forall_mem_append, List.forall_mem_map, List.forall_mem_singleton]
      simp only [Exchanges, Mem.Exchanges, haddress]
      exact and_iff_right hsetup
  | branchElse taken notTaken cond => simp [singles, Exchanges]
  | _ => simp [singles]

section Occurrences

variable {used modified : List Reg} {r : Reg}

theorem Address.operands_canonical {a : Address} (h : a.regs = .ok (used, modified)) :
    a.canonical.operands = used ++ modified := by
  cases a with
  | unset => cases h
  | _ =>
      cases h
      rfl

theorem Mem.exists_operand {mem : Mem} {rd : Reg} (access : Address → Inst)
    (haccess : ∀ a, (access a).canonical.operands = rd :: a.canonical.operands)
    (hregs : mem.regs = .ok (used, modified)) (hr : r = rd ∨ r ∈ used ++ modified)
    (here : CodeOffset) (sink : ConstantSink) :
    ∃ j ∈ (mem.finalize here sink).setup.map Setup.toInst ++
      [access (mem.finalize here sink).address], r ∈ j.canonical.operands := by
  have hlast : r ∈ (access (mem.finalize here sink).address).canonical.operands →
      ∃ j ∈ (mem.finalize here sink).setup.map Setup.toInst ++
        [access (mem.finalize here sink).address], r ∈ j.canonical.operands :=
    fun h => ⟨_, List.mem_append_right _ (List.mem_singleton_self _), h⟩
  rcases hr with rfl | hr
  · exact hlast (by simp [haccess])
  · cases mem with
    | direct a =>
        refine hlast ?_
        rw [haccess, Mem.finalize, Address.operands_canonical hregs]
        exact List.mem_cons_of_mem rd hr
    | constant data =>
        cases hregs
        cases hr
    | stack offset =>
        cases hregs
        cases List.mem_singleton.mp hr
        simp only [finalize]
        cases SImm9.ofValue? offset with
        | some imm =>
            exact ⟨access (.unscaled fp imm), by simp,
              by simp [haccess, Address.canonical, Address.operands]⟩
        | none => exact ⟨Setup.toInst (.sum tmp tmp fp), by simp, by decide⟩

namespace Inst

theorem operands_canonical_branchTo (target : BranchTarget) (inverted : Bool) (cond : BranchCond) :
    (branchTo target inverted cond).canonical.operands = cond.reg?.toList := by
  cases inverted with
  | false => rfl
  | true =>
      cases cond with
      | _ => rfl

theorem operands_canonical_alu (op : AluOp) (rd rn rm : Reg) :
    (alu op rd rn rm).canonical.operands = [rd, rn, rm] := by
  cases op with
  | undeclared code => rfl
  | op fn w =>
      simp only [canonical]
      split
      · rfl
      · split
        · rfl
        · rfl

theorem mem_operands_mov (rd rm : Reg) :
    rd ∈ (mov rd rm).canonical.operands ∧ rm ∈ (mov rd rm).canonical.operands := by
  simp only [canonical]
  split
  · simp [operands]
  · simp [operands]

theorem mem_operands_of_occurrence {i : Inst} {o : Occurrences} (ho : i.occurrences = .ok o)
    (hr : r ∈ o.all) (here : CodeOffset) (pool : ConstantPool) :
    ∃ j ∈ i.singles here pool, r ∈ j.canonical.operands := by
  have hone : r ∈ i.canonical.operands → i.singles here pool = [i] →
      ∃ j ∈ i.singles here pool, r ∈ j.canonical.operands :=
    fun hmem hsingle => ⟨i, by simp [hsingle], hmem⟩
  cases i with
  | unset => cases ho
  | nop | nop4 | ret | call callee stackmap | jump target | udf trap =>
      cases ho
      cases hr
  | load op rd mem =>
      obtain ⟨⟨used, modified⟩, hregs, ho⟩ := Checked.bind_eq_ok.mp ho
      cases ho
      refine Mem.exists_operand (fun a => load op rd (.direct a)) (fun _ => rfl) hregs ?_ _ _
      simpa [Occurrences.all, or_left_comm] using hr
  | store op rt mem =>
      obtain ⟨⟨used, modified⟩, hregs, ho⟩ := Checked.bind_eq_ok.mp ho
      cases ho
      refine Mem.exists_operand (fun a => store op rt (.direct a)) (fun _ => rfl) hregs ?_ _ _
      simpa [Occurrences.all] using hr
  | branchElse taken notTaken cond =>
      cases ho
      refine ⟨branchTo taken false cond, by simp [singles], ?_⟩
      rw [operands_canonical_branchTo]
      simpa [Occurrences.all] using hr
  | branchTo target inverted cond =>
      cases ho
      refine hone ?_ rfl
      rw [operands_canonical_branchTo]
      simpa [Occurrences.all] using hr
  | alu op rd rn rm =>
      cases ho
      refine hone ?_ rfl
      rw [operands_canonical_alu]
      simpa [Occurrences.all, or_comm, or_left_comm] using hr
  | mov rd rm =>
      cases ho
      refine hone ?_ rfl
      rcases List.mem_pair.mp hr with rfl | rfl
      · exact (mem_operands_mov rd r).2
      · exact (mem_operands_mov r rm).1
  | storePair rt rt2 mem | loadPair rt rt2 mem =>
      cases mem with
      | unset => cases ho
      | access mode rn imm =>
          cases mode with
          | _ =>
              cases ho
              refine hone ?_ rfl
              simpa [Occurrences.all, canonical, operands, or_comm, or_left_comm] using hr
  | aluThree op rd rn rm ra | aluImm op rd rn imm | aluBitmask op rd rn imm
    | aluShifted op rd rn rm shift | aluExtended op rd rn rm ext | movZ rd imm | movN rd imm
    | callReg rn | branch taken notTaken cond =>
      cases ho
      refine hone ?_ rfl
      simpa [Occurrences.all, canonical, operands, or_comm, or_left_comm] using hr
  | aluShift op rd rn imm =>
      cases ho
      refine hone ?_ rfl
      cases op with
      | _ => simpa [Occurrences.all, canonical, operands, or_comm] using hr

end Inst

end Occurrences

theorem Inst.emittedAsMeant_iff {i : Inst} (hknown : i.Known) (hmade : i.WellMade)
    (hemit : i.emit.exec s = (.ok (), t)) : i.EmittedAsMeant s t ↔ ¬ i.Exchanges := by
  rw [EmittedAsMeant, (toldBy_singles hknown hmade hemit).iff fun _ _ => meantBy_iff,
    exchanges_singles]

theorem Inst.emit_alu_stackPointer {fn : AluFn} {w : Width} {rd rn rm : Reg}
    (hknown : (alu (.op fn w) rd rn rm).Known) (hfn : fn = .adds ∨ fn = .subs)
    (hsp : rd = sp ∨ rn = sp) :
    (alu (.op fn w) rd rn rm).emit.exec s =
      (.error (.defect (.noStackPointer (.op fn w))), s) := by
  have hrd := hknown _ rfl rd (by simp [Occurrences.all])
  have hrn := hknown _ rfl rn (by simp [Occurrences.all])
  have hrm := hknown _ rfl rm (by simp [Occurrences.all])
  simp only [emit, hwEnc_of_known hrd, hwEnc_of_known hrn, hwEnc_of_known hrm, Checked.ok_bind]
  have husesSp : (rd = sp || rn = sp : Bool) = true := by simpa using hsp
  rw [husesSp]
  rcases hfn with rfl | rfl
  · rfl
  · rfl

/-- What emission does with the stack pointer and the zero register, for registers of the target. It
refuses the stack pointer as an operand of an operation with flags, the second source apart. Where
it succeeds, every register operand has a position in the words, and the words exchange the two
registers exactly for the operands of `Exchanges`. -/
theorem Inst.emit_exchanges_iff {i : Inst} (hknown : i.Known) (hmade : i.WellMade) (s : Emitter) :
    (∀ t, i.emit.exec s = (.ok (), t) → (i.EmittedAsMeant s t ↔ ¬ i.Exchanges)) ∧
      (∀ o, i.occurrences = .ok o → ∀ r ∈ o.all,
        ∃ j ∈ i.singles s.buffer.offset s.pool, r ∈ j.canonical.operands) ∧
      ∀ fn w rd rn rm, i = alu (.op fn w) rd rn rm → fn = .adds ∨ fn = .subs → rd = sp ∨ rn = sp →
        i.emit.exec s = (.error (.defect (.noStackPointer (.op fn w))), s) := by
  refine ⟨fun t hemit => emittedAsMeant_iff hknown hmade hemit, ?_, ?_⟩
  · exact fun o ho r hr => mem_operands_of_occurrence ho hr _ _
  · rintro fn w rd rn rm rfl hfn hsp
    exact emit_alu_stackPointer hknown hfn hsp

/-- No code yet, before a pool. -/
def emptyCode : Emitter := { pool := { base := 16 } }

/-- A store that makes room for zero and the return address. -/
def pushReturn : Inst := .storePair xzr lr (.access .preIndexed sp ⟨-16, .i64⟩)

theorem Inst.emit_exchanges_iff_pushReturn :
    pushReturn.Known ∧ pushReturn.WellMade ∧ ∃ t, pushReturn.emit.exec emptyCode = (.ok (), t) ∧
      pushReturn.EmittedAsMeant emptyCode t := by
  have hknown : pushReturn.Known := by decide
  have hmade : pushReturn.WellMade := ⟨-16, by decide⟩
  have hemit : pushReturn.emit.exec emptyCode = (.ok (), (pushReturn.emit.exec emptyCode).2) := by
    decide +kernel
  have hkept : ¬ pushReturn.Exchanges := by
    rintro (h | h | h)
    · cases h
    · cases h
    · cases h
  exact ⟨hknown, hmade, _, hemit, ((emit_exchanges_iff hknown hmade emptyCode).1 _ hemit).mpr hkept⟩

def compareStack : Inst := .alu (.op .subs .w64) (gpr 0) (gpr 1) sp

/-- The comparison is emitted as one with the zero register. -/
theorem Inst.not_emittedAsMeant_compareStack :
    ¬ ∀ (i : Inst) (s t : Emitter), i.Known → i.WellMade → i.emit.exec s = (.ok (), t) →
      i.EmittedAsMeant s t := by
  have hknown : compareStack.Known := by decide
  have hemit : compareStack.emit.exec emptyCode =
      (.ok (), (compareStack.emit.exec emptyCode).2) := by decide +kernel
  intro h
  exact (emittedAsMeant_iff hknown trivial hemit).mp (h _ _ _ hknown trivial hemit) (.inl rfl)

end Emission

end Codegen.A64
