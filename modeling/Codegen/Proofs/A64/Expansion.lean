import Codegen.Proofs.A64.Emission

/-!
What an access expands to. Its emission succeeds exactly if the words that set up the address and
the word of the access exist; it then writes these words, and the pool has the constant of the
operand, if there is one, placed after the others.
-/
namespace Codegen

def wordBytes (words : List UInt32) : List UInt8 := words.flatMap fun w => littleEndian 4 w.toNat

theorem length_wordBytes (words : List UInt32) : (wordBytes words).length = 4 * words.length := by
  induction words with
  | nil => rfl
  | cons w words ih =>
      have hword : (littleEndian 4 w.toNat).length = 4 := rfl
      rw [wordBytes, List.flatMap_cons, List.length_append, hword, List.length_cons]
      rw [wordBytes] at ih
      omega

/-- The pool with a constant placed in it, or as it is. -/
def ConstantPool.hold (p : ConstantPool) : Option (List UInt8) → ConstantPool
  | none => p
  | some data => (p.pad (ConstantSink.alignmentOf data.length)).append data

theorem ConstantPool.base_hold (p : ConstantPool) (data : Option (List UInt8)) :
    (p.hold data).base = p.base := by
  cases data with
  | none => rfl
  | some data => rfl

theorem wordBytes_append (front back : List UInt32) :
    wordBytes (front ++ back) = wordBytes front ++ wordBytes back := List.flatMap_append

namespace CodeBuffer

theorem put_nil (b : CodeBuffer) : b.put [] = b := by simp [put]

theorem put_put (b : CodeBuffer) (front back : List UInt8) :
    (b.put front).put back = b.put (front ++ back) := by
  simp [put, ← Array.toList_inj]

theorem toList_put (b : CodeBuffer) (bytes : List UInt8) :
    (b.put bytes).bytes.toList = b.bytes.toList ++ bytes := by
  simp [put]

theorem size_put (b : CodeBuffer) (bytes : List UInt8) :
    (b.put bytes).bytes.size = b.bytes.size + bytes.length := by
  rw [← Array.length_toList, toList_put, List.length_append, Array.length_toList]

theorem putNat_word (b : CodeBuffer) (w : UInt32) : b.putNat 4 w.toNat = b.put (wordBytes [w]) := by
  simp [putNat, wordBytes]

end CodeBuffer

theorem Emit.exec_forM_checkedWord {α : Type} {f : α → Checked UInt32} {as : List α}
    {s t : Emitter} : (as.forM fun a => checkedWord (f a)).exec s = (.ok (), t) ↔
      ∃ words, as.mapM f = .ok words ∧
        t = { s with buffer := s.buffer.put (wordBytes words) } := by
  induction as generalizing s with
  | nil =>
      constructor
      · intro h
        cases h
        exact ⟨[], rfl, by rw [wordBytes, List.flatMap_nil, CodeBuffer.put_nil]⟩
      · rintro ⟨words, hwords, rfl⟩
        cases hwords
        exact congrArg (fun b => (Except.ok (), Emitter.mk b s.pool)) s.buffer.put_nil.symm
  | cons a as ih =>
      rw [List.forM_eq_forM, List.forM_cons, exec_bind_eq_ok, List.mapM_cons]
      simp only [Checked.bind_eq_ok, Checked.pure_eq_ok]
      constructor
      · rintro ⟨_, m, ha, hrest⟩
        obtain ⟨w, hw, rfl⟩ := exec_checkedWord_eq_ok.mp ha
        obtain ⟨words, hwords, rfl⟩ := ih.mp hrest
        refine ⟨w :: words, ⟨w, hw, words, hwords, rfl⟩, ?_⟩
        rw [CodeBuffer.putNat_word, CodeBuffer.put_put, ← wordBytes_append, List.singleton_append]
      · rintro ⟨words, ⟨w, hw, rest, hrest, rfl⟩, rfl⟩
        refine ⟨(), _, exec_checkedWord_eq_ok.mpr ⟨w, hw, rfl⟩, ih.mpr ⟨rest, hrest, ?_⟩⟩
        rw [CodeBuffer.putNat_word, CodeBuffer.put_put, ← wordBytes_append, List.singleton_append]

namespace A64

/-- The bytes that the operand has in the pool. -/
def Mem.constant? : Mem → Option (List UInt8)
  | direct _ => none
  | constant data => some data
  | stack offset =>
    match SImm9.ofValue? offset with
    | some _ => none
    | none => some (littleEndian 8 offset.toUInt64.toNat)

theorem Mem.sink_finalize (mem : Mem) (here : CodeOffset) (pool : ConstantPool) :
    (mem.finalize here (.pool pool)).sink = .pool (pool.hold mem.constant?) := by
  cases mem with
  | direct a => rfl
  | constant data => rfl
  | stack offset =>
      simp only [finalize, constant?]
      cases SImm9.ofValue? offset with
      | some imm => rfl
      | none => rfl

theorem exec_emitFinalize (mem : Mem) (s : Emitter) :
    (emitFinalize mem).exec s =
      (.ok ((mem.finalize s.buffer.offset (.pool s.pool)).setup,
        (mem.finalize s.buffer.offset (.pool s.pool)).address),
        { s with pool := s.pool.hold mem.constant? }) := by
  simp only [emitFinalize, Emit.exec_bind, Emit.exec_get, mem.sink_finalize, Emit.exec_set,
    Emit.exec_pure]

theorem exec_emitAccess {a : Access} {rt : Nat} {mem : Mem} {s t : Emitter} :
    (emitAccess a rt mem).exec s = (.ok (), t) ↔ ∃ steps word,
      (mem.finalize s.buffer.offset (.pool s.pool)).setup.mapM Word.setup = .ok steps ∧
      Word.access a rt (mem.finalize s.buffer.offset (.pool s.pool)).address = .ok word ∧
      t = { buffer := s.buffer.put (wordBytes (steps ++ [word]))
            pool := s.pool.hold mem.constant? } := by
  rw [emitAccess, Emit.exec_bind, exec_emitFinalize]
  dsimp only
  rw [Emit.exec_bind_eq_ok]
  constructor
  · rintro ⟨_, m, hsetup, haccess⟩
    obtain ⟨steps, hsteps, rfl⟩ := Emit.exec_forM_checkedWord.mp hsetup
    obtain ⟨word, hword, rfl⟩ := Emit.exec_checkedWord_eq_ok.mp haccess
    refine ⟨steps, word, hsteps, hword, ?_⟩
    rw [CodeBuffer.putNat_word, CodeBuffer.put_put, ← wordBytes_append]
  · rintro ⟨steps, word, hsteps, hword, rfl⟩
    refine ⟨(), _, Emit.exec_forM_checkedWord.mpr ⟨steps, hsteps, rfl⟩,
      Emit.exec_checkedWord_eq_ok.mpr ⟨word, hword, ?_⟩⟩
    rw [CodeBuffer.putNat_word, CodeBuffer.put_put, ← wordBytes_append]

namespace Inst

def constant? : Inst → Option (List UInt8)
  | load _ _ mem | store _ _ mem => mem.constant?
  | _ => none

theorem pool_of_emit {i : Inst} {s t : Emitter} (h : i.emit.exec s = (.ok (), t)) :
    t.pool = s.pool.hold i.constant? := by
  have hchecked : ∀ {w : Checked UInt32} {s t : Emitter},
      (Emit.checkedWord w).exec s = (.ok (), t) → t.pool = s.pool := by
    intro w s t h
    obtain ⟨word, _, rfl⟩ := Emit.exec_checkedWord_eq_ok.mp h
    rfl
  cases i with
  | unset | branch => cases h
  | nop | nop4 | ret | udf =>
      cases h
      rfl
  | load op r mem | store op r mem =>
      obtain ⟨rt, m, hrt, h⟩ := Emit.exec_bind_eq_ok.mp h
      cases Prod.mk.inj hrt |>.2
      obtain ⟨steps, word, _, _, rfl⟩ := exec_emitAccess.mp h
      rfl
  | call callee stackmap =>
      cases stackmap with
      | some m =>
          cases h
          rfl
      | none =>
          cases h
          rfl
  | branchElse taken notTaken cond =>
      obtain ⟨⟨⟩, m, hbranch, hjump⟩ := Emit.exec_bind_eq_ok.mp h
      rw [hchecked hjump, hchecked hbranch]
      rfl
  | _ => exact hchecked h

end Inst

end A64

/-- How far a constant that is placed next is from the code that is written next. -/
def Emitter.label (s : Emitter) (data : List UInt8) : Int :=
  (A64.distance s.buffer.offset
    (s.pool.pad (ConstantSink.alignmentOf data.length)).offset).toInt

end Codegen
