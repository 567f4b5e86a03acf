import Codegen.CodeBuffer
import Codegen.Proofs.Checked

/-!
Runs of emission steps. A sequence succeeds exactly when its steps do, one from the state that the
other leaves. `Writes step n` says that a success of `step` appends `n` bytes to the buffer, changes
none of those that are there, and leaves the base of the pool where it is.
-/
namespace Codegen.Emit

variable {α β : Type}

@[simp] theorem exec_pure (a : α) (s : Emitter) : (pure a : Emit α).exec s = (.ok a, s) := rfl

@[simp] theorem exec_get (s : Emitter) : (get : Emit Emitter).exec s = (.ok s, s) := rfl

@[simp] theorem exec_set (s t : Emitter) : (set t : Emit Unit).exec s = (.ok (), t) := rfl

@[simp] theorem exec_onBuffer (f : CodeBuffer → CodeBuffer) (s : Emitter) :
    (onBuffer f).exec s = (.ok (), { s with buffer := f s.buffer }) := rfl

theorem exec_bind (x : Emit α) (f : α → Emit β) (s : Emitter) :
    (x >>= f).exec s = match x.exec s with
      | (.ok a, t) => (f a).exec t
      | (.error e, t) => (.error e, t) := by
  unfold exec
  rw [ExceptT.run_bind, StateT.run_bind]
  cases x.run.run s with
  | mk result t =>
      cases result with
      | ok a => rfl
      | error e => rfl

theorem exec_bind_eq_ok {x : Emit α} {f : α → Emit β} {s u : Emitter} {b : β} :
    (x >>= f).exec s = (.ok b, u) ↔ ∃ a t, x.exec s = (.ok a, t) ∧ (f a).exec t = (.ok b, u) := by
  rw [exec_bind]
  cases x.exec s with
  | mk result t =>
      cases result with
      | ok a => simp
      | error e => simp

theorem exec_checkedWord_eq_ok {w : Checked UInt32} {s t : Emitter} :
    (checkedWord w).exec s = (.ok (), t) ↔
      ∃ v, w = .ok v ∧ t = { s with buffer := s.buffer.putNat 4 v.toNat } := by
  rw [checkedWord, exec_bind_eq_ok]
  constructor
  · rintro ⟨v, m, hv, hword⟩
    cases hv
    cases hword
    exact ⟨v, rfl, rfl⟩
  · rintro ⟨v, rfl, rfl⟩
    exact ⟨v, s, rfl, rfl⟩

theorem exec_forM_append {f : α → Emit Unit} {front back : List α} {s u : Emitter} :
    ((front ++ back).forM f).exec s = (.ok (), u) ↔
      ∃ t, (front.forM f).exec s = (.ok (), t) ∧ (back.forM f).exec t = (.ok (), u) := by
  simp only [List.forM_eq_forM, List.forM_append, exec_bind_eq_ok]
  constructor
  · rintro ⟨⟨⟩, t, hfront, hback⟩
    exact ⟨t, hfront, hback⟩
  · rintro ⟨t, hfront, hback⟩
    exact ⟨(), t, hfront, hback⟩

/-- The buffer of `t` is that of `s` with `n` more bytes, for a pool at the same base. -/
structure Appends (n : Nat) (s t : Emitter) : Prop where
  bytes : ∃ bytes, bytes.length = n ∧ t.buffer.bytes.toList = s.buffer.bytes.toList ++ bytes
  base : t.pool.base = s.pool.base

/-- Whenever the step succeeds, it appends `n` bytes. -/
def Writes (step : Emit α) (n : Nat) : Prop :=
  ∀ s a t, step.exec s = (.ok a, t) → Appends n s t

theorem Appends.refl (s : Emitter) : Appends 0 s s := ⟨⟨[], rfl, by simp⟩, rfl⟩

theorem Appends.trans {m n : Nat} {s t u : Emitter} (h : Appends m s t) (h' : Appends n t u) :
    Appends (m + n) s u := by
  obtain ⟨⟨front, hfront, ht⟩, hbase⟩ := h
  obtain ⟨⟨back, hback, hu⟩, hbase'⟩ := h'
  refine ⟨⟨front ++ back, by simp [hfront, hback], ?_⟩, by rw [hbase', hbase]⟩
  rw [hu, ht, List.append_assoc]

theorem Appends.size {n : Nat} {s t : Emitter} (h : Appends n s t) :
    t.buffer.bytes.size = s.buffer.bytes.size + n := by
  obtain ⟨⟨bytes, hlength, ht⟩, _⟩ := h
  rw [← Array.length_toList, ht, List.length_append, Array.length_toList, hlength]

theorem Writes.pure (a : α) : Writes (Pure.pure a) 0 := by
  intro s b t h
  cases h
  exact .refl s

theorem Writes.ofChecked (c : Checked α) : Writes (ofChecked c) 0 := by
  intro s b t h
  cases h
  exact .refl s

theorem Writes.bind {x : Emit α} {f : α → Emit β} {m n : Nat} (hx : Writes x m)
    (hf : ∀ a, Writes (f a) n) : Writes (x >>= f) (m + n) := by
  intro s b u h
  obtain ⟨a, t, ht, hu⟩ := exec_bind_eq_ok.mp h
  exact (hx s a t ht).trans (hf a t b u hu)

theorem Writes.after {x : Emit α} {f : α → Emit β} {n : Nat} (hx : Writes x 0)
    (hf : ∀ a, Writes (f a) n) : Writes (x >>= f) n := by
  have h := hx.bind hf
  rwa [Nat.zero_add] at h

theorem Writes.onRecords (f : CodeBuffer → CodeBuffer) (h : ∀ b, (f b).bytes = b.bytes) :
    Writes (onBuffer f) 0 := by
  intro s a t ht
  cases ht
  exact ⟨⟨[], rfl, by simp [h]⟩, rfl⟩

theorem Writes.word (w : UInt32) : Writes (word w) 4 := by
  intro s a t h
  cases h
  exact ⟨⟨littleEndian 4 w.toNat, rfl, by simp [CodeBuffer.putNat, CodeBuffer.put]⟩, rfl⟩

theorem Writes.checkedWord (w : Checked UInt32) : Writes (checkedWord w) 4 :=
  (Writes.ofChecked w).after Writes.word

theorem Writes.broken (d : Defect) (n : Nat) : Writes (Emit.ofChecked (broken d) : Emit α) n := by
  intro s a t h
  cases h

theorem Writes.forM {f : α → Emit Unit} {size : α → Nat} {as : List α}
    (h : ∀ a ∈ as, Writes (f a) (size a)) : Writes (as.forM f) (as.map size).sum := by
  induction as with
  | nil => exact .pure ()
  | cons a as ih =>
      have hrest := ih fun b hb => h b (List.mem_cons_of_mem a hb)
      rw [List.map_cons, List.sum_cons]
      exact (h a List.mem_cons_self).bind fun _ => hrest

end Codegen.Emit
