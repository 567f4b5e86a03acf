import Codegen.Proofs.Emit

/-!
Computations that stay within bounds: whatever makes them fail, it is no index outside of a table.
The rules go through sequences, guards and traversals; a sequence stays within bounds exactly if its
first part does and the rest does after every value of it.
-/
namespace Codegen

/-- A broken rule or a refused request, whatever was being done. -/
def Failure.Regular (f : Failure) : Prop :=
  (∃ d, f.root = .defect d) ∨ ∃ r, f.root = .refusal r

namespace Checked

variable {α β : Type}

/-- No index is outside of its table: whatever fails breaks a rule or is refused. -/
def InBounds (x : Checked α) : Prop := ∀ f, x = .error f → f.Regular

@[simp] theorem inBounds_ok (a : α) : InBounds (Except.ok a) := by
  intro f h
  cases h

theorem inBounds_error {f : Failure} : InBounds (Except.error f : Checked α) ↔ f.Regular := by
  constructor
  · intro h
    exact h f rfl
  · intro h g hg
    cases hg
    exact h

@[simp] theorem inBounds_pure (a : α) : InBounds (pure a : Checked α) := inBounds_ok a

@[simp] theorem inBounds_broken (d : Defect) : InBounds (broken d : Checked α) := by
  rw [broken, inBounds_error]
  exact .inl ⟨d, rfl⟩

@[simp] theorem inBounds_refuse (r : Refusal) : InBounds (refuse r : Checked α) := by
  rw [refuse, inBounds_error]
  exact .inr ⟨r, rfl⟩

@[simp] theorem inBounds_bind {x : Checked α} {f : α → Checked β} :
    InBounds (x >>= f) ↔ InBounds x ∧ ∀ a, x = .ok a → InBounds (f a) := by
  cases x with
  | error e =>
      have hbind : (Except.error e >>= f : Checked β) = .error e := rfl
      rw [hbind, inBounds_error, inBounds_error]
      constructor
      · intro h
        exact ⟨h, fun a ha => by cases ha⟩
      · intro h
        exact h.1
  | ok a =>
      constructor
      · intro h
        refine ⟨inBounds_ok a, ?_⟩
        intro b hb
        cases hb
        exact h
      · intro h
        exact h.2 a rfl

@[simp] theorem inBounds_map {x : Checked α} {f : α → β} : InBounds (x.map f) ↔ InBounds x := by
  cases x with
  | error e => simp [Except.map, inBounds_error]
  | ok a => simp [Except.map]

@[simp] theorem inBounds_functor_map {x : Checked α} {f : α → β} :
    InBounds (f <$> x) ↔ InBounds x := inBounds_map

@[simp] theorem inBounds_ite {c : Prop} [Decidable c] {x y : Checked α} :
    InBounds (if c then x else y) ↔ (c → InBounds x) ∧ (¬ c → InBounds y) := by
  by_cases hc : c
  · simp [hc]
  · simp [hc]

theorem inBounds_mapError {x : Checked α} {g : Failure → Failure} (hx : InBounds x)
    (hg : ∀ f, (g f).root = f.root) : InBounds (x.mapError g) := by
  cases x with
  | ok a => exact inBounds_ok a
  | error e =>
      rw [Except.mapError, inBounds_error, Failure.Regular, hg]
      exact inBounds_error.mp hx

theorem inBounds_mapM {f : α → Checked β} {as : List α} (h : ∀ a ∈ as, InBounds (f a)) :
    InBounds (as.mapM f) := by
  induction as with
  | nil => exact inBounds_ok []
  | cons a as ih =>
      rw [List.mapM_cons, inBounds_bind]
      refine ⟨h a List.mem_cons_self, fun b _ => ?_⟩
      rw [inBounds_bind]
      exact ⟨ih fun c hc => h c (List.mem_cons_of_mem a hc), fun bs _ => inBounds_pure _⟩

end Checked

namespace Emit

variable {α β : Type}

/-- From every state, no index is outside of its table. -/
def InBounds (step : Emit α) : Prop := ∀ s, Checked.InBounds (step.exec s).1

theorem inBounds_pure (a : α) : InBounds (pure a : Emit α) := fun _ => Checked.inBounds_ok a

theorem inBounds_get : InBounds (get : Emit Emitter) := fun s => Checked.inBounds_ok s

theorem inBounds_onBuffer (f : CodeBuffer → CodeBuffer) : InBounds (onBuffer f) :=
  fun _ => Checked.inBounds_ok ()

theorem inBounds_ofChecked {c : Checked α} (h : c.InBounds) : InBounds (ofChecked c) := fun _ => h

theorem inBounds_bind {x : Emit α} {f : α → Emit β} (hx : InBounds x)
    (hf : ∀ a, InBounds (f a)) : InBounds (x >>= f) := by
  intro s
  have hfirst := hx s
  rw [exec_bind]
  cases hexec : x.exec s with
  | mk result t =>
      rw [hexec] at hfirst
      cases result with
      | error e => exact Checked.inBounds_error.mpr (Checked.inBounds_error.mp hfirst)
      | ok a => exact hf a t

theorem inBounds_checkedWord {w : Checked UInt32} (h : w.InBounds) : InBounds (checkedWord w) :=
  inBounds_bind (inBounds_ofChecked h) fun _ => inBounds_onBuffer _

theorem inBounds_forM {f : α → Emit Unit} (as : List α) (h : ∀ a, InBounds (f a)) :
    InBounds (as.forM f) := by
  induction as with
  | nil => exact inBounds_pure ()
  | cons a as ih => exact inBounds_bind (h a) fun _ => ih

end Emit

end Codegen
