import Mathlib.Tactic.Common

namespace LambdaMachine

section Except

variable {ε α β γ δ : Type} {x : Except ε α} {f : γ → δ}

theorem ok_of_bind {k : α → Except ε β} {b : β} (h : x >>= k = .ok b) :
    ∃ a, x = .ok a ∧ k a = .ok b := by
  cases x with
  | error e => cases h
  | ok a => exact ⟨a, rfl, h⟩

theorem error_of_bind {k : α → Except ε β} {e : ε} (h : x >>= k = .error e) :
    x = .error e ∨ ∃ a, x = .ok a ∧ k a = .error e := by
  cases x with
  | error e' =>
      cases h
      exact .inl rfl
  | ok a => exact .inr ⟨a, rfl, h⟩

theorem bind_eq_map_bind {k : α → Except ε δ} {k' : α → Except ε γ}
    (h : ∀ a, k a = (k' a).map f) : x >>= k = (x >>= k').map f := by
  cases x with
  | error e => rfl
  | ok a => exact h a

theorem map_bind_eq_map_bind {g : α → β} {k : β → Except ε δ} {k' : α → Except ε γ}
    (h : ∀ a, k (g a) = (k' a).map f) : x.map g >>= k = (x >>= k').map f := by
  cases x with
  | error e => rfl
  | ok a => exact h a

end Except

/-- The state that a computation leaves, whether it succeeds or fails. -/
def stateOf {ε σ α : Type} : EStateM.Result ε σ α → σ
  | .ok _ s => s
  | .error _ s => s

/-- What a computation comes to, apart from the state that it leaves. -/
def resultOf {ε σ α : Type} : EStateM.Result ε σ α → Except ε α
  | .ok a _ => .ok a
  | .error e _ => .error e

section State

variable {ε σ α β : Type} {work : EStateM ε σ α} {s s' : σ} {a : α} {e : ε}

theorem bind_of_ok (h : work s = .ok a s') (k : α → EStateM ε σ β) : (work >>= k) s = k a s' := by
  show EStateM.bind work k s = _
  rw [EStateM.bind, h]

theorem bind_of_error (h : work s = .error e s') (k : α → EStateM ε σ β) :
    (work >>= k) s = .error e s' := by
  show EStateM.bind work k s = _
  rw [EStateM.bind, h]

theorem bind_eq_ok_iff {k : α → EStateM ε σ β} {b : β} :
    (work >>= k) s = .ok b s' ↔ ∃ a t, work s = .ok a t ∧ k a t = .ok b s' := by
  cases hwork : work s with
  | ok a t =>
      rw [bind_of_ok hwork]
      simp
  | error e t =>
      rw [bind_of_error hwork]
      simp

theorem bind_eq_error_iff {k : α → EStateM ε σ β} :
    (work >>= k) s = .error e s' ↔
      work s = .error e s' ∨ ∃ a t, work s = .ok a t ∧ k a t = .error e s' := by
  cases hwork : work s with
  | ok a t =>
      rw [bind_of_ok hwork]
      simp
  | error e' t =>
      rw [bind_of_error hwork]
      simp

theorem bind_run_congr {work' : EStateM ε σ α} (h : work s = work' s') (k : α → EStateM ε σ β) :
    (work >>= k) s = (work' >>= k) s' := by
  show EStateM.bind work k s = EStateM.bind work' k s'
  rw [EStateM.bind, EStateM.bind, h]

theorem bind_pure_unit (work : EStateM ε σ Unit) (s : σ) : (work >>= fun _ => pure ()) s = work s :=
  congrFun (bind_pure work) s

theorem get_bind (k : σ → EStateM ε σ β) (s : σ) : (get >>= k) s = k s s :=
  rfl

theorem modify_bind (f : σ → σ) (k : PUnit → EStateM ε σ β) (s : σ) :
    (modify f >>= k) s = k ⟨⟩ (f s) :=
  rfl

theorem discard_of_ok (h : work s = .ok a s') :
    (discard work : EStateM ε σ PUnit) s = .ok ⟨⟩ s' := by
  show EStateM.map _ work s = _
  rw [EStateM.map, h]

theorem discard_run_congr {work' : EStateM ε σ α} (h : work s = work' s') :
    (discard work : EStateM ε σ PUnit) s = (discard work' : EStateM ε σ PUnit) s' := by
  show EStateM.map _ work s = EStateM.map _ work' s'
  rw [EStateM.map, EStateM.map, h]

theorem tryCatch_of_ok (h : work s = .ok a s') (handle : ε → EStateM ε σ α) :
    tryCatch work handle s = .ok a s' := by
  show EStateM.tryCatch work handle s = _
  delta EStateM.tryCatch
  rw [h]

theorem tryCatch_of_error (h : work s = .error e s') (handle : ε → EStateM ε σ α) :
    tryCatch work handle s = handle e s' := by
  show EStateM.tryCatch work handle s = _
  delta EStateM.tryCatch
  rw [h]
  rfl

theorem stateOf_discard (work : EStateM ε σ α) (s : σ) :
    stateOf ((discard work : EStateM ε σ PUnit) s) = stateOf (work s) := by
  show stateOf (EStateM.map _ work s) = _
  unfold EStateM.map
  cases work s <;> rfl

theorem stateOf_bind_pure (work : EStateM ε σ α) (b : β) (s : σ) :
    stateOf ((work >>= fun _ => pure b) s) = stateOf (work s) := by
  show stateOf (EStateM.bind work _ s) = _
  unfold EStateM.bind
  cases work s <;> rfl

end State

end LambdaMachine
