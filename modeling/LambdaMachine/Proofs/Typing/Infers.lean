import LambdaMachine.Proofs.Outcome
import LambdaMachine.Typing.Infer

namespace LambdaMachine.Typing

open Ty (Substitution)

/-- Inference on a term in a context, started with the first progress, gives a type and ends with the
second progress. -/
inductive Infers : Context → Term → Progress → Ty → Progress → Prop where
  | const {Γ : Context} (name : String) (t : Ty) (p : Progress) : Infers Γ (.const name t) p t p
  | num {Γ : Context} (n : Int) (p : Progress) : Infers Γ (.num n) p .int p
  | var {Γ : Context} {name : String} {t : Ty} (p : Progress) (h : Γ.lookup name = some t) :
      Infers Γ (.var (some name)) p t p
  | idx {Γ : Context} (i : Int) {name : String} {t : Ty} (p : Progress)
      (h : Γ.lookup name = some t) : Infers Γ (.idx i (some name)) p t p
  | annotated {Γ : Context} {name : String} {a t : Ty} {body : Term} {p q : Progress}
      (h : Infers ((name, a) :: Γ) body p t q) :
      Infers Γ (.lam (some name) (some a) body) p (.arrow a t) q
  | unannotated {Γ : Context} {name : String} {t : Ty} {body : Term} {p q : Progress}
      (h : Infers ((name, .var p.next) :: Γ) body { p with next := p.next + 1 } t q) :
      Infers Γ (.lam (some name) none body) p (.arrow (.var p.next) t) q
  | app {Γ : Context} {func arg : Term} {f a : Ty} {p q r : Progress} {s : Substitution}
      (hf : Infers Γ func p f q) (ha : Infers Γ arg q a r)
      (h : Ty.unify f (.arrow a (.var r.next)) r.bindings = .ok () s) :
      Infers Γ (.app func arg) p (s.resolve (.var r.next)) ⟨r.next + 1, s⟩
  | op {Γ : Context} (o : Op) {left right : Term} {l m : Ty} {p q r : Progress}
      {s s' : Substitution} (hl : Infers Γ left p l q) (h : Ty.unify l .int q.bindings = .ok () s)
      (hr : Infers Γ right { q with bindings := s } m r)
      (h' : Ty.unify m .int r.bindings = .ok () s') :
      Infers Γ (.op o left right) p .int { r with bindings := s' }

theorem expectInt_eq_ok_iff {t : Ty} {p q : Progress} :
    expectInt t p = .ok () q ↔
      ∃ s, Ty.unify t .int p.bindings = .ok () s ∧ q = { p with bindings := s } := by
  rw [expectInt, bind_eq_ok_iff]
  simp only [unify?]
  cases Ty.unify t .int p.bindings with
  | ok u s => simp [pure, EStateM.pure, eq_comm]
  | error e s =>
      constructor
      · rintro ⟨_, _, hfailed, h⟩
        cases hfailed
        cases h
      · rintro ⟨_, h, _⟩
        cases h

theorem lookup_eq_ok_iff {Γ : Context} {name : String} {p q : Progress} {t : Ty} :
    (match Γ.lookup name with
      | some type => pure type
      | none => throw (.unbound name) : InferM Ty) p = .ok t q ↔ Γ.lookup name = some t ∧ q = p := by
  cases Γ.lookup name with
  | some u =>
      constructor
      · intro h
        cases h
        exact ⟨rfl, rfl⟩
      · rintro ⟨⟨⟩, rfl⟩
        rfl
  | none =>
      constructor
      · intro h
        cases h
      · rintro ⟨⟨⟩, -⟩

theorem infers_of_inferOpen {Γ : Context} {e : Term} {p q : Progress} {t : Ty}
    (h : inferOpen Γ e p = .ok t q) : Infers Γ e p t q := by
  induction e generalizing Γ p q t with
  | const name type =>
      cases h
      exact .const name type p
  | num n =>
      cases h
      exact .num n p
  | var label =>
      cases label with
      | none => cases h
      | some name =>
          obtain ⟨hfound, rfl⟩ := lookup_eq_ok_iff.mp h
          exact .var q hfound
  | idx i label =>
      cases label with
      | none => cases h
      | some name =>
          obtain ⟨hfound, rfl⟩ := lookup_eq_ok_iff.mp h
          exact .idx i q hfound
  | lam param ann body ih =>
      cases param with
      | none => cases h
      | some name =>
          cases ann with
          | some a =>
              obtain ⟨_, _, hparam, h⟩ := bind_eq_ok_iff.mp h
              cases hparam
              obtain ⟨u, r, hbody, h⟩ := bind_eq_ok_iff.mp h
              cases h
              exact .annotated (ih hbody)
          | none =>
              obtain ⟨_, _, hparam, h⟩ := bind_eq_ok_iff.mp h
              cases hparam
              obtain ⟨u, r, hbody, h⟩ := bind_eq_ok_iff.mp h
              cases h
              exact .unannotated (ih hbody)
  | app func arg ihf iha =>
      obtain ⟨f, q₁, hf, h⟩ := bind_eq_ok_iff.mp h
      obtain ⟨a, q₂, ha, h⟩ := bind_eq_ok_iff.mp h
      obtain ⟨result, q₃, hfresh, h⟩ := bind_eq_ok_iff.mp h
      cases hfresh
      obtain ⟨e?, q₄, hunify, h⟩ := bind_eq_ok_iff.mp h
      rw [unify?] at hunify
      split at hunify
      · rename_i s hs
        cases hunify
        cases h
        exact .app (ihf hf) (iha ha) hs
      · cases hunify
        cases h
  | op o left right ihl ihr =>
      obtain ⟨l, q₁, hl, h⟩ := bind_eq_ok_iff.mp h
      obtain ⟨_, q₂, hint, h⟩ := bind_eq_ok_iff.mp h
      obtain ⟨m, q₃, hr, h⟩ := bind_eq_ok_iff.mp h
      obtain ⟨_, q₄, hint', h⟩ := bind_eq_ok_iff.mp h
      obtain ⟨s, hs, rfl⟩ := expectInt_eq_ok_iff.mp hint
      obtain ⟨s', hs', rfl⟩ := expectInt_eq_ok_iff.mp hint'
      cases h
      exact .op o (ihl hl) hs (ihr hr) hs'
  | foreign text => cases h

theorem inferOpen_of_infers {Γ : Context} {e : Term} {p q : Progress} {t : Ty}
    (h : Infers Γ e p t q) : inferOpen Γ e p = .ok t q := by
  induction h with
  | const name t p => rfl
  | num n p => rfl
  | var p h => exact lookup_eq_ok_iff.mpr ⟨h, rfl⟩
  | idx i p h => exact lookup_eq_ok_iff.mpr ⟨h, rfl⟩
  | annotated _ ih =>
      refine bind_eq_ok_iff.mpr ⟨_, _, rfl, ?_⟩
      exact bind_eq_ok_iff.mpr ⟨_, _, ih, rfl⟩
  | unannotated _ ih =>
      refine bind_eq_ok_iff.mpr ⟨_, _, rfl, ?_⟩
      exact bind_eq_ok_iff.mpr ⟨_, _, ih, rfl⟩
  | app _ _ h ihf iha =>
      refine bind_eq_ok_iff.mpr ⟨_, _, ihf, ?_⟩
      refine bind_eq_ok_iff.mpr ⟨_, _, iha, ?_⟩
      refine bind_eq_ok_iff.mpr ⟨_, _, rfl, ?_⟩
      refine bind_eq_ok_iff.mpr ⟨none, ⟨_, _⟩, ?_, rfl⟩
      simp only [unify?, h]
  | op o _ h _ h' ihl ihr =>
      refine bind_eq_ok_iff.mpr ⟨_, _, ihl, ?_⟩
      refine bind_eq_ok_iff.mpr ⟨(), _, expectInt_eq_ok_iff.mpr ⟨_, h, rfl⟩, ?_⟩
      refine bind_eq_ok_iff.mpr ⟨_, _, ihr, ?_⟩
      exact bind_eq_ok_iff.mpr ⟨(), _, expectInt_eq_ok_iff.mpr ⟨_, h', rfl⟩, rfl⟩

/-- Inference succeeds exactly by the rules, and follows the bindings it has made at the end. -/
theorem infer_eq_ok_iff {Γ : Context} {e : Term} {p q : Progress} {t : Ty} :
    infer Γ e p = .ok t q ↔
      ∃ u, Infers Γ e { p with bindings := {} } u q ∧ t = q.bindings.apply u := by
  constructor
  · intro h
    obtain ⟨_, p', hmodify, h⟩ := bind_eq_ok_iff.mp h
    cases hmodify
    obtain ⟨u, q', hopen, h⟩ := bind_eq_ok_iff.mp h
    cases h
    exact ⟨u, infers_of_inferOpen hopen, rfl⟩
  · rintro ⟨u, hu, rfl⟩
    refine bind_eq_ok_iff.mpr ⟨(), _, rfl, ?_⟩
    exact bind_eq_ok_iff.mpr ⟨u, q, inferOpen_of_infers hu, rfl⟩

end LambdaMachine.Typing
