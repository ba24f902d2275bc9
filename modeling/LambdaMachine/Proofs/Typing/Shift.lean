import LambdaMachine.Proofs.Ty.Rename
import LambdaMachine.Proofs.Typing.Principal

namespace LambdaMachine

/-- A type with its variables moved on by `n`. -/
def Ty.shift (n : Int) (t : Ty) : Ty :=
  t.rename (· + n)

namespace Typing

open Ty (UnifyError)

def Progress.shift (n : Int) (p : Progress) : Progress :=
  ⟨p.next + n, p.bindings.rename (· + n)⟩

/-- An error with all type variables moved on by `n`. -/
def InferError.shift (n : Int) : InferError → InferError
  | .mismatch error application =>
      .mismatch (error.rename (· + n)) (application.map fun p => (p.1.shift n, p.2.shift n))
  | error => error

/-- A result with all type variables moved on by `n`, given how its value is to be moved. -/
def shiftResult {α : Type} (n : Int) (f : α → α) :
    EStateM.Result InferError Progress α → EStateM.Result InferError Progress α
  | .ok a p => .ok (f a) (p.shift n)
  | .error e p => .error (e.shift n) (p.shift n)

/-- The first computation does the same as the second, with type variables moved on by `n`. -/
def Follows {α : Type} (n : Int) (f : α → α) (x' x : InferM α) : Prop :=
  ∀ p, x' (p.shift n) = shiftResult n f (x p)

section Stages

variable {α β : Type} {n : Int} {f : α → α} {g : β → β}

theorem Follows.pure (a : α) : Follows n f (pure (f a)) (pure a) :=
  fun _ => rfl

theorem follows_ground {t : Ty} (h : t.Ground) :
    Follows n (Ty.shift n) (Pure.pure t) (Pure.pure t) := by
  have hshift : t.shift n = t := h.rename _
  conv in (Pure.pure t) => rw [← hshift]
  exact .pure t

theorem Follows.throw (e : InferError) :
    Follows n f (throw (e.shift n) : InferM α) (throw e) :=
  fun _ => rfl

theorem Follows.bind {x x' : InferM α} {k k' : α → InferM β} (h : Follows n f x' x)
    (hk : ∀ a, Follows n g (k' (f a)) (k a)) : Follows n g (x' >>= k') (x >>= k) := by
  intro p
  show EStateM.bind x' k' (p.shift n) = shiftResult n g (EStateM.bind x k p)
  rw [EStateM.bind, EStateM.bind, h p]
  cases x p with
  | ok a q => exact hk a q
  | error e q => rfl

theorem Follows.get_bind {k k' : Progress → InferM β}
    (h : ∀ p, k' (p.shift n) (p.shift n) = shiftResult n g (k p p)) :
    Follows n g (get >>= k') (get >>= k) :=
  h

theorem follows_fresh : Follows n (Ty.shift n) fresh fresh := by
  intro p
  show EStateM.Result.ok _ _ = EStateM.Result.ok _ _
  simp only [Progress.shift, Ty.shift, Ty.rename_var, add_right_comm]

theorem follows_unify? (l r : Ty) :
    Follows n (Option.map (UnifyError.rename (· + n))) (unify? (l.shift n) (r.shift n))
      (unify? l r) := by
  intro p
  have hunify := Ty.unify_rename (add_left_injective n) l r p.bindings
  simp only [unify?, Progress.shift, Ty.shift, hunify]
  cases Ty.unify l r p.bindings with
  | ok u s => rfl
  | error e s => rfl

theorem follows_expectInt (t : Ty) : Follows n id (expectInt (t.shift n)) (expectInt t) := by
  refine (follows_unify? t .int).bind fun error => ?_
  cases error with
  | none => exact .pure ()
  | some e => exact .throw (.mismatch e none)

theorem operandTypes_shift (p : Progress) (func arg : Ty) (e : UnifyError) :
    operandTypes (p.shift n) (func.shift n) (arg.shift n) (e.rename (· + n)) =
      (operandTypes p func arg e).map fun q => (q.1.shift n, q.2.shift n) := by
  have happly : ∀ t : Ty, (p.shift n).bindings.apply (t.shift n) = (p.bindings.apply t).shift n :=
    p.bindings.apply_rename (add_left_injective n)
  cases e with
  | notTypes l r => rfl
  | circular => rfl
  | _ => simp only [operandTypes, UnifyError.rename, happly, Option.map_some]

end Stages

/-- A context with all type variables moved on by `n`. -/
def Context.shift (n : Int) (Γ : Context) : Context :=
  Γ.mapVars fun i => .var (i + n)

theorem Context.lookup_shift (n : Int) (Γ : Context) (name : String) :
    List.lookup name (Γ.shift n) = (List.lookup name Γ).map (Ty.shift n) :=
  Γ.lookup_mapVars _ name

theorem follows_lookup {n : Int} (Γ : Context) (name : String) :
    Follows n (Ty.shift n)
      (match List.lookup name (Γ.shift n) with
        | some type => return type
        | none => throw (.unbound name))
      (match List.lookup name Γ with
        | some type => return type
        | none => throw (.unbound name)) := by
  rw [Γ.lookup_shift]
  cases List.lookup name Γ with
  | none => exact .throw (.unbound name)
  | some t => exact .pure t

theorem follows_inferOpen {n : Int} {e : Term} (he : e.Declares Ty.Ground Ty.Ground)
    (Γ : Context) : Follows n (Ty.shift n) (inferOpen (Γ.shift n) e) (inferOpen Γ e) := by
  induction e generalizing Γ with
  | const name type => exact follows_ground he
  | num k => exact .pure Ty.int
  | var label =>
      cases label with
      | none => exact .throw (.anonymousVariable (.var none))
      | some name => exact follows_lookup Γ name
  | idx i label =>
      cases label with
      | none => exact .throw (.anonymousVariable (.idx i none))
      | some name => exact follows_lookup Γ name
  | lam param ann body ih =>
      cases param with
      | none => exact .throw (.anonymousBinder (.lam none ann body))
      | some name =>
          cases ann with
          | some a =>
              refine (follows_ground (he.1 a rfl)).bind fun t => ?_
              exact (ih he.2 ((name, t) :: Γ)).bind fun u => .pure (Ty.arrow t u)
          | none =>
              refine follows_fresh.bind fun t => ?_
              exact (ih he.2 ((name, t) :: Γ)).bind fun u => .pure (Ty.arrow t u)
  | app func arg ihf iha =>
      refine (ihf he.1 Γ).bind fun f => (iha he.2 Γ).bind fun a => ?_
      refine follows_fresh.bind fun t => (follows_unify? f (.arrow a t)).bind fun error => ?_
      cases error with
      | none =>
          apply Follows.get_bind
          intro p
          have hresolve := p.bindings.resolve_rename (add_left_injective n) t
          exact congrArg (fun u => EStateM.Result.ok u (p.shift n)) hresolve
      | some e =>
          apply Follows.get_bind
          intro p
          have htypes := operandTypes_shift (n := n) p f a e
          exact congrArg (fun types => EStateM.Result.error (InferError.mismatch _ types) _) htypes
  | op o left right ihl ihr =>
      refine (ihl he.1 Γ).bind fun l => (follows_expectInt l).bind fun _ => ?_
      refine (ihr he.2 Γ).bind fun r => (follows_expectInt r).bind fun _ => ?_
      exact .pure Ty.int
  | foreign text => exact .throw (.foreign text)

/-- Inference under constants whose types have no variables follows the supply. -/
theorem infer_shift {Γ : Context} (hΓ : ∀ b ∈ Γ, b.2.Ground) {e : Term}
    (he : e.Declares Ty.Ground Ty.Ground) (next n : Int) :
    infer Γ e { next := next + n } = shiftResult n (Ty.shift n) (infer Γ e { next := next }) := by
  have hopen : Follows n (Ty.shift n) (inferOpen Γ e) (inferOpen Γ e) := by
    have hfollows := follows_inferOpen (n := n) he Γ
    rwa [Context.shift, Context.mapVars_of_ground hΓ] at hfollows
  have hinfer : Follows n (Ty.shift n) (infer Γ e) (infer Γ e) := by
    refine Follows.bind (f := id) (fun p => rfl) fun _ => hopen.bind fun t => ?_
    apply Follows.get_bind
    intro p
    have happly := p.bindings.apply_rename (add_left_injective n) t
    exact congrArg (fun u => EStateM.Result.ok u (p.shift n)) happly
  exact hinfer { next := next }

end Typing

end LambdaMachine
