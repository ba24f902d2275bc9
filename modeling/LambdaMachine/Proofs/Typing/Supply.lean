import LambdaMachine.Proofs.Report.Causes

namespace LambdaMachine.Typing

section Stages

variable {α β : Type}

/-- A computation gives no type variable back, whether it succeeds or fails. -/
def Advances (x : InferM α) : Prop :=
  ∀ p, p.next ≤ (stateOf (x p)).next

theorem Advances.pure (a : α) : Advances (pure a) :=
  fun _ => le_rfl

theorem Advances.throw (e : InferError) : Advances (throw e : InferM α) :=
  fun _ => le_rfl

theorem Advances.bind {x : InferM α} {k : α → InferM β} (h : Advances x)
    (hk : ∀ a, Advances (k a)) : Advances (x >>= k) := by
  intro p
  have hx := h p
  cases hrun : x p with
  | ok a q =>
      rw [bind_of_ok hrun]
      rw [hrun] at hx
      exact le_trans hx (hk a q)
  | error e q =>
      rw [bind_of_error hrun]
      rwa [hrun] at hx

theorem Advances.get_bind {k : Progress → InferM β} (hk : ∀ p, Advances (k p)) :
    Advances (get >>= k) :=
  fun p => hk p p

theorem advances_fresh : Advances fresh := by
  intro p
  change p.next ≤ p.next + 1
  omega

theorem advances_unify? (l r : Ty) : Advances (unify? l r) := by
  intro p
  unfold unify?
  split <;> exact le_rfl

theorem advances_expectInt (t : Ty) : Advances (expectInt t) := by
  refine (advances_unify? t .int).bind fun error => ?_
  cases error with
  | none => exact .pure ()
  | some e => exact .throw _

theorem advances_lookup (Γ : Context) (name : String) :
    Advances (match List.lookup name Γ with
      | some type => return type
      | none => throw (.unbound name)) := by
  cases List.lookup name Γ with
  | none => exact .throw _
  | some t => exact .pure t

end Stages

theorem advances_inferOpen (Γ : Context) (e : Term) : Advances (inferOpen Γ e) := by
  induction e generalizing Γ with
  | const name type => exact .pure type
  | num n => exact .pure Ty.int
  | var label =>
      cases label with
      | none => exact .throw _
      | some name => exact advances_lookup Γ name
  | idx i label =>
      cases label with
      | none => exact .throw _
      | some name => exact advances_lookup Γ name
  | lam param ann body ih =>
      cases param with
      | none => exact .throw _
      | some name =>
          cases ann with
          | some a => exact (Advances.pure a).bind fun t => (ih _).bind fun u => .pure _
          | none => exact advances_fresh.bind fun t => (ih _).bind fun u => .pure _
  | app func arg ihf iha =>
      refine (ihf Γ).bind fun f => (iha Γ).bind fun a => advances_fresh.bind fun t => ?_
      refine (advances_unify? f (.arrow a t)).bind fun error => ?_
      cases error with
      | none => exact .get_bind fun p => .pure _
      | some e => exact .get_bind fun p => .throw _
  | op o left right ihl ihr =>
      refine (ihl Γ).bind fun l => (advances_expectInt l).bind fun _ => ?_
      exact (ihr Γ).bind fun r => (advances_expectInt r).bind fun _ => .pure Ty.int
  | foreign text => exact .throw _

theorem advances_infer (Γ : Context) (e : Term) : Advances (infer Γ e) := by
  have hstart : Advances (modify fun p : Progress => { p with bindings := {} } : InferM Unit) :=
    fun _ => le_rfl
  exact hstart.bind fun _ => (advances_inferOpen Γ e).bind fun t => .get_bind fun p => .pure _

theorem Infers.next_le {Γ : Context} {e : Term} {p q : Progress} {t : Ty}
    (h : Infers Γ e p t q) : p.next ≤ q.next := by
  have hadvances := advances_inferOpen Γ e p
  rwa [inferOpen_of_infers h] at hadvances

theorem Infers.over {P : Int → Prop} {Γ : Context} {e : Term} {p q : Progress} {t : Ty}
    (h : Infers Γ e p t q) (he : e.Declares Ty.Ground Ty.Ground)
    (htaken : ∀ i, p.next ≤ i → i < q.next → P i) (hΓ : ∀ b ∈ Γ, b.2.Over P)
    (hp : p.bindings.Within (Ty.Over P)) : t.Over P ∧ q.bindings.Within (Ty.Over P) := by
  induction h with
  | const name t p => exact ⟨Ty.Ground.over he _, hp⟩
  | num n p => exact ⟨trivial, hp⟩
  | var p h => exact ⟨hΓ _ (mem_of_lookup h), hp⟩
  | idx i p h => exact ⟨hΓ _ (mem_of_lookup h), hp⟩
  | @annotated Γ name a t body p q h ih =>
      have ha : a.Over P := (he.1 a rfl).over P
      obtain ⟨ht, hq⟩ := ih he.2 htaken (List.forall_mem_cons.mpr ⟨ha, hΓ⟩) hp
      exact ⟨⟨ha, ht⟩, hq⟩
  | @unannotated Γ name t body p q h ih =>
      have hle : p.next + 1 ≤ q.next := h.next_le
      have hvar : (Ty.var p.next).Over P := htaken p.next le_rfl (by omega)
      obtain ⟨ht, hq⟩ := ih he.2 (fun i hi => htaken i (by dsimp only at hi; omega))
        (List.forall_mem_cons.mpr ⟨hvar, hΓ⟩) hp
      exact ⟨⟨hvar, ht⟩, hq⟩
  | @app Γ func arg f a p q r s hf ha h ihf iha =>
      have hle := hf.next_le
      have hle' := ha.next_le
      dsimp only at htaken
      obtain ⟨hfun, hq⟩ := ihf he.1 (fun i hi hlt => htaken i hi (by omega)) hΓ hp
      obtain ⟨harg, hr⟩ := iha he.2 (fun i hi hlt => htaken i (by omega) (by omega)) hΓ hq
      have hresult : (Ty.var r.next).Over P := htaken r.next (by omega) (by omega)
      have hs : s.Within (Ty.Over P) :=
        Ty.within_of_unify (fun _ _ => id) h hr hfun ⟨harg, hresult⟩
      exact ⟨hs.resolve hresult, hs⟩
  | @op Γ o left right l m p q r s s' hl h hr h' ihl ihr =>
      have hle := hl.next_le
      have hle' := hr.next_le
      dsimp only at htaken hle'
      obtain ⟨hleft, hq⟩ := ihl he.1 (fun i hi hlt => htaken i hi (by omega)) hΓ hp
      have hs : s.Within (Ty.Over P) := Ty.within_of_unify (fun _ _ => id) h hq hleft trivial
      obtain ⟨hright, hr⟩ :=
        ihr he.2 (fun i hi hlt => htaken i (by dsimp only at hi; omega) hlt) hΓ hs
      exact ⟨trivial, Ty.within_of_unify (fun _ _ => id) h' hr hright trivial⟩

theorem taken_of_infer {Γ : Context} {e : Term} (hΓ : ∀ b ∈ Γ, b.2.Ground)
    (he : e.Declares Ty.Ground Ty.Ground) {p q : Progress} {t : Ty} (h : infer Γ e p = .ok t q) :
    ∀ i ∈ t.vars, p.next ≤ i ∧ i < q.next := by
  obtain ⟨u, hu, rfl⟩ := infer_eq_ok_iff.mp h
  obtain ⟨hover, hq⟩ := hu.over (P := fun i => p.next ≤ i ∧ i < q.next) he
    (fun i hi hlt => ⟨hi, hlt⟩) (fun b hb => (hΓ b hb).over _) (fun _ _ hi => by cases hi)
  intro i hi
  exact (hq.apply_over hover).of_mem_vars hi

theorem mem_vars_shift {t : Ty} {n i : Int} : i ∈ (t.shift n).vars ↔ i - n ∈ t.vars := by
  have hiff := Ty.mem_vars_rename (t := t) (add_left_injective n) (i := i - n)
  simp only [sub_add_cancel] at hiff
  exact hiff

/-- What went wrong in inference, without the types that are named. -/
def InferError.problem? (error : InferError) : Option Report.Problem :=
  (Report.ofInferError error).map fun d => d.problem.withoutTypes

theorem InferError.problem?_shift (error : InferError) (n : Int) :
    (error.shift n).problem? = error.problem? :=
  Report.problem_ofInferError_shift error n

/-- Two runs of inference, with supplies that start at `a` and `b`, that correspond to each other:
each takes `k` type variables, and both come to types that are as far apart as the supplies and have
no other variables than those taken, or both fail in the same way. -/
inductive Correspond (a b : Int) (k : Nat) :
    EStateM.Result InferError Progress Ty → EStateM.Result InferError Progress Ty → Prop where
  | ok {t u : Ty} {p q : Progress} (hp : p.next = a + k) (hq : q.next = b + k)
      (hu : u = t.shift (b - a)) (ht : ∀ i ∈ t.vars, a ≤ i ∧ i < a + k)
      (hu' : ∀ i ∈ u.vars, b ≤ i ∧ i < b + k) : Correspond a b k (.ok t p) (.ok u q)
  | error {error error' : InferError} {p q : Progress} (hp : p.next = a + k)
      (hq : q.next = b + k) (herror : error' = error.shift (b - a))
      (hclass : error'.problem? = error.problem?) :
      Correspond a b k (.error error p) (.error error' q)

/-- Inference on one term after the other, each in a context of its own, with one supply. -/
def inferAll : List (Context × Term) → Progress → List (Except InferError Ty)
  | [], _ => []
  | (Γ, e) :: calls, p =>
      resultOf (infer Γ e p) :: inferAll calls (stateOf (infer Γ e p))

/-- There are no type variables in what is given to a call. -/
def VariableFree (call : Context × Term) : Prop :=
  (∀ b ∈ call.1, b.2.Ground) ∧ call.2.Declares Ty.Ground Ty.Ground

/-- The types that two calls find, if they find any, have no type variable in common. -/
def Unshared (x y : Except InferError Ty) : Prop :=
  ∀ t u, x = .ok t → y = .ok u → t.vars.Disjoint u.vars

theorem taken_of_resultOf {call : Context × Term} (hcall : VariableFree call) {p : Progress}
    {t : Ty} (h : resultOf (infer call.1 call.2 p) = .ok t) :
    ∀ i ∈ t.vars, p.next ≤ i ∧ i < (stateOf (infer call.1 call.2 p)).next := by
  cases hinfer : infer call.1 call.2 p with
  | ok u q =>
      rw [hinfer] at h
      cases h
      exact taken_of_infer hcall.1 hcall.2 hinfer
  | error e q =>
      rw [hinfer] at h
      cases h

theorem next_le_of_mem_inferAll {calls : List (Context × Term)}
    (hcalls : ∀ call ∈ calls, VariableFree call) {p : Progress} {t : Ty}
    (h : .ok t ∈ inferAll calls p) : ∀ i ∈ t.vars, p.next ≤ i := by
  induction calls generalizing p with
  | nil => cases h
  | cons call calls ih =>
      obtain ⟨hcall, hrest⟩ := List.forall_mem_cons.mp hcalls
      intro i hi
      rcases List.mem_cons.mp h with hfirst | hlater
      · exact (taken_of_resultOf hcall hfirst.symm i hi).1
      · exact le_trans (advances_infer call.1 call.2 p) (ih hrest hlater i hi)

theorem pairwise_inferAll {calls : List (Context × Term)}
    (hcalls : ∀ call ∈ calls, VariableFree call) (p : Progress) :
    (inferAll calls p).Pairwise Unshared := by
  induction calls generalizing p with
  | nil => exact .nil
  | cons call calls ih =>
      obtain ⟨hcall, hrest⟩ := List.forall_mem_cons.mp hcalls
      refine .cons ?_ (ih hrest _)
      intro later hlater t u ht hu i hi hi'
      have hlt := (taken_of_resultOf hcall ht i hi).2
      have hle := next_le_of_mem_inferAll hrest (hu ▸ hlater) i hi'
      omega

/-- Inference does not depend on where its supply of type variables starts, and calls that share a
supply share no type variable in their types. -/
theorem supply_independent :
    (∀ (Γ : Context) (e : Term), (∀ b ∈ Γ, b.2.Ground) → e.Declares Ty.Ground Ty.Ground →
      ∀ p q : Progress, ∃ k : Nat, Correspond p.next q.next k (infer Γ e p) (infer Γ e q)) ∧
    ∀ (calls : List (Context × Term)) (p : Progress), (∀ call ∈ calls, VariableFree call) →
      (inferAll calls p).Pairwise Unshared := by
  refine ⟨?_, fun calls p hcalls => pairwise_inferAll hcalls p⟩
  intro Γ e hΓ he p q
  have hshift := infer_shift hΓ he p.next (q.next - p.next)
  have hp : infer Γ e p = infer Γ e { next := p.next } := rfl
  have hq : infer Γ e q = infer Γ e { next := q.next } := rfl
  rw [add_sub_cancel, ← hp, ← hq] at hshift
  obtain ⟨k, hk⟩ := Int.le.dest (advances_infer Γ e p)
  refine ⟨k, ?_⟩
  rw [hshift]
  cases hinfer : infer Γ e p with
  | ok t p' =>
      have htaken := taken_of_infer hΓ he hinfer
      rw [hinfer] at hk
      simp only [stateOf] at hk
      rw [← hk] at htaken
      refine .ok hk.symm ?_ rfl htaken ?_
      · simp only [Progress.shift]
        omega
      · intro i hi
        have hmem := htaken _ (mem_vars_shift.mp hi)
        omega
  | error error p' =>
      rw [hinfer] at hk
      simp only [stateOf] at hk
      refine .error hk.symm ?_ rfl (error.problem?_shift _)
      simp only [Progress.shift]
      omega

/-- A function that is applied to itself: it has no type. -/
def selfApplied : Term :=
  .lam (some "x") none (.app (.var (some "x")) (.var (some "x")))

/-- Two calls that find types, with one between them that fails. -/
def interrupted : List (Context × Term) :=
  [([("k", .int)], shifted), ([], selfApplied), ([("k", .int)], shifted)]

theorem supply_independent_interrupted :
    (∀ b ∈ [("k", Ty.int)], b.2.Ground) ∧ shifted.Declares Ty.Ground Ty.Ground ∧
      (∃ p q, infer [("k", .int)] shifted { next := 5 } =
          .ok (.arrow (.arrow .int (.var 7)) (.arrow .int (.var 7))) p ∧
        infer [("k", .int)] shifted { next := -3 } =
          .ok (.arrow (.arrow .int (.var (-1))) (.arrow .int (.var (-1)))) q) ∧
      (∃ k, Correspond 5 (-3) k (infer [("k", .int)] shifted { next := 5 })
        (infer [("k", .int)] shifted { next := -3 })) ∧
      (∀ call ∈ interrupted, VariableFree call) ∧
      inferAll interrupted {} =
        [.ok (.arrow (.arrow .int (.var 2)) (.arrow .int (.var 2))),
          .error (.mismatch (.occurs 3 (.arrow (.var 3) (.var 4))) (some (.var 3, .var 3))),
          .ok (.arrow (.arrow .int (.var 7)) (.arrow .int (.var 7)))] ∧
      (inferAll interrupted {}).Pairwise Unshared := by
  have hΓ : ∀ b ∈ [("k", Ty.int)], b.2.Ground := by simp [Ty.int, Ty.Over]
  have he : shifted.Declares Ty.Ground Ty.Ground := by simp [shifted, Term.Declares]
  have hfails : selfApplied.Declares Ty.Ground Ty.Ground := by simp [selfApplied, Term.Declares]
  have hcalls : ∀ call ∈ interrupted, VariableFree call := by
    simp [interrupted, VariableFree, he, hfails, Ty.int, Ty.Over]
  exact ⟨hΓ, he, ⟨_, _, rfl, rfl⟩,
    supply_independent.1 _ shifted hΓ he { next := 5 } { next := -3 }, hcalls, rfl,
    supply_independent.2 interrupted {} hcalls⟩

end LambdaMachine.Typing
