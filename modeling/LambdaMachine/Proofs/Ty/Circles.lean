import LambdaMachine.Proofs.Ty.MostGeneral

namespace LambdaMachine.Ty

open Relation (TransGen ReflTransGen)
open Substitution (Acyclic)

namespace Substitution

/-- Bindings at the root of a type are followed until there is none, however many there are. -/
inductive Resolves (s : Substitution) : Ty → Ty → Prop where
  | bound {i : Int} {t u : Ty} (h : s.find? i = some t) (hrest : Resolves s t u) :
      Resolves s (.var i) u
  | free {i : Int} (h : s.find? i = none) : Resolves s (.var i) (.var i)
  | rigid {t : Ty} (h : ∀ i, t ≠ .var i) : Resolves s t t

/-- Bindings are followed everywhere in a type, however many there are. -/
inductive Applies (s : Substitution) : Ty → Ty → Prop where
  | arrow {t a b a' b' : Ty} (h : s.Resolves t (.arrow a b)) (ha : Applies s a a')
      (hb : Applies s b b') : Applies s t (.arrow a' b')
  | leaf {t u : Ty} (h : s.Resolves t u) (hu : ∀ a b, u ≠ .arrow a b) : Applies s t u

/-- A variable is searched for in a type, with bindings followed on the way. The codomain of an
arrow is searched only if the domain was in vain. -/
inductive Searches (s : Substitution) (id : Int) : Ty → Bool → Prop where
  | var {t : Ty} {i : Int} (h : s.Resolves t (.var i)) : Searches s id t (i == id)
  | domain {t a b : Ty} (h : s.Resolves t (.arrow a b)) (ha : Searches s id a true) :
      Searches s id t true
  | codomain {t a b : Ty} {found : Bool} (h : s.Resolves t (.arrow a b))
      (ha : Searches s id a false) (hb : Searches s id b found) : Searches s id t found
  | rigid {t u : Ty} (h : s.Resolves t u) (hvar : ∀ i, u ≠ .var i)
      (harrow : ∀ a b, u ≠ .arrow a b) : Searches s id t false

/-- Following bindings ends on every type, with the answers that are found within a bound. -/
def Ends (s : Substitution) : Prop :=
  ∀ t, s.Resolves t (s.resolve t) ∧ s.Applies t (s.apply t) ∧
    ∀ i, s.Searches i t (s.occurs i t)

variable {s : Substitution} {t u : Ty} {i : Int}

theorem Acyclic.induction (hs : s.Acyclic) {p : Ty → Prop}
    (free : ∀ i, s.find? i = none → p (.var i))
    (bound : ∀ i t, s.find? i = some t → p t → p (.var i))
    (arrow : ∀ a b, p a → p b → p (.arrow a b))
    (rigid : ∀ t, (∀ i, t ≠ .var i) → (∀ a b, t ≠ .arrow a b) → p t) (t : Ty) : p t := by
  have hrank : ∀ n t, (∀ i ∈ t.vars, s.rank i < n) → p t := by
    intro n
    induction n using Nat.strongRecOn with
    | ind n ih =>
        intro t hn
        induction t with
        | var i =>
            cases hfound : s.find? i with
            | none => exact free i hfound
            | some u =>
                -- a bound variable is of greater rank than the variables of its type
                have hu : ∀ j ∈ u.vars, s.rank j < s.rank i :=
                  fun j hj => hs.rank_lt ⟨u, hfound, hj⟩
                exact bound i u hfound (ih (s.rank i) (hn i (by simp [vars])) u hu)
        | arrow a b iha ihb =>
            exact arrow a b (iha fun i hi => hn i (by simp [vars, hi]))
              (ihb fun i hi => hn i (by simp [vars, hi]))
        | _ => exact rigid _ (by simp) (by simp)
  exact hrank (s.size + 1) t fun i _ => Nat.lt_succ_of_le (s.rank_le_size i)

theorem Acyclic.resolve_of_some (hs : s.Acyclic) (h : s.find? i = some u) :
    s.resolve (.var i) = s.resolve u := by
  have hstable : s.resolveWithin (s.size + 1) (.var i) = s.resolveWithin s.size (.var i) :=
    hs.resolveWithin_stable fun j _ => s.rank_le_size j
  rw [resolve, ← hstable, resolveWithin, h]
  rfl

theorem Acyclic.resolve_of_none (hs : s.Acyclic) (h : s.find? i = none) :
    s.resolve (.var i) = .var i := by
  have hstable : s.resolveWithin (s.size + 1) (.var i) = s.resolveWithin s.size (.var i) :=
    hs.resolveWithin_stable fun j _ => s.rank_le_size j
  rw [resolve, ← hstable, resolveWithin, h]

theorem resolve_of_ne_var (h : ∀ i, t ≠ .var i) : s.resolve t = t := by
  rw [resolve, resolveWithin]
  exact fun n i _ heq => h i heq

theorem vars_of_rigid (hvar : ∀ i, t ≠ .var i) (harrow : ∀ a b, t ≠ .arrow a b) : t.vars = [] := by
  cases t with
  | var i => exact absurd rfl (hvar i)
  | arrow a b => exact absurd rfl (harrow a b)
  | _ => rfl

theorem Acyclic.apply_of_vars (hs : s.Acyclic) (h : t.vars = []) : s.apply t = t := by
  rw [hs.apply_eq_mapVars, mapVars_congr (g := .var) (by simp [h]), mapVars_var]

theorem Acyclic.apply_arrow (hs : s.Acyclic) (a b : Ty) :
    s.apply (.arrow a b) = .arrow (s.apply a) (s.apply b) := by
  simp only [hs.apply_eq_mapVars, mapVars]

theorem Acyclic.occurs_arrow (hs : s.Acyclic) (i : Int) (a b : Ty) :
    s.occurs i (.arrow a b) = (s.occurs i a || s.occurs i b) := by
  rw [Bool.eq_iff_iff, Bool.or_eq_true, occurs_iff, occurs_iff, occurs_iff, hs.apply_arrow, vars,
    List.mem_append]

theorem Acyclic.occurs_of_none (hs : s.Acyclic) (h : s.find? i = none) (id : Int) :
    s.occurs id (.var i) = (i == id) := by
  have happly : s.apply (.var i) = .var i := hs.solution_of_none h
  rw [Bool.eq_iff_iff, occurs_iff, happly, vars, List.mem_singleton, beq_iff_eq, eq_comm]

theorem Acyclic.occurs_of_vars (hs : s.Acyclic) (h : t.vars = []) (id : Int) :
    s.occurs id t = false := by
  rw [← Bool.not_eq_true, occurs_iff, hs.apply_of_vars h, h]
  exact List.not_mem_nil

theorem Applies.bound (hi : s.find? i = some t) (h : s.Applies t u) : s.Applies (.var i) u := by
  cases h with
  | arrow h ha hb => exact .arrow (.bound hi h) ha hb
  | leaf h hu => exact .leaf (.bound hi h) hu

theorem Searches.bound {id : Int} {found : Bool} (hi : s.find? i = some t)
    (h : s.Searches id t found) : s.Searches id (.var i) found := by
  cases h with
  | var h => exact .var (.bound hi h)
  | domain h ha => exact .domain (.bound hi h) ha
  | codomain h ha hb => exact .codomain (.bound hi h) ha hb
  | rigid h hvar harrow => exact .rigid (.bound hi h) hvar harrow

theorem Acyclic.ends (hs : s.Acyclic) : s.Ends := by
  refine hs.induction ?_ ?_ ?_ ?_
  · intro i hi
    have happly : s.apply (.var i) = .var i := hs.solution_of_none hi
    rw [hs.resolve_of_none hi, happly]
    refine ⟨.free hi, .leaf (.free hi) (by simp), fun id => ?_⟩
    rw [hs.occurs_of_none hi]
    exact .var (.free hi)
  · rintro i t hi ⟨hresolves, happlies, hsearches⟩
    have happly : s.apply (.var i) = s.apply t := hs.solution_of_some hi
    have hoccurs : ∀ id, s.occurs id (.var i) = s.occurs id t := by
      intro id
      rw [Bool.eq_iff_iff, occurs_iff, occurs_iff, happly]
    rw [hs.resolve_of_some hi, happly]
    refine ⟨.bound hi hresolves, .bound hi happlies, fun id => ?_⟩
    rw [hoccurs]
    exact .bound hi (hsearches id)
  · rintro a b ⟨-, happliesa, hsearchesa⟩ ⟨-, happliesb, hsearchesb⟩
    have hself : s.Resolves (.arrow a b) (.arrow a b) := .rigid (by simp)
    rw [resolve_of_ne_var (by simp), hs.apply_arrow]
    refine ⟨hself, .arrow hself happliesa happliesb, fun id => ?_⟩
    rw [hs.occurs_arrow]
    have ha := hsearchesa id
    cases hfound : s.occurs id a with
    | true =>
        rw [hfound] at ha
        exact .domain hself ha
    | false =>
        rw [hfound] at ha
        exact .codomain hself ha (hsearchesb id)
  · intro t hvar harrow
    have hself : s.Resolves t t := .rigid hvar
    have hvars : t.vars = [] := vars_of_rigid hvar harrow
    rw [resolve_of_ne_var hvar, hs.apply_of_vars hvars]
    refine ⟨hself, .leaf hself harrow, fun id => ?_⟩
    rw [hs.occurs_of_vars hvars]
    exact .rigid hself hvar harrow

/-- No path of bindings from a variable goes on forever. -/
def Grounded (s : Substitution) (i : Int) : Prop :=
  Acc (fun k j => s.Leads j k) i

theorem Resolves.unbound (h : s.Resolves t (.var i)) : s.find? i = none := by
  generalize hu : Ty.var i = u at h
  induction h with
  | bound _ _ ih => exact ih hu
  | free h =>
      cases hu
      exact h
  | rigid h => exact absurd hu.symm (h i)

theorem Resolves.grounded (h : s.Resolves t u) (hu : ∀ j ∈ u.vars, s.Grounded j) :
    ∀ j ∈ t.vars, s.Grounded j := by
  induction h with
  | @bound i t u hi _ ih =>
      intro j hj
      obtain rfl : j = i := by simpa [vars] using hj
      refine .intro j ?_
      rintro k ⟨t', ht', hk⟩
      rw [hi] at ht'
      cases ht'
      exact ih hu k hk
  | free _ => exact hu
  | rigid _ => exact hu

theorem Applies.grounded (h : s.Applies t u) : ∀ j ∈ t.vars, s.Grounded j := by
  induction h with
  | arrow h _ _ iha ihb =>
      refine h.grounded fun j hj => ?_
      rcases List.mem_append.mp hj with hj | hj
      · exact iha j hj
      · exact ihb j hj
  | @leaf t u h hu =>
      refine h.grounded fun j hj => ?_
      cases u with
      | var i =>
          obtain rfl : j = i := by simpa [vars] using hj
          refine .intro j ?_
          rintro k ⟨t', ht', -⟩
          rw [h.unbound] at ht'
          cases ht'
      | arrow a b => exact absurd rfl (hu a b)
      | _ => cases hj

theorem Grounded.no_circle (h : s.Grounded i) : ¬ TransGen s.Leads i i := by
  induction h with
  | intro i _ ih =>
      intro hcircle
      obtain ⟨j, hij, hji⟩ := TransGen.head'_iff.mp hcircle
      exact ih j hij (TransGen.tail' hji hij)

theorem ends_iff_acyclic : s.Ends ↔ s.Acyclic := by
  constructor
  · intro h i
    exact ((h (.var i)).2.1.grounded i (by simp [vars])).no_circle
  · exact Acyclic.ends

theorem Acyclic.occurs_of_bound (hs : s.Acyclic) (hi : s.find? i = some u) (t : Ty) :
    s.occurs i t = false := by
  rw [← Bool.not_eq_true, occurs_iff]
  refine hs.induction (p := fun t => i ∉ (s.apply t).vars) ?_ ?_ ?_ ?_ t
  · intro j hj
    rw [show s.apply (.var j) = .var j from hs.solution_of_none hj, vars, List.mem_singleton]
    rintro rfl
    rw [hi] at hj
    cases hj
  · intro j t hj ih
    rw [show s.apply (.var j) = s.apply t from hs.solution_of_some hj]
    exact ih
  · intro a b iha ihb
    rw [hs.apply_arrow, vars, List.mem_append]
    exact not_or.mpr ⟨iha, ihb⟩
  · intro t hvar harrow
    have hvars := vars_of_rigid hvar harrow
    rw [hs.apply_of_vars hvars, hvars]
    exact List.not_mem_nil

end Substitution

/-- A call that adds bindings. -/
inductive Call where
  | bind (id : Int) (t : Ty)
  | unify (left right : Ty)

/-- The bindings that a computation leaves behind, whether it succeeds or fails. -/
def UnifyM.leaves (work : UnifyM Unit) (s : Substitution) : Substitution :=
  match work s with
  | .ok _ s' | .error _ s' => s'

theorem UnifyM.leaves_of_answer {work : UnifyM Unit} {s s' : Substitution} {o : Option UnifyError}
    (h : work s = answer o s') : UnifyM.leaves work s = s' := by
  rw [leaves, h]
  cases o with
  | none => rfl
  | some e => rfl

namespace Call

def perform : Call → Substitution → Substitution
  | .bind id t => UnifyM.leaves (Ty.bind id t)
  | .unify left right => UnifyM.leaves (Ty.unify left right)

/-- A variable is bound a second time, to a type that reaches it through bindings. -/
def ClosesCircle : Call → Substitution → Prop
  | .bind id t, s => (∃ u, s.find? id = some u) ∧ ∃ j ∈ t.vars, ReflTransGen s.Leads j id
  | .unify _ _, _ => False

theorem acyclic_perform_iff {s : Substitution} (hs : s.Acyclic) (call : Call) :
    (call.perform s).Acyclic ↔ ¬ call.ClosesCircle s := by
  cases call with
  | unify left right =>
      obtain ⟨d, o, s', hanswer, hunify, -⟩ := unifies_unify hs left right
      rw [perform, UnifyM.leaves_of_answer hanswer]
      exact iff_of_true (hunify.extends hs).2 id
  | bind i t =>
      have hbind := bind_eq i t s
      cases hfound : s.find? i with
      | none =>
          have hfirst : ¬ (Call.bind i t).ClosesCircle s := by
            rintro ⟨⟨u, hu⟩, -⟩
            rw [hfound] at hu
            cases hu
          refine iff_of_true ?_ hfirst
          cases hoccurs : s.occurs i t with
          | true =>
              rw [hoccurs, if_pos rfl] at hbind
              rw [perform, UnifyM.leaves_of_answer hbind]
              exact hs
          | false =>
              rw [hoccurs, if_neg Bool.false_ne_true] at hbind
              rw [perform, UnifyM.leaves_of_answer hbind]
              exact hs.insert hfound hoccurs
      | some u =>
          rw [hs.occurs_of_bound hfound, if_neg Bool.false_ne_true] at hbind
          rw [perform, UnifyM.leaves_of_answer hbind, hs.insert_iff]
          exact not_congr ⟨fun h => ⟨⟨u, hfound⟩, h⟩, And.right⟩

end Call

/-- The bindings after a sequence of calls, of which there are none at first. -/
def after (calls : List Call) : Substitution :=
  calls.foldl (fun s call => call.perform s) {}

theorem after_append (calls : List Call) (call : Call) :
    after (calls ++ [call]) = call.perform (after calls) := by
  simp [after]

/-- Calls close no circle, at any point of a sequence of them, exactly if none of them binds a
variable a second time to a type that reaches it. Then following bindings ends on every type at
every point, and otherwise it does not. -/
theorem acyclic_after_iff (calls : List Call) :
    ((∀ done, done <+: calls → (after done).Acyclic) ↔
      ∀ done call, done ++ [call] <+: calls → ¬ call.ClosesCircle (after done)) ∧
    ((∀ done, done <+: calls → (after done).Ends) ↔
      ∀ done call, done ++ [call] <+: calls → ¬ call.ClosesCircle (after done)) := by
  have hiff : (∀ done, done <+: calls → (after done).Acyclic) ↔
      ∀ done call, done ++ [call] <+: calls → ¬ call.ClosesCircle (after done) := by
    constructor
    · intro hacyclic done call hmore
      have hdone := hacyclic done ((List.prefix_append done [call]).trans hmore)
      have hnext := hacyclic _ hmore
      rw [after_append] at hnext
      exact (call.acyclic_perform_iff hdone).mp hnext
    · intro hfirst done
      induction done using List.reverseRecOn with
      | nil => exact fun _ => Substitution.acyclic_empty
      | append_singleton done call ih =>
          intro hmore
          rw [after_append, call.acyclic_perform_iff]
          · exact hfirst done call hmore
          · exact ih ((List.prefix_append done [call]).trans hmore)
  refine ⟨hiff, ?_⟩
  rw [← hiff]
  exact forall_congr' fun done => imp_congr_right fun _ => Substitution.ends_iff_acyclic

/-- Calls can close a circle: a variable is bound to another one and then to itself. No number of
bindings is enough to follow it to an end. -/
theorem circle_after_rebinding :
    after [.bind 0 (.var 1), .bind 0 (.var 0)] = ⟨[(0, .var 0)]⟩ ∧
      ¬ (after [.bind 0 (.var 1), .bind 0 (.var 0)]).Acyclic ∧
      ¬ ∃ u, (after [.bind 0 (.var 1), .bind 0 (.var 0)]).Resolves (.var 0) u := by
  have hafter : after [.bind 0 (.var 1), .bind 0 (.var 0)] = ⟨[(0, .var 0)]⟩ := rfl
  have hself : (⟨[(0, .var 0)]⟩ : Substitution).find? 0 = some (.var 0) := rfl
  have hnever : ∀ t u, Substitution.Resolves ⟨[(0, .var 0)]⟩ t u → t ≠ .var 0 := by
    intro t u hu
    induction hu with
    | bound hi _ ih =>
        rintro ⟨⟩
        rw [hself] at hi
        cases hi
        exact ih rfl
    | free hi =>
        rintro ⟨⟩
        rw [hself] at hi
        cases hi
    | rigid h => exact h 0
  rw [hafter]
  refine ⟨rfl, fun hacyclic => hacyclic 0 (.single ⟨.var 0, hself, by simp [vars]⟩), ?_⟩
  rintro ⟨u, hu⟩
  exact hnever _ u hu rfl

end LambdaMachine.Ty
