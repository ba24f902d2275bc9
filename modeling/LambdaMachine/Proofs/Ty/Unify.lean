import LambdaMachine.Proofs.Ty.Acyclic
import LambdaMachine.Ty.Unify
import Mathlib.Tactic.Linarith

/-!
Unification finds most general unifiers. What one call can do is stated by rules, from which
everything else follows by induction: bindings are only added and stay acyclic, the solutions of the
new bindings are the solutions of the old ones that make the two types equal, there is no such
solution after a failure, and the bound on the depth is never reached.
-/

namespace LambdaMachine.Ty

open Substitution (Acyclic Extends Solves)

/-- What unification of two types can do to the bindings, and with which error it ends. -/
inductive Unifies : Nat → Ty → Ty → Substitution → Option UnifyError → Substitution → Prop where
  | circular (l r : Ty) (s : Substitution) : Unifies 0 l r s (some .circular) s
  | same {d : Nat} {l r : Ty} {s : Substitution} (h : s.resolve l = s.resolve r) :
      Unifies (d + 1) l r s none s
  | bind {d : Nat} {l r t : Ty} {s : Substitution} {i : Int}
      (h : s.resolve l = .var i ∧ s.resolve r = t ∨ s.resolve l = t ∧ s.resolve r = .var i)
      (hoccurs : s.occurs i t = false) : Unifies (d + 1) l r s none (s.insert i t)
  | occurs {d : Nat} {l r t : Ty} {s : Substitution} {i : Int}
      (h : s.resolve l = .var i ∧ s.resolve r = t ∨ s.resolve l = t ∧ s.resolve r = .var i)
      (hne : t ≠ .var i) (hoccurs : s.occurs i t = true) :
      Unifies (d + 1) l r s (some (.occurs i (s.apply t))) s
  | arrows {d : Nat} {l r a b a' b' : Ty} {s s₁ s₂ : Substitution} {o : Option UnifyError}
      (hl : s.resolve l = .arrow a b) (hr : s.resolve r = .arrow a' b')
      (ha : Unifies d a a' s none s₁) (hb : Unifies d b b' s₁ o s₂) : Unifies (d + 1) l r s o s₂
  | domains {d : Nat} {l r a b a' b' : Ty} {s s₁ : Substitution} {e : UnifyError}
      (hl : s.resolve l = .arrow a b) (hr : s.resolve r = .arrow a' b')
      (ha : Unifies d a a' s (some e) s₁) : Unifies (d + 1) l r s (some e) s₁
  | constants {d : Nat} {l r : Ty} {s : Substitution} {a b : String}
      (hl : s.resolve l = .const a) (hr : s.resolve r = .const b) (hne : a ≠ b) :
      Unifies (d + 1) l r s (some (.constants a b)) s
  | kinds {d : Nat} {l r a b : Ty} {s : Substitution} {c : String}
      (h : s.resolve l = .arrow a b ∧ s.resolve r = .const c ∨
        s.resolve l = .const c ∧ s.resolve r = .arrow a b) :
      Unifies (d + 1) l r s (some (.kinds (s.apply (s.resolve l)) (s.apply (s.resolve r)))) s
  | notTypes {d : Nat} {l r : Ty} {s : Substitution}
      (h : ¬ (s.resolve l).Proper ∨ ¬ (s.resolve r).Proper) :
      Unifies (d + 1) l r s (some (.notTypes (s.resolve l) (s.resolve r))) s

theorem isConstructed_iff {t : Ty} :
    t.isConstructed = true ↔ (∃ a, t = .const a) ∨ ∃ a b, t = .arrow a b := by
  cases t <;> simp [isConstructed]

theorem Proper.isConstructed {t : Ty} (h : t.Proper) (hvar : ∀ i, t = .var i → False) :
    t.isConstructed = true := by
  cases t with
  | var i => exact (hvar i rfl).elim
  | const name => rfl
  | arrow a b => rfl
  | absent => exact h.elim
  | foreign text => exact h.elim

/-- The result of a unification with the given error and bindings. -/
def answer : Option UnifyError → Substitution → EStateM.Result UnifyError Substitution Unit
  | none, s => .ok () s
  | some e, s => .error e s

theorem answer_inj {o o' : Option UnifyError} {s s' : Substitution}
    (h : answer o s = answer o' s') : o = o' ∧ s = s' := by
  rcases o with _ | e <;> rcases o' with _ | e' <;> simp_all [answer]

section Stages

variable {x y : UnifyM Unit} {s s' : Substitution}

theorem seq_of_ok (h : x s = answer none s') : (x >>= fun _ => y) s = y s' := by
  show EStateM.bind x _ s = _
  rw [EStateM.bind, h]
  rfl

theorem seq_of_error {e : UnifyError} (h : x s = answer (some e) s') :
    (x >>= fun _ => y) s = answer (some e) s' := by
  show EStateM.bind x _ s = _
  rw [EStateM.bind, h]
  rfl

end Stages

theorem bind_eq (i : Int) (t : Ty) (s : Substitution) :
    bind i t s =
      if s.occurs i t then answer (some (.occurs i (s.apply t))) s
      else answer none (s.insert i t) := by
  show (if s.occurs i t then throw (.occurs i (s.apply t)) else _ : UnifyM Unit) s = _
  split <;> rfl

theorem unifies_bind {d : Nat} {l r t : Ty} {s : Substitution} {i : Int}
    (h : s.resolve l = .var i ∧ s.resolve r = t ∨ s.resolve l = t ∧ s.resolve r = .var i)
    (hne : t ≠ .var i) :
    ∃ o s', bind i t s = answer o s' ∧ Unifies (d + 1) l r s o s' := by
  rw [bind_eq]
  cases hoccurs : s.occurs i t with
  | true => exact ⟨_, _, rfl, .occurs h hne hoccurs⟩
  | false => exact ⟨_, _, rfl, .bind h hoccurs⟩

theorem unifyWithin_succ (d : Nat) (l r : Ty) (s : Substitution) :
    unifyWithin (d + 1) l r s =
      match s.resolve l, s.resolve r with
      | .var i, .var j => (if i = j then pure () else bind i (.var j) : UnifyM Unit) s
      | .var i, t => bind i t s
      | t, .var j => bind j t s
      | .arrow a b, .arrow a' b' => (unifyWithin d a a' >>= fun _ => unifyWithin d b b') s
      | .const a, .const b =>
          (if a = b then pure () else throw (.constants a b) : UnifyM Unit) s
      | l, r =>
          (if l.isConstructed && r.isConstructed then throw (.kinds (s.apply l) (s.apply r))
            else throw (.notTypes l r) : UnifyM Unit) s := by
  show (match s.resolve l, s.resolve r with
    | .var i, .var j => if i = j then pure () else bind i (.var j)
    | .var i, t => bind i t
    | t, .var j => bind j t
    | .arrow a b, .arrow a' b' => unifyWithin d a a' >>= fun _ => unifyWithin d b b'
    | .const a, .const b => if a = b then pure () else throw (.constants a b)
    | l, r =>
        if l.isConstructed && r.isConstructed then throw (.kinds (s.apply l) (s.apply r))
        else throw (.notTypes l r) : UnifyM Unit) s = _
  cases s.resolve l <;> cases s.resolve r <;> rfl

theorem unifies_unifyWithin (d : Nat) (l r : Ty) (s : Substitution) :
    ∃ o s', unifyWithin d l r s = answer o s' ∧ Unifies d l r s o s' := by
  induction d generalizing l r s with
  | zero => exact ⟨_, _, rfl, .circular l r s⟩
  | succ d ih =>
      rw [unifyWithin_succ]
      split
      · rename_i i j hl hr
        split
        · rename_i hij
          exact ⟨none, s, rfl, .same (by rw [hl, hr, hij])⟩
        · rename_i hij
          exact unifies_bind (.inl ⟨hl, hr⟩) (by simpa using Ne.symm hij)
      · rename_i i hl hvar
        exact unifies_bind (.inl ⟨hl, rfl⟩) (hvar i)
      · rename_i i hr hvar
        exact unifies_bind (.inr ⟨rfl, hr⟩) (hvar i)
      · rename_i a b a' b' hl hr
        obtain ⟨o, s₁, ha, hunify⟩ := ih a a' s
        cases o with
        | some e => exact ⟨some e, s₁, seq_of_error ha, .domains hl hr hunify⟩
        | none =>
            obtain ⟨o, s₂, hb, hunify'⟩ := ih b b' s₁
            exact ⟨o, s₂, (seq_of_ok ha).trans hb, .arrows hl hr hunify hunify'⟩
      · rename_i a b hl hr
        split
        · rename_i hab
          exact ⟨none, s, rfl, .same (by rw [hl, hr, hab])⟩
        · rename_i hab
          exact ⟨_, s, rfl, .constants hl hr hab⟩
      · rename_i hvar hvar' _ harrow hconst
        split
        · rename_i hheads
          obtain ⟨hl, hr⟩ := Bool.and_eq_true_iff.mp hheads
          refine ⟨some _, s, rfl, ?_⟩
          rcases isConstructed_iff.mp hl with ⟨a, hl⟩ | ⟨a, b, hl⟩
          · rcases isConstructed_iff.mp hr with ⟨a', hr⟩ | ⟨a', b', hr⟩
            · exact (hconst a a' hl hr).elim
            · exact .kinds (.inr ⟨hl, hr⟩)
          · rcases isConstructed_iff.mp hr with ⟨a', hr⟩ | ⟨a', b', hr⟩
            · exact .kinds (.inl ⟨hl, hr⟩)
            · exact (harrow a b a' b' hl hr).elim
        · rename_i hheads
          refine ⟨some _, s, rfl, .notTypes ?_⟩
          by_contra hproper
          rw [not_or, not_not, not_not] at hproper
          exact hheads (Bool.and_eq_true_iff.mpr
            ⟨hproper.1.isConstructed hvar, hproper.2.isConstructed hvar'⟩)

section Frame

variable {d : Nat} {l r t : Ty} {s s' : Substitution} {o : Option UnifyError} {R : Ty → Prop}

/-- Every variable that is bound and every type that one is bound to satisfies `R`. -/
def Substitution.Within (s : Substitution) (R : Ty → Prop) : Prop :=
  ∀ i t, s.find? i = some t → R (.var i) ∧ R t

theorem Substitution.Within.resolveWithin (hs : s.Within R) (n : Nat) (ht : R t) :
    R (s.resolveWithin n t) := by
  fun_induction Substitution.resolveWithin s n t with
  | case1 n i u hfound ih => exact ih (hs i u hfound).2
  | case2 => exact ht
  | case3 => exact ht

theorem Substitution.Within.resolve (hs : s.Within R) (ht : R t) : R (s.resolve t) :=
  hs.resolveWithin _ ht

theorem Substitution.Within.of_resolve {u : Ty} (hs : s.Within R) (ht : R t)
    (h : s.resolve t = u) : R u :=
  h ▸ hs.resolve ht

theorem Substitution.Within.insert {i : Int} (hs : s.Within R) (hi : R (.var i)) (ht : R t) :
    (s.insert i t).Within R := by
  intro j u hj
  by_cases hne : j = i
  · subst hne
    rw [Substitution.find?_insert_self] at hj
    cases hj
    exact ⟨hi, ht⟩
  · rw [Substitution.find?_insert_of_ne s hne] at hj
    exact hs j u hj

theorem Substitution.Within.applyWithin_over {p : Int → Prop} (hs : s.Within (Over p)) (n : Nat)
    (ht : t.Over p) : (s.applyWithin n t).Over p := by
  induction n generalizing t with
  | zero => exact ht
  | succ n ih =>
      refine ht.mapVars fun i hi => ?_
      cases hfound : s.find? i with
      | none => exact hi
      | some u => exact ih (hs i u hfound).2

theorem Substitution.Within.apply_over {p : Int → Prop} (hs : s.Within (Over p)) (ht : t.Over p) :
    (s.apply t).Over p :=
  hs.applyWithin_over _ ht

theorem Unifies.within (hparts : ∀ a b, R (.arrow a b) → R a ∧ R b) (h : Unifies d l r s o s')
    (hs : s.Within R) (hl : R l) (hr : R r) : s'.Within R := by
  induction h with
  | circular l r s => exact hs
  | same h => exact hs
  | bind h hoccurs =>
      rcases h with ⟨h, h'⟩ | ⟨h, h'⟩
      · exact hs.insert (hs.of_resolve hl h) (hs.of_resolve hr h')
      · exact hs.insert (hs.of_resolve hr h') (hs.of_resolve hl h)
  | occurs h hne hoccurs => exact hs
  | arrows hl' hr' ha hb iha ihb =>
      obtain ⟨hla, hlb⟩ := hparts _ _ (hs.of_resolve hl hl')
      obtain ⟨hra, hrb⟩ := hparts _ _ (hs.of_resolve hr hr')
      exact ihb (iha hs hla hra) hlb hrb
  | domains hl' hr' ha iha =>
      obtain ⟨hla, -⟩ := hparts _ _ (hs.of_resolve hl hl')
      obtain ⟨hra, -⟩ := hparts _ _ (hs.of_resolve hr hr')
      exact iha hs hla hra
  | constants hl' hr' hne => exact hs
  | kinds h => exact hs
  | notTypes h => exact hs

theorem unbound_of_sides {i : Int} (hs : s.Acyclic)
    (h : s.resolve l = .var i ∧ s.resolve r = t ∨ s.resolve l = t ∧ s.resolve r = .var i) :
    s.find? i = none := by
  rcases h with ⟨h, -⟩ | ⟨-, h⟩
  · exact hs.unbound_of_resolve h
  · exact hs.unbound_of_resolve h

theorem Unifies.extends (h : Unifies d l r s o s') (hs : s.Acyclic) :
    s.Extends s' ∧ s'.Acyclic := by
  induction h with
  | circular l r s => exact ⟨.refl s, hs⟩
  | same h => exact ⟨.refl _, hs⟩
  | bind h hoccurs =>
      have hunbound := unbound_of_sides hs h
      exact ⟨Substitution.extends_insert hunbound _, hs.insert hunbound hoccurs⟩
  | occurs h hne hoccurs => exact ⟨.refl _, hs⟩
  | arrows hl hr ha hb iha ihb =>
      obtain ⟨hext, hacyclic⟩ := iha hs
      obtain ⟨hext', hacyclic'⟩ := ihb hacyclic
      exact ⟨hext.trans hext', hacyclic'⟩
  | domains hl hr ha iha => exact iha hs
  | constants hl hr hne => exact ⟨.refl _, hs⟩
  | kinds h => exact ⟨.refl _, hs⟩
  | notTypes h => exact ⟨.refl _, hs⟩

end Frame

section Solutions

variable {d : Nat} {l r t : Ty} {s s' : Substitution} {o : Option UnifyError} {h : Int → Ty}

theorem Substitution.Solves.eq_iff (hh : Solves h s) (l r : Ty) :
    l.mapVars h = r.mapVars h ↔ (s.resolve l).mapVars h = (s.resolve r).mapVars h := by
  rw [hh.mapVars_resolve, hh.mapVars_resolve]

theorem Substitution.Solves.eq_iff_of_sides {i : Int} (hh : Solves h s)
    (hsides : s.resolve l = .var i ∧ s.resolve r = t ∨ s.resolve l = t ∧ s.resolve r = .var i) :
    l.mapVars h = r.mapVars h ↔ h i = t.mapVars h := by
  rw [hh.eq_iff]
  rcases hsides with ⟨hl, hr⟩ | ⟨hl, hr⟩
  · rw [hl, hr]
    rfl
  · rw [hl, hr]
    exact eq_comm

theorem Substitution.Solves.eq_iff_of_arrows {a b a' b' : Ty} (hh : Solves h s)
    (hl : s.resolve l = .arrow a b) (hr : s.resolve r = .arrow a' b') :
    l.mapVars h = r.mapVars h ↔ a.mapVars h = a'.mapVars h ∧ b.mapVars h = b'.mapVars h := by
  rw [hh.eq_iff, hl, hr]
  simp [mapVars]

/-- After a success, the solutions are those that make the two types equal. -/
theorem Unifies.solves_iff (hunify : Unifies d l r s o s') (hs : s.Acyclic) (ho : o = none) :
    Solves h s' ↔ Solves h s ∧ l.mapVars h = r.mapVars h := by
  induction hunify with
  | circular l r s => cases ho
  | same heq =>
      refine ⟨fun hh => ⟨hh, ?_⟩, And.left⟩
      rw [hh.eq_iff, heq]
  | bind hsides hoccurs =>
      rw [Substitution.solves_insert_iff (unbound_of_sides hs hsides)]
      exact and_congr_right fun hh => (hh.eq_iff_of_sides hsides).symm
  | occurs hsides hne hoccurs => cases ho
  | arrows hl hr ha hb iha ihb =>
      rw [ihb (ha.extends hs).2 ho, iha hs rfl, and_assoc]
      exact and_congr_right fun hh => (hh.eq_iff_of_arrows hl hr).symm
  | domains hl hr ha iha => cases ho
  | constants hl hr hne => cases ho
  | kinds h => cases ho
  | notTypes h => cases ho

theorem apply_ne_var {i : Int} (hs : s.Acyclic) (ht : s.resolve l = t) (hne : t ≠ .var i) :
    s.apply t ≠ .var i := by
  rw [hs.apply_eq_mapVars]
  cases t with
  | var j =>
      rw [mapVars, hs.solution_of_none (hs.unbound_of_resolve ht)]
      exact hne
  | const name => simp [mapVars]
  | arrow a b => simp [mapVars]
  | absent => simp [mapVars]
  | foreign text => simp [mapVars]

theorem Unifies.unsolvable (hunify : Unifies d l r s o s') (hs : s.Acyclic)
    (hproper : s.Within Proper) (hl : l.Proper) (hr : r.Proper) {e : UnifyError} (ho : o = some e)
    (he : e ≠ .circular) (hh : Solves h s) : l.mapVars h ≠ r.mapVars h := by
  induction hunify with
  | circular l r s =>
      cases ho
      exact absurd rfl he
  | same heq => cases ho
  | bind hsides hoccurs => cases ho
  | @occurs d l r t s i hsides hne hoccurs =>
      rw [Ne, hh.eq_iff_of_sides hsides, ← hh.mapVars_apply t]
      have hmem := Substitution.occurs_iff.mp hoccurs
      have hne' : s.apply t ≠ .var i := by
        rcases hsides with ⟨-, ht⟩ | ⟨ht, -⟩
        · exact apply_ne_var hs ht hne
        · exact apply_ne_var hs ht hne
      intro heq
      have hlt := size_lt_of_mem_vars (f := h) hmem hne'
      rw [← heq] at hlt
      exact lt_irrefl _ hlt
  | arrows hl' hr' ha hb iha ihb =>
      have hleft : (arrow _ _).Proper := hproper.of_resolve hl hl'
      have hright : (arrow _ _).Proper := hproper.of_resolve hr hr'
      have hmiddle := ha.within (fun _ _ => id) hproper hleft.1 hright.1
      rw [Ne, hh.eq_iff_of_arrows hl' hr']
      rintro ⟨hdomains, hcodomains⟩
      exact ihb (ha.extends hs).2 hmiddle hleft.2 hright.2 ho
        ((ha.solves_iff hs rfl).mpr ⟨hh, hdomains⟩) hcodomains
  | domains hl' hr' ha iha =>
      have hleft : (arrow _ _).Proper := hproper.of_resolve hl hl'
      have hright : (arrow _ _).Proper := hproper.of_resolve hr hr'
      rw [Ne, hh.eq_iff_of_arrows hl' hr']
      rintro ⟨hdomains, -⟩
      exact iha hs hproper hleft.1 hright.1 ho hh hdomains
  | constants hl' hr' hne =>
      rw [Ne, hh.eq_iff, hl', hr']
      simpa [mapVars] using hne
  | kinds hsides =>
      rw [Ne, hh.eq_iff]
      rcases hsides with ⟨hl', hr'⟩ | ⟨hl', hr'⟩
      · simp [hl', hr', mapVars]
      · simp [hl', hr', mapVars]
  | notTypes himproper =>
      rcases himproper with h' | h'
      · exact absurd (hproper.resolve hl) h'
      · exact absurd (hproper.resolve hr) h'

end Solutions

section Depth

open Relation (TransGen ReflTransGen)

variable {d : Nat} {l r t u : Ty} {s s' : Substitution} {o : Option UnifyError}

/-- The second type is a part of the first one, or what the first one is bound to. -/
inductive Under (s : Substitution) : Ty → Ty → Prop where
  | domain (a b : Ty) : Under s (.arrow a b) a
  | codomain (a b : Ty) : Under s (.arrow a b) b
  | binding {i : Int} {t : Ty} (h : s.find? i = some t) : Under s (.var i) t

theorem Under.of_extends (h : Under s t u) (hext : s.Extends s') : Under s' t u := by
  cases h with
  | domain => exact .domain _ _
  | codomain => exact .codomain _ _
  | binding h => exact .binding (hext _ _ h)

theorem under_resolve (s : Substitution) (t : Ty) : ReflTransGen (Under s) t (s.resolve t) := by
  rw [Substitution.resolve]
  fun_induction Substitution.resolveWithin s s.size t with
  | case1 n i u hfound ih => exact ih.head (.binding hfound)
  | case2 => exact .refl
  | case3 => exact .refl

/-- The number of bindings that can still be followed at the root of a type. -/
noncomputable def pending (s : Substitution) : Ty → Nat
  | .var i => s.rank i + 1
  | _ => 0

theorem lex_of_under (hs : s.Acyclic) (h : Under s t u) :
    (s.apply u).size < (s.apply t).size ∨
      (s.apply u).size = (s.apply t).size ∧ pending s u < pending s t := by
  cases h with
  | domain =>
      left
      simp only [hs.apply_eq_mapVars, mapVars, size]
      omega
  | codomain =>
      left
      simp only [hs.apply_eq_mapVars, mapVars, size]
      omega
  | @binding i _ h =>
      -- a variable is as large as its binding, but there is one binding less to follow
      right
      have hsame : s.apply u = s.apply (.var i) := (hs.solution_of_some h).symm
      refine ⟨by rw [hsame], ?_⟩
      cases u with
      | var j => exact Nat.succ_lt_succ (hs.rank_lt ⟨_, h, by simp [vars]⟩)
      | const name => exact Nat.succ_pos _
      | arrow a b => exact Nat.succ_pos _
      | absent => exact Nat.succ_pos _
      | foreign text => exact Nat.succ_pos _

theorem lex_of_transGen (hs : s.Acyclic) (h : TransGen (Under s) t u) :
    (s.apply u).size < (s.apply t).size ∨
      (s.apply u).size = (s.apply t).size ∧ pending s u < pending s t := by
  induction h with
  | single h => exact lex_of_under hs h
  | tail _ h ih =>
      have := lex_of_under hs h
      omega

theorem not_under_self (hs : s.Acyclic) (t : Ty) : ¬ TransGen (Under s) t t := by
  intro h
  have := lex_of_transGen hs h
  omega

theorem above_arrow {a b : Ty} {U P : Finset Ty} (hs : s.Acyclic) (hin : s.Within (· ∈ U))
    (hl : l ∈ U) (hP : P ⊆ U) (habove : ∀ t ∈ P, TransGen (Under s) t l)
    (hresolve : s.resolve l = .arrow a b) :
    insert (.arrow a b) P ⊆ U ∧ (insert (.arrow a b) P).card = P.card + 1 ∧
      ∀ t ∈ insert (.arrow a b) P, ReflTransGen (Under s) t (.arrow a b) := by
  have hmem : .arrow a b ∈ U := hin.of_resolve hl hresolve
  have hunder : ReflTransGen (Under s) l (.arrow a b) := hresolve ▸ under_resolve s l
  refine ⟨Finset.insert_subset hmem hP, Finset.card_insert_of_notMem ?_, ?_⟩
  · -- the arrow would otherwise be below itself
    intro hold
    exact not_under_self hs _ ((habove _ hold).trans_left hunder)
  · intro t ht
    rcases Finset.mem_insert.mp ht with rfl | ht
    · exact .refl
    · exact ((habove t ht).trans_left hunder).to_reflTransGen

/-- The depth is enough if it exceeds the number of types in play that are not yet above the left
side. -/
theorem Unifies.ne_circular {U : Finset Ty} (hparts : ∀ a b, .arrow a b ∈ U → a ∈ U ∧ b ∈ U)
    (h : Unifies d l r s o s') (hs : s.Acyclic) (hin : s.Within (· ∈ U)) (hl : l ∈ U) (hr : r ∈ U)
    {P : Finset Ty} (hP : P ⊆ U) (habove : ∀ t ∈ P, TransGen (Under s) t l)
    (hdepth : U.card < d + P.card) : o ≠ some .circular := by
  -- `P` is a set of types above the left side, and each level of arrows adds one to it
  induction h generalizing P with
  | circular l r s =>
      have := Finset.card_le_card hP
      omega
  | same h => simp
  | bind h hoccurs => simp
  | occurs h hne hoccurs => simp
  | @arrows d l r a b a' b' s s₁ s₂ o hl' hr' ha hb iha ihb =>
      obtain ⟨hsub, hcard, hunder⟩ := above_arrow hs hin hl hP habove hl'
      have hleft := hparts a b (hin.of_resolve hl hl')
      have hright := hparts a' b' (hin.of_resolve hr hr')
      obtain ⟨hext, hs₁⟩ := ha.extends hs
      refine ihb hs₁ (ha.within hparts hin hleft.1 hright.1) hleft.2 hright.2 hsub ?_ (by omega)
      intro t ht
      have hlifted : ReflTransGen (Under s₁) t (.arrow a b) :=
        ReflTransGen.mono (fun _ _ h => h.of_extends hext) _ _ (hunder t ht)
      exact TransGen.tail' hlifted (.codomain a b)
  | @domains d l r a b a' b' s s₁ e hl' hr' ha iha =>
      obtain ⟨hsub, hcard, hunder⟩ := above_arrow hs hin hl hP habove hl'
      have hleft := hparts a b (hin.of_resolve hl hl')
      have hright := hparts a' b' (hin.of_resolve hr hr')
      refine iha hs hin hleft.1 hright.1 hsub ?_ (by omega)
      intro t ht
      exact TransGen.tail' (hunder t ht) (.domain a b)
  | constants hl hr hne => simp
  | kinds h => simp
  | notTypes h => simp

/-- A type with its parts. -/
def parts : Ty → List Ty
  | .arrow a b => .arrow a b :: (a.parts ++ b.parts)
  | t => [t]

theorem length_parts (t : Ty) : t.parts.length = t.size := by
  induction t with
  | arrow a b iha ihb => simp [parts, size, iha, ihb]
  | var i => rfl
  | const name => rfl
  | absent => rfl
  | foreign text => rfl

theorem self_mem_parts (t : Ty) : t ∈ t.parts := by
  cases t <;> simp [parts]

theorem mem_parts_of_arrow {a b : Ty} (h : .arrow a b ∈ t.parts) :
    a ∈ t.parts ∧ b ∈ t.parts := by
  induction t with
  | arrow c d ihc ihd =>
      simp only [parts, List.mem_cons, List.mem_append] at h ⊢
      rcases h with heq | h | h
      · cases heq
        exact ⟨.inr (.inl (self_mem_parts _)), .inr (.inr (self_mem_parts _))⟩
      · exact ⟨.inr (.inl (ihc h).1), .inr (.inl (ihc h).2)⟩
      · exact ⟨.inr (.inr (ihd h).1), .inr (.inr (ihd h).2)⟩
  | var i => simp [parts] at h
  | const name => simp [parts] at h
  | absent => simp [parts] at h
  | foreign text => simp [parts] at h

/-- The types that can come up when two types are unified. -/
def inPlay (s : Substitution) (l r : Ty) : List Ty :=
  s.bindings.flatMap (fun b => .var b.1 :: b.2.parts) ++ (l.parts ++ r.parts)

theorem mem_inPlay : t ∈ inPlay s l r ↔
    (∃ b ∈ s.bindings, t = .var b.1 ∨ t ∈ b.2.parts) ∨ t ∈ l.parts ∨ t ∈ r.parts := by
  simp [inPlay]

theorem mem_inPlay_of_arrow {a b : Ty} (h : .arrow a b ∈ inPlay s l r) :
    a ∈ inPlay s l r ∧ b ∈ inPlay s l r := by
  simp only [mem_inPlay] at h ⊢
  rcases h with ⟨c, hc, heq | h⟩ | h | h
  · cases heq
  · exact ⟨.inl ⟨c, hc, .inr (mem_parts_of_arrow h).1⟩, .inl ⟨c, hc, .inr (mem_parts_of_arrow h).2⟩⟩
  · exact ⟨.inr (.inl (mem_parts_of_arrow h).1), .inr (.inl (mem_parts_of_arrow h).2)⟩
  · exact ⟨.inr (.inr (mem_parts_of_arrow h).1), .inr (.inr (mem_parts_of_arrow h).2)⟩

theorem within_inPlay (s : Substitution) (l r : Ty) : s.Within (· ∈ inPlay s l r) := by
  intro i t hi
  have hmem := Substitution.mem_bindings_of_find? hi
  exact ⟨mem_inPlay.mpr (.inl ⟨_, hmem, .inl rfl⟩),
    mem_inPlay.mpr (.inl ⟨_, hmem, .inr (self_mem_parts t)⟩)⟩

theorem card_inPlay_lt (s : Substitution) (l r : Ty) :
    (inPlay s l r).toFinset.card < depthBound s l r := by
  have hlength : (inPlay s l r).length =
      s.bindings.foldr (fun b n => b.2.size + n) 0 + s.size + l.size + r.size := by
    have hbindings : ∀ bs : List (Int × Ty),
        (bs.flatMap fun b => .var b.1 :: b.2.parts).length =
          bs.foldr (fun b n => b.2.size + n) 0 + bs.length := by
      intro bs
      induction bs with
      | nil => rfl
      | cons b bs ih =>
          simp only [List.flatMap_cons, List.length_append, ih, List.length_cons, length_parts,
            List.foldr_cons]
          omega
    simp only [inPlay, List.length_append, hbindings, length_parts, Substitution.size]
    omega
  have hcard := (inPlay s l r).toFinset_card_le
  rw [hlength] at hcard
  simp only [depthBound]
  nlinarith

end Depth

section Unification

variable {l r : Ty} {s s' : Substitution}

theorem unifies_unify (hs : s.Acyclic) (l r : Ty) :
    ∃ d o s', unify l r s = answer o s' ∧ Unifies d l r s o s' ∧ o ≠ some .circular := by
  obtain ⟨o, s', hanswer, hunify⟩ := unifies_unifyWithin (depthBound s l r) l r s
  refine ⟨_, o, s', hanswer, hunify, ?_⟩
  have hparts : ∀ a b, .arrow a b ∈ (inPlay s l r).toFinset →
      a ∈ (inPlay s l r).toFinset ∧ b ∈ (inPlay s l r).toFinset := by
    intro a b hab
    simp only [List.mem_toFinset] at hab ⊢
    exact mem_inPlay_of_arrow hab
  have hin : s.Within (· ∈ (inPlay s l r).toFinset) := by
    intro i t hi
    simp only [List.mem_toFinset]
    exact within_inPlay s l r i t hi
  have hl : l ∈ (inPlay s l r).toFinset :=
    List.mem_toFinset.mpr (mem_inPlay.mpr (.inr (.inl (self_mem_parts l))))
  have hr : r ∈ (inPlay s l r).toFinset :=
    List.mem_toFinset.mpr (mem_inPlay.mpr (.inr (.inr (self_mem_parts r))))
  exact hunify.ne_circular hparts hs hin hl hr (Finset.empty_subset _) (by simp)
    (card_inPlay_lt s l r)

theorem solves_of_unify (hs : s.Acyclic) (h : unify l r s = .ok () s') :
    s'.Acyclic ∧ ∀ f, Solves f s' ↔ Solves f s ∧ l.mapVars f = r.mapVars f := by
  obtain ⟨d, o, s'', hanswer, hunify, -⟩ := unifies_unify hs l r
  obtain ⟨rfl, rfl⟩ := answer_inj (o := none) (h.symm.trans hanswer)
  exact ⟨(hunify.extends hs).2, fun f => hunify.solves_iff hs rfl⟩

theorem within_of_unify {R : Ty → Prop} (hparts : ∀ a b, R (.arrow a b) → R a ∧ R b)
    (h : unify l r s = .ok () s') (hs : s.Within R) (hl : R l) (hr : R r) : s'.Within R := by
  obtain ⟨o, s'', hanswer, hunify⟩ := unifies_unifyWithin (depthBound s l r) l r s
  obtain ⟨rfl, rfl⟩ := answer_inj (o := none) (h.symm.trans hanswer)
  exact hunify.within hparts hs hl hr

theorem unify_of_solves {f : Int → Ty} (hs : s.Acyclic) (hproper : s.Within Proper)
    (hl : l.Proper) (hr : r.Proper) (hf : Solves f s) (heq : l.mapVars f = r.mapVars f) :
    ∃ s', unify l r s = .ok () s' ∧ Solves f s' := by
  obtain ⟨d, o, s', hanswer, hunify, hcircular⟩ := unifies_unify hs l r
  cases o with
  | none => exact ⟨s', hanswer, (hunify.solves_iff hs rfl).mpr ⟨hf, heq⟩⟩
  | some e =>
      exact absurd heq
        (hunify.unsolvable hs hproper hl hr rfl (fun he => hcircular (by rw [he])) hf)

end Unification

end LambdaMachine.Ty
