import LambdaMachine.Proofs.Ty.Rename
import LambdaMachine.Proofs.Ty.Resolution
import Mathlib.Logic.Equiv.Basic

/-!
Unification is symmetric. Two runs on the same types with the sides exchanged bind a variable to the
other one in opposite directions, so their bindings differ from then on; but they keep the same
solutions, and lead to the same types up to a renaming, which exchanges two names whenever the runs
part. Hence both runs meet the same forms of types, and end in the same way.
-/

namespace LambdaMachine.Ty

open Substitution (Acyclic Solves)

/-- Acyclic bindings with the same solutions, of which the second lead to the same types as the
first up to a renaming. -/
structure Variants (ρ : Int → Int) (s s' : Substitution) : Prop where
  acyclic : s.Acyclic
  acyclic' : s'.Acyclic
  same : ∀ f, Solves f s ↔ Solves f s'
  apply : ∀ t, s'.apply t = (s.apply t).rename ρ

/-- Two types that are equal under all solutions of the bindings. -/
def Agree (s : Substitution) (t t' : Ty) : Prop :=
  ∀ f, Solves f s → t.mapVars f = t'.mapVars f

/-- The two forms that types which agree are followed to by the two bindings. -/
inductive Alike (ρ : Int → Int) (s s' : Substitution) : Ty → Ty → Prop where
  | var {i : Int} (h : s.find? i = none) (h' : s'.find? (ρ i) = none) :
      Alike ρ s s' (.var i) (.var (ρ i))
  | const (name : String) : Alike ρ s s' (.const name) (.const name)
  | arrow {a b a' b' : Ty} (ha : Agree s a a') (hb : Agree s b b') :
      Alike ρ s s' (.arrow a b) (.arrow a' b')
  | absent : Alike ρ s s' .absent .absent
  | foreign (text : String) : Alike ρ s s' (.foreign text) (.foreign text)

variable {ρ : Int → Int} {s s' : Substitution} {t t' : Ty}

namespace Variants

theorem refl (hs : s.Acyclic) : Variants id s s :=
  ⟨hs, hs, fun _ => .rfl, fun _ => (rename_id _).symm⟩

theorem apply_of_agree (h : Variants ρ s s') (ht : Agree s t t') :
    s'.apply t' = (s.apply t).rename ρ := by
  have hsolves := (h.same _).mpr h.acyclic'.solves_solution
  rw [← h.apply, h.acyclic'.apply_eq_mapVars, h.acyclic'.apply_eq_mapVars, ht _ hsolves]

theorem agree_resolve (h : Variants ρ s s') (ht : Agree s t t') :
    Agree s (s.resolve t) (s'.resolve t') := by
  intro f hf
  rw [hf.mapVars_resolve, ((h.same f).mp hf).mapVars_resolve]
  exact ht f hf

theorem alike_resolve (h : Variants ρ s s') (ht : Agree s t t') :
    Alike ρ s s' (s.resolve t) (s'.resolve t') := by
  have hagree := h.agree_resolve ht
  have happly := h.apply_of_agree hagree
  have hvar : ∀ i, s.resolve t = .var i → s.find? i = none := fun i hi =>
    h.acyclic.unbound_of_resolve hi
  have hvar' : ∀ i, s'.resolve t' = .var i → s'.find? i = none := fun i hi =>
    h.acyclic'.unbound_of_resolve hi
  revert hagree happly hvar hvar'
  generalize s.resolve t = u
  generalize s'.resolve t' = u'
  intro hagree happly hvar hvar'
  rw [h.acyclic.apply_eq_mapVars, h.acyclic'.apply_eq_mapVars] at happly
  have hvars : ∀ j, u' = .var j → (u.mapVars s.solution).rename ρ = .var j := by
    rintro j rfl
    rw [← happly, mapVars, h.acyclic'.solution_of_none (hvar' j rfl)]
  -- the two forms are read off from what the bindings lead to in the end
  cases u with
  | var i =>
      rw [mapVars, h.acyclic.solution_of_none (hvar i rfl)] at happly hvars
      cases u' with
      | var j =>
          cases hvars j rfl
          exact .var (hvar i rfl) (hvar' _ rfl)
      | _ => cases happly
  | const name =>
      cases u' with
      | var j => cases hvars j rfl
      | const name' =>
          cases happly
          exact .const name
      | _ => cases happly
  | arrow a b =>
      cases u' with
      | var j => cases hvars j rfl
      | arrow a' b' =>
          exact .arrow (fun f hf => (Ty.arrow.inj (hagree f hf)).1)
            (fun f hf => (Ty.arrow.inj (hagree f hf)).2)
      | _ => cases happly
  | absent =>
      cases u' with
      | var j => cases hvars j rfl
      | absent => exact .absent
      | _ => cases happly
  | foreign text =>
      cases u' with
      | var j => cases hvars j rfl
      | foreign text' =>
          cases happly
          exact .foreign text
      | _ => cases happly

end Variants

/-- The second error is the first one with the sides exchanged and the variables renamed. -/
inductive UnifyError.Mirrors (ρ : Int → Int) : UnifyError → UnifyError → Prop where
  | constants (a b : String) : Mirrors ρ (.constants a b) (.constants b a)
  | kinds (l r : Ty) : Mirrors ρ (.kinds l r) (.kinds (r.rename ρ) (l.rename ρ))
  | occurs (i : Int) (t : Ty) : Mirrors ρ (.occurs i t) (.occurs (ρ i) (t.rename ρ))
  | notTypes (l r l' r' : Ty) : Mirrors ρ (.notTypes l r) (.notTypes r' l')

/-- Two runs end alike: in bindings that are the same up to a renaming, or in errors that are, or
both for want of depth. -/
inductive Mirrored : EStateM.Result UnifyError Substitution Unit →
    EStateM.Result UnifyError Substitution Unit → Prop where
  | ok {ρ : Int → Int} {s s' : Substitution} (hρ : Function.Injective ρ)
      (h : Variants ρ s s') : Mirrored (.ok () s) (.ok () s')
  | error {ρ : Int → Int} {e e' : UnifyError} (hρ : Function.Injective ρ) (h : e.Mirrors ρ e')
      (s s' : Substitution) : Mirrored (.error e s) (.error e' s')
  | circular (s s' : Substitution) : Mirrored (.error .circular s) (.error .circular s')

section Steps

variable {i j : Int}

theorem mapVars_update_rename (hρ : Function.Injective ρ) (i : Int) (t u : Ty) :
    (u.rename ρ).mapVars (Function.update .var (ρ i) (t.rename ρ)) =
      (u.mapVars (Function.update .var i t)).rename ρ := by
  rw [mapVars_rename, rename_mapVars]
  apply mapVars_congr
  intro j _
  by_cases hj : j = i
  · rw [hj, Function.update_self, Function.update_self]
  · have hne : ρ j ≠ ρ i := fun heq => hj (hρ heq)
    rw [Function.update_of_ne hj, Function.update_of_ne hne, rename_var]

/-- Where one side binds a variable to a second one, and the other side the second to the first, the
renaming is to exchange the two. -/
theorem mapVars_update_swap (hρ : Function.Injective ρ) (i j : Int) (u : Ty) :
    (u.rename ρ).mapVars (Function.update .var (ρ j) (.var (ρ i))) =
      (u.mapVars (Function.update .var i (.var j))).rename (ρ ∘ Equiv.swap i j) := by
  rw [mapVars_rename, rename_mapVars]
  apply mapVars_congr
  intro k _
  by_cases hj : k = j
  · subst hj
    by_cases hi : k = i <;> simp [hi]
  · have hne : ρ k ≠ ρ j := fun heq => hj (hρ heq)
    by_cases hi : k = i
    · subst hi
      simp [hne]
    · simp [hi, hne, Equiv.swap_apply_of_ne_of_ne hi hj]

namespace Variants

theorem agree_var (h : Variants ρ s s') (hi : s.find? i = none) :
    Agree s (.var i) (.var (ρ i)) := by
  intro f hf
  have happly : s'.apply (.var i) = .var (ρ i) := by
    rw [h.apply, show s.apply (.var i) = .var i from h.acyclic.solution_of_none hi, rename_var]
  rw [← happly, ((h.same f).mp hf).mapVars_apply]

theorem mirrored_bind (h : Variants ρ s s') (hρ : Function.Injective ρ) (hi : s.find? i = none)
    (hi' : s'.find? (ρ i) = none) (ht : Agree s t t') :
    Mirrored (bind i t s) (bind (ρ i) t' s') := by
  have happly := h.apply_of_agree ht
  have hoccurs : s'.occurs (ρ i) t' = s.occurs i t := by
    rw [Bool.eq_iff_iff, Substitution.occurs_iff, Substitution.occurs_iff, happly,
      mem_vars_rename hρ]
  rw [bind_eq, bind_eq, hoccurs, happly]
  cases hfound : s.occurs i t with
  | true => exact .error hρ (.occurs i (s.apply t)) s s'
  | false =>
      rw [hfound] at hoccurs
      refine .ok hρ ⟨h.acyclic.insert hi hfound, h.acyclic'.insert hi' hoccurs, ?_, ?_⟩
      · intro f
        rw [Substitution.solves_insert_iff hi, Substitution.solves_insert_iff hi', ← h.same]
        refine and_congr_right fun hf => ?_
        have heq : f i = f (ρ i) := h.agree_var hi f hf
        rw [heq, ht f hf]
      · intro u
        rw [h.acyclic.apply_insert hi hfound, h.acyclic'.apply_insert hi' hoccurs, happly, h.apply,
          mapVars_update_rename hρ]

theorem mirrored_bind_vars (h : Variants ρ s s') (hρ : Function.Injective ρ)
    (hi : s.find? i = none) (hj : s.find? j = none) (hi' : s'.find? (ρ i) = none)
    (hj' : s'.find? (ρ j) = none) (hij : i ≠ j) :
    Mirrored (bind i (.var j) s) (bind (ρ j) (.var (ρ i)) s') := by
  have happly : s.apply (.var j) = .var j := h.acyclic.solution_of_none hj
  have happly' : s'.apply (.var (ρ i)) = .var (ρ i) := h.acyclic'.solution_of_none hi'
  have hoccurs : s.occurs i (.var j) = false := by
    rw [h.acyclic.occurs_of_none hj]
    exact beq_false_of_ne (Ne.symm hij)
  have hoccurs' : s'.occurs (ρ j) (.var (ρ i)) = false := by
    rw [h.acyclic'.occurs_of_none hi']
    exact beq_false_of_ne fun heq => hij (hρ heq)
  rw [bind_eq, bind_eq, hoccurs, hoccurs']
  have hswap : Function.Injective (ρ ∘ Equiv.swap i j) := hρ.comp (Equiv.swap i j).injective
  refine .ok hswap ⟨h.acyclic.insert hi hoccurs, h.acyclic'.insert hj' hoccurs', ?_, ?_⟩
  · intro f
    rw [Substitution.solves_insert_iff hi, Substitution.solves_insert_iff hj', ← h.same]
    refine and_congr_right fun hf => ?_
    have heqi : f i = f (ρ i) := h.agree_var hi f hf
    have heqj : f j = f (ρ j) := h.agree_var hj f hf
    rw [mapVars, mapVars, heqi, heqj, eq_comm]
  · intro u
    rw [h.acyclic.apply_insert hi hoccurs, h.acyclic'.apply_insert hj' hoccurs', happly, happly',
      h.apply, mapVars_update_swap hρ]

end Variants

theorem Mirrored.seq {x y x' y' : UnifyM Unit} (h : Mirrored (x s) (x' s'))
    (hy : ∀ ρ s₁ s₁', x s = .ok () s₁ → Function.Injective ρ → Variants ρ s₁ s₁' →
      Mirrored (y s₁) (y' s₁')) :
    Mirrored ((x >>= fun _ => y) s) ((x' >>= fun _ => y') s') := by
  show Mirrored (EStateM.bind x _ s) (EStateM.bind x' _ s')
  rw [EStateM.bind, EStateM.bind]
  generalize hx : x s = result at h
  generalize x' s' = result' at h
  cases h with
  | ok hρ h => exact hy _ _ _ hx hρ h
  | error hρ h s s' => exact .error hρ h s s'
  | circular s s' => exact .circular s s'

end Steps

theorem mirrored_refuse {l r l' r' : Ty} (h : Variants ρ s s') (hρ : Function.Injective ρ)
    (hl : Agree s l l') (hr : Agree s r r') (hl' : l'.isConstructed = l.isConstructed)
    (hr' : r'.isConstructed = r.isConstructed) :
    Mirrored
      ((if l.isConstructed && r.isConstructed then throw (.kinds (s.apply l) (s.apply r))
        else throw (.notTypes l r) : UnifyM Unit) s)
      ((if r'.isConstructed && l'.isConstructed then throw (.kinds (s'.apply r') (s'.apply l'))
        else throw (.notTypes r' l') : UnifyM Unit) s') := by
  rw [h.apply_of_agree hl, h.apply_of_agree hr, hl', hr', Bool.and_comm r.isConstructed]
  split
  · exact .error hρ (.kinds _ _) s s'
  · exact .error hρ (.notTypes _ _ _ _) s s'

/-- Runs on types that agree, with the sides exchanged, end alike. -/
theorem mirrored_unifyWithin {l r l' r' : Ty} (d : Nat) (h : Variants ρ s s')
    (hρ : Function.Injective ρ) (hl : Agree s l l') (hr : Agree s r r') :
    Mirrored (unifyWithin d l r s) (unifyWithin d r' l' s') := by
  induction d generalizing l r l' r' ρ s s' with
  | zero => exact .circular s s'
  | succ d ih =>
      rw [unifyWithin_succ, unifyWithin_succ]
      have hagree := h.agree_resolve hl
      have hagree' := h.agree_resolve hr
      have hleft := h.alike_resolve hl
      have hright := h.alike_resolve hr
      -- both runs look at types of the same form, so they take the same branch
      generalize s.resolve l = u, s'.resolve l' = u' at hagree hleft ⊢
      generalize s.resolve r = v, s'.resolve r' = v' at hagree' hright ⊢
      rcases hleft with ⟨hi, hi'⟩ | a | ⟨ha, hb⟩ | _ | text
      case var i =>
          rcases hright with ⟨hj, hj'⟩ | b | _ | _ | text
          case var j =>
              dsimp only
              by_cases hij : i = j
              · rw [if_pos hij, if_pos (congrArg ρ hij.symm)]
                exact .ok hρ h
              · rw [if_neg hij, if_neg fun heq => hij (hρ heq.symm)]
                exact h.mirrored_bind_vars hρ hi hj hi' hj' hij
          all_goals exact h.mirrored_bind hρ hi hi' hagree'
      case const =>
          rcases hright with ⟨hj, hj'⟩ | b | _ | _ | text
          case var j => exact h.mirrored_bind hρ hj hj' hagree
          case const =>
              dsimp only
              by_cases hab : a = b
              · rw [if_pos hab, if_pos hab.symm]
                exact .ok hρ h
              · rw [if_neg hab, if_neg (Ne.symm hab)]
                exact .error hρ (.constants a b) s s'
          all_goals exact mirrored_refuse h hρ hagree hagree' rfl rfl
      case arrow a b a' b' =>
          rcases hright with ⟨hj, hj'⟩ | c | ⟨hc, he⟩ | _ | text
          case var j => exact h.mirrored_bind hρ hj hj' hagree
          case arrow c e c' e' =>
              refine (ih h hρ ha hc).seq fun ρ₁ s₁ s₁' hok hρ₁ h₁ => ?_
              -- what agreed before still does, since new bindings have fewer solutions
              have hext : ∀ f, Solves f s₁ → Solves f s := by
                obtain ⟨o, s₂, hanswer, hunify⟩ := unifies_unifyWithin d a c s
                obtain ⟨-, rfl⟩ := answer_inj (o := none) (hok.symm.trans hanswer)
                exact fun f hf => hf.of_extends (hunify.extends h.acyclic).1
              exact ih h₁ hρ₁ (fun f hf => hb f (hext f hf)) fun f hf => he f (hext f hf)
          all_goals exact mirrored_refuse h hρ hagree hagree' rfl rfl
      case absent =>
          rcases hright with ⟨hj, hj'⟩ | c | _ | _ | text
          case var j => exact h.mirrored_bind hρ hj hj' hagree
          all_goals exact mirrored_refuse h hρ hagree hagree' rfl rfl
      case foreign =>
          rcases hright with ⟨hj, hj'⟩ | c | _ | _ | text
          case var j => exact h.mirrored_bind hρ hj hj' hagree
          all_goals exact mirrored_refuse h hρ hagree hagree' rfl rfl

theorem depthBound_comm (s : Substitution) (l r : Ty) : depthBound s l r = depthBound s r l := by
  simp only [depthBound, Nat.add_right_comm]

theorem mirrored_unify (hs : s.Acyclic) (l r : Ty) : Mirrored (unify l r s) (unify r l s) := by
  show Mirrored (unifyWithin (depthBound s l r) l r s) (unifyWithin (depthBound s r l) r l s)
  rw [depthBound_comm s r l]
  exact mirrored_unifyWithin _ (.refl hs) Function.injective_id (fun _ _ => rfl) fun _ _ => rfl

theorem UnifyError.Mirrors.clash {e e' : UnifyError} (h : e.Mirrors ρ e') (he : e.Clash) :
    e'.Clash := by
  cases h with
  | constants a b => trivial
  | kinds l r => trivial
  | occurs i t => trivial
  | notTypes l r l' r' => exact he.elim

/-- Unification is symmetric: from acyclic bindings, two types are unified in both orders or in
none. After a success in both, one injective renaming takes whatever the first bindings lead to to
what the second ones lead to, so that types are equal up to renaming. Two failures are for the same
reason, with the sides exchanged and the variables renamed, and between types this is a clash. -/
theorem unification_symmetric (hs : s.Acyclic) (l r : Ty) :
    (∃ s₁ s₂ ρ, unify l r s = .ok () s₁ ∧ unify r l s = .ok () s₂ ∧ Function.Injective ρ ∧
      (∀ t, s₂.apply t = (s₁.apply t).rename ρ) ∧
      (s.Within Proper ∧ l.Proper ∧ r.Proper →
        ∀ t, t.Proper → equivalent (s₁.apply t) (s₂.apply t) = true)) ∨
    ∃ e₁ e₂ s₁ s₂ ρ, unify l r s = .error e₁ s₁ ∧ unify r l s = .error e₂ s₂ ∧
      Function.Injective ρ ∧ e₁.Mirrors ρ e₂ ∧
      (s.Within Proper ∧ l.Proper ∧ r.Proper → e₁.Clash ∧ e₂.Clash) := by
  have hmirrored := mirrored_unify hs l r
  obtain ⟨d, o, s₁, hanswer, -, hcircular⟩ := unifies_unify hs l r
  generalize hleft : unify l r s = left at hmirrored
  generalize hright : unify r l s = right at hmirrored
  cases hmirrored with
  | @ok ρ s₁ s₂ hρ h =>
      refine .inl ⟨s₁, s₂, ρ, rfl, rfl, hρ, h.apply, ?_⟩
      rintro ⟨hproper, hl, hr⟩ t ht
      have hwithin : s₁.Within Proper := within_of_unify (fun _ _ => id) hleft hproper hl hr
      rw [h.apply]
      exact equivalent_rename hρ (hwithin.apply_over ht)
  | @error ρ e₁ e₂ hρ h s₁ s₂ =>
      refine .inr ⟨e₁, e₂, s₁, s₂, ρ, rfl, rfl, hρ, h, ?_⟩
      rintro ⟨hproper, hl, hr⟩
      have hclash := (clash_of_unify hs hproper hl hr hleft).1
      exact ⟨hclash, h.clash hclash⟩
  | circular s₁ s₂ =>
      obtain ⟨rfl, -⟩ := answer_inj (o := some .circular) (hleft.symm.trans hanswer)
      exact absurd rfl hcircular

/-- The two orders bind the two variables to each other in opposite directions. -/
theorem unification_symmetric_crossing :
    chained.Acyclic ∧
      (∃ s₁ s₂ ρ,
        unify (.arrow (.var 1) (.var 2)) (.arrow (.var 3) (.arrow (.var 1) .int)) chained =
          .ok () s₁ ∧
        unify (.arrow (.var 3) (.arrow (.var 1) .int)) (.arrow (.var 1) (.var 2)) chained =
          .ok () s₂ ∧
        s₁.apply (.var 0) = .var 3 ∧ s₂.apply (.var 0) = .var 1 ∧ Function.Injective ρ ∧
        ∀ t, s₂.apply t = (s₁.apply t).rename ρ) ∧
      ∃ s₁ s₂ ρ,
        unify (.arrow (.var 1) (.var 1)) (.arrow (.var 3) (.arrow (.var 3) .int)) chained =
          .error (.occurs 3 (.arrow (.var 3) .int)) s₁ ∧
        unify (.arrow (.var 3) (.arrow (.var 3) .int)) (.arrow (.var 1) (.var 1)) chained =
          .error (.occurs 1 (.arrow (.var 1) .int)) s₂ ∧
        Function.Injective ρ ∧
        (UnifyError.occurs 3 (.arrow (.var 3) .int)).Mirrors ρ
          (.occurs 1 (.arrow (.var 1) .int)) := by
  have hacyclic : chained.Acyclic :=
    Substitution.acyclic_empty.insert (i := 0) (t := .var 1) rfl rfl
  refine ⟨hacyclic, ?_, ?_⟩
  · have hunified : unify (.arrow (.var 1) (.var 2)) (.arrow (.var 3) (.arrow (.var 1) .int))
        chained = .ok () ⟨[(0, .var 1), (1, .var 3), (2, .arrow (.var 1) .int)]⟩ := by rfl
    have hunified' : unify (.arrow (.var 3) (.arrow (.var 1) .int)) (.arrow (.var 1) (.var 2))
        chained = .ok () ⟨[(0, .var 1), (3, .var 1), (2, .arrow (.var 1) .int)]⟩ := by rfl
    rcases unification_symmetric hacyclic (.arrow (.var 1) (.var 2))
        (.arrow (.var 3) (.arrow (.var 1) .int)) with
      ⟨s₁, s₂, ρ, h, h', hρ, happly, -⟩ | ⟨e₁, e₂, s₁, s₂, ρ, h, -⟩
    · rw [hunified] at h
      rw [hunified'] at h'
      cases h
      cases h'
      exact ⟨_, _, ρ, hunified, hunified', rfl, rfl, hρ, happly⟩
    · rw [hunified] at h
      cases h
  · have hfailed : unify (.arrow (.var 1) (.var 1)) (.arrow (.var 3) (.arrow (.var 3) .int))
        chained = .error (.occurs 3 (.arrow (.var 3) .int)) ⟨[(0, .var 1), (1, .var 3)]⟩ := by rfl
    have hfailed' : unify (.arrow (.var 3) (.arrow (.var 3) .int)) (.arrow (.var 1) (.var 1))
        chained = .error (.occurs 1 (.arrow (.var 1) .int)) ⟨[(0, .var 1), (3, .var 1)]⟩ := by rfl
    rcases unification_symmetric hacyclic (.arrow (.var 1) (.var 1))
        (.arrow (.var 3) (.arrow (.var 3) .int)) with
      ⟨s₁, s₂, ρ, h, -⟩ | ⟨e₁, e₂, s₁, s₂, ρ, h, h', hρ, hmirrors, -⟩
    · rw [hfailed] at h
      cases h
    · rw [hfailed] at h
      rw [hfailed'] at h'
      cases h
      cases h'
      exact ⟨_, _, ρ, hfailed, hfailed', hρ, hmirrors⟩

end LambdaMachine.Ty
