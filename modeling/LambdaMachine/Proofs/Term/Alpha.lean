import LambdaMachine.Proofs.Nameless.NormalOrder
import LambdaMachine.Term.Alpha
import Mathlib.Data.Countable.Basic
import Mathlib.Logic.Equiv.List

namespace LambdaMachine.Term

namespace Scope

/-- The numbers of the labels at a place under `depth` binders, given those of the free ones. -/
def numbering (scope : Scope) (depth : Nat) (ν : Numbering) : Numbering :=
  fun label => (scope.lookup label).elim (depth + ν label) (depth - 1 - ·)

/-- Every binder in a scope was entered before `depth`. -/
def Below (scope : Scope) (depth : Nat) : Prop :=
  ∀ label d, scope.lookup label = some d → d < depth

variable {scope : Scope} {depth : Nat} {ν : Numbering} {label param : Label}

theorem numbering_of_some {d : Nat} (h : scope.lookup label = some d) :
    scope.numbering depth ν label = depth - 1 - d := by
  simp [numbering, h]

theorem numbering_of_none (h : scope.lookup label = none) :
    scope.numbering depth ν label = depth + ν label := by
  simp [numbering, h]

theorem lookup_enter_of_ne (h : label ≠ param) :
    List.lookup label ((param, depth) :: scope) = scope.lookup label := by
  rw [List.lookup_cons, beq_false_of_ne h]

theorem Below.enter (h : scope.Below depth) (param : Label) :
    Below ((param, depth) :: scope) (depth + 1) := by
  intro label d hd
  by_cases heq : label = param
  · subst heq
    rw [List.lookup_cons_self] at hd
    cases hd
    exact Nat.lt_succ_self depth
  · rw [lookup_enter_of_ne heq] at hd
    exact Nat.lt_succ_of_lt (h label d hd)

theorem Below.numbering_enter (h : scope.Below depth) (ν : Numbering) (param : Label) :
    (scope.numbering depth ν).enter param =
      numbering ((param, depth) :: scope) (depth + 1) ν := by
  funext label
  by_cases heq : label = param
  · subst heq
    rw [Numbering.enter_self, numbering_of_some List.lookup_cons_self]
    omega
  · rw [Numbering.enter_of_ne _ heq]
    cases hfound : scope.lookup label with
    | none =>
        rw [numbering_of_none hfound, numbering_of_none ((lookup_enter_of_ne heq).trans hfound)]
        omega
    | some d =>
        have hlt := h label d hfound
        rw [numbering_of_some hfound, numbering_of_some ((lookup_enter_of_ne heq).trans hfound)]
        omega

theorem free_of_enter (ann : Option Ty) {body : Term} (hl : label ∈ body.freeVars)
    (h : List.lookup label ((param, depth) :: scope) = none) :
    label ∈ (Term.lam param ann body).freeVars ∧ scope.lookup label = none := by
  have hne : label ≠ param := by
    rintro rfl
    simp at h
  exact ⟨by simp [freeVars, hl, hne], (lookup_enter_of_ne hne).symm.trans h⟩

end Scope

/-- Labels that are free on the two sides have different numbers if they are different. -/
def Apart (ν : Numbering) (leftScope rightScope : Scope) (left right : Term) : Prop :=
  ∀ l ∈ left.freeVars, ∀ r ∈ right.freeVars, leftScope.lookup l = none →
    rightScope.lookup r = none → ν l = ν r → l = r

section Comparison

variable {ν : Numbering} {depth : Nat} {leftScope rightScope : Scope}

theorem Apart.mono {e e' f f' : Term} (h : Apart ν leftScope rightScope e e')
    (hf : f.freeVars ⊆ e.freeVars) (hf' : f'.freeVars ⊆ e'.freeVars) :
    Apart ν leftScope rightScope f f' :=
  fun l hl r hr => h l (hf hl) r (hf' hr)

theorem Apart.enter {p q : Label} {s t : Option Ty} {body body' : Term}
    (h : Apart ν leftScope rightScope (.lam p s body) (.lam q t body')) (depth : Nat) :
    Apart ν ((p, depth) :: leftScope) ((q, depth) :: rightScope) body body' := by
  intro l hl r hr hlnone hrnone
  obtain ⟨hl, hlnone⟩ := Scope.free_of_enter s hl hlnone
  obtain ⟨hr, hrnone⟩ := Scope.free_of_enter t hr hrnone
  exact h l hl r hr hlnone hrnone

theorem sameReference_iff {l r : Label} (hl : leftScope.Below depth) (hr : rightScope.Below depth)
    (h : leftScope.lookup l = none → rightScope.lookup r = none → ν l = ν r → l = r) :
    sameReference l r leftScope rightScope = true ↔
      leftScope.numbering depth ν l = rightScope.numbering depth ν r := by
  unfold sameReference
  cases hleft : leftScope.lookup l with
  | none =>
      rw [Scope.numbering_of_none hleft]
      cases hright : rightScope.lookup r with
      | none =>
          rw [Scope.numbering_of_none hright]
          simp only [beq_iff_eq, Nat.add_left_cancel_iff]
          exact ⟨congrArg ν, h hleft hright⟩
      | some d =>
          have hlt := hr r d hright
          rw [Scope.numbering_of_some hright]
          simp only [beq_iff_eq, reduceCtorEq, false_iff]
          omega
  | some d =>
      have hlt := hl l d hleft
      rw [Scope.numbering_of_some hleft]
      cases hright : rightScope.lookup r with
      | none =>
          rw [Scope.numbering_of_none hright]
          simp only [beq_iff_eq, reduceCtorEq, false_iff]
          omega
      | some d' =>
          have hlt' := hr r d' hright
          rw [Scope.numbering_of_some hright]
          simp only [beq_iff_eq, Option.some.injEq]
          omega

theorem alphaEqualUnder_iff {e e' : Term} (he : e.Named) (he' : e'.Named)
    (hl : leftScope.Below depth) (hr : rightScope.Below depth)
    (h : Apart ν leftScope rightScope e e') :
    alphaEqualUnder depth leftScope rightScope e e' = true ↔
      e.tree (leftScope.numbering depth ν) = e'.tree (rightScope.numbering depth ν) := by
  induction he generalizing e' depth leftScope rightScope with
  | var name =>
      cases he' with
      | var name' =>
          simp only [alphaEqualUnder, tree, Nameless.Tree.ref.injEq]
          exact sameReference_iff hl hr (h _ (by simp [freeVars]) _ (by simp [freeVars]))
      | _ => simp [alphaEqualUnder, tree]
  | const name type => cases he' <;> simp [alphaEqualUnder, tree]
  | num value => cases he' <;> simp [alphaEqualUnder, tree]
  | lam name ann hbody ih =>
      cases he' with
      | lam name' ann' hbody' =>
          simp only [alphaEqualUnder, tree, Bool.and_eq_true, beq_iff_eq, Nameless.Tree.abs.injEq]
          rw [ih hbody' (hl.enter _) (hr.enter _) (h.enter depth), hl.numbering_enter,
            hr.numbering_enter]
      | _ => simp [alphaEqualUnder, tree]
  | app hf ha ihf iha =>
      cases he' with
      | app hf' ha' =>
          simp only [alphaEqualUnder, tree, Bool.and_eq_true, Nameless.Tree.app.injEq]
          rw [ihf hf' hl hr (h.mono (List.subset_append_left _ _) (List.subset_append_left _ _)),
            iha ha' hl hr (h.mono (List.subset_append_right _ _) (List.subset_append_right _ _))]
      | _ => simp [alphaEqualUnder, tree]
  | op o hleft hright ihl ihr =>
      cases he' with
      | op o' hleft' hright' =>
          simp only [alphaEqualUnder, tree, Bool.and_eq_true, beq_iff_eq, Nameless.Tree.op.injEq,
            and_assoc]
          rw [ihl hleft' hl hr (h.mono (List.subset_append_left _ _) (List.subset_append_left _ _)),
            ihr hright' hl hr
              (h.mono (List.subset_append_right _ _) (List.subset_append_right _ _))]
      | _ => simp [alphaEqualUnder, tree]

end Comparison

theorem alphaEqual_iff {e e' : Term} (he : e.Named) (he' : e'.Named) {ν : Numbering}
    (h : ∀ l ∈ e.freeVars, ∀ r ∈ e'.freeVars, ν l = ν r → l = r) :
    e.alphaEqual e' = true ↔ e.tree ν = e'.tree ν := by
  have hempty : Scope.Below [] 0 := by
    intro label d hd
    simp at hd
  have hnumbering : Scope.numbering [] 0 ν = ν := by
    funext label
    simp [Scope.numbering]
  rw [alphaEqual, alphaEqualUnder_iff (ν := ν) he he' hempty hempty
    fun l hl r hr _ _ heq => h l hl r hr heq, hnumbering]

theorem exists_injective_numbering : ∃ ν : Numbering, Function.Injective ν := by
  have hchar : Countable Char :=
    Function.Injective.countable (f := Char.toNat) fun c d h => Char.toNat_inj.mp h
  have hstring : Countable String :=
    Function.Injective.countable (f := String.toList) fun s t h => String.toList_inj.mp h
  exact exists_injective_nat Label

end LambdaMachine.Term
