import LambdaMachine.Proofs.Nameless.Confluence
import LambdaMachine.Proofs.Term.Substitute

namespace LambdaMachine

open Nameless (Tree)
open Reduction (Rule)

namespace Nameless.Tree

/-- Contracts the leftmost outermost redex of a tree, if there is one. -/
def leftmost : Tree → Option (Rule × Tree)
  | abs ann body => body.leftmost.map fun (rule, t) => (rule, abs ann t)
  | app (abs _ body) arg => some (.beta, body.instantiate arg)
  | app func arg =>
      match func.leftmost with
      | some (rule, t) => some (rule, app t arg)
      | none => arg.leftmost.map fun (rule, t) => (rule, app func t)
  | op o (num m) (num n) => some (.delta, num (o.apply m n))
  | op o left right =>
      match left.leftmost with
      | some (rule, t) => some (rule, op o t right)
      | none => right.leftmost.map fun (rule, t) => (rule, op o left t)
  | _ => none

section Leftmost

variable {func func' left left' : Tree} {rule : Rule}

theorem leftmost_app_func (hne : ∀ ann body, func ≠ abs ann body)
    (h : func.leftmost = some (rule, func')) (arg : Tree) :
    (app func arg).leftmost = some (rule, app func' arg) := by
  rw [leftmost, h]
  exact hne

theorem leftmost_app_of_none (hne : ∀ ann body, func ≠ abs ann body) (h : func.leftmost = none)
    (arg : Tree) :
    (app func arg).leftmost = arg.leftmost.map fun (rule, t) => (rule, app func t) := by
  rw [leftmost, h]
  exact hne

theorem leftmost_op_left (o : Op) (h : left.leftmost = some (rule, left')) (right : Tree) :
    (op o left right).leftmost = some (rule, op o left' right) := by
  rw [leftmost, h]
  rintro m n rfl -
  simp [leftmost] at h

theorem leftmost_op_of_none (o : Op) {right : Tree} (hne : ∀ m n, left = num m → right ≠ num n)
    (h : left.leftmost = none) :
    (op o left right).leftmost = right.leftmost.map fun (rule, t) => (rule, op o left t) := by
  rw [leftmost, h]
  exact hne

end Leftmost

theorem contracts_of_leftmost {t u : Tree} {rule : Rule} (h : t.leftmost = some (rule, u)) :
    Contracts t u := by
  fun_induction leftmost t generalizing rule u with
  | case1 ann body ih =>
      obtain ⟨⟨rule, body'⟩, hbody, heq⟩ := Option.map_eq_some_iff.mp h
      cases heq
      exact .abs ann (ih hbody)
  | case2 ann body arg =>
      cases h
      exact .beta ann body arg
  | case3 func arg hfunc rule func' hstep ih =>
      cases h
      exact .appFunc arg (ih hstep)
  | case4 func arg hfunc hstep ihf iha =>
      obtain ⟨⟨rule, arg'⟩, harg, heq⟩ := Option.map_eq_some_iff.mp h
      cases heq
      exact .appArg func (iha harg)
  | case5 o m n =>
      cases h
      exact .delta o m n
  | case6 o left right hnum rule left' hstep ih =>
      cases h
      exact .opLeft o right (ih hstep)
  | case7 o left right hnum hstep ihl ihr =>
      obtain ⟨⟨rule, right'⟩, hright, heq⟩ := Option.map_eq_some_iff.mp h
      cases heq
      exact .opRight o left (ihr hright)
  | case8 t => simp at h

theorem normal_of_leftmost {t : Tree} (h : t.leftmost = none) : t.Normal := by
  intro u hu
  induction hu with
  | beta ann body arg => simp [leftmost] at h
  | delta o m n => simp [leftmost] at h
  | abs ann _ ih =>
      rw [leftmost, Option.map_eq_none_iff] at h
      exact ih h
  | @appFunc func func' arg hstep ih =>
      cases func with
      | abs ann body => simp [leftmost] at h
      | _ =>
          rw [leftmost] at h
          · split at h
            · simp at h
            · rename_i hnone
              exact ih hnone
          · simp
  | @appArg func arg arg' hstep ih =>
      cases func with
      | abs ann body => simp [leftmost] at h
      | _ =>
          rw [leftmost] at h
          · split at h
            · simp at h
            · exact ih (Option.map_eq_none_iff.mp h)
          · simp
  | @opLeft o left left' right hstep ih =>
      rw [leftmost] at h
      · split at h
        · simp at h
        · rename_i hnone
          exact ih hnone
      · rintro m n rfl -
        cases hstep
  | @opRight o left right right' hstep ih =>
      rw [leftmost] at h
      · split at h
        · simp at h
        · exact ih (Option.map_eq_none_iff.mp h)
      · rintro m n - rfl
        cases hstep

end Nameless.Tree

namespace Term

/-- A number for every label: that of the binders between a place and the binder of the label. -/
abbrev Numbering := Label → Nat

/-- The numbers of the labels one binder further in. -/
def Numbering.enter (ν : Numbering) (param : Label) : Numbering :=
  fun label => if label = param then 0 else ν label + 1

/-- The tree of a term whose free labels have the given numbers. -/
def tree (ν : Numbering) : Term → Tree
  | .var label => .ref (ν label)
  | .idx i _ => .ref i.toNat
  | .const name type => .const name type
  | .num value => .num value
  | .lam param ann body => .abs ann (body.tree (ν.enter param))
  | .app func arg => .app (func.tree ν) (arg.tree ν)
  | .op o left right => .op o (left.tree ν) (right.tree ν)
  | .foreign text => .const text .absent

theorem Numbering.enter_self (ν : Numbering) (param : Label) : ν.enter param param = 0 := by
  simp [enter]

theorem Numbering.enter_of_ne (ν : Numbering) {param label : Label} (h : label ≠ param) :
    ν.enter param label = ν label + 1 := by
  simp [enter, h]

theorem Numbering.lift_enter {ν μ : Numbering} {s : Nat → Tree} {param label : Label}
    (h : label ≠ param → s (ν label) = .ref (μ label)) :
    Tree.lift s (ν.enter param label) = .ref (μ.enter param label) := by
  by_cases heq : label = param
  · subst heq
    simp only [enter_self]
    rfl
  · rw [enter_of_ne ν heq, enter_of_ne μ heq, Tree.lift, h heq]
    rfl

theorem eq_num_of_tree {e : Term} {ν : Numbering} {value : Int} (h : e.tree ν = .num value) :
    e = .num value := by
  cases e <;> simp_all [tree]

theorem exists_lam_of_tree {e : Term} {ν : Numbering} {ann : Option Ty} {t : Tree}
    (h : e.tree ν = .abs ann t) : ∃ param body, e = .lam param ann body := by
  cases e <;> simp_all [tree]

theorem tree_ne_abs {e : Term} (h : ∀ param ann body, e ≠ .lam param ann body) (ν : Numbering)
    (ann : Option Ty) (t : Tree) : e.tree ν ≠ .abs ann t := by
  intro heq
  obtain ⟨param, body, he⟩ := exists_lam_of_tree heq
  exact h param ann body he

theorem Named.eq_const_of_tree {e : Term} (he : e.Named) {ν : Numbering} {name : String} {type : Ty}
    (h : e.tree ν = .const name type) : e = .const name type := by
  cases he <;> simp_all [tree]

theorem Named.subst_tree {e : Term} (he : e.Named) {ν μ : Numbering} {s : Nat → Tree}
    (h : ∀ label ∈ e.freeVars, s (ν label) = .ref (μ label)) :
    (e.tree ν).subst s = e.tree μ := by
  induction he generalizing ν μ s with
  | var name => exact h _ (by simp [freeVars])
  | const name type => rfl
  | num value => rfl
  | @lam name ann body hbody ih =>
      simp only [tree, Tree.subst, Tree.abs.injEq, true_and]
      apply ih
      intro label hlabel
      exact Numbering.lift_enter fun heq => h label (by simp [freeVars, hlabel, heq])
  | app hf ha ihf iha =>
      simp only [tree, Tree.subst]
      rw [ihf fun label hl => h label (by simp [freeVars, hl]),
        iha fun label hl => h label (by simp [freeVars, hl])]
  | op o hl hr ihl ihr =>
      simp only [tree, Tree.subst]
      rw [ihl fun label hl => h label (by simp [freeVars, hl]),
        ihr fun label hl => h label (by simp [freeVars, hl])]

theorem Named.tree_enter {e : Term} (he : e.Named) (ν : Numbering) {param : Label}
    (h : param ∉ e.freeVars) : e.tree (ν.enter param) = (e.tree ν).rename Nat.succ := by
  rw [Tree.rename_eq_subst]
  refine (he.subst_tree fun label hl => ?_).symm
  have hne : label ≠ param := fun heq => h (heq ▸ hl)
  rw [Numbering.enter_of_ne ν hne]

theorem Replaces.tree {e value result : Term} {x : Label} (h : Replaces e x value result)
    (he : e.Named) (hv : value.Named) {ν μ : Numbering} {s : Nat → Tree}
    (hx : s (ν x) = value.tree μ)
    (hy : ∀ label ∈ e.freeVars, label ≠ x → s (ν label) = .ref (μ label)) :
    result.tree μ = (e.tree ν).subst s := by
  induction h generalizing ν μ s with
  | absent value habsent =>
      refine (he.subst_tree fun label hl => hy label hl ?_).symm
      exact fun heq => habsent (heq ▸ hl)
  | var x value => exact hx.symm
  | @under param ann body result x value hparam hvalue hbody ih =>
      cases he with
      | lam name _ hnamed =>
          simp only [Term.tree, Tree.subst, Tree.abs.injEq, true_and]
          apply ih hnamed hv
          · rw [Numbering.enter_of_ne ν hparam.symm, Tree.lift, hx, hv.tree_enter μ hvalue]
          · intro label hl hne
            exact Numbering.lift_enter fun heq => hy label (by simp [freeVars, hl, heq]) hne
  | @avoiding param fresh ann body renamed result x value hparam hvalue hfresh hne hrenamed hbody
      ihr ihb =>
      cases he with
      | lam name _ hnamed =>
          -- the renamed body has the tree of the body, so the second replacement starts from it
          have hsame : renamed.tree (ν.enter (some fresh)) = body.tree (ν.enter (some name)) := by
            rw [← Tree.subst_ref (body.tree _)]
            apply ihr hnamed (.var fresh)
            · simp [Term.tree, Numbering.enter_self]
            · intro label hl hlabel
              have hother : label ≠ some fresh := fun heq => hfresh (heq ▸ hl)
              rw [Numbering.enter_of_ne _ hlabel, Numbering.enter_of_ne _ hother]
          simp only [Term.tree, Tree.subst, Tree.abs.injEq, true_and]
          rw [← hsame]
          apply ihb (hrenamed.named hnamed (.var fresh)) hv
          · rw [Numbering.enter_of_ne ν hne.symm, Tree.lift, hx, hv.tree_enter μ hvalue]
          · intro label hl hlabel
            refine Numbering.lift_enter fun heq => hy label ?_ hlabel
            have hmem := (hrenamed.mem_freeVars_iff label).mp hl
            simp only [freeVars, List.mem_singleton, heq, and_false, or_false] at hmem
            simp [freeVars, hmem]
  | app hf ha ihf iha =>
      cases he with
      | app hfunc harg =>
          simp only [Term.tree, Tree.subst]
          rw [ihf hfunc hv hx fun label hl => hy label (by simp [freeVars, hl]),
            iha harg hv hx fun label hl => hy label (by simp [freeVars, hl])]
  | op o hl hr ihl ihr =>
      cases he with
      | op _ hleft hright =>
          simp only [Term.tree, Tree.subst]
          rw [ihl hleft hv hx fun label hl => hy label (by simp [freeVars, hl]),
            ihr hright hv hx fun label hl => hy label (by simp [freeVars, hl])]

/-- Substitution of named terms is instantiation of their trees. -/
theorem Named.tree_substitute {e value : Term} (he : e.Named) (hv : value.Named) (x : Label)
    (ν : Numbering) :
    (e.substitute x value).tree ν = (e.tree (ν.enter x)).instantiate (value.tree ν) := by
  apply (replaces_substitute e x value).tree he hv
  · simp only [Numbering.enter_self]
    rfl
  · intro label _ hne
    rw [Numbering.enter_of_ne ν hne]
    rfl

end Term

namespace Reduction

open Term (Numbering)

/-- A step on a named term is the leftmost contraction of its tree, by the same rule. -/
theorem map_tree_step {e : Term} (he : e.Named) (ν : Numbering) :
    (step e).map (fun (rule, e') => (rule, e'.tree ν)) = (e.tree ν).leftmost := by
  fun_induction step e generalizing ν with
  | case1 param ann body ih =>
      cases he with
      | lam name _ hnamed =>
          simp only [Term.tree, Tree.leftmost]
          rw [← ih hnamed, Option.map_map, Option.map_map]
          rfl
  | case2 param ann body arg =>
      cases he with
      | app hf ha =>
          cases hf with
          | lam name _ hbody =>
              simp only [Option.map_some, Term.tree, Tree.leftmost]
              rw [hbody.tree_substitute ha]
  | case3 func arg hfunc rule func' hstep ih =>
      cases he with
      | app hf ha =>
          have hleft := ih hf ν
          rw [hstep, Option.map_some] at hleft
          exact (Tree.leftmost_app_func (Term.tree_ne_abs hfunc ν) hleft.symm (arg.tree ν)).symm
  | case4 func arg hfunc hstep ihf iha =>
      cases he with
      | app hf ha =>
          have hleft := ihf hf ν
          rw [hstep, Option.map_none] at hleft
          rw [Term.tree, Tree.leftmost_app_of_none (Term.tree_ne_abs hfunc ν) hleft.symm,
            ← iha ha, Option.map_map, Option.map_map]
          rfl
  | case5 o m n => rfl
  | case6 o left right hnum rule left' hstep ih =>
      cases he with
      | op _ hl hr =>
          have hleft := ih hl ν
          rw [hstep, Option.map_some] at hleft
          exact (Tree.leftmost_op_left o hleft.symm (right.tree ν)).symm
  | case7 o left right hnum hstep ihl ihr =>
      cases he with
      | op _ hl hr =>
          have hleft := ihl hl ν
          rw [hstep, Option.map_none] at hleft
          have hne : ∀ m n, left.tree ν = .num m → right.tree ν ≠ .num n := by
            intro m n hm hn
            exact hnum m n (Term.eq_num_of_tree hm) (Term.eq_num_of_tree hn)
          rw [Term.tree, Tree.leftmost_op_of_none o hne hleft.symm, ← ihr hr, Option.map_map,
            Option.map_map]
          rfl
  | case8 e =>
      cases he with
      | var | const | num => rfl
      | _ => simp_all

end Reduction

end LambdaMachine
