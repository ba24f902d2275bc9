import LambdaMachine.Proofs.Machine.BigStep
import Mathlib.Data.List.Forall2

namespace LambdaMachine.BigStep

open Nameless (Tree)
open Nameless.Tree (Reduces Contracts)
open List (Forall₂)

/-- The trees in the places of the innermost references; the other references are lowered. -/
def assign : List Tree → Nat → Tree
  | [] => Tree.ref
  | t :: ts => Tree.cons t (assign ts)

/-- A value reads back as a tree. -/
inductive Reads : Meaning → Tree → Prop where
  | int (n : Int) : Reads (.int n) (.num n)
  | const (name : String) (type : Ty) : Reads (.const name type) (.const name type)
  | closure (ann : Option Ty) (body : Tree) {env : List Meaning} {ts : List Tree}
      (h : Forall₂ Reads env ts) :
      Reads (.closure ann body.term env) (.abs ann (body.subst (Tree.lift (assign ts))))

theorem lookup?_natCast (env : List Meaning) (i : Nat) : lookup? env i = env[i]? := by
  rw [lookup?, if_neg (by omega)]
  rfl

theorem reads_of_getElem? {env : List Meaning} {ts : List Tree} (h : Forall₂ Reads env ts) {i : Nat}
    {v : Meaning} (hv : env[i]? = some v) : Reads v (assign ts i) := by
  induction h generalizing i with
  | nil => simp at hv
  | cons hhead _ ih =>
      cases i with
      | zero =>
          cases hv
          exact hhead
      | succ i => exact ih (by simpa using hv)

theorem exists_value_of_bind {x : Answer Meaning} {k : Meaning → Answer Meaning} {v : Meaning}
    (h : x >>= k = .value v) : ∃ a, x = .value a ∧ k a = .value v := by
  cases x with
  | value a => exact ⟨a, rfl, h⟩
  | failure f => simp at h
  | unfinished => simp at h

theorem ints_of_operate {o : Op} {left right v : Meaning} (h : operate o left right = .value v) :
    ∃ m n, left = .int m ∧ right = .int n ∧ v = .int (o.apply m n) := by
  unfold operate at h
  split at h
  · cases h
    exact ⟨_, _, rfl, rfl, rfl⟩
  · cases h
  · cases h

theorem reduces_of_evaluateWith {call : List Meaning → Term → Answer Meaning}
    (hcall : ∀ env ts (body : Tree) v, Forall₂ Reads env ts → call env body.term = .value v →
      ∃ t, Reads v t ∧ Reduces (body.subst (assign ts)) t)
    {env : List Meaning} {ts : List Tree} (henv : Forall₂ Reads env ts) {e : Tree} {v : Meaning}
    (h : evaluateWith call env e.term = .value v) :
    ∃ t, Reads v t ∧ Reduces (e.subst (assign ts)) t := by
  induction e generalizing v with
  | ref i =>
      simp only [Tree.term, evaluateWith, lookup?_natCast] at h
      split at h
      · rename_i value hfound
        cases h
        exact ⟨assign ts i, reads_of_getElem? henv hfound, .refl⟩
      · cases h
  | const name type =>
      cases h
      exact ⟨_, .const name type, .refl⟩
  | num n =>
      cases h
      exact ⟨_, .int n, .refl⟩
  | abs ann body =>
      cases h
      exact ⟨_, .closure ann body henv, .refl⟩
  | app func arg ihf iha =>
      obtain ⟨a, harg, h⟩ := exists_value_of_bind h
      obtain ⟨f, hfunc, h⟩ := exists_value_of_bind h
      obtain ⟨ta, hta, hreda⟩ := iha harg
      obtain ⟨tf, htf, hredf⟩ := ihf hfunc
      rcases htf with _ | _ | ⟨ann, body, hcaptured⟩
      · cases h
      · cases h
      · rename_i captured us
        obtain ⟨t, ht, hred⟩ := hcall _ (ta :: us) body v (.cons hta hcaptured) h
        refine ⟨t, ht, (hredf.app hreda).trans (.head (.beta ann _ ta) ?_)⟩
        rw [Tree.subst_lift_instantiate]
        exact hred
  | op o left right ihl ihr =>
      obtain ⟨l, hleft, h⟩ := exists_value_of_bind h
      obtain ⟨r, hright, h⟩ := exists_value_of_bind h
      obtain ⟨m, n, rfl, rfl, rfl⟩ := ints_of_operate h
      obtain ⟨tl, htl, hredl⟩ := ihl hleft
      obtain ⟨tr, htr, hredr⟩ := ihr hright
      cases htl
      cases htr
      exact ⟨_, .int _, (hredl.op o hredr).tail (.delta o m n)⟩

theorem reduces_of_evaluateWithin {depth : Nat} {env : List Meaning} {ts : List Tree}
    (henv : Forall₂ Reads env ts) {e : Tree} {v : Meaning}
    (h : evaluateWithin depth env e.term = .value v) :
    ∃ t, Reads v t ∧ Reduces (e.subst (assign ts)) t := by
  induction depth generalizing env ts e v with
  | zero =>
      refine reduces_of_evaluateWith ?_ henv h
      intro _ _ _ _ _ hnone
      cases hnone
  | succ depth ih => exact reduces_of_evaluateWith (fun _ _ _ _ henv h => ih henv h) henv h

theorem Evaluates.reduces {e : Tree} {v : Meaning} (h : Evaluates e.term (.value v)) :
    ∃ t, Reads v t ∧ Reduces e t := by
  obtain ⟨-, depth, h⟩ := h
  obtain ⟨t, ht, hred⟩ := reduces_of_evaluateWithin .nil h
  rw [show assign [] = Tree.ref from rfl, Tree.subst_ref] at hred
  exact ⟨t, ht, hred⟩

end LambdaMachine.BigStep
