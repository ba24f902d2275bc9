import LambdaMachine.Reduction.Step

/-!
Nameless trees. A tree is a term whose variables are numbers of binders, with nothing else in the
place of a variable or of a binder, so every tree can be substituted into every other. Trees are the
common ground on which reduction of named terms and evaluation by the machine are compared.
-/

namespace LambdaMachine.Nameless

/-- A term in which a variable is the number of binders between it and its own. -/
inductive Tree where
  | ref (i : Nat)
  | const (name : String) (type : Ty)
  | num (value : Int)
  | abs (ann : Option Ty) (body : Tree)
  | app (func arg : Tree)
  | op (o : Op) (left right : Tree)
  deriving DecidableEq, Inhabited

namespace Tree

/-- Passes a renaming of references under a binder. -/
def liftRenaming (r : Nat → Nat) : Nat → Nat
  | 0 => 0
  | i + 1 => r i + 1

def rename : (Nat → Nat) → Tree → Tree
  | r, ref i => ref (r i)
  | _, const name type => const name type
  | _, num value => num value
  | r, abs ann body => abs ann (body.rename (liftRenaming r))
  | r, app func arg => app (func.rename r) (arg.rename r)
  | r, op o left right => op o (left.rename r) (right.rename r)

/-- Passes an assignment of trees to references under a binder. -/
def lift (s : Nat → Tree) : Nat → Tree
  | 0 => ref 0
  | i + 1 => (s i).rename Nat.succ

/-- Replaces the free references of a tree, all at once. -/
def subst : (Nat → Tree) → Tree → Tree
  | s, ref i => s i
  | _, const name type => const name type
  | _, num value => num value
  | s, abs ann body => abs ann (body.subst (lift s))
  | s, app func arg => app (func.subst s) (arg.subst s)
  | s, op o left right => op o (left.subst s) (right.subst s)

/-- Assigns a tree to the innermost reference, and to the others what they had one binder out. -/
def cons (t : Tree) (s : Nat → Tree) : Nat → Tree
  | 0 => t
  | i + 1 => s i

/-- Replaces the innermost reference by a tree, and lowers the others by the binder that is gone. -/
def instantiate (body arg : Tree) : Tree :=
  body.subst (cons arg ref)

theorem liftRenaming_comp (r q : Nat → Nat) :
    liftRenaming (fun i => q (r i)) = fun i => liftRenaming q (liftRenaming r i) := by
  funext i
  cases i with
  | zero => rfl
  | succ i => rfl

theorem rename_rename (t : Tree) (r q : Nat → Nat) :
    (t.rename r).rename q = t.rename fun i => q (r i) := by
  induction t generalizing r q with
  | ref i => rfl
  | const name type => rfl
  | num value => rfl
  | abs ann body ih => rw [rename, rename, rename, ih, ← liftRenaming_comp]
  | app func arg ihf iha => rw [rename, rename, rename, ihf, iha]
  | op o left right ihl ihr => rw [rename, rename, rename, ihl, ihr]

theorem lift_comp_liftRenaming (r : Nat → Nat) (s : Nat → Tree) :
    (fun i => lift s (liftRenaming r i)) = lift fun i => s (r i) := by
  funext i
  cases i with
  | zero => rfl
  | succ i => rfl

theorem subst_rename (t : Tree) (r : Nat → Nat) (s : Nat → Tree) :
    (t.rename r).subst s = t.subst fun i => s (r i) := by
  induction t generalizing r s with
  | ref i => rfl
  | const name type => rfl
  | num value => rfl
  | abs ann body ih => rw [rename, subst, subst, ih, lift_comp_liftRenaming]
  | app func arg ihf iha => rw [rename, subst, subst, ihf, iha]
  | op o left right ihl ihr => rw [rename, subst, subst, ihl, ihr]

theorem rename_lift (s : Nat → Tree) (r : Nat → Nat) :
    (fun i => (lift s i).rename (liftRenaming r)) = lift fun i => (s i).rename r := by
  funext i
  cases i with
  | zero => rfl
  | succ i =>
      simp only [lift, rename_rename]
      rfl

theorem rename_subst (t : Tree) (s : Nat → Tree) (r : Nat → Nat) :
    (t.subst s).rename r = t.subst fun i => (s i).rename r := by
  induction t generalizing s r with
  | ref i => rfl
  | const name type => rfl
  | num value => rfl
  | abs ann body ih => rw [subst, rename, subst, ih, rename_lift]
  | app func arg ihf iha => rw [subst, rename, subst, ihf, iha]
  | op o left right ihl ihr => rw [subst, rename, subst, ihl, ihr]

theorem subst_lift (s q : Nat → Tree) :
    (fun i => (lift s i).subst (lift q)) = lift fun i => (s i).subst q := by
  funext i
  cases i with
  | zero => rfl
  | succ i =>
      simp only [lift, subst_rename, rename_subst]

theorem subst_subst (t : Tree) (s q : Nat → Tree) :
    (t.subst s).subst q = t.subst fun i => (s i).subst q := by
  induction t generalizing s q with
  | ref i => rfl
  | const name type => rfl
  | num value => rfl
  | abs ann body ih => rw [subst, subst, subst, ih, subst_lift]
  | app func arg ihf iha => rw [subst, subst, subst, ihf, iha]
  | op o left right ihl ihr => rw [subst, subst, subst, ihl, ihr]

theorem lift_ref : lift ref = ref := by
  funext i
  cases i with
  | zero => rfl
  | succ i => rfl

theorem subst_ref (t : Tree) : t.subst ref = t := by
  induction t with
  | ref i => rfl
  | const name type => rfl
  | num value => rfl
  | abs ann body ih => rw [subst, lift_ref, ih]
  | app func arg ihf iha => rw [subst, ihf, iha]
  | op o left right ihl ihr => rw [subst, ihl, ihr]

theorem rename_eq_subst (t : Tree) (r : Nat → Nat) :
    t.rename r = t.subst fun i => ref (r i) := by
  calc
    t.rename r = (t.rename r).subst ref := (subst_ref _).symm
    _ = t.subst fun i => ref (r i) := subst_rename t r ref

theorem subst_lift_instantiate (body arg : Tree) (s : Nat → Tree) :
    (body.subst (lift s)).instantiate arg = body.subst (cons arg s) := by
  rw [instantiate, subst_subst]
  congr 1
  funext i
  cases i with
  | zero => rfl
  | succ i =>
      simp only [lift, subst_rename]
      exact subst_ref (s i)

theorem subst_instantiate (body arg : Tree) (s : Nat → Tree) :
    (body.instantiate arg).subst s = (body.subst (lift s)).instantiate (arg.subst s) := by
  rw [subst_lift_instantiate, instantiate, subst_subst]
  congr 1
  funext i
  cases i with
  | zero => rfl
  | succ i => rfl

end Tree

end LambdaMachine.Nameless
