import LambdaMachine.Proofs.Nameless.Tree
import Mathlib.Logic.Relation

namespace LambdaMachine.Nameless.Tree

open Relation (ReflTransGen)

/-- One redex, anywhere in a tree, is contracted. -/
inductive Contracts : Tree → Tree → Prop where
  | beta (ann : Option Ty) (body arg : Tree) :
      Contracts (app (abs ann body) arg) (body.instantiate arg)
  | delta (o : Op) (m n : Int) : Contracts (op o (num m) (num n)) (num (o.apply m n))
  | abs (ann : Option Ty) {body body' : Tree} (h : Contracts body body') :
      Contracts (abs ann body) (abs ann body')
  | appFunc {func func' : Tree} (arg : Tree) (h : Contracts func func') :
      Contracts (app func arg) (app func' arg)
  | appArg (func : Tree) {arg arg' : Tree} (h : Contracts arg arg') :
      Contracts (app func arg) (app func arg')
  | opLeft (o : Op) {left left' : Tree} (right : Tree) (h : Contracts left left') :
      Contracts (op o left right) (op o left' right)
  | opRight (o : Op) (left : Tree) {right right' : Tree} (h : Contracts right right') :
      Contracts (op o left right) (op o left right')

/-- Any number of contractions, one after the other. -/
abbrev Reduces : Tree → Tree → Prop := ReflTransGen Contracts

namespace Reduces

theorem abs (ann : Option Ty) {body body' : Tree} (h : Reduces body body') :
    Reduces (abs ann body) (abs ann body') :=
  ReflTransGen.lift (Tree.abs ann) (fun _ _ => Contracts.abs ann) _ _ h

theorem app {func func' arg arg' : Tree} (hf : Reduces func func') (ha : Reduces arg arg') :
    Reduces (app func arg) (app func' arg') := by
  have hfunc : Reduces (Tree.app func arg) (Tree.app func' arg) :=
    ReflTransGen.lift (Tree.app · arg) (fun _ _ => Contracts.appFunc arg) _ _ hf
  have harg : Reduces (Tree.app func' arg) (Tree.app func' arg') :=
    ReflTransGen.lift (Tree.app func' ·) (fun _ _ => Contracts.appArg func') _ _ ha
  exact hfunc.trans harg

theorem op (o : Op) {left left' right right' : Tree} (hl : Reduces left left')
    (hr : Reduces right right') : Reduces (op o left right) (op o left' right') := by
  have hleft : Reduces (Tree.op o left right) (Tree.op o left' right) :=
    ReflTransGen.lift (Tree.op o · right) (fun _ _ => Contracts.opLeft o right) _ _ hl
  have hright : Reduces (Tree.op o left' right) (Tree.op o left' right') :=
    ReflTransGen.lift (Tree.op o left' ·) (fun _ _ => Contracts.opRight o left') _ _ hr
  exact hleft.trans hright

end Reduces

/-- Some of the redexes of a tree are contracted at once. -/
inductive Develops : Tree → Tree → Prop where
  | ref (i : Nat) : Develops (ref i) (ref i)
  | const (name : String) (type : Ty) : Develops (const name type) (const name type)
  | num (value : Int) : Develops (num value) (num value)
  | abs (ann : Option Ty) {body body' : Tree} (h : Develops body body') :
      Develops (abs ann body) (abs ann body')
  | app {func func' arg arg' : Tree} (hf : Develops func func') (ha : Develops arg arg') :
      Develops (app func arg) (app func' arg')
  | op (o : Op) {left left' right right' : Tree} (hl : Develops left left')
      (hr : Develops right right') : Develops (op o left right) (op o left' right')
  | beta (ann : Option Ty) {body body' arg arg' : Tree} (hb : Develops body body')
      (ha : Develops arg arg') : Develops (app (abs ann body) arg) (body'.instantiate arg')
  | delta (o : Op) (m n : Int) : Develops (op o (num m) (num n)) (num (o.apply m n))

namespace Develops

theorem refl (t : Tree) : Develops t t := by
  induction t with
  | ref i => exact ref i
  | const name type => exact const name type
  | num value => exact num value
  | abs ann body ih => exact abs ann ih
  | app func arg ihf iha => exact app ihf iha
  | op o left right ihl ihr => exact op o ihl ihr

theorem of_contracts {t u : Tree} (h : Contracts t u) : Develops t u := by
  induction h with
  | beta ann body arg => exact beta ann (refl body) (refl arg)
  | delta o m n => exact delta o m n
  | abs ann _ ih => exact abs ann ih
  | appFunc arg _ ih => exact app ih (refl arg)
  | appArg func _ ih => exact app (refl func) ih
  | opLeft o right _ ih => exact op o ih (refl right)
  | opRight o left _ ih => exact op o (refl left) ih

theorem reduces {t u : Tree} (h : Develops t u) : Reduces t u := by
  induction h with
  | ref i => exact .refl
  | const name type => exact .refl
  | num value => exact .refl
  | abs ann _ ih => exact ih.abs ann
  | app _ _ ihf iha => exact ihf.app iha
  | op o _ _ ihl ihr => exact ihl.op o ihr
  | beta ann _ _ ihb iha => exact ((ihb.abs ann).app iha).tail (.beta ann _ _)
  | delta o m n => exact .single (.delta o m n)

theorem rename {t u : Tree} (h : Develops t u) (r : Nat → Nat) :
    Develops (t.rename r) (u.rename r) := by
  induction h generalizing r with
  | ref i => exact ref (r i)
  | const name type => exact const name type
  | num value => exact num value
  | abs ann _ ih => exact abs ann (ih _)
  | app _ _ ihf iha => exact app (ihf r) (iha r)
  | op o _ _ ihl ihr => exact op o (ihl r) (ihr r)
  | @beta ann _ body' _ arg' _ _ ihb iha =>
      have hinst : (body'.instantiate arg').rename r =
          (body'.rename (liftRenaming r)).instantiate (arg'.rename r) := by
        rw [rename_eq_subst, subst_instantiate, rename_eq_subst, rename_eq_subst]
        congr 2
        funext i
        cases i with
        | zero => rfl
        | succ i => rfl
      rw [hinst]
      exact beta ann (ihb _) (iha r)
  | delta o m n => exact delta o m n

theorem lift {s q : Nat → Tree} (h : ∀ i, Develops (s i) (q i)) (i : Nat) :
    Develops (lift s i) (lift q i) := by
  cases i with
  | zero => exact ref 0
  | succ i => exact (h i).rename Nat.succ

theorem subst {t u : Tree} (h : Develops t u) {s q : Nat → Tree}
    (hs : ∀ i, Develops (s i) (q i)) : Develops (t.subst s) (u.subst q) := by
  induction h generalizing s q with
  | ref i => exact hs i
  | const name type => exact const name type
  | num value => exact num value
  | abs ann _ ih => exact abs ann (ih (lift hs))
  | app _ _ ihf iha => exact app (ihf hs) (iha hs)
  | op o _ _ ihl ihr => exact op o (ihl hs) (ihr hs)
  | beta ann _ _ ihb iha =>
      rw [subst_instantiate]
      exact beta ann (ihb (lift hs)) (iha hs)
  | delta o m n => exact delta o m n

theorem instantiate {body body' arg arg' : Tree} (hb : Develops body body')
    (ha : Develops arg arg') : Develops (body.instantiate arg) (body'.instantiate arg') := by
  apply hb.subst
  intro i
  cases i with
  | zero => exact ha
  | succ i => exact ref i

end Develops

/-- The tree in which every redex is contracted. -/
def develop : Tree → Tree
  | ref i => ref i
  | const name type => const name type
  | num value => num value
  | abs ann body => abs ann body.develop
  | app (abs _ body) arg => body.develop.instantiate arg.develop
  | app func arg => app func.develop arg.develop
  | op o (num m) (num n) => num (o.apply m n)
  | op o left right => op o left.develop right.develop

theorem Develops.develop {t u : Tree} (h : Develops t u) : Develops u t.develop := by
  induction h with
  | ref i => exact ref i
  | const name type => exact const name type
  | num value => exact num value
  | abs ann _ ih => exact abs ann ih
  | @app func func' arg arg' hf _ ihf iha =>
      -- only a function that is an abstraction makes a redex that is still to be contracted
      cases hf with
      | abs ann hbody =>
          cases ihf with
          | abs _ ihbody => exact beta ann ihbody iha
      | ref i => exact app ihf iha
      | const name type => exact app ihf iha
      | num value => exact app ihf iha
      | app _ _ => exact app ihf iha
      | op o _ _ => exact app ihf iha
      | beta ann _ _ => exact app ihf iha
      | delta o m n => exact app ihf iha
  | @op o left left' right right' hl hr ihl ihr =>
      by_cases hnum : ∃ m n, left = .num m ∧ right = .num n
      · obtain ⟨m, n, rfl, rfl⟩ := hnum
        cases hl
        cases hr
        exact delta o m n
      · have hdev : (Tree.op o left right).develop = .op o left.develop right.develop := by
          rw [Tree.develop]
          rintro m n rfl rfl
          exact hnum ⟨m, n, rfl, rfl⟩
        rw [hdev]
        exact op o ihl ihr
  | beta ann _ _ ihb iha => exact ihb.instantiate iha
  | delta o m n => exact num _

/-- Two reductions of one tree can be brought together. -/
theorem Reduces.confluent {t u v : Tree} (hu : Reduces t u) (hv : Reduces t v) :
    ∃ w, Reduces u w ∧ Reduces v w := by
  have hdev : ∀ {a b : Tree}, Reduces a b → ReflTransGen Develops a b :=
    fun h => ReflTransGen.mono (fun _ _ => Develops.of_contracts) _ _ h
  have hred : ∀ {a b : Tree}, ReflTransGen Develops a b → Reduces a b := by
    intro a b h
    induction h with
    | refl => exact .refl
    | tail _ hstep ih => exact ih.trans hstep.reduces
  obtain ⟨w, hw, hw'⟩ := Relation.church_rosser
    (fun a b c hb hc => ⟨a.develop, .single hb.develop, .single hc.develop⟩) (hdev hu) (hdev hv)
  exact ⟨w, hred hw, hred hw'⟩

def Normal (t : Tree) : Prop :=
  ∀ u, ¬ Contracts t u

theorem Normal.eq_of_reduces {t u : Tree} (hn : t.Normal) (h : Reduces t u) : u = t := by
  cases h.cases_head with
  | inl heq => exact heq.symm
  | inr hstep =>
      obtain ⟨v, hv, -⟩ := hstep
      exact absurd hv (hn v)

theorem Reduces.to_normal {t n u : Tree} (hn : n.Normal) (ht : Reduces t n) (hu : Reduces t u) :
    Reduces u n := by
  obtain ⟨w, hw, hw'⟩ := ht.confluent hu
  rw [hn.eq_of_reduces hw] at hw'
  exact hw'

theorem Reduces.exists_abs {ann : Option Ty} {body u : Tree} (h : Reduces (Tree.abs ann body) u) :
    ∃ body', u = Tree.abs ann body' := by
  induction h with
  | refl => exact ⟨body, rfl⟩
  | tail _ hstep ih =>
      obtain ⟨mid, rfl⟩ := ih
      cases hstep with
      | abs _ hbody => exact ⟨_, rfl⟩

end LambdaMachine.Nameless.Tree
