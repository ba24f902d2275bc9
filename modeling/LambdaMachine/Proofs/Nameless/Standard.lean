import LambdaMachine.Proofs.Nameless.NormalOrder

/-!
Standard reductions of nameless trees. A tree reduces in a standard way if contractions at its head
come first and the parts that are left reduce in a standard way, each for itself. Whatever is
reached by contractions in any order is reached by a standard reduction, and a standard reduction to
a normal form can be carried out from left to right: the leftmost outermost redex is never a wrong
choice.
-/

namespace LambdaMachine.Nameless.Tree

open Reduction (Rule)
open Relation (ReflTransGen)

/-- The redex at the head of a tree is contracted: the one that has to go before it is clear what
the tree is at its root. -/
inductive HeadStep : Tree → Tree → Prop where
  | beta (ann : Option Ty) (body arg : Tree) :
      HeadStep (app (abs ann body) arg) (body.instantiate arg)
  | delta (o : Op) (m n : Int) : HeadStep (op o (num m) (num n)) (num (o.apply m n))
  | app {func func' : Tree} (arg : Tree) (h : HeadStep func func') :
      HeadStep (app func arg) (app func' arg)
  | left (o : Op) {left left' : Tree} (right : Tree) (h : HeadStep left left') :
      HeadStep (op o left right) (op o left' right)
  | right (o : Op) (m : Int) {right right' : Tree} (h : HeadStep right right') :
      HeadStep (op o (num m) right) (op o (num m) right')

/-- Any number of contractions at the head. -/
abbrev HeadReduces : Tree → Tree → Prop := ReflTransGen HeadStep

namespace HeadReduces

theorem app {func func' : Tree} (h : HeadReduces func func') (arg : Tree) :
    HeadReduces (app func arg) (app func' arg) :=
  ReflTransGen.lift (Tree.app · arg) (fun _ _ => HeadStep.app arg) _ _ h

theorem left (o : Op) {left left' : Tree} (h : HeadReduces left left') (right : Tree) :
    HeadReduces (op o left right) (op o left' right) :=
  ReflTransGen.lift (Tree.op o · right) (fun _ _ => HeadStep.left o right) _ _ h

theorem right (o : Op) (m : Int) {right right' : Tree} (h : HeadReduces right right') :
    HeadReduces (op o (num m) right) (op o (num m) right') :=
  ReflTransGen.lift (Tree.op o (num m) ·) (fun _ _ => HeadStep.right o m) _ _ h

end HeadReduces

theorem HeadStep.subst {t u : Tree} (h : HeadStep t u) (s : Nat → Tree) :
    HeadStep (t.subst s) (u.subst s) := by
  induction h with
  | beta ann body arg =>
      rw [subst_instantiate]
      exact beta ann (body.subst (lift s)) (arg.subst s)
  | delta o m n => exact delta o m n
  | app arg _ ih => exact app (arg.subst s) ih
  | left o right _ ih => exact left o (right.subst s) ih
  | right o m _ ih => exact right o m ih

theorem HeadReduces.subst {t u : Tree} (h : HeadReduces t u) (s : Nat → Tree) :
    HeadReduces (t.subst s) (u.subst s) :=
  ReflTransGen.lift (Tree.subst s) (fun _ _ hstep => hstep.subst s) _ _ h

/-- A standard reduction: first at the head, and then the parts, each in a standard way. -/
inductive Standard : Tree → Tree → Prop where
  | ref {t : Tree} {i : Nat} (h : HeadReduces t (ref i)) : Standard t (ref i)
  | const {t : Tree} {name : String} {type : Ty} (h : HeadReduces t (const name type)) :
      Standard t (const name type)
  | num {t : Tree} {value : Int} (h : HeadReduces t (num value)) : Standard t (num value)
  | abs {t body body' : Tree} {ann : Option Ty} (h : HeadReduces t (abs ann body))
      (hb : Standard body body') : Standard t (abs ann body')
  | app {t func func' arg arg' : Tree} (h : HeadReduces t (app func arg))
      (hf : Standard func func') (ha : Standard arg arg') : Standard t (app func' arg')
  | op {t left left' right right' : Tree} {o : Op} (h : HeadReduces t (op o left right))
      (hl : Standard left left') (hr : Standard right right') : Standard t (op o left' right')

namespace Standard

variable {t u v : Tree}

theorem refl (t : Tree) : Standard t t := by
  induction t with
  | ref i => exact ref .refl
  | const name type => exact const .refl
  | num value => exact num .refl
  | abs ann body ih => exact abs .refl ih
  | app func arg ihf iha => exact app .refl ihf iha
  | op o left right ihl ihr => exact op .refl ihl ihr

theorem of_head (h : HeadReduces t u) (hu : Standard u v) : Standard t v := by
  cases hu with
  | ref hu => exact ref (h.trans hu)
  | const hu => exact const (h.trans hu)
  | num hu => exact num (h.trans hu)
  | abs hu hb => exact abs (h.trans hu) hb
  | app hu hf ha => exact app (h.trans hu) hf ha
  | op hu hl hr => exact op (h.trans hu) hl hr

theorem rename (h : Standard t u) (r : Nat → Nat) : Standard (t.rename r) (u.rename r) := by
  have hhead : ∀ (r : Nat → Nat) {a b : Tree}, HeadReduces a b →
      HeadReduces (a.rename r) (b.rename r) := by
    intro r a b hab
    rw [rename_eq_subst, rename_eq_subst]
    exact hab.subst fun i => Tree.ref (r i)
  induction h generalizing r with
  | ref h => exact ref (hhead r h)
  | const h => exact const (hhead r h)
  | num h => exact num (hhead r h)
  | abs h _ ih => exact abs (hhead r h) (ih _)
  | app h _ _ ihf iha => exact app (hhead r h) (ihf r) (iha r)
  | op h _ _ ihl ihr => exact op (hhead r h) (ihl r) (ihr r)

theorem lift {s q : Nat → Tree} (h : ∀ i, Standard (s i) (q i)) (i : Nat) :
    Standard (lift s i) (lift q i) := by
  cases i with
  | zero => exact refl _
  | succ i => exact (h i).rename Nat.succ

theorem subst (h : Standard t u) {s q : Nat → Tree} (hs : ∀ i, Standard (s i) (q i)) :
    Standard (t.subst s) (u.subst q) := by
  induction h generalizing s q with
  | @ref t i h => exact of_head (h.subst s) (hs i)
  | const h => exact const (h.subst s)
  | num h => exact num (h.subst s)
  | abs h _ ih => exact abs (h.subst s) (ih (lift hs))
  | app h _ _ ihf iha => exact app (h.subst s) (ihf hs) (iha hs)
  | op h _ _ ihl ihr => exact op (h.subst s) (ihl hs) (ihr hs)

theorem instantiate {body body' arg arg' : Tree} (hb : Standard body body')
    (ha : Standard arg arg') : Standard (body.instantiate arg) (body'.instantiate arg') := by
  apply hb.subst
  rintro (_ | i)
  · exact ha
  · exact refl _

theorem contracts (h : Standard t u) (hstep : Contracts u v) : Standard t v := by
  induction hstep generalizing t with
  | beta ann body arg =>
      -- the function becomes an abstraction by steps at the head, so the redex moves to the head
      rcases h with _ | _ | _ | _ | ⟨h, hf, ha⟩ | _
      rcases hf with _ | _ | _ | ⟨hf, hb⟩ | _ | _
      exact of_head ((h.trans (hf.app _)).tail (.beta ann _ _)) (hb.instantiate ha)
  | delta o m n =>
      rcases h with _ | _ | _ | _ | _ | ⟨h, hl, hr⟩
      rcases hl with _ | _ | hl | _ | _ | _
      rcases hr with _ | _ | hr | _ | _ | _
      exact num (((h.trans (hl.left o _)).trans (hr.right o m)).tail (.delta o m n))
  | abs ann _ ih =>
      rcases h with _ | _ | _ | ⟨h, hb⟩ | _ | _
      exact abs h (ih hb)
  | appFunc arg _ ih =>
      rcases h with _ | _ | _ | _ | ⟨h, hf, ha⟩ | _
      exact app h (ih hf) ha
  | appArg func _ ih =>
      rcases h with _ | _ | _ | _ | ⟨h, hf, ha⟩ | _
      exact app h hf (ih ha)
  | opLeft o right _ ih =>
      rcases h with _ | _ | _ | _ | _ | ⟨h, hl, hr⟩
      exact op h (ih hl) hr
  | opRight o left _ ih =>
      rcases h with _ | _ | _ | _ | _ | ⟨h, hl, hr⟩
      exact op h hl (ih hr)

theorem of_reduces (h : Reduces t u) : Standard t u := by
  induction h with
  | refl => exact refl t
  | tail _ hstep ih => exact ih.contracts hstep

end Standard

/-- Any number of contractions of the leftmost outermost redex. -/
abbrev LeftmostReduces : Tree → Tree → Prop :=
  ReflTransGen fun t u => ∃ rule, t.leftmost = some (rule, u)

section Leftmost

variable {func func' arg arg' left left' right right' : Tree} {rule : Rule}

theorem leftmost_app_arg (hne : ∀ ann body, func ≠ abs ann body) (hf : func.leftmost = none)
    (h : arg.leftmost = some (rule, arg')) :
    (app func arg).leftmost = some (rule, app func arg') := by
  rw [leftmost_app_of_none hne hf, h]
  rfl

theorem leftmost_op_right (o : Op) (hl : left.leftmost = none)
    (h : right.leftmost = some (rule, right')) :
    (op o left right).leftmost = some (rule, op o left right') := by
  rw [leftmost_op_of_none o _ hl, h]
  · rfl
  · rintro m n - rfl
    simp [leftmost] at h

theorem HeadStep.leftmost {t u : Tree} (h : HeadStep t u) :
    ∃ rule, t.leftmost = some (rule, u) := by
  induction h with
  | beta ann body arg => exact ⟨.beta, rfl⟩
  | delta o m n => exact ⟨.delta, rfl⟩
  | app arg h ih =>
      obtain ⟨rule, ih⟩ := ih
      refine ⟨rule, leftmost_app_func ?_ ih arg⟩
      rintro ann body rfl
      cases h
  | left o right _ ih =>
      obtain ⟨rule, ih⟩ := ih
      exact ⟨rule, leftmost_op_left o ih right⟩
  | right o m _ ih =>
      obtain ⟨rule, ih⟩ := ih
      exact ⟨rule, leftmost_op_right o rfl ih⟩

theorem HeadReduces.leftmost {t u : Tree} (h : HeadReduces t u) : LeftmostReduces t u :=
  ReflTransGen.mono (fun _ _ => HeadStep.leftmost) _ _ h

theorem Normal.leftmost {t : Tree} (h : t.Normal) : t.leftmost = none := by
  by_contra hstep
  obtain ⟨⟨rule, u⟩, hu⟩ := Option.ne_none_iff_exists'.mp hstep
  exact h u (contracts_of_leftmost hu)

namespace LeftmostReduces

theorem reduces {t u : Tree} (h : LeftmostReduces t u) : Reduces t u :=
  ReflTransGen.mono (fun _ _ ⟨_, hstep⟩ => contracts_of_leftmost hstep) _ _ h

theorem abs (ann : Option Ty) {body body' : Tree} (h : LeftmostReduces body body') :
    LeftmostReduces (abs ann body) (abs ann body') := by
  refine ReflTransGen.lift (Tree.abs ann) ?_ _ _ h
  rintro a b ⟨rule, hstep⟩
  exact ⟨rule, by rw [leftmost, hstep]; rfl⟩

theorem appFunc (h : LeftmostReduces func func') (hne : ∀ ann body, func' ≠ Tree.abs ann body)
    (arg : Tree) : LeftmostReduces (app func arg) (app func' arg) := by
  induction h using ReflTransGen.head_induction_on with
  | refl => exact .refl
  | head hstep hrest ih =>
      obtain ⟨rule, hstep⟩ := hstep
      refine .head ⟨rule, leftmost_app_func ?_ hstep arg⟩ ih
      -- an abstraction would stay one to the end
      rintro ann body rfl
      have habs := (reduces hrest).head (contracts_of_leftmost hstep)
      obtain ⟨body', rfl⟩ := Reduces.exists_abs habs
      exact hne ann body' rfl

theorem appArg (hne : ∀ ann body, func ≠ Tree.abs ann body) (hf : func.leftmost = none)
    (h : LeftmostReduces arg arg') : LeftmostReduces (app func arg) (app func arg') := by
  refine ReflTransGen.lift (Tree.app func) ?_ _ _ h
  rintro a b ⟨rule, hstep⟩
  exact ⟨rule, leftmost_app_arg hne hf hstep⟩

theorem opLeft (o : Op) (h : LeftmostReduces left left') (right : Tree) :
    LeftmostReduces (op o left right) (op o left' right) := by
  refine ReflTransGen.lift (Tree.op o · right) ?_ _ _ h
  rintro a b ⟨rule, hstep⟩
  exact ⟨rule, leftmost_op_left o hstep right⟩

theorem opRight (o : Op) (hl : left.leftmost = none) (h : LeftmostReduces right right') :
    LeftmostReduces (op o left right) (op o left right') := by
  refine ReflTransGen.lift (Tree.op o left) ?_ _ _ h
  rintro a b ⟨rule, hstep⟩
  exact ⟨rule, leftmost_op_right o hl hstep⟩

end LeftmostReduces

end Leftmost

/-- A standard reduction to a normal form contracts, once its parts are put in order, the leftmost
outermost redex at every step. -/
theorem Standard.leftmost {t n : Tree} (h : Standard t n) (hn : n.Normal) :
    LeftmostReduces t n := by
  induction h with
  | ref h => exact h.leftmost
  | const h => exact h.leftmost
  | num h => exact h.leftmost
  | @abs t body body' ann h _ ih =>
      have hbody : body'.Normal := fun u hu => hn _ (.abs ann hu)
      exact h.leftmost.trans ((ih hbody).abs ann)
  | @app t func func' arg arg' h _ _ ihf iha =>
      have hfunc : func'.Normal := fun u hu => hn _ (.appFunc arg' hu)
      have harg : arg'.Normal := fun u hu => hn _ (.appArg func' hu)
      have hne : ∀ ann body, func' ≠ Tree.abs ann body := by
        rintro ann body rfl
        exact hn _ (.beta ann body arg')
      have hparts := ((ihf hfunc).appFunc hne arg).trans ((iha harg).appArg hne hfunc.leftmost)
      exact h.leftmost.trans hparts
  | @op t left left' right right' o h _ _ ihl ihr =>
      have hleft : left'.Normal := fun u hu => hn _ (.opLeft o right' hu)
      have hright : right'.Normal := fun u hu => hn _ (.opRight o left' hu)
      have hparts := ((ihl hleft).opLeft o right).trans ((ihr hright).opRight o hleft.leftmost)
      exact h.leftmost.trans hparts

/-- Normal order finds every normal form that there is. -/
theorem Reduces.leftmost {t n : Tree} (h : Reduces t n) (hn : n.Normal) : LeftmostReduces t n :=
  (Standard.of_reduces h).leftmost hn

end LambdaMachine.Nameless.Tree
