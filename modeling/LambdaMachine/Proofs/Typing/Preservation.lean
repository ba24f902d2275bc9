import LambdaMachine.Proofs.Reduction.Run
import LambdaMachine.Proofs.Typing.Principal

namespace LambdaMachine

open Nameless (Tree)
open Term (Numbering)

namespace Nameless.Tree

/-- A parameter with the given annotation can have the type. -/
def Admits : Option Ty → Ty → Prop
  | some a, b => a.Ground ∧ a = b
  | none, b => b.Proper

/-- The types of the free references one binder further in. -/
def enter (a : Ty) (Δ : Nat → Option Ty) : Nat → Option Ty
  | 0 => some a
  | i + 1 => Δ i

/-- The types of a tree, given those of its free references. Types that are declared in the tree
have no variables. -/
inductive HasType : (Nat → Option Ty) → Tree → Ty → Prop where
  | ref {Δ : Nat → Option Ty} {i : Nat} {t : Ty} (h : Δ i = some t) : HasType Δ (ref i) t
  | const (Δ : Nat → Option Ty) (name : String) {t : Ty} (h : t.Ground) :
      HasType Δ (const name t) t
  | num (Δ : Nat → Option Ty) (n : Int) : HasType Δ (num n) .int
  | abs {Δ : Nat → Option Ty} {ann : Option Ty} {body : Tree} {a t : Ty} (hann : Admits ann a)
      (h : HasType (enter a Δ) body t) : HasType Δ (abs ann body) (.arrow a t)
  | app {Δ : Nat → Option Ty} {func arg : Tree} {a t : Ty} (hf : HasType Δ func (.arrow a t))
      (ha : HasType Δ arg a) : HasType Δ (app func arg) t
  | op {Δ : Nat → Option Ty} (o : Op) {left right : Tree} (hl : HasType Δ left .int)
      (hr : HasType Δ right .int) : HasType Δ (op o left right) .int

namespace HasType

variable {Δ Δ' : Nat → Option Ty} {t t' : Tree} {u : Ty}

theorem rename (h : HasType Δ t u) {r : Nat → Nat} (hr : ∀ i v, Δ i = some v → Δ' (r i) = some v) :
    HasType Δ' (t.rename r) u := by
  induction h generalizing Δ' r with
  | ref h => exact .ref (hr _ _ h)
  | const Δ name h => exact .const Δ' name h
  | num Δ n => exact .num Δ' n
  | abs hann h ih =>
      refine .abs hann (ih ?_)
      rintro (_ | i) v hv
      · exact hv
      · exact hr i v hv
  | app hf ha ihf iha => exact .app (ihf hr) (iha hr)
  | op o hl hr' ihl ihr => exact .op o (ihl hr) (ihr hr)

theorem subst (h : HasType Δ t u) {s : Nat → Tree} (hs : ∀ i v, Δ i = some v → HasType Δ' (s i) v) :
    HasType Δ' (t.subst s) u := by
  induction h generalizing Δ' s with
  | ref h => exact hs _ _ h
  | const Δ name h => exact .const Δ' name h
  | num Δ n => exact .num Δ' n
  | abs hann h ih =>
      refine .abs hann (ih ?_)
      rintro (_ | i) v hv
      · exact .ref hv
      · exact (hs i v hv).rename fun _ _ hj => hj
  | app hf ha ihf iha => exact .app (ihf hs) (iha hs)
  | op o hl hr ihl ihr => exact .op o (ihl hs) (ihr hs)

theorem instantiate {body arg : Tree} {a : Ty} (h : HasType (enter a Δ) body u)
    (ha : HasType Δ arg a) : HasType Δ (body.instantiate arg) u := by
  refine h.subst ?_
  rintro (_ | i) v hv
  · cases hv
    exact ha
  · exact .ref hv

theorem contracts (h : HasType Δ t u) (hstep : Contracts t t') : HasType Δ t' u := by
  induction hstep generalizing Δ u with
  | beta ann body arg =>
      cases h with
      | app hf ha =>
          cases hf with
          | abs hann hbody => exact hbody.instantiate ha
  | delta o m n =>
      cases h with
      | op _ hl hr => exact .num Δ _
  | abs ann _ ih =>
      cases h with
      | abs hann hbody => exact .abs hann (ih hbody)
  | appFunc arg _ ih =>
      cases h with
      | app hf ha => exact .app (ih hf) ha
  | appArg func _ ih =>
      cases h with
      | app hf ha => exact .app hf (ih ha)
  | opLeft o right _ ih =>
      cases h with
      | op _ hl hr => exact .op o (ih hl) hr
  | opRight o left _ ih =>
      cases h with
      | op _ hl hr => exact .op o hl (ih hr)

theorem reduces (h : HasType Δ t u) (hsteps : Reduces t t') : HasType Δ t' u := by
  induction hsteps with
  | refl => exact h
  | tail _ hstep ih => exact ih.contracts hstep

end HasType

end Nameless.Tree

namespace Typing

/-- The number of every name refers to the type that the name has in the context. -/
def Numbers (ν : Numbering) (Γ : Context) (Δ : Nat → Option Ty) : Prop :=
  ∀ name, Δ (ν (some name)) = Γ.lookup name

theorem Numbers.enter {ν : Numbering} {Γ : Context} {Δ : Nat → Option Ty} (h : Numbers ν Γ Δ)
    (name : String) (a : Ty) :
    Numbers (ν.enter (some name)) ((name, a) :: Γ) (Tree.enter a Δ) := by
  intro y
  by_cases heq : y = name
  · subst heq
    rw [Numbering.enter_self, List.lookup_cons_self]
    rfl
  · have hne : some y ≠ some name := fun hsome => heq (Option.some.inj hsome)
    rw [Numbering.enter_of_ne ν hne, List.lookup_cons, beq_false_of_ne heq]
    exact h y

theorem exists_numbers (Γ : Context) : ∃ ν Δ, Numbers ν Γ Δ := by
  induction Γ with
  | nil => exact ⟨fun _ => 0, fun _ => none, fun _ => rfl⟩
  | cons b Γ ih =>
      obtain ⟨ν, Δ, h⟩ := ih
      exact ⟨_, _, h.enter b.1 b.2⟩

theorem hasType_lam_iff {Γ : Context} {name : String} {ann : Option Ty} {body : Term} {u : Ty} :
    HasType Γ (.lam (some name) ann body) u ∧ (∀ a, ann = some a → a.Ground) ↔
      ∃ a t, u = .arrow a t ∧ Tree.Admits ann a ∧ HasType ((name, a) :: Γ) body t := by
  constructor
  · rintro ⟨hlam, hground⟩
    cases hlam with
    | annotated h => exact ⟨_, _, rfl, ⟨hground _ rfl, rfl⟩, h⟩
    | unannotated ha h => exact ⟨_, _, rfl, ha, h⟩
  · rintro ⟨a, t, rfl, hann, h⟩
    cases ann with
    | none => exact ⟨.unannotated hann h, nofun⟩
    | some b =>
        obtain ⟨hground, rfl⟩ := hann
        refine ⟨.annotated h, ?_⟩
        rintro _ ⟨⟩
        exact hground

/-- A named term has the types of its tree. -/
theorem hasType_tree_iff {e : Term} (he : e.Named) {ν : Numbering} {Γ : Context}
    {Δ : Nat → Option Ty} (h : Numbers ν Γ Δ) {t : Ty} :
    Tree.HasType Δ (e.tree ν) t ↔ HasType Γ e t ∧ e.Declares Ty.Ground Ty.Ground := by
  induction he generalizing ν Γ Δ t with
  | var name =>
      constructor
      · rintro ⟨hfound⟩
        exact ⟨.var ((h name).symm.trans hfound), trivial⟩
      · rintro ⟨htype, -⟩
        cases htype with
        | var hfound => exact .ref ((h name).trans hfound)
  | const name type =>
      constructor
      · intro htree
        cases htree with
        | const _ _ hground => exact ⟨.const Γ name type, hground⟩
      · rintro ⟨htype, hground⟩
        cases htype with
        | const => exact .const Δ name hground
  | num n =>
      constructor
      · intro htree
        cases htree with
        | num => exact ⟨.num Γ n, trivial⟩
      · rintro ⟨htype, -⟩
        cases htype with
        | num => exact .num Δ n
  | @lam name ann body hbody ih =>
      constructor
      · intro htree
        cases htree with
        | @abs _ _ _ a u hann htree =>
            obtain ⟨htype, hdecl⟩ := (ih (h.enter name a)).mp htree
            obtain ⟨hlam, hground⟩ := hasType_lam_iff.mpr ⟨a, u, rfl, hann, htype⟩
            exact ⟨hlam, hground, hdecl⟩
      · rintro ⟨hlam, hground, hdecl⟩
        obtain ⟨a, u, rfl, hann, htype⟩ := hasType_lam_iff.mp ⟨hlam, hground⟩
        exact .abs hann ((ih (h.enter name a)).mpr ⟨htype, hdecl⟩)
  | app hf ha ihf iha =>
      constructor
      · intro htree
        cases htree with
        | app hfunc harg =>
            obtain ⟨hfunc, hdeclf⟩ := (ihf h).mp hfunc
            obtain ⟨harg, hdecla⟩ := (iha h).mp harg
            exact ⟨.app hfunc harg, hdeclf, hdecla⟩
      · rintro ⟨htype, hdeclf, hdecla⟩
        cases htype with
        | app hfunc harg =>
            exact .app ((ihf h).mpr ⟨hfunc, hdeclf⟩) ((iha h).mpr ⟨harg, hdecla⟩)
  | op o hl hr ihl ihr =>
      constructor
      · intro htree
        cases htree with
        | op _ hleft hright =>
            obtain ⟨hleft, hdecll⟩ := (ihl h).mp hleft
            obtain ⟨hright, hdeclr⟩ := (ihr h).mp hright
            exact ⟨.op o hleft hright, hdecll, hdeclr⟩
      · rintro ⟨htype, hdecll, hdeclr⟩
        cases htype with
        | op _ hleft hright =>
            exact .op o ((ihl h).mpr ⟨hleft, hdecll⟩) ((ihr h).mpr ⟨hright, hdeclr⟩)

theorem HasType.leads {Γ : Context} {e e' : Term} {t : Ty} (h : HasType Γ e t) (hnamed : e.Named)
    (he : e.Declares Ty.Ground Ty.Ground) (hleads : Reduction.Leads e e') :
    HasType Γ e' t ∧ e'.Declares Ty.Ground Ty.Ground := by
  obtain ⟨ν, Δ, hnumbers⟩ := exists_numbers Γ
  have htree : Tree.HasType Δ (e.tree ν) t := (hasType_tree_iff hnamed hnumbers).mpr ⟨h, he⟩
  have htree' := htree.reduces (hleads.reduces hnamed ν)
  exact (hasType_tree_iff (hleads.named hnamed) hnumbers).mp htree'

/-- Inference succeeds, wherever type variables are counted from, with a type that has the given one
as an instance. -/
def InfersAbove (Γ : Context) (e : Term) (t : Ty) : Prop :=
  ∀ p, ∃ u q, infer Γ e p = .ok u q ∧ ∃ f : Int → Ty, (∀ i, (f i).Proper) ∧ t = u.mapVars f

/-- Inference on the reducts of a term succeeds with types that are at least as general as the type
of the term; so it does on what a run of the reduction ends with. -/
theorem subject_reduction {Γ : Context} {e : Term} (hnamed : e.Named)
    (he : e.Declares Ty.Ground Ty.Ground) (hΓ : ∀ b ∈ Γ, b.2.Ground) {p q : Progress} {t : Ty}
    (h : infer Γ e p = .ok t q) :
    (∀ e', Reduction.Leads e e' → InfersAbove Γ e' t) ∧
      ∀ limit, InfersAbove Γ (Reduction.run limit e).term t := by
  have htype : HasType Γ e t := hasType_of_infer_self hnamed he hΓ h
  have hleads : ∀ e', Reduction.Leads e e' → InfersAbove Γ e' t := by
    intro e' hleads p'
    obtain ⟨htype', he'⟩ := htype.leads hnamed he hleads
    exact exists_infer (hleads.named hnamed) he' hΓ htype' p'
  refine ⟨hleads, fun limit => hleads _ ?_⟩
  exact (Reduction.runFrom_of_named hnamed 0 {e} limit.toNat).1

/-- A function that computes with its argument, but drops the result. -/
def wasteful : Term :=
  .lam (some "x") none (.app (.lam (some "y") none (.lam (some "z") none (.var (some "z"))))
    (.op .add (.var (some "x")) (.var (some "k"))))

/-- What is left of the function is typed without a demand on its argument. -/
theorem subject_reduction_wasteful :
    wasteful.Named ∧ wasteful.Declares Ty.Ground Ty.Ground ∧
      (∃ q, infer [("k", .int)] wasteful {} =
        .ok (.arrow .int (.arrow (.var 2) (.var 2))) q) ∧
      Reduction.step wasteful =
        some (.beta, .lam (some "x") none (.lam (some "z") none (.var (some "z")))) ∧
      (∃ q, infer [("k", .int)] (.lam (some "x") none (.lam (some "z") none (.var (some "z")))) {} =
        .ok (.arrow (.var 0) (.arrow (.var 1) (.var 1))) q) ∧
      InfersAbove [("k", .int)] (.lam (some "x") none (.lam (some "z") none (.var (some "z"))))
        (.arrow .int (.arrow (.var 2) (.var 2))) := by
  have hnamed : wasteful.Named :=
    .lam _ _ (.app (.lam _ _ (.lam _ _ (.var _))) (.op .add (.var _) (.var _)))
  have he : wasteful.Declares Ty.Ground Ty.Ground := by simp [wasteful, Term.Declares]
  have hΓ : ∀ b ∈ [("k", Ty.int)], b.2.Ground := by simp [Ty.int, Ty.Over]
  have hinfer : infer [("k", .int)] wasteful {} = .ok (.arrow .int (.arrow (.var 2) (.var 2)))
      ⟨4, ⟨[(0, .int), (1, .int), (3, .arrow (.var 2) (.var 2))]⟩⟩ := by rfl
  have hstep : Reduction.step wasteful =
      some (.beta, .lam (some "x") none (.lam (some "z") none (.var (some "z")))) := by
    simp [wasteful, Reduction.step, Term.substitute_lam, Term.freeVars]
  exact ⟨hnamed, he, ⟨_, hinfer⟩, hstep, ⟨_, rfl⟩,
    (subject_reduction hnamed he hΓ hinfer).1 _ (.single ⟨.beta, hstep⟩)⟩

end Typing

end LambdaMachine
