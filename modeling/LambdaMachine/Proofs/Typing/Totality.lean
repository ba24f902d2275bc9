import LambdaMachine.Proofs.Machine.Compilation
import LambdaMachine.Proofs.Machine.Readback
import LambdaMachine.Proofs.Typing.Principal

/-!
Evaluation of terms that have a type. By induction on types it is said which values inhabit a type: a
closure inhabits an arrow if every call with an inhabitant of the domain ends in an inhabitant of the
codomain. A term evaluates to an inhabitant of its type, so it neither fails nor goes on forever. No
value inhabits a type variable, and hence no closed term has one as its type. The machine follows the
evaluation, so it returns a value for every closed term with a type, if only the limits are large
enough.
-/

namespace LambdaMachine

open BigStep (Meaning evaluateWithin evaluateWithin_of_le)
open Term (Numbering)

/-- A type constant other than the type of numbers. -/
def Ty.Atomic (t : Ty) : Prop :=
  ∃ name, t = .const name ∧ t ≠ .int

theorem Ty.Atomic.ground {t : Ty} (h : t.Atomic) : t.Ground := by
  obtain ⟨name, rfl, -⟩ := h
  trivial

namespace BigStep

/-- Evaluation in an environment ends with a value. -/
def Converges (env : List Meaning) (e : Term) (v : Meaning) : Prop :=
  ∃ depth, evaluateWithin depth env e = .value v

theorem Converges.app {env captured : List Meaning} {func arg body : Term} {ann : Option Ty}
    {a v : Meaning} (ha : Converges env arg a) (hf : Converges env func (.closure ann body captured))
    (hv : Converges (a :: captured) body v) : Converges env (.app func arg) v := by
  obtain ⟨d₁, ha⟩ := ha
  obtain ⟨d₂, hf⟩ := hf
  obtain ⟨d₃, hv⟩ := hv
  refine ⟨max d₁ (max d₂ d₃) + 1, ?_⟩
  have ha' := evaluateWithin_of_le (show d₁ ≤ max d₁ (max d₂ d₃) + 1 by omega) ha nofun
  have hf' := evaluateWithin_of_le (show d₂ ≤ max d₁ (max d₂ d₃) + 1 by omega) hf nofun
  have hv' := evaluateWithin_of_le (show d₃ ≤ max d₁ (max d₂ d₃) by omega) hv nofun
  rw [evaluateWithin] at ha' hf' ⊢
  simp only [evaluateWith, ha', hf', Answer.value_bind, hv']

theorem Converges.op {env : List Meaning} {left right : Term} {m n : Int}
    (hl : Converges env left (.int m)) (hr : Converges env right (.int n)) (o : Op) :
    Converges env (.op o left right) (.int (o.apply m n)) := by
  obtain ⟨d₁, hl⟩ := hl
  obtain ⟨d₂, hr⟩ := hr
  refine ⟨max d₁ d₂ + 1, ?_⟩
  have hl' := evaluateWithin_of_le (show d₁ ≤ max d₁ d₂ + 1 by omega) hl nofun
  have hr' := evaluateWithin_of_le (show d₂ ≤ max d₁ d₂ + 1 by omega) hr nofun
  rw [evaluateWithin] at hl' hr' ⊢
  simp only [evaluateWith, hl', hr', Answer.value_bind, operate]

theorem Converges.evaluates {e : Term} {v : Meaning} (h : Converges [] e v) :
    Evaluates e (.value v) :=
  ⟨nofun, h⟩

/-- The values of a type. Nothing inhabits a type variable. -/
def Inhabits : Ty → Meaning → Prop
  | .const name, .int _ => Ty.const name = .int
  | .const name, .const _ type => Ty.const name ≠ .int ∧ type = .const name
  | .arrow a b, .closure _ body env =>
      ∀ w, Inhabits a w → ∃ v, Converges (w :: env) body v ∧ Inhabits b v
  | _, _ => False

theorem Inhabits.exists_int {v : Meaning} (h : Inhabits .int v) : ∃ n, v = .int n := by
  cases v with
  | int n => exact ⟨n, rfl⟩
  | const name type => exact absurd rfl h.1
  | closure ann body env => exact h.elim

theorem Inhabits.exists_const {v : Meaning} {name : String} (h : Inhabits (.const name) v)
    (hne : Ty.const name ≠ .int) : ∃ c, v = .const c (.const name) := by
  cases v with
  | int n => exact absurd h hne
  | const c type => exact ⟨c, by rw [h.2]⟩
  | closure ann body env => exact h.elim

theorem Inhabits.exists_closure {v : Meaning} {a b : Ty} (h : Inhabits (.arrow a b) v) :
    ∃ ann body env, v = .closure ann body env := by
  cases v with
  | int n => exact h.elim
  | const name type => exact h.elim
  | closure ann body env => exact ⟨ann, body, env, rfl⟩

end BigStep

namespace Typing

open BigStep (Converges Inhabits)

/-- The free labels of a term have values that inhabit the types of the labels. -/
def Fits (Γ : Context) (ν : Numbering) (env : List Meaning) (e : Term) : Prop :=
  ∀ name, some name ∈ e.freeVars → ∀ t, Γ.lookup name = some t →
    ∃ v, env[ν (some name)]? = some v ∧ Inhabits t v

theorem Fits.of_subset {Γ : Context} {ν : Numbering} {env : List Meaning} {e e' : Term}
    (h : Fits Γ ν env e) (hsub : e'.freeVars ⊆ e.freeVars) : Fits Γ ν env e' :=
  fun name hname => h name (hsub hname)

theorem Fits.enter {Γ : Context} {ν : Numbering} {env : List Meaning} {name : String}
    {ann : Option Ty} {body : Term} (h : Fits Γ ν env (.lam (some name) ann body)) {a : Ty}
    {w : Meaning} (hw : Inhabits a w) :
    Fits ((name, a) :: Γ) (ν.enter (some name)) (w :: env) body := by
  intro y hy t ht
  by_cases heq : y = name
  · subst heq
    obtain rfl : a = t := by simpa [List.lookup_cons] using ht
    exact ⟨w, by simp [Numbering.enter_self], hw⟩
  · have hne : some y ≠ some name := fun h => heq (Option.some.inj h)
    rw [List.lookup_cons, beq_false_of_ne heq] at ht
    obtain ⟨v, hv, hinhabits⟩ := h y (by simp [Term.freeVars, hy, heq]) t ht
    exact ⟨v, by simpa [Numbering.enter_of_ne ν hne] using hv, hinhabits⟩

theorem HasType.converges {Γ : Context} {e : Term} {t : Ty} (h : HasType Γ e t) {p : Ty → Prop}
    (he : e.Declares p Ty.Atomic) {ν : Numbering} {env : List Meaning} (henv : Fits Γ ν env e) :
    ∃ v, Converges env (e.tree ν).term v ∧ Inhabits t v := by
  -- the environment is general, as the body of an abstraction meets every inhabitant of its domain
  induction h generalizing ν env with
  | const Γ name t =>
      obtain ⟨c, rfl, hne⟩ := he
      exact ⟨.const name (.const c), ⟨0, rfl⟩, hne, rfl⟩
  | num Γ n => exact ⟨.int n, ⟨0, rfl⟩, rfl⟩
  | @var Γ name t h =>
      obtain ⟨v, hv, hinhabits⟩ := henv name (by simp [Term.freeVars]) t h
      refine ⟨v, ⟨0, ?_⟩, hinhabits⟩
      simp only [Term.tree, Nameless.Tree.term, evaluateWithin, BigStep.evaluateWith,
        BigStep.lookup?_natCast, hv]
  | @annotated Γ name a t body h ih =>
      refine ⟨.closure (some a) (body.tree (ν.enter (some name))).term env, ⟨0, rfl⟩, ?_⟩
      intro w hw
      exact ih he.2 (henv.enter hw)
  | @unannotated Γ name a t body ha h ih =>
      refine ⟨.closure none (body.tree (ν.enter (some name))).term env, ⟨0, rfl⟩, ?_⟩
      intro w hw
      exact ih he.2 (henv.enter hw)
  | app hf ha ihf iha =>
      obtain ⟨f, hfunc, hf⟩ := ihf he.1 (henv.of_subset (List.subset_append_left _ _))
      obtain ⟨a, harg, ha⟩ := iha he.2 (henv.of_subset (List.subset_append_right _ _))
      obtain ⟨ann, body, captured, rfl⟩ := hf.exists_closure
      obtain ⟨v, hbody, hv⟩ := hf a ha
      exact ⟨v, harg.app hfunc hbody, hv⟩
  | op o hl hr ihl ihr =>
      obtain ⟨l, hleft, hl⟩ := ihl he.1 (henv.of_subset (List.subset_append_left _ _))
      obtain ⟨r, hright, hr⟩ := ihr he.2 (henv.of_subset (List.subset_append_right _ _))
      obtain ⟨m, rfl⟩ := hl.exists_int
      obtain ⟨n, rfl⟩ := hr.exists_int
      exact ⟨_, hleft.op hright o, rfl⟩

/-- A closed term that has a type evaluates to an inhabitant of it. -/
theorem HasType.evaluates {Γ : Context} {e : Term} {t : Ty} (h : HasType Γ e t) {p : Ty → Prop}
    (he : e.Declares p Ty.Atomic) (hclosed : e.freeVars = []) :
    ∃ v, BigStep.Evaluates (Nameless.closedTree e).term (.value v) ∧ Inhabits t v := by
  have henv : Fits Γ (fun _ => 0) [] e := by
    intro name hname
    simp [hclosed] at hname
  obtain ⟨v, hv, hinhabits⟩ := h.converges he henv
  exact ⟨v, hv.evaluates, hinhabits⟩

/-- The program of a closed term that has a type returns a value under all limits that are large
enough. -/
theorem run_of_infer {e : Term} (hnamed : e.Named) (hclosed : e.freeVars = [])
    (he : e.Declares Ty.Ground Ty.Atomic) {p q : Progress} {t : Ty}
    (h : infer [] e p = .ok t q) :
    ∃ nameless program value,
      Nameless.convert e = .ok nameless ∧ Code.compile nameless = .ok program ∧
      ∃ instructions dump stack : Nat, ∀ l : Machine.Limits,
        instructions ≤ l.instructions → dump ≤ l.dump → stack ≤ l.stack →
          (Machine.run l program).outcome = .ok value := by
  have hground : e.Declares Ty.Ground Ty.Ground := he.mono fun _ => Ty.Atomic.ground
  have htype : HasType [] e t := hasType_of_infer_self hnamed hground (by simp) h
  obtain ⟨v, hv, -⟩ := htype.evaluates he hclosed
  obtain ⟨s, hends, -⟩ := BigStep.ends_of_value hv
  obtain ⟨instructions, dump, stack, hrun⟩ := hends.run
  refine ⟨_, _, v.image, Nameless.convert_of_closed hnamed hclosed,
    Nameless.compile_of_closed hnamed hclosed, instructions, dump, stack, ?_⟩
  intro l hi hd hs
  rw [hrun l hi hd hs]

/-- A function that is passed to another one and called twice, behind a constant that is dropped. -/
def squaredTwice : Term :=
  .app
    (.lam (some "c") (some .bool) (.app
      (.lam (some "f") none (.app (.var (some "f")) (.app (.var (some "f")) (.num 3))))
      (.lam (some "n") none (.op .mul (.var (some "n")) (.var (some "n"))))))
    (.const "true" .bool)

theorem run_of_infer_squaredTwice :
    squaredTwice.Named ∧ squaredTwice.freeVars = [] ∧
      squaredTwice.Declares Ty.Ground Ty.Atomic ∧
      (∃ q, infer [] squaredTwice {} = .ok .int q) ∧
      ∃ nameless program value,
        Nameless.convert squaredTwice = .ok nameless ∧ Code.compile nameless = .ok program ∧
        ∃ instructions dump stack : Nat, ∀ l : Machine.Limits,
          instructions ≤ l.instructions → dump ≤ l.dump → stack ≤ l.stack →
            (Machine.run l program).outcome = .ok value := by
  have hnamed : squaredTwice.Named :=
    .app (.lam _ _ (.app (.lam _ _ (.app (.var _) (.app (.var _) (.num 3))))
      (.lam _ _ (.op .mul (.var _) (.var _))))) (.const _ _)
  have hclosed : squaredTwice.freeVars = [] := by decide
  have he : squaredTwice.Declares Ty.Ground Ty.Atomic := by
    have hbool : Ty.bool.Atomic := ⟨"Bool", rfl, by decide⟩
    simpa [squaredTwice, Term.Declares, hbool] using hbool.ground
  obtain ⟨q, hinfer⟩ : ∃ q, infer [] squaredTwice {} = .ok .int q := ⟨_, rfl⟩
  exact ⟨hnamed, hclosed, he, ⟨q, hinfer⟩, run_of_infer hnamed hclosed he hinfer⟩

end Typing

end LambdaMachine
