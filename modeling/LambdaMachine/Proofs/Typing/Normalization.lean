import LambdaMachine.Proofs.Reduction.Normalizing
import LambdaMachine.Proofs.Session.Verdict
import LambdaMachine.Proofs.Typing.Preservation

/-!
Reduction of terms that have a type comes to an end, in whatever order redexes are contracted. By
induction on types it is said which trees are computable: those of an arrow give computable results
for computable arguments, and all others need only terminate. A well-typed tree is computable, hence
it terminates, under binders and with free references too. So a term that has a type has a normal
form, and normal order reaches it.
-/

namespace LambdaMachine

open Nameless (Tree)
open Term (Numbering)

namespace Nameless.Tree

/-- No sequence of contractions goes on forever. -/
def Terminates (t : Tree) : Prop :=
  Acc (fun u t => Contracts t u) t

variable {t u : Tree}

theorem Contracts.subst (h : Contracts t u) (s : Nat → Tree) :
    Contracts (t.subst s) (u.subst s) := by
  induction h generalizing s with
  | beta ann body arg =>
      rw [subst_instantiate]
      exact .beta ann _ _
  | delta o m n => exact .delta o m n
  | abs ann _ ih => exact .abs ann (ih _)
  | appFunc arg _ ih => exact .appFunc _ (ih s)
  | appArg func _ ih => exact .appArg _ (ih s)
  | opLeft o right _ ih => exact .opLeft o _ (ih s)
  | opRight o left _ ih => exact .opRight o _ (ih s)

namespace Terminates

theorem of_map {f : Tree → Tree} (hf : ∀ a b, Contracts a b → Contracts (f a) (f b))
    (h : Terminates (f t)) : Terminates t :=
  Subrelation.accessible (fun hstep => hf _ _ hstep) (InvImage.accessible f h)

theorem of_normal (h : t.Normal) : Terminates t :=
  .intro t fun u hu => absurd hu (h u)

theorem op (o : Op) {left right : Tree} (hl : Terminates left) (hr : Terminates right) :
    Terminates (op o left right) := by
  induction hl generalizing right with
  | intro left hleft ihl =>
      induction hr with
      | intro right hright ihr =>
          refine .intro _ fun u hu => ?_
          rcases hu with _ | _ | _ | _ | _ | ⟨_, _, hstep⟩ | ⟨_, _, hstep⟩
          · exact of_normal fun v hv => by cases hv
          · exact ihl _ hstep (.intro right hright)
          · exact ihr _ hstep

theorem exists_normal (h : Terminates t) : ∃ n, Reduces t n ∧ n.Normal := by
  induction h with
  | intro t _ ih =>
      by_cases hn : t.Normal
      · exact ⟨t, .refl, hn⟩
      · obtain ⟨u, hu⟩ : ∃ u, Contracts t u := by simpa [Normal] using hn
        obtain ⟨n, hred, hn⟩ := ih u hu
        exact ⟨n, .head hu hred, hn⟩

end Terminates

/-- The computable trees of a type. -/
def Computable : Ty → Tree → Prop
  | .arrow a b, t => ∀ u, Computable a u → Computable b (app t u)
  | _, t => Terminates t

/-- What the computable trees of every type have in common: they terminate, they are closed under
contraction, and a tree that is no abstraction is among them as soon as all its contractions are. -/
structure Candidate (p : Tree → Prop) : Prop where
  terminates : ∀ {t}, p t → Terminates t
  contracts : ∀ {t u}, p t → Contracts t u → p u
  of_contracts : ∀ {t}, (∀ ann body, t ≠ abs ann body) → (∀ u, Contracts t u → p u) → p t

theorem candidate_terminates : Candidate Terminates where
  terminates := id
  contracts h hstep := h.inv hstep
  of_contracts _ h := .intro _ h

theorem Candidate.ref {p : Tree → Prop} (hp : Candidate p) (i : Nat) : p (ref i) :=
  hp.of_contracts (by simp) fun u hu => by cases hu

theorem Candidate.const {p : Tree → Prop} (hp : Candidate p) (name : String) (type : Ty) :
    p (const name type) :=
  hp.of_contracts (by simp) fun u hu => by cases hu

theorem Candidate.app {p q : Tree → Prop} (hp : Candidate p) (hq : Candidate q) {func arg : Tree}
    (harg : p arg) (hbeta : ∀ ann body arg, func = abs ann body → p arg → q (body.instantiate arg))
    (hfunc : ∀ func' arg, Contracts func func' → p arg → q (app func' arg)) : q (app func arg) := by
  have hterm := hp.terminates harg
  induction hterm with
  | intro arg _ ih =>
      refine hq.of_contracts (by simp) fun u hu => ?_
      rcases hu with ⟨ann, body, _⟩ | _ | _ | ⟨_, hstep⟩ | ⟨_, hstep⟩ | _ | _
      · exact hbeta ann body arg rfl harg
      · exact hfunc _ arg hstep harg
      · exact ih _ hstep (hp.contracts harg hstep)

theorem candidate_computable (a : Ty) : Candidate (Computable a) := by
  induction a with
  | arrow a b iha ihb =>
      refine ⟨fun {t} h => ?_, fun h hstep u hu => ihb.contracts (h u hu) (.appFunc u hstep), ?_⟩
      · have happ : Terminates (app t (ref 0)) :=
          ihb.terminates (h _ (iha.ref 0))
        exact .of_map (fun _ _ hstep => .appFunc (ref 0) hstep) happ
      · intro t hne h u hu
        exact iha.app ihb hu (fun ann body _ heq _ => absurd heq (hne ann body))
          fun func' arg hstep harg => h func' hstep arg harg
  | var id => exact candidate_terminates
  | const name => exact candidate_terminates
  | absent => exact candidate_terminates
  | foreign text => exact candidate_terminates

theorem computable_abs {a b : Ty} {ann : Option Ty} {body : Tree}
    (h : ∀ u, Computable a u → Computable b (body.instantiate u)) :
    Computable (.arrow a b) (abs ann body) := by
  have ha := candidate_computable a
  have hb := candidate_computable b
  -- a reference is computable, and contractions of the body are contractions of its instance
  have hterm : Terminates body := by
    have hinstance := hb.terminates (h (ref 0) (ha.ref 0))
    exact .of_map (fun _ _ hstep => hstep.subst _) hinstance
  induction hterm with
  | intro body _ ih =>
      intro u hu
      refine ha.app hb hu ?_ ?_
      · rintro _ _ arg ⟨⟩ harg
        exact h arg harg
      · rintro func' arg (_ | _ | ⟨_, hstep⟩) harg
        exact ih _ hstep (fun v hv => hb.contracts (h v hv) (hstep.subst _)) arg harg

namespace HasType

variable {Δ : Nat → Option Ty} {a : Ty}

/-- A tree is computable as soon as computable trees stand for its free references. -/
theorem computable (h : HasType Δ t a) {s : Nat → Tree}
    (hs : ∀ i v, Δ i = some v → Computable v (s i)) : Computable a (t.subst s) := by
  -- the substitution is general, as the body of an abstraction meets every computable argument
  induction h generalizing s with
  | ref h => exact hs _ _ h
  | const Δ name h => exact (candidate_computable _).const name _
  | num Δ n => exact .of_normal fun u hu => by cases hu
  | abs hann h ih =>
      refine computable_abs fun u hu => ?_
      rw [subst_lift_instantiate]
      apply ih
      rintro (_ | i) v hv
      · cases hv
        exact hu
      · exact hs i v hv
  | app hf ha ihf iha => exact ihf hs _ (iha hs)
  | op o hl hr ihl ihr => exact .op o (ihl hs) (ihr hs)

theorem terminates (h : HasType Δ t a) : Terminates t := by
  have hcomputable : Computable a (t.subst Tree.ref) :=
    h.computable fun i v _ => (candidate_computable v).ref i
  rw [subst_ref] at hcomputable
  exact (candidate_computable a).terminates hcomputable

end HasType

end Nameless.Tree

namespace Typing

theorem HasType.finishes {Γ : Context} {e : Term} {t : Ty} (h : HasType Γ e t) (hnamed : e.Named)
    (he : e.Declares Ty.Ground Ty.Ground) : ∃ k n, Reduction.Finishes k e n := by
  obtain ⟨ν, Δ, hnumbers⟩ := exists_numbers Γ
  have htree : Tree.HasType Δ (e.tree ν) t := (hasType_tree_iff hnamed hnumbers).mpr ⟨h, he⟩
  obtain ⟨n, hred, hn⟩ := htree.terminates.exists_normal
  obtain ⟨k, m, hfinishes, -⟩ := Reduction.exists_finishes hnamed hred hn
  exact ⟨k, m, hfinishes⟩

/-- A term that has a type is reduced to a normal form by every run with enough contractions, so a
session that allows for them has a normal form to compare the value of the machine with. -/
theorem run_reaches_normal_form {Γ : Context} {e : Term} (hnamed : e.Named)
    (he : e.Declares Ty.Ground Ty.Ground) (hΓ : ∀ b ∈ Γ, b.2.Ground) {p q : Progress} {t : Ty}
    (h : infer Γ e p = .ok t q) :
    ∃ (k : Nat) (n : Term), Reduction.Leads e n ∧ Reduction.Irreducible n ∧
      (∀ limit : Int, k ≤ limit →
        (Reduction.run limit e).stop = none ∧ (Reduction.run limit e).term = n) ∧
      ∀ (source : String) (s : Session), k ≤ s.settings.reductionLimit →
        ∃ s', Session.normalForm? source e s = .ok (some n) s' := by
  have htype : HasType Γ e t := hasType_of_infer_self hnamed he hΓ h
  obtain ⟨k, n, hfinishes⟩ := htype.finishes hnamed he
  have hleads : Reduction.Leads e n := hfinishes.leads
  refine ⟨k, n, hleads,
    Reduction.irreducible_of_step (hleads.named hnamed) hfinishes.step_eq_none, ?_, ?_⟩
  · intro limit hlimit
    rw [hfinishes.run hnamed hlimit]
    exact ⟨rfl, rfl⟩
  · intro source s hlimit
    obtain ⟨s', -, hgives⟩ := Session.gives_normalForm? source e s
    rw [Session.normalFormOf, hfinishes.run hnamed hlimit] at hgives
    exact ⟨s', hgives⟩

/-- A function that is called twice, and itself calls a function from the context. -/
def callingOut : Term :=
  .app (.lam (some "g") none (.app (.var (some "g")) (.app (.var (some "g")) (.num 2))))
    (.lam (some "x") none (.app (.var (some "f")) (.op .add (.var (some "x")) (.num 1))))

theorem run_reaches_normal_form_callingOut :
    callingOut.Named ∧ callingOut.Declares Ty.Ground Ty.Ground ∧
      (∃ q, infer [("f", .arrow .int .int)] callingOut {} = .ok .int q) ∧
      ∃ (k : Nat) (n : Term), Reduction.Leads callingOut n ∧ Reduction.Irreducible n ∧
        (∀ limit : Int, k ≤ limit → (Reduction.run limit callingOut).stop = none ∧
          (Reduction.run limit callingOut).term = n) ∧
        ∀ (source : String) (s : Session), k ≤ s.settings.reductionLimit →
          ∃ s', Session.normalForm? source callingOut s = .ok (some n) s' := by
  have hnamed : callingOut.Named :=
    .app (.lam _ _ (.app (.var _) (.app (.var _) (.num 2))))
      (.lam _ _ (.app (.var _) (.op .add (.var _) (.num 1))))
  have he : callingOut.Declares Ty.Ground Ty.Ground := by simp [callingOut, Term.Declares]
  have hΓ : ∀ b ∈ [("f", Ty.arrow .int .int)], b.2.Ground := by simp [Ty.int, Ty.Over]
  obtain ⟨q, hinfer⟩ : ∃ q, infer [("f", .arrow .int .int)] callingOut {} = .ok .int q := ⟨_, rfl⟩
  exact ⟨hnamed, he, ⟨q, hinfer⟩, run_reaches_normal_form hnamed he hΓ hinfer⟩

end Typing

end LambdaMachine
