import LambdaMachine.Proofs.Lookup
import LambdaMachine.Proofs.Ty.Unify
import LambdaMachine.Proofs.Typing.Infers
import Mathlib.Logic.Function.Basic

/-!
Principal types. The typing rules are those of the simply typed calculus; inference finds a type
whose instances are exactly the derivable types, and fails only if there are none. The types that
inference has not yet settled are read under the solutions of the bindings found so far: these are
the solutions of the bindings before, cut down by what the term demands.
-/

namespace LambdaMachine

/-- Every annotation in a term satisfies `p`, and every declared type of a constant `q`. -/
def Term.Declares (p q : Ty → Prop) : Term → Prop
  | .const _ type => q type
  | .lam _ ann body => (∀ a, ann = some a → p a) ∧ body.Declares p q
  | .app func arg => func.Declares p q ∧ arg.Declares p q
  | .op _ left right => left.Declares p q ∧ right.Declares p q
  | _ => True

theorem Term.Declares.mono {p q q' : Ty → Prop} (hq : ∀ t, q t → q' t) {e : Term}
    (h : e.Declares p q) : e.Declares p q' := by
  induction e with
  | const name type => exact hq type h
  | lam param ann body ih => exact ⟨h.1, ih h.2⟩
  | app func arg ihf iha => exact ⟨ihf h.1, iha h.2⟩
  | op o left right ihl ihr => exact ⟨ihl h.1, ihr h.2⟩
  | var label => trivial
  | idx i label => trivial
  | num n => trivial
  | foreign text => trivial

namespace Typing

open Ty (Substitution)
open Ty.Substitution (Solves)

/-- The types of a term in a context. A parameter shadows the names outside; without an annotation
it may have any type. -/
inductive HasType : Context → Term → Ty → Prop where
  | const (Γ : Context) (name : String) (t : Ty) : HasType Γ (.const name t) t
  | num (Γ : Context) (n : Int) : HasType Γ (.num n) .int
  | var {Γ : Context} {name : String} {t : Ty} (h : Γ.lookup name = some t) :
      HasType Γ (.var (some name)) t
  | annotated {Γ : Context} {name : String} {a t : Ty} {body : Term}
      (h : HasType ((name, a) :: Γ) body t) :
      HasType Γ (.lam (some name) (some a) body) (.arrow a t)
  | unannotated {Γ : Context} {name : String} {a t : Ty} {body : Term} (ha : a.Proper)
      (h : HasType ((name, a) :: Γ) body t) : HasType Γ (.lam (some name) none body) (.arrow a t)
  | app {Γ : Context} {func arg : Term} {a t : Ty} (hf : HasType Γ func (.arrow a t))
      (ha : HasType Γ arg a) : HasType Γ (.app func arg) t
  | op {Γ : Context} (o : Op) {left right : Term} (hl : HasType Γ left .int)
      (hr : HasType Γ right .int) : HasType Γ (.op o left right) .int

/-- A context under an assignment of types to type variables. -/
def Context.mapVars (f : Int → Ty) (Γ : Context) : Context :=
  List.map (fun b => (b.1, b.2.mapVars f)) Γ

theorem Context.lookup_mapVars (f : Int → Ty) (Γ : Context) (name : String) :
    List.lookup name (Γ.mapVars f) = (List.lookup name Γ).map (Ty.mapVars f) := by
  induction Γ with
  | nil => rfl
  | cons b Γ ih =>
      obtain ⟨x, t⟩ := b
      simp only [Context.mapVars, List.map_cons, List.lookup_cons] at ih ⊢
      cases name == x with
      | true => rfl
      | false => exact ih

theorem Context.mapVars_congr {f g : Int → Ty} {Γ : Context} {p : Int → Prop}
    (hΓ : ∀ b ∈ Γ, b.2.Over p) (hfg : ∀ i, p i → f i = g i) : Γ.mapVars f = Γ.mapVars g := by
  apply List.map_congr_left
  intro b hb
  rw [(hΓ b hb).mapVars_congr hfg]

/-- Every type in a context is about variables below `n`. -/
def Context.Below (n : Int) (Γ : Context) : Prop :=
  ∀ b ∈ Γ, b.2.Below n

theorem Context.Below.mono {Γ : Context} {m n : Int} (h : Γ.Below m) (hle : m ≤ n) : Γ.Below n :=
  fun b hb => (h b hb).mono hle

theorem Context.Below.cons {Γ : Context} {n : Int} (h : Γ.Below n) {t : Ty} (ht : t.Below n)
    (name : String) : Context.Below n ((name, t) :: Γ) :=
  List.forall_mem_cons.mpr ⟨ht, h⟩

theorem Context.Below.fresh {Γ : Context} {n : Int} (h : Γ.Below n) (name : String) :
    Context.Below (n + 1) ((name, .var n) :: Γ) := by
  have hnext : n < n + 1 := by omega
  have hvar : (Ty.var n).Below (n + 1) := hnext
  exact (h.mono hnext.le).cons hvar name

/-- Bindings are acyclic, and about type variables that have been handed out. -/
structure Progress.Sound (p : Progress) : Prop where
  acyclic : p.bindings.Acyclic
  within : p.bindings.Within (Ty.Below p.next)

theorem Progress.Sound.raise {p : Progress} (hp : p.Sound) {n : Int} (hn : p.next ≤ n) :
    Progress.Sound { p with next := n } :=
  ⟨hp.acyclic, fun i t hi =>
    ⟨Ty.Below.mono (hp.within i t hi).1 hn, Ty.Below.mono (hp.within i t hi).2 hn⟩⟩

theorem Progress.Sound.proper {p : Progress} (hp : p.Sound) : p.bindings.Within Ty.Proper :=
  fun i t hi => ⟨Ty.Below.proper (hp.within i t hi).1, Ty.Below.proper (hp.within i t hi).2⟩

theorem Progress.Sound.unify {p : Progress} (hp : p.Sound) {l r : Ty} {s : Substitution}
    (hl : l.Below p.next) (hr : r.Below p.next) (h : Ty.unify l r p.bindings = .ok () s) :
    Progress.Sound { p with bindings := s } :=
  ⟨(Ty.solves_of_unify hp.acyclic h).1, Ty.within_of_unify (fun _ _ => id) h hp.within hl hr⟩

theorem below_int (n : Int) : Ty.int.Below n :=
  trivial

theorem Infers.sound {Γ : Context} {e : Term} {p q : Progress} {t : Ty} (h : Infers Γ e p t q)
    (he : e.Declares Ty.Ground Ty.Ground) (hp : p.Sound) (hΓ : Γ.Below p.next) :
    q.Sound ∧ p.next ≤ q.next ∧ t.Below q.next := by
  induction h with
  | const name t p => exact ⟨hp, le_rfl, Ty.Ground.over he _⟩
  | num n p => exact ⟨hp, le_rfl, trivial⟩
  | var p h => exact ⟨hp, le_rfl, hΓ _ (mem_of_lookup h)⟩
  | idx i p h => exact ⟨hp, le_rfl, hΓ _ (mem_of_lookup h)⟩
  | @annotated Γ name a t body p q h ih =>
      have ha : a.Ground := he.1 a rfl
      obtain ⟨hq, hle, ht⟩ := ih he.2 hp (hΓ.cons (ha.over _) name)
      exact ⟨hq, hle, ha.over _, ht⟩
  | @unannotated Γ name t body p q h ih =>
      have hnext : p.next < p.next + 1 := by omega
      obtain ⟨hq, hle, ht⟩ := ih he.2 (hp.raise hnext.le) (hΓ.fresh name)
      have hlt : p.next < q.next := lt_of_lt_of_le hnext hle
      exact ⟨hq, hlt.le, hlt, ht⟩
  | @app Γ func arg f a p q r s hf ha h ihf iha =>
      obtain ⟨hq, hle, hfun⟩ := ihf he.1 hp hΓ
      obtain ⟨hr, hle', harg⟩ := iha he.2 hq (hΓ.mono hle)
      have hnext : r.next < r.next + 1 := by omega
      have hs : Progress.Sound ⟨r.next + 1, s⟩ := by
        refine (hr.raise hnext.le).unify ?_ ?_ h
        · exact hfun.mono (hle'.trans hnext.le)
        · exact ⟨harg.mono hnext.le, hnext⟩
      exact ⟨hs, by dsimp only; omega, hs.within.resolve hnext⟩
  | @op Γ o left right l m p q r s s' hl h hr h' ihl ihr =>
      obtain ⟨hq, hle, hleft⟩ := ihl he.1 hp hΓ
      have hs := hq.unify hleft (below_int _) h
      obtain ⟨hr, hle', hright⟩ := ihr he.2 hs (hΓ.mono hle)
      exact ⟨hr.unify hright (below_int _) h', hle.trans hle', trivial⟩

/-- Whatever solves the bindings at the end of inference solves those at its start, and makes the
type found a type of the term. -/
theorem Infers.hasType {Γ : Context} {e : Term} {p q : Progress} {t : Ty} (h : Infers Γ e p t q)
    (hnamed : e.Named) (he : e.Declares Ty.Ground Ty.Ground) (hp : p.Sound)
    (hΓ : Γ.Below p.next) {f : Int → Ty} (hproper : ∀ i, (f i).Proper)
    (hf : Solves f q.bindings) :
    Solves f p.bindings ∧ HasType (Γ.mapVars f) e (t.mapVars f) := by
  induction h with
  | const name t p =>
      rw [Ty.Ground.mapVars he]
      exact ⟨hf, .const _ name t⟩
  | num n p => exact ⟨hf, .num _ n⟩
  | var p h =>
      refine ⟨hf, .var ?_⟩
      rw [Context.lookup_mapVars, h]
      rfl
  | idx i p h => cases hnamed
  | @annotated Γ name a t body p q h ih =>
      obtain _ | _ | _ | ⟨_, _, hbody⟩ := hnamed
      have ha : a.Ground := he.1 a rfl
      obtain ⟨hsolves, htype⟩ :=
        ih hbody he.2 hp (hΓ.cons (ha.over _) name) hf
      refine ⟨hsolves, ?_⟩
      rw [Ty.mapVars, ha.mapVars]
      apply HasType.annotated
      rw [Context.mapVars, List.map_cons, ha.mapVars] at htype
      exact htype
  | @unannotated Γ name t body p q h ih =>
      obtain _ | _ | _ | ⟨_, _, hbody⟩ := hnamed
      have hnext : p.next < p.next + 1 := by omega
      obtain ⟨hsolves, htype⟩ := ih hbody he.2 (hp.raise hnext.le) (hΓ.fresh name) hf
      exact ⟨hsolves, .unannotated (hproper p.next) htype⟩
  | @app Γ func arg u a p q r s hfunc harg h ihf iha =>
      obtain _ | _ | _ | _ | ⟨hnf, hna⟩ := hnamed
      obtain ⟨hq, hle, -⟩ := hfunc.sound he.1 hp hΓ
      have hΓ' : Γ.Below q.next := hΓ.mono hle
      obtain ⟨hr, -, -⟩ := harg.sound he.2 hq hΓ'
      obtain ⟨hsolves, heq⟩ := ((Ty.solves_of_unify hr.acyclic h).2 f).mp hf
      obtain ⟨hsolves, htypea⟩ := iha hna he.2 hq hΓ' hsolves
      obtain ⟨hsolves, htypef⟩ := ihf hnf he.1 hp hΓ hsolves
      refine ⟨hsolves, ?_⟩
      rw [hf.mapVars_resolve]
      rw [heq] at htypef
      exact .app htypef htypea
  | @op Γ o left right l m p q r s s' hleft h hright h' ihl ihr =>
      obtain _ | _ | _ | _ | _ | ⟨_, hnl, hnr⟩ := hnamed
      obtain ⟨hq, hle, hbelow⟩ := hleft.sound he.1 hp hΓ
      have hΓ' : Γ.Below q.next := hΓ.mono hle
      have hs := hq.unify hbelow (below_int _) h
      obtain ⟨hr, -, -⟩ := hright.sound he.2 hs hΓ'
      obtain ⟨hsolves, heqr⟩ := ((Ty.solves_of_unify hr.acyclic h').2 f).mp hf
      obtain ⟨hsolves, htyper⟩ := ihr hnr he.2 hs hΓ' hsolves
      obtain ⟨hsolves, heql⟩ := ((Ty.solves_of_unify hq.acyclic h).2 f).mp hsolves
      obtain ⟨hsolves, htypel⟩ := ihl hnl he.1 hp hΓ hsolves
      rw [heqr] at htyper
      rw [heql] at htypel
      exact ⟨hsolves, .op o htypel htyper⟩

theorem HasType.proper {Γ : Context} {e : Term} {t : Ty} (h : HasType Γ e t)
    (he : e.Declares Ty.Ground Ty.Ground) (hΓ : ∀ b ∈ Γ, b.2.Proper) : t.Proper := by
  induction h with
  | const Γ name t => exact Ty.Ground.over he _
  | num Γ n => trivial
  | var h => exact hΓ _ (mem_of_lookup h)
  | annotated _ ih =>
      have ha := (he.1 _ rfl).over fun _ => True
      exact ⟨ha, ih he.2 (List.forall_mem_cons.mpr ⟨ha, hΓ⟩)⟩
  | unannotated ha _ ih => exact ⟨ha, ih he.2 (List.forall_mem_cons.mpr ⟨ha, hΓ⟩)⟩
  | app _ _ ihf _ => exact (ihf he.1 hΓ).2
  | op o _ _ _ _ => trivial

theorem Progress.Sound.solves_congr {p : Progress} (hp : p.Sound) {f g : Int → Ty}
    (hf : Solves f p.bindings) (hfg : ∀ i, i < p.next → f i = g i) : Solves g p.bindings := by
  intro i t hi
  obtain ⟨hbelow, hbelow'⟩ := hp.within i t hi
  rw [← hfg i hbelow, hf i t hi, hbelow'.mapVars_congr hfg]

theorem Context.Below.proper_mapVars {Γ : Context} {n : Int} (hΓ : Γ.Below n) {f : Int → Ty}
    (hf : ∀ i, (f i).Proper) : ∀ b ∈ Γ.mapVars f, b.2.Proper := by
  intro b hb
  obtain ⟨c, hc, rfl⟩ := List.mem_map.mp hb
  exact (hΓ c hc).mapVars fun i _ => hf i

theorem exists_update {n : Int} {f : Int → Ty} (hf : ∀ i, (f i).Proper) {t : Ty} (ht : t.Proper) :
    ∃ g : Int → Ty, (∀ i, i < n → f i = g i) ∧ (∀ i, (g i).Proper) ∧ g n = t := by
  refine ⟨Function.update f n t, ?_, ?_, Function.update_self n t f⟩
  · intro i hi
    rw [Function.update_of_ne hi.ne]
  · intro i
    by_cases hi : i = n
    · rw [hi, Function.update_self]
      exact ht
    · rw [Function.update_of_ne hi]
      exact hf i

theorem exists_unify_result {p : Progress} (hp : p.Sound) {t a u : Ty} (ht : t.Below p.next)
    (ha : a.Below p.next) {f : Int → Ty} (hproper : ∀ i, (f i).Proper) (hf : Solves f p.bindings)
    (hu : u.Proper) (heq : t.mapVars f = .arrow (a.mapVars f) u) :
    ∃ s g, Ty.unify t (.arrow a (.var p.next)) p.bindings = .ok () s ∧
      (∀ i, i < p.next → f i = g i) ∧ (∀ i, (g i).Proper) ∧ Solves g s ∧ g p.next = u := by
  obtain ⟨g, hfg, hg, rfl⟩ := exists_update (n := p.next) hproper hu
  have hunify : t.mapVars g = (Ty.arrow a (.var p.next)).mapVars g := by
    rw [← ht.mapVars_congr hfg, heq, ha.mapVars_congr hfg]
    rfl
  have hright : (Ty.arrow a (.var p.next)).Proper := ⟨ha.proper, trivial⟩
  obtain ⟨s, hs, hsolves⟩ := Ty.unify_of_solves hp.acyclic hp.proper ht.proper hright
    (hp.solves_congr hf hfg) hunify
  exact ⟨s, g, hs, hfg, hg, hsolves, rfl⟩

/-- Inference succeeds on a term that has a type under some solution of the bindings found so far,
and the solution extends to one under which the type found is that type. -/
theorem exists_infers {e : Term} (hnamed : e.Named) (he : e.Declares Ty.Ground Ty.Ground)
    {Γ : Context} {p : Progress} (hp : p.Sound) (hΓ : Γ.Below p.next) {f : Int → Ty}
    (hproper : ∀ i, (f i).Proper) (hf : Solves f p.bindings) {u : Ty}
    (h : HasType (Γ.mapVars f) e u) :
    ∃ t q g, Infers Γ e p t q ∧ (∀ i, i < p.next → f i = g i) ∧ (∀ i, (g i).Proper) ∧
      Solves g q.bindings ∧ t.mapVars g = u := by
  -- the solution is passed on from one part of the term to the next, and each part may only change
  -- it at the variables that are issued there
  induction hnamed generalizing Γ p f u with
  | var name =>
      obtain _ | _ | h := h
      rw [Context.lookup_mapVars] at h
      obtain ⟨t, ht, rfl⟩ := Option.map_eq_some_iff.mp h
      exact ⟨t, p, f, .var p ht, fun _ _ => rfl, hproper, hf, rfl⟩
  | const name t =>
      cases h
      exact ⟨t, p, f, .const name t p, fun _ _ => rfl, hproper, hf, Ty.Ground.mapVars he f⟩
  | num n =>
      cases h
      exact ⟨.int, p, f, .num n p, fun _ _ => rfl, hproper, hf, rfl⟩
  | lam name ann hbody ih =>
      cases h with
      | @annotated _ _ a t _ h =>
          have ha : a.Ground := he.1 a rfl
          have hcontext : Context.mapVars f ((name, a) :: Γ) = (name, a) :: Γ.mapVars f := by
            rw [Context.mapVars, List.map_cons, ha.mapVars]
            rfl
          rw [← hcontext] at h
          obtain ⟨t, q, g, hinfers, hfg, hg, hsolves, rfl⟩ :=
            ih he.2 hp (hΓ.cons (ha.over _) name) hproper hf h
          refine ⟨.arrow a t, q, g, .annotated hinfers, hfg, hg, hsolves, ?_⟩
          rw [Ty.mapVars, ha.mapVars]
      | @unannotated _ _ a t _ ha h =>
          obtain ⟨f', hff', hf', rfl⟩ := exists_update (n := p.next) hproper ha
          have hnext : p.next < p.next + 1 := by omega
          have hcontext : Context.mapVars f' ((name, .var p.next) :: Γ) =
              (name, f' p.next) :: Γ.mapVars f := by
            rw [Context.mapVars_congr hΓ hff']
            rfl
          rw [← hcontext] at h
          obtain ⟨t, q, g, hinfers, hfg, hg, hsolves, rfl⟩ :=
            ih he.2 (hp.raise hnext.le) (hΓ.fresh name) hf' (hp.solves_congr hf hff') h
          refine ⟨.arrow (.var p.next) t, q, g, .unannotated hinfers, ?_, hg, hsolves, ?_⟩
          · intro i hi
            exact (hff' i hi).trans (hfg i (hi.trans hnext))
          · rw [Ty.mapVars, Ty.mapVars, hfg p.next hnext]
  | app hnf hna ihf iha =>
      obtain _ | _ | _ | _ | _ | ⟨htypef, htypea⟩ := h
      obtain ⟨t, q, f₁, hfunc, hf₁, hproper₁, hsolves₁, heq⟩ := ihf he.1 hp hΓ hproper hf htypef
      obtain ⟨hq, hle, ht⟩ := hfunc.sound he.1 hp hΓ
      have hΓ' : Γ.Below q.next := hΓ.mono hle
      rw [Context.mapVars_congr hΓ hf₁] at htypea
      obtain ⟨a, r, f₂, harg, hf₂, hproper₂, hsolves₂, rfl⟩ :=
        iha he.2 hq hΓ' hproper₁ hsolves₁ htypea
      obtain ⟨hr, hle', ha⟩ := harg.sound he.2 hq hΓ'
      have hu : u.Proper := (htypef.proper he.1 (hΓ.proper_mapVars hproper)).2
      rw [ht.mapVars_congr hf₂] at heq
      obtain ⟨s, f₃, hs, hf₃, hproper₃, hsolves₃, rfl⟩ :=
        exists_unify_result hr (ht.mono hle') ha hproper₂ hsolves₂ hu heq
      refine ⟨_, _, f₃, .app hfunc harg hs, ?_, hproper₃, hsolves₃, hsolves₃.mapVars_resolve _⟩
      intro i hi
      exact (hf₁ i hi).trans ((hf₂ i (by omega)).trans (hf₃ i (by omega)))
  | op o hnl hnr ihl ihr =>
      obtain _ | _ | _ | _ | _ | _ | ⟨_, htypel, htyper⟩ := h
      obtain ⟨l, q, f₁, hleft, hf₁, hproper₁, hsolves₁, heql⟩ := ihl he.1 hp hΓ hproper hf htypel
      obtain ⟨hq, hle, hl⟩ := hleft.sound he.1 hp hΓ
      obtain ⟨s, hs, hsolves₁⟩ :=
        Ty.unify_of_solves (r := .int) hq.acyclic hq.proper hl.proper trivial hsolves₁ heql
      have hsound := hq.unify hl (below_int _) hs
      rw [Context.mapVars_congr hΓ hf₁] at htyper
      obtain ⟨m, r, f₂, hright, hf₂, hproper₂, hsolves₂, heqr⟩ :=
        ihr he.2 hsound (hΓ.mono hle) hproper₁ hsolves₁ htyper
      obtain ⟨hr, hle', hm⟩ := hright.sound he.2 hsound (hΓ.mono hle)
      obtain ⟨s', hs', hsolves₂⟩ :=
        Ty.unify_of_solves (r := .int) hr.acyclic hr.proper hm.proper trivial hsolves₂ heqr
      refine ⟨_, _, f₂, .op o hleft hs hright hs', ?_, hproper₂, hsolves₂, rfl⟩
      intro i hi
      exact (hf₁ i hi).trans (hf₂ i (by dsimp only at hle ⊢; omega))

theorem sound_start (n : Int) : Progress.Sound ⟨n, {}⟩ :=
  ⟨Ty.Substitution.acyclic_empty, fun _ _ hi => by cases hi⟩

section Ground

variable {Γ : Context} {e : Term} (hnamed : e.Named) (he : e.Declares Ty.Ground Ty.Ground)
  (hΓ : ∀ b ∈ Γ, b.2.Ground)

include hΓ in
theorem Context.mapVars_of_ground (f : Int → Ty) : Γ.mapVars f = Γ := by
  rw [Context.mapVars_congr hΓ (fun _ => False.elim : ∀ i, False → f i = .var i)]
  simp [Context.mapVars]

include hnamed he hΓ in
theorem hasType_of_infer {p q : Progress} {t : Ty} (h : infer Γ e p = .ok t q) {f : Int → Ty}
    (hf : ∀ i, (f i).Proper) : HasType Γ e (t.mapVars f) := by
  have hbelow : Γ.Below p.next := fun b hb => (hΓ b hb).over _
  obtain ⟨u, hu, rfl⟩ := infer_eq_ok_iff.mp h
  obtain ⟨hq, -, -⟩ := hu.sound he (sound_start p.next) hbelow
  have hsolves := hq.acyclic.solves_solution.comp f
  have hproper : ∀ i, ((q.bindings.solution i).mapVars f).Proper := by
    intro i
    exact (hq.proper.apply_over (t := .var i) trivial).mapVars fun j _ => hf j
  have htype := (hu.hasType hnamed he (sound_start p.next) hbelow hproper hsolves).2
  rw [Context.mapVars_of_ground hΓ, ← Ty.mapVars_mapVars, ← hq.acyclic.apply_eq_mapVars] at htype
  exact htype

include hnamed he hΓ in
theorem hasType_of_infer_self {p q : Progress} {t : Ty} (h : infer Γ e p = .ok t q) :
    HasType Γ e t := by
  have hvar : ∀ i, (Ty.var i).Proper := fun _ => trivial
  have hself := hasType_of_infer hnamed he hΓ h hvar
  rwa [Ty.mapVars_var] at hself

include hnamed he hΓ in
theorem exists_infer {u : Ty} (h : HasType Γ e u) (p : Progress) :
    ∃ t q, infer Γ e p = .ok t q ∧ ∃ f : Int → Ty, (∀ i, (f i).Proper) ∧ u = t.mapVars f := by
  have hbelow : Γ.Below p.next := fun b hb => (hΓ b hb).over _
  have hvar : ∀ i, (Ty.var i).Proper := fun _ => trivial
  rw [← Context.mapVars_of_ground hΓ .var] at h
  obtain ⟨t, q, g, hinfers, -, hg, hsolves, rfl⟩ :=
    exists_infers hnamed he (sound_start p.next) hbelow hvar (fun _ _ => nofun) h
  exact ⟨_, q, infer_eq_ok_iff.mpr ⟨t, hinfers, rfl⟩, g, hg, (hsolves.mapVars_apply t).symm⟩

end Ground

/-- Inference computes principal types: it succeeds exactly on the terms that have a type, and the
types of a term are then the instances of the type that is found. -/
theorem principal_typing {Γ : Context} {e : Term} (hnamed : e.Named)
    (he : e.Declares Ty.Ground Ty.Ground) (hΓ : ∀ b ∈ Γ, b.2.Ground) (p : Progress) :
    ((∃ t q, infer Γ e p = .ok t q) ↔ ∃ u, HasType Γ e u) ∧
    ∀ t q, infer Γ e p = .ok t q →
      ∀ u, HasType Γ e u ↔ ∃ f : Int → Ty, (∀ i, (f i).Proper) ∧ u = t.mapVars f := by
  refine ⟨⟨?_, ?_⟩, ?_⟩
  · rintro ⟨t, q, hinfer⟩
    have hvar : ∀ i, (Ty.var i).Proper := fun _ => trivial
    exact ⟨_, hasType_of_infer hnamed he hΓ hinfer hvar⟩
  · rintro ⟨u, hu⟩
    obtain ⟨t, q, hinfer, -⟩ := exists_infer hnamed he hΓ hu p
    exact ⟨t, q, hinfer⟩
  · intro t q hinfer u
    constructor
    · intro hu
      obtain ⟨t', q', hinfer', hinstance⟩ := exists_infer hnamed he hΓ hu p
      rw [hinfer] at hinfer'
      cases hinfer'
      exact hinstance
    · rintro ⟨f, hf, rfl⟩
      exact hasType_of_infer hnamed he hΓ hinfer hf

/-- A function that is called with the sum of its argument and a name in scope. -/
def shifted : Term :=
  .lam (some "f") none (.lam (some "x") none
    (.app (.var (some "f")) (.op .add (.var (some "x")) (.var (some "k")))))

theorem principal_typing_shifted :
    shifted.Named ∧ shifted.Declares Ty.Ground Ty.Ground ∧
      (∀ b ∈ [("k", Ty.int)], b.2.Ground) ∧
      (∃ q, infer [("k", .int)] shifted { next := 5 } =
        .ok (.arrow (.arrow .int (.var 7)) (.arrow .int (.var 7))) q) ∧
      ∀ u, HasType [("k", .int)] shifted u ↔ ∃ f : Int → Ty, (∀ i, (f i).Proper) ∧
        u = .arrow (.arrow .int (f 7)) (.arrow .int (f 7)) := by
  have hnamed : shifted.Named :=
    .lam _ _ (.lam _ _ (.app (.var _) (.op .add (.var _) (.var _))))
  have he : shifted.Declares Ty.Ground Ty.Ground := by simp [shifted, Term.Declares]
  have hΓ : ∀ b ∈ [("k", Ty.int)], b.2.Ground := by simp [Ty.int, Ty.Over]
  have hinfer : infer [("k", .int)] shifted { next := 5 } =
      .ok (.arrow (.arrow .int (.var 7)) (.arrow .int (.var 7)))
        ⟨8, ⟨[(6, .int), (5, .arrow .int (.var 7))]⟩⟩ := by rfl
  exact ⟨hnamed, he, hΓ, ⟨_, hinfer⟩, (principal_typing hnamed he hΓ { next := 5 }).2 _ _ hinfer⟩

end Typing

end LambdaMachine
