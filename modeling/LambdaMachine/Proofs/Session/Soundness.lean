import LambdaMachine.Proofs.Session.Agreement
import LambdaMachine.Proofs.Source.Reading
import LambdaMachine.Proofs.Typing.Totality

namespace LambdaMachine

open BigStep (Meaning Inhabits)
open Nameless (closedTree)
open Report (Signal Diagnostic)
open Source (Readable Constants)
open Typing (HasType Context)

section Reading

variable {constants : Constants} {bound : List String} {e : Term}

theorem Source.Readable.declares {q : Ty → Prop} (h : Readable constants bound e)
    (hconstants : ∀ b ∈ constants, q b.2) : e.Declares Ty.Ground q := by
  induction h with
  | num bound n => trivial
  | const h hbound => exact hconstants _ (mem_of_lookup h)
  | var h => trivial
  | lam hann h ih => exact ⟨hann, ih⟩
  | app hf ha ihf iha => exact ⟨ihf, iha⟩
  | op o hl hr ihl ihr => exact ⟨ihl, ihr⟩

theorem lookup_of_under {Γ : Context} {name : String} {a : Ty} {ann : Option Ty} {body : Term}
    {label : Label} (hlabel : label ∈ (Term.lam (some name) ann body).freeVars)
    (h : label ∈ body.freeVars →
      ∃ y u, label = some y ∧ List.lookup y ((name, a) :: Γ) = some u) :
    ∃ y u, label = some y ∧ Γ.lookup y = some u := by
  simp only [Term.freeVars, List.mem_filter, decide_eq_true_eq] at hlabel
  obtain ⟨y, u, rfl, hu⟩ := h hlabel.1
  have hne : y ≠ name := fun heq => hlabel.2 (congrArg some heq)
  rw [List.lookup_cons, beq_false_of_ne hne] at hu
  exact ⟨y, u, rfl, hu⟩

theorem Typing.HasType.lookup_of_free {Γ : Context} {t : Ty} (h : HasType Γ e t) {label : Label}
    (hlabel : label ∈ e.freeVars) : ∃ name u, label = some name ∧ Γ.lookup name = some u := by
  induction h with
  | const Γ name t => cases hlabel
  | num Γ n => cases hlabel
  | @var Γ name t h => exact ⟨name, t, by simpa [Term.freeVars] using hlabel, h⟩
  | annotated h ih => exact lookup_of_under hlabel ih
  | unannotated ha h ih => exact lookup_of_under hlabel ih
  | app hf ha ihf iha =>
      rcases List.mem_append.mp hlabel with hlabel | hlabel
      · exact ihf hlabel
      · exact iha hlabel
  | op o hl hr ihl ihr =>
      rcases List.mem_append.mp hlabel with hlabel | hlabel
      · exact ihl hlabel
      · exact ihr hlabel

theorem Source.Readable.closed (h : Readable constants [] e) {t : Ty} (ht : HasType constants e t) :
    e.freeVars = [] := by
  rw [List.eq_nil_iff_forall_not_mem]
  intro label hlabel
  obtain ⟨name, u, rfl, hu⟩ := ht.lookup_of_free hlabel
  rcases h.free hlabel with hnone | hbound
  · rw [hnone] at hu
    cases hu
  · cases hbound

end Reading

namespace Session

/-- A value has the form that a type demands: a number, a constant of that type, or a closure. -/
inductive Suits : Ty → Value → Prop where
  | int (n : Int) : Suits .int (.int n)
  | const {c : String} (h : Ty.const c ≠ .int) (name : String) :
      Suits (.const c) (.const name (.const c))
  | closure (a b : Ty) (code : List Instr) (env : List Value) :
      Suits (.arrow a b) (.closure code env)

theorem suits_of_inhabits {t : Ty} {v : Meaning} (h : Inhabits t v) : Suits t v.image := by
  cases t with
  | const c =>
      by_cases hc : Ty.const c = .int
      · rw [hc] at h ⊢
        obtain ⟨n, rfl⟩ := h.exists_int
        exact .int n
      · obtain ⟨name, rfl⟩ := h.exists_const hc
        exact .const hc name
  | arrow a b =>
      obtain ⟨ann, body, env, rfl⟩ := h.exists_closure
      exact .closure a b _ _
  | var i => exact h.elim
  | absent => exact h.elim
  | foreign text => exact h.elim

theorem exists_comparand {e : Term} (he : e.Named) (settings : Settings) :
    ∃ normalForm, comparand settings e = .ok normalForm := by
  unfold comparand normalFormOf
  split
  · obtain ⟨-, ⟨hstop, -⟩ | hstop⟩ :=
      Reduction.runFrom_of_named he 0 {e} settings.reductionLimit.toNat
    · exact ⟨_, by rw [Reduction.run, hstop]⟩
    · exact ⟨none, by rw [Reduction.run, hstop]⟩
  · exact ⟨none, rfl⟩

theorem valueOf_cases {e : Term} (he : e.Named) (hclosed : e.freeVars = []) {v : Meaning}
    (hv : BigStep.Evaluates (closedTree e).term (.value v)) {limit : StepLimit}
    (hlimit : limit ≠ .empty) :
    valueOf limit (Code.emit (closedTree e).term) = .ok v.image ∨
      ∃ resource n, valueOf limit (Code.emit (closedTree e).term) =
        .error (.problem (.exhausted resource n)) := by
  have hscoped : Code.Scoped 0 (closedTree e).term := Nameless.scoped_tree he (by simp [hclosed])
  obtain ⟨l, hl⟩ : ∃ l, limits? limit = some l := by
    cases limit with
    | usual => exact ⟨_, rfl⟩
    | count n => exact ⟨_, rfl⟩
    | empty => exact absurd rfl hlimit
  simp only [valueOf, hl]
  rcases BigStep.run_emit_cases hscoped l with ⟨r, n, hex⟩ | ⟨w, hw, hok⟩ | ⟨i, w, hw, -⟩
  · rw [hex]
    exact .inr ⟨r.text, n, rfl⟩
  · rw [hok]
    cases hw.unique hv
    exact .inl rfl
  · cases hw.unique hv

/-- A closed term that has a type and a value is evaluated to that value, unless a limit is
reached. -/
theorem verdict_cases {e : Term} (he : e.Named) (hclosed : e.freeVars = []) {settings : Settings}
    {next : Int} {t : Ty} (htype : typeOf settings.constants next e = .ok t) {v : Meaning}
    (hv : BigStep.Evaluates (closedTree e).term (.value v))
    (hlimit : settings.stepLimit ≠ .empty) (source : String) :
    (∃ evaluation, verdict settings next source e = .ok evaluation ∧
      evaluation.value = v.image) ∨
    ∃ resource n, verdict settings next source e = .error (.problem (.exhausted resource n)) := by
  have hprogram : programOf e = .ok (Code.emit (closedTree e).term) := by
    simp only [programOf, Nameless.convert_of_closed he hclosed,
      Nameless.compile_of_closed he hclosed]
  obtain ⟨normalForm, hnormal⟩ := exists_comparand he settings
  rcases valueOf_cases he hclosed hv hlimit with hvalue | ⟨resource, n, hvalue⟩
  · left
    have hcheck := crossCheck_of_stages source htype hprogram hvalue hnormal
    refine ⟨⟨source, e, t, Code.emit (closedTree e).term, v.image, normalForm⟩, ?_, rfl⟩
    simp only [verdict, htype, hprogram, hvalue, hnormal, hcheck, bind, Except.bind, pure,
      Except.pure]
  · right
    refine ⟨resource, n, ?_⟩
    simp only [verdict, htype, hprogram, hvalue, bind, Except.bind]

/-- Evaluation is sound: a text that can be read, and whose term has a type, evaluates to a value of
the form that the type demands, unless a limit is reached. The type is not a bare variable. -/
theorem evaluate_of_infer {constants : Constants} (hconstants : ∀ b ∈ constants, b.2.Atomic)
    {text : String} {e : Term} (hread : Source.read constants text = .ok e)
    {p q : Typing.Progress} {t : Ty} (hinfer : Typing.infer constants e p = .ok t q)
    {s : Session} (hs : s.settings.constants = constants)
    (hlimit : s.settings.stepLimit ≠ .empty) :
    (∀ i, t ≠ .var i) ∧
    ((∃ evaluation s', evaluate text e s = .ok evaluation s' ∧ Suits t evaluation.value) ∨
      ∃ d s' resource limit, evaluate text e s = .error (.problem d) s' ∧
        d.problem = .exhausted resource limit) := by
  have hreadable := Source.readable_of_read hread
  have he : e.Named := hreadable.named
  have hdeclares := hreadable.declares hconstants
  have hground : e.Declares Ty.Ground Ty.Ground := hdeclares.mono fun _ => Ty.Atomic.ground
  have hcontext : ∀ b ∈ constants, b.2.Ground := fun b hb => (hconstants b hb).ground
  have htype : HasType constants e t := by
    have hvar : ∀ i, (Ty.var i).Proper := fun _ => trivial
    have hself := Typing.hasType_of_infer he hground hcontext hinfer hvar
    rwa [Ty.mapVars_var] at hself
  have hclosed : e.freeVars = [] := hreadable.closed htype
  obtain ⟨v, hv, hinhabits⟩ := htype.evaluates hdeclares hclosed
  constructor
  · rintro i rfl
    exact hinhabits.elim
  · -- the session may count type variables from elsewhere, so it infers a type of its own
    obtain ⟨t', q', hinfer', -⟩ :=
      Typing.exists_infer he hground hcontext htype { next := s.next }
    have htypeOf : typeOf s.settings.constants s.next e = .ok t' := by
      rw [hs]
      simp only [typeOf, hinfer']
    obtain ⟨s', -, hgives⟩ := gives_evaluate text e s
    rcases verdict_cases he hclosed htypeOf hv hlimit text with
      ⟨evaluation, hverdict, hvalue⟩ | ⟨resource, n, hverdict⟩
    · rw [hverdict] at hgives
      exact .inl ⟨evaluation, s', hgives, hvalue ▸ suits_of_inhabits hinhabits⟩
    · rw [hverdict] at hgives
      exact .inr ⟨_, s', resource, n, hgives, rfl⟩

def identityTrue : Term :=
  .app (.lam (some "x") none (.var (some "x"))) (.const "true" .bool)

theorem evaluate_of_infer_identityTrue :
    (∀ b ∈ ({} : Settings).constants, b.2.Atomic) ∧
      Source.read ({} : Settings).constants "((λx. x) true)" = .ok identityTrue ∧
      (∃ q, Typing.infer ({} : Settings).constants identityTrue {} = .ok .bool q) ∧
      ((∃ evaluation s', evaluate "((λx. x) true)" identityTrue (start {} {} userPath true) =
          .ok evaluation s' ∧ Suits .bool evaluation.value) ∨
        ∃ d s' resource limit,
          evaluate "((λx. x) true)" identityTrue (start {} {} userPath true) =
            .error (.problem d) s' ∧ d.problem = .exhausted resource limit) := by
  have hconstants : ∀ b ∈ ({} : Settings).constants, b.2.Atomic := by
    have hbool : Ty.bool.Atomic := ⟨"Bool", rfl, by decide⟩
    simpa using hbool
  have hread : Source.read ({} : Settings).constants "((λx. x) true)" = .ok identityTrue := by
    decide +kernel
  have hinfer : Typing.infer ({} : Settings).constants identityTrue {} =
      .ok .bool ⟨2, ⟨[(0, .bool), (1, .bool)]⟩⟩ := by rfl
  refine ⟨hconstants, hread, ⟨_, hinfer⟩, ?_⟩
  exact (evaluate_of_infer hconstants hread hinfer (s := start {} {} userPath true) rfl nofun).2

end Session

end LambdaMachine
