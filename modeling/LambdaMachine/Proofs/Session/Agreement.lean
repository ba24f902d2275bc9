import LambdaMachine.Proofs.Machine.Compilation
import LambdaMachine.Proofs.Machine.Readback
import LambdaMachine.Proofs.Reduction.Run
import LambdaMachine.Proofs.Session.Verdict
import LambdaMachine.Proofs.Typing.Infers

namespace LambdaMachine.Session

open BigStep (Meaning Evaluates Reads)
open Nameless (Tree closedTree convert)
open Report (Signal Diagnostic)

/-- A normal form describes a value: it is the same number or the same constant, or an abstraction in
the case of a closure. -/
inductive Describes : Term → Value → Prop where
  | num (n : Int) : Describes (.num n) (.int n)
  | const (name : String) (type : Ty) : Describes (.const name type) (.const name type)
  | lam (param : Label) (ann : Option Ty) (body : Term) (code : List Instr) (env : List Value) :
      Describes (.lam param ann body) (.closure code env)

theorem Describes.agree {n : Term} {v : Value} (h : Describes n v) : agree v n = true := by
  cases h with
  | num n => simp [Session.agree]
  | const name type => simp [Session.agree]
  | lam param ann body code env => rfl

theorem describes_of_reads {v : Meaning} {t : Tree} (h : Reads v t) {n : Term} (hn : n.Named)
    {ν : Term.Numbering} (hred : Tree.Reduces t (n.tree ν)) : Describes n v.image := by
  cases h with
  | int k =>
      have hnormal : (Tree.num k).Normal := fun u hu => by cases hu
      rw [Term.eq_num_of_tree (hnormal.eq_of_reduces hred)]
      exact .num k
  | const name type =>
      have hnormal : (Tree.const name type).Normal := fun u hu => by cases hu
      rw [hn.eq_const_of_tree (hnormal.eq_of_reduces hred)]
      exact .const name type
  | closure ann body henv =>
      obtain ⟨body', hbody⟩ := hred.exists_abs
      obtain ⟨param, body'', rfl⟩ := Term.exists_lam_of_tree hbody
      exact .lam param ann body'' _ _

/-- The value of the machine is described by the normal form of the term. -/
theorem describes_of_run {e : Term} (he : e.Named) (hclosed : e.freeVars = [])
    {l : Machine.Limits} {v : Value}
    (hv : (Machine.run l (Code.emit (closedTree e).term)).outcome = .ok v) {limit : Int}
    (hstop : (Reduction.run limit e).stop = none) : Describes (Reduction.run limit e).term v := by
  have hscoped : Code.Scoped 0 (closedTree e).term := Nameless.scoped_tree he (by simp [hclosed])
  obtain ⟨hnamed, hreduces, hnormal⟩ := Reduction.normal_of_run he hstop fun _ => 0
  rcases BigStep.run_emit_cases hscoped l with ⟨r, k, hex⟩ | ⟨w, hw, hok⟩ | ⟨i, w, -, herr⟩
  · rw [hv] at hex
    cases hex
  · rw [hv] at hok
    cases hok
    obtain ⟨t, ht, hred⟩ := hw.reduces
    exact describes_of_reads ht hnamed (hreduces.to_normal hnormal hred)
  · rw [hv] at herr
    cases herr

theorem named_of_infers {Γ : Typing.Context} {e e' : Term} {p q : Typing.Progress} {t : Ty}
    (h : Typing.Infers Γ e p t q) {depths : Nameless.Depths} {depth : Int}
    (hconvert : Nameless.convertUnder depths depth e = .ok e') : e.Named := by
  induction h generalizing depths depth e' with
  | const name t p => exact .const name t
  | num n p => exact .num n
  | @var Γ name t p h => exact .var name
  | idx i p h => cases hconvert
  | annotated h ih =>
      obtain ⟨body', hbody, -⟩ := ok_of_bind hconvert
      exact .lam _ _ (ih hbody)
  | unannotated h ih =>
      obtain ⟨body', hbody, -⟩ := ok_of_bind hconvert
      exact .lam _ _ (ih hbody)
  | app hf ha h ihf iha =>
      obtain ⟨func', hfunc, hconvert⟩ := ok_of_bind hconvert
      obtain ⟨arg', harg, -⟩ := ok_of_bind hconvert
      exact .app (ihf hfunc) (iha harg)
  | op o hl h hr h' ihl ihr =>
      obtain ⟨left', hleft, hconvert⟩ := ok_of_bind hconvert
      obtain ⟨right', hright, -⟩ := ok_of_bind hconvert
      exact .op o (ihl hleft) (ihr hright)

theorem closed_of_stages {constants : Source.Constants} {next : Int} {e : Term} {type : Ty}
    {program : List Instr} (htype : typeOf constants next e = .ok type)
    (hprogram : programOf e = .ok program) :
    e.Named ∧ e.freeVars = [] ∧ program = Code.emit (closedTree e).term := by
  rw [programOf] at hprogram
  cases hconvert : convert e with
  | error error => simp [hconvert] at hprogram
  | ok nameless =>
      have hclosed : e.freeVars = [] := Nameless.closed_of_convert hconvert
      have he : e.Named := by
        rw [typeOf] at htype
        split at htype
        · rename_i hinfer
          obtain ⟨u, hu, -⟩ := Typing.infer_eq_ok_iff.mp hinfer
          exact named_of_infers hu hconvert
        · cases htype
      rw [Nameless.convert_of_closed he hclosed] at hprogram
      simp only [Nameless.compile_of_closed he hclosed] at hprogram
      cases hprogram
      exact ⟨he, hclosed, rfl⟩

/-- The signal is a report that the machine and the reduction disagree. -/
def Disagreement : Signal → Prop
  | .problem d => d.problem = .disagreement
  | _ => False

/-- A computation that may fail, but not because of a disagreement. -/
def Undisputed {α : Type} (r : Except Signal α) : Prop :=
  ∀ signal, r = .error signal → ¬ Disagreement signal

theorem Undisputed.ok {α : Type} (a : α) : Undisputed (.ok a) := by
  intro signal h
  cases h

theorem Undisputed.error {α : Type} {signal : Signal} (h : ¬ Disagreement signal) :
    Undisputed (.error signal : Except Signal α) := by
  intro signal' heq
  cases heq
  exact h

theorem Undisputed.bind {α β : Type} {r : Except Signal α} {k : α → Except Signal β}
    (h : Undisputed r) (hk : ∀ a, r = .ok a → Undisputed (k a)) : Undisputed (r >>= k) := by
  cases r with
  | ok a => exact hk a rfl
  | error signal => exact .error (h signal rfl)

theorem not_disagreement_signalOf {d? : Option Diagnostic}
    (h : ∀ d, d? = some d → d.problem ≠ .disagreement) : ¬ Disagreement (signalOf d?) := by
  cases d? with
  | none => exact id
  | some d => exact h d rfl

theorem undisputed_typeOf (constants : Source.Constants) (next : Int) (e : Term) :
    Undisputed (typeOf constants next e) := by
  have hunify : ∀ error, (Report.ofUnifyError error).problem ≠ .disagreement ∧
      ∀ func arg, ((Report.ofUnifyError error).inApplication func arg).problem ≠ .disagreement := by
    intro error
    cases error <;> exact ⟨nofun, fun _ _ => nofun⟩
  unfold typeOf
  split
  · exact .ok _
  · rename_i error _ _
    refine .error (not_disagreement_signalOf ?_)
    intro d hd
    cases error with
    | mismatch error application =>
        obtain ⟨hplain, happlied⟩ := hunify error
        cases application with
        | none =>
            cases hd
            exact hplain
        | some types =>
            cases hd
            exact happlied _ _
    | unbound name => cases hd; nofun
    | anonymousVariable e =>
        obtain ⟨text, -, rfl⟩ := Option.map_eq_some_iff.mp hd
        nofun
    | anonymousBinder e =>
        obtain ⟨text, -, rfl⟩ := Option.map_eq_some_iff.mp hd
        nofun
    | foreign text => cases hd; nofun

theorem undisputed_programOf (e : Term) : Undisputed (programOf e) := by
  unfold programOf
  split
  · rename_i error _
    refine .error ?_
    cases error <;> nofun
  · split
    · rename_i error _
      refine .error (not_disagreement_signalOf ?_)
      intro d hd
      cases error with
      | named label =>
          obtain ⟨name, -, rfl⟩ := Option.map_eq_some_iff.mp hd
          nofun
      | outOfScope i depth => cases hd; nofun
      | foreign text => cases hd; nofun
    · exact .ok _

theorem undisputed_valueOf (limit : StepLimit) (program : List Instr) :
    Undisputed (valueOf limit program) := by
  unfold valueOf
  split
  · exact .error id
  · split
    · exact .ok _
    · rename_i fault _
      refine .error (not_disagreement_signalOf ?_)
      intro d hd
      cases fault <;> cases hd <;> nofun

theorem undisputed_comparand (settings : Settings) (e : Term) :
    Undisputed (comparand settings e) := by
  unfold comparand normalFormOf
  split
  · split
    · exact .ok _
    · rename_i flaw _
      refine .error (not_disagreement_signalOf ?_)
      intro d hd
      cases flaw <;> cases hd
      nofun
    · exact .ok _
  · exact .ok _

theorem crossCheck_of_stages (source : String) {settings : Settings} {next : Int} {e : Term}
    {type : Ty} {program : List Instr} {value : Value} {normalForm : Option Term}
    (htype : typeOf settings.constants next e = .ok type) (hprogram : programOf e = .ok program)
    (hvalue : valueOf settings.stepLimit program = .ok value)
    (hnormal : comparand settings e = .ok normalForm) :
    crossCheck source value normalForm = .ok () := by
  obtain ⟨he, hclosed, rfl⟩ := closed_of_stages htype hprogram
  cases normalForm with
  | none => rfl
  | some n =>
      have hagree : agree value n = true := by
        unfold valueOf at hvalue
        split at hvalue
        · cases hvalue
        · split at hvalue
          · rename_i hrun
            cases hvalue
            unfold comparand normalFormOf at hnormal
            split at hnormal
            · split at hnormal
              · rename_i hstop
                cases hnormal
                exact (describes_of_run he hclosed hrun hstop).agree
              · cases hnormal
              · cases hnormal
            · cases hnormal
          · cases hvalue
      rw [crossCheck, if_pos hagree]

theorem undisputed_verdict (settings : Settings) (next : Int) (source : String) (e : Term) :
    Undisputed (verdict settings next source e) := by
  unfold verdict
  refine (undisputed_typeOf _ next e).bind fun type htype => ?_
  refine (undisputed_programOf e).bind fun program hprogram => ?_
  refine (undisputed_valueOf _ program).bind fun value hvalue => ?_
  refine (undisputed_comparand settings e).bind fun normalForm hnormal => ?_
  rw [crossCheck_of_stages source htype hprogram hvalue hnormal]
  exact .ok _

/-- The two strategies agree: a closed term has a program, and if the machine gives it a value and
the reduction a normal form, then the normal form describes the value, under whatever limits.
Consequently no evaluation of any term in any session reports a disagreement. -/
theorem strategies_agree (e : Term) :
    (e.Named → e.freeVars = [] →
      ∃ nameless program, convert e = .ok nameless ∧ Code.compile nameless = .ok program ∧
        ∀ (l : Machine.Limits) (limit : Int) (v : Value),
          (Machine.run l program).outcome = .ok v → (Reduction.run limit e).stop = none →
            Describes (Reduction.run limit e).term v ∧
              agree v (Reduction.run limit e).term = true) ∧
    ∀ (source : String) (s s' : Session) (d : Diagnostic),
      evaluate source e s = .error (.problem d) s' → d.problem ≠ .disagreement := by
  constructor
  · intro he hclosed
    refine ⟨_, _, Nameless.convert_of_closed he hclosed, Nameless.compile_of_closed he hclosed, ?_⟩
    intro l limit v hv hstop
    have hdescribes := describes_of_run he hclosed hv hstop
    exact ⟨hdescribes, hdescribes.agree⟩
  · intro source s s' d h
    obtain ⟨t, -, hgives⟩ := gives_evaluate source e s
    rw [h] at hgives
    cases hverdict : verdict s.settings s.next source e with
    | ok evaluation => simp [hverdict] at hgives
    | error signal =>
        simp only [hverdict, EStateM.Result.error.injEq] at hgives
        have hundisputed := undisputed_verdict s.settings s.next source e signal hverdict
        rw [← hgives.1] at hundisputed
        exact hundisputed

/-- A function that is passed another one. -/
def passing : Term :=
  .app (.lam (some "f") none (.app (.var (some "f")) (.num 2)))
    (.lam (some "x") none (.op .add (.var (some "x")) (.num 1)))

theorem strategies_agree_passing :
    passing.Named ∧ passing.freeVars = [] ∧
      ∃ nameless program, convert passing = .ok nameless ∧ Code.compile nameless = .ok program ∧
        (Machine.run { instructions := 20 } program).outcome = .ok (.int 3) ∧
        (Reduction.run 3 passing).stop = none ∧
        Describes (Reduction.run 3 passing).term (.int 3) := by
  have he : passing.Named :=
    .app (.lam _ _ (.app (.var _) (.num 2))) (.lam _ _ (.op .add (.var _) (.num 1)))
  have hstop : (Reduction.run 3 passing).stop = none := by
    simp [passing, Reduction.run, Reduction.runFrom, Reduction.checkedStep,
      Term.checkedSubstitute, Term.substituteFlaw?, Term.substitute_app, Term.substitute_var,
      Term.substitute_num, Term.substitute_op, pure, Except.pure,
      bind, Except.bind]
  obtain ⟨nameless, program, hconvert, hcompile, hagree⟩ := (strategies_agree passing).1 he rfl
  have hvalue : (Machine.run { instructions := 20 } program).outcome = .ok (.int 3) := by
    have hresult : (Machine.run { instructions := 20 } program).outcome.toOption.map
        (agree · (.num 3)) = some true := by
      cases hconvert
      cases hcompile
      decide +kernel
    generalize (Machine.run { instructions := 20 } program).outcome = outcome at hresult
    cases outcome with
    | error fault => cases hresult
    | ok value =>
        cases value with
        | int n =>
            obtain rfl : 3 = n := by simpa [Except.toOption, agree] using hresult
            rfl
        | bool b => cases b <;> cases hresult
        | const name type => cases hresult
        | closure code env => cases hresult
  exact ⟨he, rfl, nameless, program, hconvert, hcompile, hvalue, hstop,
    (hagree _ 3 _ hvalue hstop).1⟩

end LambdaMachine.Session
