import LambdaMachine.Proofs.Session.Soundness
import LambdaMachine.Proofs.Session.Statement
import LambdaMachine.Proofs.Source.Occurrence

namespace LambdaMachine

namespace Typing

/-- The free labels of a term that a context has no type for, from left to right. -/
def missing (Γ : Context) (e : Term) : List Label :=
  e.freeVars.filter (Option.all fun name => (Γ.lookup name).isNone)

section Missing

variable {Γ : Context} {e : Term} {p q : Progress} {t : Ty} {name : String}

theorem missing_lam (Γ : Context) (name : String) (a : Ty) (ann : Option Ty) (body : Term) :
    missing Γ (.lam (some name) ann body) = missing ((name, a) :: Γ) body := by
  rw [missing, Term.freeVars, List.filter_filter, missing]
  congr 1
  funext label
  cases label with
  | none => rfl
  | some y =>
      by_cases hy : y = name
      · simp [hy]
      · simp [hy, List.lookup_cons, beq_false_of_ne hy]

theorem missing_app (Γ : Context) (func arg : Term) :
    missing Γ (.app func arg) = missing Γ func ++ missing Γ arg :=
  List.filter_append ..

theorem missing_op (Γ : Context) (o : Op) (left right : Term) :
    missing Γ (.op o left right) = missing Γ left ++ missing Γ right :=
  List.filter_append ..

theorem Infers.missing_eq (h : Infers Γ e p t q) : missing Γ e = [] := by
  induction h with
  | const | num | idx => rfl
  | var p h => simp [missing, Term.freeVars, h]
  | @annotated Γ name a _ _ _ _ _ ih => rw [missing_lam Γ name a, ih]
  | @unannotated Γ name _ _ p _ _ ih => rw [missing_lam Γ name (.var p.next), ih]
  | app _ _ _ ihf iha => rw [missing_app, ihf, iha, List.append_nil]
  | op o _ _ _ _ ihl ihr => rw [missing_op, ihl, ihr, List.append_nil]

theorem missing_of_inferOpen (h : inferOpen Γ e p = .ok t q) : missing Γ e = [] :=
  (infers_of_inferOpen h).missing_eq

theorem expectInt_ne_unbound : expectInt t p ≠ .error (.unbound name) q := by
  intro h
  rcases bind_eq_error_iff.mp h with hunify | ⟨e?, p', hunify, h⟩
  · rw [unify?] at hunify
    split at hunify <;> cases hunify
  · cases e? <;> cases h

theorem head?_missing (he : e.Named) (h : inferOpen Γ e p = .error (.unbound name) q) :
    (missing Γ e).head? = some (some name) := by
  induction he generalizing Γ p q with
  | const name' type => cases h
  | num n => cases h
  | var name' =>
      simp only [inferOpen] at h
      cases hfound : Γ.lookup name' with
      | some u =>
          rw [hfound] at h
          cases h
      | none =>
          rw [hfound] at h
          cases h
          simp [missing, Term.freeVars, hfound]
  | @lam name' ann body _ ih =>
      -- the parameter gets a type in any case, so it is the body where inference fails
      obtain ⟨a, p', hbody⟩ :
          ∃ a p', inferOpen ((name', a) :: Γ) body p' = .error (.unbound name) q := by
        cases ann
        all_goals
          rcases bind_eq_error_iff.mp h with h | ⟨a, p', _, h⟩
          · cases h
          rcases bind_eq_error_iff.mp h with h | ⟨_, _, _, h⟩
          · exact ⟨a, p', h⟩
          · cases h
      rw [missing_lam Γ name' a]
      exact ih hbody
  | app _ _ ihf iha =>
      rw [missing_app]
      rcases bind_eq_error_iff.mp h with hf | ⟨f, q₁, hf, h⟩
      · rw [List.head?_append, ihf hf, Option.some_or]
      rw [missing_of_inferOpen hf, List.nil_append]
      rcases bind_eq_error_iff.mp h with ha | ⟨a, q₂, ha, h⟩
      · exact iha ha
      rcases bind_eq_error_iff.mp h with hfresh | ⟨result, q₃, _, h⟩
      · cases hfresh
      rcases bind_eq_error_iff.mp h with hunify | ⟨e?, q₄, _, h⟩
      · rw [unify?] at hunify
        split at hunify <;> cases hunify
      · cases e? <;> cases h
  | op o _ _ ihl ihr =>
      rw [missing_op]
      rcases bind_eq_error_iff.mp h with hl | ⟨l, q₁, hl, h⟩
      · rw [List.head?_append, ihl hl, Option.some_or]
      rw [missing_of_inferOpen hl, List.nil_append]
      rcases bind_eq_error_iff.mp h with hint | ⟨_, q₂, _, h⟩
      · exact absurd hint expectInt_ne_unbound
      rcases bind_eq_error_iff.mp h with hr | ⟨m, q₃, _, h⟩
      · exact ihr hr
      rcases bind_eq_error_iff.mp h with hint | ⟨_, q₄, _, h⟩
      · exact absurd hint expectInt_ne_unbound
      · cases h

theorem head?_missing_of_infer (he : e.Named) (h : infer Γ e p = .error (.unbound name) q) :
    (missing Γ e).head? = some (some name) := by
  rcases bind_eq_error_iff.mp h with h | ⟨_, _, hmodify, h⟩
  · cases h
  cases hmodify
  rcases bind_eq_error_iff.mp h with h | ⟨_, _, _, h⟩
  · exact head?_missing he h
  · cases h

theorem missing_of_readable (h : Source.Readable Γ [] e) : missing Γ e = e.freeVars := by
  rw [missing, List.filter_eq_self]
  intro label hlabel
  cases label with
  | none => rfl
  | some y =>
      rcases h.free hlabel with hnone | hbound
      · simp [hnone]
      · cases hbound

end Missing

end Typing

namespace Session

open Report (Signal Diagnostic)
open Source (Readable Token DerivesAt leftmost)

section Stages

variable {settings : Settings} {constants : Source.Constants} {next : Int} {source : String}
  {e : Term} {d : Diagnostic} {label : Label}

theorem eq_some_of_signalOf {d? : Option Diagnostic} (h : signalOf d? = .problem d) :
    d? = some d := by
  cases d? with
  | none => cases h
  | some d' =>
      cases h
      rfl

theorem ofInferError_unbound {error : Typing.InferError} (h : Report.ofInferError error = some d)
    (hd : d.problem = .unbound label) :
    ∃ name, error = .unbound name ∧ d = .unbound (some name) := by
  cases error with
  | mismatch error application =>
      cases application <;> cases h <;> cases error <;> cases hd
  | unbound name =>
      cases h
      exact ⟨name, rfl, rfl⟩
  | anonymousVariable e =>
      obtain ⟨text, -, rfl⟩ := Option.map_eq_some_iff.mp h
      cases hd
  | anonymousBinder e =>
      obtain ⟨text, -, rfl⟩ := Option.map_eq_some_iff.mp h
      cases hd
  | foreign text =>
      cases h
      cases hd

theorem typeOf_unbound (he : Readable constants [] e)
    (h : typeOf constants next e = .error (.problem d)) (hd : d.problem = .unbound label) :
    ∃ name, d = .unbound (some name) ∧ e.freeVars.head? = some (some name) := by
  rw [typeOf] at h
  split at h
  · cases h
  · rename_i error p hinfer
    have hreport := eq_some_of_signalOf (Except.error.inj h)
    obtain ⟨name, rfl, rfl⟩ := ofInferError_unbound hreport hd
    refine ⟨name, rfl, ?_⟩
    rw [← Typing.missing_of_readable he]
    exact Typing.head?_missing_of_infer he.named hinfer

theorem closed_of_typeOf (he : Readable constants [] e) {type : Ty}
    (h : typeOf constants next e = .ok type) : e.freeVars = [] := by
  rw [typeOf] at h
  split at h
  · rename_i hinfer
    obtain ⟨u, hu, -⟩ := Typing.infer_eq_ok_iff.mp hinfer
    rw [← Typing.missing_of_readable he, hu.missing_eq]
  · cases h

theorem valueOf_ne_unbound {limit : StepLimit} {program : List Instr}
    (h : valueOf limit program = .error (.problem d)) : d.problem ≠ .unbound label := by
  rw [valueOf] at h
  split at h
  · cases h
  · split at h
    · cases h
    · rename_i fault _
      have hreport := eq_some_of_signalOf (Except.error.inj h)
      intro hd
      cases fault <;> cases hreport <;> cases hd

theorem comparand_ne_unbound (h : comparand settings e = .error (.problem d)) :
    d.problem ≠ .unbound label := by
  rw [comparand, normalFormOf] at h
  split at h
  · split at h
    · cases h
    · rename_i flaw _
      have hreport := eq_some_of_signalOf (Except.error.inj h)
      intro hd
      cases flaw <;> cases hreport
      cases hd
    · cases h
  · cases h

theorem crossCheck_ne_unbound {value : Value} {n : Option Term}
    (h : crossCheck source value n = .error (.problem d)) : d.problem ≠ .unbound label := by
  rw [crossCheck.eq_def] at h
  split at h
  · cases h
  · split at h
    · cases h
    · cases h
      intro hd
      cases hd

/-- An evaluation can report no other unbound variable than the leftmost one. -/
theorem verdict_unbound (he : Readable settings.constants [] e)
    (h : verdict settings next source e = .error (.problem d)) (hd : d.problem = .unbound label) :
    ∃ name, d = .unbound (some name) ∧ e.freeVars.head? = some (some name) := by
  rw [verdict] at h
  rcases error_of_bind h with htype | ⟨type, htype, h⟩
  · exact typeOf_unbound he htype hd
  have hclosed := closed_of_typeOf he htype
  rcases error_of_bind h with hprogram | ⟨program, -, h⟩
  · simp only [programOf, Nameless.convert_of_closed he.named hclosed,
      Nameless.compile_of_closed he.named hclosed] at hprogram
    cases hprogram
  rcases error_of_bind h with hvalue | ⟨value, -, h⟩
  · exact absurd hd (valueOf_ne_unbound hvalue)
  rcases error_of_bind h with hnormal | ⟨normalForm, -, h⟩
  · exact absurd hd (comparand_ne_unbound hnormal)
  rcases error_of_bind h with hagree | ⟨-, -, h⟩
  · exact absurd hd (crossCheck_ne_unbound hagree)
  · cases h

theorem problem_of_located {signal : Signal} (h : located source signal = .problem d) :
    ∃ d', signal = .problem d' ∧ d.problem = d'.problem := by
  unfold located at h
  split at h
  · rename_i d'
    refine ⟨d', rfl, ?_⟩
    split at h
    · split at h <;> cases h <;> rfl
    · cases h
      rfl
  · subst h
    exact ⟨d, rfl, rfl⟩

end Stages

section Running

theorem stateOf_runStatement (number : Int) (st : Statement) (s : Session) :
    (stateOf (runStatement number st s)).settings = s.settings ∧
      (stateOf (runStatement number st s)).queue = s.queue.eraseP (·.1 == number) := by
  cases hverdict : verdict s.settings s.next st.source st.term with
  | ok result =>
      obtain ⟨s', hrun, hkept⟩ := runStatement_of_ok st hverdict number
      rw [hrun]
      exact ⟨hkept.settings, hkept.queue⟩
  | error signal =>
      obtain ⟨s', hrun, hkept⟩ := runStatement_of_error st hverdict number
      rw [hrun]
      exact ⟨hkept.settings, hkept.queue⟩

theorem error_of_runStatement {number : Int} {st : Statement} {s s' : Session} {signal : Signal}
    (h : runStatement number st s = .error signal s') :
    ∃ signal', verdict s.settings s.next st.source st.term = .error signal' ∧
      signal = located st.source signal' := by
  cases hverdict : verdict s.settings s.next st.source st.term with
  | ok result =>
      obtain ⟨s'', hrun, -⟩ := runStatement_of_ok st hverdict number
      rw [hrun] at h
      cases h
  | error signal' =>
      obtain ⟨s'', hrun, -⟩ := runStatement_of_error st hverdict number
      rw [hrun] at h
      cases h
      exact ⟨signal', rfl, rfl⟩

theorem error_of_forM {queue : List (Int × Statement)} {s s' : Session} {signal : Signal}
    (h : queue.forM (fun found => runStatement found.1 found.2) s = .error signal s') :
    ∃ found ∈ queue, ∃ next signal',
      verdict s.settings next found.2.source found.2.term = .error signal' ∧
        signal = located found.2.source signal' := by
  induction queue generalizing s with
  | nil => cases h
  | cons found queue ih =>
      rcases bind_eq_error_iff.mp h with h | ⟨_, s₁, hfirst, h⟩
      · obtain ⟨signal', hverdict, hsignal⟩ := error_of_runStatement h
        exact ⟨found, List.mem_cons_self, s.next, signal', hverdict, hsignal⟩
      · obtain ⟨found', hmem, next, signal', hverdict, hsignal⟩ := ih h
        have hsettings := (stateOf_runStatement found.1 found.2 s).1
        rw [show runStatement found.1 found.2 s = _ from hfirst] at hsettings
        rw [← hsettings]
        exact ⟨found', List.mem_cons_of_mem _ hmem, next, signal', hverdict, hsignal⟩

end Running

section Sources

variable {α β : Type}

/-- Every waiting statement was read from its source under the constants of the session. -/
def Sourced (s : Session) : Prop :=
  ∀ found ∈ s.queue, Source.read s.settings.constants found.2.source = .ok found.2.term

/-- Statements that were read from their sources are followed by such ones only, whether a
computation succeeds or fails. -/
def Preserves (work : SessionM α) : Prop :=
  ∀ s, Sourced s → Sourced (stateOf (work s))

theorem Sourced.of_subset {s s' : Session} (hs : Sourced s) (hsettings : s'.settings = s.settings)
    (hqueue : s'.queue ⊆ s.queue) : Sourced s' := by
  intro found hfound
  rw [hsettings]
  exact hs found (hqueue hfound)

theorem Preserves.pure (a : α) : Preserves (pure a) :=
  fun _ hs => hs

theorem Preserves.throw (signal : Signal) : Preserves (throw signal : SessionM α) :=
  fun _ hs => hs

theorem Preserves.get_bind {k : Session → SessionM β} (hk : ∀ s, Preserves (k s)) :
    Preserves (get >>= k) :=
  fun s hs => hk s s hs

theorem Preserves.bind {work : SessionM α} {k : α → SessionM β} (h : Preserves work)
    (hk : ∀ a, Preserves (k a)) : Preserves (work >>= k) := by
  intro s hs
  have hs' := h s hs
  cases hwork : work s with
  | ok a s' =>
      rw [hwork] at hs'
      rw [bind_of_ok hwork]
      exact hk a s' hs'
  | error signal s' =>
      rw [hwork] at hs'
      rw [bind_of_error hwork]
      exact hs'

theorem Preserves.forM {f : α → SessionM Unit} (hf : ∀ a, Preserves (f a)) (l : List α) :
    Preserves (l.forM f) := by
  induction l with
  | nil => exact .pure ()
  | cons a l ih => exact (hf a).bind fun _ => ih

theorem mem_of_mem_enqueueInto {number : Int} {st : Statement} {queue : List (Int × Statement)}
    {found : Int × Statement} (h : found ∈ enqueueInto number st queue) :
    found = (number, st) ∨ found ∈ queue := by
  induction queue with
  | nil => exact .inl (List.mem_singleton.mp h)
  | cons first rest ih =>
      obtain ⟨n, st'⟩ := first
      rw [enqueueInto] at h
      split at h
      · exact (List.mem_cons.mp h).imp id (List.mem_cons_of_mem _)
      · rcases List.mem_cons.mp h with rfl | h
        · exact .inr List.mem_cons_self
        · exact (ih h).imp id (List.mem_cons_of_mem _)

theorem preserves_add (source : String) (number : Int) : Preserves (add source number) := by
  intro s hs
  cases hread : Source.read s.settings.constants source with
  | error error =>
      rw [add_of_error hread]
      exact hs
  | ok e =>
      rw [add_of_ok hread]
      intro found hfound
      rcases mem_of_mem_enqueueInto hfound with rfl | hfound
      · exact hread
      · exact hs found hfound

theorem preserves_run : Preserves run := by
  refine .get_bind fun s => .forM (fun found s' hs => ?_) s.queue
  obtain ⟨hsettings, hqueue⟩ := stateOf_runStatement found.1 found.2 s'
  exact hs.of_subset hsettings (hqueue ▸ List.eraseP_subset)

theorem preserves_pop : Preserves pop := by
  refine .get_bind fun s => ?_
  split
  · exact .throw _
  · exact fun s' hs => hs

theorem preserves_load (file : Option (List UInt8)) : Preserves (load file) := by
  refine .get_bind fun s => ?_
  split
  · cases file with
    | none =>
        dsimp only
        split
        · exact fun _ hs => hs
        · exact .throw _
    | some bytes =>
        dsimp only
        split
        · exact fun _ hs => hs
        · cases Text.Utf8.decode bytes with
          | error e => exact .throw _
          | ok chars =>
              refine .forM ?_ _
              rintro ⟨source, number⟩
              exact preserves_add source number
  · split
    · exact .pure ()
    · exact .throw _

/-- The sessions that come about when statements are loaded, added and run and results are taken,
whether this succeeds or fails. -/
inductive Arises : Session → Prop where
  | start (settings : Settings) (console : Report.Console) (path : String) (interactive : Bool) :
      Arises (Session.start settings console path interactive)
  | load {s : Session} (h : Arises s) (file : Option (List UInt8)) :
      Arises (stateOf (Session.load file s))
  | add {s : Session} (h : Arises s) (source : String) (number : Int) :
      Arises (stateOf (Session.add source number s))
  | run {s : Session} (h : Arises s) : Arises (stateOf (Session.run s))
  | pop {s : Session} (h : Arises s) : Arises (stateOf (Session.pop s))

theorem Arises.sourced {s : Session} (h : Arises s) : Sourced s := by
  induction h with
  | start =>
      intro found hfound
      cases hfound
  | load _ file ih => exact preserves_load file _ ih
  | add _ source number ih => exact preserves_add source number _ ih
  | run _ ih => exact preserves_run _ ih
  | pop _ ih => exact preserves_pop _ ih

end Sources

/-- A report points at a token of a source. -/
structure LocatedAt (d : Diagnostic) (source : String) (t : Token) : Prop where
  subject : d.subject = source
  start : d.start = t.start
  stop : d.stop = t.stop
  pointed : d.pointed = true

theorem located_of_freeOccurrence {source name : String} {t : Token}
    (h : Source.freeOccurrence source name = .ok (some t)) :
    located source (.problem (.unbound (some name))) =
      .problem ((Diagnostic.unbound (some name)).locate source t.start t.stop) := by
  simp only [located, Diagnostic.unbound, Diagnostic.saying, Diagnostic.marked, h]

/-- Unbound variables are located. In a text that is read as a term, a name that is no constant is
found exactly if it is free in the term, and then at the token of the leftmost leaf that is a free
variable of the name. A session that reports an unbound variable points at a token with its name,
and that is the token of the leftmost leaf of the statement that is a free variable at all. -/
theorem unbound_variables_located :
    (∀ (constants : Source.Constants) (text : String) (e : Term),
      Source.read constants text = .ok e →
      ∃ ts, Source.tokenize text = .ok ts ∧ (∃ qs, DerivesAt constants [] ts e qs) ∧
        ∀ qs, DerivesAt constants [] ts e qs → qs.map Prod.snd = e.leaves [] ∧
          ∀ name, constants.lookup name = none →
            (Source.freeOccurrence text name = .ok none ↔ some name ∉ e.freeVars) ∧
            (some name ∈ e.freeVars → ∃ t leaf, Source.freeOccurrence text name = .ok (some t) ∧
              qs.find? (fun q => q.2.free? = some (some name)) = some (t, leaf))) ∧
    ∀ (s s' : Session) (d : Diagnostic) (label : Label), Arises s →
      run s = .error (.problem d) s' → d.problem = .unbound label →
      ∃ found ∈ s.queue, Source.read s.settings.constants found.2.source = .ok found.2.term ∧
        ∃ ts qs t leaf, Source.tokenize found.2.source = .ok ts ∧
          DerivesAt s.settings.constants [] ts found.2.term qs ∧
          qs.find? (fun q => q.2.free?.isSome) = some (t, leaf) ∧ leaf.free? = some label ∧
          label = some t.text ∧ LocatedAt d found.2.source t := by
  constructor
  · intro constants text e hread
    obtain ⟨ts, htokens, hderives⟩ := Source.read_eq_ok_iff.mp hread
    refine ⟨ts, htokens, hderives.exists_derivesAt, fun qs hqs => ⟨hqs.map_snd, ?_⟩⟩
    intro name hname
    rw [hqs.freeOccurrence_eq htokens hname, Except.ok.injEq, hqs.leftmost_eq_none_iff]
    refine ⟨Iff.rfl, fun hfree => ?_⟩
    cases hfind : qs.find? fun q => q.2.free? = some (some name) with
    | none =>
        have hnone : leftmost name qs = none := by rw [leftmost, hfind, Option.map_none]
        exact absurd hfree (hqs.leftmost_eq_none_iff.mp hnone)
    | some q => exact ⟨q.1, q.2, by rw [leftmost, hfind, Option.map_some], rfl⟩
  · intro s s' d label hs hrun hd
    obtain ⟨found, hmem, next, signal, hverdict, hsignal⟩ := error_of_forM hrun
    have hread := hs.sourced found hmem
    obtain ⟨d', rfl, hproblem⟩ := problem_of_located hsignal.symm
    -- inference and the passage through the tokens agree on the first of the free variables
    have hreadable := Source.readable_of_read hread
    obtain ⟨name, rfl, hhead⟩ := verdict_unbound hreadable hverdict (hproblem.symm.trans hd)
    obtain rfl : some name = label := Report.Problem.unbound.inj (hproblem.symm.trans hd)
    have hname : s.settings.constants.lookup name = none :=
      (hreadable.free (List.mem_of_head? hhead)).resolve_right List.not_mem_nil
    obtain ⟨ts, htokens, hderives⟩ := Source.read_eq_ok_iff.mp hread
    obtain ⟨qs, hqs⟩ := hderives.exists_derivesAt
    rw [← hqs.filterMap_free?] at hhead
    obtain ⟨t, leaf, hfirst, hfree, hleftmost⟩ := Source.exists_leftmost_of_head? hhead
    have ht : Source.freeOccurrence found.2.source name = .ok (some t) := by
      rw [hqs.freeOccurrence_eq htokens hname, hleftmost]
    rw [located_of_freeOccurrence ht] at hsignal
    cases hsignal
    exact ⟨found, hmem, hread, ts, qs, t, leaf, htokens, hqs, hfirst, hfree,
      hqs.text_eq _ (List.mem_of_find?_eq_some hfirst) _ hfree, rfl, rfl, rfl, rfl⟩

/-- A variable is bound in one place, free in another, and the name of a type in a third. The first
unbound variable has another name. -/
def shadowing : String :=
  "((lambda y:y -> y. (y x)) y)"

def shadowingTerm : Term :=
  .app (.lam (some "y") (some (.arrow (.const "y") (.const "y")))
    (.app (.var (some "y")) (.var (some "x")))) (.var (some "y"))

theorem unbound_variables_located_shadowing :
    (∃ ts qs t leaf, Source.tokenize shadowing = .ok ts ∧
      DerivesAt ({} : Settings).constants [] ts shadowingTerm qs ∧
      Source.freeOccurrence shadowing "y" = .ok (some t) ∧
      qs.find? (fun q => q.2.free? = some (some "y")) = some (t, leaf)) ∧
    ∃ s s' d, Arises s ∧ run s = .error (.problem d) s' ∧ d.problem = .unbound (some "x") ∧
      ∃ t : Token, t.text = "x" ∧ LocatedAt d shadowing t := by
  have hread : Source.read ({} : Settings).constants shadowing = .ok shadowingTerm := by
    decide +kernel
  constructor
  · obtain ⟨ts, htokens, ⟨qs, hqs⟩, hall⟩ := unbound_variables_located.1 _ _ _ hread
    obtain ⟨t, leaf, ht, hfind⟩ := ((hall qs hqs).2 "y" (by decide)).2 (by decide)
    exact ⟨ts, qs, t, leaf, htokens, hqs, ht, hfind⟩
  · have harises := (Arises.start {} {} userPath true).add shadowing 1
    rw [add_of_ok hread] at harises
    obtain ⟨s, hs, hsettings, hnext, hqueue⟩ : ∃ s, Arises s ∧ s.settings = {} ∧ s.next = 0 ∧
        s.queue = [(1, ⟨shadowing, shadowingTerm⟩)] := ⟨_, harises, rfl, rfl, rfl⟩
    have hverdict : verdict s.settings s.next shadowing shadowingTerm =
        .error (.problem (.unbound (some "x"))) := by
      rw [hsettings, hnext]
      rfl
    have hx : Source.freeOccurrence shadowing "x" = .ok (some ⟨.identifier, "x", 22⟩) := by
      decide +kernel
    obtain ⟨s', hrun, -⟩ := runStatement_of_error ⟨shadowing, shadowingTerm⟩ hverdict 1
    rw [← run_of_queue hqueue, located_of_freeOccurrence hx] at hrun
    obtain ⟨found, hmem, -, ts, qs, t, leaf, -, -, -, -, htext, hlocated⟩ :=
      unbound_variables_located.2 s s' _ _ hs hrun rfl
    rw [hqueue] at hmem
    obtain rfl := List.mem_singleton.mp hmem
    exact ⟨s, s', _, hs, hrun, rfl, t, (Option.some.inj htext).symm, hlocated⟩

end Session

end LambdaMachine
