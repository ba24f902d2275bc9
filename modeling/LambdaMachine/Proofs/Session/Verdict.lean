import LambdaMachine.Proofs.Outcome
import LambdaMachine.Session.Evaluate

namespace LambdaMachine.Report.Console

/-- Everything on a console but the recorded steps is as it was, and texts may have been printed. -/
structure Kept (c c' : Console) : Prop where
  colour : c'.colour = c.colour
  fatal : c'.fatal = c.fatal
  trace : c'.trace = c.trace
  traceback : c'.traceback = c.traceback
  out : ∃ text, c'.out = c.out ++ text

theorem Kept.refl (c : Console) : Kept c c :=
  ⟨rfl, rfl, rfl, rfl, "", by simp⟩

theorem Kept.trans {c c' c'' : Console} (h : Kept c c') (h' : Kept c' c'') : Kept c c'' := by
  obtain ⟨text, htext⟩ := h.out
  obtain ⟨text', htext'⟩ := h'.out
  exact ⟨h'.colour.trans h.colour, h'.fatal.trans h.fatal, h'.trace.trans h.trace,
    h'.traceback.trans h.traceback, text ++ text', by rw [htext', htext, String.append_assoc]⟩

theorem kept_print (text : String) (c : Console) : Kept c (c.print text) :=
  ⟨rfl, rfl, rfl, rfl, text ++ "\n", rfl⟩

theorem kept_registerStep (kind text : String) (c : Console) :
    Kept c (c.registerStep kind text) := by
  unfold registerStep
  dsimp only
  split
  · exact ⟨rfl, rfl, rfl, rfl, _, rfl⟩
  · exact ⟨rfl, rfl, rfl, rfl, "", by simp⟩

theorem kept_warn (d : Diagnostic) (c : Console) : Kept c (c.warn d) := by
  unfold warn
  dsimp only
  split
  · exact (kept_print _ c).trans (kept_print _ _)
  · exact kept_print _ c

end LambdaMachine.Report.Console

namespace LambdaMachine.Session

open Report (Signal Console Diagnostic)

variable {α β : Type}

/-- Everything in a session but type variables and what the console recorded and printed is as it
was. -/
structure Kept (s s' : Session) : Prop where
  settings : s'.settings = s.settings
  path : s'.path = s.path
  interactive : s'.interactive = s.interactive
  queue : s'.queue = s.queue
  results : s'.results = s.results
  console : s.console.Kept s'.console

theorem Kept.refl (s : Session) : Kept s s :=
  ⟨rfl, rfl, rfl, rfl, rfl, .refl _⟩

theorem Kept.trans {s s' s'' : Session} (h : Kept s s') (h' : Kept s' s'') : Kept s s'' :=
  ⟨h'.settings.trans h.settings, h'.path.trans h.path, h'.interactive.trans h.interactive,
    h'.queue.trans h.queue, h'.results.trans h.results, h.console.trans h'.console⟩

/-- A computation gives a result or a signal, and changes only type variables and what the console
records and prints. -/
def Gives (work : SessionM α) (s : Session) (r : Except Signal α) : Prop :=
  ∃ s', Kept s s' ∧ work s =
    match r with
    | .ok a => .ok a s'
    | .error signal => .error signal s'

theorem Gives.pure (a : α) (s : Session) : Gives (pure a) s (.ok a) :=
  ⟨s, .refl s, rfl⟩

theorem Gives.throw (signal : Signal) (s : Session) :
    Gives (throw signal : SessionM α) s (.error signal) :=
  ⟨s, .refl s, rfl⟩

theorem Gives.bind {work : SessionM α} {s : Session} {r : Except Signal α}
    {k : α → SessionM β} {q : α → Except Signal β} (h : Gives work s r)
    (hk : ∀ a s', Kept s s' → Gives (k a) s' (q a)) : Gives (work >>= k) s (r >>= q) := by
  obtain ⟨s', hkept, h⟩ := h
  cases r with
  | error signal => exact ⟨s', hkept, bind_of_error h k⟩
  | ok a =>
      obtain ⟨s'', hkept', ha⟩ := hk a s' hkept
      exact ⟨s'', hkept.trans hkept', (bind_of_ok h k).trans ha⟩

theorem Gives.seq {work : SessionM Unit} {s : Session} {k : Unit → SessionM β}
    {r : Except Signal β} (h : Gives work s (.ok ())) (hk : ∀ s', Kept s s' → Gives (k ()) s' r) :
    Gives (work >>= k) s r := by
  show Gives (work >>= k) s (Except.ok () >>= fun _ => r)
  exact h.bind fun _ s' hs => hk s' hs

theorem Gives.get_bind {s : Session} {k : Session → SessionM β} {r : Except Signal β}
    (h : Gives (k s) s r) : Gives (get >>= k) s r :=
  h

theorem gives_onConsole {f : Console → Console} (hf : ∀ c : Console, c.Kept (f c)) (s : Session) :
    Gives (onConsole f) s (.ok ()) :=
  ⟨{ s with console := f s.console }, ⟨rfl, rfl, rfl, rfl, rfl, hf s.console⟩, rfl⟩

theorem gives_forM {f : α → SessionM Unit} (hf : ∀ a s, Gives (f a) s (.ok ())) (l : List α)
    (s : Session) : Gives (l.forM f) s (.ok ()) := by
  induction l generalizing s with
  | nil => exact .pure () s
  | cons a l ih => exact (hf a s).seq fun s' _ => ih s'

theorem gives_traceSteps (steps : Unit → List (String × String)) (s : Session) :
    Gives (traceSteps steps) s (.ok ()) := by
  unfold traceSteps
  apply Gives.get_bind
  split
  · exact gives_forM (fun step => gives_onConsole (Console.kept_registerStep _ _)) _ s
  · exact .pure () s

/-- The type of a term, with type variables counted from `next`. -/
def typeOf (constants : Source.Constants) (next : Int) (e : Term) : Except Signal Ty :=
  match Typing.infer constants e { next := next } with
  | .ok type _ => .ok type
  | .error error _ => .error (signalOf (Report.ofInferError error))

/-- The value of a program under a limit on instructions. -/
def valueOf (limit : StepLimit) (program : List Instr) : Except Signal Value :=
  match limits? limit with
  | none => .error .emptyLimit
  | some l =>
      match (Machine.run l program).outcome with
      | .ok value => .ok value
      | .error fault => .error (signalOf (Report.ofFault fault))

/-- The normal form of a term, or `none` if the limit on contractions is too low. -/
def normalFormOf (limit : Int) (e : Term) : Except Signal (Option Term) :=
  match (Reduction.run limit e).stop with
  | none => .ok (some (Reduction.run limit e).term)
  | some (.flawed flaw) => .error (signalOf (Report.ofFlaw flaw))
  | some .exhausted => .ok none

/-- A normal form is accepted if it agrees with the value of the machine. -/
def crossCheck (source : String) (value : Value) : Option Term → Except Signal Unit
  | none => .ok ()
  | some n =>
      if agree value n then .ok ()
      else .error (.problem (.disagreement source value.brief n.text))

/-- The normal form that a result is compared with, if results are compared. -/
def comparand (settings : Settings) (e : Term) : Except Signal (Option Term) :=
  if settings.check then normalFormOf settings.reductionLimit e else .ok none

/-- The result of an evaluation, or the signal that ends it. -/
def verdict (settings : Settings) (next : Int) (source : String) (e : Term) :
    Except Signal Evaluation := do
  let type ← typeOf settings.constants next e
  let program ← programOf e
  let value ← valueOf settings.stepLimit program
  let normalForm ← comparand settings e
  crossCheck source value normalForm
  return ⟨source, e, type, program, value, normalForm⟩

theorem gives_infer (e : Term) (s : Session) :
    Gives (infer e) s (typeOf s.settings.constants s.next e) := by
  unfold infer typeOf
  cases h : Typing.infer s.settings.constants e { next := s.next } with
  | ok type p =>
      exact ⟨{ s with next := p.next }, ⟨rfl, rfl, rfl, rfl, rfl, .refl _⟩, by simp only [h]⟩
  | error error p =>
      exact ⟨{ s with next := p.next }, ⟨rfl, rfl, rfl, rfl, rfl, .refl _⟩, by simp only [h]⟩

theorem gives_compile (e : Term) (s : Session) : Gives (compile e) s (programOf e) := by
  unfold compile
  cases programOf e with
  | ok program => exact .pure program s
  | error signal => exact .throw signal s

theorem gives_execute (program : List Instr) (s : Session) :
    Gives (execute program) s (valueOf s.settings.stepLimit program) := by
  unfold execute valueOf
  apply Gives.get_bind
  cases limits? s.settings.stepLimit with
  | none => exact .throw .emptyLimit s
  | some l =>
      dsimp only
      apply (gives_traceSteps _ s).seq
      intro s' _
      cases (Machine.run l program).outcome with
      | ok value => exact .pure value s'
      | error fault => exact .throw _ s'

theorem gives_normalForm? (source : String) (e : Term) (s : Session) :
    Gives (normalForm? source e) s (normalFormOf s.settings.reductionLimit e) := by
  unfold normalForm? normalFormOf
  apply Gives.get_bind
  dsimp only
  apply (gives_traceSteps _ s).seq
  intro s' _
  cases (Reduction.run s.settings.reductionLimit e).stop with
  | none => exact .pure _ s'
  | some stop =>
      cases stop with
      | flawed flaw => exact .throw _ s'
      | exhausted =>
          exact (gives_onConsole (Console.kept_warn _) s').seq fun s'' _ => .pure none s''

theorem gives_evaluation (source : String) (e : Term) (type : Ty) (program : List Instr)
    (value : Value) (normalForm : Option Term) (s : Session) :
    Gives (do
      if let some n := normalForm then
        unless agree value n do
          throw (.problem (.disagreement source value.brief n.text))
      return (⟨source, e, type, program, value, normalForm⟩ : Evaluation)) s
      (do
        crossCheck source value normalForm
        return ⟨source, e, type, program, value, normalForm⟩) := by
  cases normalForm with
  | none => exact .pure _ s
  | some n =>
      dsimp only [crossCheck]
      split
      · exact .pure _ s
      · exact .throw _ s

/-- The settings, the next type variable and the term decide an evaluation. -/
theorem gives_evaluate (source : String) (e : Term) (s : Session) :
    Gives (evaluate source e) s (verdict s.settings s.next source e) := by
  unfold evaluate verdict comparand
  apply (gives_infer e s).bind
  intro type s₁ h₁
  apply (gives_compile e s₁).bind
  intro program s₂ h₂
  rw [← (h₁.trans h₂).settings]
  apply (gives_execute program s₂).bind
  intro value s₃ h₃
  rw [← h₃.settings]
  apply Gives.get_bind
  dsimp only
  split
  · apply (gives_normalForm? source e s₃).bind
    intro normalForm s₄ _
    exact gives_evaluation source e type program value normalForm s₄
  · exact gives_evaluation source e type program value none s₃

end LambdaMachine.Session
