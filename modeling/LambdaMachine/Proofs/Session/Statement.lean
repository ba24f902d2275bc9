import LambdaMachine.Proofs.Session.Verdict

namespace LambdaMachine.Report.Console

theorem enterInto_enterInto (path : String) (entry entry' : Entry)
    (traceback : List (String × Entry)) :
    enterInto path entry' (enterInto path entry traceback) = enterInto path entry' traceback := by
  induction traceback with
  | nil => simp [enterInto]
  | cons found rest ih =>
      obtain ⟨p, e⟩ := found
      by_cases hp : p = path
      · simp [enterInto, hp]
      · simp [enterInto, hp, ih]

theorem registerFile_registerLine (path line : String) (number : Int) (c : Console) :
    (c.registerLine path line number).registerFile path = c.registerFile path := by
  simp only [registerFile, registerLine, enterInto_enterInto]

theorem kept_clearSteps (c : Console) : Kept c c.clearSteps :=
  ⟨rfl, rfl, rfl, rfl, "", by simp [clearSteps]⟩

theorem Kept.registerFile {c c' : Console} (h : Kept c c') (path : String) :
    Kept (c.registerFile path) (c'.registerFile path) :=
  ⟨h.colour, h.fatal, h.trace, congrArg (enterInto path {}) h.traceback, h.out⟩

theorem Kept.forgetLines {c c' : Console} (h : Kept c c') :
    Kept c.forgetLines c'.forgetLines := by
  refine ⟨h.colour, h.fatal, h.trace, ?_, h.out⟩
  simp only [Console.forgetLines, h.traceback]

theorem kept_reportError (d : Diagnostic) (c : Console) : Kept c (c.reportError d) := by
  unfold reportError
  dsimp only
  split
  · exact (kept_print _ c).trans (kept_print _ _)
  · exact kept_print _ c

theorem fail_of_not_fatal {c : Console} (hc : c.fatal = false) (d : Diagnostic) :
    fail d c = .ok () (c.reportError d).forgetLines := by
  have hfatal : (c.reportError d).fatal = false := (kept_reportError d c).fatal.trans hc
  simp only [fail, modify_bind, get_bind, hfatal]
  rfl

end LambdaMachine.Report.Console

namespace LambdaMachine.Report

def Signal.IsExit : Signal → Prop
  | .exit _ => True
  | _ => False

theorem Console.settle_of_unforeseen {c : Console} (hc : c.fatal = false) {signal : Signal}
    {kind text : String} (h : signal.unforeseen? = some (kind, text)) :
    settle signal c = .error signal (c.reportError (unknownError kind text)).forgetLines := by
  cases signal with
  | problem d => cases h
  | exit code => cases h
  | interrupted => cases h
  | tooDeep => cases h
  | _ =>
      cases h
      exact bind_of_ok (fail_of_not_fatal hc _) _

theorem Console.settle_of_not_fatal {c : Console} (hc : c.fatal = false) {signal : Signal}
    (h : ¬ signal.IsExit) :
    ∃ c', c.forgetLines.Kept c' ∧
      (settle signal c = .ok () c' ∨ settle signal c = .error signal c') := by
  have hreport : ∀ d, c.forgetLines.Kept (c.reportError d).forgetLines :=
    fun d => (kept_reportError d c).forgetLines
  cases signal with
  | exit code => exact absurd trivial h
  | problem d => exact ⟨_, hreport d, .inl (fail_of_not_fatal hc d)⟩
  | interrupted => exact ⟨_, hreport _, .inl (fail_of_not_fatal hc _)⟩
  | tooDeep => exact ⟨_, hreport _, .inl (fail_of_not_fatal hc _)⟩
  | _ => exact ⟨_, hreport _, .inr (settle_of_unforeseen hc rfl)⟩

end LambdaMachine.Report

namespace LambdaMachine.Session

open Report (Signal Console)

/-- A session between statements: nothing waits in it, and its file is registered without a
line. -/
structure Idle (s : Session) : Prop where
  queue : s.queue = []
  results : s.results = []
  traceback : s.console.traceback = [(s.path, {})]

theorem Kept.idle {s s' : Session} (h : Kept s s') (hs : Idle s) : Idle s' :=
  ⟨h.queue.trans hs.queue, h.results.trans hs.results, by
    rw [h.console.traceback, h.path, hs.traceback]⟩

theorem idle_start (settings : Settings) (colour trace interactive : Bool) (path : String) :
    Idle (start settings { colour := colour, trace := trace } path interactive) := by
  cases interactive <;> exact ⟨rfl, rfl, rfl⟩

/-- The session after a line is registered. -/
def atLine (s : Session) (source : String) (number : Int) : Session :=
  { s with console := s.console.registerLine s.path source number }

/-- What is made of an evaluation that a queued statement came to. -/
def conclude (number : Int) (source path : String) :
    EStateM.Result Signal Session Evaluation → EStateM.Result Signal Session Unit
  | .ok result s => .ok ()
      { s with
        console := s.console.registerFile path
        queue := s.queue.eraseP (·.1 == number)
        results := s.results ++ [result] }
  | .error signal s => .error (located source signal)
      { s with queue := s.queue.eraseP (·.1 == number) }

theorem runStatement_eq (number : Int) (st : Statement) (s : Session) :
    runStatement number st s = conclude number st.source s.path
      (evaluate st.source st.term
        { s.atLine st.source number with
          console := (s.atLine st.source number).console.clearSteps }) := by
  simp only [runStatement, get_bind, onConsole, modify_bind, atLine]
  generalize hwork : (evaluate st.source st.term >>= fun result =>
    modify fun s : Session => { s with results := s.results ++ [result] }) = work
  cases hevaluate : evaluate st.source st.term _ with
  | ok result s' =>
      have hran := (congrFun hwork _).symm.trans (bind_of_ok hevaluate _)
      exact bind_of_ok (tryCatch_of_ok hran _) _
  | error signal s' =>
      have hran := (congrFun hwork _).symm.trans (bind_of_error hevaluate _)
      exact bind_of_error (tryCatch_of_error hran (fun signal => do
        dequeue number
        throw (located st.source signal))) _

theorem runStatement_of_ok {s : Session} (st : Statement) {result : Evaluation}
    (h : verdict s.settings s.next st.source st.term = .ok result) (number : Int) :
    ∃ s', runStatement number st s = .ok () s' ∧
      Kept { s with
        console := s.console.registerFile s.path
        queue := s.queue.eraseP (·.1 == number)
        results := s.results ++ [result] } s' := by
  obtain ⟨s', hkept, hevaluate⟩ := gives_evaluate st.source st.term
    { s.atLine st.source number with console := (s.atLine st.source number).console.clearSteps }
  have hconsole := ((Console.kept_clearSteps _).trans hkept.console).registerFile s.path
  simp only [atLine, Console.registerFile_registerLine] at hconsole
  rw [runStatement_eq]
  simp only [atLine, h] at hevaluate
  simp only [atLine, hevaluate]
  exact ⟨_, rfl, hkept.settings, hkept.path, hkept.interactive,
    congrArg (List.eraseP _) hkept.queue, congrArg (· ++ [result]) hkept.results, hconsole⟩

theorem runStatement_of_error {s : Session} (st : Statement) {signal : Signal}
    (h : verdict s.settings s.next st.source st.term = .error signal) (number : Int) :
    ∃ s', runStatement number st s = .error (located st.source signal) s' ∧
      Kept { s.atLine st.source number with queue := s.queue.eraseP (·.1 == number) } s' := by
  obtain ⟨s', hkept, hevaluate⟩ := gives_evaluate st.source st.term
    { s.atLine st.source number with console := (s.atLine st.source number).console.clearSteps }
  have hconsole := (Console.kept_clearSteps _).trans hkept.console
  rw [runStatement_eq]
  simp only [atLine, h] at hevaluate
  simp only [atLine, hevaluate]
  exact ⟨_, rfl, hkept.settings, hkept.path, hkept.interactive,
    congrArg (List.eraseP _) hkept.queue, hkept.results, hconsole⟩

/-- The result of a text that is given to a session as a statement, or the signal that it ends
with. -/
def outcome (settings : Settings) (next : Int) (source : String) : Except Signal Evaluation :=
  match Source.read settings.constants source with
  | .error e => .error (.problem (Report.ofReadError source e))
  | .ok e => (verdict settings next source e).mapError (located source)

/-- Adds a statement and runs what waits. -/
def submit (source : String) (number : Int) : SessionM Unit := do
  add source number
  run

theorem add_of_ok {s : Session} {source : String} {e : Term}
    (h : Source.read s.settings.constants source = .ok e) (number : Int) :
    add source number s = .ok ()
      { s with
        console := s.console.registerFile s.path
        queue := enqueueInto number ⟨source, e⟩ s.queue } := by
  simp only [add, get_bind, onConsole, modify_bind, h]
  rw [← Console.registerFile_registerLine]
  rfl

theorem add_of_error {s : Session} {source : String} {error : Source.ReadError}
    (h : Source.read s.settings.constants source = .error error) (number : Int) :
    add source number s =
      .error (.problem (Report.ofReadError source error)) (s.atLine source number) := by
  simp only [add, get_bind, onConsole, modify_bind, h]
  rfl

theorem run_of_queue {s : Session} {number : Int} {st : Statement} (h : s.queue = [(number, st)]) :
    run s = runStatement number st s := by
  have hrun : run s = s.queue.forM (fun found => runStatement found.1 found.2) s := rfl
  rw [hrun, h]
  exact bind_pure_unit (runStatement number st) s

theorem Idle.registerFile {s : Session} (hs : Idle s) :
    s.console.registerFile s.path = s.console := by
  simp only [Console.registerFile, hs.traceback, Console.enterInto, if_true]
  rw [← hs.traceback]

theorem Idle.submit_of_read {s : Session} (hs : Idle s) {source : String} {e : Term}
    (h : Source.read s.settings.constants source = .ok e) (number : Int) :
    submit source number s =
      runStatement number ⟨source, e⟩ { s with queue := [(number, ⟨source, e⟩)] } := by
  rw [submit, bind_of_ok (add_of_ok h number), hs.registerFile, hs.queue]
  exact run_of_queue rfl

theorem eraseP_self (number : Int) (st : Statement) :
    [(number, st)].eraseP (fun found => found.1 == number) = [] := by
  simp

theorem Idle.submit_of_ok {s : Session} (hs : Idle s) {source : String} {result : Evaluation}
    (h : outcome s.settings s.next source = .ok result) (number : Int) :
    ∃ s', submit source number s = .ok () s' ∧ Kept { s with results := [result] } s' := by
  unfold outcome at h
  split at h
  · cases h
  · rename_i e hread
    cases hverdict : verdict s.settings s.next source e with
    | error signal =>
        rw [hverdict] at h
        cases h
    | ok result' =>
        rw [hverdict] at h
        cases h
        rw [hs.submit_of_read hread]
        obtain ⟨s', hrun, hkept⟩ := runStatement_of_ok ⟨source, e⟩
          (s := { s with queue := [(number, ⟨source, e⟩)] }) hverdict number
        refine ⟨s', hrun, ?_⟩
        simpa only [hs.registerFile, hs.queue, hs.results, eraseP_self, List.nil_append] using hkept

theorem Idle.submit_of_error {s : Session} (hs : Idle s) {source : String} {signal : Signal}
    (h : outcome s.settings s.next source = .error signal) (number : Int) :
    ∃ s', submit source number s = .error signal s' ∧ Kept (s.atLine source number) s' := by
  unfold outcome at h
  split at h
  · rename_i error hread
    cases h
    refine ⟨s.atLine source number, ?_, .refl _⟩
    exact bind_of_error (add_of_error hread number) _
  · rename_i e hread
    cases hverdict : verdict s.settings s.next source e with
    | ok result =>
        rw [hverdict] at h
        cases h
    | error signal' =>
        rw [hverdict] at h
        cases h
        rw [hs.submit_of_read hread]
        obtain ⟨s', hrun, hkept⟩ := runStatement_of_error ⟨source, e⟩
          (s := { s with queue := [(number, ⟨source, e⟩)] }) hverdict number
        refine ⟨s', hrun, ?_⟩
        simpa only [atLine, hs.queue, eraseP_self] using hkept

/-- A computation that may fail, but not with a request to end the program. -/
def Stays {α : Type} (r : Except Signal α) : Prop :=
  ∀ signal, r = .error signal → ¬ signal.IsExit

theorem Stays.ok {α : Type} (a : α) : Stays (.ok a) := by
  intro signal h
  cases h

theorem Stays.error {α : Type} {signal : Signal} (h : ¬ signal.IsExit) :
    Stays (.error signal : Except Signal α) := by
  intro signal' heq
  cases heq
  exact h

theorem Stays.bind {α β : Type} {r : Except Signal α} {k : α → Except Signal β} (h : Stays r)
    (hk : ∀ a, Stays (k a)) : Stays (r >>= k) := by
  cases r with
  | ok a => exact hk a
  | error signal => exact .error (h signal rfl)

theorem not_isExit_signalOf (d? : Option Report.Diagnostic) : ¬ (signalOf d?).IsExit := by
  cases d? <;> exact id

theorem stays_typeOf (constants : Source.Constants) (next : Int) (e : Term) :
    Stays (typeOf constants next e) := by
  unfold typeOf
  split
  · exact .ok _
  · exact .error (not_isExit_signalOf _)

theorem stays_programOf (e : Term) : Stays (programOf e) := by
  unfold programOf
  split
  · exact .error id
  · split
    · exact .error (not_isExit_signalOf _)
    · exact .ok _

theorem stays_valueOf (limit : StepLimit) (program : List Instr) :
    Stays (valueOf limit program) := by
  unfold valueOf
  split
  · exact .error id
  · split
    · exact .ok _
    · exact .error (not_isExit_signalOf _)

theorem stays_comparand (settings : Settings) (e : Term) : Stays (comparand settings e) := by
  unfold comparand normalFormOf
  split
  · split
    · exact .ok _
    · exact .error (not_isExit_signalOf _)
    · exact .ok _
  · exact .ok _

theorem stays_crossCheck (source : String) (value : Value) (normalForm : Option Term) :
    Stays (crossCheck source value normalForm) := by
  unfold crossCheck
  split
  · exact .ok _
  · split
    · exact .ok _
    · exact .error id

theorem stays_verdict (settings : Settings) (next : Int) (source : String) (e : Term) :
    Stays (verdict settings next source e) := by
  refine (stays_typeOf _ next e).bind fun type => (stays_programOf e).bind fun program => ?_
  refine (stays_valueOf _ program).bind fun value => (stays_comparand settings e).bind fun n => ?_
  exact (stays_crossCheck source value n).bind fun _ => .ok _

theorem not_isExit_located {signal : Signal} (h : ¬ signal.IsExit) (source : String) :
    ¬ (located source signal).IsExit := by
  unfold located
  split
  · split
    · split <;> exact id
    · exact id
  · exact h

theorem stays_outcome (settings : Settings) (next : Int) (source : String) :
    Stays (outcome settings next source) := by
  unfold outcome
  split
  · exact .error id
  · rename_i e _
    cases hverdict : verdict settings next source e with
    | ok result => exact .ok result
    | error signal =>
        exact .error (not_isExit_located (stays_verdict settings next source e signal hverdict) _)

/-- Work on a line comes to a result and leaves the session as it was, but for type variables and
what is printed, or it comes to a signal and leaves the line registered. -/
inductive Attempts {α : Type} (work : SessionM α) (s : Session) (source : String) (number : Int) :
    Except Signal α → Prop where
  | ok {a : α} {s' : Session} (h : work s = .ok a s') (hkept : Kept s s') :
      Attempts work s source number (.ok a)
  | error {signal : Signal} {s' : Session} (h : work s = .error signal s')
      (hkept : Kept (s.atLine source number) s') :
      Attempts work s source number (.error signal)

theorem Attempts.resultOf_eq {α : Type} {work : SessionM α} {s : Session} {source : String}
    {number : Int} {r : Except Signal α} (h : Attempts work s source number r) :
    resultOf (work s) = r := by
  cases h with
  | ok h => rw [h]; rfl
  | error h => rw [h]; rfl

theorem Idle.forgetLines_atLine {s : Session} (hs : Idle s) (source : String) (number : Int) :
    (s.atLine source number).console.forgetLines = s.console := by
  simp only [atLine, Console.forgetLines, Console.registerLine, hs.traceback, Console.enterInto,
    if_true, List.map_cons, List.map_nil]
  rw [← hs.traceback]

theorem Idle.kept_guarded {α : Type} {s : Session} (hs : Idle s)
    (hfatal : s.console.fatal = false) {work : SessionM α} {source : String} {number : Int}
    {r : Except Signal α} (h : Attempts work s source number r) (hr : Stays r) :
    Kept s (stateOf (guarded work s)) := by
  cases h with
  | ok h hkept =>
      simp only [guarded, h]
      exact hkept
  | @error signal s' h hkept =>
      have hfatal' : s'.console.fatal = false := hkept.console.fatal.trans hfatal
      obtain ⟨c, hc, hsettle⟩ := Console.settle_of_not_fatal hfatal' (hr signal rfl)
      have hconsole : s.console.Kept c := by
        have hforget := hkept.console.forgetLines
        rw [hs.forgetLines_atLine] at hforget
        exact hforget.trans hc
      have hkept' : Kept s { s' with console := c } :=
        ⟨hkept.settings, hkept.path, hkept.interactive, hkept.queue, hkept.results, hconsole⟩
      rcases hsettle with hsettle | hsettle
      · simpa only [guarded, h, hsettle, stateOf] using hkept'
      · simpa only [guarded, h, hsettle, stateOf] using hkept'

/-- Runs a statement and takes its result. -/
def take (source : String) (number : Int) : SessionM Evaluation := do
  submit source number
  pop

theorem Idle.attempts_take {s : Session} (hs : Idle s) (source : String) (number : Int) :
    Attempts (take source number) s source number (outcome s.settings s.next source) := by
  cases houtcome : outcome s.settings s.next source with
  | ok result =>
      obtain ⟨s', hsubmit, hkept⟩ := hs.submit_of_ok houtcome number
      have hpopped : Kept s { s' with results := [] } :=
        ⟨hkept.settings, hkept.path, hkept.interactive, hkept.queue, hs.results.symm, hkept.console⟩
      refine .ok ?_ hpopped
      have hresults : s'.results = [result] := hkept.results
      rw [take, bind_of_ok hsubmit, pop, get_bind, hresults]
      rfl
  | error signal =>
      obtain ⟨s', hsubmit, hkept⟩ := hs.submit_of_error houtcome number
      refine .error ?_ hkept
      exact bind_of_error hsubmit _

end LambdaMachine.Session
