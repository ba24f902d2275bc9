import LambdaMachine.Proofs.Session.Renumbered
import LambdaMachine.Proofs.Source.Content
import LambdaMachine.Shell

namespace LambdaMachine

open Report (Signal Console)

namespace Session

theorem Attempts.print {α : Type} {work : SessionM α} {s : Session} {source : String}
    {number : Int} {r : Except Signal α} (h : Attempts work s source number r)
    (text : α → String) :
    Attempts (do let a ← work; onConsole (·.print (text a))) s source number
      (r.map fun _ => ()) := by
  cases h with
  | @ok a s' h hkept =>
      obtain ⟨s'', hkept', hprint⟩ := gives_onConsole (Console.kept_print (text a)) s'
      exact .ok ((bind_of_ok h _).trans hprint) (hkept.trans hkept')
  | error h hkept => exact .error (bind_of_error h _) hkept

theorem Stays.map {α β : Type} {r : Except Signal α} (h : Stays r) (f : α → β) :
    Stays (r.map f) := by
  cases r with
  | ok a => exact .ok (f a)
  | error signal => exact .error (h signal rfl)

end Session

namespace Shell

open Session (Idle Kept Attempts Stays outcome)

/-- A shell on a session that has just been started for a user. -/
def start (settings : Settings) (colour trace : Bool) : Shell :=
  { session := .start settings { colour := colour, trace := trace } Session.userPath true }

/-- The shell after some lines, unless it ends on the way. -/
def after : List String → Shell → Option Shell
  | [], sh => some sh
  | line :: rest, sh =>
      match feed line sh with
      | .ok false sh' => after rest sh'
      | _ => none

/-- Runs a statement, prints its result, and settles what goes wrong. -/
def carryOut (source : String) (number : Nat) : SessionM (Option Unit) :=
  Session.guarded do
    let result ← Session.take source number
    Session.onConsole (·.print result.text)

theorem runLine_eq {s : Session} (hs : Idle s) (source : String) (number : Nat) :
    runLine source number s = (do
      let result ← Session.take source number
      Session.onConsole (·.print result.text)) s := by
  have hline : runLine source number = (do
      Session.submit source number
      unless (← get).results.isEmpty do
        let result ← Session.pop
        Session.onConsole (·.print result.text)) := by
    simp only [runLine, Session.submit, bind_assoc]
  rw [hline, Session.take, bind_assoc]
  cases houtcome : outcome s.settings s.next source with
  | ok result =>
      obtain ⟨s', hsubmit, hkept⟩ := hs.submit_of_ok houtcome number
      have hresults : s'.results = [result] := hkept.results
      rw [bind_of_ok hsubmit, bind_of_ok hsubmit, get_bind, hresults]
      rfl
  | error signal =>
      obtain ⟨s', hsubmit, -⟩ := hs.submit_of_error houtcome number
      rw [bind_of_error hsubmit, bind_of_error hsubmit]

theorem guarded_runLine {s : Session} (hs : Idle s) (source : String) (number : Nat) :
    Session.guarded (runLine source number) s = carryOut source number s := by
  unfold carryOut Session.guarded
  rw [runLine_eq hs]

/-- Looks at a term without running it, as a part of the work of the session. -/
def examine (source : String) (look : Term → SessionM String) (number : Nat) : SessionM Unit := do
  let s ← get
  Session.onConsole (·.registerLine s.path source number)
  match Source.read s.settings.constants source with
  | .error e => throw (.problem (Report.ofReadError source e))
  | .ok e =>
      let text ← look e
      Session.onConsole (·.print text)
      Session.onConsole (·.registerFile s.path)

theorem inspect_eq (source : String) (look : Term → SessionM String) (sh : Shell) :
    inspect source look sh =
      (discard (inSession (Session.guarded (examine source look (sh.line + 1)))) : ShellM Unit)
        { sh with line := sh.line + 1 } :=
  rfl

theorem session_inSession {α : Type} (work : SessionM α) (sh : Shell) :
    (stateOf (inSession work sh)).session = stateOf (work sh.session) := by
  unfold inSession
  cases work sh.session <;> rfl

/-- A look at a term that changes only type variables and what is printed. -/
def Looks (look : Term → SessionM String) : Prop :=
  ∀ e s, ∃ r, Session.Gives (look e) s r ∧ Stays r

theorem looks_type : Looks fun e => return (← Session.infer e).text := by
  intro e s
  refine ⟨_, (Session.gives_infer e s).bind fun type s' _ => .pure type.text s', ?_⟩
  exact (Session.stays_typeOf _ _ e).bind fun type => .ok type.text

theorem looks_code : Looks fun e => return codeText (← Session.compile e) := by
  intro e s
  refine ⟨_, (Session.gives_compile e s).bind fun program s' _ => .pure (codeText program) s', ?_⟩
  exact (Session.stays_programOf e).bind fun program => .ok (codeText program)

theorem examine_of_error {s : Session} {source : String} {error : Source.ReadError}
    (h : Source.read s.settings.constants source = .error error) (look : Term → SessionM String)
    (number : Nat) :
    examine source look number s =
      .error (.problem (Report.ofReadError source error)) (s.atLine source number) := by
  simp only [examine, get_bind, Session.onConsole, modify_bind, h]
  rfl

theorem examine_of_ok {s : Session} {source : String} {e : Term}
    (h : Source.read s.settings.constants source = .ok e) (look : Term → SessionM String)
    (number : Nat) :
    examine source look number s = (do
      let text ← look e
      Session.onConsole (·.print text)
      Session.onConsole (·.registerFile s.path)) (s.atLine source number) := by
  simp only [examine, get_bind, Session.onConsole, modify_bind, h]
  rfl

theorem attempts_examine {s : Session} (hs : Idle s) {look : Term → SessionM String}
    (hlook : Looks look) (source : String) (number : Nat) :
    ∃ r, Attempts (examine source look number) s source number r ∧ Stays r := by
  cases hread : Source.read s.settings.constants source with
  | error error => exact ⟨_, .error (examine_of_error hread look number) (.refl _), .error id⟩
  | ok e =>
      obtain ⟨r, ⟨s', hkept, hr⟩, hstays⟩ := hlook e (s.atLine source number)
      have hexamine := examine_of_ok hread look number
      cases r with
      | error signal =>
          exact ⟨_, .error (hexamine.trans (bind_of_error hr _)) hkept, .error (hstays signal rfl)⟩
      | ok text =>
          refine ⟨_, .ok (hexamine.trans (bind_of_ok hr _)) ?_, .ok ()⟩
          have hconsole :=
            (hkept.console.trans (Console.kept_print text _)).registerFile s.path
          rw [Session.atLine, Console.registerFile_registerLine, hs.registerFile] at hconsole
          exact ⟨hkept.settings, hkept.path, hkept.interactive, hkept.queue, hkept.results,
            hconsole⟩

theorem kept_inspect {sh : Shell} (hs : Idle sh.session)
    (hfatal : sh.session.console.fatal = false) {look : Term → SessionM String}
    (hlook : Looks look) (source : String) :
    Kept sh.session (stateOf (inspect source look sh)).session := by
  obtain ⟨r, hattempts, hstays⟩ := attempts_examine hs hlook source (sh.line + 1)
  rw [inspect_eq, stateOf_discard, session_inSession]
  exact hs.kept_guarded hfatal hattempts hstays

theorem kept_print (text : String) (sh : Shell) :
    Kept sh.session (stateOf (print text sh)).session := by
  obtain ⟨s', hkept, hprint⟩ := Session.gives_onConsole (Console.kept_print text) sh.session
  rw [print, session_inSession, hprint]
  exact hkept

theorem kept_run {sh : Shell} (hs : Idle sh.session) (hfatal : sh.session.console.fatal = false)
    (command : Command) (argument : String) :
    Kept sh.session (stateOf (command.run argument sh)).session := by
  cases command with
  | type =>
      rw [Command.run, stateOf_bind_pure]
      exact kept_inspect hs hfatal looks_type argument
  | code =>
      rw [Command.run, stateOf_bind_pure]
      exact kept_inspect hs hfatal looks_code argument
  | help =>
      rw [Command.run, stateOf_bind_pure]
      exact kept_print _ sh
  | exit => exact .refl _
  | endOfInput =>
      rw [Command.run, stateOf_bind_pure]
      exact kept_print _ sh

/-- The shell after a line that is a part of a statement, of which the given text is left. -/
def counted (sh : Shell) (pending : String) : Shell :=
  { sh with pending := pending, continued := Source.isOpen pending, line := sh.line + 1 }

theorem isOpen_empty : Source.isOpen "" = false := by
  decide

theorem countLine_bind {α : Type} (k : Nat → ShellM α) (sh : Shell) :
    (countLine >>= k) sh = k (sh.line + 1) { sh with line := sh.line + 1 } :=
  rfl

section TakeStatement

variable {sh : Shell} {line text : String}
  (h : Source.content (sh.pending ++ " " ++ line) = text)

include h

theorem takeStatement_of_open (hopen : Source.isOpen text = true) :
    takeStatement line sh = .ok () (sh.counted text) := by
  subst h
  simp only [takeStatement, countLine_bind, get_bind, modify_bind, counted, hopen]
  rfl

theorem takeStatement_of_empty (hempty : text = "") :
    takeStatement line sh = .ok () (sh.counted "") := by
  subst hempty
  simp only [takeStatement, countLine_bind, get_bind, modify_bind, counted, h, isOpen_empty]
  rfl

theorem takeStatement_of_closed (hs : Idle sh.session) (hopen : Source.isOpen text = false)
    (hne : text ≠ "") :
    takeStatement line sh =
      (discard (inSession (carryOut text (sh.line + 1))) : ShellM Unit) (sh.counted "") := by
  have hempty : text.isEmpty = false := by simpa using hne
  have hrun : inSession (Session.guarded (runLine text (sh.line + 1))) (sh.counted "") =
      inSession (carryOut text (sh.line + 1)) (sh.counted "") := by
    have hs' : Idle (sh.counted "").session := hs
    unfold inSession
    rw [guarded_runLine hs']
  have htake : takeStatement line sh =
      (discard (inSession (Session.guarded (runLine text (sh.line + 1)))) : ShellM Unit)
        (sh.counted "") := by
    simp only [takeStatement, countLine_bind, get_bind, modify_bind, counted, h, hopen, hempty,
      isOpen_empty]
    rfl
  exact htake.trans (discard_run_congr hrun)

end TakeStatement

theorem kept_takeStatement {sh : Shell} (hs : Idle sh.session)
    (hfatal : sh.session.console.fatal = false) (line : String) :
    Kept sh.session (stateOf (takeStatement line sh)).session := by
  generalize htext : Source.content (sh.pending ++ " " ++ line) = text
  cases hopen : Source.isOpen text with
  | true =>
      rw [takeStatement_of_open htext hopen]
      exact .refl _
  | false =>
      by_cases hempty : text = ""
      · rw [takeStatement_of_empty htext hempty]
        exact .refl _
      · have hattempts := (hs.attempts_take text (sh.line + 1)).print (·.text)
        have hstays := (Session.stays_outcome sh.session.settings sh.session.next text).map
          fun _ => ()
        rw [takeStatement_of_closed htext hs hopen hempty, stateOf_discard, session_inSession]
        exact hs.kept_guarded hfatal hattempts hstays

theorem feed_of_blank {line : String} (h : Text.trim line.toList = []) (sh : Shell) :
    feed line sh = .ok false sh := by
  rw [feed, h]
  rfl

theorem ne_nil_of_command? {line : List Char} {found : Command × String}
    (h : command? line = some found) : line ≠ [] := by
  rintro rfl
  have hnone : command? [] = none := by rfl
  rw [hnone] at h
  cases h

theorem feed_of_command {line argument : String} {command : Command}
    (h : command? (Text.trim line.toList) = some (command, argument)) (sh : Shell) :
    feed line sh = command.run argument sh := by
  have hempty : (Text.trim line.toList).isEmpty = false := by simpa using ne_nil_of_command? h
  simp only [feed, hempty, h]
  rfl

theorem feed_of_statement {line : String} (hne : Text.trim line.toList ≠ [])
    (h : command? (Text.trim line.toList) = none) (sh : Shell) :
    feed line sh =
      (takeStatement (String.ofList (Text.trim line.toList)) >>= fun _ => pure false) sh := by
  have hempty : (Text.trim line.toList).isEmpty = false := by simpa using hne
  simp only [feed, hempty, h]
  rfl

/-- Whatever a line is, it leaves an idle session as it was. -/
theorem kept_feed {sh : Shell} (hs : Idle sh.session) (hfatal : sh.session.console.fatal = false)
    (line : String) : Kept sh.session (stateOf (feed line sh)).session := by
  by_cases hblank : Text.trim line.toList = []
  · rw [feed_of_blank hblank]
    exact .refl _
  · cases hcommand : command? (Text.trim line.toList) with
    | some found =>
        rw [feed_of_command hcommand]
        exact kept_run hs hfatal _ _
    | none =>
        rw [feed_of_statement hblank hcommand, stateOf_bind_pure]
        exact kept_takeStatement hs hfatal _

theorem kept_after {lines : List String} {sh sh' : Shell} (h : after lines sh = some sh')
    (hs : Idle sh.session) (hfatal : sh.session.console.fatal = false) :
    Kept sh.session sh'.session := by
  induction lines generalizing sh with
  | nil =>
      cases h
      exact .refl _
  | cons line lines ih =>
      have hkept := kept_feed hs hfatal line
      rw [after] at h
      split at h
      · rename_i sh'' hfeed
        rw [hfeed] at hkept
        exact hkept.trans (ih h (hkept.idle hs) (hkept.console.fatal.trans hfatal))
      · cases h

/-- A line that is one whole statement. -/
structure Complete (line : String) : Prop where
  command : command? (Text.trim line.toList) = none
  content : Source.content line ≠ ""
  closed : Source.isOpen (Source.content line) = false

theorem feed_of_complete {sh : Shell} (hs : Idle sh.session) (hpending : sh.pending = "")
    {line : String} (hline : Complete line) :
    feed line sh = (do
      discard (inSession (carryOut (Source.content line) (sh.line + 1)))
      return false : ShellM Bool) (sh.counted "") := by
  have hne : Text.trim line.toList ≠ [] := fun h => hline.content (Source.content_of_blank h)
  have htext : Source.content (sh.pending ++ " " ++ String.ofList (Text.trim line.toList)) =
      Source.content line := by
    rw [hpending, String.empty_append]
    exact Source.content_space_trim line
  rw [feed_of_statement hne hline.command]
  exact bind_run_congr (takeStatement_of_closed htext hs hline.closed hline.content) _

theorem pending_inSession {α : Type} (work : SessionM α) (sh : Shell) :
    (stateOf (inSession work sh)).pending = sh.pending := by
  unfold inSession
  cases work sh.session <;> rfl

/-- Statements are independent: after any lines that neither end the shell nor leave a statement
incomplete, a line that is one whole statement is carried out as in a shell that has just been
started. It comes to the same value, program and normal form with an equivalent type, or to an error
of the same class, and nothing of it is left in the session. -/
theorem statements_independent {settings : Settings}
    (hconstants : ∀ b ∈ settings.constants, b.2.Ground) {colour trace : Bool}
    {history : List String} {sh : Shell}
    (hhistory : after history (start settings colour trace) = some sh) (hpending : sh.pending = "")
    {line : String} (hline : Complete line) :
    feed line sh = (do
      discard (inSession (carryOut (Source.content line) (sh.line + 1)))
      return false : ShellM Bool) (sh.counted "") ∧
    feed line (start settings colour trace) = (do
      discard (inSession (carryOut (Source.content line) 1))
      return false : ShellM Bool) ((start settings colour trace).counted "") ∧
    Session.Same sh.session.next
      (resultOf (Session.take (Source.content line) 1 (start settings colour trace).session))
      (resultOf (Session.take (Source.content line) (sh.line + 1) sh.session)) ∧
    Idle (stateOf (feed line sh)).session ∧ (stateOf (feed line sh)).pending = "" := by
  have hstart : Idle (start settings colour trace).session :=
    Session.idle_start settings colour trace true Session.userPath
  have hkept := kept_after hhistory hstart rfl
  have hs : Idle sh.session := hkept.idle hstart
  have hsettings : sh.session.settings = settings := hkept.settings
  have hfatal : sh.session.console.fatal = false := hkept.console.fatal
  have hfeed := feed_of_complete hs hpending hline
  refine ⟨hfeed, feed_of_complete hstart rfl hline, ?_, (kept_feed hs hfatal line).idle hs, ?_⟩
  · rw [(hstart.attempts_take _ _).resultOf_eq, (hs.attempts_take _ _).resultOf_eq, hsettings]
    have hsame := Session.same_outcome hconstants (Source.content line) 0 sh.session.next
    rwa [zero_add] at hsame
  · rw [hfeed, stateOf_bind_pure, stateOf_discard, pending_inSession]
    rfl

/-- A result, a type error, a line that cannot be read, a command and a statement on two lines. -/
def mixed : List String :=
  ["(λx. x)", "(1 true)", "(λ)", "type (λx. x)", "(λf.", "(f 1))"]

theorem statements_independent_mixed :
    (∀ b ∈ ({} : Settings).constants, b.2.Ground) ∧ Complete "(λx. x) ;; again" ∧
    ∃ sh, after mixed (start {} false false) = some sh ∧ sh.pending = "" ∧ sh.session.next = 5 ∧
      Session.Same 5 (resultOf (Session.take "(λx. x)" 1 (start {} false false).session))
        (resultOf (Session.take "(λx. x)" (sh.line + 1) sh.session)) ∧
      Idle (stateOf (feed "(λx. x) ;; again" sh)).session ∧
      (stateOf (feed "(λx. x) ;; again" sh)).pending = "" := by
  have hconstants : ∀ b ∈ ({} : Settings).constants, b.2.Ground := by
    have hbool : Ty.bool.Ground := trivial
    simpa using hbool
  have hcontent : Source.content "(λx. x) ;; again" = "(λx. x)" := by decide
  have hcomplete : Complete "(λx. x) ;; again" :=
    ⟨rfl, by rw [hcontent]; decide, by rw [hcontent]; decide⟩
  have hafter : (after mixed (start {} false false)).map (fun sh => (sh.session.next, sh.pending)) =
      some (5, "") := by
    decide +kernel
  obtain ⟨sh, hsh, hpair⟩ := Option.map_eq_some_iff.mp hafter
  obtain ⟨hnext, hpending⟩ := Prod.mk.inj hpair
  obtain ⟨-, -, hsame, hidle, hpending'⟩ :=
    statements_independent hconstants hsh hpending hcomplete
  rw [hnext, hcontent] at hsame
  exact ⟨hconstants, hcomplete, sh, hsh, hpending, hnext, hsame, hidle, hpending'⟩

end Shell

end LambdaMachine
