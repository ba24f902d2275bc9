import LambdaMachine.CommandLine.Program
import LambdaMachine.Proofs.Session.File
import LambdaMachine.Proofs.Shell.Independence

namespace LambdaMachine

namespace Source

/-- What is known of a statement, with a further line. -/
def joined (text line : String) : String :=
  if text.isEmpty then content line else extended text line

theorem joined_of_ne {text : String} (h : text ≠ "") (line : String) :
    joined text line = extended text line := by
  simp [joined, h]

theorem extended_ne {text : String} (h : text ≠ "") (line : String) : extended text line ≠ "" := by
  unfold extended
  split
  · exact h
  · simp [h]

theorem foldl_joined {text : String} (h : text ≠ "") (lines : List String) :
    lines.foldl joined text = lines.foldl extended text := by
  induction lines generalizing text with
  | nil => rw [List.foldl_nil, List.foldl_nil]
  | cons line lines ih =>
      rw [List.foldl_cons, List.foldl_cons, joined_of_ne h]
      exact ih (extended_ne h line)

theorem addLines_of_single {lines : List String} {wss : List (List Word)}
    (hlines : List.Forall₂ Holds lines wss) (hwhole : Whole wss.flatten) (n : Nat) :
    ∃ k, ({} : Layout).addLines n lines = ⟨[(lines.foldl joined "", k)], false⟩ := by
  induction hlines generalizing n with
  | nil => exact absurd rfl hwhole.ne_nil
  | @cons line us lines wss hline hlines ih =>
      rw [List.flatten_cons] at hwhole
      rw [Layout.addLines_cons, List.foldl_cons]
      cases hempty : (content line).isEmpty with
      | true =>
          have hcontent : joined "" line = "" := String.isEmpty_iff.mp hempty
          have hus := hline.isEmpty_content.mp hempty
          rw [hus, List.nil_append] at hwhole
          rw [Layout.addLine_of_empty hempty, hcontent]
          exact ih hwhole (n + 1)
      | false =>
          have hus : us ≠ [] := fun hus => by simp [hline.isEmpty_content.mpr hus] at hempty
          have hne : content line ≠ "" := by simpa using hempty
          have hspells := spells_foldl_extended hlines hline.spells_content
          have hclosed := hwhole.isOpen_eq_false hspells
          refine ⟨n, ?_⟩
          rw [Layout.addLine_of_start hempty rfl,
            Layout.addLines_of_whole hlines hline.spells_content hus hwhole, hclosed]
          show _ = Layout.mk [(lines.foldl joined (content line), n)] false
          rw [foldl_joined hne]

theorem statements_of_single {lines : List String} {wss : List (List Word)}
    (hlines : List.Forall₂ Holds lines wss) (hwhole : Whole wss.flatten) :
    ∃ number, statements lines = [(lines.foldl joined "", number)] := by
  obtain ⟨number, hadd⟩ := addLines_of_single hlines hwhole 1
  refine ⟨number, ?_⟩
  show (Layout.addLines {} 1 lines).statements.reverse = _
  rw [hadd]
  rfl

theorem spells_joined {text line : String} {ws us : List Word} (h : Spells text.toList ws)
    (hline : Holds line us) : Spells (joined text line).toList (ws ++ us) := by
  by_cases hempty : text = ""
  · subst hempty
    rw [h.eq_nil]
    exact hline.spells_content
  · rw [joined_of_ne hempty]
    exact spells_extended h hline

theorem tight_joined {text : String} (h : Text.Tight text.toList) (line : String) :
    Text.Tight (joined text line).toList := by
  by_cases hempty : text = ""
  · subst hempty
    exact tight_content line
  · rw [joined_of_ne hempty, extended]
    split
    · exact h
    · rename_i hcontent
      rw [String.toList_append, String.toList_append, List.append_assoc]
      exact h.append (tight_content line) (by simpa using hempty) (by simpa using hcontent) _

theorem content_eq_joined {text : String} (h : Text.Tight text.toList) (hcode : ';' ∉ text.toList)
    (line : String) :
    content (text ++ " " ++ String.ofList (Text.trim line.toList)) = joined text line := by
  by_cases hempty : text = ""
  · subst hempty
    exact content_space_trim line
  · rw [joined_of_ne hempty]
    exact content_join hempty h hcode line

theorem joined_of_blank {line : String} (h : Text.trim line.toList = []) (text : String) :
    joined text line = text := by
  have hcontent := content_of_blank h
  by_cases hempty : text = ""
  · subst hempty
    exact hcontent
  · rw [joined_of_ne hempty, extended, hcontent, if_pos (String.isEmpty_iff.mpr rfl)]

theorem eq_empty_of_spells {text : String} (h : Spells text.toList [])
    (htight : Text.Tight text.toList) : text = "" := by
  have htrim := Text.trim_append_of_blank_left h.blank_of_nil []
  rw [List.append_nil, htight.trim_eq] at htrim
  exact String.toList_eq_nil_iff.mp htrim

end Source

namespace Shell

open Report (Signal)
open Session (Idle Means)
open Source (Holds Spells Word Whole nesting joined)

/-- A shell that waits for the rest of a statement, of which it has taken the given words. -/
structure Pending (sh : Shell) (ws : List Word) : Prop where
  spells : Spells sh.pending.toList ws
  tight : Text.Tight sh.pending.toList

theorem feed_of_part {sh : Shell} {ws us : List Word} (hsh : Pending sh ws) {line : String}
    (hline : Holds line us) (hcommand : command? (Text.trim line.toList) = none)
    (hopen : ws ++ us ≠ [] → 0 < nesting (ws ++ us)) :
    ∃ sh', feed line sh = .ok false sh' ∧ sh'.session = sh.session ∧
      sh'.pending = joined sh.pending line := by
  by_cases hblank : Text.trim line.toList = []
  · exact ⟨sh, feed_of_blank hblank sh, rfl, (Source.joined_of_blank hblank _).symm⟩
  · have htext := Source.content_eq_joined hsh.tight hsh.spells.not_semicolon line
    have hspells := Source.spells_joined hsh.spells hline
    have htight := Source.tight_joined hsh.tight line
    -- only comments so far leave nothing pending; anything else is open
    have hcounted : takeStatement (String.ofList (Text.trim line.toList)) sh =
        .ok () (sh.counted (joined sh.pending line)) := by
      by_cases hwords : ws ++ us = []
      · rw [hwords] at hspells
        have hempty := Source.eq_empty_of_spells hspells htight
        rw [takeStatement_of_empty htext hempty, hempty]
      · refine takeStatement_of_open htext ?_
        rw [Source.isOpen_eq hspells, decide_eq_true_eq]
        exact hopen hwords
    refine ⟨sh.counted (joined sh.pending line), ?_, rfl, rfl⟩
    rw [feed_of_statement hblank hcommand]
    exact bind_of_ok hcounted _

theorem after_of_parts {lines : List String} {wss : List (List Word)}
    (hlines : List.Forall₂ Holds lines wss) {sh : Shell} {ws : List Word} (hsh : Pending sh ws)
    (hcommand : ∀ line ∈ lines, command? (Text.trim line.toList) = none)
    (hopen : ∀ us vs, ws ++ wss.flatten = us ++ vs → us ≠ [] → 0 < nesting us) :
    ∃ sh', after lines sh = some sh' ∧ sh'.session = sh.session ∧
      sh'.pending = lines.foldl joined sh.pending ∧ Pending sh' (ws ++ wss.flatten) := by
  induction hlines generalizing sh ws with
  | nil => exact ⟨sh, rfl, rfl, rfl, by simpa using hsh⟩
  | @cons line us lines wss hline _ ih =>
      rw [List.flatten_cons, ← List.append_assoc] at hopen ⊢
      obtain ⟨sh', hfeed, hsession, hpending⟩ := feed_of_part hsh hline
        (hcommand line List.mem_cons_self) (hopen (ws ++ us) wss.flatten rfl)
      have hsh' : Pending sh' (ws ++ us) :=
        ⟨hpending ▸ Source.spells_joined hsh.spells hline,
          hpending ▸ Source.tight_joined hsh.tight line⟩
      obtain ⟨sh'', hafter, hsession', hpending', hsh''⟩ := ih hsh'
        (fun line' hmem => hcommand line' (List.mem_cons_of_mem _ hmem)) hopen
      refine ⟨sh'', ?_, hsession'.trans hsession, ?_, hsh''⟩
      · rw [after, hfeed]
        exact hafter
      · rw [hpending', hpending, List.foldl_cons]

theorem feed_of_last {sh : Shell} {ws us : List Word} (hsh : Pending sh ws)
    (hs : Idle sh.session) {line : String} (hline : Holds line us) (hus : us ≠ [])
    (hcommand : command? (Text.trim line.toList) = none) (hwhole : Whole (ws ++ us)) :
    feed line sh = (do
      discard (inSession (carryOut (joined sh.pending line) (sh.line + 1)))
      return false : ShellM Bool) (sh.counted "") := by
  have htext := Source.content_eq_joined hsh.tight hsh.spells.not_semicolon line
  have hspells := Source.spells_joined hsh.spells hline
  have hclosed := hwhole.isOpen_eq_false hspells
  have hne : joined sh.pending line ≠ "" := by
    intro hempty
    rw [hempty] at hspells
    exact hwhole.ne_nil hspells.eq_nil
  have hblank : Text.trim line.toList ≠ [] := by
    intro hblank
    have hcontent : (Source.content line).isEmpty = true :=
      String.isEmpty_iff.mpr (Source.content_of_blank hblank)
    exact hus (hline.isEmpty_content.mp hcontent)
  rw [feed_of_statement hblank hcommand]
  exact bind_run_congr (takeStatement_of_closed htext hs hclosed hne) _

theorem carryOut_of_ok {s : Session} (hs : Idle s) {source : String} {result : Evaluation}
    (h : Session.outcome s.settings s.next source = .ok result) (number : Nat) :
    ∃ s' before, carryOut source number s = .ok (some ()) s' ∧
      s'.console.out = s.console.out ++ before ++ (result.text ++ "\n") := by
  have hattempts := hs.attempts_take source number
  rw [h] at hattempts
  cases hattempts with
  | @ok _ s' htake hkept =>
      obtain ⟨before, hbefore⟩ := hkept.console.out
      refine ⟨{ s' with console := s'.console.print result.text }, before, ?_, ?_⟩
      · rw [carryOut, Session.guarded, bind_of_ok htake]
        rfl
      · rw [← hbefore]
        rfl

theorem pending_run (command : Command) (argument : String) (sh : Shell) :
    (stateOf (command.run argument sh)).pending = sh.pending := by
  cases command with
  | type => rw [Command.run, stateOf_bind_pure, inspect_eq, stateOf_discard, pending_inSession]
  | code => rw [Command.run, stateOf_bind_pure, inspect_eq, stateOf_discard, pending_inSession]
  | help => rw [Command.run, stateOf_bind_pure, print, pending_inSession]
  | exit => rfl
  | endOfInput => rw [Command.run, stateOf_bind_pure, print, pending_inSession]

end Shell

namespace CommandLine

open Report (Signal)
open Session (Idle)

/-- Runs a statement and prints the results that wait. -/
def runSingle (source : String) (number : Nat) : SessionM Unit := do
  Session.submit source number
  (← get).results.forM fun result => Session.onConsole (·.print result.text)

theorem runFile_of_single {s : Session} (hpath : s.path ≠ Session.userPath)
    (hnull : '\x00' ∉ s.path.toList) {bytes : List UInt8} {chars : List Char}
    (hbytes : Text.Utf8.decode bytes = .ok chars) {source : String} {number : Nat}
    (hsource : Source.statements (Text.lines chars) = [(source, number)]) :
    runFile (some bytes) s = runSingle source number s := by
  have hload : Session.load (some bytes) s = Session.add source number s := by
    rw [Session.load_of_decode hpath hnull hbytes, hsource]
    exact bind_pure_unit (Session.add source number) s
  rw [runSingle, Session.submit, bind_assoc]
  exact bind_run_congr hload _

theorem runSingle_of_ok {s : Session} (hs : Idle s) {source : String} {result : Evaluation}
    (h : Session.outcome s.settings s.next source = .ok result) (number : Nat) :
    ∃ s' before, runSingle source number s = .ok () s' ∧ s'.results = [result] ∧
      s'.console.out = s.console.out ++ before ++ (result.text ++ "\n") := by
  obtain ⟨s', hsubmit, hkept⟩ := hs.submit_of_ok h number
  obtain ⟨before, hbefore⟩ := hkept.console.out
  have hprint : ∀ results, results = [result] →
      results.forM (fun result => Session.onConsole (·.print result.text)) s' =
        .ok () { s' with console := s'.console.print result.text } := by
    rintro results rfl
    rfl
  refine ⟨{ s' with console := s'.console.print result.text }, before, ?_, hkept.results, ?_⟩
  · rw [runSingle, bind_of_ok hsubmit, get_bind]
    exact hprint s'.results hkept.results
  · rw [← hbefore]
    rfl

theorem runSingle_of_error {s : Session} (hs : Idle s) {source : String} {signal : Signal}
    (h : Session.outcome s.settings s.next source = .error signal) (number : Nat) :
    ∃ s', runSingle source number s = .error signal s' := by
  obtain ⟨s', hsubmit, -⟩ := hs.submit_of_error h number
  exact ⟨s', bind_of_error hsubmit _⟩

end CommandLine

namespace Shell

open Report (Signal)
open Session (Idle Means)
open Source (Holds Word joined)

/-- The line that completes a statement and the run of a file come to the same: the same result is
printed last, or the same signal ends the evaluation, and the shell settles it. -/
inductive Agrees (sh : Shell) (line source : String) (run : EStateM.Result Signal Session Unit) :
    Prop where
  | result {result : Evaluation} {sh' : Shell} {s' : Session} {before before' : String}
      (htake : resultOf (Session.take source (sh.line + 1) sh.session) = .ok result)
      (hshell : feed line sh = .ok false sh')
      (hprinted : sh'.session.console.out =
        sh.session.console.out ++ before ++ (result.text ++ "\n"))
      (hfile : run = .ok () s') (hresults : s'.results = [result])
      (hprinted' : s'.console.out = before' ++ (result.text ++ "\n")) : Agrees sh line source run
  | signal {signal : Signal} {s' : Session}
      (htake : resultOf (Session.take source (sh.line + 1) sh.session) = .error signal)
      (hfile : run = .error signal s') : Agrees sh line source run

theorem agrees_of_single {settings : Settings} {colour trace : Bool} {sh : Shell}
    (hsession : sh.session = (start settings colour trace).session) {line source : String}
    (hfeed : feed line sh = (do
      discard (inSession (carryOut source (sh.line + 1)))
      return false : ShellM Bool) (sh.counted "")) {path : String} (hpath : path ≠ Session.userPath)
    (hnull : '\x00' ∉ path.toList) {bytes : List UInt8} {chars : List Char}
    (hbytes : Text.Utf8.decode bytes = .ok chars) {number : Nat}
    (hsource : Source.statements (Text.lines chars) = [(source, number)]) :
    Agrees sh line source (CommandLine.runFile (some bytes)
      (.start settings { colour := colour, trace := trace } path false)) := by
  have hidle := Session.idle_start settings colour trace false path
  have hs : Idle sh.session :=
    hsession ▸ Session.idle_start settings colour trace true Session.userPath
  have hshell : Session.outcome sh.session.settings sh.session.next source =
      Session.outcome settings 0 source := by
    rw [hsession]
    rfl
  rw [CommandLine.runFile_of_single hpath hnull hbytes hsource]
  cases houtcome : Session.outcome settings 0 source with
  | ok result =>
      obtain ⟨s', before, hcarry, hprinted⟩ :=
        carryOut_of_ok hs (hshell.trans houtcome) (sh.line + 1)
      obtain ⟨s'', before', hrun, hresults, hprinted'⟩ :=
        CommandLine.runSingle_of_ok hidle houtcome number
      have hin : inSession (carryOut source (sh.line + 1)) (sh.counted "") =
          .ok (some ()) { sh.counted "" with session := s' } := by
        have hcarry' : carryOut source (sh.line + 1) (sh.counted "").session =
            .ok (some ()) s' := hcarry
        simp only [inSession, hcarry']
      have hline : feed line sh = .ok false { sh.counted "" with session := s' } := by
        rw [hfeed]
        exact bind_of_ok (discard_of_ok hin) _
      refine .result ?_ hline hprinted hrun hresults hprinted'
      rw [(hs.attempts_take source (sh.line + 1)).resultOf_eq, hshell, houtcome]
  | error signal =>
      obtain ⟨s'', hrun⟩ := CommandLine.runSingle_of_error hidle houtcome number
      refine .signal ?_ hrun
      rw [(hs.attempts_take source (sh.line + 1)).resultOf_eq, hshell, houtcome]

/-- A shell takes statements over several lines as a file does, as long as no line starts with the
name of a command: nothing is evaluated before the last line, and then the statement is, once, with
the same outcome. A line that starts with the name of a command is not taken as a part of a
statement: the command is carried out, and the statement waits for another line. -/
theorem lines_taken_as_in_file {settings : Settings} {lines : List String}
    {wss : List (List Word)} (hlines : List.Forall₂ Holds lines wss) {last : String}
    {us : List Word} (hlast : Holds last us) (hus : us ≠ []) {e : Term}
    (hmeans : Means settings.constants (wss.flatten ++ us) e)
    (hcommand : ∀ line ∈ lines ++ [last], command? (Text.trim line.toList) = none)
    (colour trace : Bool) :
    (∃ sh source, after lines (start settings colour trace) = some sh ∧
      sh.session = (start settings colour trace).session ∧
      Source.read settings.constants source = .ok e ∧
      feed last sh = (do
        discard (inSession (carryOut source (sh.line + 1)))
        return false : ShellM Bool) (sh.counted "") ∧
      ∀ path bytes chars, path ≠ Session.userPath → '\x00' ∉ path.toList →
        Text.Utf8.decode bytes = .ok chars → Text.lines chars = lines ++ [last] →
        Agrees sh last source (CommandLine.runFile (some bytes)
          (.start settings { colour := colour, trace := trace } path false))) ∧
    ∀ sh line command argument, command? (Text.trim line.toList) = some (command, argument) →
      feed line sh = command.run argument sh ∧
        (stateOf (feed line sh)).pending = sh.pending := by
  refine ⟨?_, fun sh line command argument h => ?_⟩
  · have hwhole := hmeans.whole
    have hstart : Pending (start settings colour trace) [] :=
      ⟨.nil, fun c hc => by simp [start] at hc, fun c hc => by simp [start] at hc⟩
    obtain ⟨sh, hafter, hsession, hpending, hsh⟩ := after_of_parts hlines hstart
      (fun line hmem => hcommand line (List.mem_append_left _ hmem)) (by
        rintro vs vs' hsplit hvs
        have hsplit' : wss.flatten ++ us = vs ++ (vs' ++ us) := by
          rw [← List.append_assoc, ← hsplit, List.nil_append]
        exact hwhole.open_of_split hsplit' hvs (by simp [hus]))
    have hs : Idle sh.session :=
      hsession ▸ Session.idle_start settings colour trace true Session.userPath
    have hspells := Source.spells_joined hsh.spells hlast
    rw [List.nil_append] at hspells hsh
    have hfeed := feed_of_last hsh hs hlast hus (hcommand last (by simp)) hwhole
    refine ⟨sh, joined sh.pending last, hafter, hsession, hmeans.read hspells, hfeed, ?_⟩
    intro path bytes chars hpath hnull hbytes hchars
    have hall : List.Forall₂ Holds (lines ++ [last]) (wss ++ [us]) :=
      List.rel_append hlines (.cons hlast .nil)
    have hjoined : (lines ++ [last]).foldl joined "" = joined sh.pending last := by
      rw [List.foldl_append, hpending]
      rfl
    obtain ⟨number, hsource⟩ := Source.statements_of_single hall (by simpa using hwhole)
    rw [hjoined, ← hchars] at hsource
    exact agrees_of_single hsession hfeed hpath hnull hbytes hsource
  · rw [feed_of_command h]
    exact ⟨rfl, pending_run command argument sh⟩

/-- The lines of an application, up to the last one. -/
def openLines : List String :=
  ["((λx. ;; the identity", "", "x)"]

def openWords : List (List Word) :=
  [[(.symbol, "("), (.symbol, "("), (.symbol, "λ"), (.identifier, "x"), (.symbol, ".")], [],
    [(.identifier, "x"), (.symbol, ")")]]

/-- A file that consists of these lines and the last one. -/
def identityFile : String :=
  "((λx. ;; the identity\n\nx)\n1)"

theorem lines_taken_as_in_file_identity :
    List.Forall₂ Holds openLines openWords ∧ Holds "1)" [(.number, "1"), (.symbol, ")")] ∧
    Means ({} : Settings).constants (openWords.flatten ++ [(.number, "1"), (.symbol, ")")])
      (.app (.lam (some "x") none (.var (some "x"))) (.num 1)) ∧
    (∀ line ∈ openLines ++ ["1)"], command? (Text.trim line.toList) = none) ∧
    ∃ sh source, after openLines (start {} false false) = some sh ∧
      sh.session = (start {} false false).session ∧
      Agrees sh "1)" source (CommandLine.runFile
        (some identityFile.toUTF8.toList) (.start {} {} "file" false)) := by
  have hlines : List.Forall₂ Holds openLines openWords := by
    refine .cons ?_ (.cons (.of_words (by decide +kernel)) (.cons (.of_words (by decide +kernel))
      .nil))
    exact .of_words_comment "((λx. " " the identity" (by rfl)
      (by decide +kernel)
  have hlast : Holds "1)" [(.number, "1"), (.symbol, ")")] := .of_words (by decide +kernel)
  have hmeans : Means ({} : Settings).constants
      (openWords.flatten ++ [(.number, "1"), (.symbol, ")")])
      (.app (.lam (some "x") none (.var (some "x"))) (.num 1)) :=
    ⟨"((λx. x) 1)", by decide +kernel, by decide +kernel⟩
  have hcommand : ∀ line ∈ openLines ++ ["1)"], command? (Text.trim line.toList) = none := by
    simp only [openLines, List.cons_append, List.nil_append, List.forall_mem_cons]
    exact ⟨rfl, rfl, rfl, rfl, by simp⟩
  obtain ⟨⟨sh, source, hafter, hsession, -, -, hagrees⟩, -⟩ :=
    lines_taken_as_in_file hlines hlast (by simp) hmeans hcommand false false
  refine ⟨hlines, hlast, hmeans, hcommand, sh, source, hafter, hsession, ?_⟩
  have hdecode : (Text.Utf8.decode identityFile.toUTF8.toList).toOption =
      some identityFile.toList := by
    decide +kernel
  cases hchars : Text.Utf8.decode identityFile.toUTF8.toList with
  | error e =>
      rw [hchars] at hdecode
      cases hdecode
  | ok chars =>
      rw [hchars] at hdecode
      cases hdecode
      exact hagrees "file" _ _ (by decide) (by decide) hchars (by decide)

/-- A statement in two lines, the second of which starts with the name of a command. -/
theorem continued_line_taken_as_command :
    Source.statements ["((λexit.", "exit) 1)"] = [("((λexit. exit) 1)", 1)] ∧
      Source.read ({} : Settings).constants "((λexit. exit) 1)" =
        .ok (.app (.lam (some "exit") none (.var (some "exit"))) (.num 1)) ∧
      ∃ sh, after ["((λexit."] (start {} false false) = some sh ∧
        feed "exit) 1)" sh = .ok true sh ∧ sh.session.console.out = "" := by
  exact ⟨by decide, by decide +kernel, (start {} false false).counted "((λexit.", rfl, rfl, rfl⟩

end Shell

end LambdaMachine
