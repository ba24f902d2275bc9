import LambdaMachine.Proofs.Lookup
import LambdaMachine.Proofs.Session.File
import LambdaMachine.Proofs.Session.Unbound

/-!
What becomes of statements and results. A session is asked to add statements, to run them and to
hand out results, in any order and with any number of failures. The statements that it has queued
and attempted and the results that it has handed out form a log, and the log tells what waits: under
a line number the statement that was queued last, if it has not been attempted since, and of the
results those of the successful attempts that have not been taken, in order.
-/

namespace LambdaMachine.Session

open Report (Signal)

/-- The evaluation of a queued statement and what it came to. -/
structure Attempt where
  number : Int
  statement : Statement
  outcome : Except Signal Evaluation

/-- The place of an attempted statement in the queue. -/
def Attempt.entry (a : Attempt) : Int × Statement :=
  (a.number, a.statement)

/-- The attempt that is made when a statement is run. -/
def attempt (number : Int) (st : Statement) (s : Session) : Attempt :=
  { number := number
    statement := st
    outcome := resultOf (evaluate st.source st.term
      { s.atLine st.source number with
        console := (s.atLine st.source number).console.clearSteps }) }

/-- The attempts that are made when statements are run one after the other. -/
def attempts : List (Int × Statement) → Session → List Attempt
  | [], _ => []
  | (number, st) :: rest, s =>
      attempt number st s ::
        match runStatement number st s with
        | .ok _ s' => attempts rest s'
        | .error _ _ => []

def successes (made : List Attempt) : List Evaluation :=
  made.filterMap (·.outcome.toOption)

theorem successes_append (made made' : List Attempt) :
    successes (made ++ made') = successes made ++ successes made' :=
  List.filterMap_append

theorem successes_cons_of_ok {a : Attempt} {e : Evaluation} (ha : a.outcome = .ok e)
    (made : List Attempt) : successes (a :: made) = e :: successes made :=
  List.filterMap_cons_some (by rw [ha]; rfl)

theorem successes_cons_of_error {a : Attempt} {signal : Signal} (ha : a.outcome = .error signal)
    (made : List Attempt) : successes (a :: made) = successes made :=
  List.filterMap_cons_none (by rw [ha]; rfl)

theorem Gives.resultOf_eq {α : Type} {work : SessionM α} {s : Session} {r : Except Signal α}
    (h : Gives work s r) : resultOf (work s) = r := by
  obtain ⟨s', -, h⟩ := h
  rw [h]
  cases r <;> rfl

theorem outcome_attempt (number : Int) (st : Statement) (s : Session) :
    (attempt number st s).outcome = verdict s.settings s.next st.source st.term :=
  (gives_evaluate st.source st.term _).resultOf_eq

theorem source_of_verdict {settings : Settings} {next : Int} {source : String} {e : Term}
    {result : Evaluation} (h : verdict settings next source e = .ok result) :
    result.source = source ∧ result.term = e := by
  rw [verdict] at h
  obtain ⟨type, -, h⟩ := ok_of_bind h
  obtain ⟨program, -, h⟩ := ok_of_bind h
  obtain ⟨value, -, h⟩ := ok_of_bind h
  obtain ⟨normalForm, -, h⟩ := ok_of_bind h
  obtain ⟨-, -, h⟩ := ok_of_bind h
  cases h
  exact ⟨rfl, rfl⟩

/-- How a run of statements ends: after the first failure, or with none left. -/
inductive Ending (waiting : List (Int × Statement)) : List Attempt → Except Signal Unit → Prop where
  | all {made : List Attempt} (hmade : ∀ a ∈ made, ∃ e, a.outcome = .ok e) (h : waiting = []) :
      Ending waiting made (.ok ())
  | failed {earlier : List Attempt} {last : Attempt} {signal : Signal}
      (hearlier : ∀ a ∈ earlier, ∃ e, a.outcome = .ok e) (hlast : last.outcome = .error signal) :
      Ending waiting (earlier ++ [last]) (.error (located last.statement.source signal))

/-- What a run of the queue does with its statements, given the attempts that were made. -/
structure Ran (s : Session) (made : List Attempt) (r : EStateM.Result Signal Session Unit) :
    Prop where
  /-- The attempted statements are the first ones of the queue, and the others stay. -/
  queue : made.map Attempt.entry ++ (stateOf r).queue = s.queue
  results : (stateOf r).results = s.results ++ successes made
  subject : ∀ a ∈ made, ∀ e, a.outcome = .ok e →
    e.source = a.statement.source ∧ e.term = a.statement.term
  ending : Ending (stateOf r).queue made (resultOf r)

theorem runStatement_of_head {number : Int} {st : Statement} {rest : List (Int × Statement)}
    {s : Session} (hqueue : s.queue = (number, st) :: rest) :
    (∃ e s', (attempt number st s).outcome = .ok e ∧ runStatement number st s = .ok () s' ∧
        s'.queue = rest ∧ s'.results = s.results ++ [e]) ∨
      ∃ signal s', (attempt number st s).outcome = .error signal ∧
        runStatement number st s = .error (located st.source signal) s' ∧
        s'.queue = rest ∧ s'.results = s.results := by
  have herase : s.queue.eraseP (·.1 == number) = rest := by
    rw [hqueue, List.eraseP_cons_of_pos (by simp)]
  rw [outcome_attempt]
  cases hverdict : verdict s.settings s.next st.source st.term with
  | ok e =>
      obtain ⟨s', hrun, hkept⟩ := runStatement_of_ok st hverdict number
      exact .inl ⟨e, s', rfl, hrun, hkept.queue.trans herase, hkept.results⟩
  | error signal =>
      obtain ⟨s', hrun, hkept⟩ := runStatement_of_error st hverdict number
      exact .inr ⟨signal, s', rfl, hrun, hkept.queue.trans herase, hkept.results⟩

theorem Ending.cons {waiting : List (Int × Statement)} {a : Attempt} {e : Evaluation}
    {made : List Attempt} {r : Except Signal Unit} (h : Ending waiting made r)
    (ha : a.outcome = .ok e) : Ending waiting (a :: made) r := by
  cases h with
  | all hmade hnone => exact .all (List.forall_mem_cons.mpr ⟨⟨e, ha⟩, hmade⟩) hnone
  | failed hearlier hlast =>
      rw [← List.cons_append]
      exact .failed (List.forall_mem_cons.mpr ⟨⟨e, ha⟩, hearlier⟩) hlast

theorem Ran.cons {s s' : Session} {a : Attempt} {e : Evaluation} {made : List Attempt}
    {r : EStateM.Result Signal Session Unit} (h : Ran s' made r)
    (hqueue : s.queue = a.entry :: s'.queue) (hresults : s'.results = s.results ++ [e])
    (ha : a.outcome = .ok e)
    (hsubject : e.source = a.statement.source ∧ e.term = a.statement.term) :
    Ran s (a :: made) r := by
  constructor
  · rw [List.map_cons, List.cons_append, h.queue, hqueue]
  · rw [h.results, hresults, List.append_assoc, successes_cons_of_ok ha, List.singleton_append]
  · intro b hb e' he'
    rcases List.mem_cons.mp hb with rfl | hb
    · cases ha.symm.trans he'
      exact hsubject
    · exact h.subject b hb e' he'
  · exact h.ending.cons ha

/-- The queue shrinks with each statement that is run, so the statements that are left when a run
ends are those that were not attempted. -/
theorem ran_forM {queue : List (Int × Statement)} {s : Session} (hqueue : s.queue = queue) :
    Ran s (attempts queue s) (queue.forM (fun found => runStatement found.1 found.2) s) := by
  induction queue generalizing s with
  | nil =>
      refine ⟨rfl, (List.append_nil _).symm, ?_, .all ?_ hqueue⟩
      · intro a ha
        cases ha
      · intro a ha
        cases ha
  | cons found rest ih =>
      obtain ⟨number, st⟩ := found
      have hsubject : ∀ e, (attempt number st s).outcome = .ok e →
          e.source = st.source ∧ e.term = st.term := by
        intro e he
        rw [outcome_attempt] at he
        exact source_of_verdict he
      rw [attempts]
      show Ran s _ ((runStatement number st >>= fun _ => rest.forM _) s)
      rcases runStatement_of_head hqueue with
        ⟨e, s', houtcome, hrun, hrest, hresults⟩ | ⟨signal, s', houtcome, hrun, hrest, hresults⟩
      · rw [bind_of_ok hrun, hrun]
        refine (ih hrest).cons ?_ hresults houtcome (hsubject e houtcome)
        rw [hqueue, hrest]
        rfl
      · rw [bind_of_error hrun, hrun]
        refine ⟨?_, ?_, ?_, @Ending.failed _ [] _ _ ?_ houtcome⟩
        · rw [hqueue]
          exact congrArg ((number, st) :: ·) hrest
        · rw [successes_cons_of_error houtcome]
          exact hresults.trans (List.append_nil _).symm
        · intro a ha e he
          rw [List.mem_singleton.mp ha] at he ⊢
          exact hsubject e he
        · intro a ha
          cases ha

theorem ran_run (s : Session) : Ran s (attempts s.queue s) (run s) :=
  ran_forM rfl

/-- What adding a statement does with the queue. -/
inductive Added (source : String) (number : Int) (s : Session) :
    EStateM.Result Signal Session Unit → Prop where
  | rejected {error : Source.ReadError} {signal : Signal} {t : Session}
      (hread : Source.read s.settings.constants source = .error error)
      (hqueue : t.queue = s.queue) (hresults : t.results = s.results) :
      Added source number s (.error signal t)
  | replaced {e : Term} {before after : List (Int × Statement)} {old : Statement} {t : Session}
      (hread : Source.read s.settings.constants source = .ok e)
      (hold : s.queue = before ++ (number, old) :: after)
      (hqueue : t.queue = before ++ (number, ⟨source, e⟩) :: after)
      (hresults : t.results = s.results) : Added source number s (.ok () t)
  | appended {e : Term} {t : Session} (hread : Source.read s.settings.constants source = .ok e)
      (hnew : number ∉ s.queue.map Prod.fst)
      (hqueue : t.queue = s.queue ++ [(number, ⟨source, e⟩)])
      (hresults : t.results = s.results) : Added source number s (.ok () t)

theorem enqueueInto_of_mem {number : Int} {queue : List (Int × Statement)}
    (h : number ∈ queue.map Prod.fst) (st : Statement) :
    ∃ before old after, queue = before ++ (number, old) :: after ∧
      enqueueInto number st queue = before ++ (number, st) :: after := by
  induction queue with
  | nil => cases h
  | cons found rest ih =>
      obtain ⟨n, old⟩ := found
      rw [enqueueInto]
      by_cases hn : n = number
      · subst hn
        exact ⟨[], old, rest, rfl, if_pos rfl⟩
      · obtain ⟨before, old', after, hqueue, hplaced⟩ :=
          ih ((List.mem_cons.mp h).resolve_left (Ne.symm hn))
        refine ⟨(n, old) :: before, old', after, by rw [hqueue]; rfl, ?_⟩
        rw [if_neg hn, hplaced]
        rfl

theorem added_add (source : String) (number : Int) (s : Session) :
    Added source number s (add source number s) := by
  cases hread : Source.read s.settings.constants source with
  | error error =>
      rw [add_of_error hread]
      exact .rejected hread rfl rfl
  | ok e =>
      rw [add_of_ok hread]
      by_cases hmem : number ∈ s.queue.map Prod.fst
      · obtain ⟨before, old, after, hold, hplaced⟩ := enqueueInto_of_mem hmem ⟨source, e⟩
        exact .replaced hread hold hplaced rfl
      · exact .appended hread hmem (enqueueInto_of_not_mem hmem _) rfl

/-- No two waiting statements have the same line number. -/
def Distinct (s : Session) : Prop :=
  (s.queue.map Prod.fst).Nodup

theorem Added.distinct {source : String} {number : Int} {s : Session}
    {r : EStateM.Result Signal Session Unit} (h : Added source number s r) (hs : Distinct s) :
    Distinct (stateOf r) := by
  unfold Distinct at hs ⊢
  cases h with
  | rejected _ hqueue _ =>
      rw [stateOf, hqueue]
      exact hs
  | replaced _ hold hqueue _ =>
      rw [stateOf, hqueue]
      rw [hold] at hs
      simpa using hs
  | appended _ hnew hqueue _ =>
      rw [stateOf, hqueue]
      rw [List.map_append]
      refine List.nodup_append.mpr ⟨hs, List.nodup_singleton _, ?_⟩
      intro n hn m hm
      rw [List.mem_singleton.mp hm]
      rintro rfl
      exact hnew hn

theorem Ran.distinct {s : Session} {made : List Attempt}
    {r : EStateM.Result Signal Session Unit} (h : Ran s made r) (hs : Distinct s) :
    Distinct (stateOf r) := by
  unfold Distinct at hs ⊢
  rw [← h.queue, List.map_append] at hs
  exact hs.of_append_right

theorem pop_cases (s : Session) :
    s.results = [] ∧ pop s = .error .noResult s ∨
      ∃ e rest, s.results = e :: rest ∧ pop s = .ok e { s with results := rest } := by
  rw [pop, get_bind]
  cases hresults : s.results with
  | nil => exact .inl ⟨rfl, rfl⟩
  | cons e rest => exact .inr ⟨e, rest, rfl, rfl⟩

theorem distinct_pop {s : Session} (hs : Distinct s) : Distinct (stateOf (pop s)) := by
  obtain ⟨-, hpop⟩ | ⟨e, rest, -, hpop⟩ := pop_cases s
  · rw [hpop]
    exact hs
  · rw [hpop]
    exact hs

theorem distinct_forM_add (texts : List (String × Nat)) {s : Session} (hs : Distinct s) :
    Distinct (stateOf (texts.forM (fun text => add text.1 text.2) s)) := by
  induction texts generalizing s with
  | nil => exact hs
  | cons text texts ih =>
      have hadd := (added_add text.1 text.2 s).distinct hs
      show Distinct (stateOf ((add text.1 text.2 >>= fun _ => texts.forM _) s))
      cases hresult : add text.1 text.2 s with
      | ok _ s' =>
          rw [bind_of_ok hresult]
          rw [hresult] at hadd
          exact ih hadd
      | error signal s' =>
          rw [bind_of_error hresult]
          rw [hresult] at hadd
          exact hadd

theorem distinct_load (file : Option (List UInt8)) {s : Session} (hs : Distinct s) :
    Distinct (stateOf (load file s)) := by
  rw [load, get_bind]
  split
  · cases file with
    | none =>
        dsimp only
        split
        · exact hs
        · exact hs
    | some bytes =>
        dsimp only
        split
        · exact hs
        · cases Text.Utf8.decode bytes with
          | error e => exact hs
          | ok chars => exact distinct_forM_add (Source.statements (Text.lines chars)) hs
  · split
    · exact hs
    · exact hs

theorem Arises.distinct {s : Session} (h : Arises s) : Distinct s := by
  induction h with
  | start => exact List.nodup_nil
  | load _ file ih => exact distinct_load file ih
  | add _ source number ih => exact (added_add source number _).distinct ih
  | run _ ih => exact (ran_run _).distinct ih
  | pop _ ih => exact distinct_pop ih

inductive Event where
  | queued (number : Int) (st : Statement)
  | attempted (a : Attempt)
  | taken (e : Evaluation)

namespace Event

/-- The statement that waits under a line number after an event, by the one that waited before. -/
def track (number : Int) (waiting : Option Statement) : Event → Option Statement
  | queued n st => if n = number then some st else waiting
  | attempted a => if a.number = number then none else waiting
  | taken _ => waiting

def attempt? : Event → Option Attempt
  | attempted a => some a
  | _ => none

def taken? : Event → Option Evaluation
  | taken e => some e
  | _ => none

theorem mem_of_foldl_track {number : Int} {st : Statement} {waiting : Option Statement}
    {log : List Event} (h : log.foldl (track number) waiting = some st) :
    waiting = some st ∨ queued number st ∈ log := by
  induction log generalizing waiting with
  | nil => exact .inl h
  | cons event log ih =>
      rcases ih h with hwaiting | hmem
      · cases event with
        | queued n st' =>
            rw [track] at hwaiting
            split at hwaiting
            · rename_i hn
              cases hwaiting
              exact .inr (hn ▸ List.mem_cons_self)
            · exact .inl hwaiting
        | attempted a =>
            rw [track] at hwaiting
            split at hwaiting
            · cases hwaiting
            · exact .inl hwaiting
        | taken e => exact .inl hwaiting
      · exact .inr (List.mem_cons_of_mem _ hmem)

end Event

/-- A log accounts for what has changed from one session to another. -/
structure Accounts (s : Session) (log : List Event) (t : Session) : Prop where
  /-- Under each line number the last statement waits that was queued, if it has not been attempted
  since. -/
  waiting : ∀ n, t.queue.lookup n = log.foldl (Event.track n) (s.queue.lookup n)
  /-- A statement is attempted only while it waits. -/
  latest : ∀ before a after, log = before ++ .attempted a :: after →
    before.foldl (Event.track a.number) (s.queue.lookup a.number) = some a.statement
  /-- The results that were taken and those that wait are those of the successful attempts. -/
  results : log.filterMap Event.taken? ++ t.results =
    s.results ++ successes (log.filterMap Event.attempt?)

namespace Accounts

variable {s t u : Session} {log log' : List Event}

theorem nil (hqueue : t.queue = s.queue) (hresults : t.results = s.results) : Accounts s [] t := by
  refine ⟨fun n => by rw [hqueue]; rfl, ?_, ?_⟩
  · intro before a after h
    simp at h
  · rw [hresults]
    exact (List.append_nil _).symm

theorem single {event : Event} (hwaiting : ∀ n, t.queue.lookup n = event.track n (s.queue.lookup n))
    (hlatest : ∀ a, event = .attempted a → s.queue.lookup a.number = some a.statement)
    (hresults : event.taken?.toList ++ t.results = s.results ++ successes event.attempt?.toList) :
    Accounts s [event] t := by
  refine ⟨hwaiting, ?_, ?_⟩
  · intro before a after h
    obtain ⟨rfl, heq⟩ : before = [] ∧ event = .attempted a := by
      cases before with
      | nil => exact ⟨rfl, (List.cons.inj h).1⟩
      | cons first before => simp at h
    exact hlatest a heq
  · cases event <;> exact hresults

theorem append (h : Accounts s log t) (h' : Accounts t log' u) : Accounts s (log ++ log') u := by
  refine ⟨?_, ?_, ?_⟩
  · intro n
    rw [List.foldl_append, ← h.waiting, h'.waiting]
  · intro before a after heq
    rcases List.append_eq_append_iff.mp heq with ⟨middle, hbefore, hlog'⟩ | ⟨middle, hlog, hafter⟩
    · rw [hbefore, List.foldl_append, ← h.waiting]
      exact h'.latest middle a after hlog'
    · cases middle with
      | nil =>
          rw [List.append_nil] at hlog
          rw [← hlog, ← h.waiting]
          exact h'.latest [] a after hafter.symm
      | cons first middle =>
          rw [List.cons_append] at hafter
          rw [← (List.cons.inj hafter).1] at hlog
          exact h.latest before a middle hlog
  · rw [List.filterMap_append, List.filterMap_append, List.append_assoc, h'.results,
      ← List.append_assoc, h.results, List.append_assoc, successes_append]

end Accounts

inductive Request where
  | add (source : String) (number : Int)
  | run
  | pop

/-- The session after a request, whether it succeeds or fails. -/
def Request.perform : Request → Session → Session
  | .add source number, s => stateOf (Session.add source number s)
  | .run, s => stateOf (Session.run s)
  | .pop, s => stateOf (Session.pop s)

/-- What happens upon a request. -/
def Request.events : Request → Session → List Event
  | .add source number, s =>
      match Source.read s.settings.constants source with
      | .ok e => [.queued number ⟨source, e⟩]
      | .error _ => []
  | .run, s => (attempts s.queue s).map .attempted
  | .pop, s =>
      match Session.pop s with
      | .ok e _ => [.taken e]
      | .error _ _ => []

def after (requests : List Request) (s : Session) : Session :=
  requests.foldl (fun s request => request.perform s) s

/-- What happens upon a number of requests. -/
def log : List Request → Session → List Event
  | [], _ => []
  | request :: requests, s => request.events s ++ log requests (request.perform s)

theorem lookup_enqueueInto (number n : Int) (st : Statement) (queue : List (Int × Statement)) :
    (enqueueInto number st queue).lookup n =
      if number = n then some st else queue.lookup n := by
  induction queue with
  | nil => exact lookup_cons_pair number st [] n
  | cons found rest ih =>
      obtain ⟨m, old⟩ := found
      rw [enqueueInto, lookup_cons_pair m]
      by_cases hm : m = number
      · subst hm
        rw [if_pos rfl, lookup_cons_pair]
        split <;> rfl
      · rw [if_neg hm, lookup_cons_pair, ih]
        grind

theorem accounts_add (source : String) (number : Int) (s : Session) :
    Accounts s ((Request.add source number).events s) ((Request.add source number).perform s) := by
  rw [Request.events, Request.perform]
  cases hread : Source.read s.settings.constants source with
  | error error =>
      rw [add_of_error hread]
      exact .nil rfl rfl
  | ok e =>
      rw [add_of_ok hread]
      refine .single (fun n => lookup_enqueueInto number n ⟨source, e⟩ s.queue) ?_ ?_
      · intro a ha
        cases ha
      · exact (List.append_nil _).symm

theorem accounts_pop (s : Session) : Accounts s (Request.pop.events s) (Request.pop.perform s) := by
  rw [Request.events, Request.perform]
  obtain ⟨-, hpop⟩ | ⟨e, rest, hresults, hpop⟩ := pop_cases s
  · rw [hpop]
    exact .nil rfl rfl
  · rw [hpop]
    refine .single (fun n => rfl) ?_ ?_
    · intro a ha
      cases ha
    · rw [hresults]
      exact (List.append_nil _).symm

theorem accounts_attempted {made : List Attempt} {s t : Session} (hs : Distinct s)
    (hqueue : s.queue = made.map Attempt.entry ++ t.queue)
    (hresults : t.results = s.results ++ successes made) :
    Accounts s (made.map .attempted) t := by
  induction made generalizing s with
  | nil => exact .nil hqueue.symm (hresults.trans (List.append_nil _))
  | cons a made ih =>
      rw [List.map_cons, List.cons_append] at hqueue
      rw [Distinct, hqueue, List.map_cons] at hs
      obtain ⟨hfresh, hrest⟩ := List.nodup_cons.mp hs
      -- The first attempt leads to a session in which only its own statement is missing.
      have hfirst : Accounts s [.attempted a] { s with
          queue := made.map Attempt.entry ++ t.queue
          results := s.results ++ successes [a] } := by
        refine .single (fun n => ?_) ?_ rfl
        · rw [Event.track, hqueue, Attempt.entry, lookup_cons_pair]
          split
          · rename_i hn
            subst hn
            refine List.lookup_eq_none_iff.mpr fun found hfound => ?_
            exact bne_iff_ne.mpr fun heq => hfresh (List.mem_map.mpr ⟨found, hfound, heq.symm⟩)
          · rfl
        · rintro b hb
          cases hb
          rw [hqueue, Attempt.entry, lookup_cons_pair, if_pos rfl]
      refine hfirst.append (ih hrest rfl ?_)
      rw [hresults, List.append_assoc, ← successes_append, List.singleton_append]

theorem accounts_run {s : Session} (hs : Distinct s) :
    Accounts s (Request.run.events s) (Request.run.perform s) := by
  have hran := ran_run s
  exact accounts_attempted hs hran.queue.symm hran.results

theorem distinct_perform (request : Request) {s : Session} (hs : Distinct s) :
    Distinct (request.perform s) := by
  cases request with
  | add source number => exact (added_add source number s).distinct hs
  | run => exact (ran_run s).distinct hs
  | pop => exact distinct_pop hs

theorem accounts_perform (request : Request) {s : Session} (hs : Distinct s) :
    Accounts s (request.events s) (request.perform s) := by
  cases request with
  | add source number => exact accounts_add source number s
  | run => exact accounts_run hs
  | pop => exact accounts_pop s

theorem accounts_log (requests : List Request) {s : Session} (hs : Distinct s) :
    Accounts s (log requests s) (after requests s) := by
  induction requests generalizing s with
  | nil => exact .nil rfl rfl
  | cons request requests ih =>
      exact (accounts_perform request hs).append (ih (distinct_perform request hs))

theorem Accounts.queued_between {s t : Session} {log : List Event} (h : Accounts s log t)
    {before between rest : List Event} {a a' : Attempt}
    (hlog : log = before ++ .attempted a :: (between ++ .attempted a' :: rest))
    (hnumber : a'.number = a.number) : .queued a'.number a'.statement ∈ between := by
  have hlatest := h.latest (before ++ .attempted a :: between) a' rest (by simp [hlog])
  rw [List.foldl_append, List.foldl_cons, Event.track, if_pos hnumber.symm] at hlatest
  exact (Event.mem_of_foldl_track hlatest).resolve_left (Option.some_ne_none _).symm

/-- Nothing is lost, nothing is run again and the order is kept, whatever is asked of a session and
whatever fails. -/
theorem statements_accounted_for :
    (∀ source number s, Added source number s (add source number s)) ∧
    (∀ s, Ran s (attempts s.queue s) (run s)) ∧
    (∀ s, s.results = [] ∧ pop s = .error .noResult s ∨
      ∃ e rest, s.results = e :: rest ∧ pop s = .ok e { s with results := rest }) ∧
    (∀ s, Arises s → Distinct s) ∧
    ∀ s requests, Distinct s →
      Accounts s (log requests s) (after requests s) ∧
      ∀ before a between a' rest,
        log requests s = before ++ .attempted a :: (between ++ .attempted a' :: rest) →
        a'.number = a.number → .queued a'.number a'.statement ∈ between := by
  refine ⟨added_add, ran_run, pop_cases, fun s hs => hs.distinct, fun s requests hs => ?_⟩
  have haccounts := accounts_log requests hs
  exact ⟨haccounts, fun _ _ _ _ _ hlog hnumber => haccounts.queued_between hlog hnumber⟩

def interactiveSession : Session :=
  start {} {} userPath true

/-- Of these statements the second cannot be read, the third takes the place of the first, and the
fourth fails. -/
def interleaved : List Request :=
  [.add "(1 + 2)" 1, .add "(1 +" 2, .add "3" 1, .add "y" 2, .add "4" 3, .run, .pop, .add "5" 1,
    .run, .pop, .pop, .pop]

theorem statements_accounted_for_interleaved :
    Arises interactiveSession ∧ Distinct interactiveSession ∧
    ((log interleaved interactiveSession).filterMap Event.attempt?).map (·.number) = [1, 2, 3, 1] ∧
    ((log interleaved interactiveSession).filterMap Event.taken?).map (·.source) = ["3", "4", "5"] ∧
    Accounts interactiveSession (log interleaved interactiveSession)
      (after interleaved interactiveSession) := by
  have harises : Arises interactiveSession := .start {} {} userPath true
  obtain ⟨-, -, -, hdistinct, haccounts⟩ := statements_accounted_for
  exact ⟨harises, hdistinct _ harises, by decide +kernel, by decide +kernel,
    (haccounts _ interleaved (hdistinct _ harises)).1⟩

end LambdaMachine.Session
