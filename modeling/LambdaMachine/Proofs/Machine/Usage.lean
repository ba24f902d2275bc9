import LambdaMachine.Proofs.Machine.Safety
import LambdaMachine.Proofs.Machine.Unlimited

namespace LambdaMachine.Machine

/-- The states of a run from a state: this one, those after each instruction that is carried out,
and the one that is left at the end. -/
def statesFrom (l : Limits) (budget : Nat) (s : State) : List State :=
  s :: (historyFrom l budget s).map Prod.snd ++ [(runFrom l budget s).state]

theorem self_mem_statesFrom (l : Limits) (budget : Nat) (s : State) :
    s ∈ statesFrom l budget s := by
  simp [statesFrom]

def states (l : Limits) (program : List Instr) : List State :=
  statesFrom l l.instructions.toNat (.load program)

/-- The most that the run of a program takes up of a resource at any time. -/
def usage (l : Limits) (program : List Instr) (r : Resource) : Nat :=
  (states l program).foldr (fun s n => max (s.used r) n) 0

theorem usage_le_iff {l : Limits} {program : List Instr} {r : Resource} {n : Int} (hn : 0 ≤ n) :
    usage l program r ≤ n ↔ ∀ s ∈ states l program, s.used r ≤ n := by
  rw [usage]
  induction states l program with
  | nil => simpa using hn
  | cons s ss ih =>
      rw [List.forall_mem_cons, ← ih, List.foldr_cons]
      omega

theorem lt_usage_of_mem {l : Limits} {program : List Instr} {r : Resource} {n : Int} {s : State}
    (hs : s ∈ states l program) (h : n < s.used r) : n < usage l program r :=
  lt_of_lt_of_le h ((usage_le_iff (Int.natCast_nonneg _)).mp le_rfl s hs)

section Steps

variable {l : Limits} {s t : State} {i : Instr} {rest : List Instr}

theorem historyFrom_of_next (hhalt : ¬ s.halted) (hcode : s.code = i :: rest)
    (hnext : (s.advance rest).execute l i = .next t) (budget : Nat) :
    historyFrom l (budget + 1) s = (i, t) :: historyFrom l budget t := by
  rw [historyFrom, if_neg hhalt, hcode]
  simp only [hnext]

theorem statesFrom_of_next (hhalt : ¬ s.halted) (hcode : s.code = i :: rest)
    (hnext : (s.advance rest).execute l i = .next t) (budget : Nat) :
    statesFrom l (budget + 1) s = s :: statesFrom l budget t := by
  simp [statesFrom, runFrom_of_next hhalt hcode hnext, historyFrom_of_next hhalt hcode hnext]

theorem historyFrom_of_fault {f : Fault} (hhalt : ¬ s.halted) (hcode : s.code = i :: rest)
    (hfault : (s.advance rest).execute l i = .fault f t) (budget : Nat) :
    historyFrom l (budget + 1) s = [] := by
  rw [historyFrom, if_neg hhalt, hcode]
  simp only [hfault]

theorem statesFrom_of_fault {f : Fault} (hhalt : ¬ s.halted) (hcode : s.code = i :: rest)
    (hfault : (s.advance rest).execute l i = .fault f t) (budget : Nat) :
    statesFrom l (budget + 1) s = [s, t] := by
  rw [statesFrom, runFrom_of_fault hhalt hcode hfault, historyFrom_of_fault hhalt hcode hfault]
  rfl

theorem statesFrom_zero (hhalt : ¬ s.halted) (hcode : s.code = i :: rest) :
    statesFrom l 0 s = [s, s] := by
  rw [statesFrom, runFrom_zero hhalt hcode, historyFrom, if_neg hhalt, hcode]
  rfl

end Steps

namespace State.Idle

variable {s : State}

theorem runFrom_eq (h : s.Idle) (l m : Limits) (budget budget' : Nat) :
    runFrom l budget s = runFrom m budget' s :=
  Sum.inr.inj ((h.proceed_eq l budget).symm.trans (h.proceed_eq m budget'))

theorem state_runFrom (h : s.Idle) (l : Limits) (budget : Nat) :
    (runFrom l budget s).state = s := by
  rw [runFrom]
  by_cases hhalt : s.halted
  · rw [if_pos hhalt, state_finish]
  · rw [if_neg hhalt, h.resolve_left hhalt]
    simp only
    split
    · exact state_finish s
    · rfl

theorem historyFrom_eq (h : s.Idle) (l : Limits) (budget : Nat) : historyFrom l budget s = [] := by
  rw [historyFrom]
  by_cases hhalt : s.halted
  · rw [if_pos hhalt]
  · rw [if_neg hhalt, h.resolve_left hhalt]

theorem statesFrom_eq (h : s.Idle) (l : Limits) (budget : Nat) :
    statesFrom l budget s = [s, s] := by
  rw [statesFrom, h.historyFrom_eq, h.state_runFrom]
  rfl

theorem same (h : s.Idle) {l m : Limits} (hs : l.Admits s) (budget budget' : Nat) :
    (∀ t ∈ statesFrom m budget' s, l.Admits t) ∧ runFrom l budget s = runFrom m budget' s ∧
      historyFrom l budget s = historyFrom m budget' s := by
  rw [h.statesFrom_eq, h.historyFrom_eq, h.historyFrom_eq]
  exact ⟨by simpa using hs, h.runFrom_eq l m budget budget', rfl⟩

end State.Idle

theorem Limits.Admits.advance {l : Limits} {s : State} (hs : l.Admits s)
    (hsteps : (s.steps : Int) < l.instructions) (rest : List Instr) :
    l.Admits (s.advance rest) := by
  intro r
  cases r with
  | instructions => exact hsteps
  | dump => exact hs .dump
  | stack => exact hs .stack

theorem admits_of_mem_statesFrom {l : Limits} {budget : Nat} {s : State} (hs : l.Admits s)
    (hbudget : (s.steps : Int) + budget = l.instructions) :
    ∀ t ∈ statesFrom l budget s, l.Admits t := by
  induction budget generalizing s with
  | zero =>
      rcases s.idle_or with hidle | ⟨i, rest, hhalt, hcode⟩
      · rw [hidle.statesFrom_eq]
        simpa using hs
      · rw [statesFrom_zero hhalt hcode]
        simpa using hs
  | succ budget ih =>
      rcases s.idle_or with hidle | ⟨i, rest, hhalt, hcode⟩
      · rw [hidle.statesFrom_eq]
        simpa using hs
      · have hasks := State.asks_execute i (s.advance rest)
        have hadvance := hs.advance (by omega) rest
        cases hexec : (s.advance rest).execute l i with
        | next u =>
            rw [statesFrom_of_next hhalt hcode hexec, List.forall_mem_cons]
            have hsteps : u.steps = s.steps + 1 := hasks.steps_of_next hexec
            obtain ⟨hu, -⟩ | ⟨r, base, hfault, -⟩ := hasks.of_next hadvance hexec
            · exact ⟨hs, ih hu (by omega)⟩
            · simp [hexec] at hfault
        | fault f u =>
            obtain ⟨hbelow, -⟩ := hasks.of_fault hexec
            rw [statesFrom_of_fault hhalt hcode hexec]
            simpa using ⟨hs, hbelow.admits hadvance⟩

theorem steps_le_of_mem_statesFrom {l : Limits} {budget : Nat} {s : State} :
    ∀ t ∈ statesFrom l budget s, t.steps ≤ (runFrom l budget s).state.steps := by
  induction budget generalizing s with
  | zero =>
      rcases s.idle_or with hidle | ⟨i, rest, hhalt, hcode⟩
      · rw [hidle.statesFrom_eq, hidle.state_runFrom]
        simp
      · rw [statesFrom_zero hhalt hcode, runFrom_zero hhalt hcode]
        simp
  | succ budget ih =>
      rcases s.idle_or with hidle | ⟨i, rest, hhalt, hcode⟩
      · rw [hidle.statesFrom_eq, hidle.state_runFrom]
        simp
      · have hasks := State.asks_execute i (s.advance rest)
        cases hexec : (s.advance rest).execute l i with
        | next u =>
            rw [statesFrom_of_next hhalt hcode hexec, runFrom_of_next hhalt hcode hexec,
              List.forall_mem_cons]
            have hsteps : u.steps = s.steps + 1 := hasks.steps_of_next hexec
            have hlast := ih u (self_mem_statesFrom l budget u)
            exact ⟨by omega, ih⟩
        | fault f u =>
            have hsteps : u.steps = s.steps + 1 := (hasks.of_fault hexec).1.steps
            rw [statesFrom_of_fault hhalt hcode hexec, runFrom_of_fault hhalt hcode hexec]
            simp [hsteps]

theorem exists_mem_statesFrom_succ (l : Limits) {s : State} {i : Instr} {rest : List Instr}
    (hhalt : ¬ s.halted) (hcode : s.code = i :: rest) (budget : Nat) :
    ∃ t ∈ statesFrom l (budget + 1) s, t.steps = s.steps + 1 := by
  have hasks := State.asks_execute i (s.advance rest)
  cases hexec : (s.advance rest).execute l i with
  | next t =>
      rw [statesFrom_of_next hhalt hcode hexec]
      exact ⟨t, .tail _ (self_mem_statesFrom l budget t), hasks.steps_of_next hexec⟩
  | fault f t =>
      rw [statesFrom_of_fault hhalt hcode hexec]
      exact ⟨t, by simp, (hasks.of_fault hexec).1.steps⟩

/-- A run under limits is the same as a run that ends by itself, or it ends for want of a resource
of which a state of the other run takes up more. -/
theorem runFrom_same_or_exhausted {l m : Limits} {budget budget' : Nat} {s : State}
    (hend : ¬ Exhausted (runFrom m budget' s)) (hs : l.Admits s)
    (hbudget : (s.steps : Int) + budget = l.instructions) :
    (∀ t ∈ statesFrom m budget' s, l.Admits t) ∧ runFrom l budget s = runFrom m budget' s ∧
        historyFrom l budget s = historyFrom m budget' s ∨
      ∃ r, (runFrom l budget s).outcome = .error (.exhausted r (l.on r)) ∧
        ∃ t ∈ statesFrom m budget' s, l.on r < t.used r := by
  induction budget' generalizing budget s with
  | zero =>
      rcases s.idle_or with hidle | ⟨i, rest, hhalt, hcode⟩
      · exact .inl (hidle.same hs budget 0)
      · rw [runFrom_zero hhalt hcode] at hend
        exact absurd ⟨_, _, rfl⟩ hend
  | succ budget' ih =>
      rcases s.idle_or with hidle | ⟨i, rest, hhalt, hcode⟩
      · exact .inl (hidle.same hs budget _)
      · cases budget with
        | zero =>
            obtain ⟨t, ht, hsteps⟩ := exists_mem_statesFrom_succ m hhalt hcode budget'
            rw [runFrom_zero hhalt hcode]
            refine .inr ⟨.instructions, rfl, t, ht, ?_⟩
            simp only [Limits.on, State.used]
            omega
        | succ budget =>
            have hasks := State.asks_execute i (s.advance rest)
            have hadvance := hs.advance (by omega) rest
            cases hexec : (s.advance rest).execute m i with
            | next u =>
                have hsteps : u.steps = s.steps + 1 := hasks.steps_of_next hexec
                rw [runFrom_of_next hhalt hcode hexec] at hend
                rw [statesFrom_of_next hhalt hcode hexec, runFrom_of_next hhalt hcode hexec,
                  historyFrom_of_next hhalt hcode hexec]
                obtain ⟨hu, hnext⟩ | ⟨r, base, hfault, hlt⟩ := hasks.of_next hadvance hexec
                · have hleft : (u.steps : Int) + budget = l.instructions := by omega
                  rw [runFrom_of_next hhalt hcode hnext, historyFrom_of_next hhalt hcode hnext,
                    List.forall_mem_cons]
                  obtain ⟨hadmits, hrun, hhistory⟩ | ⟨r, hexhausted, t, ht, hlt⟩ :=
                    ih hend hu hleft
                  · exact .inl ⟨⟨hs, hadmits⟩, hrun, by rw [hhistory]⟩
                  · exact .inr ⟨r, hexhausted, t, .tail _ ht, hlt⟩
                · rw [runFrom_of_fault hhalt hcode hfault]
                  exact .inr ⟨r, rfl, u, .tail _ (self_mem_statesFrom m budget' u), hlt⟩
            | fault f u =>
                obtain ⟨hbelow, hfault⟩ := hasks.of_fault hexec
                rw [runFrom_of_fault hhalt hcode hexec] at hend
                have hsame : ∀ l, (s.advance rest).execute l i = .fault f u := by
                  apply hfault.resolve_left
                  rintro ⟨r, limit, rfl⟩
                  exact hend ⟨r, limit, rfl⟩
                rw [statesFrom_of_fault hhalt hcode hexec, runFrom_of_fault hhalt hcode hexec,
                  historyFrom_of_fault hhalt hcode hexec]
                exact .inl ⟨by simpa using ⟨hs, hbelow.admits hadvance⟩,
                  runFrom_of_fault hhalt hcode (hsame l) budget,
                  historyFrom_of_fault hhalt hcode (hsame l) budget⟩

theorem admits_load {l : Limits} (hl : ∀ r, 0 ≤ l.on r) (program : List Instr) :
    l.Admits (.load program) := by
  intro r
  cases r with
  | instructions => exact hl .instructions
  | dump => exact hl .dump
  | stack => exact hl .stack

/-- Limits are exact and make no other difference. If a run ends by itself, then under limits that
are not below what it takes up the run is the same, and under all others it ends for want of one of
the resources of which there is too little. No state of any run is beyond the limits. -/
theorem limits_exact (program : List Instr) :
    (∀ m : Limits, ¬ Exhausted (run m program) →
      usage m program .instructions = (run m program).state.steps ∧
        ∀ l : Limits, (∀ r, 0 ≤ l.on r) →
          ((∀ r, usage m program r ≤ l.on r) →
            run l program = run m program ∧ history l program = history m program) ∧
          ((∃ r, l.on r < usage m program r) →
            ∃ r, (run l program).outcome = .error (.exhausted r (l.on r)) ∧
              l.on r < usage m program r)) ∧
      ∀ l : Limits, (∀ r, 0 ≤ l.on r) → ∀ s ∈ states l program, ∀ r, s.used r ≤ l.on r := by
  have hload : ∀ l : Limits, (∀ r, 0 ≤ l.on r) →
      ((State.load program).steps : Int) + l.instructions.toNat = l.instructions := by
    intro l hl
    have hinstr : 0 ≤ l.instructions := hl .instructions
    simp only [State.load]
    omega
  refine ⟨fun m hend => ⟨?_, fun l hl => ?_⟩, fun l hl => ?_⟩
  · have hle : (usage m program .instructions : Int) ≤ (run m program).state.steps :=
      (usage_le_iff (Int.natCast_nonneg _)).mpr fun s hs =>
        Int.ofNat_le.mpr (steps_le_of_mem_statesFrom s hs)
    have hge : ((run m program).state.steps : Int) ≤ usage m program .instructions :=
      (usage_le_iff (Int.natCast_nonneg _)).mp le_rfl (run m program).state (by
        simp [states, statesFrom, run])
    omega
  · obtain ⟨hadmits, hrun, hhistory⟩ | ⟨r, hexhausted, s, hs, hlt⟩ :=
      runFrom_same_or_exhausted hend (admits_load hl program) (hload l hl)
    · constructor
      · intro _
        exact ⟨hrun, hhistory⟩
      · rintro ⟨r, hr⟩
        exact absurd hr (not_lt.mpr ((usage_le_iff (hl r)).mpr fun s hs => hadmits s hs r))
    · have hless : l.on r < usage m program r := lt_usage_of_mem hs hlt
      exact ⟨fun hroom => absurd (hroom r) (not_le.mpr hless), fun _ => ⟨r, hexhausted, hless⟩⟩
  · exact admits_of_mem_statesFrom (admits_load hl program) (hload l hl)

def successorCall : List Instr :=
  [.push (.int 2), .cur [.grab, .access 0, .push (.int 1), .add, .ret], .apply]

/-- The limits that the call just fits in. -/
def snug : Limits := { instructions := 8, dump := 1, stack := 2 }

theorem limits_exact_successorCall :
    (run snug successorCall).outcome.isOk ∧
      (∀ r, (usage snug successorCall r : Int) = snug.on r) ∧
      run {} successorCall = run snug successorCall ∧
      (∃ r, (run { snug with stack := 1 } successorCall).outcome =
        .error (.exhausted r (Limits.on { snug with stack := 1 } r)) ∧
          Limits.on { snug with stack := 1 } r < usage snug successorCall r) ∧
      ∀ s ∈ states { snug with stack := 1 } successorCall, s.stack.count ≤ (1 : Int) := by
  have hok : (run snug successorCall).outcome.isOk := by decide +kernel
  have husage : ∀ r, (usage snug successorCall r : Int) = snug.on r := by
    intro r
    cases r <;> decide +kernel
  have hend : ¬ Exhausted (run snug successorCall) := by
    rintro ⟨r, limit, h⟩
    rw [h] at hok
    cases hok
  have hsome : ∀ l : Limits, 0 ≤ l.instructions → 0 ≤ l.dump → 0 ≤ l.stack → ∀ r, 0 ≤ l.on r := by
    intro l hinstr hdump hstack r
    cases r with
    | instructions => exact hinstr
    | dump => exact hdump
    | stack => exact hstack
  obtain ⟨hexact, hall⟩ := limits_exact successorCall
  refine ⟨hok, husage, ?_, ?_, ?_⟩
  · refine (((hexact snug hend).2 {} (hsome _ (by decide) (by decide) (by decide))).1 ?_).1
    intro r
    rw [husage r]
    cases r <;> decide
  · refine ((hexact snug hend).2 _ (hsome _ (by decide) (by decide) (by decide))).2 ⟨.stack, ?_⟩
    rw [husage .stack]
    decide
  · exact fun s hs => hall _ (hsome _ (by decide) (by decide) (by decide)) s hs .stack

end LambdaMachine.Machine
