import LambdaMachine.Proofs.Machine.Limits

namespace LambdaMachine.Machine

/-- There is room for one more operand and one more frame. -/
def Limits.RoomFor (l : Limits) (s : State) : Prop :=
  s.stack.count < l.stack ∧ s.dump.count < l.dump

/-- The end of a run for want of a resource. -/
def Exhausted (r : Run) : Prop :=
  ∃ resource limit, r.outcome = .error (.exhausted resource limit)

/-- The first effect is the second one, or it is a fault for want of a resource and `full` holds. -/
def Transition.SameUnless (full : Prop) (x y : Transition) : Prop :=
  x = y ∨ (∃ resource limit t, x = .fault (.exhausted resource limit) t) ∧ full

namespace State

/-- The effect of an instruction if no limit stands in its way. -/
def effect (i : Instr) (s : State) : Transition :=
  s.execute { dump := s.dump.count + 1, stack := s.stack.count + 1 } i

theorem execute_cases (l m : Limits) (i : Instr) {s : State} (h : m.RoomFor s) :
    (s.execute l i).SameUnless (¬ l.RoomFor s) (s.execute m i) := by
  have hroom : ∀ l : Limits, ∀ r, r ≠ .instructions → l.RoomFor s → s.used r < l.on r := by
    intro l r hr hl
    cases r with
    | instructions => exact absurd rfl hr
    | dump => exact hl.2
    | stack => exact hl.1
  cases asks_execute i s with
  | nothing hx ht => exact .inl ((hx l).trans (hx m).symm)
  | failing hx ht => exact .inl ((hx l).trans (hx m).symm)
  | @more r base t hx hbase hsteps hmore hother =>
      have hr : r ≠ .instructions := by
        rintro rfl
        have hbase := hbase.steps
        simp only [used] at hmore
        omega
      have hle : base.used r ≤ s.used r := hbase.used r
      have hlt := hroom m r hr h
      by_cases hfull : l.on r ≤ base.used r
      · refine .inr ⟨⟨r, l.on r, base, by rw [hx l, if_pos hfull]⟩, fun hl => ?_⟩
        have := hroom l r hr hl
        omega
      · exact .inl (by rw [hx l, hx m, if_neg hfull, if_neg (by omega)])

theorem execute_of_roomFor {l : Limits} {s : State} (h : l.RoomFor s) (i : Instr) :
    s.execute l i = s.effect i := by
  have hown : Limits.RoomFor { dump := s.dump.count + 1, stack := s.stack.count + 1 } s :=
    ⟨by simp only; omega, by simp only; omega⟩
  rcases execute_cases l _ i hown with heq | ⟨-, hfull⟩
  · exact heq
  · exact absurd h hfull

theorem execute_eq_effect_or_exhausted (l : Limits) (s : State) (i : Instr) :
    s.execute l i = s.effect i ∨
      ∃ resource limit t, s.execute l i = .fault (.exhausted resource limit) t := by
  have hown : Limits.RoomFor { dump := s.dump.count + 1, stack := s.stack.count + 1 } s :=
    ⟨by simp only; omega, by simp only; omega⟩
  exact (execute_cases l _ i hown).imp_right And.left

/-- What comes after a state if there are no limits: another state, or the end of the run. -/
def proceed (s : State) : State ⊕ Run :=
  if s.halted then .inr (finish s)
  else match s.code with
    | [] =>
        .inr (if s.dump.items.isEmpty then finish s else ⟨s, .error (.unreturned s.dump.count)⟩)
    | i :: rest =>
        match (s.advance rest).effect i with
        | .next t => .inl t
        | .fault f t => .inr ⟨t, .error f⟩

theorem proceed_of_effect {s : State} {i : Instr} {rest : List Instr} (hhalt : s.halted = false)
    (hcode : s.code = i :: rest) :
    s.proceed =
      match (s.advance rest).effect i with
      | .next t => .inl t
      | .fault f t => .inr ⟨t, .error f⟩ := by
  simp [proceed, hhalt, hcode]

end State

section Steps

variable {l : Limits} {s t : State} {i : Instr} {rest : List Instr}

theorem runFrom_of_next (hhalt : ¬ s.halted) (hcode : s.code = i :: rest)
    (hnext : (s.advance rest).execute l i = .next t) (budget : Nat) :
    runFrom l (budget + 1) s = runFrom l budget t := by
  rw [runFrom, if_neg hhalt, hcode]
  simp only [hnext]

theorem runFrom_of_fault {f : Fault} (hhalt : ¬ s.halted) (hcode : s.code = i :: rest)
    (hfault : (s.advance rest).execute l i = .fault f t) (budget : Nat) :
    runFrom l (budget + 1) s = ⟨t, .error f⟩ := by
  rw [runFrom, if_neg hhalt, hcode]
  simp only [hfault]

theorem runFrom_zero (hhalt : ¬ s.halted) (hcode : s.code = i :: rest) :
    runFrom l 0 s = ⟨s, .error (.exhausted .instructions l.instructions)⟩ := by
  rw [runFrom, if_neg hhalt, hcode]

end Steps

/-- No instruction is left to be executed. -/
def State.Idle (s : State) : Prop :=
  s.halted = true ∨ s.code = []

theorem State.idle_or (s : State) : s.Idle ∨ ∃ i rest, ¬ s.halted ∧ s.code = i :: rest := by
  cases hcode : s.code with
  | nil => exact .inl (.inr hcode)
  | cons i rest =>
      by_cases hhalt : s.halted
      · exact .inl (.inl hhalt)
      · exact .inr ⟨i, rest, hhalt, rfl⟩

theorem State.Idle.proceed_eq {s : State} (h : s.Idle) (l : Limits) (budget : Nat) :
    s.proceed = .inr (runFrom l budget s) := by
  rw [proceed, runFrom]
  by_cases hhalt : s.halted
  · rw [if_pos hhalt, if_pos hhalt]
  · rw [if_neg hhalt, if_neg hhalt, h.resolve_left hhalt]

/-- The unlimited machine takes a number of steps from one state to another. -/
inductive Reaches : Nat → State → State → Prop where
  | refl (s : State) : Reaches 0 s s
  | head {n : Nat} {s t u : State} (h : s.proceed = .inl t) (htail : Reaches n t u) :
      Reaches (n + 1) s u

/-- The unlimited run from a state ends in a certain way. -/
def Ends (s : State) (r : Run) : Prop :=
  ∃ n t, Reaches n s t ∧ t.proceed = .inr r

theorem Reaches.trans {m n : Nat} {s t u : State} (h : Reaches m s t) (h' : Reaches n t u) :
    Reaches (m + n) s u := by
  induction h with
  | refl s => simpa using h'
  | @head m s v t hstep _ ih =>
      rw [Nat.add_right_comm]
      exact .head hstep (ih h')

theorem Reaches.single {s t : State} (h : s.proceed = .inl t) : Reaches 1 s t :=
  .head h (.refl t)

theorem Reaches.ends {n : Nat} {s t : State} {r : Run} (h : Reaches n s t) (hr : Ends t r) :
    Ends s r := by
  obtain ⟨m, u, hm, hend⟩ := hr
  exact ⟨n + m, u, h.trans hm, hend⟩

theorem Reaches.prefix_of_end {m n : Nat} {s t u : State} {r : Run} (h : Reaches m s t)
    (h' : Reaches n s u) (hend : u.proceed = .inr r) : m ≤ n ∧ Reaches (n - m) t u := by
  induction h generalizing n with
  | refl s => exact ⟨Nat.zero_le n, h'⟩
  | head hstep _ ih =>
      cases h' with
      | refl => simp [hstep] at hend
      | head hstep' htail =>
          -- there is one way to go on, so both start with the same step
          rw [hstep] at hstep'
          cases hstep'
          obtain ⟨hle, hrest⟩ := ih htail
          exact ⟨by omega, by simpa using hrest⟩

theorem Ends.unique {s : State} {r r' : Run} (h : Ends s r) (h' : Ends s r') : r = r' := by
  obtain ⟨m, t, ht, hr⟩ := h
  obtain ⟨n, u, hu, hr'⟩ := h'
  obtain ⟨-, hrest⟩ := ht.prefix_of_end hu hr'
  generalize n - m = k at hrest
  cases hrest with
  | refl =>
      rw [hr] at hr'
      exact Sum.inr.inj hr'
  | head hstep _ => simp [hr] at hstep

/-- A limited run that does not end for want of a resource is the unlimited one. -/
theorem runFrom_cases (l : Limits) (budget : Nat) (s : State) :
    Exhausted (runFrom l budget s) ∨ Ends s (runFrom l budget s) := by
  induction budget generalizing s with
  | zero =>
      rcases s.idle_or with hidle | ⟨i, rest, hhalt, hcode⟩
      · exact .inr ⟨0, s, .refl s, hidle.proceed_eq l 0⟩
      · rw [runFrom_zero hhalt hcode]
        exact .inl ⟨_, _, rfl⟩
  | succ budget ih =>
      rcases s.idle_or with hidle | ⟨i, rest, hhalt, hcode⟩
      · exact .inr ⟨0, s, .refl s, hidle.proceed_eq l _⟩
      · have hproceed := State.proceed_of_effect (Bool.eq_false_iff.mpr hhalt) hcode
        rcases State.execute_eq_effect_or_exhausted l (s.advance rest) i with
          heq | ⟨resource, limit, t, hfault⟩
        · rw [← heq] at hproceed
          cases hexec : (s.advance rest).execute l i with
          | next t =>
              rw [hexec] at hproceed
              rw [runFrom_of_next hhalt hcode hexec]
              exact (ih t).imp_right (Reaches.single hproceed).ends
          | fault f t =>
              rw [hexec] at hproceed
              rw [runFrom_of_fault hhalt hcode hexec]
              exact .inr ⟨0, s, .refl s, hproceed⟩
        · rw [runFrom_of_fault hhalt hcode hfault]
          exact .inl ⟨resource, limit, rfl⟩

theorem runFrom_succ_of_roomFor {s : State} {l : Limits} (hroom : l.RoomFor s) (budget : Nat) :
    runFrom l (budget + 1) s = s.proceed.elim (runFrom l budget) id := by
  rcases s.idle_or with hidle | ⟨i, rest, hhalt, hcode⟩
  · rw [hidle.proceed_eq l (budget + 1)]
    rfl
  · have hexec := State.execute_of_roomFor (s := s.advance rest) hroom i
    rw [State.proceed_of_effect (Bool.eq_false_iff.mpr hhalt) hcode, ← hexec]
    cases heffect : (s.advance rest).execute l i with
    | next t => exact runFrom_of_next hhalt hcode heffect budget
    | fault f t => exact runFrom_of_fault hhalt hcode heffect budget

theorem Reaches.runFrom {n : Nat} {s t : State} {r : Run} (h : Reaches n s t)
    (hend : t.proceed = .inr r) :
    ∃ dump stack : Nat, ∀ l : Limits, dump ≤ l.dump → stack ≤ l.stack →
      ∀ budget, n < budget → runFrom l budget s = r := by
  induction h with
  | refl s =>
      refine ⟨s.dump.count + 1, s.stack.count + 1, ?_⟩
      intro l hdump hstack budget hlt
      obtain ⟨budget, rfl⟩ := Nat.exists_eq_add_of_lt hlt
      rw [runFrom_succ_of_roomFor ⟨by omega, by omega⟩, hend]
      rfl
  | @head n s u t hstep _ ih =>
      obtain ⟨dump, stack, ih⟩ := ih hend
      -- the room for a whole run is the most that any of its states takes up
      refine ⟨max dump (s.dump.count + 1), max stack (s.stack.count + 1), ?_⟩
      intro l hdump hstack budget hlt
      obtain ⟨budget, rfl⟩ := Nat.exists_eq_add_of_lt hlt
      rw [show n + 1 + budget + 1 = (n + 1 + budget) + 1 from rfl,
        runFrom_succ_of_roomFor ⟨by omega, by omega⟩, hstep]
      exact ih l (by omega) (by omega) _ (by omega)

theorem Ends.run {program : List Instr} {r : Run} (h : Ends (.load program) r) :
    ∃ instructions dump stack : Nat, ∀ l : Limits, instructions ≤ l.instructions →
      dump ≤ l.dump → stack ≤ l.stack → run l program = r := by
  obtain ⟨n, t, hreach, hend⟩ := h
  obtain ⟨dump, stack, hrun⟩ := hreach.runFrom hend
  refine ⟨n + 1, dump, stack, ?_⟩
  intro l hinstr hdump hstack
  exact hrun l hdump hstack _ (by omega)

end LambdaMachine.Machine
