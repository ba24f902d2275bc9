import LambdaMachine.Proofs.Machine.Simulation

namespace LambdaMachine.BigStep

open Code (emit Scoped)
open Machine (State Run Fault Limits Reaches Ends Exhausted)

/-- Every body in a value is scoped under its binder and its environment. -/
inductive Meaning.Scoped : Meaning → Prop where
  | int (n : Int) : Scoped (.int n)
  | const (name : String) (type : Ty) : Scoped (.const name type)
  | closure (ann : Option Ty) {body : Term} {env : List Meaning}
      (hbody : Code.Scoped (env.length + 1) body) (henv : ∀ v ∈ env, v.Scoped) :
      Scoped (.closure ann body env)

/-- An answer that does not come from an index or a foreign text. -/
def Answer.Safe : Answer Meaning → Prop
  | .value v => v.Scoped
  | .failure (.wrongOperand _ _) => True
  | .failure _ => False
  | .unfinished => True

theorem Answer.Safe.bind {x : Answer Meaning} {k : Meaning → Answer Meaning} (hx : x.Safe)
    (hk : ∀ v, v.Scoped → (k v).Safe) : (x >>= k).Safe := by
  cases x with
  | value v => exact hk v hx
  | failure f => exact hx
  | unfinished => exact hx

theorem safe_operate (o : Op) (left right : Meaning) : (operate o left right).Safe := by
  cases left with
  | int m =>
      cases right with
      | int n => exact .int _
      | const name type => trivial
      | closure ann body env => trivial
  | const name type => trivial
  | closure ann body env => trivial

theorem safe_evaluateWith {call : List Meaning → Term → Answer Meaning}
    (hcall : ∀ env e, (∀ v ∈ env, v.Scoped) → Scoped env.length e → (call env e).Safe)
    {env : List Meaning} (henv : ∀ v ∈ env, v.Scoped) {e : Term} (he : Scoped env.length e) :
    (evaluateWith call env e).Safe := by
  induction e with
  | var label => exact he.elim
  | foreign text => exact he.elim
  | idx i label =>
      obtain ⟨hpos, hlt⟩ := he
      have hfound : lookup? env i = some (env.get ⟨i.toNat, by omega⟩) := by
        rw [lookup?, if_neg (by omega)]
        exact List.getElem?_eq_getElem _
      rw [evaluateWith, hfound]
      exact henv _ (List.get_mem env _)
  | const name type => exact .const name type
  | num n => exact .int n
  | lam param ann body => exact .closure ann he henv
  | app func arg ihf iha =>
      refine (iha he.2).bind fun a ha => ?_
      refine (ihf he.1).bind fun f hf => ?_
      rcases hf with _ | _ | ⟨ann, hbody, hcaptured⟩
      · trivial
      · trivial
      · refine hcall _ _ ?_ hbody
        intro v hv
        rcases List.mem_cons.mp hv with rfl | hv
        · exact ha
        · exact hcaptured v hv
  | op o left right ihl ihr =>
      exact (ihl he.1).bind fun l _ => (ihr he.2).bind fun r _ => safe_operate o l r

theorem safe_evaluateWithin (depth : Nat) {env : List Meaning} (henv : ∀ v ∈ env, v.Scoped)
    {e : Term} (he : Scoped env.length e) : (evaluateWithin depth env e).Safe := by
  induction depth generalizing env e with
  | zero =>
      refine safe_evaluateWith ?_ henv he
      intro _ _ _ _
      trivial
  | succ depth ih => exact safe_evaluateWith (fun _ _ henv he => ih henv he) henv he

theorem mirrors_load (depth : Nat) (e : Term) :
    Mirrors depth (.load (emit e)) (fun v t => Yields (.load (emit e)) t [] v.image)
      (evaluateWithin depth [] e) :=
  mirrors_evaluateWithin depth [] e _ [] rfl (List.append_nil _).symm rfl

theorem ends_of_value {e : Term} {v : Meaning} (h : Evaluates e (.value v)) :
    ∃ t, Ends (.load (emit e)) ⟨t, .ok v.image⟩ ∧ t.stack.items = [v.image] ∧ t.env = [] ∧
      t.dump.items = [] := by
  obtain ⟨-, depth, heval⟩ := h
  have hmirror := mirrors_load depth e
  rw [heval] at hmirror
  obtain ⟨n, t, hreach, ht⟩ := hmirror
  have hstack : t.stack.items = [v.image] := congrArg Counted.items ht.stack
  have hdump : t.dump.items = [] := congrArg Counted.items ht.dump
  refine ⟨t, ⟨n, t, hreach, ?_⟩, hstack, ht.env, hdump⟩
  simp [State.proceed, ht.halted, ht.code, hdump, Machine.finish, hstack]

theorem ends_of_failure {e : Term} {f : Failure} (h : Evaluates e (.failure f)) :
    ∃ t, Ends (.load (emit e)) ⟨t, .error f.fault⟩ := by
  obtain ⟨-, depth, heval⟩ := h
  have hmirror := mirrors_load depth e
  rw [heval] at hmirror
  exact hmirror

theorem not_ends_of_unfinished {e : Term} (h : ∀ answer, ¬ Evaluates e answer) (r : Run) :
    ¬ Ends (.load (emit e)) r := by
  rintro ⟨n, t, hreach, hend⟩
  have hmirror := mirrors_load (n + 1) e
  have hunfinished : evaluateWithin (n + 1) [] e = .unfinished := by
    by_contra hfinished
    exact h _ ⟨hfinished, n + 1, rfl⟩
  rw [hunfinished] at hmirror
  obtain ⟨m, u, hle, hu⟩ := hmirror
  have := (hu.prefix_of_end hreach hend).1
  omega

theorem run_emit_cases {e : Term} (he : Scoped 0 e) (l : Limits) :
    Exhausted (Machine.run l (emit e)) ∨
      (∃ v, Evaluates e (.value v) ∧ (Machine.run l (emit e)).outcome = .ok v.image) ∨
      ∃ i v, Evaluates e (.failure (.wrongOperand i v)) ∧
        (Machine.run l (emit e)).outcome = .error (.wrongOperand i v.image) := by
  rcases Machine.runFrom_cases l l.instructions.toNat (.load (emit e)) with hex | hends
  · exact .inl hex
  · right
    by_cases hanswer : ∃ answer, Evaluates e answer
    · obtain ⟨answer, hanswer⟩ := hanswer
      have hsafe : answer.Safe := by
        obtain ⟨-, depth, rfl⟩ := hanswer
        exact safe_evaluateWithin depth (by simp) he
      cases answer with
      | value v =>
          obtain ⟨t, ht, -⟩ := ends_of_value hanswer
          exact .inl ⟨v, hanswer, congrArg Run.outcome (hends.unique ht)⟩
      | failure f =>
          obtain ⟨t, ht⟩ := ends_of_failure hanswer
          have houtcome := congrArg Run.outcome (hends.unique ht)
          cases f with
          | wrongOperand i v => exact .inr ⟨i, v, hanswer, houtcome⟩
          | outOfRange i size => exact hsafe.elim
          | foreign text => exact hsafe.elim
      | unfinished => exact absurd rfl hanswer.1
    · exact absurd hends (not_ends_of_unfinished (fun answer h => hanswer ⟨answer, h⟩) _)

/-- Compilation is correct: whatever the evaluator answers, the machine answers under all limits that
are large enough, and under other limits it is stopped by one of them. If the evaluator never
finishes, the machine is stopped by every limit. -/
theorem run_compile {e : Term} {program : List Instr} (h : Code.compile e = .ok program) :
    (∀ v, Evaluates e (.value v) →
      ∃ instructions dump stack : Nat, ∀ l : Limits,
        instructions ≤ l.instructions → dump ≤ l.dump → stack ≤ l.stack →
          (Machine.run l program).outcome = .ok v.image ∧
          (Machine.run l program).state.stack.items = [v.image] ∧
          (Machine.run l program).state.env = [] ∧
          (Machine.run l program).state.dump.items = []) ∧
    (∀ i v, Evaluates e (.failure (.wrongOperand i v)) →
      ∃ instructions dump stack : Nat, ∀ l : Limits,
        instructions ≤ l.instructions → dump ≤ l.dump → stack ≤ l.stack →
          (Machine.run l program).outcome = .error (.wrongOperand i v.image)) ∧
    ((∀ answer, ¬ Evaluates e answer) → ∀ l : Limits, Exhausted (Machine.run l program)) ∧
    (∀ l : Limits, Exhausted (Machine.run l program) ∨
      (∃ v, Evaluates e (.value v) ∧ (Machine.run l program).outcome = .ok v.image) ∨
      ∃ i v, Evaluates e (.failure (.wrongOperand i v)) ∧
        (Machine.run l program).outcome = .error (.wrongOperand i v.image)) := by
  obtain ⟨hscoped, rfl⟩ := Code.compile_eq_ok_iff.mp h
  refine ⟨?_, ?_, ?_, run_emit_cases hscoped⟩
  · intro v hv
    obtain ⟨t, hends, hstack, henv, hdump⟩ := ends_of_value hv
    obtain ⟨instructions, dump, stack, hrun⟩ := hends.run
    refine ⟨instructions, dump, stack, ?_⟩
    intro l hi hd hs
    rw [hrun l hi hd hs]
    exact ⟨rfl, hstack, henv, hdump⟩
  · intro i v hv
    obtain ⟨t, hends⟩ := ends_of_failure hv
    obtain ⟨instructions, dump, stack, hrun⟩ := hends.run
    refine ⟨instructions, dump, stack, ?_⟩
    intro l hi hd hs
    rw [hrun l hi hd hs]
    rfl
  · intro hnever l
    rcases run_emit_cases hscoped l with hex | ⟨v, hv, -⟩ | ⟨i, v, hv, -⟩
    · exact hex
    · exact absurd hv (hnever _)
    · exact absurd hv (hnever _)

/-- A function of two arguments that gets one after the other. -/
def twofold : Term :=
  .app (.app (.lam none none (.lam none none (.op .add (.idx 1 none) (.idx 0 none)))) (.num 2))
    (.num 3)

theorem run_compile_twofold :
    ∃ program, Code.compile twofold = .ok program ∧ Evaluates twofold (.value (.int 5)) ∧
      ∃ instructions dump stack : Nat, ∀ l : Limits,
        instructions ≤ l.instructions → dump ≤ l.dump → stack ≤ l.stack →
          (Machine.run l program).outcome = .ok (.int 5) ∧
          (Machine.run l program).state.stack.items = [.int 5] ∧
          (Machine.run l program).state.env = [] ∧
          (Machine.run l program).state.dump.items = [] := by
  have hvalue : Evaluates twofold (.value (.int 5)) := ⟨nofun, 1, rfl⟩
  exact ⟨_, rfl, hvalue, (run_compile rfl).1 _ hvalue⟩

end LambdaMachine.BigStep
