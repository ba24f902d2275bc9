import LambdaMachine.Machine.Run
import LambdaMachine.Proofs.Code.Emit

/-!
Safety of compiled code, typed or not. Emitted code needs a certain number of operands of its own
call and leaves exactly one, and it accesses only what its environment will hold. A state keeps this
for its code, for every frame that waits for a result and for every closure in sight. So a run of a
closed term can fail only on an operand of the wrong form or for want of a resource.
-/

namespace LambdaMachine

open Code (emit opInstr Scoped)

/-- The closures in a value: the value itself, and those that it has captured. -/
inductive Value.Holds : Value → List Instr → List Value → Prop where
  | self (code : List Instr) (env : List Value) : Holds (.closure code env) code env
  | captured {code inner : List Instr} {env captured : List Value} {v : Value} (hv : v ∈ env)
      (h : v.Holds inner captured) : Holds (.closure code env) inner captured

namespace Machine

/-- Code entered with an environment of `size` values has an access of the index `i`, which will
find an environment of `found` values. -/
inductive Accesses : (size : Nat) → List Instr → (i : Int) → (found : Nat) → Prop where
  | here {size : Nat} {i : Int} {rest : List Instr} : Accesses size (.access i :: rest) i size
  | inside {size found : Nat} {i : Int} {code rest : List Instr}
      (h : Accesses size code i found) : Accesses size (.cur code :: rest) i found
  | bound {size found : Nat} {i : Int} {rest : List Instr}
      (h : Accesses (size + 1) rest i found) : Accesses size (.grab :: rest) i found
  | later {size found : Nat} {i : Int} {instr : Instr} {rest : List Instr} (hne : instr ≠ .grab)
      (h : Accesses size rest i found) : Accesses size (instr :: rest) i found

/-- Code that a state may yet execute, with the environment that it will be entered with. -/
inductive State.Pending (s : State) : List Instr → List Value → Prop where
  | current : Pending s s.code s.env
  | saved {f : Frame} (hf : f ∈ s.dump.items) : Pending s f.code f.env
  | bound {v : Value} {code : List Instr} {env : List Value} (hv : v ∈ s.env)
      (h : v.Holds code env) : Pending s code env
  | operand {v : Value} {code : List Instr} {env : List Value} (hv : v ∈ s.stack.items)
      (h : v.Holds code env) : Pending s code env
  | savedBound {f : Frame} {v : Value} {code : List Instr} {env : List Value}
      (hf : f ∈ s.dump.items) (hv : v ∈ f.env) (h : v.Holds code env) : Pending s code env

/-- No access that a state may yet execute is out of range. -/
def State.InRange (s : State) : Prop :=
  ∀ code env i found, s.Pending code env → Accesses env.length code i found → 0 ≤ i ∧ i < found

/-- The states that a program comes to, whatever the number of instructions. -/
inductive Reached (l : Limits) (program : List Instr) : State → Prop where
  | load : Reached l program (.load program)
  | next {s t : State} {i : Instr} {rest : List Instr} (hs : Reached l program s)
      (hcode : s.code = i :: rest) (h : (s.advance rest).execute l i = .next t) :
      Reached l program t

/-- The states that a program comes to, and those that its faults leave behind. -/
inductive Visited (l : Limits) (program : List Instr) : State → Prop where
  | reached {s : State} (hs : Reached l program s) : Visited l program s
  | left {s t : State} {i : Instr} {rest : List Instr} {f : Fault} (hs : Reached l program s)
      (hcode : s.code = i :: rest) (h : (s.advance rest).execute l i = .fault f t) :
      Visited l program t

theorem state_finish (s : State) : (finish s).state = s := by
  unfold finish
  split <;> rfl

theorem visited_runFrom {l : Limits} {program : List Instr} (budget : Nat) {s : State}
    (hs : Reached l program s) : Visited l program (runFrom l budget s).state := by
  fun_induction runFrom l budget s with
  | case1 budget s hhalt =>
      rw [state_finish]
      exact .reached hs
  | case2 budget s hhalt hcode hdump =>
      rw [state_finish]
      exact .reached hs
  | case3 budget s hhalt hcode hdump => exact .reached hs
  | case4 s hhalt i rest hcode => exact .reached hs
  | case5 s hhalt i rest hcode budget t hnext ih => exact ih (hs.next hcode hnext)
  | case6 s hhalt i rest hcode budget f t hfault => exact .left hs hcode hfault

theorem reached_of_mem_historyFrom {l : Limits} {program : List Instr} {budget : Nat} {s : State}
    (hs : Reached l program s) {p : Instr × State} (hp : p ∈ historyFrom l budget s) :
    Reached l program p.2 := by
  fun_induction historyFrom l budget s with
  | case1 => cases hp
  | case2 => cases hp
  | case3 => cases hp
  | case4 s hhalt i rest hcode budget t hnext ih =>
      rcases List.mem_cons.mp hp with rfl | hp
      · exact hs.next hcode hnext
      · exact ih (hs.next hcode hnext) hp
  | case5 => cases hp

/-- Code that can go on with an environment of `size` values and `height` operands of its own, and
ends with exactly one operand: at the end of the program, or by returning if it is in a call. -/
inductive Ready : (inCall : Bool) → (size height : Nat) → List Instr → Prop where
  | done (size : Nat) : Ready false size 1 []
  | ret (size : Nat) : Ready true size 1 [.ret]
  | access {inCall : Bool} {size height : Nat} {i : Int} {rest : List Instr}
      (hi : 0 ≤ i ∧ i < size) (hrest : Ready inCall size (height + 1) rest) :
      Ready inCall size height (.access i :: rest)
  | push {inCall : Bool} {size height : Nat} {v : Value} {rest : List Instr}
      (hv : ∀ code env, ¬ v.Holds code env) (hrest : Ready inCall size (height + 1) rest) :
      Ready inCall size height (.push v :: rest)
  | cur {inCall : Bool} {size height : Nat} {code rest : List Instr}
      (hcode : Ready true size 1 code) (hrest : Ready inCall size (height + 1) rest) :
      Ready inCall size height (.cur code :: rest)
  | grab {inCall : Bool} {size height : Nat} {rest : List Instr}
      (hrest : Ready inCall (size + 1) height rest) :
      Ready inCall size (height + 1) (.grab :: rest)
  | apply {inCall : Bool} {size height : Nat} {rest : List Instr}
      (hrest : Ready inCall size (height + 1) rest) :
      Ready inCall size (height + 2) (.apply :: rest)
  | op {inCall : Bool} {size height : Nat} (o : Op) {rest : List Instr}
      (hrest : Ready inCall size (height + 1) rest) :
      Ready inCall size (height + 2) (opInstr o :: rest)

theorem ready_emit {e : Term} {size : Nat} (he : Scoped size e) {inCall : Bool} {height : Nat}
    {rest : List Instr} (hrest : Ready inCall size (height + 1) rest) :
    Ready inCall size height (emit e ++ rest) := by
  induction e generalizing size inCall height rest with
  | var label => exact he.elim
  | foreign text => exact he.elim
  | idx i label => exact .access he hrest
  | const name type => exact .push (fun code env h => by cases h) hrest
  | num n => exact .push (fun code env h => by cases h) hrest
  | lam param ann body ih => exact .cur (.grab (ih he (.ret _))) hrest
  | app func arg ihf iha =>
      rw [emit, List.append_assoc, List.append_assoc]
      exact iha he.2 (ihf he.1 (.apply hrest))
  | op o left right ihl ihr =>
      rw [emit, List.append_assoc, List.append_assoc]
      exact ihl he.1 (ihr he.2 (.op o hrest))

theorem Ready.inRange {inCall : Bool} {size height : Nat} {code : List Instr}
    (h : Ready inCall size height code) {i : Int} {found : Nat}
    (ha : Accesses size code i found) : 0 ≤ i ∧ i < found := by
  induction h with
  | done size => cases ha
  | ret size =>
      cases ha with
      | later hne ha => cases ha
  | access hi hrest ih =>
      cases ha with
      | here => exact hi
      | later hne ha => exact ih ha
  | push hv hrest ih =>
      cases ha with
      | later hne ha => exact ih ha
  | cur hcode hrest ihcode ih =>
      cases ha with
      | inside ha => exact ihcode ha
      | later hne ha => exact ih ha
  | grab hrest ih =>
      cases ha with
      | bound ha => exact ih ha
      | later hne ha => exact absurd rfl hne
  | apply hrest ih =>
      cases ha with
      | later hne ha => exact ih ha
  | op o hrest ih =>
      cases o with
      | add =>
          cases ha with
          | later hne ha => exact ih ha
      | mul =>
          cases ha with
          | later hne ha => exact ih ha

end Machine

/-- Every closure in a value can be called with one argument. -/
def Value.Sound (v : Value) : Prop :=
  ∀ code env, v.Holds code env → Machine.Ready true env.length 1 code

namespace Value.Sound

theorem int (n : Int) : (Value.int n).Sound := by
  intro code env h
  cases h

theorem closure {code : List Instr} {env : List Value}
    (hcode : Machine.Ready true env.length 1 code)
    (henv : ∀ v ∈ env, v.Sound) : (Value.closure code env).Sound := by
  rintro _ _ (_ | ⟨hv, h⟩)
  · exact hcode
  · exact henv _ hv _ _ h

end Value.Sound

namespace Machine

/-- Saved frames that can go on as soon as a result is pushed, and that have left `height` operands
on the stack. -/
inductive Awaits : List Frame → (height : Nat) → Prop where
  | nil : Awaits [] 0
  | cons {f : Frame} {frames : List Frame} {height below : Nat}
      (hcode : Ready (!frames.isEmpty) f.env.length (height + 1) f.code)
      (henv : ∀ v ∈ f.env, v.Sound) (hframes : Awaits frames below) :
      Awaits (f :: frames) (height + below)

/-- All of a state but its code. The current call has `height` operands, its callers `below`. -/
structure Stocked (height below : Nat) (s : State) : Prop where
  halted : s.halted = false
  dump : Awaits s.dump.items below
  stack : s.stack.items.length = height + below
  env : ∀ v ∈ s.env, v.Sound
  operands : ∀ v ∈ s.stack.items, v.Sound

/-- A state that has what its code needs. -/
def State.Poised (s : State) : Prop :=
  ∃ height below, Stocked height below s ∧
    Ready (!s.dump.items.isEmpty) s.env.length height s.code

/-- The faults that no code is safe from. -/
def Fault.Admitted : Fault → Prop
  | .wrongOperand _ _ | .exhausted _ _ => True
  | _ => False

/-- The effect of an instruction that does no harm. -/
def Transition.Safe : Transition → Prop
  | .next s => s.Poised
  | .fault f s => f.Admitted ∧ s.InRange

theorem Awaits.of_mem {frames : List Frame} {height : Nat} (h : Awaits frames height) {f : Frame}
    (hf : f ∈ frames) :
    (∃ inCall height, Ready inCall f.env.length height f.code) ∧ ∀ v ∈ f.env, v.Sound := by
  induction h with
  | nil => cases hf
  | cons hcode henv hframes ih =>
      rcases List.mem_cons.mp hf with rfl | hf
      · exact ⟨⟨_, _, hcode⟩, henv⟩
      · exact ih hf

namespace Stocked

variable {height below : Nat} {s : State} {l : Limits}

theorem inRange (hs : Stocked height below s) {inCall : Bool} {needed : Nat}
    (hcode : Ready inCall s.env.length needed s.code) : s.InRange := by
  intro code env i found hpending ha
  cases hpending with
  | current => exact hcode.inRange ha
  | saved hf =>
      obtain ⟨⟨_, _, hsaved⟩, -⟩ := hs.dump.of_mem hf
      exact hsaved.inRange ha
  | bound hv h => exact (hs.env _ hv _ _ h).inRange ha
  | operand hv h => exact (hs.operands _ hv _ _ h).inRange ha
  | savedBound hf hv h => exact ((hs.dump.of_mem hf).2 _ hv _ _ h).inRange ha

theorem advance (hs : Stocked height below s) (rest : List Instr) :
    Stocked height below (s.advance rest) :=
  ⟨hs.halted, hs.dump, hs.stack, hs.env, hs.operands⟩

theorem push (hs : Stocked height below s)
    (hcode : Ready (!s.dump.items.isEmpty) s.env.length (height + 1) s.code) {v : Value}
    (hv : v.Sound) : (s.push l v).Safe := by
  rw [State.push]
  split
  · exact ⟨trivial, hs.inRange hcode⟩
  · refine ⟨height + 1, below, ⟨hs.halted, hs.dump, ?_, hs.env, ?_⟩, hcode⟩
    · rw [Counted.items_push, List.length_cons, hs.stack]
      omega
    · exact List.forall_mem_cons.mpr ⟨hv, hs.operands⟩

theorem pop (hs : Stocked (height + 1) below s) :
    ∃ v stack, v.Sound ∧ Stocked height below { s with stack := stack } ∧
      ∀ i k, s.pop i k = k v { s with stack := stack } := by
  cases hpop : s.stack.pop? with
  | none =>
      have hlength := hs.stack
      rw [Counted.pop?_eq_none_iff.mp hpop, List.length_nil] at hlength
      omega
  | some top =>
      obtain ⟨v, stack⟩ := top
      have hitems := Counted.pop?_eq_some_iff.mp hpop
      have hlength := hs.stack
      have hoperands := hs.operands
      rw [hitems, List.length_cons] at hlength
      rw [hitems, List.forall_mem_cons] at hoperands
      refine ⟨v, stack, hoperands.1, ⟨hs.halted, hs.dump, ?_, hs.env, hoperands.2⟩, ?_⟩
      · simp only
        omega
      · intro i k
        rw [State.pop, hpop]

theorem arithmetic (hs : Stocked (height + 2) below s)
    (hcode : Ready (!s.dump.items.isEmpty) s.env.length (height + 1) s.code) (i : Instr) (o : Op) :
    (s.arithmetic l i o).Safe := by
  obtain ⟨right, stack, -, hs, hpop⟩ := hs.pop
  obtain ⟨left, stack, -, hs, hpop'⟩ := hs.pop
  rw [State.arithmetic, hpop, hpop']
  split
  · exact hs.push hcode (.int _)
  · exact ⟨trivial, hs.inRange hcode⟩
  · exact ⟨trivial, hs.inRange hcode⟩

theorem enter (hs : Stocked (height + 1) below s)
    (hcode : Ready (!s.dump.items.isEmpty) s.env.length (height + 1) s.code) {code : List Instr}
    {env : List Value} (hv : (Value.closure code env).Sound) : (s.enter l code env).Safe := by
  have hstack := hs.stack
  rw [State.enter, if_neg]
  · split
    · exact ⟨trivial, hs.inRange hcode⟩
    · -- the argument is the only operand of the call, the others wait with the frame
      refine ⟨1, height + below, ⟨hs.halted, .cons hcode hs.env hs.dump, ?_, ?_, hs.operands⟩,
        hv _ _ (.self code env)⟩
      · simp only
        omega
      · intro v hmem code' env' h
        exact hv _ _ (.captured hmem h)
  · rw [List.isEmpty_iff]
    intro hempty
    rw [hempty, List.length_nil] at hstack
    omega

theorem leave (hs : Stocked 0 below s) (hcall : (!s.dump.items.isEmpty) = true) {v : Value}
    (hv : v.Sound) : (s.leave l v).Safe := by
  cases hpop : s.dump.pop? with
  | none =>
      rw [Counted.pop?_eq_none_iff.mp hpop] at hcall
      cases hcall
  | some top =>
      obtain ⟨f, dump⟩ := top
      have hdump := hs.dump
      have hstack := hs.stack
      rw [Counted.pop?_eq_some_iff.mp hpop] at hdump
      cases hdump with
      | cons hcode henv hframes =>
          rw [State.leave, hpop]
          have hcaller : Stocked _ _
              { s with code := f.code, pc := f.pc, env := f.env, dump := dump } :=
            ⟨hs.halted, hframes, by rw [hstack, Nat.zero_add], henv, hs.operands⟩
          exact hcaller.push hcode hv

end Stocked

theorem State.lookup?_of_lt {s : State} {i : Int} (h : 0 ≤ i ∧ i < s.env.length) :
    ∃ v ∈ s.env, s.lookup? i = some v := by
  have hlt : i.toNat < s.env.length := by omega
  refine ⟨s.env.get ⟨i.toNat, hlt⟩, List.get_mem _ _, ?_⟩
  rw [State.lookup?, if_neg (by omega)]
  exact List.getElem?_eq_getElem hlt

/-- An instruction of a poised state leads to a poised state or to an admitted fault. -/
theorem State.Poised.execute {s : State} (hs : s.Poised) {i : Instr} {rest : List Instr}
    (hcode : s.code = i :: rest) (l : Limits) : ((s.advance rest).execute l i).Safe := by
  obtain ⟨height, below, hstock, hready⟩ := hs
  replace hstock := hstock.advance rest
  rw [hcode] at hready
  -- only a return looks at whether a call is open, all other instructions pass it on
  generalize hcall : (!s.dump.items.isEmpty) = inCall at hready
  cases hready with
  | ret =>
      obtain ⟨v, stack, hv, hstock, hpop⟩ := hstock.pop
      rw [State.execute, hpop]
      exact hstock.leave hcall hv
  | access hi hrest =>
      subst hcall
      obtain ⟨v, hmem, hfound⟩ := State.lookup?_of_lt (s := s.advance rest) hi
      rw [State.execute, hfound]
      exact hstock.push hrest (hstock.env v hmem)
  | push hv hrest =>
      subst hcall
      exact hstock.push hrest fun code env h => absurd h (hv code env)
  | cur hbody hrest =>
      subst hcall
      exact hstock.push hrest (.closure hbody hstock.env)
  | grab hrest =>
      subst hcall
      obtain ⟨v, stack, hv, hstock, hpop⟩ := hstock.pop
      rw [State.execute, hpop]
      exact ⟨_, _, ⟨hstock.halted, hstock.dump, hstock.stack,
        List.forall_mem_cons.mpr ⟨hv, hstock.env⟩, hstock.operands⟩, hrest⟩
  | apply hrest =>
      subst hcall
      obtain ⟨v, stack, hv, hstock, hpop⟩ := hstock.pop
      rw [State.execute, hpop]
      cases v with
      | closure code env => exact hstock.enter hrest hv
      | int n => exact ⟨trivial, hstock.inRange hrest⟩
      | bool b => exact ⟨trivial, hstock.inRange hrest⟩
      | const name type => exact ⟨trivial, hstock.inRange hrest⟩
  | op o hrest =>
      subst hcall
      cases o with
      | add => exact hstock.arithmetic hrest .add .add
      | mul => exact hstock.arithmetic hrest .mul .mul

theorem State.Poised.inRange {s : State} (hs : s.Poised) : s.InRange := by
  obtain ⟨_, _, hstock, hready⟩ := hs
  exact hstock.inRange hready

theorem State.Poised.of_code_nil {s : State} (hs : s.Poised) (hcode : s.code = []) :
    s.dump.items = [] ∧ ∃ v, s.stack.items = [v] := by
  obtain ⟨height, below, hstock, hready⟩ := hs
  rw [hcode] at hready
  generalize hcall : (!s.dump.items.isEmpty) = inCall at hready
  cases hready with
  | done =>
      have hdump : s.dump.items = [] := by simpa using hcall
      have hawaits := hstock.dump
      rw [hdump] at hawaits
      cases hawaits with
      | nil => exact ⟨hdump, List.length_eq_one_iff.mp hstock.stack⟩

theorem poised_load {e : Term} (he : Scoped 0 e) : (State.load (emit e)).Poised := by
  have hready : Ready false 0 0 (emit e ++ []) := ready_emit he (.done 0)
  rw [List.append_nil] at hready
  exact ⟨0, 0, ⟨rfl, .nil, rfl, List.forall_mem_nil _, List.forall_mem_nil _⟩, hready⟩

/-- A run from a poised state gives a value or ends in an admitted fault. -/
theorem State.Poised.runFrom {s : State} (hs : s.Poised) (l : Limits) (budget : Nat) :
    (∃ v, (runFrom l budget s).outcome = .ok v) ∨
      ∃ f, f.Admitted ∧ (runFrom l budget s).outcome = .error f := by
  fun_induction Machine.runFrom l budget s with
  | case1 budget s hhalt =>
      obtain ⟨_, _, hstock, -⟩ := hs
      exact absurd hhalt (by simp [hstock.halted])
  | case2 budget s hhalt hcode hdump =>
      obtain ⟨-, v, hstack⟩ := hs.of_code_nil hcode
      exact .inl ⟨v, by rw [finish, hstack]⟩
  | case3 budget s hhalt hcode hdump =>
      exact absurd (List.isEmpty_iff.mpr (hs.of_code_nil hcode).1) hdump
  | case4 s hhalt i rest hcode =>
      exact .inr ⟨.exhausted .instructions l.instructions, trivial, rfl⟩
  | case5 s hhalt i rest hcode budget t hnext ih =>
      have hsafe := hs.execute hcode l
      rw [hnext] at hsafe
      exact ih hsafe
  | case6 s hhalt i rest hcode budget f t hfault =>
      have hsafe := hs.execute hcode l
      rw [hfault] at hsafe
      exact .inr ⟨f, hsafe.1, rfl⟩

theorem Reached.poised {l : Limits} {e : Term} (he : Scoped 0 e) {s : State}
    (hs : Reached l (emit e) s) : s.Poised := by
  induction hs with
  | load => exact poised_load he
  | next hs hcode hnext ih =>
      have hsafe := ih.execute hcode l
      rw [hnext] at hsafe
      exact hsafe

theorem Visited.inRange {l : Limits} {e : Term} (he : Scoped 0 e) {s : State}
    (hs : Visited l (emit e) s) : s.InRange := by
  cases hs with
  | reached hs => exact (hs.poised he).inRange
  | left hs hcode hfault =>
      have hsafe := (hs.poised he).execute hcode l
      rw [hfault] at hsafe
      exact hsafe.2

theorem Fault.Admitted.cases {f : Fault} (h : f.Admitted) :
    (∃ i v, f = .wrongOperand i v) ∨ ∃ resource limit, f = .exhausted resource limit := by
  cases f with
  | wrongOperand i v => exact .inl ⟨i, v, rfl⟩
  | exhausted resource limit => exact .inr ⟨resource, limit, rfl⟩
  | underflow i => exact h.elim
  | outOfRange i size => exact h.elim
  | foreign text => exact h.elim
  | codeEnd => exact h.elim
  | unreturned frames => exact h.elim
  | finalStack stack => exact h.elim

/-- A closed term, typed or not, has a program. Whatever the limits, its run gives a value or fails
on an operand of the wrong form or for want of a resource, and in no state on the way is an access
out of range. -/
theorem run_safe_of_closed {e : Term} (he : e.Named) (hclosed : e.freeVars = []) :
    ∃ nameless program, Nameless.convert e = .ok nameless ∧ Code.compile nameless = .ok program ∧
      ∀ l : Limits,
        ((∃ v, (run l program).outcome = .ok v) ∨
          (∃ i v, (run l program).outcome = .error (.wrongOperand i v)) ∨
          ∃ resource limit, (run l program).outcome = .error (.exhausted resource limit)) ∧
        (∀ s, Visited l program s → s.InRange) ∧
        (∀ p ∈ history l program, Reached l program p.2) ∧
        Visited l program (run l program).state := by
  have hcompile := Nameless.compile_of_closed he hclosed
  have hscoped := (Code.compile_eq_ok_iff.mp hcompile).1
  refine ⟨_, _, Nameless.convert_of_closed he hclosed, hcompile, fun l => ⟨?_, ?_, ?_, ?_⟩⟩
  · rcases (poised_load hscoped).runFrom l l.instructions.toNat with hvalue | ⟨f, hf, hfault⟩
    · exact .inl hvalue
    · rcases hf.cases with ⟨i, v, rfl⟩ | ⟨resource, limit, rfl⟩
      · exact .inr (.inl ⟨i, v, hfault⟩)
      · exact .inr (.inr ⟨resource, limit, hfault⟩)
  · intro s hs
    exact hs.inRange hscoped
  · intro p hp
    exact reached_of_mem_historyFrom .load hp
  · exact visited_runFrom _ .load

/-- A function that is called with itself, and then adds a number to itself: it has no type. -/
def selfCalling : Term :=
  .app (.lam (some "x") none (.app (.var (some "x")) (.var (some "x"))))
    (.lam (some "y") none (.op .add (.var (some "y")) (.num 1)))

theorem run_safe_of_closed_selfCalling :
    selfCalling.Named ∧ selfCalling.freeVars = [] ∧
      ∃ nameless program, Nameless.convert selfCalling = .ok nameless ∧
        Code.compile nameless = .ok program ∧
        ∀ l : Limits,
          ((∃ v, (run l program).outcome = .ok v) ∨
            (∃ i v, (run l program).outcome = .error (.wrongOperand i v)) ∨
            ∃ resource limit, (run l program).outcome = .error (.exhausted resource limit)) ∧
          (∀ s, Visited l program s → s.InRange) ∧
          (∀ p ∈ history l program, Reached l program p.2) ∧
          Visited l program (run l program).state := by
  have hnamed : selfCalling.Named :=
    .app (.lam "x" none (.app (.var "x") (.var "x")))
      (.lam "y" none (.op .add (.var "y") (.num 1)))
  exact ⟨hnamed, rfl, run_safe_of_closed hnamed rfl⟩

end Machine

end LambdaMachine
