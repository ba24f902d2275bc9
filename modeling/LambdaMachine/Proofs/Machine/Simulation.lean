import LambdaMachine.Proofs.Machine.BigStep
import LambdaMachine.Proofs.Machine.Unlimited

/-!
The machine does what the evaluator does. Emitted code, in front of any other code and on any stack
and dump, ends up pushing the image of the value of its term, fails with the image of its failure, or
keeps the machine going for at least as many steps as calls were allowed.
-/

namespace LambdaMachine.BigStep

open Code (emit opInstr Scoped)
open Machine (State Run Fault Limits Reaches Ends Exhausted)

mutual

/-- The value of the machine that stands for a value of the evaluator. -/
def Meaning.image : Meaning → Value
  | .int n => .int n
  | .const name type => .const name type
  | .closure _ body env => .closure (.grab :: emit body ++ [.ret]) (images env)

/-- The environment of the machine that stands for an environment of the evaluator. -/
def images : List Meaning → List Value
  | [] => []
  | v :: env => v.image :: images env

end

/-- The fault of the machine that stands for a failure of the evaluator. -/
def Failure.fault : Failure → Fault
  | .wrongOperand i v => .wrongOperand i v.image
  | .outOfRange i size => .outOfRange i size
  | .foreign text => .foreign text

theorem images_eq_map (env : List Meaning) : images env = env.map Meaning.image := by
  induction env with
  | nil => rfl
  | cons v env ih => rw [images, ih, List.map_cons]

/-- The machine has gone from one state to another, in which `rest` is left to execute, and has
pushed a value on the way. -/
structure Yields (s t : State) (rest : List Instr) (value : Value) : Prop where
  halted : t.halted = false
  code : t.code = rest
  env : t.env = s.env
  stack : t.stack = s.stack.push value
  dump : t.dump = s.dump

/-- The unlimited run from a state goes as an answer of the evaluator says. If there is a value, the
run comes to a state in which `post` holds; without an answer it takes at least `steps` steps. -/
def Mirrors (steps : Nat) (s : State) (post : Meaning → State → Prop) : Answer Meaning → Prop
  | .value v => ∃ n t, Reaches n s t ∧ post v t
  | .failure f => ∃ t, Ends s ⟨t, .error f.fault⟩
  | .unfinished => ∃ n t, steps ≤ n ∧ Reaches n s t

namespace Mirrors

variable {steps : Nat} {s : State} {post post' : Meaning → State → Prop} {x : Answer Meaning}

theorem of_reaches {n : Nat} {t : State} (hreach : Reaches n s t) (h : Mirrors steps t post x) :
    Mirrors (steps + n) s post x := by
  cases x with
  | value v =>
      obtain ⟨m, u, hm, hpost⟩ := h
      exact ⟨n + m, u, hreach.trans hm, hpost⟩
  | failure f =>
      obtain ⟨u, hu⟩ := h
      exact ⟨u, hreach.ends hu⟩
  | unfinished =>
      obtain ⟨m, u, hle, hm⟩ := h
      exact ⟨n + m, u, by omega, hreach.trans hm⟩

theorem of_le {fewer : Nat} (hle : fewer ≤ steps) (h : Mirrors steps s post x) :
    Mirrors fewer s post x := by
  cases x with
  | value v => exact h
  | failure f => exact h
  | unfinished =>
      obtain ⟨m, u, hm, hreach⟩ := h
      exact ⟨m, u, hle.trans hm, hreach⟩

theorem reaching (h : Mirrors steps s post x)
    (hpost : ∀ v t, post v t → ∃ n u, Reaches n t u ∧ post' v u) : Mirrors steps s post' x := by
  cases x with
  | value v =>
      obtain ⟨m, t, hm, hv⟩ := h
      obtain ⟨n, u, hn, hu⟩ := hpost v t hv
      exact ⟨m + n, u, hm.trans hn, hu⟩
  | failure f => exact h
  | unfinished => exact h

theorem bind {k : Meaning → Answer Meaning} (hx : Mirrors steps s post x)
    (hk : ∀ v t, post v t → Mirrors steps t post' (k v)) : Mirrors steps s post' (x >>= k) := by
  cases x with
  | value v =>
      obtain ⟨n, t, hn, hv⟩ := hx
      exact (of_reaches hn (hk v t hv)).of_le (Nat.le_add_right _ _)
  | failure f => exact hx
  | unfinished => exact hx

end Mirrors

section Steps

variable {s : State} {rest : List Instr}

theorem push_of_room (value : Value) {l : Limits} (h : s.stack.count < l.stack) :
    s.push l value = .next { s with stack := s.stack.push value } := by
  rw [State.push, if_neg (not_le.mpr h)]

theorem proceed_of_next {t : State} {i : Instr} (hhalt : s.halted = false)
    (hcode : s.code = i :: rest) (h : (s.advance rest).effect i = .next t) :
    s.proceed = .inl t := by
  rw [State.proceed_of_effect hhalt hcode, h]

theorem ends_of_fault {t : State} {i : Instr} {f : Fault} (hhalt : s.halted = false)
    (hcode : s.code = i :: rest) (h : (s.advance rest).effect i = .fault f t) :
    Ends s ⟨t, .error f⟩ := by
  refine ⟨0, s, .refl s, ?_⟩
  rw [State.proceed_of_effect hhalt hcode, h]

theorem yields_of_push {i : Instr} {value : Value} (hhalt : s.halted = false)
    (hcode : s.code = i :: rest)
    (h : ∀ l, (s.advance rest).execute l i = (s.advance rest).push l value) :
    ∃ n t, Reaches n s t ∧ Yields s t rest value := by
  have heffect : (s.advance rest).effect i =
      .next { s.advance rest with stack := s.stack.push value } := by
    rw [State.effect, h]
    exact push_of_room value (by simp only [State.advance]; omega)
  exact ⟨1, _, .single (proceed_of_next hhalt hcode heffect), hhalt, rfl, rfl, rfl, rfl⟩

theorem pop_of_push {value : Value} {stack : Counted Value} (h : s.stack = stack.push value)
    (i : Instr) (k : Value → State → Machine.Transition) :
    s.pop i k = k value { s with stack := stack } := by
  have hpop : s.stack.pop? = some (value, stack) := by
    rw [Counted.pop?_eq_some_iff, h]
    rfl
  rw [State.pop, hpop]

theorem ends_of_apply {value : Value} {stack : Counted Value} (hhalt : s.halted = false)
    (hcode : s.code = .apply :: rest) (hstack : s.stack = stack.push value)
    (hvalue : ∀ code env, value ≠ .closure code env) :
    ∃ t, Ends s ⟨t, .error (.wrongOperand .apply value)⟩ := by
  refine ⟨{ s.advance rest with stack := stack }, ends_of_fault hhalt hcode ?_⟩
  rw [State.effect, State.execute, pop_of_push (s := s.advance rest) hstack]
  cases value with
  | closure code env => exact absurd rfl (hvalue code env)
  | int n => rfl
  | bool b => rfl
  | const name type => rfl

theorem reaches_body {arg : Value} {code : List Instr} {env : List Value} {stack : Counted Value}
    (hhalt : s.halted = false) (hcode : s.code = .apply :: rest)
    (hstack : s.stack = (stack.push arg).push (.closure (.grab :: code) env)) :
    ∃ t pc, Reaches 2 s t ∧ t.halted = false ∧ t.code = code ∧ t.env = arg :: env ∧
      t.stack = stack ∧ t.dump = s.dump.push ⟨rest, pc, s.env⟩ := by
  let entered : State := { s.advance rest with
    code := .grab :: code
    pc := 0
    env := env
    stack := stack.push arg
    dump := s.dump.push ⟨rest, s.pc + 1, s.env⟩ }
  let bound : State := { entered.advance code with env := arg :: env, stack := stack }
  have happly : (s.advance rest).effect .apply = .next entered := by
    rw [State.effect, State.execute, pop_of_push (s := s.advance rest) hstack]
    simp only [State.enter, Counted.items_push, List.isEmpty_cons, Bool.false_eq_true, if_false]
    rw [if_neg]
    · rfl
    · simp only [State.advance]
      omega
  have hgrab : (entered.advance code).effect .grab = .next bound := by
    rw [State.effect, State.execute, pop_of_push (s := entered.advance code) rfl]
    rfl
  have hreach : Reaches 2 s bound :=
    .head (proceed_of_next hhalt hcode happly) (.single (proceed_of_next hhalt rfl hgrab))
  exact ⟨bound, s.pc + 1, hreach, hhalt, rfl, rfl, rfl, rfl⟩

theorem yields_of_return {t u : State} {result : Value} {pc : Nat} (hu : Yields t u [.ret] result)
    (hdump : t.dump = s.dump.push ⟨rest, pc, s.env⟩) (hstack : t.stack = s.stack) :
    ∃ n v, Reaches n u v ∧ Yields s v rest result := by
  let back : State := { u.advance [] with
    code := rest
    pc := pc
    env := s.env
    stack := s.stack.push result
    dump := s.dump }
  have hpop : (u.advance []).dump.pop? = some (⟨rest, pc, s.env⟩, s.dump) := by
    rw [Counted.pop?_eq_some_iff]
    exact congrArg Counted.items (hu.dump.trans hdump)
  have hret : (u.advance []).effect .ret = .next back := by
    rw [State.effect, State.execute,
      pop_of_push (s := u.advance []) (hu.stack.trans (by rw [hstack])), State.leave, hpop]
    simp only
    rw [push_of_room]
    simp only [State.advance, hu.stack, hstack, Counted.count_push]
    omega
  exact ⟨1, back, .single (proceed_of_next hu.halted hu.code hret), hu.halted, rfl, rfl, rfl, rfl⟩

theorem execute_opInstr (l : Limits) (o : Op) (s : State) :
    s.execute l (opInstr o) = s.arithmetic l (opInstr o) o := by
  cases o with
  | add => rfl
  | mul => rfl

theorem arithmetic_of_images {t : State} {stack : Counted Value} {left right : Meaning}
    (h : t.stack = (stack.push left.image).push right.image) (l : Limits) (i : Instr) (o : Op) :
    t.arithmetic l i o =
      match left.image, right.image with
      | .int m, .int n => { t with stack := stack }.push l (.int (o.apply m n))
      | .int _, value => .fault (.wrongOperand i value) { t with stack := stack }
      | value, _ => .fault (.wrongOperand i value) { t with stack := stack } := by
  rewrite [State.arithmetic, pop_of_push h, pop_of_push rfl]
  rfl

theorem mirrors_operate (steps : Nat) {t : State} {o : Op} {left right : Meaning}
    (hhalt : t.halted = false) (hcode : t.code = opInstr o :: rest) (henv : t.env = s.env)
    (hstack : t.stack = (s.stack.push left.image).push right.image) (hdump : t.dump = s.dump) :
    Mirrors steps t (fun v u => Yields s u rest v.image) (operate o left right) := by
  have hpop := fun l => arithmetic_of_images (t := t.advance rest) hstack l (opInstr o) o
  have hfault : ∀ value, (∀ l, (t.advance rest).arithmetic l (opInstr o) o =
      .fault (.wrongOperand (opInstr o) value) { t.advance rest with stack := s.stack }) →
      ∃ u, Ends t ⟨u, .error (.wrongOperand (opInstr o) value)⟩ := by
    intro value h
    exact ⟨_, ends_of_fault hhalt hcode (by rw [State.effect, execute_opInstr, h])⟩
  cases left with
  | const name type => exact hfault _ hpop
  | closure ann body env => exact hfault _ hpop
  | int m =>
      cases right with
      | const name type => exact hfault _ hpop
      | closure ann body env => exact hfault _ hpop
      | int n =>
          let done : State :=
            { t.advance rest with stack := s.stack.push (.int (o.apply m n)) }
          have heffect : (t.advance rest).effect (opInstr o) = .next done := by
            rw [State.effect, execute_opInstr, hpop]
            refine push_of_room _ ?_
            simp only [State.advance, hstack, Counted.count_push]
            omega
          exact ⟨1, done, .single (proceed_of_next hhalt hcode heffect), hhalt, rfl, henv, rfl,
            hdump⟩

end Steps

/-- How the machine goes on from every state in which the code of a term is next. -/
def MirrorsCode (steps : Nat) (env : List Meaning) (e : Term) (x : Answer Meaning) : Prop :=
  ∀ (s : State) (rest : List Instr), s.halted = false → s.code = emit e ++ rest →
    s.env = images env → Mirrors steps s (fun v t => Yields s t rest v.image) x

theorem lookup?_images {s : State} {env : List Meaning} (henv : s.env = images env) (i : Int) :
    s.lookup? i = (lookup? env i).map Meaning.image := by
  rw [State.lookup?, lookup?, henv, images_eq_map]
  split
  · rfl
  · exact List.getElem?_map

theorem mirrors_evaluateWith {steps : Nat} {call : List Meaning → Term → Answer Meaning}
    (hcall : ∀ env e, MirrorsCode (steps - 1) env e (call env e)) (env : List Meaning) (e : Term) :
    MirrorsCode steps env e (evaluateWith call env e) := by
  induction e with
  | var label =>
      intro s rest hhalt hcode henv
      exact ⟨_, ends_of_fault hhalt hcode rfl⟩
  | foreign text =>
      intro s rest hhalt hcode henv
      exact ⟨_, ends_of_fault hhalt hcode rfl⟩
  | idx i label =>
      intro s rest hhalt hcode henv
      have hcode' : s.code = .access i :: rest := hcode
      have hlookup : (s.advance rest).lookup? i = (lookup? env i).map Meaning.image :=
        lookup?_images henv i
      rw [evaluateWith]
      cases hfound : lookup? env i with
      | none =>
          rw [hfound] at hlookup
          have hsize : s.env.length = env.length := by
            rw [henv, images_eq_map, List.length_map]
          refine ⟨s.advance rest, ends_of_fault hhalt hcode' ?_⟩
          rw [State.effect, State.execute, hlookup]
          simp only [Option.map_none, Failure.fault, ← hsize]
          rfl
      | some value =>
          rw [hfound] at hlookup
          refine yields_of_push hhalt hcode' fun l => ?_
          rw [State.execute, hlookup]
          rfl
  | const name type =>
      intro s rest hhalt hcode henv
      exact yields_of_push hhalt hcode fun l => rfl
  | num n =>
      intro s rest hhalt hcode henv
      exact yields_of_push hhalt hcode fun l => rfl
  | lam param ann body =>
      intro s rest hhalt hcode henv
      refine yields_of_push hhalt hcode fun l => ?_
      rw [State.execute, Meaning.image, ← henv]
      rfl
  | app func arg ihf iha =>
      intro s rest hhalt hcode henv
      rw [evaluateWith]
      -- the code of the argument comes first, so the function is on top of the stack at the call
      have hcode' : s.code = emit arg ++ (emit func ++ .apply :: rest) := by
        simp [hcode, emit]
      refine (iha s _ hhalt hcode' henv).bind fun a t ht => ?_
      refine (ihf t _ ht.halted ht.code (ht.env.trans henv)).bind fun f u hu => ?_
      have hstack : u.stack = (s.stack.push a.image).push f.image := by
        rw [hu.stack, ht.stack]
      cases f with
      | int n => exact ends_of_apply hu.halted hu.code hstack (by simp [Meaning.image])
      | const name type => exact ends_of_apply hu.halted hu.code hstack (by simp [Meaning.image])
      | closure ann body captured =>
          obtain ⟨w, pc, hreach, hhaltw, hcodew, henvw, hstackw, hdumpw⟩ :=
            reaches_body hu.halted hu.code hstack
          -- the body runs up to its return, which takes the machine back behind the call
          have hbody := hcall (a :: captured) body w [.ret] hhaltw hcodew henvw
          have hdump : w.dump = s.dump.push ⟨rest, pc, s.env⟩ := by
            rw [hdumpw, hu.dump, ht.dump, hu.env, ht.env]
          have hreturn := hbody.reaching fun v x hx => yields_of_return hx hdump hstackw
          exact (Mirrors.of_reaches hreach hreturn).of_le (by omega)
  | op o left right ihl ihr =>
      intro s rest hhalt hcode henv
      rw [evaluateWith]
      have hcode' : s.code = emit left ++ (emit right ++ opInstr o :: rest) := by
        simp [hcode, emit]
      refine (ihl s _ hhalt hcode' henv).bind fun l t ht => ?_
      refine (ihr t _ ht.halted ht.code (ht.env.trans henv)).bind fun r u hu => ?_
      exact mirrors_operate steps hu.halted hu.code (hu.env.trans ht.env)
        (by rw [hu.stack, ht.stack]) (hu.dump.trans ht.dump)

/-- The machine mirrors the evaluator, and takes a step at least for every call that the evaluator
may make. -/
theorem mirrors_evaluateWithin (depth : Nat) (env : List Meaning) (e : Term) :
    MirrorsCode depth env e (evaluateWithin depth env e) := by
  induction depth generalizing env e with
  | zero =>
      refine mirrors_evaluateWith (fun env e s rest _ _ _ => ?_) env e
      exact ⟨0, s, Nat.le_refl 0, .refl s⟩
  | succ depth ih =>
      have hcall : ∀ env e, MirrorsCode (depth + 1 - 1) env e (evaluateWithin depth env e) := ih
      exact mirrors_evaluateWith hcall env e

end LambdaMachine.BigStep
