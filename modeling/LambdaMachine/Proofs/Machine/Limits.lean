import LambdaMachine.Machine.Run
import Mathlib.Order.Lattice

namespace LambdaMachine.Machine

/-- What a state has taken up of a resource. -/
def State.used (s : State) : Resource → Nat
  | .instructions => s.steps
  | .dump => s.dump.count
  | .stack => s.stack.count

def Limits.on (l : Limits) : Resource → Int
  | .instructions => l.instructions
  | .dump => l.dump
  | .stack => l.stack

/-- A state within the limits. -/
def Limits.Admits (l : Limits) (s : State) : Prop :=
  ∀ r, s.used r ≤ l.on r

/-- The first state has executed as many instructions as the second, and takes up no more. -/
structure State.Below (t s : State) : Prop where
  steps : t.steps = s.steps
  used : ∀ r, t.used r ≤ s.used r

theorem State.Below.refl (s : State) : s.Below s :=
  ⟨rfl, fun _ => le_rfl⟩

theorem State.Below.trans {s t u : State} (h : u.Below t) (h' : t.Below s) : u.Below s :=
  ⟨h.steps.trans h'.steps, fun r => (h.used r).trans (h'.used r)⟩

theorem State.Below.of_counts {s t : State} (hsteps : t.steps = s.steps)
    (hdump : t.dump.count ≤ s.dump.count) (hstack : t.stack.count ≤ s.stack.count) :
    t.Below s := by
  refine ⟨hsteps, fun r => ?_⟩
  cases r with
  | instructions => exact hsteps.le
  | dump => exact hdump
  | stack => exact hstack

theorem State.Below.admits {l : Limits} {s t : State} (h : t.Below s) (hs : l.Admits s) :
    l.Admits t :=
  fun r => le_trans (Int.ofNat_le.mpr (h.used r)) (hs r)

/-- The effect of an instruction under different limits. It goes on or fails in the same way under
all of them, or it takes one more of a resource and is refused where there is no more. -/
inductive Asks (s : State) (x : Limits → Transition) : Prop where
  | nothing {t : State} (h : ∀ l, x l = .next t) (ht : t.Below s)
  | failing {f : Fault} {t : State} (h : ∀ l, x l = .fault f t) (ht : t.Below s)
  | more (r : Resource) {base t : State}
      (h : ∀ l : Limits, x l =
        if l.on r ≤ base.used r then .fault (.exhausted r (l.on r)) base else .next t)
      (hbase : base.Below s) (hsteps : t.steps = s.steps) (hmore : t.used r = base.used r + 1)
      (hother : ∀ r', r' ≠ r → t.used r' ≤ s.used r')

theorem Asks.of_below {s t : State} {x : Limits → Transition} (h : Asks t x) (ht : t.Below s) :
    Asks s x := by
  cases h with
  | nothing h hu => exact .nothing h (hu.trans ht)
  | failing h hu => exact .failing h (hu.trans ht)
  | more r h hbase hsteps hmore hother =>
      exact .more r h (hbase.trans ht) (hsteps.trans ht.steps) hmore fun r' hr' =>
        (hother r' hr').trans (ht.used r')

theorem Asks.operand {s t : State} {x : Limits → Transition}
    (h : ∀ l : Limits, x l =
      if l.stack ≤ s.stack.count then .fault (.exhausted .stack l.stack) s else .next t)
    (hsteps : t.steps = s.steps) (hdump : t.dump.count ≤ s.dump.count)
    (hstack : t.stack.count = s.stack.count + 1) : Asks s x := by
  refine .more .stack h (.refl s) hsteps hstack ?_
  intro r hr
  cases r with
  | instructions => exact hsteps.le
  | dump => exact hdump
  | stack => exact absurd rfl hr

namespace State

theorem count_of_pop? {α : Type} {c d : Counted α} {a : α} (h : c.pop? = some (a, d)) :
    c.count = d.count + 1 := by
  rw [c.count_eq, d.count_eq, Counted.pop?_eq_some_iff.mp h, List.length_cons]

theorem asks_push (value : Value) (s : State) : Asks s fun l => s.push l value :=
  .operand (fun _ => rfl) rfl le_rfl rfl

theorem asks_pop (i : Instr) (s : State) {k : Limits → Value → State → Transition}
    (hk : ∀ value t, Asks t fun l => k l value t) : Asks s fun l => s.pop i (k l) := by
  simp only [pop]
  cases hpop : s.stack.pop? with
  | none => exact .failing (fun l => rfl) (.refl s)
  | some top =>
      obtain ⟨value, stack⟩ := top
      have hcount : s.stack.count = stack.count + 1 := count_of_pop? hpop
      exact (hk value _).of_below (.of_counts rfl le_rfl (by simp only; omega))

theorem asks_arithmetic (i : Instr) (o : Op) (s : State) :
    Asks s fun l => s.arithmetic l i o := by
  refine asks_pop i s fun right t => asks_pop i t fun left u => ?_
  cases left with
  | int m =>
      cases right with
      | int n => exact asks_push _ u
      | _ => exact .failing (fun l => rfl) (.refl u)
  | _ => exact .failing (fun l => rfl) (.refl u)

theorem asks_enter (code : List Instr) (env : List Value) (s : State) :
    Asks s fun l => s.enter l code env := by
  simp only [enter]
  split
  · exact .failing (fun l => rfl) (.refl s)
  · refine .more .dump (fun l => rfl) (.refl s) rfl rfl ?_
    intro r hr
    cases r with
    | instructions => exact le_rfl
    | dump => exact absurd rfl hr
    | stack => exact le_rfl

theorem asks_leave (result : Value) (s : State) : Asks s fun l => s.leave l result := by
  cases hdump : s.dump.pop? with
  | none =>
      have hleave : ∀ l : Limits, s.leave l result =
          if l.stack ≤ s.stack.count then .fault (.exhausted .stack l.stack) s
          else .next { s with stack := s.stack.push result, halted := true } := by
        intro l
        simp only [leave, hdump, push]
        by_cases hfull : l.stack ≤ s.stack.count
        · simp only [if_pos hfull]
        · simp only [if_neg hfull]
      exact .operand hleave rfl le_rfl rfl
  | some top =>
      obtain ⟨frame, dump⟩ := top
      have hcount : s.dump.count = dump.count + 1 := count_of_pop? hdump
      simp only [leave, hdump]
      exact (asks_push result _).of_below (.of_counts rfl (by simp only; omega) le_rfl)

theorem asks_execute (i : Instr) (s : State) : Asks s fun l => s.execute l i := by
  cases i with
  | push value => exact asks_push value s
  | access n =>
      simp only [execute]
      cases s.lookup? n with
      | none => exact .failing (fun l => rfl) (.refl s)
      | some value => exact asks_push value s
  | cur code => exact asks_push _ s
  | grab =>
      simp only [execute]
      refine asks_pop .grab s fun value t => ?_
      exact .nothing (fun l => rfl) (.of_counts rfl le_rfl le_rfl)
  | apply =>
      simp only [execute]
      refine asks_pop .apply s fun value t => ?_
      cases value with
      | closure code env => exact asks_enter code env t
      | _ => exact .failing (fun l => rfl) (.refl t)
  | ret => exact asks_pop .ret s fun value t => asks_leave value t
  | add => exact asks_arithmetic .add .add s
  | mul => exact asks_arithmetic .mul .mul s
  | foreign text => exact .failing (fun l => rfl) (.refl s)

end State

theorem Asks.steps_of_next {m : Limits} {s t : State} {x : Limits → Transition} (h : Asks s x)
    (ht : x m = .next t) : t.steps = s.steps := by
  cases h with
  | nothing h hbelow =>
      rw [h m] at ht
      cases ht
      exact hbelow.steps
  | failing h hbelow =>
      rw [h m] at ht
      cases ht
  | more r h hbase hsteps hmore hother =>
      rw [h m] at ht
      split at ht
      · cases ht
      · cases ht
        exact hsteps

theorem Asks.of_next {l m : Limits} {s t : State} {x : Limits → Transition} (h : Asks s x)
    (hs : l.Admits s) (ht : x m = .next t) :
    l.Admits t ∧ x l = .next t ∨
      ∃ r base, x l = .fault (.exhausted r (l.on r)) base ∧ l.on r < t.used r := by
  cases h with
  | nothing h hbelow =>
      rw [h m] at ht
      cases ht
      exact .inl ⟨hbelow.admits hs, h l⟩
  | failing h hbelow =>
      rw [h m] at ht
      cases ht
  | @more r base u h hbase hsteps hmore hother =>
      rw [h m] at ht
      split at ht
      · cases ht
      · cases ht
        by_cases hfull : l.on r ≤ base.used r
        · exact .inr ⟨r, base, by rw [h l, if_pos hfull], by omega⟩
        · refine .inl ⟨fun r' => ?_, by rw [h l, if_neg hfull]⟩
          by_cases hr : r' = r
          · subst hr
            omega
          · have hle := hother r' hr
            have hadmits := hs r'
            omega

theorem Asks.of_fault {m : Limits} {s t : State} {f : Fault} {x : Limits → Transition}
    (h : Asks s x) (ht : x m = .fault f t) :
    t.Below s ∧ ((∃ r limit, f = .exhausted r limit) ∨ ∀ l, x l = .fault f t) := by
  cases h with
  | nothing h hbelow =>
      rw [h m] at ht
      cases ht
  | failing h hbelow =>
      rw [h m] at ht
      cases ht
      exact ⟨hbelow, .inr h⟩
  | more r h hbase hsteps hmore hother =>
      rw [h m] at ht
      split at ht
      · cases ht
        exact ⟨hbase, .inl ⟨_, _, rfl⟩⟩
      · cases ht

end LambdaMachine.Machine
