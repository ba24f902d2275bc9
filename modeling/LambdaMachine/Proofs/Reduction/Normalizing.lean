import LambdaMachine.Proofs.Nameless.Standard
import LambdaMachine.Proofs.Reduction.Run
import LambdaMachine.Proofs.Term.Alpha

namespace LambdaMachine.Reduction

open Nameless (Tree)
open Relation (ReflTransGen)
open Term (Numbering)

/-- A redex is contracted or bound names are changed. -/
inductive Rewrites : Term → Term → Prop where
  | contract {e e' : Term} (h : Contracts e e') : Rewrites e e'
  | rename {e e' : Term} (hnamed : e'.Named) (h : e.alphaEqual e' = true) : Rewrites e e'

/-- Contractions in any order, up to bound names, lead from a term to another. -/
abbrev Derives : Term → Term → Prop := ReflTransGen Rewrites

theorem Leads.derives {e e' : Term} (h : Leads e e') : Derives e e' :=
  ReflTransGen.mono (fun _ _ ⟨_, hstep⟩ => .contract (.of_step hstep)) _ _ h

theorem irreducible_of_step {e : Term} (he : e.Named) (h : step e = none) : Irreducible e :=
  fun e' hstep => normal_of_step he h (fun _ => 0) (e'.tree _) (hstep.tree he _)

theorem Derives.named {e e' : Term} (h : Derives e e') (he : e.Named) : e'.Named := by
  induction h with
  | refl => exact he
  | tail _ hstep ih =>
      cases hstep with
      | contract hstep => exact hstep.named ih
      | rename hnamed _ => exact hnamed

theorem Derives.reduces {e e' : Term} (h : Derives e e') (he : e.Named) {ν : Numbering}
    (hν : Function.Injective ν) : Tree.Reduces (e.tree ν) (e'.tree ν) := by
  induction h with
  | refl => exact .refl
  | @tail b c hderives hstep ih =>
      have hb : b.Named := Derives.named hderives he
      cases hstep with
      | contract hstep => exact ih.tail (hstep.tree hb ν)
      | rename hnamed halpha =>
          rw [Term.alphaEqual_iff hb hnamed fun l _ r _ heq => hν heq] at halpha
          rw [← halpha]
          exact ih

/-- The reduction of a term ends after a number of contractions. -/
inductive Finishes : Nat → Term → Term → Prop where
  | done {e : Term} (h : step e = none) : Finishes 0 e e
  | more {k : Nat} {e e' n : Term} {rule : Rule} (h : step e = some (rule, e'))
      (hrest : Finishes k e' n) : Finishes (k + 1) e n

namespace Finishes

variable {k : Nat} {e n : Term}

theorem unique {k' : Nat} {n' : Term} (h : Finishes k e n) (h' : Finishes k' e n') : k = k' := by
  induction h generalizing k' n' with
  | done hnone =>
      cases h' with
      | done _ => rfl
      | more hstep _ => simp [hnone] at hstep
  | more hstep _ ih =>
      cases h' with
      | done hnone => simp [hnone] at hstep
      | more hstep' hrest =>
          rw [hstep] at hstep'
          cases hstep'
          rw [ih hrest]

theorem leads (h : Finishes k e n) : Leads e n := by
  induction h with
  | done _ => exact .refl
  | more hstep _ ih => exact .head ⟨_, hstep⟩ ih

theorem step_eq_none (h : Finishes k e n) : step n = none := by
  induction h with
  | done hnone => exact hnone
  | more _ _ ih => exact ih

theorem runFrom (h : Finishes k e n) (he : e.Named) {seen : Std.HashSet Term}
    (hseen : ∀ x ∈ seen, ∃ j m, k ≤ j ∧ Finishes j x m) {budget : Nat} (hbudget : k ≤ budget)
    (steps : Nat) : runFrom steps seen budget e = ⟨n, steps + k, none⟩ := by
  induction h generalizing seen budget steps with
  | done hnone =>
      unfold Reduction.runFrom
      rw [checkedStep_of_named he, hnone]
      rfl
  | @more k e e' n rule hstep hrest ih =>
      obtain ⟨budget, rfl⟩ : ∃ b, budget = b + 1 := ⟨budget - 1, by omega⟩
      -- what has come up before takes longer to finish than what is next
      have hnew : seen.contains e' = false := by
        rw [← Bool.not_eq_true, Std.HashSet.contains_iff_mem]
        intro hmem
        obtain ⟨j, m, hle, hj⟩ := hseen e' hmem
        have := hrest.unique hj
        omega
      have hseen' : ∀ x ∈ seen.insert e', ∃ j m, k ≤ j ∧ Finishes j x m := by
        intro x hx
        rcases Std.HashSet.mem_insert.mp hx with heq | hx
        · rw [← eq_of_beq heq]
          exact ⟨k, n, Nat.le_refl k, hrest⟩
        · obtain ⟨j, m, hle, hj⟩ := hseen x hx
          exact ⟨j, m, by omega, hj⟩
      unfold Reduction.runFrom
      rw [checkedStep_of_named he, hstep]
      simp only [hnew, Bool.false_eq_true, if_false]
      rw [ih ((Contracts.of_step hstep).named he) hseen' (by omega), Nat.add_right_comm]
      rfl

theorem run_within (h : Finishes k e n) (he : e.Named) {limit : Int} (hlimit : k ≤ limit.toNat) :
    Reduction.run limit e = ⟨n, k, none⟩ := by
  have hseen : ∀ x ∈ ({e} : Std.HashSet Term), ∃ j m, k ≤ j ∧ Finishes j x m := by
    intro x hx
    obtain rfl : e = x := by simpa using hx
    exact ⟨k, n, Nat.le_refl k, h⟩
  rw [Reduction.run, h.runFrom he hseen hlimit, Nat.zero_add]

theorem run (h : Finishes k e n) (he : e.Named) {limit : Int} (hlimit : k ≤ limit) :
    run limit e = ⟨n, k, none⟩ :=
  h.run_within he (by omega)

end Finishes

theorem exists_finishes_of_leftmost {e : Term} (he : e.Named) {ν : Numbering} {t : Tree}
    (h : Tree.LeftmostReduces (e.tree ν) t) (ht : t.Normal) :
    ∃ k n, Finishes k e n ∧ n.tree ν = t := by
  generalize hstart : e.tree ν = u at h
  induction h using ReflTransGen.head_induction_on generalizing e with
  | refl =>
      have hstep := map_tree_step he ν
      rw [hstart, ht.leftmost, Option.map_eq_none_iff] at hstep
      exact ⟨0, e, .done hstep, hstart⟩
  | head hleft _ ih =>
      obtain ⟨rule, hleft⟩ := hleft
      have hstep := map_tree_step he ν
      rw [hstart, hleft, Option.map_eq_some_iff] at hstep
      obtain ⟨⟨rule', e'⟩, hstep, heq⟩ := hstep
      cases heq
      obtain ⟨k, n, hfinishes, hn⟩ := ih ((Contracts.of_step hstep).named he) rfl
      exact ⟨k + 1, n, .more hstep hfinishes, hn⟩

theorem exists_finishes {e : Term} (he : e.Named) {ν : Numbering} {t : Tree}
    (h : Tree.Reduces (e.tree ν) t) (ht : t.Normal) : ∃ k n, Finishes k e n ∧ n.tree ν = t :=
  exists_finishes_of_leftmost he (h.leftmost ht) ht

theorem exists_run_of_derives {e n : Term} (he : e.Named) (h : Derives e n) (hn : Irreducible n) :
    ∃ k : Nat, ∃ m, m.alphaEqual n = true ∧
      ∀ limit : Int, k ≤ limit → run limit e = ⟨m, k, none⟩ := by
  obtain ⟨ν, hν⟩ := Term.exists_injective_numbering
  have hnamed : n.Named := h.named he
  have hnormal : (n.tree ν).Normal := normal_of_step hnamed hn.step_eq_none ν
  obtain ⟨k, m, hfinishes, hm⟩ := exists_finishes he (h.reduces he hν) hnormal
  refine ⟨k, m, ?_, fun limit hlimit => hfinishes.run he hlimit⟩
  have hmnamed : m.Named := hfinishes.leads.named he
  exact (Term.alphaEqual_iff hmnamed hnamed fun l _ r _ heq => hν heq).mpr hm

/-- Normal order is normalizing: if contractions in any order lead to a term without redexes, a run
with enough contractions ends with that term up to bound names. Only the terms that have no such
normal form exhaust every limit. -/
theorem normal_order_normalizing {e : Term} (he : e.Named) :
    (∀ n, Derives e n → Irreducible n →
      ∃ k : Nat, ∀ limit : Int, k ≤ limit →
        (run limit e).stop = none ∧ (run limit e).term.alphaEqual n = true) ∧
    ((∀ limit, (run limit e).stop = some .exhausted) ↔ ∀ n, Derives e n → ¬ Irreducible n) := by
  have hfinds : ∀ n, Derives e n → Irreducible n →
      ∃ k : Nat, ∀ limit : Int, k ≤ limit →
        (run limit e).stop = none ∧ (run limit e).term.alphaEqual n = true := by
    intro n hderives hn
    obtain ⟨k, m, halpha, hrun⟩ := exists_run_of_derives he hderives hn
    refine ⟨k, fun limit hlimit => ?_⟩
    rw [hrun limit hlimit]
    exact ⟨rfl, halpha⟩
  refine ⟨hfinds, ?_, ?_⟩
  · intro hexhausted n hderives hn
    obtain ⟨k, hrun⟩ := hfinds n hderives hn
    have hstop := (hrun k (Int.le_refl _)).1
    rw [hexhausted k] at hstop
    cases hstop
  · intro hnone limit
    obtain ⟨hleads, ⟨-, hstep⟩ | hstop⟩ := runFrom_of_named he 0 {e} limit.toNat
    · exact absurd (irreducible_of_step (hleads.named he) hstep) (hnone _ hleads.derives)
    · exact hstop

/-- A term that goes on forever. -/
def loop : Term :=
  .app (.lam (some "x") none (.app (.var (some "x")) (.var (some "x"))))
    (.lam (some "x") none (.app (.var (some "x")) (.var (some "x"))))

/-- A function that does not use its argument, which goes on forever. -/
def discarding : Term :=
  .app (.lam (some "d") none (.lam (some "y") none (.var (some "y")))) loop

theorem normal_order_normalizing_discarding :
    discarding.Named ∧ Contracts discarding discarding ∧
      Derives discarding (.lam (some "z") none (.var (some "z"))) ∧
      Irreducible (.lam (some "z") none (.var (some "z"))) ∧
      ∃ k : Nat, ∀ limit : Int, k ≤ limit →
        (run limit discarding).stop = none ∧
          (run limit discarding).term.alphaEqual (.lam (some "z") none (.var (some "z"))) =
            true := by
  have hloop : Contracts loop loop := by
    have hbeta := Contracts.beta (some "x") none (.app (.var (some "x")) (.var (some "x")))
      (.lam (some "x") none (.app (.var (some "x")) (.var (some "x"))))
    simpa [Term.substitute_app, Term.substitute_var, loop] using hbeta
  have hnamed : discarding.Named :=
    .app (.lam _ _ (.lam _ _ (.var _)))
      (.app (.lam _ _ (.app (.var _) (.var _))) (.lam _ _ (.app (.var _) (.var _))))
  have hderives : Derives discarding (.lam (some "z") none (.var (some "z"))) := by
    have hbeta := Contracts.beta (some "d") none (.lam (some "y") none (.var (some "y"))) loop
    rw [Term.substitute_lam] at hbeta
    simp only [Term.freeVars] at hbeta
    exact .head (.contract hbeta) (.single (.rename (.lam _ _ (.var _)) (by decide)))
  have hirreducible : Irreducible (.lam (some "z") none (.var (some "z"))) := by
    rintro e' (_ | _ | ⟨_, _, h⟩)
    cases h
  exact ⟨hnamed, .appArg _ hloop, hderives, hirreducible,
    (normal_order_normalizing hnamed).1 _ hderives hirreducible⟩

end LambdaMachine.Reduction
