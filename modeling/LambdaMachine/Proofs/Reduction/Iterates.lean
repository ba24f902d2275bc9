import LambdaMachine.Proofs.Reduction.Normalizing
import LambdaMachine.Report.Causes

namespace LambdaMachine.Reduction

open Term (Numbering)

/-- The term after a step. A term without redexes stays as it is. -/
def advance (e : Term) : Term :=
  match step e with
  | some (_, e') => e'
  | none => e

theorem advance_of_some {e e' : Term} {rule : Rule} (h : step e = some (rule, e')) :
    advance e = e' := by
  simp only [advance, h]

theorem advance_of_none {e : Term} (h : step e = none) : advance e = e := by
  simp only [advance, h]

theorem named_iterate {e : Term} (he : e.Named) (k : Nat) : (advance^[k] e).Named := by
  induction k generalizing e with
  | zero => exact he
  | succ k ih =>
      rw [Function.iterate_succ_apply]
      cases hstep : step e with
      | none =>
          rw [advance_of_none hstep]
          exact ih he
      | some next =>
          rw [advance_of_some hstep]
          exact ih ((Contracts.of_step hstep).named he)

/-- A term is the first iterate without a redex, and it is the `k`-th one. -/
structure EndsAfter (k : Nat) (e n : Term) : Prop where
  iterate : advance^[k] e = n
  normal : Irreducible n
  first : ∀ j < k, ¬ Irreducible (advance^[j] e)

theorem step_eq_none_iff {e : Term} (he : e.Named) : step e = none ↔ Irreducible e :=
  ⟨irreducible_of_step he, Irreducible.step_eq_none⟩

theorem Finishes.endsAfter {k : Nat} {e n : Term} (h : Finishes k e n) (he : e.Named) :
    EndsAfter k e n := by
  induction h with
  | done hnone => exact ⟨rfl, irreducible_of_step he hnone, by simp⟩
  | @more k e e' n rule hstep hrest ih =>
      obtain ⟨hiterate, hnormal, hfirst⟩ := ih ((Contracts.of_step hstep).named he)
      refine ⟨?_, hnormal, ?_⟩
      · rw [Function.iterate_succ_apply, advance_of_some hstep, hiterate]
      · rintro (_ | j) hj
        · rw [Function.iterate_zero_apply, ← step_eq_none_iff he, hstep]
          simp
        · rw [Function.iterate_succ_apply, advance_of_some hstep]
          exact hfirst j (by omega)

theorem EndsAfter.finishes {k : Nat} {e n : Term} (h : EndsAfter k e n) (he : e.Named) :
    Finishes k e n := by
  induction k generalizing e with
  | zero =>
      obtain rfl : e = n := h.iterate
      exact .done h.normal.step_eq_none
  | succ k ih =>
      cases hstep : step e with
      | none => exact absurd (irreducible_of_step he hstep) (h.first 0 (by omega))
      | some next =>
          obtain ⟨rule, e'⟩ := next
          have hiterate : ∀ j, advance^[j] e' = advance^[j + 1] e := by
            intro j
            rw [Function.iterate_succ_apply, advance_of_some hstep]
          refine .more hstep (ih ⟨?_, h.normal, ?_⟩ ((Contracts.of_step hstep).named he))
          · rw [hiterate, h.iterate]
          · intro j hj
            rw [hiterate]
            exact h.first (j + 1) (by omega)

theorem runFrom_cases {e : Term} (he : e.Named) (steps : Nat) (seen : Std.HashSet Term)
    (budget : Nat) :
    ∃ k ≤ budget,
      runFrom steps seen budget e = ⟨advance^[k] e, steps + k, none⟩ ∧
          Finishes k e (advance^[k] e) ∨
        runFrom steps seen budget e = ⟨advance^[k] e, steps + k, some .exhausted⟩ := by
  induction budget generalizing e steps seen with
  | zero =>
      unfold runFrom
      rw [checkedStep_of_named he]
      cases hstep : step e with
      | none => exact ⟨0, Nat.le_refl 0, .inl ⟨rfl, .done hstep⟩⟩
      | some next => exact ⟨0, Nat.le_refl 0, .inr rfl⟩
  | succ budget ih =>
      unfold runFrom
      rw [checkedStep_of_named he]
      cases hstep : step e with
      | none => exact ⟨0, Nat.zero_le _, .inl ⟨rfl, .done hstep⟩⟩
      | some next =>
          obtain ⟨rule, e'⟩ := next
          have hadvance := advance_of_some hstep
          dsimp only
          split
          · refine ⟨1, by omega, .inr ?_⟩
            rw [Function.iterate_one, hadvance]
          · obtain ⟨k, hk, hrun⟩ :=
              ih ((Contracts.of_step hstep).named he) (steps + 1) (seen.insert e')
            refine ⟨k + 1, by omega, ?_⟩
            rw [Function.iterate_succ_apply, hadvance, ← Nat.add_assoc, Nat.add_right_comm]
            exact hrun.imp (fun h => ⟨h.1, .more hstep h.2⟩) id

/-- The loop that does not look out for repeated terms. -/
def plainFrom (steps : Nat) : (budget : Nat) → Term → Run
  | budget, e =>
      match checkedStep e with
      | .error flaw => ⟨e, steps, some (.flawed flaw)⟩
      | .ok none => ⟨e, steps, none⟩
      | .ok (some (_, e')) =>
          match budget with
          | 0 => ⟨e, steps, some .exhausted⟩
          | budget + 1 => plainFrom (steps + 1) budget e'

/-- Reduces a term with at most `limit` contractions, without looking out for repeated terms. -/
def plainRun (limit : Int) (e : Term) : Run :=
  plainFrom 0 limit.toNat e

theorem plainFrom_cases {e : Term} (he : e.Named) (steps budget : Nat) :
    (∃ k ≤ budget, ∃ n, Finishes k e n ∧ plainFrom steps budget e = ⟨n, steps + k, none⟩) ∨
      (∀ k ≤ budget, ∀ n, ¬ Finishes k e n) ∧
        (plainFrom steps budget e).stop = some .exhausted := by
  induction budget generalizing e steps with
  | zero =>
      unfold plainFrom
      rw [checkedStep_of_named he]
      cases hstep : step e with
      | none => exact .inl ⟨0, Nat.le_refl 0, e, .done hstep, rfl⟩
      | some next =>
          refine .inr ⟨?_, rfl⟩
          rintro k hk n (hnone | _)
          · rw [hstep] at hnone
            cases hnone
          · omega
  | succ budget ih =>
      unfold plainFrom
      rw [checkedStep_of_named he]
      cases hstep : step e with
      | none => exact .inl ⟨0, Nat.zero_le _, e, .done hstep, rfl⟩
      | some next =>
          obtain ⟨rule, e'⟩ := next
          rcases ih ((Contracts.of_step hstep).named he) (steps + 1) with
            ⟨k, hk, n, hfinishes, hrun⟩ | ⟨hnone, hstop⟩
          · refine .inl ⟨k + 1, by omega, n, .more hstep hfinishes, ?_⟩
            rw [← Nat.add_assoc, Nat.add_right_comm]
            exact hrun
          · refine .inr ⟨?_, hstop⟩
            rintro k hk n (hdone | ⟨hmore, hrest⟩)
            · rw [hstep] at hdone
              cases hdone
            · rw [hstep] at hmore
              cases hmore
              exact hnone _ (by omega) n hrest

/-- What a reduction comes to: a normal form, or the diagnostic of why there is none. -/
def Run.outcome (limit : Int) (r : Run) : Except (Option Report.Diagnostic) Term :=
  match r.stop with
  | none => .ok r.term
  | some stop => .error (Report.ofStop limit stop)

theorem le_toNat_iff {k : Nat} {limit : Int} : k ≤ limit.toNat ↔ (k : Int) ≤ max limit 0 := by
  omega

theorem run_cases {e : Term} (he : e.Named) (limit : Int) :
    (∃ k n, k ≤ limit.toNat ∧ Finishes k e n ∧ run limit e = ⟨n, k, none⟩) ∨
      (∀ k n, k ≤ limit.toNat → ¬ Finishes k e n) ∧
        ∃ k ≤ limit.toNat, run limit e = ⟨advance^[k] e, k, some .exhausted⟩ := by
  by_cases hends : ∃ k n, k ≤ limit.toNat ∧ Finishes k e n
  · obtain ⟨k, n, hk, hfinishes⟩ := hends
    exact .inl ⟨k, n, hk, hfinishes, hfinishes.run_within he hk⟩
  · simp only [not_exists, not_and] at hends
    obtain ⟨k, hk, ⟨-, hfinishes⟩ | hrun⟩ := runFrom_cases he 0 {e} limit.toNat
    · exact absurd hfinishes (hends k _ hk)
    · rw [Nat.zero_add] at hrun
      exact .inr ⟨hends, k, hk, hrun⟩

theorem finishes_iff {k : Nat} {e n : Term} (he : e.Named) : Finishes k e n ↔ EndsAfter k e n :=
  ⟨fun h => h.endsAfter he, fun h => h.finishes he⟩

theorem outcome_run {e : Term} (he : e.Named) (limit : Int) :
    (run limit e).outcome limit = (plainRun limit e).outcome limit := by
  rcases plainFrom_cases he 0 limit.toNat with ⟨k, hk, n, hfinishes, hplain⟩ | ⟨hnone, hstop⟩
  · rw [plainRun, hplain, hfinishes.run_within he hk, Nat.zero_add]
  · rcases run_cases he limit with ⟨k, n, hk, hfinishes, -⟩ | ⟨-, k, -, hrun⟩
    · exact absurd hfinishes (hnone k hk n)
    · simp only [Run.outcome, hrun, plainRun, hstop]

/-- Looking out for repeated terms never changes the answer: the outcome is that of the loop that
only counts. A normal form is returned exactly if it is the first iterate without a redex and is
reached within the limit; otherwise the report names the limit, and the term and the number of steps
are those of an iterate within the limit. -/
theorem repeat_check_transparent {e : Term} (he : e.Named) (limit : Int) :
    (run limit e).outcome limit = (plainRun limit e).outcome limit ∧
    (∀ n, (run limit e).outcome limit = .ok n ↔
      ∃ k : Nat, (k : Int) ≤ max limit 0 ∧ EndsAfter k e n) ∧
    (∀ (k : Nat) n, (k : Int) ≤ max limit 0 → EndsAfter k e n → run limit e = ⟨n, k, none⟩) ∧
    ((∀ (k : Nat) n, (k : Int) ≤ max limit 0 → ¬ EndsAfter k e n) →
      (run limit e).outcome limit = .error (some (.exhausted "reduction step" limit)) ∧
        ((run limit e).steps : Int) ≤ max limit 0 ∧
        (run limit e).term = advance^[(run limit e).steps] e ∧
        (run limit e).stop ≠ none) := by
  simp only [← le_toNat_iff, ← finishes_iff he]
  refine ⟨outcome_run he limit, ?_, fun k n hk h => h.run_within he hk, ?_⟩
  · intro n
    constructor
    · intro hok
      rcases run_cases he limit with ⟨k, m, hk, hfinishes, hrun⟩ | ⟨-, k, -, hrun⟩
      · rw [hrun] at hok
        cases hok
        exact ⟨k, hk, hfinishes⟩
      · rw [hrun] at hok
        cases hok
    · rintro ⟨k, hk, hfinishes⟩
      rw [hfinishes.run_within he hk]
      rfl
  · intro hnone
    rcases run_cases he limit with ⟨k, n, hk, hfinishes, -⟩ | ⟨-, k, hk, hrun⟩
    · exact absurd hfinishes (hnone k n hk)
    · rw [hrun]
      exact ⟨rfl, hk, rfl, by simp⟩

theorem named_loop : loop.Named :=
  .app (.lam _ _ (.app (.var _) (.var _))) (.lam _ _ (.app (.var _) (.var _)))

theorem step_loop : step loop = some (.beta, loop) := by
  simp [loop, step, Term.substitute_app, Term.substitute_var]

theorem run_loop : run 5 loop = ⟨loop, 1, some .exhausted⟩ := by
  simp [run, runFrom, checkedStep_of_named named_loop, step_loop]

theorem repeat_check_transparent_loop :
    loop.Named ∧ run 5 loop = ⟨loop, 1, some .exhausted⟩ ∧
      (run 5 loop).outcome 5 = (plainRun 5 loop).outcome 5 ∧
      (∀ (k : Nat) n, (k : Int) ≤ max 5 0 → ¬ EndsAfter k loop n) ∧
      (run 5 loop).outcome 5 = .error (some (.exhausted "reduction step" 5)) ∧
      (run 5 loop).term = advance^[(run 5 loop).steps] loop := by
  obtain ⟨houtcome, hok, -, hexhausted⟩ := repeat_check_transparent named_loop 5
  have hnone : ∀ (k : Nat) n, (k : Int) ≤ max 5 0 → ¬ EndsAfter k loop n := by
    intro k n hk hends
    have hreturned := (hok n).mpr ⟨k, hk, hends⟩
    rw [run_loop] at hreturned
    cases hreturned
  obtain ⟨hreport, -, hterm, -⟩ := hexhausted hnone
  exact ⟨named_loop, run_loop, houtcome, hnone, hreport, hterm⟩

section Alpha

variable {t u : Term} {ν : Numbering}

theorem step_of_tree_eq (ht : t.Named) (hu : u.Named) (h : t.tree ν = u.tree ν) :
    (step t).map Prod.fst = (step u).map Prod.fst ∧ (advance t).tree ν = (advance u).tree ν := by
  have hsteps := (map_tree_step ht ν).trans ((congrArg _ h).trans (map_tree_step hu ν).symm)
  cases ht' : step t with
  | none =>
      rw [ht', Option.map_none, eq_comm, Option.map_eq_none_iff] at hsteps
      rw [hsteps, advance_of_none ht', advance_of_none hsteps]
      exact ⟨rfl, h⟩
  | some next =>
      rw [ht', Option.map_some, eq_comm, Option.map_eq_some_iff] at hsteps
      obtain ⟨next', hu', heq⟩ := hsteps
      obtain ⟨hrule, htree⟩ := Prod.mk.inj heq
      rw [hu', advance_of_some ht', advance_of_some hu']
      exact ⟨congrArg some hrule.symm, htree.symm⟩

theorem iterate_of_tree_eq (ht : t.Named) (hu : u.Named) (h : t.tree ν = u.tree ν) (k : Nat) :
    (advance^[k] t).tree ν = (advance^[k] u).tree ν := by
  induction k with
  | zero => exact h
  | succ k ih =>
      rw [Function.iterate_succ_apply', Function.iterate_succ_apply']
      exact (step_of_tree_eq (named_iterate ht k) (named_iterate hu k) ih).2

theorem Finishes.of_tree_eq {k : Nat} {n : Term} (hfinishes : Finishes k t n) (ht : t.Named)
    (hu : u.Named) (h : t.tree ν = u.tree ν) : ∃ m, Finishes k u m ∧ n.tree ν = m.tree ν := by
  induction hfinishes generalizing u with
  | done hnone =>
      have hrules := (step_of_tree_eq ht hu h).1
      rw [hnone, Option.map_none, eq_comm, Option.map_eq_none_iff] at hrules
      exact ⟨u, .done hrules, h⟩
  | more hstep _ ih =>
      obtain ⟨hrules, htree⟩ := step_of_tree_eq ht hu h
      rw [hstep, Option.map_some, eq_comm, Option.map_eq_some_iff] at hrules
      obtain ⟨⟨rule, u'⟩, hstep', -⟩ := hrules
      rw [advance_of_some hstep, advance_of_some hstep'] at htree
      obtain ⟨m, hm, hn⟩ := ih ((Contracts.of_step hstep).named ht)
        ((Contracts.of_step hstep').named hu) htree
      exact ⟨m, .more hstep' hm, hn⟩

/-- Normalization respects equality up to bound names: under every limit both terms are reduced to
normal forms that are equal up to bound names, or both exhaust the limit. At every iterate the same
rule applies to both, or none, and the iterates are equal up to bound names. -/
theorem normalization_respects_alpha (ht : t.Named) (hu : u.Named) (h : t.alphaEqual u = true) :
    (∀ limit : Int,
      (∃ n m, (run limit t).outcome limit = .ok n ∧ (run limit u).outcome limit = .ok m ∧
        n.alphaEqual m = true) ∨
      (run limit t).outcome limit = .error (some (.exhausted "reduction step" limit)) ∧
        (run limit u).outcome limit = .error (some (.exhausted "reduction step" limit))) ∧
    ∀ k, (step (advance^[k] t)).map Prod.fst = (step (advance^[k] u)).map Prod.fst ∧
      (advance^[k] t).alphaEqual (advance^[k] u) = true := by
  obtain ⟨ν, hν⟩ := Term.exists_injective_numbering
  have hiff : ∀ {e e' : Term}, e.Named → e'.Named →
      (e.alphaEqual e' = true ↔ e.tree ν = e'.tree ν) :=
    fun he he' => Term.alphaEqual_iff he he' fun l _ r _ heq => hν heq
  have htree : t.tree ν = u.tree ν := (hiff ht hu).mp h
  constructor
  · intro limit
    rcases run_cases ht limit with ⟨k, n, hk, hfinishes, hrun⟩ | ⟨hnone, k, -, hrun⟩
    · obtain ⟨m, hfinishes', hm⟩ := hfinishes.of_tree_eq ht hu htree
      refine .inl ⟨n, m, by rw [hrun]; rfl, by rw [hfinishes'.run_within hu hk]; rfl, ?_⟩
      exact (hiff (hfinishes.leads.named ht) (hfinishes'.leads.named hu)).mpr hm
    · rcases run_cases hu limit with ⟨j, m, hj, hfinishes, -⟩ | ⟨-, j, -, hrun'⟩
      · obtain ⟨n, hfinishes', -⟩ := hfinishes.of_tree_eq hu ht htree.symm
        exact absurd hfinishes' (hnone j n hj)
      · exact .inr ⟨by rw [hrun]; rfl, by rw [hrun']; rfl⟩
  · intro k
    have hk := iterate_of_tree_eq ht hu htree k
    exact ⟨(step_of_tree_eq (named_iterate ht k) (named_iterate hu k) hk).1,
      (hiff (named_iterate ht k) (named_iterate hu k)).mpr hk⟩

end Alpha

/-- A term that goes on forever, of which the first half spells its variable in another way. -/
def respelled : Term :=
  .app (.lam (some "y") none (.app (.var (some "y")) (.var (some "y"))))
    (.lam (some "x") none (.app (.var (some "x")) (.var (some "x"))))

theorem normalization_respects_alpha_respelled :
    loop.Named ∧ respelled.Named ∧ loop.alphaEqual respelled = true ∧
      run 5 loop = ⟨loop, 1, some .exhausted⟩ ∧ run 5 respelled = ⟨loop, 2, some .exhausted⟩ ∧
      (run 5 respelled).outcome 5 = .error (some (.exhausted "reduction step" 5)) ∧
      (advance^[3] loop).alphaEqual (advance^[3] respelled) = true := by
  have hnamed : respelled.Named :=
    .app (.lam _ _ (.app (.var _) (.var _))) (.lam _ _ (.app (.var _) (.var _)))
  have halpha : loop.alphaEqual respelled = true := by decide
  have hstep : step respelled = some (.beta, loop) := by
    simp [loop, respelled, step, Term.substitute_app, Term.substitute_var]
  have hne : respelled ≠ loop := by decide
  have hrun : run 5 respelled = ⟨loop, 2, some .exhausted⟩ := by
    simp [run, runFrom, checkedStep_of_named named_loop, checkedStep_of_named hnamed, step_loop,
      hstep, hne]
  obtain ⟨houtcome, hiterates⟩ := normalization_respects_alpha named_loop hnamed halpha
  refine ⟨named_loop, hnamed, halpha, run_loop, hrun, ?_, (hiterates 3).2⟩
  rcases houtcome 5 with ⟨n, m, hn, -⟩ | ⟨-, hexhausted⟩
  · rw [run_loop] at hn
    cases hn
  · exact hexhausted

end LambdaMachine.Reduction
