import LambdaMachine.Proofs.Ty.Variables
import LambdaMachine.Ty.Substitution
import Mathlib.Data.Finset.Card
import Mathlib.Data.Finset.Dedup
import Mathlib.Logic.Relation

namespace LambdaMachine.Ty.Substitution

open Relation (TransGen ReflTransGen)

variable {s : Substitution}

/-- The second variable occurs in the type that the first one is bound to. -/
def Leads (s : Substitution) (i j : Int) : Prop :=
  ∃ t, s.find? i = some t ∧ j ∈ t.vars

/-- No variable reaches itself through bindings. -/
def Acyclic (s : Substitution) : Prop :=
  ∀ i, ¬ TransGen s.Leads i i

/-- Every binding is an equation between types under the assignment. -/
def Solves (h : Int → Ty) (s : Substitution) : Prop :=
  ∀ i t, s.find? i = some t → h i = t.mapVars h

theorem acyclic_empty : ({} : Substitution).Acyclic := by
  intro i h
  obtain ⟨j, ⟨t, ht, -⟩, -⟩ := TransGen.head'_iff.mp h
  cases ht

theorem mem_bindings_of_find? {i : Int} {t : Ty} (h : s.find? i = some t) :
    (i, t) ∈ s.bindings := by
  obtain ⟨l₁, l₂, hl, -⟩ := List.lookup_eq_some_iff.mp h
  simp [hl]

theorem mem_ids_of_find? {i : Int} {t : Ty} (h : s.find? i = some t) : i ∈ s.ids :=
  List.mem_map_of_mem (mem_bindings_of_find? h)

open Classical in
/-- The bound variables that a variable reaches. -/
noncomputable def reach (s : Substitution) (i : Int) : Finset Int :=
  s.ids.toFinset.filter (ReflTransGen s.Leads i)

/-- The number of bound variables that a variable reaches. -/
noncomputable def rank (s : Substitution) (i : Int) : Nat :=
  (s.reach i).card

theorem mem_reach {i j : Int} : j ∈ s.reach i ↔ j ∈ s.ids ∧ ReflTransGen s.Leads i j := by
  simp [reach]

theorem rank_le_size (s : Substitution) (i : Int) : s.rank i ≤ s.size := by
  calc s.rank i ≤ s.ids.toFinset.card :=
        Finset.card_le_card fun j hj => List.mem_toFinset.mpr (mem_reach.mp hj).1
    _ ≤ s.ids.length := s.ids.toFinset_card_le
    _ = s.size := by simp [ids, size]

theorem rank_pos_of_find? {i : Int} {t : Ty} (h : s.find? i = some t) : 0 < s.rank i :=
  Finset.card_pos.mpr ⟨i, mem_reach.mpr ⟨mem_ids_of_find? h, .refl⟩⟩

theorem find?_eq_none_of_rank {i : Int} (h : s.rank i ≤ 0) : s.find? i = none := by
  by_contra hbound
  obtain ⟨t, ht⟩ := Option.ne_none_iff_exists'.mp hbound
  exact absurd (rank_pos_of_find? ht) (not_lt.mpr h)

theorem Acyclic.rank_lt (hs : s.Acyclic) {i j : Int} (h : s.Leads i j) : s.rank j < s.rank i := by
  obtain ⟨t, ht, -⟩ := id h
  refine Finset.card_lt_card ⟨?_, ?_⟩
  · intro k hk
    obtain ⟨hbound, hreach⟩ := mem_reach.mp hk
    exact mem_reach.mpr ⟨hbound, hreach.head h⟩
  · intro hsub
    have hi : i ∈ s.reach i := mem_reach.mpr ⟨mem_ids_of_find? ht, .refl⟩
    exact hs i (TransGen.head' h (mem_reach.mp (hsub hi)).2)

section Following

variable {t u : Ty} {i : Int} {n : Nat}

theorem Acyclic.rank_le_of_mem_vars (hs : s.Acyclic) (hi : s.find? i = some u)
    (hn : s.rank i ≤ n + 1) : ∀ j ∈ u.vars, s.rank j ≤ n := by
  intro j hj
  have := hs.rank_lt ⟨u, hi, hj⟩
  omega

theorem applyWithin_succ (s : Substitution) (n : Nat) (t : Ty) :
    s.applyWithin (n + 1) t = t.mapVars fun i =>
      match s.find? i with
      | some u => s.applyWithin n u
      | none => .var i := rfl

theorem Acyclic.applyWithin_stable (hs : s.Acyclic) (hn : ∀ i ∈ t.vars, s.rank i ≤ n) :
    s.applyWithin (n + 1) t = s.applyWithin n t := by
  induction n generalizing t with
  | zero =>
      rw [applyWithin_succ, applyWithin]
      conv_rhs => rw [← mapVars_var t]
      apply mapVars_congr
      intro i hi
      rw [find?_eq_none_of_rank (hn i hi)]
  | succ n ih =>
      rw [applyWithin_succ, applyWithin_succ]
      apply mapVars_congr
      intro i hi
      cases hfound : s.find? i with
      | none => rfl
      | some u => exact ih (hs.rank_le_of_mem_vars hfound (hn i hi))

/-- What a variable stands for once all bindings are followed. -/
def solution (s : Substitution) (i : Int) : Ty :=
  s.apply (.var i)

theorem Acyclic.apply_eq (hs : s.Acyclic) (t : Ty) :
    s.apply t = t.mapVars fun i =>
      match s.find? i with
      | some u => s.apply u
      | none => .var i := by
  rw [apply, ← hs.applyWithin_stable fun i _ => s.rank_le_size i, applyWithin_succ]
  rfl

theorem Acyclic.solution_of_some (hs : s.Acyclic) (h : s.find? i = some u) :
    s.solution i = s.apply u := by
  rw [solution, hs.apply_eq]
  simp only [mapVars, h]

theorem Acyclic.solution_of_none (hs : s.Acyclic) (h : s.find? i = none) :
    s.solution i = .var i := by
  rw [solution, hs.apply_eq]
  simp only [mapVars, h]

theorem Acyclic.apply_eq_mapVars (hs : s.Acyclic) (t : Ty) : s.apply t = t.mapVars s.solution := by
  rw [hs.apply_eq]
  apply mapVars_congr
  intro i _
  cases hfound : s.find? i with
  | none => exact (hs.solution_of_none hfound).symm
  | some u => exact (hs.solution_of_some hfound).symm

theorem Acyclic.solves_solution (hs : s.Acyclic) : Solves s.solution s := by
  intro i t hi
  rw [hs.solution_of_some hi, hs.apply_eq_mapVars]

theorem Solves.comp {h : Int → Ty} (hh : Solves h s) (g : Int → Ty) :
    Solves (fun i => (h i).mapVars g) s := by
  intro i t hi
  rw [← mapVars_mapVars, ← hh i t hi]

theorem Solves.mapVars_applyWithin {h : Int → Ty} (hh : Solves h s) (n : Nat) (t : Ty) :
    (s.applyWithin n t).mapVars h = t.mapVars h := by
  induction n generalizing t with
  | zero => rfl
  | succ n ih =>
      rw [applyWithin_succ, mapVars_mapVars]
      apply mapVars_congr
      intro i _
      cases hfound : s.find? i with
      | none => rfl
      | some u => exact (ih u).trans (hh i u hfound).symm

theorem Solves.mapVars_apply {h : Int → Ty} (hh : Solves h s) (t : Ty) :
    (s.apply t).mapVars h = t.mapVars h :=
  hh.mapVars_applyWithin _ t

theorem Solves.mapVars_resolveWithin {h : Int → Ty} (hh : Solves h s) (n : Nat) (t : Ty) :
    (s.resolveWithin n t).mapVars h = t.mapVars h := by
  fun_induction resolveWithin s n t with
  | case1 n i u hfound ih => exact ih.trans (hh i u hfound).symm
  | case2 => rfl
  | case3 => rfl

theorem Solves.mapVars_resolve {h : Int → Ty} (hh : Solves h s) (t : Ty) :
    (s.resolve t).mapVars h = t.mapVars h :=
  hh.mapVars_resolveWithin _ t

theorem Acyclic.unbound_of_resolveWithin (hs : s.Acyclic) (hn : ∀ j ∈ t.vars, s.rank j ≤ n)
    (h : s.resolveWithin n t = .var i) : s.find? i = none := by
  fun_induction resolveWithin s n t with
  | case1 n j u hfound ih => exact ih (hs.rank_le_of_mem_vars hfound (hn j (by simp [vars]))) h
  | case2 n j hfound =>
      cases h
      exact hfound
  | case3 n t hvar =>
      subst h
      cases n with
      | succ n => exact (hvar n i rfl rfl).elim
      | zero => exact find?_eq_none_of_rank (hn i (by simp [vars]))

theorem Acyclic.unbound_of_resolve (hs : s.Acyclic) (h : s.resolve t = .var i) :
    s.find? i = none :=
  hs.unbound_of_resolveWithin (fun j _ => s.rank_le_size j) h

theorem occursWithin_eq (s : Substitution) (i : Int) (n : Nat) (t : Ty) :
    s.occursWithin i n t = true ↔ i ∈ (s.applyWithin n t).vars := by
  induction n generalizing t with
  | zero => simp [occursWithin, applyWithin, anyVar_iff]
  | succ n ih =>
      rw [occursWithin, applyWithin_succ, anyVar_iff, mem_vars_mapVars]
      refine exists_congr fun j => and_congr_right fun _ => ?_
      cases s.find? j with
      | none =>
          simp only [vars, List.mem_singleton, beq_iff_eq]
          exact eq_comm
      | some u => exact ih u

theorem occurs_iff : s.occurs i t = true ↔ i ∈ (s.apply t).vars :=
  occursWithin_eq s i s.size t

theorem Acyclic.mem_vars_apply (hs : s.Acyclic) {j : Int} (hj : j ∈ t.vars)
    (hreach : ReflTransGen s.Leads j i) (hi : s.find? i = none) : i ∈ (s.apply t).vars := by
  rw [hs.apply_eq_mapVars, mem_vars_mapVars]
  refine ⟨j, hj, ?_⟩
  clear hj
  induction hreach using ReflTransGen.head_induction_on with
  | refl =>
      rw [hs.solution_of_none hi]
      simp [vars]
  | head hlead _ ih =>
      obtain ⟨u, hu, hmem⟩ := hlead
      rw [hs.solution_of_some hu, hs.apply_eq_mapVars, mem_vars_mapVars]
      exact ⟨_, hmem, ih⟩

end Following

section Inserting

variable {i j : Int} {t : Ty}

theorem lookup_insertInto_self (i : Int) (t : Ty) (l : List (Int × Ty)) :
    (insertInto i t l).lookup i = some t := by
  induction l with
  | nil => simp [insertInto]
  | cons b l ih =>
      obtain ⟨j, u⟩ := b
      by_cases h : j = i
      · simp [insertInto, h]
      · rw [insertInto, if_neg h, List.lookup_cons, beq_false_of_ne (Ne.symm h)]
        exact ih

theorem lookup_insertInto_of_ne (h : j ≠ i) (t : Ty) (l : List (Int × Ty)) :
    (insertInto i t l).lookup j = l.lookup j := by
  induction l with
  | nil => simp [insertInto, h]
  | cons b l ih =>
      obtain ⟨k, u⟩ := b
      by_cases hk : k = i
      · subst hk
        simp [insertInto, List.lookup_cons, beq_false_of_ne h]
      · rw [insertInto, if_neg hk, List.lookup_cons, List.lookup_cons, ih]

@[simp] theorem find?_insert_self (s : Substitution) (i : Int) (t : Ty) :
    (s.insert i t).find? i = some t :=
  lookup_insertInto_self i t s.bindings

theorem find?_insert_of_ne (s : Substitution) (h : j ≠ i) (t : Ty) :
    (s.insert i t).find? j = s.find? j :=
  lookup_insertInto_of_ne h t s.bindings

/-- The bindings of the first substitution are among those of the second. -/
def Extends (s s' : Substitution) : Prop :=
  ∀ i t, s.find? i = some t → s'.find? i = some t

theorem Extends.refl (s : Substitution) : s.Extends s :=
  fun _ _ h => h

theorem Extends.trans {s' s'' : Substitution} (h : s.Extends s') (h' : s'.Extends s'') :
    s.Extends s'' :=
  fun i t ht => h' i t (h i t ht)

theorem extends_insert (hi : s.find? i = none) (t : Ty) : s.Extends (s.insert i t) := by
  intro j u hj
  have hne : j ≠ i := by
    rintro rfl
    rw [hi] at hj
    cases hj
  rw [find?_insert_of_ne s hne]
  exact hj

theorem leads_insert {a b : Int} (h : (s.insert i t).Leads a b) :
    s.Leads a b ∨ a = i ∧ b ∈ t.vars := by
  obtain ⟨u, hu, hb⟩ := h
  by_cases ha : a = i
  · subst ha
    rw [find?_insert_self] at hu
    cases hu
    exact .inr ⟨rfl, hb⟩
  · rw [find?_insert_of_ne s ha] at hu
    exact .inl ⟨u, hu, hb⟩

theorem reaches_of_insert {a : Int} (h : ReflTransGen (s.insert i t).Leads a i) :
    ReflTransGen s.Leads a i := by
  -- the new edge starts at `i`, so a path that ends where it first meets `i` does not use it
  induction h using ReflTransGen.head_induction_on with
  | refl => exact .refl
  | head hlead _ ih =>
      rcases leads_insert hlead with hold | ⟨rfl, -⟩
      · exact ih.head hold
      · exact .refl

theorem transGen_of_insert {a b : Int} (h : TransGen (s.insert i t).Leads a b) :
    TransGen s.Leads a b ∨
      ReflTransGen s.Leads a i ∧ ∃ c ∈ t.vars, ReflTransGen (s.insert i t).Leads c b := by
  induction h using TransGen.head_induction_on with
  | single hlead =>
      rcases leads_insert hlead with hold | ⟨rfl, hb⟩
      · exact .inl (.single hold)
      · exact .inr ⟨.refl, _, hb, .refl⟩
  | head hlead hrest ih =>
      rcases leads_insert hlead with hold | ⟨rfl, hc⟩
      · rcases ih with ih | ⟨hreach, hlast⟩
        · exact .inl (ih.head hold)
        · exact .inr ⟨hreach.head hold, hlast⟩
      · exact .inr ⟨.refl, _, hc, hrest.to_reflTransGen⟩

theorem reaches_insert {a : Int} (h : ReflTransGen s.Leads a i) (t : Ty) :
    ReflTransGen (s.insert i t).Leads a i := by
  induction h using ReflTransGen.head_induction_on with
  | refl => exact .refl
  | @head a b hlead _ ih =>
      by_cases ha : a = i
      · rw [ha]
      · obtain ⟨u, hu, hb⟩ := hlead
        exact ih.head ⟨u, (find?_insert_of_ne s ha t).trans hu, hb⟩

/-- A new binding closes a circle exactly if its type reaches the variable. -/
theorem Acyclic.insert_iff (hs : s.Acyclic) :
    (s.insert i t).Acyclic ↔ ¬ ∃ j ∈ t.vars, ReflTransGen s.Leads j i := by
  constructor
  · rintro hacyclic ⟨j, hj, hreach⟩
    have hlead : (s.insert i t).Leads i j := ⟨t, find?_insert_self s i t, hj⟩
    exact hacyclic i (TransGen.head' hlead (reaches_insert hreach t))
  · intro hclear a hcircle
    -- a circle that is not an old one passes the new binding, and from there comes back to `i`
    rcases transGen_of_insert hcircle with hold | ⟨hreach, c, hc, hback⟩
    · exact hs a hold
    · exact hclear ⟨c, hc, reaches_of_insert (hback.trans (reaches_insert hreach t))⟩

theorem Acyclic.insert (hs : s.Acyclic) (hi : s.find? i = none) (hoccurs : s.occurs i t = false) :
    (s.insert i t).Acyclic := by
  refine hs.insert_iff.mpr ?_
  rintro ⟨j, hj, hreach⟩
  rw [Bool.eq_false_iff] at hoccurs
  exact hoccurs (occurs_iff.mpr (hs.mem_vars_apply hj hreach hi))

theorem Solves.of_extends {h : Int → Ty} {s' : Substitution} (hh : Solves h s')
    (hext : s.Extends s') : Solves h s :=
  fun i t hi => hh i t (hext i t hi)

theorem solves_insert_iff {h : Int → Ty} (hi : s.find? i = none) :
    Solves h (s.insert i t) ↔ Solves h s ∧ h i = t.mapVars h := by
  constructor
  · intro hh
    exact ⟨hh.of_extends (extends_insert hi t), hh i t (find?_insert_self s i t)⟩
  · rintro ⟨hh, heq⟩ j u hj
    by_cases hne : j = i
    · subst hne
      rw [find?_insert_self] at hj
      cases hj
      exact heq
    · rw [find?_insert_of_ne s hne] at hj
      exact hh j u hj

end Inserting

end LambdaMachine.Ty.Substitution
