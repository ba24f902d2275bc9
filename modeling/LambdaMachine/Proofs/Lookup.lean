import Mathlib.Data.List.Perm.Basic

namespace LambdaMachine

variable {α β : Type} [BEq α] [LawfulBEq α] {l l' : List (α × β)} {a : α} {b : β}

theorem mem_of_lookup (h : l.lookup a = some b) : (a, b) ∈ l := by
  obtain ⟨l₁, l₂, hl, -⟩ := List.lookup_eq_some_iff.mp h
  simp [hl]

theorem lookup_cons_pair [DecidableEq α] (k : α) (v : β) (l : List (α × β)) (a : α) :
    ((k, v) :: l).lookup a = if k = a then some v else l.lookup a := by
  rw [List.lookup_cons]
  by_cases h : k = a
  · rw [if_pos h, beq_iff_eq.mpr h.symm]
  · rw [if_neg h, beq_eq_false_iff_ne.mpr (Ne.symm h)]

theorem lookup_eq_some_iff_mem (h : (l.map Prod.fst).Nodup) : l.lookup a = some b ↔ (a, b) ∈ l := by
  refine ⟨mem_of_lookup, ?_⟩
  induction l with
  | nil => simp
  | cons p l ih =>
      obtain ⟨k, v⟩ := p
      obtain ⟨hk, hl⟩ := List.nodup_cons.mp h
      intro hmem
      rcases List.mem_cons.mp hmem with hhead | htail
      · cases hhead
        exact List.lookup_cons_self
      · have hne : a ≠ k := by
          rintro rfl
          exact hk (List.mem_map.mpr ⟨_, htail, rfl⟩)
        rw [List.lookup_cons, beq_false_of_ne hne]
        exact ih hl htail

theorem lookup_of_perm (h : (l.map Prod.fst).Nodup) (hperm : l'.Perm l) (a : α) :
    l'.lookup a = l.lookup a := by
  have h' : (l'.map Prod.fst).Nodup := (hperm.map Prod.fst).nodup_iff.mpr h
  ext b
  rw [lookup_eq_some_iff_mem h, lookup_eq_some_iff_mem h', hperm.mem_iff]

end LambdaMachine
