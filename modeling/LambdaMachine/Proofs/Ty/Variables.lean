import LambdaMachine.Ty.Basic
import Mathlib.Order.Basic

namespace LambdaMachine.Ty

/-- The variables of a type, in the order of their occurrences. -/
def vars : Ty → List Int
  | .var id => [id]
  | .arrow domain codomain => domain.vars ++ codomain.vars
  | _ => []

/-- A type that is built from constants, arrows and variables that satisfy `p`. -/
def Over (p : Int → Prop) : Ty → Prop
  | .var id => p id
  | .const _ => True
  | .arrow domain codomain => domain.Over p ∧ codomain.Over p
  | .absent | .foreign _ => False

/-- A type without absent or foreign parts. -/
abbrev Proper : Ty → Prop :=
  Over fun _ => True

/-- A type without variables. -/
abbrev Ground : Ty → Prop :=
  Over fun _ => False

/-- A type whose variables are below `n`. -/
abbrev Below (n : Int) : Ty → Prop :=
  Over (· < n)

theorem Over.mono {p q : Int → Prop} {t : Ty} (h : t.Over p) (hpq : ∀ i, p i → q i) : t.Over q := by
  induction t with
  | var id => exact hpq id h
  | const name => trivial
  | arrow domain codomain ihd ihc => exact ⟨ihd h.1, ihc h.2⟩
  | absent => exact h.elim
  | foreign text => exact h.elim

theorem Over.of_mem_vars {p : Int → Prop} {t : Ty} (h : t.Over p) {i : Int} (hi : i ∈ t.vars) :
    p i := by
  induction t with
  | var id =>
      obtain rfl : i = id := by simpa [vars] using hi
      exact h
  | arrow domain codomain ihd ihc =>
      rcases List.mem_append.mp hi with hi | hi
      · exact ihd h.1 hi
      · exact ihc h.2 hi
  | const name => cases hi
  | absent => cases hi
  | foreign text => cases hi

theorem Ground.over {t : Ty} (h : t.Ground) (p : Int → Prop) : t.Over p :=
  h.mono fun _ => False.elim

theorem Below.mono {m n : Int} {t : Ty} (h : t.Below m) (hle : m ≤ n) : t.Below n :=
  Over.mono h fun _ hi => Int.lt_of_lt_of_le hi hle

theorem Below.proper {n : Int} {t : Ty} (h : t.Below n) : t.Proper :=
  Over.mono h fun _ _ => trivial

theorem Over.mapVars {p q : Int → Prop} {f : Int → Ty} {t : Ty} (h : t.Over p)
    (hf : ∀ i, p i → (f i).Over q) : (t.mapVars f).Over q := by
  induction t with
  | var id => exact hf id h
  | const name => trivial
  | arrow domain codomain ihd ihc => exact ⟨ihd h.1, ihc h.2⟩
  | absent => exact h.elim
  | foreign text => exact h.elim

theorem mapVars_congr {f g : Int → Ty} {t : Ty} (h : ∀ i ∈ t.vars, f i = g i) :
    t.mapVars f = t.mapVars g := by
  induction t with
  | var id => exact h id (by simp [vars])
  | arrow domain codomain ihd ihc =>
      rw [mapVars, mapVars, ihd fun i hi => h i (by simp [vars, hi]),
        ihc fun i hi => h i (by simp [vars, hi])]
  | const name => rfl
  | absent => rfl
  | foreign text => rfl

theorem Over.mapVars_congr {p : Int → Prop} {f g : Int → Ty} {t : Ty} (h : t.Over p)
    (hfg : ∀ i, p i → f i = g i) : t.mapVars f = t.mapVars g :=
  Ty.mapVars_congr fun i hi => hfg i (h.of_mem_vars hi)

@[simp] theorem mapVars_var (t : Ty) : t.mapVars .var = t := by
  induction t with
  | arrow domain codomain ihd ihc => rw [mapVars, ihd, ihc]
  | var id => rfl
  | const name => rfl
  | absent => rfl
  | foreign text => rfl

theorem Ground.mapVars {t : Ty} (h : t.Ground) (f : Int → Ty) : t.mapVars f = t := by
  rw [Over.mapVars_congr h (fun _ => False.elim : ∀ i, False → f i = .var i), mapVars_var]

theorem mapVars_mapVars (f g : Int → Ty) (t : Ty) :
    (t.mapVars f).mapVars g = t.mapVars fun i => (f i).mapVars g := by
  induction t with
  | arrow domain codomain ihd ihc => simp only [Ty.mapVars, ihd, ihc]
  | var id => rfl
  | const name => rfl
  | absent => rfl
  | foreign text => rfl

theorem mem_vars_mapVars {f : Int → Ty} {t : Ty} {j : Int} :
    j ∈ (t.mapVars f).vars ↔ ∃ i ∈ t.vars, j ∈ (f i).vars := by
  induction t with
  | arrow domain codomain ihd ihc =>
      simp only [Ty.mapVars, vars, List.mem_append, ihd, ihc, or_and_right, exists_or]
  | var id => simp [Ty.mapVars, vars]
  | const name => simp [Ty.mapVars, vars]
  | absent => simp [Ty.mapVars, vars]
  | foreign text => simp [Ty.mapVars, vars]

theorem anyVar_iff {p : Int → Bool} {t : Ty} : t.anyVar p = true ↔ ∃ i ∈ t.vars, p i = true := by
  induction t with
  | arrow domain codomain ihd ihc =>
      simp only [anyVar, vars, Bool.or_eq_true, ihd, ihc, List.mem_append, or_and_right, exists_or]
  | var id => simp [anyVar, vars]
  | const name => simp [anyVar, vars]
  | absent => simp [anyVar, vars]
  | foreign text => simp [anyVar, vars]

theorem size_lt_of_mem_vars {f : Int → Ty} {t : Ty} {i : Int} (hi : i ∈ t.vars)
    (hne : t ≠ .var i) : (f i).size < (t.mapVars f).size := by
  induction t with
  | var id =>
      obtain rfl : i = id := by simpa [vars] using hi
      exact absurd rfl hne
  | arrow domain codomain ihd ihc =>
      have hle : ∀ u : Ty, ((u ≠ .var i) → (f i).size < (u.mapVars f).size) →
          (f i).size ≤ (u.mapVars f).size := by
        intro u hu
        by_cases h : u = .var i
        · rw [h]
          exact Nat.le_refl _
        · exact Nat.le_of_lt (hu h)
      rw [Ty.mapVars, size]
      rcases List.mem_append.mp hi with hi | hi
      · have := hle domain (ihd hi)
        omega
      · have := hle codomain (ihc hi)
        omega
  | const name => cases hi
  | absent => cases hi
  | foreign text => cases hi

end LambdaMachine.Ty
