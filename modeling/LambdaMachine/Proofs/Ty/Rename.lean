import LambdaMachine.Proofs.Ty.Unify
import LambdaMachine.Ty.Renaming

namespace LambdaMachine.Ty

variable {ρ : Int → Int} {t : Ty}

def rename (ρ : Int → Int) (t : Ty) : Ty :=
  t.mapVars fun i => .var (ρ i)

@[simp] theorem rename_var (ρ : Int → Int) (i : Int) : (Ty.var i).rename ρ = .var (ρ i) := rfl

@[simp] theorem rename_const (ρ : Int → Int) (name : String) :
    (Ty.const name).rename ρ = .const name := rfl

@[simp] theorem rename_arrow (ρ : Int → Int) (a b : Ty) :
    (Ty.arrow a b).rename ρ = .arrow (a.rename ρ) (b.rename ρ) := rfl

@[simp] theorem rename_absent (ρ : Int → Int) : Ty.absent.rename ρ = .absent := rfl

@[simp] theorem rename_foreign (ρ : Int → Int) (text : String) :
    (Ty.foreign text).rename ρ = .foreign text := rfl

theorem rename_id (t : Ty) : t.rename id = t :=
  mapVars_var t

theorem mapVars_rename (ρ : Int → Int) (f : Int → Ty) (t : Ty) :
    (t.rename ρ).mapVars f = t.mapVars fun i => f (ρ i) :=
  mapVars_mapVars _ f t

theorem rename_mapVars (ρ : Int → Int) (f : Int → Ty) (t : Ty) :
    (t.mapVars f).rename ρ = t.mapVars fun i => (f i).rename ρ :=
  mapVars_mapVars f _ t

theorem Ground.rename (h : t.Ground) (ρ : Int → Int) : t.rename ρ = t :=
  Ground.mapVars h _

theorem mem_vars_rename (hρ : Function.Injective ρ) {i : Int} :
    ρ i ∈ (t.rename ρ).vars ↔ i ∈ t.vars := by
  rw [rename, mem_vars_mapVars]
  constructor
  · rintro ⟨j, hj, hmem⟩
    obtain rfl : i = j := hρ (by simpa [vars] using hmem)
    exact hj
  · intro hi
    exact ⟨i, hi, by simp [vars]⟩

theorem size_rename (ρ : Int → Int) (t : Ty) : (t.rename ρ).size = t.size := by
  induction t with
  | arrow a b iha ihb => rw [rename_arrow, size, size, iha, ihb]
  | var i => rfl
  | const name => rfl
  | absent => rfl
  | foreign text => rfl

theorem isConstructed_rename (ρ : Int → Int) (t : Ty) :
    (t.rename ρ).isConstructed = t.isConstructed := by
  cases t <;> rfl

section Equivalence

/-- A finite renaming that goes along with `ρ`. -/
def Renaming.Along (ρ : Int → Int) (r : Renaming) : Prop :=
  ∀ p ∈ r, p.2 = ρ p.1

variable {r : Renaming}

theorem Renaming.mem_of_target? {i j : Int} (h : r.target? i = some j) : (i, j) ∈ r := by
  obtain ⟨l₁, l₂, rfl, -⟩ := List.lookup_eq_some_iff.mp h
  simp

theorem Renaming.mem_of_source? {i j : Int} (h : r.source? j = some i) : (i, j) ∈ r := by
  obtain ⟨l₁, l₂, hl, -⟩ := List.lookup_eq_some_iff.mp h
  have hmem : Prod.swap (i, j) ∈ r.map Prod.swap := by simp [hl]
  exact (List.mem_map_of_injective Prod.swap_injective).mp hmem

theorem Renaming.isSome_of_mem {i j : Int} (h : (i, j) ∈ r) :
    (r.target? i).isSome = true ∧ (r.source? j).isSome = true := by
  have hswap : (j, i) ∈ r.map Prod.swap := List.mem_map_of_mem h
  simp only [target?, source?, Option.isSome_iff_ne_none, ne_eq, List.lookup_eq_none_iff,
    not_forall]
  exact ⟨⟨_, h, by simp⟩, ⟨_, hswap, by simp⟩⟩

theorem Renaming.Along.extend? (hρ : Function.Injective ρ) (h : r.Along ρ) (i : Int) :
    ∃ r', r.extend? i (ρ i) = some r' ∧ r'.Along ρ := by
  unfold Renaming.extend?
  cases htarget : r.target? i with
  | none =>
      cases hsource : r.source? (ρ i) with
      | none =>
          refine ⟨_, rfl, ?_⟩
          intro p hp
          rcases List.mem_cons.mp hp with rfl | hp
          · rfl
          · exact h p hp
      | some k =>
          have hmem := mem_of_source? hsource
          obtain rfl : i = k := hρ (h _ hmem)
          have hsome := (isSome_of_mem hmem).1
          rw [htarget] at hsome
          cases hsome
  | some j =>
      have hmem := mem_of_target? htarget
      obtain rfl : j = ρ i := h _ hmem
      obtain ⟨k, hk⟩ := Option.isSome_iff_exists.mp (isSome_of_mem hmem).2
      obtain rfl : i = k := hρ (h _ (mem_of_source? hk))
      exact ⟨r, by simp [hk], h⟩

theorem Renaming.Along.rename? (hρ : Function.Injective ρ) (h : r.Along ρ) (ht : t.Proper) :
    ∃ r', Ty.rename? t (t.rename ρ) r = some r' ∧ r'.Along ρ := by
  induction t generalizing r with
  | var i => exact h.extend? hρ i
  | const name => exact ⟨r, by simp [Ty.rename?], h⟩
  | arrow a b iha ihb =>
      obtain ⟨r₁, hr₁, h₁⟩ := iha h ht.1
      obtain ⟨r₂, hr₂, h₂⟩ := ihb h₁ ht.2
      refine ⟨r₂, ?_, h₂⟩
      rw [rename_arrow, Ty.rename?, hr₁]
      exact hr₂
  | absent => exact ht.elim
  | foreign text => exact ht.elim

theorem equivalent_rename (hρ : Function.Injective ρ) (ht : t.Proper) :
    equivalent t (t.rename ρ) = true := by
  have hempty : Renaming.Along ρ [] := by simp [Renaming.Along]
  obtain ⟨r, hr, -⟩ := hempty.rename? hρ ht
  rw [equivalent, hr]
  rfl

end Equivalence

namespace Substitution

def rename (ρ : Int → Int) (s : Substitution) : Substitution :=
  ⟨s.bindings.map fun b => (ρ b.1, b.2.rename ρ)⟩

variable {s : Substitution}

theorem find?_rename (hρ : Function.Injective ρ) (s : Substitution) (i : Int) :
    (s.rename ρ).find? (ρ i) = (s.find? i).map (Ty.rename ρ) := by
  obtain ⟨bindings⟩ := s
  simp only [find?, rename]
  induction bindings with
  | nil => rfl
  | cons b bindings ih =>
      obtain ⟨j, t⟩ := b
      by_cases hb : i = j
      · simp [hb]
      · have hne : ρ i ≠ ρ j := fun heq => hb (hρ heq)
        rw [List.map_cons, List.lookup_cons, List.lookup_cons, beq_false_of_ne hb,
          beq_false_of_ne hne]
        exact ih

theorem size_rename (ρ : Int → Int) (s : Substitution) : (s.rename ρ).size = s.size := by
  simp [size, rename]

theorem insert_rename (hρ : Function.Injective ρ) (s : Substitution) (i : Int) (t : Ty) :
    (s.rename ρ).insert (ρ i) (t.rename ρ) = (s.insert i t).rename ρ := by
  obtain ⟨bindings⟩ := s
  simp only [insert, rename, mk.injEq]
  induction bindings with
  | nil => rfl
  | cons b bindings ih =>
      by_cases hb : b.1 = i
      · simp [insertInto, hb]
      · have hne : ρ b.1 ≠ ρ i := fun heq => hb (hρ heq)
        simp [insertInto, hb, hne, ih]

theorem resolveWithin_rename (hρ : Function.Injective ρ) (s : Substitution) (n : Nat) (t : Ty) :
    (s.rename ρ).resolveWithin n (t.rename ρ) = (s.resolveWithin n t).rename ρ := by
  induction n generalizing t with
  | zero => rfl
  | succ n ih =>
      cases t with
      | var i =>
          simp only [rename_var, resolveWithin, find?_rename hρ]
          cases s.find? i with
          | none => rfl
          | some u => exact ih u
      | const name => rfl
      | arrow a b => rfl
      | absent => rfl
      | foreign text => rfl

theorem resolve_rename (hρ : Function.Injective ρ) (s : Substitution) (t : Ty) :
    (s.rename ρ).resolve (t.rename ρ) = (s.resolve t).rename ρ := by
  rw [resolve, size_rename, resolveWithin_rename hρ]
  rfl

theorem applyWithin_rename (hρ : Function.Injective ρ) (s : Substitution) (n : Nat) (t : Ty) :
    (s.rename ρ).applyWithin n (t.rename ρ) = (s.applyWithin n t).rename ρ := by
  induction n generalizing t with
  | zero => rfl
  | succ n ih =>
      rw [applyWithin_succ, applyWithin_succ, mapVars_rename, rename_mapVars]
      apply mapVars_congr
      intro i _
      simp only [find?_rename hρ]
      cases s.find? i with
      | none => rfl
      | some u => exact ih u

theorem apply_rename (hρ : Function.Injective ρ) (s : Substitution) (t : Ty) :
    (s.rename ρ).apply (t.rename ρ) = (s.apply t).rename ρ := by
  rw [apply, size_rename, applyWithin_rename hρ]
  rfl

theorem occurs_rename (hρ : Function.Injective ρ) (s : Substitution) (i : Int) (t : Ty) :
    (s.rename ρ).occurs (ρ i) (t.rename ρ) = s.occurs i t := by
  rw [Bool.eq_iff_iff, occurs_iff, occurs_iff, apply_rename hρ, mem_vars_rename hρ]

end Substitution

def UnifyError.rename (ρ : Int → Int) : UnifyError → UnifyError
  | .constants left right => .constants left right
  | .kinds left right => .kinds (left.rename ρ) (right.rename ρ)
  | .occurs i t => .occurs (ρ i) (t.rename ρ)
  | .notTypes left right => .notTypes (left.rename ρ) (right.rename ρ)
  | .circular => .circular

def renamed (ρ : Int → Int) :
    EStateM.Result UnifyError Substitution Unit → EStateM.Result UnifyError Substitution Unit
  | .ok _ s => .ok () (s.rename ρ)
  | .error e s => .error (e.rename ρ) (s.rename ρ)

section Unification

variable {s : Substitution}

theorem bind_rename (hρ : Function.Injective ρ) (i : Int) (t : Ty) (s : Substitution) :
    bind (ρ i) (t.rename ρ) (s.rename ρ) = renamed ρ (bind i t s) := by
  rw [bind_eq, bind_eq, s.occurs_rename hρ, s.apply_rename hρ, s.insert_rename hρ]
  split <;> rfl

theorem refuse_rename (hρ : Function.Injective ρ) (l r : Ty) (s : Substitution) :
    (if (l.rename ρ).isConstructed && (r.rename ρ).isConstructed then
        throw (.kinds ((s.rename ρ).apply (l.rename ρ)) ((s.rename ρ).apply (r.rename ρ)))
      else throw (.notTypes (l.rename ρ) (r.rename ρ)) : UnifyM Unit) (s.rename ρ) =
    renamed ρ ((if l.isConstructed && r.isConstructed then throw (.kinds (s.apply l) (s.apply r))
      else throw (.notTypes l r) : UnifyM Unit) s) := by
  rw [isConstructed_rename, isConstructed_rename, s.apply_rename hρ, s.apply_rename hρ]
  split <;> rfl

theorem unifyWithin_rename (hρ : Function.Injective ρ) (d : Nat) (l r : Ty) (s : Substitution) :
    unifyWithin d (l.rename ρ) (r.rename ρ) (s.rename ρ) = renamed ρ (unifyWithin d l r s) := by
  induction d generalizing l r s with
  | zero => rfl
  | succ d ih =>
      rw [unifyWithin_succ, unifyWithin_succ, s.resolve_rename hρ, s.resolve_rename hρ]
      cases s.resolve l with
      | var i =>
          cases s.resolve r with
          | var j =>
              dsimp only [rename_var]
              by_cases hij : i = j
              · rw [if_pos hij, if_pos (congrArg ρ hij)]
                rfl
              · rw [if_neg hij, if_neg fun heq => hij (hρ heq)]
                exact bind_rename hρ i (.var j) s
          | const b => exact bind_rename hρ i _ s
          | arrow a b => exact bind_rename hρ i _ s
          | absent => exact bind_rename hρ i _ s
          | foreign text => exact bind_rename hρ i _ s
      | const a =>
          cases s.resolve r with
          | var j => exact bind_rename hρ j (.const a) s
          | const b =>
              dsimp only [rename_const]
              split <;> rfl
          | arrow c e => exact refuse_rename hρ (.const a) (.arrow c e) s
          | absent => exact refuse_rename hρ (.const a) .absent s
          | foreign text => exact refuse_rename hρ (.const a) (.foreign text) s
      | arrow a b =>
          cases s.resolve r with
          | var j => exact bind_rename hρ j (.arrow a b) s
          | const c => exact refuse_rename hρ (.arrow a b) (.const c) s
          | arrow a' b' =>
              dsimp only [rename_arrow]
              obtain ⟨o, s₁, ha, -⟩ := unifies_unifyWithin d a a' s
              have ha' := ih a a' s
              rw [ha] at ha'
              cases o with
              | none =>
                  rw [seq_of_ok ha, seq_of_ok ha']
                  exact ih b b' s₁
              | some e =>
                  rw [seq_of_error ha, seq_of_error ha']
                  rfl
          | absent => exact refuse_rename hρ (.arrow a b) .absent s
          | foreign text => exact refuse_rename hρ (.arrow a b) (.foreign text) s
      | absent =>
          cases s.resolve r with
          | var j => exact bind_rename hρ j .absent s
          | const c => exact refuse_rename hρ .absent (.const c) s
          | arrow c e => exact refuse_rename hρ .absent (.arrow c e) s
          | absent => exact refuse_rename hρ .absent .absent s
          | foreign text => exact refuse_rename hρ .absent (.foreign text) s
      | foreign name =>
          cases s.resolve r with
          | var j => exact bind_rename hρ j (.foreign name) s
          | const c => exact refuse_rename hρ (.foreign name) (.const c) s
          | arrow c e => exact refuse_rename hρ (.foreign name) (.arrow c e) s
          | absent => exact refuse_rename hρ (.foreign name) .absent s
          | foreign text => exact refuse_rename hρ (.foreign name) (.foreign text) s

theorem depthBound_rename (ρ : Int → Int) (s : Substitution) (l r : Ty) :
    depthBound (s.rename ρ) (l.rename ρ) (r.rename ρ) = depthBound s l r := by
  have hnodes : (s.rename ρ).bindings.foldr (fun b n => b.2.size + n) 0 =
      s.bindings.foldr (fun b n => b.2.size + n) 0 := by
    simp [Substitution.rename, List.foldr_map, size_rename]
  simp only [depthBound, hnodes, s.size_rename, size_rename]

/-- Unification commutes with renaming. -/
theorem unify_rename (hρ : Function.Injective ρ) (l r : Ty) (s : Substitution) :
    unify (l.rename ρ) (r.rename ρ) (s.rename ρ) = renamed ρ (unify l r s) := by
  show unifyWithin (depthBound (s.rename ρ) (l.rename ρ) (r.rename ρ)) (l.rename ρ) (r.rename ρ)
    (s.rename ρ) = renamed ρ (unifyWithin (depthBound s l r) l r s)
  rw [depthBound_rename, unifyWithin_rename hρ]

end Unification

end LambdaMachine.Ty
