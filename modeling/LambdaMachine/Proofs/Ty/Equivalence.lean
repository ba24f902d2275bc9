import LambdaMachine.Proofs.Ty.Rename
import Mathlib.Logic.Equiv.Basic

/-!
Equality up to renaming, decided. While two types are walked from left to right, the pairs of
variables met so far are always part of one permutation of all variables: a new pair is brought in by
exchanging two targets, which no earlier pair notices. So the walk succeeds exactly if some injective
renaming takes the first type to the second, and as permutations can be undone and composed, equality
up to renaming is an equivalence relation.
-/

namespace LambdaMachine.Ty

theorem rename_rename (ρ ρ' : Int → Int) (t : Ty) :
    (t.rename ρ).rename ρ' = t.rename (ρ' ∘ ρ) :=
  mapVars_rename ρ _ t

theorem proper_rename {ρ : Int → Int} {t : Ty} (h : t.Proper) : (t.rename ρ).Proper :=
  Over.mapVars h fun _ _ => trivial

namespace Renaming

variable {r r' : Renaming} {i j : Int}

theorem extend?_cases (h : r.extend? i j = some r') :
    (i, j) ∈ r ∧ r' = r ∨ (∀ p ∈ r, p.1 ≠ i ∧ p.2 ≠ j) ∧ r' = (i, j) :: r := by
  unfold extend? at h
  split at h
  · rename_i htarget hsource
    refine .inr ⟨?_, (Option.some.inj h).symm⟩
    rintro ⟨k, l⟩ hp
    obtain ⟨hk, hl⟩ := isSome_of_mem hp
    constructor
    · rintro rfl
      simp [htarget] at hk
    · rintro rfl
      simp [hsource] at hl
  · rename_i target source htarget hsource
    split_ifs at h with hpair
    obtain ⟨rfl, rfl⟩ : target = j ∧ source = i := by simpa using hpair
    exact .inl ⟨mem_of_target? htarget, (Option.some.inj h).symm⟩
  · cases h

/-- Some permutation of all variables renames as the pairs say. -/
def Extensible (r : Renaming) : Prop :=
  ∃ σ : Equiv.Perm Int, r.Along σ

theorem extensible_nil : Extensible [] :=
  ⟨Equiv.refl Int, by simp [Along]⟩

theorem Along.cons_swap {σ : Equiv.Perm Int} (h : r.Along σ)
    (hnew : ∀ p ∈ r, p.1 ≠ i ∧ p.2 ≠ j) :
    Along (σ.trans (Equiv.swap (σ i) j)) ((i, j) :: r) := by
  intro p hp
  rw [Equiv.trans_apply]
  rcases List.mem_cons.mp hp with rfl | hp
  · exact (Equiv.swap_apply_left _ _).symm
  · obtain ⟨hi, hj⟩ := hnew p hp
    rw [h p hp] at hj ⊢
    exact (Equiv.swap_apply_of_ne_of_ne (σ.injective.ne hi) hj).symm

theorem Extensible.extend? (h : r.Extensible) (hr : r.extend? i j = some r') :
    r'.Extensible := by
  obtain ⟨σ, hσ⟩ := h
  rcases extend?_cases hr with ⟨-, rfl⟩ | ⟨hnew, rfl⟩
  · exact ⟨σ, hσ⟩
  · exact ⟨_, hσ.cons_swap hnew⟩

theorem Along.of_extend? {ρ : Int → Int} (h : r'.Along ρ) (hr : r.extend? i j = some r') :
    r.Along ρ ∧ ρ i = j := by
  rcases extend?_cases hr with ⟨hmem, rfl⟩ | ⟨-, rfl⟩
  · exact ⟨h, (h _ hmem).symm⟩
  · exact ⟨fun p hp => h p (List.mem_cons_of_mem _ hp), (h _ List.mem_cons_self).symm⟩

/-- What a walk through two types does to the pairs. They stay part of a permutation, and whatever
renames as those found at the end say agrees with those known at the start, and takes the first type
to the second. -/
structure Walk (a b : Ty) (r r' : Renaming) : Prop where
  proper : a.Proper
  extensible : r.Extensible → r'.Extensible
  along : ∀ ρ, r'.Along ρ → r.Along ρ ∧ a.rename ρ = b

theorem walk_of_rename? {a b : Ty} (h : Ty.rename? a b r = some r') : Walk a b r r' := by
  induction a generalizing b r r' with
  | var i =>
      cases b with
      | var j =>
          refine ⟨trivial, fun hr => hr.extend? h, fun ρ hρ => ?_⟩
          obtain ⟨hr, hij⟩ := hρ.of_extend? h
          exact ⟨hr, congrArg Ty.var hij⟩
      | _ => cases h
  | const name =>
      cases b with
      | const name' =>
          rw [Ty.rename?] at h
          split_ifs at h with heq
          cases h
          exact ⟨trivial, id, fun ρ hρ => ⟨hρ, congrArg Ty.const heq⟩⟩
      | _ => cases h
  | arrow domain codomain ihd ihc =>
      cases b with
      | arrow domain' codomain' =>
          obtain ⟨r₁, hd, hc⟩ := Option.bind_eq_some_iff.mp h
          have hfirst := ihd hd
          have hsecond := ihc hc
          refine ⟨⟨hfirst.proper, hsecond.proper⟩, hsecond.extensible ∘ hfirst.extensible, ?_⟩
          intro ρ hρ
          -- the second walk only adds to what the first one has fixed
          obtain ⟨h₁, rfl⟩ := hsecond.along ρ hρ
          obtain ⟨hr, rfl⟩ := hfirst.along ρ h₁
          exact ⟨hr, rfl⟩
      | _ => cases h
  | absent => cases b <;> cases h
  | foreign text => cases b <;> cases h

end Renaming

theorem exists_perm_of_equivalent {a b : Ty} (h : equivalent a b = true) :
    a.Proper ∧ ∃ σ : Equiv.Perm Int, a.rename σ = b := by
  obtain ⟨r, hr⟩ := Option.isSome_iff_exists.mp h
  have hwalk := Renaming.walk_of_rename? hr
  obtain ⟨σ, hσ⟩ := hwalk.extensible Renaming.extensible_nil
  exact ⟨hwalk.proper, σ, (hwalk.along σ hσ).2⟩

theorem equivalent_refl {a : Ty} (h : a.Proper) : equivalent a a = true := by
  have hself := equivalent_rename Function.injective_id h
  rwa [rename_id] at hself

theorem equivalent_symm {a b : Ty} (h : equivalent a b = true) : equivalent b a = true := by
  obtain ⟨hproper, σ, rfl⟩ := exists_perm_of_equivalent h
  have hback : (a.rename σ).rename σ.symm = a := by
    rw [rename_rename, Equiv.symm_comp_self, rename_id]
  have hrenamed := equivalent_rename σ.symm.injective (proper_rename (ρ := σ) hproper)
  rwa [hback] at hrenamed

theorem equivalent_trans {a b c : Ty} (hab : equivalent a b = true)
    (hbc : equivalent b c = true) : equivalent a c = true := by
  obtain ⟨hproper, σ, rfl⟩ := exists_perm_of_equivalent hab
  obtain ⟨-, τ, rfl⟩ := exists_perm_of_equivalent hbc
  rw [rename_rename]
  exact equivalent_rename (τ.injective.comp σ.injective) hproper

/-- Equality up to renaming is decided: two things are equivalent exactly if the first is a type and
an injective renaming of variables takes it to the second. On types this is an equivalence
relation. -/
theorem equivalent_up_to_renaming :
    (∀ a b : Ty, equivalent a b = true ↔
      a.Proper ∧ ∃ ρ : Int → Int, Function.Injective ρ ∧ a.rename ρ = b) ∧
    Equivalence fun a b : { t : Ty // t.Proper } => equivalent a.1 b.1 = true := by
  refine ⟨fun a b => ⟨fun h => ?_, ?_⟩, fun a => equivalent_refl a.2, equivalent_symm,
    equivalent_trans⟩
  · obtain ⟨hproper, σ, hσ⟩ := exists_perm_of_equivalent h
    exact ⟨hproper, σ, σ.injective, hσ⟩
  · rintro ⟨hproper, ρ, hρ, rfl⟩
    exact equivalent_rename hρ hproper

/-- Two variables are not renamed to the same one. -/
example : equivalent (.arrow (.var 0) (.var 1)) (.arrow (.var 2) (.var 2)) = false := by decide

end LambdaMachine.Ty
