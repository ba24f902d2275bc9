import LambdaMachine.Proofs.Reduction.Contraction
import LambdaMachine.Reduction.Normalize

namespace LambdaMachine.Reduction

open Nameless (Tree)
open Relation (ReflTransGen)
open Term (Numbering)

/-- Some number of contractions leads from a term to another. -/
def Leads : Term → Term → Prop :=
  ReflTransGen fun e e' => ∃ rule, step e = some (rule, e')

theorem Leads.named {e e' : Term} (h : Leads e e') (he : e.Named) : e'.Named := by
  induction h with
  | refl => exact he
  | tail _ hstep ih =>
      obtain ⟨rule, hstep⟩ := hstep
      exact (Contracts.of_step hstep).named ih

theorem Leads.reduces {e e' : Term} (h : Leads e e') (he : e.Named) (ν : Numbering) :
    Tree.Reduces (e.tree ν) (e'.tree ν) := by
  induction h with
  | refl => exact .refl
  | tail hleads hstep ih =>
      obtain ⟨rule, hstep⟩ := hstep
      exact ih.tail ((Contracts.of_step hstep).tree (Leads.named hleads he) ν)

theorem normal_of_step {e : Term} (he : e.Named) (h : step e = none) (ν : Numbering) :
    (e.tree ν).Normal := by
  apply Tree.normal_of_leftmost
  rw [← map_tree_step he ν, h]
  rfl

/-- A run from a named term ends in a normal form or is out of contractions. -/
theorem runFrom_of_named {e : Term} (he : e.Named) (steps : Nat) (seen : Std.HashSet Term)
    (budget : Nat) :
    Leads e (runFrom steps seen budget e).term ∧
      ((runFrom steps seen budget e).stop = none ∧ step (runFrom steps seen budget e).term = none ∨
        (runFrom steps seen budget e).stop = some .exhausted) := by
  induction budget generalizing e steps seen with
  | zero =>
      unfold runFrom
      rw [checkedStep_of_named he]
      cases hstep : step e with
      | none => exact ⟨.refl, .inl ⟨rfl, hstep⟩⟩
      | some next => exact ⟨.refl, .inr rfl⟩
  | succ budget ih =>
      unfold runFrom
      rw [checkedStep_of_named he]
      cases hstep : step e with
      | none => exact ⟨.refl, .inl ⟨rfl, hstep⟩⟩
      | some next =>
          obtain ⟨rule, e'⟩ := next
          dsimp only
          split
          · exact ⟨.single ⟨rule, hstep⟩, .inr rfl⟩
          · have he' := (Contracts.of_step hstep).named he
            obtain ⟨hleads, hend⟩ := ih he' (steps + 1) (seen.insert e')
            exact ⟨.head ⟨rule, hstep⟩ hleads, hend⟩

theorem normal_of_run {e : Term} (he : e.Named) {limit : Int} (h : (run limit e).stop = none)
    (ν : Numbering) :
    (run limit e).term.Named ∧ Tree.Reduces (e.tree ν) ((run limit e).term.tree ν) ∧
      ((run limit e).term.tree ν).Normal := by
  obtain ⟨hleads, ⟨-, hstep⟩ | hstop⟩ := runFrom_of_named he 0 {e} limit.toNat
  · exact ⟨hleads.named he, hleads.reduces he ν, normal_of_step (hleads.named he) hstep ν⟩
  · rw [run, hstop] at h
    cases h

end LambdaMachine.Reduction
