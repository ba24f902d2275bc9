import LambdaMachine.Proofs.Nameless.Indices
import LambdaMachine.Proofs.Term.Alpha

namespace LambdaMachine.Nameless

open Term (Numbering)

theorem Tree.term_injective : Function.Injective Tree.term := by
  intro t u h
  induction t generalizing u with
  | ref i =>
      cases u with
      | ref j =>
          have hij : (i : Int) = j := by simpa [term] using h
          rw [Int.natCast_inj.mp hij]
      | _ => simp [term] at h
  | const name type =>
      cases u with
      | const name' type' => simpa [term] using h
      | _ => simp [term] at h
  | num value =>
      cases u with
      | num value' => simpa [term] using h
      | _ => simp [term] at h
  | abs ann body ih =>
      cases u with
      | abs ann' body' =>
          obtain ⟨rfl, hbody⟩ : ann = ann' ∧ body.term = body'.term := by simpa [term] using h
          rw [ih hbody]
      | _ => simp [term] at h
  | app func arg ihf iha =>
      cases u with
      | app func' arg' =>
          obtain ⟨hfunc, harg⟩ : func.term = func'.term ∧ arg.term = arg'.term := by
            simpa [term] using h
          rw [ihf hfunc, iha harg]
      | _ => simp [term] at h
  | op o left right ihl ihr =>
      cases u with
      | op o' left' right' =>
          obtain ⟨rfl, hleft, hright⟩ :
              o = o' ∧ left.term = left'.term ∧ right.term = right'.term := by
            simpa [term] using h
          rw [ihl hleft, ihr hright]
      | _ => simp [term] at h

/-- Every label that is free in a term has a binder in scope. -/
def Depths.Covers (depths : Depths) (e : Term) : Prop :=
  ∀ label ∈ e.freeVars, ∃ binder, depths.lookup label = some binder

/-- The binders in scope at a place under `depth` binders: all of them are outside, and no two labels
have the same one. -/
structure Depths.Apart (depths : Depths) (depth : Int) : Prop where
  below : ∀ label binder, depths.lookup label = some binder → binder < depth
  injective : ∀ left right binder, depths.lookup left = some binder →
    depths.lookup right = some binder → left = right

namespace Depths

variable {depths : Depths} {depth : Int}

theorem Apart.convertUnder (h : depths.Apart depth) {e : Term} (he : e.Named)
    (hcovers : depths.Covers e) :
    convertUnder depths depth e = .ok (e.tree (numbering depths depth)).term := by
  apply convertUnder_of_named he
  intro label hl
  obtain ⟨binder, hfound⟩ := hcovers label hl
  exact ⟨binder, hfound, numbering_of_lookup hfound (h.below label binder hfound)⟩

theorem Apart.eq_of_numbering (h : depths.Apart depth) {e e' : Term} (he : depths.Covers e)
    (he' : depths.Covers e') :
    ∀ l ∈ e.freeVars, ∀ r ∈ e'.freeVars,
      numbering depths depth l = numbering depths depth r → l = r := by
  intro l hl r hr heq
  obtain ⟨binder, hfound⟩ := he l hl
  obtain ⟨binder', hfound'⟩ := he' r hr
  have hindex := numbering_of_lookup hfound (h.below l binder hfound)
  have hindex' := numbering_of_lookup hfound' (h.below r binder' hfound')
  have hsame : binder = binder' := by omega
  exact h.injective l r binder hfound (hsame ▸ hfound')

theorem apart_nil : Apart [] 0 := by
  constructor
  · intro label binder h
    simp at h
  · intro left right binder h
    simp at h

end Depths

theorem alphaEqual_iff_of_covers {e e' : Term} (he : e.Named) (he' : e'.Named) {depths : Depths}
    {depth : Int} (h : depths.Apart depth) (hcovers : depths.Covers e)
    (hcovers' : depths.Covers e') :
    ∃ r r', convertUnder depths depth e = .ok r ∧ convertUnder depths depth e' = .ok r' ∧
      (e.alphaEqual e' = true ↔ r = r') := by
  refine ⟨_, _, h.convertUnder he hcovers, h.convertUnder he' hcovers', ?_⟩
  rw [Term.alphaEqual_iff he he' (h.eq_of_numbering hcovers hcovers')]
  exact Tree.term_injective.eq_iff.symm

theorem equivalence_alphaEqual :
    Equivalence fun e e' : { e : Term // e.Named } => e.1.alphaEqual e'.1 = true := by
  obtain ⟨ν, hν⟩ := Term.exists_injective_numbering
  have hiff : ∀ e e' : { e : Term // e.Named },
      e.1.alphaEqual e'.1 = true ↔ e.1.tree ν = e'.1.tree ν :=
    fun e e' => Term.alphaEqual_iff e.2 e'.2 fun l _ r _ heq => hν heq
  constructor
  · intro e
    exact (hiff e e).mpr rfl
  · intro e e' h
    exact (hiff e' e).mpr ((hiff e e').mp h).symm
  · intro e e' e'' h h'
    exact (hiff e e'').mpr (((hiff e e').mp h).trans ((hiff e' e'').mp h'))

/-- Named terms have a nameless form in every scope that covers them, and they are equal up to bound
names exactly if these forms are equal; for closed terms no scope is needed. So equality up to bound
names is an equivalence of named terms. -/
theorem alphaEqual_iff_nameless_eq :
    (∀ e e' : Term, e.Named → e'.Named → ∀ (depths : Depths) (depth : Int),
      depths.Apart depth → depths.Covers e → depths.Covers e' →
      ∃ r r', convertUnder depths depth e = .ok r ∧ convertUnder depths depth e' = .ok r' ∧
        (e.alphaEqual e' = true ↔ r = r')) ∧
    (∀ e e' : Term, e.Named → e'.Named → e.freeVars = [] → e'.freeVars = [] →
      ∃ r r', convert e = .ok r ∧ convert e' = .ok r' ∧ (e.alphaEqual e' = true ↔ r = r')) ∧
    Equivalence fun e e' : { e : Term // e.Named } => e.1.alphaEqual e'.1 = true := by
  refine ⟨?_, ?_, equivalence_alphaEqual⟩
  · intro e e' he he' depths depth hapart hcovers hcovers'
    exact alphaEqual_iff_of_covers he he' hapart hcovers hcovers'
  · intro e e' he he' hclosed hclosed'
    apply alphaEqual_iff_of_covers he he' Depths.apart_nil
    · simp [Depths.Covers, hclosed]
    · simp [Depths.Covers, hclosed']

/-- A function that applies its argument to a free variable. -/
def referring : Term :=
  .lam (some "x") none (.app (.var (some "x")) (.var (some "y")))

/-- A function that applies its argument to itself, and calls it by the name of that variable. -/
def shadowing : Term :=
  .lam (some "y") none (.app (.var (some "y")) (.var (some "y")))

theorem alphaEqual_iff_nameless_eq_shadowing :
    referring.Named ∧ shadowing.Named ∧ Depths.Apart [(some "y", -1), (some "z", 1)] 2 ∧
      convertUnder [(some "y", -1), (some "z", 1)] 2 referring =
        .ok (.lam none none (.app (.idx 0 none) (.idx 3 none))) ∧
      convertUnder [(some "y", -1), (some "z", 1)] 2 shadowing =
        .ok (.lam none none (.app (.idx 0 none) (.idx 0 none))) ∧
      referring.alphaEqual shadowing = false := by
  have hreferring : referring.Named := .lam _ _ (.app (.var _) (.var _))
  have hshadowing : shadowing.Named := .lam _ _ (.app (.var _) (.var _))
  have hmem : ∀ (label : Label) (binder : Int),
      List.lookup label [(some "y", (-1 : Int)), (some "z", 1)] = some binder →
        label = some "y" ∧ binder = -1 ∨ label = some "z" ∧ binder = 1 := by
    intro label binder h
    obtain ⟨l₁, l₂, hl, -⟩ := List.lookup_eq_some_iff.mp h
    have hpair : (label, binder) ∈ [(some "y", (-1 : Int)), (some "z", 1)] := by simp [hl]
    simpa using hpair
  have hapart : Depths.Apart [(some "y", -1), (some "z", 1)] 2 := by
    constructor
    · intro label binder h
      have hcases := hmem label binder h
      omega
    · intro left right binder h h'
      have hcases := hmem left binder h
      have hcases' := hmem right binder h'
      grind
  obtain ⟨r, r', hr, hr', hiff⟩ := alphaEqual_iff_nameless_eq.1 referring shadowing hreferring
    hshadowing [(some "y", -1), (some "z", 1)] 2 hapart
    (by simp [referring, Depths.Covers, Term.freeVars, List.lookup_cons])
    (by simp [shadowing, Depths.Covers, Term.freeVars])
  cases hr
  cases hr'
  refine ⟨hreferring, hshadowing, hapart, rfl, rfl, ?_⟩
  rw [← Bool.not_eq_true, hiff]
  decide

end LambdaMachine.Nameless
