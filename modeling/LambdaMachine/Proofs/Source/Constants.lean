import LambdaMachine.Proofs.Lookup
import LambdaMachine.Proofs.Source.Reading
import LambdaMachine.Proofs.Term.Substitute

namespace LambdaMachine

namespace Source

/-- A term with constants in the place of the names that neither a binder in the term nor one of
those around it binds. -/
def declared (constants : Constants) (bound : List String) : Term → Term
  | .var (some name) => leaf constants bound name
  | .lam param ann body => .lam param ann (declared constants (param.toList ++ bound) body)
  | .app func arg => .app (declared constants bound func) (declared constants bound arg)
  | .op o left right => .op o (declared constants bound left) (declared constants bound right)
  | e => e

section Reader

theorem readTermFrom_eq_map (constants : Constants) (bound : List String) (ts : List Token) :
    readTermFrom constants bound ts =
      (readTermFrom [] bound ts).map fun r => (declared constants bound r.1, r.2) := by
  -- both readers take the same way, as what is left of the tokens does not depend on the constants
  induction hn : ts.length using Nat.strong_induction_on generalizing ts bound with
  | _ n ih =>
      subst hn
      cases ts with
      | nil => simp [readTermFrom, Except.map]
      | cons t ts =>
          have htail : ts.tail.length = ts.length - 1 := List.length_tail
          rw [readTermFrom, readTermFrom]
          split_ifs
          · rfl
          · rfl
          · rfl
          · refine bind_eq_map_bind ?_
            rintro ⟨name, rest₁, h₁⟩
            refine bind_eq_map_bind ?_
            rintro ⟨ann, rest₂, h₂⟩
            refine bind_eq_map_bind ?_
            rintro ⟨rest₃, h₃⟩
            dsimp only
            rw [ih rest₃.length (by simp only [List.length_cons]; omega) _ _ rfl]
            refine map_bind_eq_map_bind ?_
            rintro ⟨body, rest₄, h₄⟩
            refine bind_eq_map_bind ?_
            rintro ⟨rest₅, h₅⟩
            rfl
          · rw [ih ts.length (by simp) _ _ rfl]
            refine map_bind_eq_map_bind ?_
            rintro ⟨left, rest₁, h₁⟩
            have htail₁ : rest₁.tail.length = rest₁.length - 1 := List.length_tail
            dsimp only
            cases nextOp? rest₁ with
            | some o =>
                dsimp only
                rw [ih rest₁.tail.length (by simp only [List.length_cons]; omega) _ _ rfl]
                refine map_bind_eq_map_bind ?_
                rintro ⟨right, rest₂, h₂⟩
                refine bind_eq_map_bind ?_
                rintro ⟨rest₃, h₃⟩
                rfl
            | none =>
                dsimp only
                rw [ih rest₁.length (by simp only [List.length_cons]; omega) _ _ rfl]
                refine map_bind_eq_map_bind ?_
                rintro ⟨right, rest₂, h₂⟩
                refine bind_eq_map_bind ?_
                rintro ⟨rest₃, h₃⟩
                rfl

theorem read_eq_map (constants : Constants) (text : String) :
    read constants text = (read [] text).map (declared constants []) := by
  refine bind_eq_map_bind fun ts => ?_
  unfold readAll
  split_ifs
  · rfl
  · rw [readTermFrom_eq_map]
    refine map_bind_eq_map_bind ?_
    rintro ⟨e, rest, hrest⟩
    cases rest with
    | nil => rfl
    | cons t rest => rfl

end Reader

section Substitution

variable {constants : Constants} {bound : List String} {name : String} {type : Ty}

theorem leaf_of_mem (h : name ∈ bound) : leaf constants bound name = .var (some name) := by
  unfold leaf
  cases constants.lookup name with
  | none => rfl
  | some type => exact if_pos h

theorem leaf_append_of_notMem {extra : List String} (h : name ∉ extra) :
    leaf constants (extra ++ bound) name = leaf constants bound name := by
  simp only [leaf, List.mem_append, h, false_or]

theorem leaf_cons_of_ne {other : String} (h : other ≠ name) :
    leaf ((name, type) :: constants) bound other = leaf constants bound other := by
  simp [leaf, List.lookup_cons, beq_false_of_ne h]

theorem declared_nil (bound : List String) (e : Term) : declared [] bound e = e := by
  induction e generalizing bound with
  | var label => cases label <;> rfl
  | lam param ann body ih => rw [declared, ih]
  | app func arg ihf iha => rw [declared, ihf, iha]
  | op o left right ihl ihr => rw [declared, ihl, ihr]
  | _ => rfl

theorem declared_congr {constants' : Constants}
    (h : ∀ name, leaf constants' bound name = leaf constants bound name) (e : Term) :
    declared constants' bound e = declared constants bound e := by
  induction e generalizing bound with
  | var label =>
      cases label with
      | none => rfl
      | some name => exact h name
  | lam param ann body ih =>
      rw [declared, declared, ih]
      intro name
      by_cases hname : name ∈ param.toList
      · have hbound := List.mem_append_left bound hname
        rw [leaf_of_mem hbound, leaf_of_mem hbound]
      · rw [leaf_append_of_notMem hname, leaf_append_of_notMem hname, h]
  | app func arg ihf iha => rw [declared, declared, ihf h, iha h]
  | op o left right ihl ihr => rw [declared, declared, ihl h, ihr h]
  | _ => rfl

theorem declared_cons (name : String) (type : Ty) (bound : List String) (e : Term) :
    declared ((name, type) :: constants) bound e =
      declared constants bound (declared [(name, type)] bound e) := by
  induction e generalizing bound with
  | var label =>
      cases label with
      | none => rfl
      | some other =>
          by_cases hbound : other ∈ bound
          · simp only [declared, leaf_of_mem hbound]
          · by_cases hother : other = name
            · simp [declared, leaf, hother, hother ▸ hbound]
            · simp only [declared, leaf_cons_of_ne hother]
              rfl
  | lam param ann body ih => rw [declared, declared, declared, ih]
  | app func arg ihf iha => rw [declared, declared, declared, ihf, iha]
  | op o left right ihl ihr => rw [declared, declared, declared, ihl, ihr]
  | _ => rfl

theorem declared_of_mem (h : name ∈ bound) (e : Term) :
    declared [(name, type)] bound e = e := by
  have hleaf : ∀ other, leaf [(name, type)] bound other = leaf [] bound other := by
    intro other
    by_cases hother : other = name
    · rw [hother, leaf_of_mem h, leaf_of_mem h]
    · exact leaf_cons_of_ne hother
  rw [declared_congr hleaf, declared_nil]

theorem declared_singleton (h : name ∉ bound) (e : Term) :
    declared [(name, type)] bound e = e.substitute (some name) (.const name type) := by
  induction e generalizing bound with
  | var label =>
      rw [Term.substitute_var]
      cases label with
      | none => rfl
      | some other =>
          by_cases hother : other = name
          · simp [declared, leaf, hother, h]
          · rw [if_neg (by simpa using hother)]
            exact leaf_cons_of_ne hother
  | lam param ann body ih =>
      rw [declared, Term.substitute_lam]
      by_cases hparam : param = some name
      · rw [if_pos (.inl hparam), declared_of_mem (by simp [hparam])]
      · rw [ih (by simp [h, hparam])]
        split_ifs with hskip hcapture
        · rw [Term.substitute_of_notMem (hskip.resolve_left hparam)]
        · cases hcapture
        · rfl
  | app func arg ihf iha => rw [declared, Term.substitute_app, ihf h, iha h]
  | op o left right ihl ihr => rw [declared, Term.substitute_op, ihl h, ihr h]
  | idx i label => exact (Term.substitute_idx i label _ _).symm
  | const other type' => exact (Term.substitute_const other type' _ _).symm
  | num n => exact (Term.substitute_num n _ _).symm
  | foreign text => exact (Term.substitute_foreign text _ _).symm

/-- Substitutes constants for their names, one after the other. -/
def substituteConstants (constants : Constants) (e : Term) : Except Term.Flaw Term :=
  constants.foldlM (fun e c => e.checkedSubstitute (some c.1) (.const c.1 c.2)) e

theorem substituteConstants_of_named {e : Term} (h : e.Named) :
    substituteConstants constants e = .ok (declared constants [] e) := by
  induction constants generalizing e with
  | nil => exact congrArg Except.ok (declared_nil [] e).symm
  | cons c constants ih =>
      obtain ⟨name, type⟩ := c
      have hvalue : (Term.const name type).Named := .const name type
      have hstep : e.checkedSubstitute (some name) (.const name type) =
          .ok (declared [(name, type)] [] e) := by
        rw [h.bindersNamed.checkedSubstitute_eq hvalue.bindersNamed,
          declared_singleton List.not_mem_nil]
      have hnamed : (declared [(name, type)] [] e).Named := by
        rw [declared_singleton List.not_mem_nil]
        exact h.substitute hvalue _
      rw [substituteConstants, List.foldlM_cons, hstep]
      exact (ih hnamed).trans (congrArg Except.ok (declared_cons name type [] e).symm)

end Substitution

/-- Constants are substituted names. Under distinctly named constants a text is rejected with the
error, and so with the message and the place, that it is rejected with under none; otherwise it is
read as what becomes of the term that is read under none if the constants are substituted for their
names, in any order. -/
theorem read_constants_iff_substituted {constants order : Constants}
    (hnames : (constants.map Prod.fst).Nodup) (horder : order.Perm constants) (text : String) :
    (∀ error, read constants text = .error error ↔ read [] text = .error error) ∧
    ∀ e, read constants text = .ok e ↔
      ∃ plain, read [] text = .ok plain ∧ substituteConstants order plain = .ok e := by
  rw [read_eq_map constants text]
  cases hplain : read [] text with
  | error error => simp [Except.map]
  | ok plain =>
      have hresult : substituteConstants order plain = .ok (declared order [] plain) :=
        substituteConstants_of_named (readable_of_read hplain).named
      have hleaf : ∀ name, leaf order [] name = leaf constants [] name := by
        intro name
        simp only [leaf, lookup_of_perm hnames horder]
      rw [declared_congr hleaf] at hresult
      simp [Except.map, hresult]

/-- The name of a constant is bound in one place and free in another. -/
theorem read_constants_iff_substituted_shadowing :
    let constants : Constants := [("x", .int), ("true", .bool)]
    (constants.map Prod.fst).Nodup ∧
      ∃ plain, read [] "((λx. (x true)) x)" = .ok plain ∧
        substituteConstants constants.reverse plain = .ok
          (.app (.lam (some "x") none (.app (.var (some "x")) (.const "true" .bool)))
            (.const "x" .int)) := by
  intro constants
  have hnames : (constants.map Prod.fst).Nodup := by decide
  have hread : read constants "((λx. (x true)) x)" = .ok
      (.app (.lam (some "x") none (.app (.var (some "x")) (.const "true" .bool)))
        (.const "x" .int)) := by
    decide +kernel
  refine ⟨hnames, ?_⟩
  exact ((read_constants_iff_substituted hnames constants.reverse_perm _).2 _).mp hread

end Source

end LambdaMachine
