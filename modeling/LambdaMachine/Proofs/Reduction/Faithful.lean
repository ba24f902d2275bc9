import LambdaMachine.Proofs.Source.Rendering
import LambdaMachine.Proofs.Term.Alpha

/-!
Whether the text of a reduct stands for it. Substitution keeps variables from being caught by a
binder, but it does not look at constants, and a constant below a binder of its name is spelled like
the variable of that binder. This is the only thing that goes wrong: the text of a reduct is always
read, it is read as the reduct with such constants turned into variables, and no such constant comes
up if no constant of the term has a name that a binder of the term can get.
-/

namespace LambdaMachine

namespace Name

theorem toList_base {name : String} {c : Char} {parts : List Char} (h : name.toList = c :: parts)
    (hc : isSubscript c = false) :
    (base name).toList = c :: (parts.reverse.dropWhile isSubscript).reverse := by
  rw [base, String.toList_ofList, h, List.reverse_cons, List.dropWhile_append]
  split
  · rename_i hempty
    rw [List.isEmpty_iff.mp hempty]
    simp [hc]
  · simp

/-- The names that renaming can give to a binder of the given name. -/
def Variant (name other : String) : Prop :=
  other = name ∨ ∃ n, other = subscripted (base name) n

theorem Variant.base_eq {name other : String} (h : Variant name other) :
    base other = base name := by
  rcases h with rfl | ⟨n, rfl⟩
  · rfl
  · exact base_subscripted (subscriptDigits_base name) n

theorem Variant.fresh {name other : String} (h : Variant name other) (used : List Label) :
    Variant name (fresh other used) := by
  refine .inr ⟨nextSubscript (base other) used, ?_⟩
  rw [← h.base_eq, Name.fresh]

end Name

namespace Source

theorem isSubscript_of_isNameStart {c : Char} (h : isNameStart c = true) :
    Name.isSubscript c = false := by
  obtain ⟨-, hle⟩ := toNat_of_isNameStart h
  have hlow : ¬ 0x2080 ≤ c.toNat := by omega
  simp [Name.isSubscript, Name.subscriptValue?, hlow]

theorem isIdentifier_fresh {name : String} (h : isIdentifier name = true) (used : List Label) :
    isIdentifier (Name.fresh name used) = true := by
  obtain ⟨c, parts, hname, hc, hparts, -⟩ := isIdentifier_iff.mp h
  have hfresh : (Name.fresh name used).toList =
      c :: ((parts.reverse.dropWhile Name.isSubscript).reverse ++
        Name.spelling (Name.nextSubscript (Name.base name) used)) := by
    rw [Name.fresh, Name.toList_subscripted,
      Name.toList_base hname (isSubscript_of_isNameStart hc), List.cons_append]
  refine isIdentifier_iff.mpr ⟨c, _, hfresh, hc, ?_, ?_⟩
  · intro d hd
    rcases List.mem_append.mp hd with hd | hd
    · refine hparts d (List.mem_reverse.mp ?_)
      exact (List.dropWhile_sublist _).subset (List.mem_reverse.mp hd)
    · simp [isNamePart, Name.isSubscript_of_mem_spelling hd]
  · intro hlambda
    have hnumber := Name.subscript?_subscripted (Name.subscriptDigits_base name)
      (Name.nextSubscript (Name.base name) used)
    rw [← Name.fresh, hlambda] at hnumber
    cases hnumber

end Source

namespace Term

/-- What the text of a term stands for under binders of the given names: a constant below a binder
of its name is spelled like the variable of that binder. -/
def shadowed (bound : List String) : Term → Term
  | .const name type => if name ∈ bound then .var (some name) else .const name type
  | .lam (some name) ann body => .lam (some name) ann (body.shadowed (name :: bound))
  | .app func arg => .app (func.shadowed bound) (arg.shadowed bound)
  | .op o left right => .op o (left.shadowed bound) (right.shadowed bound)
  | e => e

/-- Whether no constant is below a binder of its name. -/
def isUnshadowed (bound : List String) : Term → Bool
  | .const name _ => name ∉ bound
  | .lam (some name) _ body => body.isUnshadowed (name :: bound)
  | .app func arg => func.isUnshadowed bound && arg.isUnshadowed bound
  | .op _ left right => left.isUnshadowed bound && right.isUnshadowed bound
  | _ => true

def constantNames : Term → List String
  | .const name _ => [name]
  | .lam _ _ body => body.constantNames
  | .app func arg => func.constantNames ++ arg.constantNames
  | .op _ left right => left.constantNames ++ right.constantNames
  | _ => []

def binderNames : Term → List String
  | .lam (some name) _ body => name :: body.binderNames
  | .app func arg => func.binderNames ++ arg.binderNames
  | .op _ left right => left.binderNames ++ right.binderNames
  | _ => []

section Shadows

variable {v : Vocabulary} {e : Term}

theorem text_shadowed (he : e.Named) (bound : List String) : (e.shadowed bound).text = e.text := by
  induction he generalizing bound with
  | const name type =>
      unfold shadowed
      split <;> rfl
  | lam name ann _ ih => rw [shadowed, text, text, ih]
  | app _ _ ihf iha => rw [shadowed, text, text, ihf, iha]
  | op o _ _ ihl ihr => rw [shadowed, text, text, ihl, ihr]
  | _ => rfl

theorem shadowed_of_isUnshadowed (he : e.Named) {bound : List String}
    (h : e.isUnshadowed bound = true) : e.shadowed bound = e := by
  induction he generalizing bound with
  | const name type => exact if_neg (by simpa [isUnshadowed] using h)
  | lam name ann _ ih => rw [shadowed, ih h]
  | app _ _ ihf iha =>
      rw [isUnshadowed, Bool.and_eq_true] at h
      rw [shadowed, ihf h.1, iha h.2]
  | op o _ _ ihl ihr =>
      rw [isUnshadowed, Bool.and_eq_true] at h
      rw [shadowed, ihl h.1, ihr h.2]
  | _ => rfl

theorem isUnshadowed_of_tree (he : e.Named) {bound : List String} {ν : Numbering}
    (h : (e.shadowed bound).tree ν = e.tree ν) : e.isUnshadowed bound = true := by
  induction he generalizing bound ν with
  | const name type =>
      unfold shadowed at h
      split at h
      · cases h
      · rename_i hbound
        simpa [isUnshadowed] using hbound
  | lam name ann _ ih => exact ih (Nameless.Tree.abs.inj h).2
  | app _ _ ihf iha =>
      obtain ⟨hf, ha⟩ := Nameless.Tree.app.inj h
      rw [isUnshadowed, ihf hf, iha ha, Bool.and_self]
  | op o _ _ ihl ihr =>
      obtain ⟨-, hl, hr⟩ := Nameless.Tree.op.inj h
      rw [isUnshadowed, ihl hl, ihr hr, Bool.and_self]
  | _ => rfl

theorem Within.shadowed (hv : ∀ name type, v.constants name type → v.references name)
    (h : e.Within v) (bound : List String) : (e.shadowed bound).Within v := by
  induction h generalizing bound with
  | const h =>
      unfold Term.shadowed
      split
      · exact .var (hv _ _ h)
      · exact .const h
  | var h => exact .var h
  | num h => exact .num h
  | lam hname hann _ ih => exact .lam hname hann (ih _)
  | app _ _ ihf iha => exact .app (ihf _) (iha _)
  | op o _ _ ihl ihr => exact .op o (ihl _) (ihr _)

theorem alphaEqual_shadowed_iff (hv : ∀ name type, v.constants name type → v.references name)
    (h : e.Within v) : (e.shadowed []).alphaEqual e = true ↔ e.isUnshadowed [] = true := by
  obtain ⟨ν, hν⟩ := exists_injective_numbering
  rw [alphaEqual_iff (h.shadowed hv []).named h.named fun l _ r _ heq => hν heq]
  constructor
  · intro htree
    exact isUnshadowed_of_tree h.named htree
  · intro hun
    rw [shadowed_of_isUnshadowed h.named hun]

theorem Within.isUnshadowed (hv : ∀ name type, v.constants name type → ¬ v.binders name)
    (h : e.Within v) {bound : List String} (hbound : ∀ name ∈ bound, v.binders name) :
    e.isUnshadowed bound = true := by
  induction h generalizing bound with
  | const h => simpa [Term.isUnshadowed] using fun hmem => hv _ _ h (hbound _ hmem)
  | lam hname _ _ ih => exact ih (List.forall_mem_cons.mpr ⟨hname, hbound⟩)
  | app _ _ ihf iha => rw [Term.isUnshadowed, ihf hbound, iha hbound, Bool.and_self]
  | op o _ _ ihl ihr => rw [Term.isUnshadowed, ihl hbound, ihr hbound, Bool.and_self]
  | _ => rfl

end Shadows

end Term

namespace Source

theorem closed_spellable : spellable.Closed where
  references_fresh _ used h := isIdentifier_fresh h used
  binders_fresh _ used h := isIdentifier_fresh h used
  numbers_apply o m n hm hn := by
    cases o with
    | add => exact Int.add_nonneg hm hn
    | mul => exact Int.mul_nonneg hm hn

/-- Constants of their declared types, and annotations without variables. -/
def typed (constants : Constants) : Vocabulary where
  references _ := True
  binders _ := True
  annotations := Ty.Ground
  constants name type := constants.lookup name = some type
  numbers _ := True

theorem closed_typed (constants : Constants) : (typed constants).Closed where
  references_fresh _ _ _ := trivial
  binders_fresh _ _ _ := trivial
  numbers_apply _ _ _ _ _ := trivial

theorem Readable.within_typed {constants : Constants} {bound : List String} {e : Term}
    (h : Readable constants bound e) : e.Within (typed constants) := by
  induction h with
  | num => exact .num trivial
  | const hfound => exact .const hfound
  | var => exact .var trivial
  | lam hann _ ih => exact .lam trivial hann ih
  | app _ _ ihf iha => exact .app ihf iha
  | op o _ _ ihl ihr => exact .op o ihl ihr

theorem readable_shadowed {constants : Constants} {bound : List String} {e : Term}
    (h : e.Within (typed constants))
    (hfree : ∀ name, some name ∈ e.freeVars → constants.lookup name = none ∨ name ∈ bound) :
    Readable constants bound (e.shadowed bound) := by
  induction h generalizing bound with
  | var => exact .var (hfree _ (by simp [Term.freeVars]))
  | const h =>
      unfold Term.shadowed
      split
      · rename_i hbound
        exact .var (.inr hbound)
      · rename_i hbound
        exact .const h hbound
  | num => exact .num bound _
  | @lam name ann body _ hann _ ih =>
      refine .lam hann (ih fun other hother => ?_)
      by_cases hname : other = name
      · exact .inr (by simp [hname])
      · have hscope := hfree other (by simp [Term.freeVars, hother, hname])
        exact hscope.imp_right (List.mem_cons_of_mem _)
  | app _ _ ihf iha =>
      exact .app (ihf fun name hname => hfree name (List.mem_append_left _ hname))
        (iha fun name hname => hfree name (List.mem_append_right _ hname))
  | op o _ _ ihl ihr =>
      exact .op o (ihl fun name hname => hfree name (List.mem_append_left _ hname))
        (ihr fun name hname => hfree name (List.mem_append_right _ hname))

end Source

namespace Term

/-- What reduction can make of the names in a term. -/
def renamed (e : Term) : Vocabulary where
  references _ := True
  binders name := ∃ x ∈ e.binderNames, Name.Variant x name
  annotations _ := True
  constants name _ := name ∈ e.constantNames
  numbers _ := True

theorem closed_renamed (e : Term) : e.renamed.Closed where
  references_fresh _ _ _ := trivial
  binders_fresh _ used := fun ⟨x, hx, h⟩ => ⟨x, hx, h.fresh used⟩
  numbers_apply _ _ _ _ _ := trivial

theorem Named.within_renamed {e whole : Term} (he : e.Named)
    (hbinders : e.binderNames ⊆ whole.binderNames)
    (hconstants : e.constantNames ⊆ whole.constantNames) : e.Within whole.renamed := by
  induction he with
  | var name => exact .var trivial
  | num n => exact .num trivial
  | const name type => exact .const (hconstants (by simp [constantNames]))
  | lam name ann _ ih =>
      obtain ⟨hname, hbinders⟩ := List.cons_subset.mp hbinders
      exact .lam ⟨name, hname, .inl rfl⟩ (fun _ _ => trivial) (ih hbinders hconstants)
  | app _ _ ihf iha =>
      obtain ⟨hbf, hba⟩ := List.append_subset.mp hbinders
      obtain ⟨hcf, hca⟩ := List.append_subset.mp hconstants
      exact .app (ihf hbf hcf) (iha hba hca)
  | op o _ _ ihl ihr =>
      obtain ⟨hbl, hbr⟩ := List.append_subset.mp hbinders
      obtain ⟨hcl, hcr⟩ := List.append_subset.mp hconstants
      exact .op o (ihl hbl hcl) (ihr hbr hcr)

end Term

namespace Reduction

open Source (Constants)

theorem leads_of_mem_reducts {n : Nat} {e : Term} {p : Rule × Term} (h : p ∈ reducts n e) :
    Leads e p.2 := by
  induction n generalizing e with
  | zero => cases h
  | succ n ih =>
      rw [reducts] at h
      split at h
      · rename_i rule e' hstep
        rcases List.mem_cons.mp h with rfl | h
        · exact .single ⟨rule, hstep⟩
        · exact .head ⟨rule, hstep⟩ (ih h)
      · cases h

theorem isUnshadowed_of_leads {e r : Term} (he : e.Named) (hr : Leads e r)
    (hnames : ∀ c ∈ e.constantNames, ∀ x ∈ e.binderNames, ¬ Name.Variant x c) :
    r.isUnshadowed [] = true := by
  have hwithin : r.Within e.renamed :=
    hr.within e.closed_renamed (he.within_renamed (List.Subset.refl _) (List.Subset.refl _))
  refine hwithin.isUnshadowed ?_ (by simp)
  rintro c _ hc ⟨x, hx, hvariant⟩
  exact hnames c hc x hx hvariant

/-- What a term that is read reduces to can be read from its text, up to constants below binders of
their names. The text stands for the reduct exactly if there are none, and there are none if no
binder of the term can get the name of a constant in it. A run ends in such a reduct, and a trace
shows nothing else. -/
theorem read_text_of_leads {constants : Constants} {text : String} {e : Term}
    (h : Source.read constants text = .ok e) :
    (∀ r, Leads e r → Source.read constants r.text = .ok (r.shadowed []) ∧
      ((r.shadowed []).alphaEqual r = true ↔ r.isUnshadowed [] = true)) ∧
    ((∀ c ∈ e.constantNames, ∀ x ∈ e.binderNames, ¬ Name.Variant x c) →
      ∀ r, Leads e r → Source.read constants r.text = .ok r) ∧
    (∀ limit, Leads e (run limit e).term) ∧ ∀ n, ∀ p ∈ reducts n e, Leads e p.2 := by
  have hnamed : e.Named := (Source.within_of_read h).named
  have hspelled : ∀ r, Leads e r → r.Within Source.spellable := fun r hr =>
    hr.within Source.closed_spellable (Source.within_of_read h)
  have hread : ∀ r, Leads e r → Source.read constants r.text = .ok (r.shadowed []) := by
    intro r hr
    have hreadable := Source.readable_of_read h
    have htyped := hr.within (Source.closed_typed constants) hreadable.within_typed
    rw [← Term.text_shadowed (hspelled r hr).named []]
    refine Source.read_text (Source.readable_shadowed htyped ?_) ?_
    · intro name hname
      exact hreadable.free (hr.mem_freeVars hname)
    · exact (hspelled r hr).shadowed (fun _ _ hc => hc) []
  refine ⟨fun r hr => ⟨hread r hr, ?_⟩, ?_, fun limit => ?_, fun n p hp => leads_of_mem_reducts hp⟩
  · exact Term.alphaEqual_shadowed_iff (fun _ _ hc => hc) (hspelled r hr)
  · intro hnames r hr
    have hun := isUnshadowed_of_leads hnamed hr hnames
    rw [hread r hr, Term.shadowed_of_isUnshadowed (hspelled r hr).named hun]
  · exact (runFrom_of_named hnamed 0 {e} limit.toNat).1

/-- `((λf. (λx. (f x))) true)` -/
def applying : Term :=
  .app (.lam (some "f") none (.lam (some "x") none (.app (.var (some "f")) (.var (some "x")))))
    (.const "true" .bool)

theorem read_text_of_leads_applying :
    Source.read [("true", .bool)] "((λf. (λx. (f x))) true)" = .ok applying ∧
      Leads applying (.lam (some "x") none (.app (.const "true" .bool) (.var (some "x")))) ∧
      Source.read [("true", .bool)] "(λx. (true x))" =
        .ok (.lam (some "x") none (.app (.const "true" .bool) (.var (some "x")))) := by
  have hread : Source.read [("true", .bool)] applying.text = .ok applying :=
    Source.read_text
      (.app (.lam (by simp) (.lam (by simp) (.app (.var (.inr (by simp))) (.var (.inr (by simp))))))
        (.const rfl (by simp)))
      (.app (.lam rfl (by simp) (.lam rfl (by simp) (.app (.var rfl) (.var rfl)))) (.const rfl))
  have hleads : Leads applying
      (.lam (some "x") none (.app (.const "true" .bool) (.var (some "x")))) := by
    refine .single ⟨.beta, ?_⟩
    simp [applying, step, Term.substitute_lam, Term.substitute_app, Term.substitute_var,
      Term.freeVars]
  have hbases : ∀ c ∈ applying.constantNames, ∀ x ∈ applying.binderNames,
      Name.base c ≠ Name.base x := by decide
  have hback := (read_text_of_leads hread).2.1
    (fun c hc x hx hvariant => hbases c hc x hx hvariant.base_eq) _ hleads
  exact ⟨hread, hleads, hback⟩

/-- `((λf. (λtrue. f)) true)` -/
def capturing : Term :=
  .app (.lam (some "f") none (.lam (some "true") none (.var (some "f")))) (.const "true" .bool)

/-- A constant that is substituted below a binder of its name is read back as a variable. -/
theorem reduct_captures_constant :
    Source.read [("true", .bool)] "((λf. (λtrue. f)) true)" = .ok capturing ∧
      Leads capturing (.lam (some "true") none (.const "true" .bool)) ∧
      (Term.lam (some "true") none (.const "true" .bool)).text = "(λtrue. true)" ∧
      Source.read [("true", .bool)] "(λtrue. true)" =
        .ok (.lam (some "true") none (.var (some "true"))) ∧
      (Term.lam (some "true") none (.var (some "true"))).alphaEqual
        (.lam (some "true") none (.const "true" .bool)) = false := by
  have hread : Source.read [("true", .bool)] capturing.text = .ok capturing :=
    Source.read_text
      (.app (.lam (by simp) (.lam (by simp) (.var (.inr (by simp))))) (.const rfl (by simp)))
      (.app (.lam rfl (by simp) (.lam rfl (by simp) (.var rfl))) (.const rfl))
  have hback : Source.read [("true", .bool)]
      (Term.lam (some "true") none (.var (some "true"))).text =
        .ok (.lam (some "true") none (.var (some "true"))) :=
    Source.read_text (.lam (by simp) (.var (.inr (by simp)))) (.lam rfl (by simp) (.var rfl))
  refine ⟨hread, .single ⟨.beta, ?_⟩, by decide, hback, by decide⟩
  simp [capturing, step, Term.substitute_lam, Term.substitute_var, Term.freeVars]

end Reduction

end LambdaMachine
