import LambdaMachine.Proofs.Outcome
import LambdaMachine.Proofs.Ty.Variables
import LambdaMachine.Source.Reading
import Mathlib.Data.Nat.Init

namespace LambdaMachine.Source

/-- The terms that reading can give under binders of the given names. -/
inductive Readable (constants : Constants) : List String → Term → Prop where
  | num (bound : List String) (n : Int) : Readable constants bound (.num n)
  | const {bound : List String} {name : String} {type : Ty}
      (h : constants.lookup name = some type) (hbound : name ∉ bound) :
      Readable constants bound (.const name type)
  | var {bound : List String} {name : String}
      (h : constants.lookup name = none ∨ name ∈ bound) :
      Readable constants bound (.var (some name))
  | lam {bound : List String} {name : String} {ann : Option Ty} {body : Term}
      (hann : ∀ a, ann = some a → a.Ground) (h : Readable constants (name :: bound) body) :
      Readable constants bound (.lam (some name) ann body)
  | app {bound : List String} {func arg : Term} (hf : Readable constants bound func)
      (ha : Readable constants bound arg) : Readable constants bound (.app func arg)
  | op {bound : List String} (o : Op) {left right : Term} (hl : Readable constants bound left)
      (hr : Readable constants bound right) : Readable constants bound (.op o left right)

theorem Readable.free {constants : Constants} {bound : List String} {e : Term}
    (h : Readable constants bound e) {name : String} (hname : some name ∈ e.freeVars) :
    constants.lookup name = none ∨ name ∈ bound := by
  induction h with
  | num bound n => cases hname
  | const h hbound => cases hname
  | var h =>
      obtain rfl : name = _ := by simpa [Term.freeVars] using hname
      exact h
  | lam hann h ih =>
      simp only [Term.freeVars, List.mem_filter, decide_eq_true_eq] at hname
      rcases ih hname.1 with hnone | hbound
      · exact .inl hnone
      · rcases List.mem_cons.mp hbound with rfl | hbound
        · exact absurd rfl hname.2
        · exact .inr hbound
  | app hf ha ihf iha =>
      rcases List.mem_append.mp hname with hname | hname
      · exact ihf hname
      · exact iha hname
  | op o hl hr ihl ihr =>
      rcases List.mem_append.mp hname with hname | hname
      · exact ihl hname
      · exact ihr hname

theorem Readable.named {constants : Constants} {bound : List String} {e : Term}
    (h : Readable constants bound e) : e.Named := by
  induction h with
  | num bound n => exact .num n
  | const h hbound => exact .const _ _
  | var h => exact .var _
  | lam hann h ih => exact .lam _ _ ih
  | app hf ha ihf iha => exact .app ihf iha
  | op o hl hr ihl ihr => exact .op o ihl ihr

theorem readable_leaf (constants : Constants) (bound : List String) (name : String) :
    Readable constants bound (leaf constants bound name) := by
  unfold leaf
  split
  · rename_i type hfound
    split
    · rename_i hbound
      exact .var (.inr hbound)
    · rename_i hbound
      exact .const hfound hbound
  · rename_i hnone
    exact .var (.inl hnone)

theorem ground_of_readTypeFrom {ts : List Token} {t : Ty} {rest : Rest ts}
    (h : readTypeFrom ts = .ok (t, rest)) : t.Ground := by
  induction hn : ts.length using Nat.strong_induction_on generalizing ts t with
  | _ n ih =>
      cases ts with
      | nil => simp [readTypeFrom] at h
      | cons token ts =>
          subst hn
          rw [readTypeFrom] at h
          obtain ⟨⟨domain, rest', hlt⟩, hdomain, h⟩ := ok_of_bind h
          have hground : domain.Ground := by
            split at hdomain
            · cases hdomain
              trivial
            · split at hdomain
              · obtain ⟨⟨inner, left, hleft⟩, hinner, hdomain⟩ := ok_of_bind hdomain
                obtain ⟨⟨left', hleft'⟩, -, hdomain⟩ := ok_of_bind hdomain
                cases hdomain
                exact ih ts.length (by simp) hinner rfl
              · cases hdomain
          dsimp only at h
          split at h
          · obtain ⟨⟨codomain, left, hleft⟩, hcodomain, h⟩ := ok_of_bind h
            cases h
            refine ⟨hground, ih rest'.tail.length ?_ hcodomain rfl⟩
            simp only [List.length_tail, List.length_cons] at hlt ⊢
            omega
          · cases h
            exact hground

theorem ground_of_annotated {ts : List Token} {ann : Option Ty}
    {rest : { rest : List Token // rest.length ≤ ts.length }}
    (h : readAnnotation ts = .ok (ann, rest)) : ∀ a, ann = some a → a.Ground := by
  unfold readAnnotation at h
  split at h
  · obtain ⟨⟨type, left, hleft⟩, htype, h⟩ := ok_of_bind h
    cases h
    intro a ha
    cases ha
    exact ground_of_readTypeFrom htype
  · cases h
    nofun

theorem readable_of_readTermFrom {constants : Constants} {bound : List String} {ts : List Token}
    {e : Term} {rest : Rest ts} (h : readTermFrom constants bound ts = .ok (e, rest)) :
    Readable constants bound e := by
  -- each part is read from tokens that the reader has handed back, of which there are fewer
  induction hn : ts.length using Nat.strong_induction_on generalizing ts bound e with
  | _ n ih =>
      cases ts with
      | nil => simp [readTermFrom] at h
      | cons token ts =>
          subst hn
          rw [readTermFrom] at h
          split at h
          · cases h
            exact .num bound _
          · split at h
            · cases h
              exact readable_leaf constants bound _
            · split at h
              · cases h
              · split at h
                · obtain ⟨⟨name, rest₁, h₁⟩, -, h⟩ := ok_of_bind h
                  obtain ⟨⟨ann, rest₂, h₂⟩, hann, h⟩ := ok_of_bind h
                  obtain ⟨⟨rest₃, h₃⟩, -, h⟩ := ok_of_bind h
                  obtain ⟨⟨body, rest₄, h₄⟩, hbody, h⟩ := ok_of_bind h
                  obtain ⟨⟨rest₅, h₅⟩, -, h⟩ := ok_of_bind h
                  cases h
                  refine .lam (ground_of_annotated hann) (ih rest₃.length ?_ hbody rfl)
                  have htail : ts.tail.length = ts.length - 1 := List.length_tail
                  simp only [List.length_cons]
                  omega
                · obtain ⟨⟨left, rest₁, h₁⟩, hleft, h⟩ := ok_of_bind h
                  have hl := ih ts.length (by simp) hleft rfl
                  dsimp only at h
                  split at h
                  · rename_i o _
                    obtain ⟨⟨right, rest₂, h₂⟩, hright, h⟩ := ok_of_bind h
                    obtain ⟨⟨rest₃, h₃⟩, -, h⟩ := ok_of_bind h
                    cases h
                    refine .op o hl (ih rest₁.tail.length ?_ hright rfl)
                    simp only [List.length_tail, List.length_cons]
                    omega
                  · obtain ⟨⟨right, rest₂, h₂⟩, hright, h⟩ := ok_of_bind h
                    obtain ⟨⟨rest₃, h₃⟩, -, h⟩ := ok_of_bind h
                    cases h
                    refine .app hl (ih rest₁.length ?_ hright rfl)
                    simp only [List.length_cons]
                    omega

theorem readable_of_read {constants : Constants} {text : String} {e : Term}
    (h : read constants text = .ok e) : Readable constants [] e := by
  obtain ⟨ts, -, h⟩ := ok_of_bind h
  unfold readAll at h
  split at h
  · cases h
  · obtain ⟨⟨result, rest, hrest⟩, hresult, h⟩ := ok_of_bind h
    cases rest with
    | nil =>
        cases h
        exact readable_of_readTermFrom hresult
    | cons token rest => cases h

end LambdaMachine.Source
