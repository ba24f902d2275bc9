import LambdaMachine.Code.Compile
import LambdaMachine.Nameless.Convert
import LambdaMachine.Proofs.Nameless.NormalOrder
import LambdaMachine.Proofs.Outcome

namespace LambdaMachine

open Nameless (Tree Depths convert convertUnder)
open Term (Numbering)

namespace Code

/-- Every index in a term that stands under `depth` binders refers to one of them, and nothing else
stands in the place of a variable. -/
def Scoped : (depth : Nat) → Term → Prop
  | depth, .idx i _ => 0 ≤ i ∧ i < depth
  | _, .const _ _ | _, .num _ => True
  | depth, .lam _ _ body => Scoped (depth + 1) body
  | depth, .app func arg => Scoped depth func ∧ Scoped depth arg
  | depth, .op _ left right => Scoped depth left ∧ Scoped depth right
  | _, .var _ | _, .foreign _ => False

/-- The code of a term. What has no code is put in the place of an instruction. -/
def emit : Term → List Instr
  | .idx i _ => [.access i]
  | .const name type => [.push (.const name type)]
  | .num n => [.push (.int n)]
  | .lam _ _ body => [.cur (.grab :: emit body ++ [.ret])]
  | .app func arg => emit arg ++ emit func ++ [.apply]
  | .op o left right => emit left ++ emit right ++ [opInstr o]
  | .var label => [.foreign (label.getD "")]
  | .foreign text => [.foreign text]

theorem compileUnder_of_scoped {depth : Nat} {e : Term} (h : Scoped depth e) :
    compileUnder depth e = .ok (emit e) := by
  induction e generalizing depth with
  | var label => exact h.elim
  | foreign text => exact h.elim
  | idx i label =>
      have hrange : 0 ≤ i ∧ i < depth := h
      rw [compileUnder, if_pos hrange, emit]
  | const name type => rfl
  | num n => rfl
  | lam param ann body ih =>
      rw [compileUnder, ih h]
      rfl
  | app func arg ihf iha =>
      rw [compileUnder, iha h.2, ihf h.1]
      rfl
  | op o left right ihl ihr =>
      rw [compileUnder, ihl h.1, ihr h.2]
      rfl

theorem scoped_of_compileUnder {depth : Nat} {e : Term} {code : List Instr}
    (h : compileUnder depth e = .ok code) : Scoped depth e := by
  induction e generalizing depth code with
  | var label => simp [compileUnder] at h
  | foreign text => simp [compileUnder] at h
  | idx i label =>
      rw [compileUnder] at h
      split at h
      · assumption
      · simp at h
  | const name type => trivial
  | num n => trivial
  | lam param ann body ih =>
      obtain ⟨code, hbody, -⟩ := ok_of_bind h
      exact ih hbody
  | app func arg ihf iha =>
      obtain ⟨argCode, harg, h⟩ := ok_of_bind h
      obtain ⟨funcCode, hfunc, -⟩ := ok_of_bind h
      exact ⟨ihf hfunc, iha harg⟩
  | op o left right ihl ihr =>
      obtain ⟨leftCode, hleft, h⟩ := ok_of_bind h
      obtain ⟨rightCode, hright, -⟩ := ok_of_bind h
      exact ⟨ihl hleft, ihr hright⟩

/-- Compilation accepts exactly the scoped terms, and emits their code. -/
theorem compile_eq_ok_iff {e : Term} {code : List Instr} :
    compile e = .ok code ↔ Scoped 0 e ∧ code = emit e := by
  constructor
  · intro h
    have hscoped := scoped_of_compileUnder h
    rw [compile, compileUnder_of_scoped hscoped] at h
    cases h
    exact ⟨hscoped, rfl⟩
  · rintro ⟨hscoped, rfl⟩
    exact compileUnder_of_scoped hscoped

end Code

namespace Nameless

/-- A tree as a term without spellings. -/
def Tree.term : Tree → Term
  | .ref i => .idx i none
  | .const name type => .const name type
  | .num value => .num value
  | .abs ann body => .lam none ann body.term
  | .app func arg => .app func.term arg.term
  | .op o left right => .op o left.term right.term

theorem exists_binder_enter {depths : Depths} {depth : Int} {ν : Numbering} {param label : Label}
    (h : label ≠ param → ∃ binder, depths.lookup label = some binder ∧
      depth - binder - 1 = ν label) :
    ∃ binder, List.lookup label ((param, depth) :: depths) = some binder ∧
      depth + 1 - binder - 1 = ν.enter param label := by
  by_cases heq : label = param
  · subst heq
    refine ⟨depth, by simp, ?_⟩
    rw [Numbering.enter_self]
    omega
  · obtain ⟨binder, hlookup, hindex⟩ := h heq
    refine ⟨binder, ?_, ?_⟩
    · rw [List.lookup_cons, beq_false_of_ne heq]
      exact hlookup
    · rw [Numbering.enter_of_ne ν heq]
      omega

theorem convertUnder_of_named {e : Term} (he : e.Named) {depths : Depths} {depth : Int}
    {ν : Numbering}
    (h : ∀ label ∈ e.freeVars, ∃ binder, depths.lookup label = some binder ∧
      depth - binder - 1 = ν label) :
    convertUnder depths depth e = .ok (e.tree ν).term := by
  induction he generalizing depths depth ν with
  | var name =>
      obtain ⟨binder, hlookup, hindex⟩ := h (some name) (by simp [Term.freeVars])
      simp only [convertUnder, hlookup, hindex]
      rfl
  | const name type => rfl
  | num value => rfl
  | @lam name ann body hbody ih =>
      have hunder : convertUnder ((some name, depth) :: depths) (depth + 1) body =
          .ok (body.tree (ν.enter (some name))).term := by
        apply ih
        intro label hl
        exact exists_binder_enter fun hne => h label (by simp [Term.freeVars, hl, hne])
      rw [convertUnder, hunder]
      rfl
  | app hf ha ihf iha =>
      rw [convertUnder, ihf fun label hl => h label (by simp [Term.freeVars, hl]),
        iha fun label hl => h label (by simp [Term.freeVars, hl])]
      rfl
  | op o hl hr ihl ihr =>
      rw [convertUnder, ihl fun label hl => h label (by simp [Term.freeVars, hl]),
        ihr fun label hl => h label (by simp [Term.freeVars, hl])]
      rfl

theorem bound_of_convertUnder {e e' : Term} {depths : Depths} {depth : Int}
    (h : convertUnder depths depth e = .ok e') {label : Label} (hl : label ∈ e.freeVars) :
    ∃ binder, depths.lookup label = some binder := by
  induction e generalizing depths depth e' with
  | var other =>
      obtain rfl : label = other := by simpa [Term.freeVars] using hl
      rw [convertUnder] at h
      cases hfound : depths.lookup label with
      | none => simp [hfound] at h
      | some binder => exact ⟨binder, rfl⟩
  | lam param ann body ih =>
      obtain ⟨hl, hne⟩ : label ∈ body.freeVars ∧ label ≠ param := by simpa [Term.freeVars] using hl
      obtain ⟨body', hbody, -⟩ := ok_of_bind h
      obtain ⟨binder, hfound⟩ := ih hbody hl
      rw [List.lookup_cons, beq_false_of_ne hne] at hfound
      exact ⟨binder, hfound⟩
  | app func arg ihf iha =>
      obtain ⟨func', hfunc, h⟩ := ok_of_bind h
      obtain ⟨arg', harg, -⟩ := ok_of_bind h
      rcases List.mem_append.mp hl with hl | hl
      · exact ihf hfunc hl
      · exact iha harg hl
  | op o left right ihl ihr =>
      obtain ⟨left', hleft, h⟩ := ok_of_bind h
      obtain ⟨right', hright, -⟩ := ok_of_bind h
      rcases List.mem_append.mp hl with hl | hl
      · exact ihl hleft hl
      · exact ihr hright hl
  | idx i label => cases hl
  | const name type => cases hl
  | num n => cases hl
  | foreign text => cases hl

theorem closed_of_convert {e e' : Term} (h : convert e = .ok e') : e.freeVars = [] := by
  rw [List.eq_nil_iff_forall_not_mem]
  intro label hl
  obtain ⟨binder, hfound⟩ := bound_of_convertUnder h hl
  simp at hfound

theorem scoped_tree {e : Term} (he : e.Named) {depth : Nat} {ν : Numbering}
    (h : ∀ label ∈ e.freeVars, ν label < depth) : Code.Scoped depth (e.tree ν).term := by
  induction he generalizing depth ν with
  | var name =>
      have hlt := h (some name) (by simp [Term.freeVars])
      simp only [Term.tree, Tree.term, Code.Scoped]
      omega
  | const name type => trivial
  | num value => trivial
  | lam name ann hbody ih =>
      apply ih
      intro label hl
      by_cases heq : label = some name
      · rw [heq, Numbering.enter_self]
        omega
      · have hlt := h label (by simp [Term.freeVars, hl, heq])
        rw [Numbering.enter_of_ne ν heq]
        omega
  | app hf ha ihf iha =>
      exact ⟨ihf fun label hl => h label (by simp [Term.freeVars, hl]),
        iha fun label hl => h label (by simp [Term.freeVars, hl])⟩
  | op o hl hr ihl ihr =>
      exact ⟨ihl fun label hl => h label (by simp [Term.freeVars, hl]),
        ihr fun label hl => h label (by simp [Term.freeVars, hl])⟩

/-- The tree of a closed term. Which numbers its labels have does not matter. -/
def closedTree (e : Term) : Tree :=
  e.tree fun _ => 0

theorem convert_of_closed {e : Term} (he : e.Named) (hclosed : e.freeVars = []) :
    convert e = .ok (closedTree e).term :=
  convertUnder_of_named he (by simp [hclosed])

theorem compile_of_closed {e : Term} (he : e.Named) (hclosed : e.freeVars = []) :
    Code.compile (closedTree e).term = .ok (Code.emit (closedTree e).term) :=
  Code.compile_eq_ok_iff.mpr ⟨scoped_tree he (by simp [hclosed]), rfl⟩

end Nameless

end LambdaMachine
