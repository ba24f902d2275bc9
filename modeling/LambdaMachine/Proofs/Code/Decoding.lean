import LambdaMachine.Proofs.Nameless.Alpha

/-!
Code determines the term that it was made from, but for the annotations of parameters. The code of a
term ends with the instruction of its root, and what stands in front of that is the code of its
operands, one after the other: so code is taken apart from its end, and a cut between two codes is
found even if it is not known where the first one begins.
-/

namespace LambdaMachine

open Code (emit opInstr Scoped compile)
open Nameless (Tree convert closedTree)
open Term (Numbering)

namespace Term

/-- A term without the annotations of its parameters. -/
def unannotated : Term → Term
  | .lam param _ body => .lam param none body.unannotated
  | .app func arg => .app func.unannotated arg.unannotated
  | .op o left right => .op o left.unannotated right.unannotated
  | e => e

/-- No spelling is left in a term: its variables refer by index only, and its binders have no
names. -/
def Anonymous : Term → Prop
  | .idx _ label => label = none
  | .const _ _ | .num _ => True
  | .lam param _ body => param = none ∧ body.Anonymous
  | .app func arg => func.Anonymous ∧ arg.Anonymous
  | .op _ left right => left.Anonymous ∧ right.Anonymous
  | .var _ | .foreign _ => False

theorem Named.unannotated {e : Term} (he : e.Named) : e.unannotated.Named := by
  induction he with
  | var name => exact .var name
  | const name type => exact .const name type
  | num value => exact .num value
  | lam name ann _ ih => exact .lam name none ih
  | app _ _ ihf iha => exact .app ihf iha
  | op o _ _ ihl ihr => exact .op o ihl ihr

theorem freeVars_unannotated (e : Term) : e.unannotated.freeVars = e.freeVars := by
  induction e with
  | lam param ann body ih => rw [Term.unannotated, freeVars, freeVars, ih]
  | app func arg ihf iha => rw [Term.unannotated, freeVars, freeVars, ihf, iha]
  | op o left right ihl ihr => rw [Term.unannotated, freeVars, freeVars, ihl, ihr]
  | var label => rfl
  | idx i label => rfl
  | const name type => rfl
  | num value => rfl
  | foreign text => rfl

end Term

namespace Nameless.Tree

/-- A tree without the annotations of its parameters. -/
def unannotated : Tree → Tree
  | abs _ body => abs none body.unannotated
  | app func arg => app func.unannotated arg.unannotated
  | op o left right => op o left.unannotated right.unannotated
  | t => t

theorem term_unannotated (t : Tree) : t.unannotated.term = t.term.unannotated := by
  induction t with
  | abs ann body ih => rw [unannotated, term, ih]; rfl
  | app func arg ihf iha => rw [unannotated, term, ihf, iha]; rfl
  | op o left right ihl ihr => rw [unannotated, term, ihl, ihr]; rfl
  | ref i => rfl
  | const name type => rfl
  | num value => rfl

theorem anonymous_term (t : Tree) : t.term.Anonymous := by
  induction t with
  | abs ann body ih => exact ⟨rfl, ih⟩
  | app func arg ihf iha => exact ⟨ihf, iha⟩
  | op o left right ihl ihr => exact ⟨ihl, ihr⟩
  | ref i => rfl
  | const name type => trivial
  | num value => trivial

end Nameless.Tree

theorem Term.tree_unannotated (e : Term) (ν : Numbering) :
    e.unannotated.tree ν = (e.tree ν).unannotated := by
  induction e generalizing ν with
  | lam param ann body ih => rw [unannotated, tree, ih]; rfl
  | app func arg ihf iha => rw [unannotated, tree, ihf, iha]; rfl
  | op o left right ihl ihr => rw [unannotated, tree, ihl, ihr]; rfl
  | var label => rfl
  | idx i label => rfl
  | const name type => rfl
  | num value => rfl
  | foreign text => rfl

namespace Code

/-- The instruction of the root of a tree, with which its code ends. -/
def rootInstr : Tree → Instr
  | .ref i => .access i
  | .const name type => .push (.const name type)
  | .num value => .push (.int value)
  | .abs _ body => .cur (.grab :: emit body.term ++ [.ret])
  | .app _ _ => .apply
  | .op o _ _ => opInstr o

/-- The code of the operands of the root of a tree. -/
def operandCode : Tree → List Instr
  | .app func arg => emit arg.term ++ emit func.term
  | .op _ left right => emit left.term ++ emit right.term
  | _ => []

theorem emit_term (t : Tree) : emit t.term = operandCode t ++ [rootInstr t] := by
  cases t <;> rfl

/-- Trees with roots of the same form, with bodies of the same code if these are abstractions. -/
inductive SameRoot : Tree → Tree → Prop where
  | ref (i : Nat) : SameRoot (.ref i) (.ref i)
  | const (name : String) (type : Ty) : SameRoot (.const name type) (.const name type)
  | num (value : Int) : SameRoot (.num value) (.num value)
  | abs (ann ann' : Option Ty) {body body' : Tree} (h : emit body.term = emit body'.term) :
      SameRoot (.abs ann body) (.abs ann' body')
  | app (func arg func' arg' : Tree) : SameRoot (.app func arg) (.app func' arg')
  | op (o : Op) (left right left' right' : Tree) :
      SameRoot (.op o left right) (.op o left' right')

theorem opInstr_injective : Function.Injective opInstr := by
  intro o o' h
  cases o <;> cases o' <;> first | rfl | cases h

theorem sameRoot_of_rootInstr {t u : Tree} (h : rootInstr t = rootInstr u) : SameRoot t u := by
  cases t with
  | ref i =>
      cases u with
      | ref j =>
          obtain rfl : i = j := Int.natCast_inj.mp (Instr.access.inj h)
          exact .ref i
      | op o left right => cases o <;> cases h
      | _ => cases h
  | const name type =>
      cases u with
      | const name' type' =>
          cases h
          exact .const name type
      | op o left right => cases o <;> cases h
      | _ => cases h
  | num value =>
      cases u with
      | num value' =>
          cases h
          exact .num value
      | op o left right => cases o <;> cases h
      | _ => cases h
  | abs ann body =>
      cases u with
      | abs ann' body' => exact .abs ann ann' (by simpa [rootInstr] using h)
      | op o left right => cases o <;> cases h
      | _ => cases h
  | app func arg =>
      cases u with
      | app func' arg' => exact .app func arg func' arg'
      | op o left right => cases o <;> cases h
      | _ => cases h
  | op o left right =>
      cases u with
      | op o' left' right' =>
          obtain rfl : o = o' := opInstr_injective h
          exact .op o left right left' right'
      | _ => cases o <;> cases h

theorem cut_of_append {t u : Tree} {before before' : List Instr}
    (h : before ++ emit t.term = before' ++ emit u.term) :
    before ++ operandCode t = before' ++ operandCode u ∧ SameRoot t u := by
  rw [emit_term, emit_term, ← List.append_assoc, ← List.append_assoc] at h
  obtain ⟨hoperands, hroot⟩ := List.append_inj' h rfl
  exact ⟨hoperands, sameRoot_of_rootInstr (List.head_eq_of_cons_eq hroot)⟩

theorem unannotated_eq_of_append {t u : Tree} {before before' : List Instr}
    (h : before ++ emit t.term = before' ++ emit u.term) :
    before = before' ∧ t.unannotated = u.unannotated := by
  -- the code in front is general, as that of one operand stands in front of that of the other
  induction t generalizing u before before' with
  | ref i =>
      obtain ⟨hbefore, ⟨⟩⟩ := cut_of_append h
      exact ⟨List.append_cancel_right hbefore, rfl⟩
  | const name type =>
      obtain ⟨hbefore, ⟨⟩⟩ := cut_of_append h
      exact ⟨List.append_cancel_right hbefore, rfl⟩
  | num value =>
      obtain ⟨hbefore, ⟨⟩⟩ := cut_of_append h
      exact ⟨List.append_cancel_right hbefore, rfl⟩
  | abs ann body ih =>
      obtain ⟨hbefore, hroot⟩ := cut_of_append h
      cases hroot with
      | @abs _ ann' _ body' hbody =>
          have hinner : body.unannotated = body'.unannotated := (ih (congrArg ([] ++ ·) hbody)).2
          refine ⟨List.append_cancel_right hbefore, ?_⟩
          rw [Tree.unannotated, Tree.unannotated, hinner]
  | app func arg ihf iha =>
      obtain ⟨hbefore, hroot⟩ := cut_of_append h
      cases hroot with
      | app _ _ func' arg' =>
          rw [operandCode, operandCode, ← List.append_assoc, ← List.append_assoc] at hbefore
          obtain ⟨hbefore, hfunc⟩ := ihf hbefore
          obtain ⟨hbefore, harg⟩ := iha hbefore
          refine ⟨hbefore, ?_⟩
          rw [Tree.unannotated, Tree.unannotated, hfunc, harg]
  | op o left right ihl ihr =>
      obtain ⟨hbefore, hroot⟩ := cut_of_append h
      cases hroot with
      | op _ _ _ left' right' =>
          rw [operandCode, operandCode, ← List.append_assoc, ← List.append_assoc] at hbefore
          obtain ⟨hbefore, hright⟩ := ihr hbefore
          obtain ⟨hbefore, hleft⟩ := ihl hbefore
          refine ⟨hbefore, ?_⟩
          rw [Tree.unannotated, Tree.unannotated, hleft, hright]

theorem emit_unannotated (e : Term) : emit e.unannotated = emit e := by
  induction e with
  | lam param ann body ih => rw [Term.unannotated, emit, emit, ih]
  | app func arg ihf iha => rw [Term.unannotated, emit, emit, ihf, iha]
  | op o left right ihl ihr => rw [Term.unannotated, emit, emit, ihl, ihr]
  | var label => rfl
  | idx i label => rfl
  | const name type => rfl
  | num value => rfl
  | foreign text => rfl

/-- Trees have the same code exactly if they differ in annotations only. -/
theorem emit_term_eq_iff {t u : Tree} :
    emit t.term = emit u.term ↔ t.unannotated = u.unannotated := by
  constructor
  · intro h
    exact (unannotated_eq_of_append (congrArg ([] ++ ·) h)).2
  · intro h
    rw [← emit_unannotated t.term, ← emit_unannotated u.term, ← Tree.term_unannotated,
      ← Tree.term_unannotated, h]

theorem exists_tree_of_anonymous {e : Term} {depth : Nat} (he : e.Anonymous)
    (hscoped : Scoped depth e) : ∃ t : Tree, e = t.term := by
  induction e generalizing depth with
  | var label => exact he.elim
  | foreign text => exact he.elim
  | idx i label =>
      obtain rfl : label = none := he
      obtain ⟨n, rfl⟩ := Int.eq_ofNat_of_zero_le hscoped.1
      exact ⟨.ref n, rfl⟩
  | const name type => exact ⟨.const name type, rfl⟩
  | num value => exact ⟨.num value, rfl⟩
  | lam param ann body ih =>
      obtain ⟨rfl, hbody⟩ := he
      obtain ⟨t, rfl⟩ := ih hbody hscoped
      exact ⟨.abs ann t, rfl⟩
  | app func arg ihf iha =>
      obtain ⟨t, rfl⟩ := ihf he.1 hscoped.1
      obtain ⟨u, rfl⟩ := iha he.2 hscoped.2
      exact ⟨.app t u, rfl⟩
  | op o left right ihl ihr =>
      obtain ⟨t, rfl⟩ := ihl he.1 hscoped.1
      obtain ⟨u, rfl⟩ := ihr he.2 hscoped.2
      exact ⟨.op o t u, rfl⟩

/-- Programs determine terms. Closed named terms have programs, which are equal exactly if the terms
are equal up to bound names once their annotations are gone; and anonymous terms that are compiled
have equal programs exactly if they differ in annotations only. -/
theorem programs_determine_terms :
    (∀ e f : Term, e.Named → f.Named → e.freeVars = [] → f.freeVars = [] →
      ∃ d d' program program', d.Anonymous ∧ d'.Anonymous ∧
        convert e = .ok d ∧ compile d = .ok program ∧
        convert f = .ok d' ∧ compile d' = .ok program' ∧
        (program = program' ↔ e.unannotated.alphaEqual f.unannotated = true)) ∧
    ∀ (d d' : Term) (program program' : List Instr), d.Anonymous → d'.Anonymous →
      compile d = .ok program → compile d' = .ok program' →
      (program = program' ↔ d.unannotated = d'.unannotated) := by
  constructor
  · intro e f he hf hclosed hclosed'
    refine ⟨_, _, _, _, Tree.anonymous_term _, Tree.anonymous_term _,
      Nameless.convert_of_closed he hclosed, Nameless.compile_of_closed he hclosed,
      Nameless.convert_of_closed hf hclosed', Nameless.compile_of_closed hf hclosed', ?_⟩
    have halpha : e.unannotated.alphaEqual f.unannotated = true ↔
        e.unannotated.tree (fun _ => 0) = f.unannotated.tree (fun _ => 0) := by
      refine Term.alphaEqual_iff he.unannotated hf.unannotated ?_
      simp [Term.freeVars_unannotated, hclosed]
    rw [emit_term_eq_iff, halpha, Term.tree_unannotated, Term.tree_unannotated]
    rfl
  · intro d d' program program' hd hd' hprogram hprogram'
    obtain ⟨hscoped, rfl⟩ := compile_eq_ok_iff.mp hprogram
    obtain ⟨hscoped', rfl⟩ := compile_eq_ok_iff.mp hprogram'
    obtain ⟨t, rfl⟩ := exists_tree_of_anonymous hd hscoped
    obtain ⟨u, rfl⟩ := exists_tree_of_anonymous hd' hscoped'
    rw [emit_term_eq_iff, ← Tree.term_unannotated, ← Tree.term_unannotated]
    exact Nameless.Tree.term_injective.eq_iff.symm

/-- A function that calls its argument with a sum. -/
def annotatedCall : Term :=
  .lam (some "f") (some (.arrow .int .int)) (.lam (some "x") (some .int)
    (.app (.var (some "f")) (.op .add (.var (some "x")) (.num 1))))

/-- The same function, with other names and without annotations. -/
def plainCall : Term :=
  .lam (some "x") none (.lam (some "y") none
    (.app (.var (some "x")) (.op .add (.var (some "y")) (.num 1))))

/-- A function that adds one to the result of its argument. -/
def plainSum : Term :=
  .lam (some "f") none (.lam (some "x") none
    (.op .add (.app (.var (some "f")) (.var (some "x"))) (.num 1)))

theorem programs_determine_terms_calls :
    annotatedCall.Named ∧ plainCall.Named ∧ plainSum.Named ∧ annotatedCall.freeVars = [] ∧
      plainCall.freeVars = [] ∧ plainSum.freeVars = [] ∧
      ∃ d d' d'' program program', d.Anonymous ∧ d'.Anonymous ∧ d''.Anonymous ∧
        convert annotatedCall = .ok d ∧ compile d = .ok program ∧
        convert plainCall = .ok d' ∧ compile d' = .ok program ∧
        convert plainSum = .ok d'' ∧ compile d'' = .ok program' ∧ program ≠ program' ∧
        d.unannotated = d'.unannotated ∧ d.unannotated ≠ d''.unannotated := by
  have hannotated : annotatedCall.Named :=
    .lam _ _ (.lam _ _ (.app (.var _) (.op .add (.var _) (.num 1))))
  have hcall : plainCall.Named := .lam _ _ (.lam _ _ (.app (.var _) (.op .add (.var _) (.num 1))))
  have hsum : plainSum.Named := .lam _ _ (.lam _ _ (.op .add (.app (.var _) (.var _)) (.num 1)))
  obtain ⟨d, d', program, _, hd, hd', hconvert, hcompile, hconvert', hcompile', hiff⟩ :=
    programs_determine_terms.1 annotatedCall plainCall hannotated hcall (by decide) (by decide)
  obtain ⟨_, d'', _, program', -, hd'', hsame, hsame', hconvert'', hcompile'', hiff'⟩ :=
    programs_determine_terms.1 annotatedCall plainSum hannotated hsum (by decide) (by decide)
  cases hconvert.symm.trans hsame
  cases hcompile.symm.trans hsame'
  obtain rfl := hiff.mpr (by decide)
  have hne : program ≠ program' := fun h => absurd (hiff'.mp h) (by decide)
  have hequal := programs_determine_terms.2 d d' program program hd hd' hcompile hcompile'
  have hdiffer := programs_determine_terms.2 d d'' program program' hd hd'' hcompile hcompile''
  exact ⟨hannotated, hcall, hsum, by decide, by decide, by decide, d, d', d'', program, program',
    hd, hd', hd'', hconvert, hcompile, hconvert', hcompile', hconvert'', hcompile'', hne,
    hequal.mp rfl, fun h => hne (hdiffer.mpr h)⟩

end Code

end LambdaMachine
