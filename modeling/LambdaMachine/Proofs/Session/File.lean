import Mathlib.Data.List.Forall2
import LambdaMachine.Proofs.Session.Statement
import LambdaMachine.Proofs.Source.Layout

namespace LambdaMachine.Session

open Source (Laid Word Token Holds Spells)

theorem enqueueInto_of_not_mem {number : Int} {queue : List (Int × Statement)}
    (h : number ∉ queue.map (·.1)) (st : Statement) :
    enqueueInto number st queue = queue ++ [(number, st)] := by
  induction queue with
  | nil => rfl
  | cons found rest ih =>
      rw [List.map_cons, List.mem_cons, not_or] at h
      rw [enqueueInto, if_neg (Ne.symm h.1), ih h.2, List.cons_append]

theorem forM_add {texts : List (String × Nat)} {terms : List Term} {s : Session}
    (hread : List.Forall₂ (fun text e => Source.read s.settings.constants text.1 = .ok e) texts
      terms)
    (hnumbers : (texts.map (·.2)).Nodup)
    (hnew : ∀ text ∈ texts, (text.2 : Int) ∉ s.queue.map (·.1)) :
    ∃ console, texts.forM (fun text => add text.1 text.2) s =
      .ok () { s with
        console := console
        queue := s.queue ++
          List.zipWith (fun text e => ((text.2 : Int), ⟨text.1, e⟩)) texts terms } := by
  generalize hconstants : s.settings.constants = constants at hread
  induction hread generalizing s with
  | nil =>
      refine ⟨s.console, ?_⟩
      rw [List.zipWith_nil_left, List.append_nil]
      rfl
  | @cons text e texts terms hread _ ih =>
      subst hconstants
      obtain ⟨hnumber, hnumbers⟩ := List.nodup_cons.mp hnumbers
      have hadd := add_of_ok hread text.2
      rw [enqueueInto_of_not_mem (hnew text List.mem_cons_self)] at hadd
      obtain ⟨console, hrest⟩ := ih (s := { s with
          console := s.console.registerFile s.path
          queue := s.queue ++ [((text.2 : Int), ⟨text.1, e⟩)] }) hnumbers (by
        intro text' htext'
        have hne : text'.2 ≠ text.2 := fun heq => hnumber (List.mem_map.mpr ⟨text', htext', heq⟩)
        have hold := hnew text' (List.mem_cons_of_mem _ htext')
        simp only [List.map_append, List.map_cons, List.map_nil, List.mem_append,
          List.mem_singleton, not_or]
        exact ⟨hold, fun heq => hne (Int.ofNat.inj heq)⟩) rfl
      refine ⟨console, ?_⟩
      show (add text.1 text.2 >>= fun _ => texts.forM fun text => add text.1 text.2) s = _
      rw [bind_of_ok hadd, hrest, List.zipWith_cons_cons, List.append_assoc, List.singleton_append]

theorem load_of_decode {s : Session} (hpath : s.path ≠ userPath) (hnull : '\x00' ∉ s.path.toList)
    {bytes : List UInt8} {chars : List Char} (hbytes : Text.Utf8.decode bytes = .ok chars) :
    load (some bytes) s =
      (Source.statements (Text.lines chars)).forM (fun text => add text.1 text.2) s := by
  have hcontains : s.path.toList.contains '\x00' = false := by simpa using hnull
  simp only [load, get_bind, hpath, hcontains, hbytes, ne_eq, not_false_eq_true, if_true]
  rfl

/-- The words are those of a text that is read as the term. -/
def Means (constants : Source.Constants) (ws : List Word) (e : Term) : Prop :=
  ∃ text, Source.words text = .ok ws ∧ Source.read constants text = .ok e

theorem Means.whole {constants : Source.Constants} {ws : List Word} {e : Term}
    (h : Means constants ws e) : Source.Whole ws := by
  obtain ⟨text, hwords, hread⟩ := h
  obtain ⟨ts, htokens, hderives⟩ := Source.read_eq_ok_iff.mp hread
  obtain rfl : ts.map Token.word = ws := by simpa [Source.words, htokens, Except.map] using hwords
  exact hderives.whole (Source.wellFormed_of_tokenize htokens)

theorem Means.read {constants : Source.Constants} {ws : List Word} {e : Term}
    (h : Means constants ws e) {text : String} (htext : Spells text.toList ws) :
    Source.read constants text = .ok e := by
  obtain ⟨text', hwords, hread⟩ := h
  exact Source.read_of_spells (Spells.iff_words.mpr hwords) htext hread

theorem read_of_means {constants : Source.Constants} {texts : List (String × Nat)}
    {sts : List (Nat × List Word)} {terms : List Term}
    (htexts : List.Forall₂ (fun text st => text.2 = st.1 ∧ Spells text.1.toList st.2) texts sts)
    (hterms : List.Forall₂ (fun st e => Means constants st.2 e) sts terms) :
    List.Forall₂ (fun text e => Source.read constants text.1 = .ok e) texts terms ∧
      texts.map (·.2) = sts.map (·.1) ∧
      (List.zipWith (fun text e => ((text.2 : Int), (⟨text.1, e⟩ : Statement))) texts terms).map
          (fun queued => (queued.1, queued.2.term)) =
        List.zipWith (fun st e => ((st.1 : Int), e)) sts terms := by
  induction htexts generalizing terms with
  | nil =>
      cases hterms
      exact ⟨.nil, rfl, rfl⟩
  | cons htext _ ih =>
      obtain ⟨hnumber, hspells⟩ := htext
      cases hterms with
      | cons hterm hterms =>
          obtain ⟨hread, hnumbers, hqueue⟩ := ih hterms
          refine ⟨.cons (hterm.read hspells) hread, ?_, ?_⟩
          · rw [List.map_cons, List.map_cons, hnumber, hnumbers]
          · rw [List.zipWith_cons_cons, List.zipWith_cons_cons, List.map_cons, hqueue, hnumber]

/-- The layout of a file does not matter: lines in which statements are laid out are queued as the
terms of the statements, in order and each under the number of the line on which it starts, and so
is a file that consists of these lines. -/
theorem load_of_laid {s : Session} (hqueue : s.queue = []) {lines : List String}
    {sts : List (Nat × List Word)} (hlaid : Laid 1 lines sts) {terms : List Term}
    (hterms : List.Forall₂ (fun st e => Means s.settings.constants st.2 e) sts terms) :
    ∃ console queue,
      (Source.statements lines).forM (fun text => add text.1 text.2) s =
        .ok () { s with console := console, queue := queue } ∧
      queue.map (fun queued => (queued.1, queued.2.term)) =
        List.zipWith (fun st e => ((st.1 : Int), e)) sts terms ∧
      ∀ bytes chars, Text.Utf8.decode bytes = .ok chars → Text.lines chars = lines →
        s.path ≠ userPath → '\x00' ∉ s.path.toList →
        load (some bytes) s = .ok () { s with console := console, queue := queue } := by
  obtain ⟨hwhole, -⟩ := (List.forall₂_and_left sts terms).mp (hterms.imp fun st e h => ⟨h.whole, h⟩)
  obtain ⟨hread, hnumbers, hzip⟩ := read_of_means (hlaid.statements_eq hwhole) hterms
  have hnodup : ((Source.statements lines).map (·.2)).Nodup := hnumbers ▸ hlaid.numbers.2
  obtain ⟨console, hadd⟩ := forM_add hread hnodup (by simp [hqueue])
  rw [hqueue, List.nil_append] at hadd
  refine ⟨console, _, hadd, hzip, fun bytes chars hbytes hlines hpath hnull => ?_⟩
  rw [load_of_decode hpath hnull hbytes, hlines]
  exact hadd

/-- A statement over several lines, with a comment and a blank line in it, and one on a line. -/
def scattered : List String :=
  [";; two statements", "((λx. ;; the function", "", "  (x", "+ 1)) 2)", "", "  true ;; a constant"]

/-- The words of the statements in these lines. -/
def scatteredWords : List (Nat × List Word) :=
  [(2, [(.symbol, "("), (.symbol, "("), (.symbol, "λ"), (.identifier, "x"), (.symbol, "."),
      (.symbol, "("), (.identifier, "x"), (.symbol, "+"), (.number, "1"), (.symbol, ")"),
      (.symbol, ")"), (.number, "2"), (.symbol, ")")]),
    (7, [(.identifier, "true")])]

def scatteredTerms : List Term :=
  [.app (.lam (some "x") none (.op .add (.var (some "x")) (.num 1))) (.num 2), .const "true" .bool]

theorem laid_scattered : Laid 1 scattered scatteredWords := by
  have hstart : Holds "((λx. ;; the function" [(.symbol, "("), (.symbol, "("), (.symbol, "λ"),
      (.identifier, "x"), (.symbol, ".")] :=
    .of_words_comment "((λx. " " the function" (by rfl) (by decide +kernel)
  have hempty : Holds "" [] := .of_words (by decide +kernel)
  have hbody : Holds "  (x" [(.symbol, "("), (.identifier, "x")] := .of_words (by decide +kernel)
  have hend : Holds "+ 1)) 2)" [(.symbol, "+"), (.number, "1"), (.symbol, ")"), (.symbol, ")"),
      (.number, "2"), (.symbol, ")")] :=
    .of_words (by decide +kernel)
  have hconstant : Holds "  true ;; a constant" [(.identifier, "true")] :=
    .of_words_comment "  true " " a constant" (by rfl) (by decide +kernel)
  have hlast : Laid 7 ["  true ;; a constant"] [(7, [(.identifier, "true")])] :=
    .statement [] hconstant (by simp) .nil (.done 8)
  refine .blank ?_ (.statement ["", "  (x", "+ 1)) 2)", ""] hstart (by simp)
    (.cons hempty (.cons hbody (.cons hend (.cons hempty .nil)))) hlast)
  exact .of_words_comment "" " two statements" (by rfl) (by decide +kernel)

theorem load_of_laid_scattered :
    Laid 1 scattered scatteredWords ∧
      List.Forall₂ (fun st e => Means ({} : Settings).constants st.2 e) scatteredWords
        scatteredTerms ∧
      ∃ console queue, (Source.statements scattered).forM (fun text => add text.1 text.2)
          (start {} {} "file" false) =
        .ok () { start {} {} "file" false with console := console, queue := queue } ∧
      queue.map (fun queued => (queued.1, queued.2.term)) =
        List.zipWith (fun st e => ((st.1 : Int), e)) scatteredWords scatteredTerms := by
  have hmeans : List.Forall₂ (fun st e => Means ({} : Settings).constants st.2 e) scatteredWords
      scatteredTerms := by
    refine .cons ⟨"((λx. (x + 1)) 2)", by decide +kernel, by decide +kernel⟩ ?_
    exact .cons ⟨"true", by decide +kernel, by decide +kernel⟩ .nil
  obtain ⟨console, queue, hadd, hqueue, -⟩ :=
    load_of_laid (s := start {} {} "file" false) rfl laid_scattered hmeans
  exact ⟨laid_scattered, hmeans, console, queue, hadd, hqueue⟩

end LambdaMachine.Session
