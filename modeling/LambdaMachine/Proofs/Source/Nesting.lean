import LambdaMachine.Proofs.Source.Words

namespace LambdaMachine.Source

/-- By how much a word changes the number of open parentheses. -/
def Word.weight (w : Word) : Int :=
  if w.2 = "(" then 1 else if w.2 = ")" then -1 else 0

/-- How many more parentheses some words open than they close. -/
def nesting : List Word → Int
  | [] => 0
  | w :: ws => w.weight + nesting ws

@[simp] theorem nesting_nil : nesting [] = 0 :=
  rfl

@[simp] theorem nesting_cons (w : Word) (ws : List Word) :
    nesting (w :: ws) = w.weight + nesting ws :=
  rfl

@[simp] theorem nesting_append (ws us : List Word) :
    nesting (ws ++ us) = nesting ws + nesting us := by
  induction ws with
  | nil => simp
  | cons w ws ih => simp [ih, Int.add_assoc]

/-- Words that close every parenthesis that they open, and no other. -/
structure Balanced (ws : List Word) : Prop where
  total : nesting ws = 0
  part : ∀ us vs, ws = us ++ vs → 0 ≤ nesting us

theorem balanced_nil : Balanced [] :=
  ⟨rfl, fun us vs h => by simp [(List.append_eq_nil_iff.mp h.symm).1]⟩

theorem balanced_single {w : Word} (h : w.weight = 0) : Balanced [w] := by
  refine ⟨by simp [h], fun us vs hsplit => ?_⟩
  cases us with
  | nil => simp
  | cons u us =>
      obtain ⟨rfl, hnil⟩ := List.cons.inj hsplit
      simp [h, (List.append_eq_nil_iff.mp hnil.symm).1]

theorem Balanced.append {ws ws' : List Word} (h : Balanced ws) (h' : Balanced ws') :
    Balanced (ws ++ ws') := by
  refine ⟨by simp [h.total, h'.total], fun us vs hsplit => ?_⟩
  rcases List.append_eq_append_iff.mp hsplit with ⟨us', rfl, hus'⟩ | ⟨vs', hws, -⟩
  · have hpart := h'.part us' vs hus'
    rw [nesting_append, h.total]
    omega
  · exact h.part us vs' hws

/-- A single word that is no parenthesis, or balanced words in parentheses. -/
inductive Whole : List Word → Prop where
  | single {w : Word} (h : w.weight = 0) : Whole [w]
  | enclosed {l r : Word} {ws : List Word} (hl : l.2 = "(") (h : Balanced ws) (hr : r.2 = ")") :
      Whole (l :: (ws ++ [r]))

theorem weight_open {w : Word} (h : w.2 = "(") : w.weight = 1 := by
  simp [Word.weight, h]

theorem weight_close {w : Word} (h : w.2 = ")") : w.weight = -1 := by
  simp [Word.weight, h]

namespace Whole

variable {ws us vs : List Word}

theorem open_of_split (h : Whole ws) (hsplit : ws = us ++ vs) (hus : us ≠ []) (hvs : vs ≠ []) :
    0 < nesting us := by
  obtain ⟨u, us, rfl⟩ := List.exists_cons_of_ne_nil hus
  obtain rfl | ⟨vs, v, rfl⟩ := List.eq_nil_or_concat' vs
  · exact absurd rfl hvs
  cases h with
  | single => simp at hsplit
  | @enclosed l r ws hl h hr =>
      rw [List.cons_append, List.cons.injEq, ← List.append_assoc] at hsplit
      obtain ⟨rfl, hsplit⟩ := hsplit
      have hinner : ws = us ++ vs := (List.append_inj' hsplit rfl).1
      have hpart := h.part us vs hinner
      rw [nesting_cons, weight_open hl]
      omega

theorem ne_nil (h : Whole ws) : ws ≠ [] := by
  cases h <;> simp

theorem balanced (h : Whole ws) : Balanced ws := by
  have htotal : nesting ws = 0 := by
    cases h with
    | single h => simp [h]
    | enclosed hl h hr => simp [weight_open hl, weight_close hr, h.total]
  refine ⟨htotal, fun us vs hsplit => ?_⟩
  by_cases hus : us = []
  · simp [hus]
  by_cases hvs : vs = []
  · obtain rfl : ws = us := by rw [hsplit, hvs, List.append_nil]
    exact Int.le_of_eq htotal.symm
  · exact Int.le_of_lt (h.open_of_split hsplit hus hvs)

end Whole

theorem Token.WellFormed.weight_word {t : Token} (h : t.WellFormed) (hkind : t.kind ≠ .symbol) :
    t.word.weight = 0 := by
  have hopen : t.text ≠ "(" := fun htext => hkind (h.symbol (by simp [htext]))
  have hclose : t.text ≠ ")" := fun htext => hkind (h.symbol (by simp [htext]))
  simp [Word.weight, Token.word, hopen, hclose]

theorem DerivesType.balanced {isArrow : Bool} {ts : List Token} {type : Ty}
    (h : DerivesType isArrow ts type) (hts : ∀ t ∈ ts, t.WellFormed) :
    Balanced (ts.map Token.word) := by
  induction h with
  | @name t h => exact balanced_single ((hts t (by simp)).weight_word (by simp [h]))
  | @group l r isArrow ts type hl _ hr ih =>
      have hinner := ih fun t ht => hts t (by simp [ht])
      have hwhole : Whole (l.word :: (ts.map Token.word ++ [r.word])) := .enclosed hl hinner hr
      simpa using hwhole.balanced
  | @arrow a isArrow ds cs domain codomain _ ha _ ihd ihc =>
      have hd := ihd fun t ht => hts t (by simp [ht])
      have hc := ihc fun t ht => hts t (by simp [ht])
      have harrow : Balanced [a.word] :=
        balanced_single ((hts a (by simp)).weight_word (by simp [ha]))
      simpa using hd.append (harrow.append hc)

theorem DerivesAnnotation.balanced {ts : List Token} {ann : Option Ty}
    (h : DerivesAnnotation ts ann) (hts : ∀ t ∈ ts, t.WellFormed) :
    Balanced (ts.map Token.word) := by
  cases h with
  | none => exact balanced_nil
  | @some k isArrow ts type hk h =>
      have hcolon : Balanced [k.word] := balanced_single (by simp [Word.weight, Token.word, hk])
      exact hcolon.append (h.balanced fun t ht => hts t (by simp [ht]))

theorem Derives.whole {constants : Constants} {bound : List String} {ts : List Token} {e : Term}
    (h : Derives constants bound ts e) (hts : ∀ t ∈ ts, t.WellFormed) :
    Whole (ts.map Token.word) := by
  induction h with
  | @number bound t h => exact .single ((hts t (by simp)).weight_word (by simp [h]))
  | @constant bound t type h => exact .single ((hts t (by simp)).weight_word (by simp [h]))
  | @«variable» bound t h => exact .single ((hts t (by simp)).weight_word (by simp [h]))
  | @abstraction bound l lambda param dot r as ts ann body hl hlambda hparam hann hdot _ hr ih =>
      have hlambda' : Balanced [lambda.word] := by
        refine balanced_single ?_
        have htext : lambda.text = "lambda" ∨ lambda.text = "λ" := by
          simpa [Token.isLambda] using hlambda
        rcases htext with htext | htext <;> simp [Word.weight, Token.word, htext]
      have hparam' : Balanced [param.word] :=
        balanced_single ((hts param (by simp)).weight_word (by simp [hparam]))
      have hdot' : Balanced [dot.word] := balanced_single (by simp [Word.weight, Token.word, hdot])
      have hann' := hann.balanced fun t ht => hts t (by simp [ht])
      have hbody := (ih fun t ht => hts t (by simp [ht])).balanced
      have hwhole := Whole.enclosed (l := l.word) (r := r.word) hl
        (hlambda'.append (hparam'.append (hann'.append (hdot'.append hbody)))) hr
      simpa using hwhole
  | @application bound l r fs as func arg hl _ _ hr ihf iha =>
      have hfunc := (ihf fun t ht => hts t (by simp [ht])).balanced
      have harg := (iha fun t ht => hts t (by simp [ht])).balanced
      have hwhole := Whole.enclosed (l := l.word) (r := r.word) hl (hfunc.append harg) hr
      simpa using hwhole
  | @operation bound l s r ls rs o left right hl _ hs _ hr ihl ihr =>
      have hleft := (ihl fun t ht => hts t (by simp [ht])).balanced
      have hright := (ihr fun t ht => hts t (by simp [ht])).balanced
      have hop : Balanced [s.word] := by
        refine balanced_single ?_
        cases o <;> simp [Word.weight, Token.word, hs, Op.symbol]
      have hwhole := Whole.enclosed (l := l.word) (r := r.word) hl
        (hleft.append (hop.append hright)) hr
      simpa using hwhole

theorem count_blank {c d : Char} (hc : Text.isBlank c = true) (hd : Text.isBlank d = false)
    (cs : List Char) : (c :: cs).count d = cs.count d := by
  refine List.count_cons_of_ne ?_
  rintro rfl
  simp [hc] at hd

theorem Lexeme.count_eq {kind : Kind} {word rest : List Char} (h : Lexeme kind word rest) {d : Char}
    (hd : d = '(' ∨ d = ')') :
    word.count d = if String.ofList word = String.ofList [d] then 1 else 0 := by
  split_ifs with hword
  · rw [String.ofList_injective hword]
    simp
  · rw [List.count_eq_zero]
    intro hmem
    have hsingle : word = [d] := by
      rcases hd with rfl | rfl
      · exact (h.eq_singleton hmem (by decide) (by decide) (by decide)).1
      · exact (h.eq_singleton hmem (by decide) (by decide) (by decide)).1
    exact hword (by rw [hsingle])

theorem Spells.nesting_eq {cs : List Char} {ws : List Word} (h : Spells cs ws) :
    (cs.count '(' : Int) - cs.count ')' = nesting ws := by
  induction h with
  | nil => rfl
  | blank hc _ ih =>
      rw [count_blank hc (by decide), count_blank hc (by decide)]
      exact ih
  | @word kind word cs ws hword _ ih =>
      have hopen : word.count '(' = if String.ofList word = "(" then 1 else 0 :=
        hword.count_eq (.inl rfl)
      have hclose : word.count ')' = if String.ofList word = ")" then 1 else 0 :=
        hword.count_eq (.inr rfl)
      rw [List.count_append, List.count_append, hopen, hclose, nesting_cons, Word.weight, ← ih]
      have hone : String.ofList word = "(" → String.ofList word ≠ ")" := by
        intro hword
        rw [hword]
        decide
      split_ifs with hopens hcloses
      · exact absurd hcloses (hone hopens)
      all_goals omega

theorem isOpen_eq {text : String} {ws : List Word} (h : Spells text.toList ws) :
    isOpen text = decide (0 < nesting ws) := by
  have hnesting := h.nesting_eq
  unfold isOpen
  congr 1
  apply propext
  omega

theorem Whole.isOpen_eq_false {ws : List Word} (hwhole : Whole ws) {text : String}
    (h : Spells text.toList ws) : isOpen text = false := by
  rw [isOpen_eq h, hwhole.balanced.total]
  exact decide_eq_false (Int.lt_irrefl 0)

end LambdaMachine.Source
