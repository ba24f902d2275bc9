import LambdaMachine.Proofs.Source.Words
import LambdaMachine.Text.Slice

namespace LambdaMachine

namespace Text

/-- A text of blanks, which may be empty. -/
def AllBlank (s : String) : Prop :=
  ∀ c ∈ s.toList, isBlank c = true

theorem position_of_le {length n : Nat} (h : n ≤ length) : position length n = n := by
  rw [position, if_neg (by omega), Int.toNat_natCast, min_eq_left h]

theorem between_of_append {s : String} {before word after : List Char}
    (h : s.toList = before ++ (word ++ after)) :
    between s before.length (before.length + word.length : Nat) = String.ofList word := by
  have hlength : s.length = before.length + (word.length + after.length) := by
    rw [← String.length_toList, h, List.length_append, List.length_append]
  rw [between, position_of_le (by omega), position_of_le (by omega), h, ← List.append_assoc,
    ← List.length_append, List.take_left, List.drop_left]

end Text

namespace Source

section Spans

variable {place stop : Nat} {cs rest : List Char} {ts : List Token}

theorem Lexes.increasing (h : Lexes place cs ts stop rest) :
    ts.Pairwise fun t u => t.stop ≤ u.start := by
  induction h with
  | done => exact .nil
  | blank _ _ ih => exact ih
  | @token place _ kind word _ _ _ _ h ih =>
      refine .cons (fun u hu => ?_) ih
      simpa [Token.stop] using (h.span u hu).1

theorem Lexes.exists_split (h : Lexes place cs ts stop rest) {t : Token} (ht : t ∈ ts) :
    ∃ before after, cs = before ++ (t.text.toList ++ after) ∧ t.start = place + before.length := by
  induction h with
  | done => cases ht
  | @blank _ _ c _ _ _ _ _ ih =>
      obtain ⟨before, after, rfl, hstart⟩ := ih ht
      refine ⟨c :: before, after, rfl, ?_⟩
      rw [hstart, List.length_cons]
      omega
  | @token _ _ _ word cs _ _ _ _ ih =>
      rcases List.mem_cons.mp ht with rfl | ht
      · exact ⟨[], cs, by simp, rfl⟩
      · obtain ⟨before, after, rfl, hstart⟩ := ih ht
        refine ⟨word ++ before, after, by simp, ?_⟩
        rw [hstart, List.length_append]
        omega

theorem Lexes.isBlank_of_outside (h : Lexes place cs ts stop []) {i : Nat} {c : Char}
    (hc : cs[i]? = some c) (hout : ∀ t ∈ ts, ¬ (t.start ≤ place + i ∧ place + i < t.stop)) :
    Text.isBlank c = true := by
  generalize hrest : [] = rest at h
  induction h generalizing i with
  | done =>
      subst hrest
      simp at hc
  | @blank place _ d cs _ _ hd _ ih =>
      cases i with
      | zero =>
          cases hc
          exact hd
      | succ i =>
          refine ih (i := i) hc (fun t ht => ?_) hrest
          rw [Nat.add_right_comm]
          exact hout t ht
  | @token place _ kind word cs _ _ _ _ ih =>
      have hhead := hout _ List.mem_cons_self
      simp only [Token.stop, String.length_ofList] at hhead
      obtain ⟨k, rfl⟩ := Nat.exists_eq_add_of_le (show word.length ≤ i by omega)
      rw [List.getElem?_append_right (Nat.le_add_right _ _), Nat.add_sub_cancel_left] at hc
      refine ih (i := k) hc (fun t ht => ?_) hrest
      rw [Nat.add_assoc]
      exact hout t (List.mem_cons_of_mem _ ht)

/-- Tokens cover a text: none of them is empty, they lie in the text one behind the other, each is
spelled at its place, and all characters between them are blanks. -/
structure Covers (text : String) (ts : List Token) : Prop where
  nonempty : ∀ t ∈ ts, t.text ≠ "" ∧ t.start < t.stop
  increasing : ts.Pairwise fun t u => t.stop ≤ u.start
  within : ∀ t ∈ ts, t.stop ≤ text.length
  spelled : ∀ t ∈ ts, Text.between text t.start t.stop = t.text
  blank : ∀ (i : Nat) (c : Char), text.toList[i]? = some c →
    (∀ t ∈ ts, ¬ (t.start ≤ i ∧ i < t.stop)) → Text.isBlank c = true

theorem Lexes.covers {text : String} (h : Lexes 0 text.toList ts stop []) : Covers text ts where
  nonempty t ht := by
    have hlt := (h.span t ht).2.1
    refine ⟨fun hempty => ?_, hlt⟩
    simp [Token.stop, hempty] at hlt
  increasing := h.increasing
  within t ht := by
    have hstop := (h.span t ht).2.2
    rwa [String.length_toList, Nat.zero_add] at hstop
  spelled t ht := by
    obtain ⟨before, after, htext, hstart⟩ := h.exists_split ht
    rw [Token.stop, hstart, Nat.zero_add, ← String.length_toList, Text.between_of_append htext,
      String.ofList_toList]
  blank i c hc hout := by
    refine h.isBlank_of_outside hc ?_
    simpa using hout

end Spans

section Layout

theorem Lexeme.before_blanks {kind : Kind} {word rest rest' : List Char}
    (h : Lexeme kind word rest) (hrest : ∀ c ∈ rest'.head?, Text.isBlank c = true) :
    Lexeme kind word rest' := by
  have hends : ∀ p : Char → Bool, (∀ c, p c = true → Text.isBlank c = false) → Ends p rest' := by
    intro p hp c hc
    rw [← Bool.not_eq_true]
    intro hpc
    simpa [hp c hpc] using hrest c hc
  cases h with
  | number hc hdigits => exact .number hc hdigits (hends _ fun _ => Text.isBlank_of_isDigit)
  | word hc hparts => exact .word hc hparts (hends _ fun _ => Text.isBlank_of_isNamePart)
  | arrow => exact .arrow rest'
  | symbol hc => exact .symbol hc rest'

theorem Spells.blanks {lead cs : List Char} {ws : List Word} (h : Spells cs ws)
    (hlead : ∀ c ∈ lead, Text.isBlank c = true) : Spells (lead ++ cs) ws := by
  induction lead with
  | nil => exact h
  | cons c lead ih =>
      rw [List.forall_mem_cons] at hlead
      exact .blank hlead.1 (ih hlead.2)

/-- Texts one behind the other, with the given gaps between them. -/
def spaced (gap : Nat → String) : List String → String
  | [] => ""
  | [text] => text
  | text :: next :: texts => text ++ gap 0 ++ spaced (fun i => gap (i + 1)) (next :: texts)

theorem spells_spaced {ts : List Token} (hts : ∀ t ∈ ts, t.WellFormed) {gap : Nat → String}
    (hgap : ∀ i, gap i ≠ "" ∧ Text.AllBlank (gap i)) {trail : String}
    (htrail : Text.AllBlank trail) :
    Spells ((spaced gap (ts.map Token.text)).toList ++ trail.toList) (ts.map Token.word) := by
  have hend : Spells trail.toList [] := by
    simpa using Spells.nil.blanks htrail
  induction ts generalizing gap with
  | nil => exact hend
  | cons t ts ih =>
      rw [List.forall_mem_cons] at hts
      obtain ⟨ht, hts⟩ := hts
      have hword : ∀ {cs ws}, (∀ c ∈ cs.head?, Text.isBlank c = true) → Spells cs ws →
          Spells (t.text.toList ++ cs) (t.word :: ws) := by
        intro cs ws hcs h
        have hspells := Spells.word (ht.before_blanks hcs) h
        rwa [String.ofList_toList] at hspells
      cases ts with
      | nil => exact hword (fun c hc => htrail c (List.mem_of_mem_head? hc)) hend
      | cons u us =>
          obtain ⟨hne, hblank⟩ := hgap 0
          have hrest := (ih hts fun i => hgap (i + 1)).blanks hblank
          have hnext := hword (fun c hc => ?_) hrest
          · simpa [spaced] using hnext
          · rw [List.head?_append_of_ne_nil _ (by simpa using hne)] at hc
            exact hblank c (List.mem_of_mem_head? hc)

end Layout

/-- Tokenization loses nothing and does not depend on the layout. The tokens of a text cover it, and
their texts have tokens of the same kinds and texts if they are laid out with any blanks between
them, before the first and behind the last one. -/
theorem tokenize_lossless {text : String} {ts : List Token} (h : tokenize text = .ok ts) :
    Covers text ts ∧
    ∀ (lead trail : String) (gap : Nat → String), Text.AllBlank lead → Text.AllBlank trail →
      (∀ i, gap i ≠ "" ∧ Text.AllBlank (gap i)) →
      ∃ ts', tokenize (lead ++ spaced gap (ts.map Token.text) ++ trail) = .ok ts' ∧
        ts'.map Token.word = ts.map Token.word := by
  obtain ⟨stop, hlexes⟩ := tokenize_eq_ok_iff.mp h
  refine ⟨hlexes.covers, fun lead trail gap hlead htrail hgap => Spells.iff_tokenize.mp ?_⟩
  have hspells := (spells_spaced hlexes.wellFormed hgap htrail).blanks hlead
  simpa using hspells

/-- Tokens that touch each other are kept apart by an ideographic space. -/
theorem tokenize_lossless_touching :
    let ts : List Token := [⟨.number, "1٢", 0⟩, ⟨.identifier, "lambda₀", 2⟩, ⟨.arrow, "->", 9⟩,
      ⟨.symbol, "lambda", 11⟩]
    tokenize "1٢lambda₀->lambda" = .ok ts ∧ Covers "1٢lambda₀->lambda" ts ∧
      ∃ ts', tokenize ("\t" ++ spaced (fun _ => "　") (ts.map Token.text) ++ "") = .ok ts' ∧
        ts'.map Token.word = ts.map Token.word := by
  intro ts
  have htokens : tokenize "1٢lambda₀->lambda" = .ok ts := by decide +kernel
  obtain ⟨hcovers, hlayout⟩ := tokenize_lossless htokens
  refine ⟨htokens, hcovers, hlayout _ _ _ ?_ ?_ fun _ => ⟨by decide, ?_⟩⟩
  · exact List.all_eq_true.mp rfl
  · exact List.all_eq_true.mp rfl
  · exact List.all_eq_true.mp rfl

end Source

end LambdaMachine
