import LambdaMachine.Proofs.Source.Content
import LambdaMachine.Proofs.Source.Grammar

namespace LambdaMachine

theorem Text.isBlank_of_isNamePart {c : Char} (h : Source.isNamePart c = true) :
    isBlank c = false := by
  have hrange : 39 ≤ c.toNat ∧ c.toNat ≤ 122 ∨ 0x2080 ≤ c.toNat ∧ c.toNat ≤ 0x2089 := by
    simp only [Source.isNamePart, Char.isAlphanum, Bool.or_eq_true, beq_iff_eq] at h
    rcases h with (((h | h) | rfl) | rfl) | h
    · have := Source.toNat_of_isNameStart (c := c) (by simp [Source.isNameStart, h])
      omega
    · rw [Char.isDigit_iff_toNat] at h
      have hzero : '0'.toNat = 48 := rfl
      have hnine : '9'.toNat = 57 := rfl
      omega
    · decide
    · decide
    · right
      simpa [Name.isSubscript, Name.subscriptValue?] using h
  simp only [isBlank, Bool.or_eq_false_iff, Bool.and_eq_false_iff, decide_eq_false_iff_not,
    beq_eq_false_iff_ne]
  omega

theorem Text.rdropWhile_append (p : Char → Bool) (cs ds : List Char) :
    (cs ++ ds).rdropWhile p =
      if ds.rdropWhile p = [] then cs.rdropWhile p else cs ++ ds.rdropWhile p := by
  simp only [List.rdropWhile, List.reverse_append, List.dropWhile_append, List.isEmpty_iff,
    List.reverse_eq_nil_iff]
  split_ifs <;> simp

namespace Source

theorem isNamePart_of_isNameStart {c : Char} (h : isNameStart c = true) :
    isNamePart c = true := by
  simp only [isNameStart, isNamePart, Char.isAlphanum, Bool.or_eq_true] at h ⊢
  tauto

theorem Lexeme.eq_singleton {kind : Kind} {word rest : List Char} (h : Lexeme kind word rest)
    {d : Char} (hd : d ∈ word) (hdigit : Text.isDigit d = false) (hname : isNamePart d = false)
    (harrow : d ∉ ['-', '>']) : word = [d] ∧ isSymbol d = true := by
  cases h with
  | @number c digits _ hc hdigits =>
      have hall : ∀ x ∈ c :: digits, Text.isDigit x = true := List.forall_mem_cons.mpr ⟨hc, hdigits⟩
      simp [hall d hd] at hdigit
  | @word c parts _ hc hparts =>
      have hall : ∀ x ∈ c :: parts, isNamePart x = true :=
        List.forall_mem_cons.mpr ⟨isNamePart_of_isNameStart hc, hparts⟩
      simp [hall d hd] at hname
  | arrow => exact absurd hd harrow
  | symbol hc =>
      obtain rfl := List.mem_singleton.mp hd
      exact ⟨rfl, hc⟩

theorem Lexeme.not_blank {kind : Kind} {word rest : List Char} (h : Lexeme kind word rest)
    {d : Char} (hd : d ∈ word) : Text.isBlank d = false := by
  by_contra hblank
  rw [Bool.not_eq_false] at hblank
  have hdigit : Text.isDigit d = false := by
    rw [← Bool.not_eq_true]
    intro hdigit
    simp [Text.isBlank_of_isDigit hdigit] at hblank
  have hname : isNamePart d = false := by
    rw [← Bool.not_eq_true]
    intro hname
    simp [Text.isBlank_of_isNamePart hname] at hblank
  have harrow : d ∉ ['-', '>'] := by
    intro harrow
    simp only [List.mem_cons, List.not_mem_nil, or_false] at harrow
    rcases harrow with rfl | rfl <;> revert hblank <;> decide
  have hsymbol := isSymbol_cases (h.eq_singleton hd hdigit hname harrow).2
  rcases hsymbol with rfl | rfl | rfl | rfl | rfl | rfl | rfl <;> revert hblank <;> decide

theorem Lexeme.not_semicolon {kind : Kind} {word rest : List Char} (h : Lexeme kind word rest) :
    ';' ∉ word := by
  intro hd
  have hsymbol := (h.eq_singleton hd (by decide) (by decide) (by decide)).2
  revert hsymbol
  decide

theorem Ends.append_cons {p : Char → Bool} {cs : List Char} (h : Ends p cs) {c : Char}
    (hc : p c = false) (ds : List Char) : Ends p (cs ++ c :: ds) := by
  cases cs with
  | nil => exact ends_cons.mpr hc
  | cons d cs => exact ends_cons.mpr (ends_cons.mp h)

theorem Ends.of_prefix {p : Char → Bool} {cs ds : List Char} (h : Ends p cs) (hds : ds <+: cs) :
    Ends p ds := by
  obtain ⟨rest, rfl⟩ := hds
  cases ds with
  | nil => exact ends_nil p
  | cons d ds => exact ends_cons.mpr (ends_cons.mp h)

theorem Lexeme.of_ends {kind : Kind} {word rest rest' : List Char} (h : Lexeme kind word rest)
    (hends : ∀ p : Char → Bool, p ' ' = false → Ends p rest → Ends p rest') :
    Lexeme kind word rest' := by
  cases h with
  | number hc hdigits hrest => exact .number hc hdigits (hends _ (by decide) hrest)
  | word hc hparts hrest => exact .word hc hparts (hends _ (by decide) hrest)
  | arrow => exact .arrow rest'
  | symbol hc => exact .symbol hc rest'

/-- A word: a token without its position. -/
abbrev Word := Kind × String

def Token.word (t : Token) : Word :=
  (t.kind, t.text)

def words (text : String) : Except Illegal (List Word) :=
  (tokenize text).map (·.map Token.word)

/-- The words that a text spells: where one ends the text does not go on with a character that would
belong to it, and blanks may stand before and behind each of them. -/
inductive Spells : List Char → List Word → Prop where
  | nil : Spells [] []
  | blank {c : Char} {cs : List Char} {ws : List Word} (hc : Text.isBlank c = true)
      (h : Spells cs ws) : Spells (c :: cs) ws
  | word {kind : Kind} {word cs : List Char} {ws : List Word} (hword : Lexeme kind word cs)
      (h : Spells cs ws) : Spells (word ++ cs) ((kind, String.ofList word) :: ws)

theorem Lexes.spells {place stop : Nat} {cs : List Char} {ts : List Token}
    (h : Lexes place cs ts stop []) : Spells cs (ts.map Token.word) := by
  generalize hrest : [] = rest at h
  induction h with
  | done place cs =>
      subst hrest
      exact .nil
  | blank hc _ ih => exact .blank hc (ih hrest)
  | token hword _ ih => exact .word hword (ih hrest)

namespace Spells

variable {cs : List Char} {ws : List Word}

theorem exists_lexes (h : Spells cs ws) (place : Nat) :
    ∃ ts stop, Lexes place cs ts stop [] ∧ ts.map Token.word = ws := by
  induction h generalizing place with
  | nil => exact ⟨[], place, .done place [], rfl⟩
  | blank hc _ ih =>
      obtain ⟨ts, stop, hlexes, rfl⟩ := ih (place + 1)
      exact ⟨ts, stop, .blank hc hlexes, rfl⟩
  | word hword _ ih =>
      obtain ⟨ts, stop, hlexes, rfl⟩ := ih (place + _)
      exact ⟨_, stop, .token hword hlexes, rfl⟩

theorem iff_tokenize {text : String} :
    Spells text.toList ws ↔ ∃ ts, tokenize text = .ok ts ∧ ts.map Token.word = ws := by
  constructor
  · intro h
    obtain ⟨ts, stop, hlexes, hts⟩ := h.exists_lexes 0
    exact ⟨ts, tokenize_eq_ok_iff.mpr ⟨stop, hlexes⟩, hts⟩
  · rintro ⟨ts, htokens, rfl⟩
    obtain ⟨stop, hlexes⟩ := tokenize_eq_ok_iff.mp htokens
    exact hlexes.spells

theorem iff_words {text : String} : Spells text.toList ws ↔ words text = .ok ws := by
  rw [iff_tokenize, words]
  cases tokenize text <;> simp [Except.map]

theorem not_semicolon (h : Spells cs ws) : ';' ∉ cs := by
  induction h with
  | nil => simp
  | @blank c cs ws hc _ ih =>
      have hne : ';' ≠ c := by
        rintro rfl
        revert hc
        decide
      simp [hne, ih]
  | word hword _ ih => simp [hword.not_semicolon, ih]

theorem append {ds : List Char} {us : List Word} (h : Spells cs ws) (h' : Spells ds us) :
    Spells (cs ++ ' ' :: ds) (ws ++ us) := by
  induction h with
  | nil => exact .blank (by decide) h'
  | blank hc _ ih => exact .blank hc ih
  | @word kind word cs ws hword _ ih =>
      rw [List.append_assoc]
      exact .word (hword.of_ends fun p hp hcs => hcs.append_cons hp ds) ih

theorem dropWhile (h : Spells cs ws) : Spells (cs.dropWhile Text.isBlank) ws := by
  induction h with
  | nil => exact .nil
  | blank hc _ ih => simpa [hc] using ih
  | word hword h _ =>
      obtain ⟨c, cs', rfl, hc⟩ := hword.exists_cons
      have hself := Spells.word hword h
      simpa [hc] using hself

theorem rdropWhile (h : Spells cs ws) : Spells (cs.rdropWhile Text.isBlank) ws := by
  induction h with
  | nil => exact .nil
  | @blank c cs ws hc h ih =>
      rw [← List.singleton_append, Text.rdropWhile_append]
      split_ifs with hnil
      · rw [hnil] at ih
        simpa [List.rdropWhile_singleton, hc] using ih
      · exact .blank hc ih
  | @word kind word cs ws hword h ih =>
      have hlast : word.rdropWhile Text.isBlank = word := by
        rw [List.rdropWhile_eq_self_iff]
        intro hne
        simp [hword.not_blank (List.getLast_mem hne)]
      have hself : (word ++ cs).rdropWhile Text.isBlank = word ++ cs.rdropWhile Text.isBlank := by
        rw [Text.rdropWhile_append]
        split_ifs with hnil
        · rw [hlast, hnil, List.append_nil]
        · rfl
      rw [hself]
      -- the word still ends, as less of the text is behind it than before
      exact .word (hword.of_ends fun p _ hcs => hcs.of_prefix (List.rdropWhile_prefix _ _)) ih

theorem trim (h : Spells cs ws) : Spells (Text.trim cs) ws :=
  h.dropWhile.rdropWhile

theorem eq_nil (h : Spells [] ws) : ws = [] := by
  generalize hcs : [] = cs at h
  cases h with
  | nil => rfl
  | blank => cases hcs
  | word hword =>
      obtain ⟨c, cs', rfl, -⟩ := hword.exists_cons
      cases hcs

theorem blank_of_nil (h : Spells cs []) : ∀ c ∈ cs, Text.isBlank c = true := by
  generalize hws : [] = ws at h
  induction h with
  | nil => simp
  | blank hc _ ih => exact List.forall_mem_cons.mpr ⟨hc, ih hws⟩
  | word => cases hws

end Spells

section Derivation

theorem word_eq_iff {t t' : Token} : t'.word = t.word ↔ t'.kind = t.kind ∧ t'.text = t.text :=
  Prod.ext_iff

theorem exists_of_words_singleton {ts' : List Token} {t : Token}
    (h : ts'.map Token.word = [t].map Token.word) :
    ∃ t', ts' = [t'] ∧ t'.kind = t.kind ∧ t'.text = t.text := by
  obtain ⟨t', rfl, ht⟩ := List.map_eq_singleton_iff.mp h
  exact ⟨t', rfl, word_eq_iff.mp ht⟩

theorem DerivesType.of_words {isArrow : Bool} {ts : List Token} {type : Ty}
    (h : DerivesType isArrow ts type) {ts' : List Token}
    (hts : ts'.map Token.word = ts.map Token.word) : DerivesType isArrow ts' type := by
  induction h generalizing ts' with
  | @name t h =>
      obtain ⟨t', rfl, hkind, htext⟩ := exists_of_words_singleton hts
      rw [← htext]
      exact .name (hkind.trans h)
  | @group l r isArrow ts type hl _ hr ih =>
      simp only [List.map_append, List.map_cons, List.map_nil, List.cons_append] at hts
      obtain ⟨l', rest, rfl, hl', hrest⟩ := List.map_eq_cons_iff.mp hts
      obtain ⟨us, rs, rfl, hus, hrs⟩ := List.map_eq_append_iff.mp hrest
      obtain ⟨r', rfl, hr'⟩ := List.map_eq_singleton_iff.mp hrs
      exact .group ((word_eq_iff.mp hl').2.trans hl) (ih hus) ((word_eq_iff.mp hr').2.trans hr)
  | @arrow a isArrow ds cs domain codomain _ ha _ ihd ihc =>
      simp only [List.map_append, List.map_cons] at hts
      obtain ⟨us, rest, rfl, hus, hrest⟩ := List.map_eq_append_iff.mp hts
      obtain ⟨a', vs, rfl, ha', hvs⟩ := List.map_eq_cons_iff.mp hrest
      exact .arrow (ihd hus) ((word_eq_iff.mp ha').1.trans ha) (ihc hvs)

theorem DerivesAnnotation.of_words {ts : List Token} {ann : Option Ty}
    (h : DerivesAnnotation ts ann) {ts' : List Token}
    (hts : ts'.map Token.word = ts.map Token.word) : DerivesAnnotation ts' ann := by
  cases h with
  | none =>
      obtain rfl := List.map_eq_nil_iff.mp hts
      exact .none
  | some hk h =>
      obtain ⟨k', us, rfl, hk', hus⟩ := List.map_eq_cons_iff.mp hts
      exact .some ((word_eq_iff.mp hk').2.trans hk) (h.of_words hus)

theorem Token.isLambda_of_word {t t' : Token} (h : t'.word = t.word) :
    t'.isLambda = t.isLambda := by
  simp only [isLambda, (word_eq_iff.mp h).2]

theorem Derives.of_words {constants : Constants} {bound : List String} {ts : List Token} {e : Term}
    (h : Derives constants bound ts e) {ts' : List Token}
    (hts : ts'.map Token.word = ts.map Token.word) : Derives constants bound ts' e := by
  induction h generalizing ts' with
  | number h =>
      obtain ⟨t', rfl, hkind, htext⟩ := exists_of_words_singleton hts
      rw [← htext]
      exact .number (hkind.trans h)
  | constant h hfound hfree =>
      obtain ⟨t', rfl, hkind, htext⟩ := exists_of_words_singleton hts
      rw [← htext] at hfound hfree ⊢
      exact .constant (hkind.trans h) hfound hfree
  | «variable» h hname =>
      obtain ⟨t', rfl, hkind, htext⟩ := exists_of_words_singleton hts
      rw [← htext] at hname ⊢
      exact .variable (hkind.trans h) hname
  | abstraction hl hlambda hparam hann hdot _ hr ih =>
      simp only [List.map_append, List.map_cons, List.map_nil, List.cons_append,
        List.append_assoc] at hts
      obtain ⟨l', rest, rfl, hl', hts⟩ := List.map_eq_cons_iff.mp hts
      obtain ⟨lambda', rest, rfl, hlambda', hts⟩ := List.map_eq_cons_iff.mp hts
      obtain ⟨param', rest, rfl, hparam', hts⟩ := List.map_eq_cons_iff.mp hts
      obtain ⟨as', rest, rfl, has', hts⟩ := List.map_eq_append_iff.mp hts
      obtain ⟨dot', rest, rfl, hdot', hts⟩ := List.map_eq_cons_iff.mp hts
      obtain ⟨us, rs, rfl, hus, hrs⟩ := List.map_eq_append_iff.mp hts
      obtain ⟨r', rfl, hr'⟩ := List.map_eq_singleton_iff.mp hrs
      obtain ⟨hkind, htext⟩ := word_eq_iff.mp hparam'
      rw [← htext] at ih ⊢
      have hderives := Derives.abstraction ((word_eq_iff.mp hl').2.trans hl)
        ((Token.isLambda_of_word hlambda').trans hlambda) (hkind.trans hparam)
        (hann.of_words has') ((word_eq_iff.mp hdot').2.trans hdot) (ih hus)
        ((word_eq_iff.mp hr').2.trans hr)
      simpa using hderives
  | application hl _ _ hr ihf iha =>
      simp only [List.map_append, List.map_cons, List.map_nil, List.cons_append,
        List.append_assoc] at hts
      obtain ⟨l', rest, rfl, hl', hts⟩ := List.map_eq_cons_iff.mp hts
      obtain ⟨fs', rest, rfl, hfs', hts⟩ := List.map_eq_append_iff.mp hts
      obtain ⟨as', rs, rfl, has', hrs⟩ := List.map_eq_append_iff.mp hts
      obtain ⟨r', rfl, hr'⟩ := List.map_eq_singleton_iff.mp hrs
      have hderives := Derives.application ((word_eq_iff.mp hl').2.trans hl) (ihf hfs') (iha has')
        ((word_eq_iff.mp hr').2.trans hr)
      simpa using hderives
  | operation hl _ hs _ hr ihl ihr =>
      simp only [List.map_append, List.map_cons, List.map_nil, List.cons_append,
        List.append_assoc] at hts
      obtain ⟨l', rest, rfl, hl', hts⟩ := List.map_eq_cons_iff.mp hts
      obtain ⟨ls', rest, rfl, hls', hts⟩ := List.map_eq_append_iff.mp hts
      obtain ⟨s', rest, rfl, hs', hts⟩ := List.map_eq_cons_iff.mp hts
      obtain ⟨rs', es, rfl, hrs', hes⟩ := List.map_eq_append_iff.mp hts
      obtain ⟨r', rfl, hr'⟩ := List.map_eq_singleton_iff.mp hes
      have hderives := Derives.operation ((word_eq_iff.mp hl').2.trans hl) (ihl hls')
        ((word_eq_iff.mp hs').2.trans hs) (ihr hrs') ((word_eq_iff.mp hr').2.trans hr)
      simpa using hderives

end Derivation

theorem read_of_spells {constants : Constants} {text text' : String} {ws : List Word}
    (h : Spells text.toList ws) (h' : Spells text'.toList ws) {e : Term}
    (hread : read constants text = .ok e) : read constants text' = .ok e := by
  obtain ⟨ts, htokens, hderives⟩ := read_eq_ok_iff.mp hread
  obtain ⟨us, husTokens, hus⟩ := Spells.iff_tokenize.mp h
  obtain ⟨ts', htokens', hts'⟩ := Spells.iff_tokenize.mp h'
  obtain rfl : us = ts := by simpa [husTokens] using htokens
  exact read_eq_ok_iff.mpr ⟨ts', htokens', hderives.of_words (hts'.trans hus.symm)⟩

end Source

end LambdaMachine
