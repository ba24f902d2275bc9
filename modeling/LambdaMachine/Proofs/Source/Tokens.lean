import LambdaMachine.Source.Token
import Mathlib.Data.List.TakeWhile

namespace LambdaMachine

namespace Text

theorem isDigit_iff {c : Char} :
    isDigit c = true ↔ ∃ first ∈ zeroDigits, first ≤ c.toNat ∧ c.toNat < first + 10 := by
  simp [isDigit, digitValue?]

theorem isDigit_of_ascii {c : Char} (h : c.isDigit = true) : isDigit c = true := by
  rw [Char.isDigit_iff_toNat] at h
  have hzero : '0'.toNat = 48 := rfl
  have hnine : '9'.toNat = 57 := rfl
  exact isDigit_iff.mpr ⟨0x30, by simp [zeroDigits], by omega, by omega⟩

theorem isDigit_eq_false_of_lt {c : Char} (h : c.toNat < 0x30 ∨ 0x39 < c.toNat)
    (hlt : c.toNat < 0x660) : isDigit c = false := by
  rw [← Bool.not_eq_true, isDigit_iff]
  rintro ⟨first, hmem, hle, hlt'⟩
  have hfirst : ∀ first ∈ zeroDigits, first = 0x30 ∨ 0x660 ≤ first := by decide
  have := hfirst first hmem
  omega

theorem isBlank_of_isDigit {c : Char} (h : isDigit c = true) : isBlank c = false := by
  obtain ⟨first, hmem, hle, hlt⟩ := isDigit_iff.mp h
  -- no block of ten digits meets a block of blanks
  have hblocks : ∀ first ∈ zeroDigits, (13 < first ∧ first + 9 < 0x1c) ∨
      (0x20 < first ∧ first + 9 < 0x85) ∨ (0xa0 < first ∧ first + 9 < 0x1680) ∨
      (0x1680 < first ∧ first + 9 < 0x2000) ∨ 0x3000 < first := by decide
  have := hblocks first hmem
  simp only [isBlank, Bool.or_eq_false_iff, Bool.and_eq_false_iff, decide_eq_false_iff_not,
    beq_eq_false_iff_ne]
  omega

end Text

namespace Source

/-- A text that does not go on with a character of a kind. -/
def Ends (p : Char → Bool) (rest : List Char) : Prop :=
  ∀ c ∈ rest.head?, p c = false

theorem ends_nil (p : Char → Bool) : Ends p [] := by
  simp [Ends]

theorem ends_cons {p : Char → Bool} {c : Char} {cs : List Char} :
    Ends p (c :: cs) ↔ p c = false := by
  simp [Ends]

theorem ends_dropWhile (p : Char → Bool) (cs : List Char) : Ends p (cs.dropWhile p) := by
  intro c hc
  have := List.head?_dropWhile_not p cs
  rw [Option.mem_def.mp hc] at this
  simpa using this

theorem takeWhile_append_of_ends {p : Char → Bool} {word rest : List Char}
    (hword : ∀ c ∈ word, p c = true) (hrest : Ends p rest) :
    (word ++ rest).takeWhile p = word := by
  rw [List.takeWhile_append_of_pos hword]
  cases rest with
  | nil => simp
  | cons c cs => simp [ends_cons.mp hrest]

theorem dropWhile_append_of_ends {p : Char → Bool} {word rest : List Char}
    (hword : ∀ c ∈ word, p c = true) (hrest : Ends p rest) :
    (word ++ rest).dropWhile p = rest := by
  rw [List.dropWhile_append_of_pos hword]
  cases rest with
  | nil => simp
  | cons c cs => simp [ends_cons.mp hrest]

theorem toNat_of_isNameStart {c : Char} (h : isNameStart c = true) :
    65 ≤ c.toNat ∧ c.toNat ≤ 122 := by
  delta isNameStart Char.isAlpha Char.isUpper Char.isLower at h
  simp only [UInt32.le_iff_toNat_le, ge_iff_le, Bool.or_eq_true, Bool.and_eq_true,
    decide_eq_true_eq, beq_iff_eq] at h
  rcases h with (⟨hle, hle'⟩ | ⟨hle, hle'⟩) | rfl
  · exact ⟨hle, hle'.trans (by decide)⟩
  · exact ⟨le_trans (by decide) hle, hle'⟩
  · decide

theorem isDigit_of_isNameStart {c : Char} (h : isNameStart c = true) : Text.isDigit c = false := by
  have := toNat_of_isNameStart h
  exact Text.isDigit_eq_false_of_lt (by omega) (by omega)

theorem isSymbol_cases {c : Char} (h : isSymbol c = true) :
    c = '(' ∨ c = ')' ∨ c = 'λ' ∨ c = '.' ∨ c = ':' ∨ c = '+' ∨ c = '*' := by
  simpa [isSymbol] using h

/-- The words that are tokens of a kind where they are followed by a text. -/
inductive Lexeme : Kind → List Char → List Char → Prop where
  | number {c : Char} {digits rest : List Char} (hc : Text.isDigit c = true)
      (hdigits : ∀ d ∈ digits, Text.isDigit d = true) (hrest : Ends Text.isDigit rest) :
      Lexeme .number (c :: digits) rest
  | word {c : Char} {parts rest : List Char} (hc : isNameStart c = true)
      (hparts : ∀ d ∈ parts, isNamePart d = true) (hrest : Ends isNamePart rest) :
      Lexeme (wordKind (c :: parts)) (c :: parts) rest
  | arrow (rest : List Char) : Lexeme .arrow ['-', '>'] rest
  | symbol {c : Char} (hc : isSymbol c = true) (rest : List Char) : Lexeme .symbol [c] rest

namespace Lexeme

variable {kind : Kind} {word rest : List Char}

theorem isolated (h : Lexeme kind word rest) : Lexeme kind word [] := by
  cases h with
  | number hc hdigits => exact .number hc hdigits (ends_nil _)
  | word hc hparts => exact .word hc hparts (ends_nil _)
  | arrow => exact .arrow []
  | symbol hc => exact .symbol hc []

theorem exists_cons (h : Lexeme kind word rest) :
    ∃ c cs, word = c :: cs ∧ Text.isBlank c = false := by
  cases h with
  | number hc => exact ⟨_, _, rfl, Text.isBlank_of_isDigit hc⟩
  | @word c parts _ hc =>
      have := toNat_of_isNameStart hc
      refine ⟨c, parts, rfl, ?_⟩
      simp only [Text.isBlank, Bool.or_eq_false_iff, Bool.and_eq_false_iff,
        decide_eq_false_iff_not, beq_eq_false_iff_ne]
      omega
  | arrow => exact ⟨_, _, rfl, by decide⟩
  | symbol hc =>
      refine ⟨_, _, rfl, ?_⟩
      rcases isSymbol_cases hc with rfl | rfl | rfl | rfl | rfl | rfl | rfl <;> decide

end Lexeme

theorem lexeme_of_lexeme? {c : Char} {cs word rest : List Char} {kind : Kind}
    (h : lexeme? c cs = some (kind, word, rest)) :
    c :: cs = word ++ rest ∧ Lexeme kind word rest := by
  unfold lexeme? at h
  split at h
  · rename_i hc
    cases h
    refine ⟨by simp, .number hc (fun d hd => List.mem_takeWhile_imp hd) (ends_dropWhile _ _)⟩
  · split at h
    · rename_i hc
      cases h
      refine ⟨by simp, .word hc (fun d hd => List.mem_takeWhile_imp hd) (ends_dropWhile _ _)⟩
    · split at h
      · cases h
        exact ⟨rfl, .arrow _⟩
      · split at h
        · rename_i hc
          cases h
          exact ⟨rfl, .symbol hc _⟩
        · cases h

theorem lexeme?_of_lexeme {c : Char} {cs word rest : List Char} {kind : Kind}
    (heq : c :: cs = word ++ rest) (h : Lexeme kind word rest) :
    lexeme? c cs = some (kind, word, rest) := by
  cases h with
  | number hc hdigits hrest =>
      cases heq
      simp [lexeme?, hc, takeWhile_append_of_ends hdigits hrest,
        dropWhile_append_of_ends hdigits hrest]
  | word hc hparts hrest =>
      cases heq
      simp [lexeme?, hc, isDigit_of_isNameStart hc, takeWhile_append_of_ends hparts hrest,
        dropWhile_append_of_ends hparts hrest]
  | arrow =>
      cases heq
      rfl
  | symbol hc =>
      cases heq
      rcases isSymbol_cases hc with rfl | rfl | rfl | rfl | rfl | rfl | rfl <;> rfl

/-- A token whose text is a token of its kind by itself. -/
def Token.WellFormed (t : Token) : Prop :=
  Lexeme t.kind t.text.toList []

/-- From a place on, a text is passed through to another place, where the given rest of it starts.
The tokens on the way are collected. -/
inductive Lexes : Nat → List Char → List Token → Nat → List Char → Prop where
  | done (place : Nat) (cs : List Char) : Lexes place cs [] place cs
  | blank {place stop : Nat} {c : Char} {cs rest : List Char} {ts : List Token}
      (hc : Text.isBlank c = true) (h : Lexes (place + 1) cs ts stop rest) :
      Lexes place (c :: cs) ts stop rest
  | token {place stop : Nat} {kind : Kind} {word cs rest : List Char} {ts : List Token}
      (hword : Lexeme kind word cs) (h : Lexes (place + word.length) cs ts stop rest) :
      Lexes place (word ++ cs) (⟨kind, String.ofList word, place⟩ :: ts) stop rest

namespace Lexes

variable {place middle stop : Nat} {cs mid rest : List Char} {ts us : List Token}

theorem trans (h : Lexes place cs ts middle mid) (h' : Lexes middle mid us stop rest) :
    Lexes place cs (ts ++ us) stop rest := by
  induction h with
  | done => exact h'
  | blank hc _ ih => exact .blank hc (ih h')
  | token hword _ ih => exact .token hword (ih h')

theorem wellFormed (h : Lexes place cs ts stop rest) : ∀ t ∈ ts, t.WellFormed := by
  induction h with
  | done => simp
  | blank _ _ ih => exact ih
  | token hword _ ih =>
      intro t ht
      rcases List.mem_cons.mp ht with rfl | ht
      · simpa [Token.WellFormed] using hword.isolated
      · exact ih t ht

theorem span (h : Lexes place cs ts stop rest) :
    ∀ t ∈ ts, place ≤ t.start ∧ t.start < t.stop ∧ t.stop ≤ place + cs.length := by
  induction h with
  | done => simp
  | blank _ _ ih =>
      intro t ht
      obtain ⟨hstart, hlt, hstop⟩ := ih t ht
      rw [List.length_cons]
      exact ⟨by omega, hlt, by omega⟩
  | token hword _ ih =>
      intro t ht
      rw [List.length_append]
      rcases List.mem_cons.mp ht with rfl | ht
      · obtain ⟨c, word, rfl, -⟩ := hword.exists_cons
        simp only [Token.stop, String.length_ofList, List.length_cons]
        omega
      · obtain ⟨hstart, hlt, hstop⟩ := ih t ht
        exact ⟨by omega, hlt, by omega⟩

end Lexes

theorem tokensFrom_of_isBlank {c : Char} (h : Text.isBlank c = true) (place : Nat)
    (cs : List Char) : tokensFrom place (c :: cs) = tokensFrom (place + 1) cs := by
  rw [tokensFrom.eq_def]
  exact if_pos h

theorem tokensFrom_of_lexeme {kind : Kind} {word rest : List Char} (h : Lexeme kind word rest)
    (place : Nat) :
    tokensFrom place (word ++ rest) =
      (tokensFrom (place + word.length) rest).map (⟨kind, String.ofList word, place⟩ :: ·) := by
  obtain ⟨c, cs, rfl, hblank⟩ := h.exists_cons
  have hlexeme : lexeme? c (cs ++ rest) = some (kind, c :: cs, rest) := lexeme?_of_lexeme rfl h
  rw [List.cons_append, tokensFrom.eq_def]
  simp only [hblank, Bool.false_eq_true, if_false]
  split
  · rename_i hnone
    simp [hlexeme] at hnone
  · rename_i hsome
    rw [hlexeme] at hsome
    cases hsome
    cases tokensFrom (place + (c :: cs).length) rest <;> rfl

theorem Lexes.tokensFrom_eq_ok {place stop : Nat} {cs rest : List Char} {ts us : List Token}
    (h : Lexes place cs ts stop rest) (hrest : tokensFrom stop rest = .ok us) :
    tokensFrom place cs = .ok (ts ++ us) := by
  induction h with
  | done => exact hrest
  | blank hc _ ih => rw [tokensFrom_of_isBlank hc, ih hrest]
  | token hword _ ih =>
      rw [tokensFrom_of_lexeme hword, ih hrest]
      rfl

theorem lexes_of_tokensFrom {place : Nat} {cs : List Char} {ts : List Token}
    (h : tokensFrom place cs = .ok ts) : ∃ stop, Lexes place cs ts stop [] := by
  induction hn : cs.length using Nat.strong_induction_on generalizing place cs ts with
  | _ n ih =>
      subst hn
      cases cs with
      | nil =>
          rw [tokensFrom.eq_def] at h
          cases h
          exact ⟨place, .done place []⟩
      | cons c cs =>
          by_cases hc : Text.isBlank c = true
          · rw [tokensFrom_of_isBlank hc] at h
            obtain ⟨stop, hlexes⟩ := ih cs.length (by simp) h rfl
            exact ⟨stop, .blank hc hlexes⟩
          · cases hlexeme : lexeme? c cs with
            | none =>
                rw [tokensFrom.eq_def] at h
                simp only [if_neg hc] at h
                split at h
                · cases h
                · rename_i hsome
                  simp [hlexeme] at hsome
            | some found =>
                obtain ⟨kind, word, rest⟩ := found
                obtain ⟨heq, hword⟩ := lexeme_of_lexeme? hlexeme
                have hlen : rest.length < (c :: cs).length :=
                  Nat.lt_succ_of_le (length_lexeme?_le hlexeme)
                rw [heq] at h ⊢
                rw [tokensFrom_of_lexeme hword] at h
                cases hrest : tokensFrom (place + word.length) rest with
                | error found => simp [hrest, Except.map] at h
                | ok us =>
                    obtain ⟨stop, hlexes⟩ := ih rest.length hlen hrest rfl
                    rw [hrest] at h
                    cases h
                    exact ⟨stop, .token hword hlexes⟩

theorem tokenize_eq_ok_iff {text : String} {ts : List Token} :
    tokenize text = .ok ts ↔ ∃ stop, Lexes 0 text.toList ts stop [] := by
  constructor
  · exact lexes_of_tokensFrom
  · rintro ⟨stop, h⟩
    have hdone : tokensFrom stop [] = .ok [] := by rw [tokensFrom.eq_def]
    have htokens := h.tokensFrom_eq_ok hdone
    rwa [List.append_nil] at htokens

end Source

end LambdaMachine
