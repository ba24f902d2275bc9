import LambdaMachine.Proofs.Source.Grammar
import LambdaMachine.Proofs.Source.Reading
import LambdaMachine.Proofs.Term.Vocabulary

namespace LambdaMachine

namespace Text

theorem digitValue?_of_ascii {c : Char} (h : c.isDigit = true) :
    digitValue? c = some (c.toNat - '0'.toNat) := by
  rw [Char.isDigit_iff_toNat] at h
  have hzero : '0'.toNat = 48 := rfl
  have hnine : '9'.toNat = 57 := rfl
  have hfirst : zeroDigits.find? (fun first => first ≤ c.toNat && c.toNat < first + 10) =
      some 0x30 := by
    rw [zeroDigits, List.find?_cons_of_pos]
    simp only [Bool.and_eq_true, decide_eq_true_eq]
    omega
  simp [digitValue?, hfirst]

theorem toList_toString (n : Nat) : (toString (n : Int)).toList = Nat.toDigits 10 n := by
  change (toString n).toList = _
  simp

theorem natOfDigits_toDigits (n : Nat) : natOfDigits (Nat.toDigits 10 n) = n := by
  have hread : ∀ (digits : List Char) (k : Nat), (∀ c ∈ digits, c.isDigit = true) →
      digits.foldl (fun n c => 10 * n + (digitValue? c).getD 0) k =
        Nat.ofDigitChars 10 digits k := by
    intro digits
    induction digits with
    | nil =>
        intro k _
        rfl
    | cons d digits ih =>
        intro k h
        rw [List.foldl_cons, digitValue?_of_ascii (h d (by simp)), Nat.ofDigitChars_cons,
          ih _ fun c hc => h c (by simp [hc])]
        rfl
  rw [natOfDigits, hread _ _ fun c hc => Nat.isDigit_of_mem_toDigits (by decide) (by decide) hc]
  exact Nat.ofDigitChars_ten_toDigits

end Text

namespace Source

/-- Whether a name can be written: it is a letter or an underscore, followed by characters that may
go on an identifier, and it does not spell an abstraction. -/
def isIdentifier (name : String) : Bool :=
  match name.toList with
  | [] => false
  | c :: parts => isNameStart c && parts.all isNamePart && name != "lambda"

end Source

/-- Whether a type can be written: it is built by arrows from constants with identifiers as names.
-/
def Ty.isSpelled : Ty → Bool
  | .const name => Source.isIdentifier name
  | .arrow domain codomain => domain.isSpelled && codomain.isSpelled
  | _ => false

namespace Source

/-- What can be written. -/
def spellable : Vocabulary where
  references name := isIdentifier name = true
  binders name := isIdentifier name = true
  annotations type := type.isSpelled = true
  constants name _ := isIdentifier name = true
  numbers n := 0 ≤ n

theorem isIdentifier_iff {name : String} :
    isIdentifier name = true ↔ ∃ c parts, name.toList = c :: parts ∧ isNameStart c = true ∧
      (∀ d ∈ parts, isNamePart d = true) ∧ name ≠ "lambda" := by
  unfold isIdentifier
  split
  · rename_i hname
    simp [hname]
  · rename_i c parts hname
    simp [hname, and_assoc]

theorem wordKind_eq_identifier_iff {name : String} :
    wordKind name.toList = .identifier ↔ name ≠ "lambda" := by
  rw [wordKind, ne_eq, ← String.toList_inj]
  simp only [ite_eq_right_iff, reduceCtorEq, imp_false]

theorem lexeme_of_isIdentifier {name : String} (h : isIdentifier name = true) {rest : List Char}
    (hrest : Ends isNamePart rest) : Lexeme .identifier name.toList rest := by
  obtain ⟨c, parts, hname, hc, hparts, hlambda⟩ := isIdentifier_iff.mp h
  rw [← wordKind_eq_identifier_iff.mpr hlambda, hname]
  exact .word hc hparts hrest

theorem isIdentifier_of_lexeme {name : String} {rest : List Char}
    (h : Lexeme .identifier name.toList rest) : isIdentifier name = true := by
  generalize hkind : Kind.identifier = kind at h
  generalize hname : name.toList = word at h
  cases h with
  | word hc hparts =>
      rw [← hname] at hkind
      exact isIdentifier_iff.mpr
        ⟨_, _, hname, hc, hparts, wordKind_eq_identifier_iff.mp hkind.symm⟩
  | _ => cases hkind

theorem Token.WellFormed.isIdentifier_text {t : Token} (h : t.WellFormed)
    (hkind : t.kind = .identifier) : isIdentifier t.text = true := by
  unfold WellFormed at h
  rw [hkind] at h
  exact isIdentifier_of_lexeme h

section Reading

theorem DerivesType.isSpelled {isArrow : Bool} {ts : List Token} {type : Ty}
    (h : DerivesType isArrow ts type) (hts : ∀ t ∈ ts, t.WellFormed) : type.isSpelled = true := by
  induction h with
  | name h => exact (hts _ (by simp)).isIdentifier_text h
  | group _ _ _ ih => exact ih fun t ht => hts t (by simp [ht])
  | arrow _ _ _ ihd ihc =>
      rw [Ty.isSpelled, ihd fun t ht => hts t (by simp [ht]), ihc fun t ht => hts t (by simp [ht])]
      rfl

theorem Derives.within {constants : Constants} {bound : List String} {ts : List Token} {e : Term}
    (h : Derives constants bound ts e) (hts : ∀ t ∈ ts, t.WellFormed) : e.Within spellable := by
  induction h with
  | number => exact .num (Int.natCast_nonneg _)
  | constant h => exact .const ((hts _ (by simp)).isIdentifier_text h)
  | «variable» h => exact .var ((hts _ (by simp)).isIdentifier_text h)
  | abstraction _ _ hparam hann _ _ _ ih =>
      refine .lam ((hts _ (by simp)).isIdentifier_text hparam) ?_
        (ih fun t ht => hts t (by simp [ht]))
      rintro a rfl
      cases hann with
      | some _ h => exact h.isSpelled fun t ht => hts t (by simp [ht])
  | application _ _ _ _ ihf iha =>
      exact .app (ihf fun t ht => hts t (by simp [ht])) (iha fun t ht => hts t (by simp [ht]))
  | operation _ _ _ _ _ ihl ihr =>
      exact .op _ (ihl fun t ht => hts t (by simp [ht])) (ihr fun t ht => hts t (by simp [ht]))

theorem within_of_read {constants : Constants} {text : String} {e : Term}
    (h : read constants text = .ok e) : e.Within spellable := by
  obtain ⟨ts, htokens, hderives⟩ := read_eq_ok_iff.mp h
  exact hderives.within (wellFormed_of_tokenize htokens)

end Reading

section Rendering

/-- Neither a name nor a number goes on with the given characters. -/
structure Parted (rest : List Char) : Prop where
  name : Ends isNamePart rest
  number : Ends Text.isDigit rest

theorem parted_nil : Parted [] :=
  ⟨ends_nil _, ends_nil _⟩

theorem parted_cons (c : Char) (h : c ∈ [' ', '.', ':', ')']) (cs : List Char) :
    Parted (c :: cs) := by
  simp only [List.mem_cons, List.not_mem_nil, or_false] at h
  rcases h with rfl | rfl | rfl | rfl <;>
    exact ⟨ends_cons.mpr (by decide), ends_cons.mpr (by decide)⟩

namespace Lexes

theorem lexeme {kind : Kind} {word rest : List Char} (h : Lexeme kind word rest) (place : Nat) :
    Lexes place (word ++ rest) [⟨kind, String.ofList word, place⟩] (place + word.length) rest :=
  .token h (.done _ _)

theorem symbol {c : Char} (h : isSymbol c = true) (place : Nat) (rest : List Char) :
    Lexes place (c :: rest) [⟨.symbol, String.ofList [c], place⟩] (place + 1) rest :=
  lexeme (.symbol h rest) place

theorem space {place stop : Nat} {cs rest : List Char} {ts : List Token}
    (h : Lexes (place + 1) cs ts stop rest) : Lexes place (' ' :: cs) ts stop rest :=
  .blank (by decide) h

theorem parens {place stop : Nat} {cs rest : List Char} {ts : List Token}
    (h : Lexes (place + 1) cs ts stop (')' :: rest)) :
    Lexes place ('(' :: cs) (⟨.symbol, "(", place⟩ :: ts ++ [⟨.symbol, ")", stop⟩]) (stop + 1)
      rest :=
  (symbol (by decide) place cs).trans (h.trans (symbol (by decide) stop rest))

theorem op (o : Op) (place : Nat) (rest : List Char) :
    Lexes place (o.symbol.toList ++ rest) [⟨.symbol, o.symbol, place⟩] (place + 1) rest := by
  cases o with
  | add => exact symbol (by decide) place rest
  | mul => exact symbol (by decide) place rest

theorem identifier {name : String} (h : isIdentifier name = true) {rest : List Char}
    (hrest : Parted rest) (place : Nat) :
    ∃ stop, Lexes place (name.toList ++ rest) [⟨.identifier, name, place⟩] stop rest := by
  have hlexes := lexeme (lexeme_of_isIdentifier h hrest.name) place
  rw [String.ofList_toList] at hlexes
  exact ⟨_, hlexes⟩

theorem number (n : Nat) {rest : List Char} (hrest : Parted rest) (place : Nat) :
    ∃ stop, Lexes place ((toString (n : Int)).toList ++ rest)
      [⟨.number, toString (n : Int), place⟩] stop rest := by
  have hdigits : ∀ c ∈ Nat.toDigits 10 n, Text.isDigit c = true := fun c hc =>
    Text.isDigit_of_ascii (Nat.isDigit_of_mem_toDigits (by decide) (by decide) hc)
  have hlexeme : Lexeme .number (Nat.toDigits 10 n) rest := by
    cases hn : Nat.toDigits 10 n with
    | nil => exact absurd hn Nat.toDigits_ne_nil
    | cons c digits =>
        rw [hn] at hdigits
        exact .number (hdigits c (by simp)) (fun d hd => hdigits d (by simp [hd])) hrest.number
  rw [← Text.toList_toString] at hlexeme
  have hlexes := lexeme hlexeme place
  rw [String.ofList_toList] at hlexes
  exact ⟨_, hlexes⟩

end Lexes

theorem lexes_type_text {type : Ty} (h : type.isSpelled = true) (place : Nat) {rest : List Char}
    (hrest : Parted rest) :
    ∃ ts stop, Lexes place (type.text.toList ++ rest) ts stop rest ∧ DerivesType false ts type := by
  induction type generalizing rest place with
  | const name =>
      obtain ⟨stop, hlexes⟩ := Lexes.identifier h hrest place
      exact ⟨_, stop, hlexes, .name rfl⟩
  | arrow domain codomain ihd ihc =>
      rw [Ty.isSpelled, Bool.and_eq_true] at h
      have htext : (Ty.arrow domain codomain).text.toList ++ rest =
          '(' :: (domain.text.toList ++ ' ' :: (['-', '>'] ++ ' ' ::
            (codomain.text.toList ++ ')' :: rest))) := by
        simp [Ty.text]
      obtain ⟨ds, p, hds, hd⟩ := ihd h.1 (place + 1) (parted_cons ' ' (by decide) _)
      obtain ⟨cs, q, hcs, hc⟩ := ihc h.2 (p + 1 + 2 + 1) (parted_cons ')' (by decide) rest)
      have harrow := (Lexes.lexeme (.arrow _) (p + 1)).trans hcs.space
      rw [htext]
      exact ⟨_, _, .parens (hds.trans harrow.space), .group rfl (.arrow hd rfl hc) rfl⟩
  | var id => cases h
  | absent => cases h
  | foreign text => cases h

theorem lexes_annText {ann : Option Ty} (h : ∀ a, ann = some a → a.isSpelled = true) (place : Nat)
    {rest : List Char} (hrest : Parted rest) :
    ∃ ts stop, Lexes place ((Term.annText ann).toList ++ rest) ts stop rest ∧
      DerivesAnnotation ts ann := by
  cases ann with
  | none => exact ⟨[], place, .done _ _, .none⟩
  | some type =>
      obtain ⟨ts, stop, hlexes, hderives⟩ := lexes_type_text (h type rfl) (place + 1) hrest
      have htext : (Term.annText (some type)).toList ++ rest =
          ':' :: (type.text.toList ++ rest) := by
        simp [Term.annText]
      rw [htext]
      exact ⟨_, _, (Lexes.symbol (by decide) place _).trans hlexes, .some rfl hderives⟩

theorem parted_annText (ann : Option Ty) (cs : List Char) :
    Parted ((Term.annText ann).toList ++ '.' :: cs) := by
  cases ann with
  | none => exact parted_cons '.' (by decide) cs
  | some type =>
      rw [Term.annText, String.toList_append]
      exact parted_cons ':' (by decide) _

/-- The text of a term falls into tokens that derive it. -/
theorem lexes_text {constants : Constants} {bound : List String} {e : Term}
    (h : Readable constants bound e) (hspelled : e.Within spellable) (place : Nat)
    {rest : List Char} (hrest : Parted rest) :
    ∃ ts stop, Lexes place (e.text.toList ++ rest) ts stop rest ∧ Derives constants bound ts e := by
  -- the places where the parts of a compound start are not known before the parts before them are
  -- passed, so the parts are taken from left to right
  induction h generalizing rest place with
  | num bound n =>
      cases hspelled with
      | num hn =>
          obtain ⟨k, rfl⟩ := Int.eq_ofNat_of_zero_le hn
          obtain ⟨stop, hlexes⟩ := Lexes.number k hrest place
          refine ⟨_, stop, hlexes, ?_⟩
          have hderives : Derives constants bound [⟨.number, toString (k : Int), place⟩] _ :=
            .number rfl
          rwa [Text.toList_toString, Text.natOfDigits_toDigits] at hderives
  | const hfound hbound =>
      cases hspelled with
      | const hname =>
          obtain ⟨stop, hlexes⟩ := Lexes.identifier hname hrest place
          exact ⟨_, stop, hlexes, .constant rfl hfound hbound⟩
  | var hscope =>
      cases hspelled with
      | var hname =>
          obtain ⟨stop, hlexes⟩ := Lexes.identifier hname hrest place
          exact ⟨_, stop, hlexes, .variable rfl hscope⟩
  | @lam bound name ann body _ _ ih =>
      cases hspelled with
      | lam hname hann hbody =>
          have htext : (Term.lam (some name) ann body).text.toList ++ rest =
              '(' :: 'λ' :: (name.toList ++ ((Term.annText ann).toList ++ '.' :: ' ' ::
                (body.text.toList ++ ')' :: rest))) := by
            simp [Term.text]
          rw [htext]
          obtain ⟨p, hparam⟩ := Lexes.identifier hname (parted_annText ann _) (place + 1 + 1)
          obtain ⟨as, q, has, hderiveann⟩ := lexes_annText hann p (parted_cons '.' (by decide) _)
          obtain ⟨ts, r, hts, hderives⟩ := ih hbody (q + 1 + 1) (parted_cons ')' (by decide) rest)
          have hdot := (Lexes.symbol (c := '.') (by decide) q _).trans hts.space
          have hlambda := (Lexes.symbol (c := 'λ') (by decide) (place + 1) _).trans
            (hparam.trans (has.trans hdot))
          exact ⟨_, _, .parens hlambda, .abstraction rfl rfl rfl hderiveann rfl hderives rfl⟩
  | @app bound func arg _ _ ihf iha =>
      cases hspelled with
      | app hf ha =>
          have htext : (Term.app func arg).text.toList ++ rest =
              '(' :: (func.text.toList ++ ' ' :: (arg.text.toList ++ ')' :: rest)) := by
            simp [Term.text]
          rw [htext]
          obtain ⟨fs, p, hfs, hderivef⟩ := ihf hf (place + 1) (parted_cons ' ' (by decide) _)
          obtain ⟨as, q, has, hderivea⟩ := iha ha (p + 1) (parted_cons ')' (by decide) rest)
          exact ⟨_, _, .parens (hfs.trans has.space), .application rfl hderivef hderivea rfl⟩
  | @op bound o left right _ _ ihl ihr =>
      cases hspelled with
      | op _ hl hr =>
          have htext : (Term.op o left right).text.toList ++ rest =
              '(' :: (left.text.toList ++ ' ' :: (o.symbol.toList ++ ' ' ::
                (right.text.toList ++ ')' :: rest))) := by
            simp [Term.text]
          rw [htext]
          obtain ⟨ls, p, hls, hderivel⟩ := ihl hl (place + 1) (parted_cons ' ' (by decide) _)
          obtain ⟨rs, q, hrs, hderiver⟩ := ihr hr (p + 1 + 1 + 1) (parted_cons ')' (by decide) rest)
          have hsymbol := (Lexes.op o (p + 1) _).trans hrs.space
          exact ⟨_, _, .parens (hls.trans hsymbol.space),
            .operation rfl hderivel rfl hderiver rfl⟩

theorem read_text {constants : Constants} {e : Term} (h : Readable constants [] e)
    (hspelled : e.Within spellable) : read constants e.text = .ok e := by
  obtain ⟨ts, stop, hlexes, hderives⟩ := lexes_text h hspelled 0 parted_nil
  rw [List.append_nil] at hlexes
  exact read_eq_ok_iff.mpr ⟨ts, tokenize_eq_ok_iff.mpr ⟨stop, hlexes⟩, hderives⟩

theorem readType_text {type : Ty} (h : type.isSpelled = true) :
    readType type.text = .ok type := by
  obtain ⟨ts, stop, hlexes, hderives⟩ := lexes_type_text h 0 parted_nil
  rw [List.append_nil] at hlexes
  exact readType_eq_ok_iff.mpr ⟨ts, false, tokenize_eq_ok_iff.mpr ⟨stop, hlexes⟩, hderives⟩

end Rendering

/-- Rendering and reading are inverse. What is read has its leaves in scope and can be spelled, such
a term is read back from its text, and so is a type that can be spelled. -/
theorem read_text_inverse (constants : Constants) :
    (∀ text e, read constants text = .ok e → Readable constants [] e ∧ e.Within spellable) ∧
    (∀ e : Term, Readable constants [] e → e.Within spellable → read constants e.text = .ok e) ∧
    ∀ type : Ty, type.isSpelled = true → readType type.text = .ok type := by
  refine ⟨fun text e h => ⟨readable_of_read h, within_of_read h⟩, ?_, ?_⟩
  · intro e h hspelled
    exact read_text h hspelled
  · intro type h
    exact readType_text h

/-- `(λf:(Bool -> (Nat -> Nat)). ((f true) 10))` -/
def partly : Term :=
  .lam (some "f") (some (.arrow (.const "Bool") (.arrow (.const "Nat") (.const "Nat"))))
    (.app (.app (.var (some "f")) (.const "true" .bool)) (.num 10))

theorem read_text_inverse_partly :
    read [("true", .bool)] partly.text = .ok partly ∧
      Readable [("true", .bool)] [] partly ∧ partly.Within spellable := by
  have hread : read [("true", .bool)] partly.text = .ok partly := by
    refine (read_text_inverse [("true", .bool)]).2.1 partly ?_ ?_
    · refine .lam ?_ (.app (.app (.var (.inr (by simp))) (.const rfl (by decide))) (.num _ _))
      rintro _ ⟨⟩
      exact ⟨trivial, trivial, trivial⟩
    · refine .lam rfl ?_ (.app (.app (.var rfl) (.const rfl)) (.num (Int.natCast_nonneg 10)))
      rintro _ ⟨⟩
      rfl
  exact ⟨hread, (read_text_inverse [("true", .bool)]).1 _ _ hread⟩

/-- It does not do to ask nothing of the names of constants: a constant whose name is a numeral is
read back as a number. -/
theorem read_text_of_numeral_constant :
    ¬ ∀ (constants : Constants) (e : Term), Readable constants [] e →
      e.Within { spellable with constants := fun _ _ => True } → read constants e.text = .ok e := by
  intro h
  have hread := h [("1", .bool)] (.const "1" .bool) (.const rfl (by decide)) (.const trivial)
  have hnumber : read [("1", .bool)] (Term.num 1).text = .ok (.num 1) :=
    read_text (.num [] 1) (.num (Int.natCast_nonneg 1))
  rw [show (Term.num 1).text = (Term.const "1" .bool).text from rfl, hread] at hnumber
  cases hnumber

end Source

end LambdaMachine
