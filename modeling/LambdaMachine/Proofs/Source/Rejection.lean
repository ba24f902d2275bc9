import LambdaMachine.Proofs.Source.Words

/-!
Where reading fails. A reader looks at one token at a time, and what it has accepted so far can
always be completed; so the token that it rejects is the first one at which the tokens stop being
the start of a term, whatever follows. At the end of the tokens, nothing has gone wrong yet.
-/

namespace LambdaMachine

namespace Source

/-- The token that an error is about, if it is about one. -/
def ReadError.found? : ReadError → Option Token
  | .badStart _ found => some found
  | .unexpected _ found => some found
  | .notParameter found => some found
  | .trailing _ found => some found
  | .illegal _ | .empty _ | .endedEarly _ => none

/-- Some tokens and further ones are accepted together. -/
def Completable (accepts : List Token → Prop) (ts : List Token) : Prop :=
  ∃ more, (∀ t ∈ more, t.WellFormed) ∧ accepts (ts ++ more)

def Rejects {β : List Token → Type} (reader : (ts : List Token) → Except ReadError (β ts))
    (ts : List Token) (error : ReadError) : Prop :=
  reader ts = .error error

/-- A reader of what `accepts` describes fails at the end of some tokens, or at one of them: those
before it can be completed, and the reader fails in the same way whatever follows it. -/
inductive Fails {β : List Token → Type} (reader : (ts : List Token) → Except ReadError (β ts))
    (accepts : List Token → Prop) (ts : List Token) : ReadError → Prop where
  | ended (expected : String) (h : Completable accepts ts) :
      Fails reader accepts ts (.endedEarly expected)
  | met (before : List Token) {after : List Token} {t : Token} {error : ReadError}
      (hts : ts = before ++ t :: after) (hfound : error.found? = some t)
      (h : Completable accepts before)
      (hblocked : ∀ more, Rejects reader (before ++ t :: more) error) :
      Fails reader accepts ts error

section Composition

variable {β γ : List Token → Type} {inner : (ts : List Token) → Except ReadError (β ts)}
  {outer : (ts : List Token) → Except ReadError (γ ts)} {part whole : List Token → Prop}
  {us : List Token} {error : ReadError}

theorem Fails.within (h : Fails inner part us error) (lead trail : List Token)
    (hreads : ∀ us', us'.head? = us.head? → Rejects inner us' error →
      Rejects outer (lead ++ us') error)
    (htrail : ∀ t ∈ trail, t.WellFormed) (hpart : ∀ us', part us' → whole (lead ++ us' ++ trail)) :
    Fails outer whole (lead ++ us) error := by
  have hcompletable : ∀ {us'}, Completable part us' → Completable whole (lead ++ us') := by
    rintro us' ⟨more, hmore, haccepted⟩
    refine ⟨more ++ trail, ?_, ?_⟩
    · intro t ht
      exact (List.mem_append.mp ht).elim (hmore t) (htrail t)
    · simpa using hpart _ haccepted
  cases h with
  | ended expected h => exact .ended expected (hcompletable h)
  | @met before after t _ hts hfound h hblocked =>
      subst hts
      have hsplit := (List.append_assoc lead before (t :: after)).symm
      refine .met (lead ++ before) hsplit hfound (hcompletable h) fun more => ?_
      rw [List.append_assoc]
      -- whatever follows, the first of the tokens that are handed over stays the same
      refine hreads _ ?_ (hblocked more)
      cases before <;> rfl

end Composition

theorem nextIs_congr (p : Token → Bool) {us us' : List Token} (h : us'.head? = us.head?) :
    nextIs p us' = nextIs p us := by
  cases us <;> cases us' <;> simp_all [nextIs]

theorem nextOp?_congr {us us' : List Token} (h : us'.head? = us.head?) :
    nextOp? us' = nextOp? us := by
  cases us <;> cases us' <;> simp_all [nextOp?]

section Single

def nameToken : Token := ⟨.identifier, "x", 0⟩

def symbolToken (text : String) : Token := ⟨.symbol, text, 0⟩

theorem wellFormed_nameToken : nameToken.WellFormed :=
  @Lexeme.word 'x' [] _ (by decide) (by simp) (ends_nil _)

theorem wellFormed_close : (symbolToken ")").WellFormed :=
  Lexeme.symbol (c := ')') (by decide) []

theorem wellFormed_dot : (symbolToken ".").WellFormed :=
  Lexeme.symbol (c := '.') (by decide) []

def IsToken (text : String) (ts : List Token) : Prop :=
  ∃ t, t.text = text ∧ ts = [t]

theorem fails_expect {text : String} (hsymbol : (symbolToken text).WellFormed) {ts : List Token}
    {error : ReadError} (h : expect text ts = .error error) :
    Fails (expect text) (IsToken text) ts error := by
  have hempty : Completable (IsToken text) [] :=
    ⟨[symbolToken text], by simpa using hsymbol, symbolToken text, rfl, rfl⟩
  cases ts with
  | nil =>
      cases h
      exact .ended _ hempty
  | cons t ts =>
      rw [expect] at h
      split at h
      · cases h
      · rename_i htext
        cases h
        refine .met [] rfl rfl hempty fun more => ?_
        rw [Rejects, List.nil_append, expect, if_neg htext]

def IsName (ts : List Token) : Prop :=
  ∃ t, t.kind = .identifier ∧ ts = [t]

theorem fails_readParameter {ts : List Token} {error : ReadError}
    (h : readParameter ts = .error error) : Fails readParameter IsName ts error := by
  have hempty : Completable IsName [] :=
    ⟨[nameToken], by simpa using wellFormed_nameToken, nameToken, rfl, rfl⟩
  cases ts with
  | nil =>
      cases h
      exact .ended _ hempty
  | cons t ts =>
      rw [readParameter] at h
      split at h
      · cases h
      · rename_i hkind
        cases h
        refine .met [] rfl rfl hempty fun more => ?_
        rw [Rejects, List.nil_append, readParameter, if_neg hkind]

end Single

section Types

def IsType (ts : List Token) : Prop :=
  ∃ isArrow type, DerivesType isArrow ts type

theorem nextIs_of_reads {ts rest : List Token} {type : Ty} (h : Reads readTypeFrom ts type rest) :
    nextIs (·.kind == .arrow) rest = false := by
  induction hn : ts.length using Nat.strong_induction_on generalizing ts type rest with
  | _ n ih =>
      subst hn
      obtain ⟨hlt, h⟩ := h
      cases ts with
      | nil => simp [readTypeFrom] at h
      | cons t ts =>
          rw [readTypeFrom] at h
          obtain ⟨⟨domain, rest', hlt'⟩, -, h⟩ := ok_of_bind h
          dsimp only at h
          split at h
          · obtain ⟨⟨codomain, left, hleft⟩, hcodomain, h⟩ := ok_of_bind h
            cases h
            refine ih rest'.tail.length ?_ ⟨_, hcodomain⟩ rfl
            rw [List.length_tail]
            omega
          · rename_i harrow
            cases h
            exact Bool.eq_false_iff.mpr harrow

theorem reads_type_of_head {ts rest : List Token} (hts : ∀ t ∈ ts, t.WellFormed) {type : Ty}
    (h : Reads readTypeFrom ts type rest) :
    ∃ isArrow read, ts = read ++ rest ∧ DerivesType isArrow read type ∧
      ∀ us, us.head? = rest.head? → Reads readTypeFrom (read ++ us) type us := by
  obtain ⟨isArrow, read, rfl, hderives⟩ := derivesType_of_reads h
  refine ⟨isArrow, read, rfl, hderives, fun us hus => ?_⟩
  have hnext := (nextIs_congr _ hus).trans (nextIs_of_reads h)
  exact hderives.reads (fun t ht => hts t (by simp [ht])) (.stop hnext) fun _ => hnext

variable {t l a : Token} {us vs : List Token} {error : ReadError}

theorem readTypeFrom_badStart (hkind : t.kind ≠ .identifier) (htext : t.text ≠ "(")
    (us : List Token) : Rejects readTypeFrom (t :: us) (.badStart .type t) := by
  rw [Rejects, readTypeFrom]
  simp [hkind, htext, bind, Except.bind]

theorem readTypeFrom_inner_error (hkind : l.kind ≠ .identifier) (hl : l.text = "(")
    (h : readTypeFrom us = .error error) : Rejects readTypeFrom (l :: us) error := by
  rw [Rejects, readTypeFrom]
  simp [hkind, hl, h, bind, Except.bind]

theorem readTypeFrom_close_error (hkind : l.kind ≠ .identifier) (hl : l.text = "(") {inner : Ty}
    (hinner : Reads readTypeFrom us inner vs) (h : expect ")" vs = .error error) :
    Rejects readTypeFrom (l :: us) error := by
  obtain ⟨hlt, hinner⟩ := hinner
  rw [Rejects, readTypeFrom]
  simp [hkind, hl, hinner, h, bind, Except.bind]

theorem readTypeFrom_codomain_error {ds : List Token} {domain : Ty}
    (hd : DerivesType false ds domain) (hds : ∀ t ∈ ds, t.WellFormed) (ha : a.kind = .arrow)
    (h : readTypeFrom us = .error error) : Rejects readTypeFrom (ds ++ a :: us) error := by
  cases hd with
  | name ht =>
      rw [Rejects, List.singleton_append, readTypeFrom]
      simp [ht, ha, h, nextIs, bind, Except.bind]
  | @group l r _ ts _ hl hinner hr =>
      have hkind : l.kind = .symbol := (hds l (by simp)).symbol (by simp [hl])
      have hrkind : r.kind = .symbol := (hds r (by simp)).symbol (by simp [hr])
      have hnext : nextIs (·.kind == .arrow) (r :: a :: us) = false := by simp [nextIs, hrkind]
      obtain ⟨hlt, hread⟩ :=
        hinner.reads (fun t ht => hds t (by simp [ht])) (.stop hnext) fun _ => hnext
      rw [Rejects, List.append_assoc, List.cons_append, readTypeFrom]
      simp [hkind, hl, hread, expect_cons hr, ha, h, nextIs, bind, Except.bind, pure, Except.pure]

theorem readTypeFrom_error_cases {t : Token} {ts : List Token} {error : ReadError}
    (h : readTypeFrom (t :: ts) = .error error) :
    (t.kind ≠ .identifier ∧ t.text ≠ "(" ∧ error = .badStart .type t) ∨
    (t.kind ≠ .identifier ∧ t.text = "(" ∧
      (readTypeFrom ts = .error error ∨
        ∃ inner rest, Reads readTypeFrom ts inner rest ∧ expect ")" rest = .error error)) ∨
    ∃ ds a us domain, t :: ts = ds ++ a :: us ∧ DerivesType false ds domain ∧ a.kind = .arrow ∧
      readTypeFrom us = .error error := by
  rw [readTypeFrom] at h
  rcases error_of_bind h with hdomain | ⟨⟨domain, rest, hlt⟩, hdomain, h⟩
  · split at hdomain
    · cases hdomain
    · rename_i hkind
      split at hdomain
      · rename_i htext
        refine .inr (.inl ⟨hkind, htext, ?_⟩)
        rcases error_of_bind hdomain with hinner | ⟨⟨inner, rest, hlt⟩, hinner, hclose⟩
        · exact .inl hinner
        · rcases error_of_bind hclose with hclose | ⟨_, _, hdone⟩
          · exact .inr ⟨inner, rest, ⟨hlt, hinner⟩, hclose⟩
          · cases hdone
      · rename_i htext
        cases hdomain
        exact .inl ⟨hkind, htext, rfl⟩
  · have hoperand : ∃ ds, t :: ts = ds ++ rest ∧ DerivesType false ds domain := by
      split at hdomain
      · rename_i hkind
        cases hdomain
        exact ⟨[t], rfl, .name hkind⟩
      · split at hdomain
        · rename_i hl
          obtain ⟨⟨inner, left, hleft⟩, hinner, hdomain⟩ := ok_of_bind hdomain
          obtain ⟨⟨left', hleft'⟩, hclose, hdomain⟩ := ok_of_bind hdomain
          cases hdomain
          obtain ⟨isArrow, read, rfl, hderives⟩ := derivesType_of_reads ⟨_, hinner⟩
          obtain ⟨r, hr, hrest⟩ := expect_eq_ok hclose
          exact ⟨t :: read ++ [r], by simp [hrest], .group hl hderives hr⟩
        · cases hdomain
    obtain ⟨ds, hds, hderives⟩ := hoperand
    -- the domain is read, so an arrow must have been met
    dsimp only at h
    split at h
    · rename_i harrow
      obtain ⟨a, ha, hrest⟩ := nextIs_eq_true harrow
      refine .inr (.inr ⟨ds, a, rest.tail, domain, hrest ▸ hds, hderives, by simpa using ha, ?_⟩)
      rcases error_of_bind h with hcodomain | ⟨_, _, hdone⟩
      · exact hcodomain
      · cases hdone
    · cases h

theorem fails_readTypeFrom {ts : List Token} (hts : ∀ t ∈ ts, t.WellFormed) {error : ReadError}
    (h : readTypeFrom ts = .error error) : Fails readTypeFrom IsType ts error := by
  have hempty : Completable IsType [] :=
    ⟨[nameToken], by simpa using wellFormed_nameToken, false, _, .name rfl⟩
  induction hn : ts.length using Nat.strong_induction_on generalizing ts with
  | _ n ih =>
      subst hn
      cases ts with
      | nil =>
          rw [readTypeFrom] at h
          cases h
          exact .ended _ hempty
      | cons t ts =>
          rcases readTypeFrom_error_cases h with
            ⟨hkind, htext, rfl⟩ | ⟨hkind, hl, hinner | ⟨inner, rest, hinner, hclose⟩⟩ |
              ⟨ds, a, us, domain, hsplit, hd, ha, hcodomain⟩
          · exact .met [] rfl rfl hempty (readTypeFrom_badStart hkind htext)
          · have hfails := ih ts.length (by simp) (fun u hu => hts u (by simp [hu])) hinner rfl
            refine hfails.within [t] [symbolToken ")"]
              (fun us' _ => readTypeFrom_inner_error hkind hl) (by simpa using wellFormed_close) ?_
            rintro us' ⟨isArrow, type, hderives⟩
            exact ⟨false, type, .group hl hderives rfl⟩
          · obtain ⟨isArrow, read, rfl, hderives, hreads⟩ :=
              reads_type_of_head (fun u hu => hts u (by simp [hu])) hinner
            have hfails := fails_expect wellFormed_close hclose
            refine hfails.within (t :: read) []
              (fun us' hus => readTypeFrom_close_error hkind hl (hreads us' hus)) (by simp) ?_
            rintro us' ⟨r, hr, rfl⟩
            exact ⟨false, inner, by simpa using DerivesType.group hl hderives hr⟩
          · rw [hsplit] at hts ⊢
            have hlen := congrArg List.length hsplit
            simp only [List.length_cons, List.length_append] at hlen
            have hfails := ih us.length (by simp only [List.length_cons]; omega)
              (fun u hu => hts u (by simp [hu])) hcodomain rfl
            rw [← List.singleton_append, ← List.append_assoc]
            refine hfails.within _ [] (fun us' _ hus => ?_) (by simp) ?_
            · rw [List.append_assoc]
              exact readTypeFrom_codomain_error hd (fun u hu => hts u (by simp [hu])) ha hus
            · rintro us' ⟨isArrow, codomain, hderives⟩
              exact ⟨true, _, by simpa using DerivesType.arrow hd ha hderives⟩

def IsAnnotation (ts : List Token) : Prop :=
  ∃ ann, DerivesAnnotation ts ann

theorem readAnnotation_error {k : Token} (hk : k.text = ":") {us : List Token} {error : ReadError}
    (h : readTypeFrom us = .error error) : Rejects readAnnotation (k :: us) error := by
  simp [Rejects, readAnnotation, nextIs, hk, h, bind, Except.bind]

theorem fails_readAnnotation {ts : List Token} (hts : ∀ t ∈ ts, t.WellFormed) {error : ReadError}
    (h : readAnnotation ts = .error error) : Fails readAnnotation IsAnnotation ts error := by
  unfold readAnnotation at h
  split at h
  · rename_i hcolon
    obtain ⟨k, hk, hsplit⟩ := nextIs_eq_true hcolon
    have hkind : k.text = ":" := by simpa using hk
    rcases error_of_bind h with htype | ⟨_, _, hdone⟩
    · rw [hsplit] at hts ⊢
      have hfails := fails_readTypeFrom (fun t ht => hts t (by simp [ht])) htype
      refine hfails.within [k] [] (fun us' _ => readAnnotation_error hkind)
        (by simp) ?_
      rintro us' ⟨isArrow, type, hderives⟩
      exact ⟨some type, by simpa using DerivesAnnotation.some hkind hderives⟩
    · cases hdone
  · cases h

theorem readAnnotation_of_head {ts rest : List Token} (hts : ∀ t ∈ ts, t.WellFormed)
    {ann : Option Ty} {hle : rest.length ≤ ts.length}
    (h : readAnnotation ts = .ok (ann, ⟨rest, hle⟩)) :
    ∃ read, ts = read ++ rest ∧ DerivesAnnotation read ann ∧
      ∀ us, us.head? = rest.head? →
        ∃ hle, readAnnotation (read ++ us) = .ok (ann, ⟨us, hle⟩) := by
  unfold readAnnotation at h
  split at h
  · rename_i hcolon
    obtain ⟨k, hk, hsplit⟩ := nextIs_eq_true hcolon
    have hkind : k.text = ":" := by simpa using hk
    obtain ⟨⟨type, left, hleft⟩, htype, h⟩ := ok_of_bind h
    cases h
    rw [hsplit] at hts
    obtain ⟨isArrow, read, hread, hderives, hreads⟩ :=
      reads_type_of_head (fun t ht => hts t (by simp [ht])) ⟨_, htype⟩
    refine ⟨k :: read, by rw [hsplit, hread]; rfl, .some hkind hderives, fun us hus => ?_⟩
    obtain ⟨hlt, htype⟩ := hreads us hus
    refine ⟨by simp only [List.cons_append, List.length_cons] at hlt ⊢; omega, ?_⟩
    simp [nextIs, readAnnotation, hkind, htype, bind, Except.bind, pure, Except.pure]
  · rename_i hcolon
    cases h
    refine ⟨[], rfl, .none, fun us hus => ⟨Nat.le_refl _, ?_⟩⟩
    rw [← nextIs_congr _ hus] at hcolon
    show readAnnotation us = _
    unfold readAnnotation
    rw [if_neg hcolon]

end Types

section Terms

variable {constants : Constants} {bound : List String} {t l lambda param dot s r : Token}
  {us vs ws : List Token} {error : ReadError}

def IsTerm (constants : Constants) (bound : List String) (ts : List Token) : Prop :=
  ∃ e, Derives constants bound ts e

theorem isTerm_name : IsTerm constants bound [nameToken] :=
  ⟨_, derives_leaf constants bound rfl⟩

theorem isTerm_abstraction (hl : l.text = "(") (hlambda : lambda.isLambda = true)
    (hparam : param.kind = .identifier) (hann : IsAnnotation us) (hdot : dot.text = ".")
    (hbody : IsTerm constants (param.text :: bound) vs) (hr : r.text = ")") :
    IsTerm constants bound (l :: lambda :: param :: (us ++ dot :: (vs ++ [r]))) := by
  obtain ⟨ann, hann⟩ := hann
  obtain ⟨body, hbody⟩ := hbody
  exact ⟨_, by simpa using Derives.abstraction hl hlambda hparam hann hdot hbody hr⟩

theorem isTerm_application (hl : l.text = "(") (hf : IsTerm constants bound us)
    (ha : IsTerm constants bound vs) (hr : r.text = ")") :
    IsTerm constants bound (l :: (us ++ (vs ++ [r]))) := by
  obtain ⟨func, hf⟩ := hf
  obtain ⟨arg, ha⟩ := ha
  exact ⟨_, by simpa using Derives.application hl hf ha hr⟩

theorem isTerm_operation (hl : l.text = "(") (hleft : IsTerm constants bound us) {o : Op}
    (hs : s.text = o.symbol) (hright : IsTerm constants bound vs) (hr : r.text = ")") :
    IsTerm constants bound (l :: (us ++ s :: (vs ++ [r]))) := by
  obtain ⟨left, hleft⟩ := hleft
  obtain ⟨right, hright⟩ := hright
  exact ⟨_, by simpa using Derives.operation hl hleft hs hright hr⟩

theorem readTermFrom_badStart (hnumber : t.kind ≠ .number) (hname : t.kind ≠ .identifier)
    (htext : t.text ≠ "(") (us : List Token) :
    Rejects (readTermFrom constants bound) (t :: us) (.badStart .term t) := by
  rw [Rejects, readTermFrom]
  simp [hnumber, hname, htext, throw, throwThe, MonadExceptOf.throw]

section Abstraction

variable (hl : l.text = "(") (hlkind : l.kind = .symbol) (hlambda : lambda.isLambda = true)

include hl hlkind hlambda

theorem readTermFrom_parameter_error (h : readParameter us = .error error) :
    Rejects (readTermFrom constants bound) (l :: lambda :: us) error := by
  rw [Rejects, readTermFrom]
  simp [hl, hlkind, nextIs, hlambda, h, bind, Except.bind]

variable (hparam : param.kind = .identifier)

include hparam

theorem readTermFrom_annotation_error (h : readAnnotation us = .error error) :
    Rejects (readTermFrom constants bound) (l :: lambda :: param :: us) error := by
  rw [Rejects, readTermFrom]
  simp [hl, hlkind, nextIs, hlambda, readParameter, hparam, h, bind, Except.bind]

theorem readTermFrom_dot_error {ann : Option Ty}
    (hann : ∃ hle, readAnnotation us = .ok (ann, ⟨vs, hle⟩)) (h : expect "." vs = .error error) :
    Rejects (readTermFrom constants bound) (l :: lambda :: param :: us) error := by
  obtain ⟨hle, hann⟩ := hann
  rw [Rejects, readTermFrom]
  simp [hl, hlkind, nextIs, hlambda, readParameter, hparam, hann, h, bind, Except.bind]

theorem readTermFrom_body_error {ann : Option Ty}
    (hann : ∃ hle, readAnnotation us = .ok (ann, ⟨dot :: vs, hle⟩)) (hdot : dot.text = ".")
    (h : readTermFrom constants (param.text :: bound) vs = .error error) :
    Rejects (readTermFrom constants bound) (l :: lambda :: param :: us) error := by
  obtain ⟨hle, hann⟩ := hann
  rw [Rejects, readTermFrom]
  simp [hl, hlkind, nextIs, hlambda, readParameter, hparam, hann, expect_cons hdot, h, bind,
    Except.bind]

theorem readTermFrom_abstraction_error {ann : Option Ty} {body : Term}
    (hann : ∃ hle, readAnnotation us = .ok (ann, ⟨dot :: vs, hle⟩)) (hdot : dot.text = ".")
    (hbody : Reads (readTermFrom constants (param.text :: bound)) vs body ws)
    (h : expect ")" ws = .error error) :
    Rejects (readTermFrom constants bound) (l :: lambda :: param :: us) error := by
  obtain ⟨hle, hann⟩ := hann
  obtain ⟨hlt, hbody⟩ := hbody
  rw [Rejects, readTermFrom]
  simp [hl, hlkind, nextIs, hlambda, readParameter, hparam, hann, expect_cons hdot, hbody, h, bind,
    Except.bind]

end Abstraction

section Pair

variable (hl : l.text = "(") (hlkind : l.kind = .symbol)
  (hlambda : nextIs Token.isLambda us = false)

include hl hlkind hlambda

theorem readTermFrom_first_error (h : readTermFrom constants bound us = .error error) :
    Rejects (readTermFrom constants bound) (l :: us) error := by
  rw [Rejects, readTermFrom]
  simp [hl, hlkind, hlambda, h, bind, Except.bind]

theorem readTermFrom_argument_error {func : Term}
    (hf : Reads (readTermFrom constants bound) us func vs) (hop : nextOp? vs = none)
    (h : readTermFrom constants bound vs = .error error) :
    Rejects (readTermFrom constants bound) (l :: us) error := by
  obtain ⟨hlt, hf⟩ := hf
  rw [Rejects, readTermFrom]
  simp [hl, hlkind, hlambda, hf, hop, h, bind, Except.bind]

theorem readTermFrom_application_error {func arg : Term}
    (hf : Reads (readTermFrom constants bound) us func vs) (hop : nextOp? vs = none)
    (ha : Reads (readTermFrom constants bound) vs arg ws) (h : expect ")" ws = .error error) :
    Rejects (readTermFrom constants bound) (l :: us) error := by
  obtain ⟨hlt, hf⟩ := hf
  obtain ⟨hlt', ha⟩ := ha
  rw [Rejects, readTermFrom]
  simp [hl, hlkind, hlambda, hf, hop, ha, h, bind, Except.bind]

theorem readTermFrom_right_error {o : Op} {left : Term}
    (hleft : Reads (readTermFrom constants bound) us left (s :: vs)) (hs : s.text = o.symbol)
    (h : readTermFrom constants bound vs = .error error) :
    Rejects (readTermFrom constants bound) (l :: us) error := by
  have hop : nextOp? (s :: vs) = some o := Op.ofSymbol?_eq_some_iff.mpr hs
  obtain ⟨hlt, hleft⟩ := hleft
  rw [Rejects, readTermFrom]
  simp [hl, hlkind, hlambda, hleft, hop, h, bind, Except.bind]

theorem readTermFrom_operation_error {o : Op} {left right : Term}
    (hleft : Reads (readTermFrom constants bound) us left (s :: vs)) (hs : s.text = o.symbol)
    (hright : Reads (readTermFrom constants bound) vs right ws) (h : expect ")" ws = .error error) :
    Rejects (readTermFrom constants bound) (l :: us) error := by
  have hop : nextOp? (s :: vs) = some o := Op.ofSymbol?_eq_some_iff.mpr hs
  obtain ⟨hlt, hleft⟩ := hleft
  obtain ⟨hlt', hright⟩ := hright
  rw [Rejects, readTermFrom]
  simp [hl, hlkind, hlambda, hleft, hop, hright, h, bind, Except.bind]

end Pair

/-- The reader fails properly on all tokens of which there are fewer than `n`. -/
def FailsBelow (constants : Constants) (n : Nat) : Prop :=
  ∀ {bound : List String} {ts : List Token} {error : ReadError}, ts.length < n →
    (∀ t ∈ ts, t.WellFormed) → readTermFrom constants bound ts = .error error →
      Fails (readTermFrom constants bound) (IsTerm constants bound) ts error

theorem fails_last (inner : List String) {lead rest : List Token} {α : Type}
    {give : (x : Term × Rest rest) → Rest x.2.1 → α} (hrest : ∀ t ∈ rest, t.WellFormed)
    (ih : readTermFrom constants inner rest = .error error →
      Fails (readTermFrom constants inner) (IsTerm constants inner) rest error)
    (hreads : ∀ us, us.head? = rest.head? → Rejects (readTermFrom constants inner) us error →
      Rejects (readTermFrom constants bound) (lead ++ us) error)
    (hcloses : ∀ {ts us : List Token} {e : Term}, (∀ t ∈ ts, t.WellFormed) →
      Derives constants inner ts e → Rejects (expect ")") us error →
      Rejects (readTermFrom constants bound) (lead ++ (ts ++ us)) error)
    (hterm : ∀ {ts : List Token} {r : Token}, IsTerm constants inner ts → r.text = ")" →
      IsTerm constants bound (lead ++ (ts ++ [r])))
    (h : (do
      let x ← readTermFrom constants inner rest
      let left ← expect ")" x.2.1
      pure (give x left)) = .error error) :
    Fails (readTermFrom constants bound) (IsTerm constants bound) (lead ++ rest) error := by
  rcases error_of_bind h with h | ⟨⟨e, rest', hlt⟩, hread, h⟩
  · refine (ih h).within lead [symbolToken ")"] hreads (by simp [wellFormed_close]) ?_
    intro us hus
    rw [List.append_assoc]
    exact hterm hus rfl
  · -- the term is complete, and the parentheses around it are not closed
    obtain ⟨ts, rfl, hts⟩ := derives_of_reads ⟨hlt, hread⟩
    rcases error_of_bind h with hclose | ⟨_, _, hdone⟩
    · rw [← List.append_assoc]
      refine (fails_expect wellFormed_close hclose).within (lead ++ ts) [] ?_ (by simp) ?_
      · intro us _ hus
        rw [List.append_assoc]
        exact hcloses (fun t ht => hrest t (by simp [ht])) hts hus
      · rintro us ⟨r, hr, rfl⟩
        rw [List.append_nil, List.append_assoc]
        exact hterm ⟨e, hts⟩ hr
    · cases hdone

theorem fails_abstraction (hl : l.text = "(") (hlkind : l.kind = .symbol)
    (hlambda : lambda.isLambda = true) (hus : ∀ t ∈ us, t.WellFormed)
    (ih : FailsBelow constants us.length)
    (h : readTermFrom constants bound (l :: lambda :: us) = .error error) :
    Fails (readTermFrom constants bound) (IsTerm constants bound) (l :: lambda :: us) error := by
  rw [readTermFrom] at h
  simp only [hlkind, hl, nextIs, hlambda, reduceCtorEq, if_false, ne_eq, not_true_eq_false, if_true,
    List.tail_cons] at h
  -- the stages of the reader in their order: the later ones are still to be completed when one fails
  rcases error_of_bind h with hparameter | ⟨⟨name, rest₁, h₁⟩, hparameter, h⟩
  · refine (fails_readParameter hparameter).within [l, lambda]
      [symbolToken ".", nameToken, symbolToken ")"]
      (fun us' _ => readTermFrom_parameter_error hl hlkind hlambda)
      (by simp [wellFormed_close, wellFormed_dot, wellFormed_nameToken]) ?_
    rintro us' ⟨param, hparam, rfl⟩
    exact isTerm_abstraction hl hlambda hparam ⟨none, .none⟩ rfl isTerm_name rfl
  obtain ⟨param, hparam, rfl, rfl⟩ := readParameter_eq_ok hparameter
  have hrest₁ : ∀ t ∈ rest₁, t.WellFormed := fun t ht => hus t (by simp [ht])
  rcases error_of_bind h with hannotation | ⟨⟨ann, rest₂, h₂⟩, hannotation, h⟩
  · have hfails := fails_readAnnotation hrest₁ hannotation
    refine hfails.within [l, lambda, param] [symbolToken ".", nameToken, symbolToken ")"]
      (fun us' _ => readTermFrom_annotation_error hl hlkind hlambda hparam)
      (by simp [wellFormed_close, wellFormed_dot, wellFormed_nameToken]) ?_
    intro us' hann
    simpa using isTerm_abstraction hl hlambda hparam hann rfl isTerm_name rfl
  obtain ⟨as, rfl, hann, hreads⟩ := readAnnotation_of_head hrest₁ hannotation
  rcases error_of_bind h with hpassed | ⟨⟨rest₃, h₃⟩, hpassed, h⟩
  · refine (fails_expect wellFormed_dot hpassed).within (l :: lambda :: param :: as)
      [nameToken, symbolToken ")"]
      (fun us' hhead => readTermFrom_dot_error hl hlkind hlambda hparam (hreads us' hhead))
      (by simp [wellFormed_close, wellFormed_nameToken]) ?_
    rintro us' ⟨dot, hdot, rfl⟩
    simpa using isTerm_abstraction hl hlambda hparam ⟨ann, hann⟩ hdot isTerm_name rfl
  obtain ⟨dot, hdot, rfl⟩ : ∃ dot : Token, dot.text = "." ∧ rest₂ = dot :: rest₃ :=
    expect_eq_ok hpassed
  have hann' : ∀ us', ∃ hle, readAnnotation (as ++ dot :: us') = .ok (ann, ⟨dot :: us', hle⟩) :=
    fun us' => hreads (dot :: us') rfl
  have hrest₃ : ∀ t ∈ rest₃, t.WellFormed := fun t ht => hrest₁ t (by simp [ht])
  have hlead : l :: lambda :: param :: (as ++ dot :: rest₃) =
      l :: lambda :: param :: (as ++ [dot]) ++ rest₃ := by simp
  rw [hlead]
  refine fails_last (param.text :: bound) hrest₃ ?_ ?_ ?_ ?_ h
  · exact ih (by simp only [List.length_cons, List.length_append]; omega) hrest₃
  · intro us _ hus
    simpa using readTermFrom_body_error hl hlkind hlambda hparam (hann' us) hdot hus
  · intro ts us body hts hbody hus
    have hread := hbody.reads hts us
    simpa using readTermFrom_abstraction_error hl hlkind hlambda hparam (hann' _) hdot hread hus
  · intro ts r hts hr
    simpa using isTerm_abstraction hl hlambda hparam ⟨ann, hann⟩ hdot hts hr

theorem fails_pair (hl : l.text = "(") (hlkind : l.kind = .symbol)
    (hlambda : nextIs Token.isLambda us = false) (hus : ∀ t ∈ us, t.WellFormed)
    (ih : FailsBelow constants (us.length + 1))
    (h : readTermFrom constants bound (l :: us) = .error error) :
    Fails (readTermFrom constants bound) (IsTerm constants bound) (l :: us) error := by
  rw [readTermFrom] at h
  simp only [hlkind, hl, hlambda, reduceCtorEq, if_false, ne_eq, not_true_eq_false,
    Bool.false_eq_true] at h
  rcases error_of_bind h with hleft | ⟨⟨left, rest₁, h₁⟩, hleft, h⟩
  · refine (ih (by omega) hus hleft).within [l] [nameToken, symbolToken ")"]
      (fun us' hhead => readTermFrom_first_error hl hlkind ((nextIs_congr _ hhead).trans hlambda))
      (by simp [wellFormed_close, wellFormed_nameToken]) ?_
    intro us' hus'
    simpa using isTerm_application hl hus' isTerm_name rfl
  obtain ⟨ls, rfl, hls⟩ := derives_of_reads ⟨_, hleft⟩
  have hlsFormed : ∀ t ∈ ls, t.WellFormed := fun t ht => hus t (by simp [ht])
  have hfirst : ∀ us', nextIs Token.isLambda (ls ++ us') = false :=
    fun us' => (hls.next hlsFormed us').1
  dsimp only at h
  split at h
  · rename_i o ho
    obtain _ | ⟨s, rest⟩ := rest₁
    · cases ho
    have hs : s.text = o.symbol := Op.ofSymbol?_eq_some_iff.mp ho
    have hrestFormed : ∀ t ∈ rest, t.WellFormed := fun t ht => hus t (by simp [ht])
    have hlead : l :: (ls ++ s :: rest) = l :: (ls ++ [s]) ++ rest := by simp
    rw [hlead]
    refine fails_last bound hrestFormed ?_ ?_ ?_ ?_ h
    · exact ih (by simp only [List.length_cons, List.length_append]; omega) hrestFormed
    · intro us _ hus
      have hread := hls.reads hlsFormed (s :: us)
      simpa using readTermFrom_right_error hl hlkind (hfirst _) hread hs hus
    · intro ts us right hts hright hus
      have hread := hls.reads hlsFormed (s :: (ts ++ us))
      have hread' := hright.reads hts us
      simpa using readTermFrom_operation_error hl hlkind (hfirst _) hread hs hread' hus
    · intro ts r hts hr
      simpa using isTerm_operation hl ⟨left, hls⟩ hs hts hr
  · rename_i hop
    have hrestFormed : ∀ t ∈ rest₁, t.WellFormed := fun t ht => hus t (by simp [ht])
    rw [← List.cons_append]
    refine fails_last bound hrestFormed ?_ ?_ ?_ ?_ h
    · exact ih (by simp only [List.length_append]; omega) hrestFormed
    · intro us hhead hus
      have hread := hls.reads hlsFormed us
      have hop' := (nextOp?_congr hhead).trans hop
      exact readTermFrom_argument_error hl hlkind (hfirst _) hread hop' hus
    · intro ts us arg hts harg hus
      have hread := hls.reads hlsFormed (ts ++ us)
      have hnext := (harg.next hts us).2
      have hread' := harg.reads hts us
      exact readTermFrom_application_error hl hlkind (hfirst _) hread hnext hread' hus
    · intro ts r hts hr
      exact isTerm_application hl ⟨left, hls⟩ hts hr

/-- Wherever the reading of a term fails, what was read before can be completed, and what was met
cannot follow it. -/
theorem fails_readTermFrom {ts : List Token} (hts : ∀ t ∈ ts, t.WellFormed)
    (h : readTermFrom constants bound ts = .error error) :
    Fails (readTermFrom constants bound) (IsTerm constants bound) ts error := by
  have hempty : ∀ bound, Completable (IsTerm constants bound) [] :=
    fun bound => ⟨[nameToken], by simpa using wellFormed_nameToken, isTerm_name⟩
  induction hn : ts.length using Nat.strong_induction_on generalizing ts bound error with
  | _ n ih =>
      subst hn
      have hbelow : FailsBelow constants ts.length := fun hlt hts h => ih _ hlt hts h rfl
      cases ts with
      | nil =>
          rw [readTermFrom] at h
          cases h
          exact .ended _ (hempty bound)
      | cons t ts =>
          by_cases hnumber : t.kind = .number
          · obtain ⟨hlt, hread⟩ := @reads_number constants bound _ hnumber ts
            rw [hread] at h
            cases h
          by_cases hname : t.kind = .identifier
          · obtain ⟨hlt, hread⟩ := @reads_leaf constants bound _ hname ts
            rw [hread] at h
            cases h
          by_cases hl : t.text = "("
          · have hlkind : t.kind = .symbol := (hts t (by simp)).symbol (by simp [hl])
            cases hlambda : nextIs Token.isLambda ts with
            | true =>
                obtain ⟨lambda, hlambda, hsplit⟩ := nextIs_eq_true hlambda
                generalize ts.tail = us at hsplit
                subst hsplit
                exact fails_abstraction hl hlkind hlambda (fun u hu => hts u (by simp [hu]))
                  (fun hlt => hbelow (by simp only [List.length_cons]; omega)) h
            | false =>
                exact fails_pair hl hlkind hlambda (fun u hu => hts u (by simp [hu])) hbelow h
          · have hblocked := @readTermFrom_badStart constants bound _ hnumber hname hl
            cases (hblocked ts).symm.trans h
            exact .met [] rfl rfl (hempty bound) hblocked

end Terms

end Source

end LambdaMachine
