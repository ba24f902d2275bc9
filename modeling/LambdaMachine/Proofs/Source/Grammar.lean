import LambdaMachine.Proofs.Outcome
import LambdaMachine.Proofs.Source.Tokens
import LambdaMachine.Report.Causes

/-!
The grammar of the source language, and the reader as a decision procedure for it. A derivation says
which tokens a type or a term is made of, without an order in which they are looked at. What the
reader accepts has a derivation; conversely the tokens of a derivation are read whatever follows
them, since the first token of each part tells which rule made it. So no tokens have two derivations
that lead to different terms.
-/

namespace LambdaMachine

theorem Op.ofSymbol?_eq_some_iff {symbol : String} {o : Op} :
    Op.ofSymbol? symbol = some o ↔ symbol = o.symbol := by
  unfold Op.ofSymbol?
  split
  · rename_i h
    subst h
    cases o <;> decide
  · split
    · rename_i h
      subst h
      cases o <;> decide
    · cases o <;> simp_all [Op.symbol]

namespace Source

/-- The types that tokens derive. The flag tells whether the last rule was that of arrows, which is
ruled out on the left of an arrow: arrows associate to the right. -/
inductive DerivesType : Bool → List Token → Ty → Prop where
  | name {t : Token} (h : t.kind = .identifier) : DerivesType false [t] (.const t.text)
  | group {l r : Token} {isArrow : Bool} {ts : List Token} {type : Ty} (hl : l.text = "(")
      (h : DerivesType isArrow ts type) (hr : r.text = ")") :
      DerivesType false (l :: ts ++ [r]) type
  | arrow {a : Token} {isArrow : Bool} {ds cs : List Token} {domain codomain : Ty}
      (hd : DerivesType false ds domain) (ha : a.kind = .arrow)
      (hc : DerivesType isArrow cs codomain) :
      DerivesType true (ds ++ a :: cs) (.arrow domain codomain)

/-- The tokens between a parameter and the dot, with the annotation that they stand for. -/
inductive DerivesAnnotation : List Token → Option Ty → Prop where
  | none : DerivesAnnotation [] none
  | some {k : Token} {isArrow : Bool} {ts : List Token} {type : Ty} (hk : k.text = ":")
      (h : DerivesType isArrow ts type) : DerivesAnnotation (k :: ts) (some type)

/-- The terms that tokens derive under binders of the given names. -/
inductive Derives (constants : Constants) : List String → List Token → Term → Prop where
  | number {bound : List String} {t : Token} (h : t.kind = .number) :
      Derives constants bound [t] (.num (Text.natOfDigits t.text.toList))
  | constant {bound : List String} {t : Token} {type : Ty} (h : t.kind = .identifier)
      (hfound : constants.lookup t.text = some type) (hfree : t.text ∉ bound) :
      Derives constants bound [t] (.const t.text type)
  | variable {bound : List String} {t : Token} (h : t.kind = .identifier)
      (hname : constants.lookup t.text = none ∨ t.text ∈ bound) :
      Derives constants bound [t] (.var (some t.text))
  | abstraction {bound : List String} {l lambda param dot r : Token} {as ts : List Token}
      {ann : Option Ty} {body : Term} (hl : l.text = "(") (hlambda : lambda.isLambda = true)
      (hparam : param.kind = .identifier) (hann : DerivesAnnotation as ann) (hdot : dot.text = ".")
      (hbody : Derives constants (param.text :: bound) ts body) (hr : r.text = ")") :
      Derives constants bound (l :: lambda :: param :: as ++ dot :: ts ++ [r])
        (.lam (some param.text) ann body)
  | application {bound : List String} {l r : Token} {fs as : List Token} {func arg : Term}
      (hl : l.text = "(") (hf : Derives constants bound fs func)
      (ha : Derives constants bound as arg) (hr : r.text = ")") :
      Derives constants bound (l :: fs ++ as ++ [r]) (.app func arg)
  | operation {bound : List String} {l s r : Token} {ls rs : List Token} {o : Op}
      {left right : Term} (hl : l.text = "(") (hleft : Derives constants bound ls left)
      (hs : s.text = o.symbol) (hright : Derives constants bound rs right) (hr : r.text = ")") :
      Derives constants bound (l :: ls ++ s :: rs ++ [r]) (.op o left right)

/-- A reader succeeds, and leaves the given tokens. -/
def Reads {α : Type} (reader : (ts : List Token) → Except ReadError (α × Rest ts))
    (ts : List Token) (a : α) (rest : List Token) : Prop :=
  ∃ h, reader ts = .ok (a, ⟨rest, h⟩)

section Soundness

theorem expect_eq_ok {text : String} {ts rest : List Token} {hlt : rest.length < ts.length}
    (h : expect text ts = .ok ⟨rest, hlt⟩) : ∃ t, t.text = text ∧ ts = t :: rest := by
  cases ts with
  | nil => cases h
  | cons t ts =>
      rw [expect] at h
      split at h
      · rename_i htext
        cases h
        exact ⟨t, htext, rfl⟩
      · cases h

theorem readParameter_eq_ok {ts rest : List Token} {name : String} {hlt : rest.length < ts.length}
    (h : readParameter ts = .ok (name, ⟨rest, hlt⟩)) :
    ∃ t, t.kind = .identifier ∧ name = t.text ∧ ts = t :: rest := by
  cases ts with
  | nil => cases h
  | cons t ts =>
      rw [readParameter] at h
      split at h
      · rename_i hkind
        cases h
        exact ⟨t, hkind, rfl, rfl⟩
      · cases h

theorem nextIs_eq_true {p : Token → Bool} {ts : List Token} (h : nextIs p ts = true) :
    ∃ t, p t = true ∧ ts = t :: ts.tail := by
  cases ts with
  | nil => cases h
  | cons t ts => exact ⟨t, h, rfl⟩

theorem nextOp?_eq_some {ts : List Token} {o : Op} (h : nextOp? ts = some o) :
    ∃ t, t.text = o.symbol ∧ ts = t :: ts.tail := by
  cases ts with
  | nil => cases h
  | cons t ts => exact ⟨t, Op.ofSymbol?_eq_some_iff.mp h, rfl⟩

theorem derivesType_of_reads {ts rest : List Token} {type : Ty}
    (h : Reads readTypeFrom ts type rest) :
    ∃ isArrow read, ts = read ++ rest ∧ DerivesType isArrow read type := by
  induction hn : ts.length using Nat.strong_induction_on generalizing ts type rest with
  | _ n ih =>
      subst hn
      obtain ⟨hlt, h⟩ := h
      cases ts with
      | nil => simp [readTypeFrom] at h
      | cons t ts =>
          rw [readTypeFrom] at h
          obtain ⟨⟨domain, rest', hlt'⟩, hdomain, h⟩ := ok_of_bind h
          have hoperand : ∃ read, t :: ts = read ++ rest' ∧ DerivesType false read domain := by
            split at hdomain
            · rename_i hkind
              cases hdomain
              exact ⟨[t], rfl, .name hkind⟩
            · split at hdomain
              · rename_i hl
                obtain ⟨⟨inner, left, hleft⟩, hinner, hdomain⟩ := ok_of_bind hdomain
                obtain ⟨⟨left', hleft'⟩, hclose, hdomain⟩ := ok_of_bind hdomain
                cases hdomain
                obtain ⟨isArrow, read, rfl, hderives⟩ := ih ts.length (by simp) ⟨_, hinner⟩ rfl
                obtain ⟨r, hr, hrest⟩ := expect_eq_ok hclose
                exact ⟨t :: read ++ [r], by simp [hrest], .group hl hderives hr⟩
              · cases hdomain
          obtain ⟨read, hread, hderives⟩ := hoperand
          dsimp only at h
          split at h
          · rename_i harrow
            obtain ⟨⟨codomain, left, hleft⟩, hcodomain, h⟩ := ok_of_bind h
            cases h
            obtain ⟨a, ha, hrest⟩ := nextIs_eq_true harrow
            have hshorter : rest'.tail.length < (t :: ts).length := by
              rw [List.length_tail]
              omega
            obtain ⟨isArrow, read', hread', hderives'⟩ := ih _ hshorter ⟨_, hcodomain⟩ rfl
            refine ⟨true, read ++ a :: read', ?_, .arrow hderives (by simpa using ha) hderives'⟩
            dsimp only
            rw [hread, hrest, hread']
            simp
          · cases h
            exact ⟨false, read, hread, hderives⟩

theorem derivesAnnotation_of_readAnnotation {ts rest : List Token} {ann : Option Ty}
    {hle : rest.length ≤ ts.length} (h : readAnnotation ts = .ok (ann, ⟨rest, hle⟩)) :
    ∃ read, ts = read ++ rest ∧ DerivesAnnotation read ann := by
  unfold readAnnotation at h
  split at h
  · rename_i hcolon
    obtain ⟨⟨type, left, hleft⟩, htype, h⟩ := ok_of_bind h
    cases h
    obtain ⟨k, hk, hts⟩ := nextIs_eq_true hcolon
    obtain ⟨isArrow, read, hread, hderives⟩ := derivesType_of_reads ⟨_, htype⟩
    refine ⟨k :: read, ?_, .some (by simpa using hk) hderives⟩
    rw [hts, hread]
    rfl
  · cases h
    exact ⟨[], rfl, .none⟩

theorem derives_leaf (constants : Constants) (bound : List String) {t : Token}
    (h : t.kind = .identifier) : Derives constants bound [t] (leaf constants bound t.text) := by
  unfold leaf
  split
  · rename_i type hfound
    split
    · rename_i hbound
      exact .variable h (.inr hbound)
    · rename_i hfree
      exact .constant h hfound hfree
  · rename_i hnone
    exact .variable h (.inl hnone)

/-- What is read from tokens has a derivation from those that were used up. -/
theorem derives_of_reads {constants : Constants} {bound : List String} {ts rest : List Token}
    {e : Term} (h : Reads (readTermFrom constants bound) ts e rest) :
    ∃ read, ts = read ++ rest ∧ Derives constants bound read e := by
  induction hn : ts.length using Nat.strong_induction_on generalizing ts bound e rest with
  | _ n ih =>
      subst hn
      obtain ⟨hlt, h⟩ := h
      cases ts with
      | nil => simp [readTermFrom] at h
      | cons t ts =>
          rw [readTermFrom] at h
          split at h
          · rename_i hkind
            cases h
            exact ⟨[t], rfl, .number hkind⟩
          · split at h
            · rename_i hkind
              cases h
              exact ⟨[t], rfl, derives_leaf constants bound hkind⟩
            · split at h
              · cases h
              · rename_i hl
                rw [not_not] at hl
                split at h
                · rename_i hlambda
                  obtain ⟨⟨name, rest₁, h₁⟩, hparam, h⟩ := ok_of_bind h
                  obtain ⟨⟨ann, rest₂, h₂⟩, hann, h⟩ := ok_of_bind h
                  obtain ⟨⟨rest₃, h₃⟩, hdot, h⟩ := ok_of_bind h
                  obtain ⟨⟨body, rest₄, h₄⟩, hbody, h⟩ := ok_of_bind h
                  obtain ⟨⟨rest₅, h₅⟩, hclose, h⟩ := ok_of_bind h
                  cases h
                  obtain ⟨lambda, hlambda, hts⟩ := nextIs_eq_true hlambda
                  obtain ⟨param, hkind, rfl, hrest⟩ := readParameter_eq_ok hparam
                  obtain ⟨as, has, hann⟩ := derivesAnnotation_of_readAnnotation hann
                  obtain ⟨dot, hdot, hrest₂⟩ := expect_eq_ok hdot
                  obtain ⟨r, hr, hrest₄⟩ := expect_eq_ok hclose
                  have htail : ts.tail.length = ts.length - 1 := List.length_tail
                  have hshorter : rest₃.length < (t :: ts).length := by
                    simp only [List.length_cons]
                    omega
                  obtain ⟨read, hread, hderives⟩ := ih _ hshorter ⟨_, hbody⟩ rfl
                  refine ⟨_, ?_, .abstraction hl hlambda hkind hann hdot hderives hr⟩
                  rw [hts, hrest, has, hrest₂, hread, hrest₄]
                  simp
                · obtain ⟨⟨left, rest₁, h₁⟩, hleft, h⟩ := ok_of_bind h
                  obtain ⟨ls, hls, hleft⟩ := ih ts.length (by simp) ⟨_, hleft⟩ rfl
                  dsimp only at h
                  split at h
                  · rename_i o ho
                    obtain ⟨⟨right, rest₂, h₂⟩, hright, h⟩ := ok_of_bind h
                    obtain ⟨⟨rest₃, h₃⟩, hclose, h⟩ := ok_of_bind h
                    cases h
                    obtain ⟨s, hs, hrest₁⟩ := nextOp?_eq_some ho
                    obtain ⟨r, hr, hrest₂⟩ : ∃ r : Token, r.text = ")" ∧ rest₂ = r :: rest₃ :=
                      expect_eq_ok hclose
                    have hshorter : rest₁.tail.length < (t :: ts).length := by
                      simp only [List.length_cons, List.length_tail]
                      omega
                    obtain ⟨rs, hrs, hright⟩ := ih _ hshorter ⟨_, hright⟩ rfl
                    refine ⟨_, ?_, .operation hl hleft hs hright hr⟩
                    dsimp only
                    rw [hls, hrest₁, hrs, hrest₂]
                    simp
                  · obtain ⟨⟨right, rest₂, h₂⟩, hright, h⟩ := ok_of_bind h
                    obtain ⟨⟨rest₃, h₃⟩, hclose, h⟩ := ok_of_bind h
                    cases h
                    obtain ⟨r, hr, hrest₂⟩ : ∃ r : Token, r.text = ")" ∧ rest₂ = r :: rest₃ :=
                      expect_eq_ok hclose
                    have hshorter : rest₁.length < (t :: ts).length := by
                      simp only [List.length_cons]
                      omega
                    obtain ⟨rs, hrs, hright⟩ := ih _ hshorter ⟨_, hright⟩ rfl
                    refine ⟨_, ?_, .application hl hleft hright hr⟩
                    dsimp only
                    rw [hls, hrs, hrest₂]
                    simp

end Soundness

section Completeness

theorem Token.WellFormed.kind_eq {t : Token} (h : t.WellFormed) {kind : Kind}
    (hkind : Lexeme kind t.text.toList []) : t.kind = kind := by
  obtain ⟨c, cs, htext, -⟩ := h.exists_cons
  have hcons : c :: cs = t.text.toList ++ [] := by rw [htext, List.append_nil]
  have hsame := (lexeme?_of_lexeme hcons h).symm.trans (lexeme?_of_lexeme hcons hkind)
  cases hsame
  rfl

theorem Token.WellFormed.symbol {t : Token} (h : t.WellFormed)
    (htext : t.text ∈ ["(", ")", ".", ":", "+", "*", "λ", "lambda"]) : t.kind = .symbol := by
  apply h.kind_eq
  simp only [List.mem_cons, List.not_mem_nil, or_false] at htext
  rcases htext with htext | htext | htext | htext | htext | htext | htext | htext <;> rw [htext]
  case inr.inr.inr.inr.inr.inr.inr =>
    have hword : Lexeme (wordKind "lambda".toList) ('l' :: "ambda".toList) [] :=
      .word (by decide) (List.all_eq_true.mp rfl) (ends_nil _)
    exact hword
  all_goals exact .symbol (by decide) []

theorem Token.WellFormed.plain {t : Token} (h : t.WellFormed) (hkind : t.kind ≠ .symbol) :
    t.isLambda = false ∧ Op.ofSymbol? t.text = none := by
  constructor
  · rw [← Bool.not_eq_true]
    intro hlambda
    have htext : t.text = "lambda" ∨ t.text = "λ" := by simpa [Token.isLambda] using hlambda
    exact hkind (h.symbol (by rcases htext with htext | htext <;> simp [htext]))
  · by_contra hop
    obtain ⟨o, ho⟩ := Option.ne_none_iff_exists'.mp hop
    rw [Op.ofSymbol?_eq_some_iff] at ho
    exact hkind (h.symbol (by cases o <;> simp [ho, Op.symbol]))

theorem expect_cons {text : String} {t : Token} (h : t.text = text) (ts : List Token) :
    expect text (t :: ts) = .ok ⟨ts, Nat.lt_succ_self _⟩ := by
  rw [expect, if_pos h]

/-- What reading a type comes to once a domain is read and the given tokens are left. -/
inductive Continues (domain : Ty) : List Token → Ty → List Token → Prop where
  | stop {rest : List Token} (h : nextIs (·.kind == .arrow) rest = false) :
      Continues domain rest domain rest
  | arrow {a : Token} {ts rest : List Token} {codomain : Ty} (ha : a.kind = .arrow)
      (h : Reads readTypeFrom ts codomain rest) :
      Continues domain (a :: ts) (.arrow domain codomain) rest

theorem Continues.reads_name {t : Token} (ht : t.kind = .identifier) {ts rest : List Token}
    {type : Ty} (h : Continues (.const t.text) ts type rest) :
    Reads readTypeFrom (t :: ts) type rest := by
  cases h with
  | stop h =>
      refine ⟨by simp, ?_⟩
      rw [readTypeFrom]
      simp [ht, h, bind, Except.bind, pure, Except.pure]
  | @arrow a ts _ codomain ha h =>
      obtain ⟨hlt, h⟩ := h
      refine ⟨by simp only [List.length_cons]; omega, ?_⟩
      rw [readTypeFrom]
      simp [ht, ha, h, nextIs, bind, Except.bind, pure, Except.pure]

theorem Continues.reads_group {l r : Token} (hl : l.kind ≠ .identifier) (htext : l.text = "(")
    (hr : r.text = ")") {us ts rest : List Token} {inner type : Ty}
    (hinner : Reads readTypeFrom us inner (r :: ts)) (h : Continues inner ts type rest) :
    Reads readTypeFrom (l :: us) type rest := by
  obtain ⟨hlt, hinner⟩ := hinner
  simp only [List.length_cons] at hlt
  cases h with
  | stop h =>
      refine ⟨by simp only [List.length_cons]; omega, ?_⟩
      rw [readTypeFrom]
      simp [hl, htext, hinner, expect_cons hr, h, bind, Except.bind, pure, Except.pure]
  | arrow ha h =>
      obtain ⟨hlt', h⟩ := h
      simp only [List.length_cons] at hlt
      refine ⟨by simp only [List.length_cons]; omega, ?_⟩
      rw [readTypeFrom]
      simp [hl, htext, hinner, expect_cons hr, ha, h, nextIs, bind, Except.bind, pure, Except.pure]

theorem DerivesType.reads {isArrow : Bool} {ts : List Token} {domain : Ty}
    (h : DerivesType isArrow ts domain) (hts : ∀ t ∈ ts, t.WellFormed) {us rest : List Token}
    {type : Ty} (hrest : Continues domain us type rest)
    (hstop : isArrow = true → nextIs (·.kind == .arrow) us = false) :
    Reads readTypeFrom (ts ++ us) type rest := by
  induction h generalizing us rest type with
  | name h => exact hrest.reads_name h
  | @group l r _ ts inner hl h hr ih =>
      have hlkind : l.kind = .symbol := (hts l (by simp)).symbol (by simp [hl])
      have hrkind : r.kind = .symbol := (hts r (by simp)).symbol (by simp [hr])
      have hnext : nextIs (·.kind == .arrow) (r :: us) = false := by simp [nextIs, hrkind]
      have hinner := ih (fun t ht => hts t (by simp [ht])) (.stop hnext) fun _ => hnext
      rw [List.append_assoc]
      exact hrest.reads_group (by simp [hlkind]) hl hr hinner
  | @arrow a _ ds cs domain codomain hd ha hc ihd ihc =>
      cases hrest with
      | stop hnext =>
          have hcodomain := ihc (fun t ht => hts t (by simp [ht])) (.stop hnext) fun _ => hnext
          rw [List.append_assoc]
          exact ihd (fun t ht => hts t (by simp [ht])) (.arrow ha hcodomain) (by simp)
      | arrow ha _ => simp [nextIs, ha] at hstop

theorem DerivesAnnotation.reads {ts : List Token} {ann : Option Ty} (h : DerivesAnnotation ts ann)
    (hts : ∀ t ∈ ts, t.WellFormed) {dot : Token} (hdot : dot.text = ".")
    (hkind : dot.kind = .symbol) (rest : List Token) :
    ∃ hle, readAnnotation (ts ++ dot :: rest) = .ok (ann, ⟨dot :: rest, hle⟩) := by
  cases h with
  | none => exact ⟨by simp, by simp [nextIs, readAnnotation, hdot]⟩
  | @some k _ ts type hk h =>
      have hnext : nextIs (·.kind == .arrow) (dot :: rest) = false := by simp [nextIs, hkind]
      obtain ⟨hlt, hread⟩ := h.reads (fun t ht => hts t (by simp [ht])) (.stop hnext) fun _ => hnext
      refine ⟨by simp only [List.cons_append, List.length_cons] at hlt ⊢; omega, ?_⟩
      simp [nextIs, readAnnotation, hk, hread, bind, Except.bind, pure, Except.pure]

section Term

variable {constants : Constants} {bound : List String} {t l s r : Token} {ts us rest : List Token}

theorem reads_number (h : t.kind = .number) (rest : List Token) :
    Reads (readTermFrom constants bound) (t :: rest) (.num (Text.natOfDigits t.text.toList))
      rest := by
  refine ⟨by simp, ?_⟩
  rw [readTermFrom]
  simp [h, pure, Except.pure]

theorem reads_leaf (h : t.kind = .identifier) (rest : List Token) :
    Reads (readTermFrom constants bound) (t :: rest) (leaf constants bound t.text) rest := by
  refine ⟨by simp, ?_⟩
  rw [readTermFrom]
  simp [h, pure, Except.pure]

theorem reads_abstraction {lambda param dot : Token} {ann : Option Ty} {body : Term}
    (hl : l.text = "(") (hlkind : l.kind = .symbol) (hlambda : lambda.isLambda = true)
    (hparam : param.kind = .identifier) (hdot : dot.text = ".") (hr : r.text = ")")
    (hann : ∃ hle, readAnnotation ts = .ok (ann, ⟨dot :: us, hle⟩))
    (hbody : Reads (readTermFrom constants (param.text :: bound)) us body (r :: rest)) :
    Reads (readTermFrom constants bound) (l :: lambda :: param :: ts)
      (.lam (some param.text) ann body) rest := by
  obtain ⟨hle, hann⟩ := hann
  obtain ⟨hlt, hbody⟩ := hbody
  simp only [List.length_cons] at hle hlt
  refine ⟨by simp only [List.length_cons]; omega, ?_⟩
  rw [readTermFrom]
  simp [hl, hlkind, nextIs, hlambda, readParameter, hparam, hann, expect_cons hdot, hbody,
    expect_cons hr, bind, Except.bind, pure, Except.pure]

theorem reads_application {func arg : LambdaMachine.Term} (hl : l.text = "(")
    (hlkind : l.kind = .symbol) (hlambda : nextIs Token.isLambda ts = false) (hr : r.text = ")")
    (hf : Reads (readTermFrom constants bound) ts func us) (hop : nextOp? us = none)
    (ha : Reads (readTermFrom constants bound) us arg (r :: rest)) :
    Reads (readTermFrom constants bound) (l :: ts) (.app func arg) rest := by
  obtain ⟨hlt, hf⟩ := hf
  obtain ⟨hlt', ha⟩ := ha
  simp only [List.length_cons] at hlt'
  refine ⟨by simp only [List.length_cons]; omega, ?_⟩
  rw [readTermFrom]
  simp [hl, hlkind, hlambda, hf, hop, ha, expect_cons hr, bind, Except.bind, pure, Except.pure]

theorem reads_operation {o : Op} {left right : LambdaMachine.Term} (hl : l.text = "(")
    (hlkind : l.kind = .symbol) (hlambda : nextIs Token.isLambda ts = false)
    (hs : s.text = o.symbol) (hr : r.text = ")")
    (hleft : Reads (readTermFrom constants bound) ts left (s :: us))
    (hright : Reads (readTermFrom constants bound) us right (r :: rest)) :
    Reads (readTermFrom constants bound) (l :: ts) (.op o left right) rest := by
  obtain ⟨hlt, hleft⟩ := hleft
  obtain ⟨hlt', hright⟩ := hright
  simp only [List.length_cons] at hlt hlt'
  have hop : nextOp? (s :: us) = some o := Op.ofSymbol?_eq_some_iff.mpr hs
  refine ⟨by simp only [List.length_cons]; omega, ?_⟩
  rw [readTermFrom]
  simp [hl, hlkind, hlambda, hleft, hop, hright, expect_cons hr, bind, Except.bind, pure,
    Except.pure]

end Term

theorem Derives.next {constants : Constants} {bound : List String} {ts : List Token}
    {e : Term} (h : Derives constants bound ts e) (hts : ∀ t ∈ ts, t.WellFormed)
    (rest : List Token) :
    nextIs Token.isLambda (ts ++ rest) = false ∧ nextOp? (ts ++ rest) = none := by
  have hopen : ∀ l : Token, l.text = "(" → l.isLambda = false ∧ Op.ofSymbol? l.text = none := by
    intro l hl
    simp only [Token.isLambda, hl]
    decide
  cases h with
  | number h => exact (hts _ (by simp)).plain (by simp [h])
  | constant h => exact (hts _ (by simp)).plain (by simp [h])
  | «variable» h => exact (hts _ (by simp)).plain (by simp [h])
  | abstraction hl => exact hopen _ hl
  | application hl => exact hopen _ hl
  | operation hl => exact hopen _ hl

/-- The tokens of a derivation are read as its term, whatever follows them. -/
theorem Derives.reads {constants : Constants} {bound : List String} {ts : List Token} {e : Term}
    (h : Derives constants bound ts e) (hts : ∀ t ∈ ts, t.WellFormed) (rest : List Token) :
    Reads (readTermFrom constants bound) (ts ++ rest) e rest := by
  induction h generalizing rest with
  | number h => exact reads_number h rest
  | @constant bound t type h hfound hfree =>
      have hleaf : leaf constants bound t.text = .const t.text type := by simp [leaf, hfound, hfree]
      rw [← hleaf]
      exact reads_leaf h rest
  | @«variable» bound t h hname =>
      have hleaf : leaf constants bound t.text = .var (some t.text) := by
        unfold leaf
        rcases hname with hnone | hbound
        · simp [hnone]
        · cases constants.lookup t.text <;> simp [hbound]
      rw [← hleaf]
      exact reads_leaf h rest
  | @abstraction bound l lambda param dot r as ts ann body hl hlambda hparam hann hdot hbody hr ih =>
      have hlkind : l.kind = .symbol := (hts l (by simp)).symbol (by simp [hl])
      have hdotkind : dot.kind = .symbol := (hts dot (by simp)).symbol (by simp [hdot])
      have hread := ih (fun t ht => hts t (by simp [ht])) (r :: rest)
      have hann := hann.reads (fun t ht => hts t (by simp [ht])) hdot hdotkind (ts ++ r :: rest)
      simpa using reads_abstraction hl hlkind hlambda hparam hdot hr hann hread
  | @application bound l r fs as func arg hl hf ha hr ihf iha =>
      have hlkind : l.kind = .symbol := (hts l (by simp)).symbol (by simp [hl])
      have hfs : ∀ t ∈ fs, t.WellFormed := fun t ht => hts t (by simp [ht])
      have has : ∀ t ∈ as, t.WellFormed := fun t ht => hts t (by simp [ht])
      have hfunc := ihf hfs (as ++ r :: rest)
      have harg := iha has (r :: rest)
      have hlambda := (hf.next hfs (as ++ r :: rest)).1
      have hop := (ha.next has (r :: rest)).2
      simpa using reads_application hl hlkind hlambda hr hfunc hop harg
  | @operation bound l s r ls rs o left right hl hleft hs hright hr ihl ihr =>
      have hlkind : l.kind = .symbol := (hts l (by simp)).symbol (by simp [hl])
      have hls : ∀ t ∈ ls, t.WellFormed := fun t ht => hts t (by simp [ht])
      have hreadl := ihl hls (s :: rs ++ r :: rest)
      have hreadr := ihr (fun t ht => hts t (by simp [ht])) (r :: rest)
      have hlambda := (hleft.next hls (s :: rs ++ r :: rest)).1
      simpa using reads_operation hl hlkind hlambda hs hr hreadl hreadr

end Completeness

theorem readAll_eq_ok_iff {α : Type} {part : Part}
    {reader : (ts : List Token) → Except ReadError (α × Rest ts)} {ts : List Token} {a : α} :
    readAll part reader ts = .ok a ↔ Reads reader ts a [] := by
  unfold readAll
  cases ts with
  | nil =>
      constructor
      · intro h
        cases h
      · rintro ⟨hlt, -⟩
        simp at hlt
  | cons t ts =>
      constructor
      · intro h
        obtain ⟨⟨b, rest, hlt⟩, hread, h⟩ := ok_of_bind (x := reader (t :: ts)) h
        cases rest with
        | nil =>
            cases h
            exact ⟨_, hread⟩
        | cons u us => cases h
      · rintro ⟨hlt, hread⟩
        simp [hread, bind, Except.bind, pure, Except.pure]

theorem readAll_term_iff {constants : Constants} {bound : List String} {ts : List Token}
    (hts : ∀ t ∈ ts, t.WellFormed) {e : Term} :
    readAll .term (readTermFrom constants bound) ts = .ok e ↔ Derives constants bound ts e := by
  rw [readAll_eq_ok_iff]
  constructor
  · intro h
    obtain ⟨read, hread, hderives⟩ := derives_of_reads h
    rw [List.append_nil] at hread
    exact hread ▸ hderives
  · intro h
    have hread := h.reads hts []
    rwa [List.append_nil] at hread

theorem readAll_type_iff {ts : List Token} (hts : ∀ t ∈ ts, t.WellFormed) {type : Ty} :
    readAll .type readTypeFrom ts = .ok type ↔ ∃ isArrow, DerivesType isArrow ts type := by
  rw [readAll_eq_ok_iff]
  constructor
  · intro h
    obtain ⟨isArrow, read, hread, hderives⟩ := derivesType_of_reads h
    rw [List.append_nil] at hread
    exact ⟨isArrow, hread ▸ hderives⟩
  · rintro ⟨isArrow, h⟩
    have hstop : Continues type [] type [] := .stop rfl
    have hread := h.reads hts hstop fun _ => rfl
    rwa [List.append_nil] at hread

theorem wellFormed_of_tokenize {text : String} {ts : List Token} (h : tokenize text = .ok ts) :
    ∀ t ∈ ts, t.WellFormed := by
  obtain ⟨stop, hlexes⟩ := tokenize_eq_ok_iff.mp h
  exact hlexes.wellFormed

theorem lex_eq_ok_iff {text : String} {ts : List Token} :
    lex text = .ok ts ↔ tokenize text = .ok ts := by
  unfold lex
  cases tokenize text <;> simp

theorem read_of_tokenize (constants : Constants) {text : String} {ts : List Token}
    (h : tokenize text = .ok ts) :
    read constants text = readAll .term (readTermFrom constants []) ts := by
  unfold read
  rw [lex_eq_ok_iff.mpr h]
  rfl

theorem read_eq_ok_iff {constants : Constants} {text : String} {e : Term} :
    read constants text = .ok e ↔ ∃ ts, tokenize text = .ok ts ∧ Derives constants [] ts e := by
  constructor
  · intro h
    obtain ⟨ts, hlex, hread⟩ := ok_of_bind h
    have htokens := lex_eq_ok_iff.mp hlex
    exact ⟨ts, htokens, (readAll_term_iff (wellFormed_of_tokenize htokens)).mp hread⟩
  · rintro ⟨ts, htokens, hderives⟩
    rw [read_of_tokenize constants htokens]
    exact (readAll_term_iff (wellFormed_of_tokenize htokens)).mpr hderives

theorem readType_eq_ok_iff {text : String} {type : Ty} :
    readType text = .ok type ↔
      ∃ ts isArrow, tokenize text = .ok ts ∧ DerivesType isArrow ts type := by
  constructor
  · intro h
    obtain ⟨ts, hlex, hread⟩ := ok_of_bind h
    have htokens := lex_eq_ok_iff.mp hlex
    obtain ⟨isArrow, hderives⟩ := (readAll_type_iff (wellFormed_of_tokenize htokens)).mp hread
    exact ⟨ts, isArrow, htokens, hderives⟩
  · rintro ⟨ts, isArrow, htokens, hderives⟩
    unfold readType
    rw [lex_eq_ok_iff.mpr htokens]
    exact (readAll_type_iff (wellFormed_of_tokenize htokens)).mpr ⟨isArrow, hderives⟩

theorem Derives.unique {constants : Constants} {bound : List String} {ts : List Token}
    (hts : ∀ t ∈ ts, t.WellFormed) {e e' : Term} (h : Derives constants bound ts e)
    (h' : Derives constants bound ts e') : e = e' := by
  have hread := (readAll_term_iff hts).mpr h
  rw [(readAll_term_iff hts).mpr h'] at hread
  cases hread
  rfl

theorem problem_ofReadError (text : String) (error : ReadError) :
    (Report.ofReadError text error).problem = .unreadable := by
  cases error <;> rfl

/-- The reader accepts exactly its grammar: a text that has tokens is read as a term if and only if
the tokens derive it. They derive one term at most, and if they derive none, the text is reported as
unreadable. -/
theorem read_iff_derives (constants : Constants) {text : String} {ts : List Token}
    (h : tokenize text = .ok ts) :
    (∀ e, read constants text = .ok e ↔ Derives constants [] ts e) ∧
    (∀ bound e e', Derives constants bound ts e → Derives constants bound ts e' → e = e') ∧
    ((∀ e, ¬ Derives constants [] ts e) →
      ∃ error, read constants text = .error error ∧
        (Report.ofReadError text error).problem = .unreadable) := by
  have hts := wellFormed_of_tokenize h
  have hiff : ∀ e, read constants text = .ok e ↔ Derives constants [] ts e := by
    intro e
    rw [read_of_tokenize constants h, readAll_term_iff hts]
  refine ⟨hiff, fun bound e e' he he' => he.unique hts he', fun hnone => ?_⟩
  cases hread : read constants text with
  | ok e => exact absurd ((hiff e).mp hread) (hnone e)
  | error error => exact ⟨error, rfl, problem_ofReadError text error⟩

/-- The parameter has the name of a constant, and its type is written without parentheses. -/
theorem read_iff_derives_annotated :
    ∃ ts, tokenize "(lambda f:A -> B -> C. (f true))" = .ok ts ∧
      Derives [("true", .bool), ("f", .bool)] [] ts
        (.lam (some "f") (some (.arrow (.const "A") (.arrow (.const "B") (.const "C"))))
          (.app (.var (some "f")) (.const "true" .bool))) := by
  have hread : read [("true", .bool), ("f", .bool)] "(lambda f:A -> B -> C. (f true))" =
      .ok (.lam (some "f") (some (.arrow (.const "A") (.arrow (.const "B") (.const "C"))))
        (.app (.var (some "f")) (.const "true" .bool))) := by
    decide +kernel
  obtain ⟨ts, htokens, -⟩ := read_eq_ok_iff.mp hread
  exact ⟨ts, htokens, ((read_iff_derives _ htokens).1 _).mp hread⟩

end Source

end LambdaMachine
