import LambdaMachine.Proofs.Source.Grammar
import LambdaMachine.Source.Occurrence

/-!
Free occurrences in a source text. The leaves of a term stand in the text from left to right, one
token each. The passage through the tokens that looks for a free name keeps the binders around it in
step with those around the leaves, so it ends at the leftmost leaf that is free and has the name.
-/

namespace LambdaMachine

/-- A leaf of a term, with the labels of the binders around it, innermost first. -/
structure Leaf where
  term : Term
  bound : List Label

/-- The label of a leaf that is a free variable. -/
def Leaf.free? : Leaf → Option Label
  | ⟨.var label, bound⟩ => if bound.contains label then none else some label
  | _ => none

/-- The leaves of a term under binders, from left to right. -/
def Term.leaves (bound : List Label) : Term → List Leaf
  | .lam param _ body => body.leaves (param :: bound)
  | .app func arg => func.leaves bound ++ arg.leaves bound
  | .op _ left right => left.leaves bound ++ right.leaves bound
  | e => [⟨e, bound⟩]

theorem Term.filterMap_leaves (e : Term) (bound : List Label) :
    (e.leaves bound).filterMap Leaf.free? = e.freeVars.filter (· ∉ bound) := by
  induction e generalizing bound with
  | var label => by_cases h : label ∈ bound <;> simp [leaves, Leaf.free?, freeVars, h]
  | lam param ann body ih =>
      rw [leaves, freeVars, ih, List.filter_filter]
      congr 1
      funext label
      simp [Bool.and_comm]
  | app func arg ihf iha =>
      rw [leaves, freeVars, List.filterMap_append, ihf, iha, List.filter_append]
  | op o left right ihl ihr =>
      rw [leaves, freeVars, List.filterMap_append, ihl, ihr, List.filter_append]
  | _ => rfl

namespace Source

/-- The terms that tokens derive under binders of the given names, with the token of each leaf. -/
inductive DerivesAt (constants : Constants) :
    List String → List Token → Term → List (Token × Leaf) → Prop where
  | number {bound : List String} {t : Token} (h : t.kind = .number) :
      DerivesAt constants bound [t] (.num (Text.natOfDigits t.text.toList))
        [(t, ⟨.num (Text.natOfDigits t.text.toList), bound.map some⟩)]
  | constant {bound : List String} {t : Token} {type : Ty} (h : t.kind = .identifier)
      (hfound : constants.lookup t.text = some type) (hfree : t.text ∉ bound) :
      DerivesAt constants bound [t] (.const t.text type)
        [(t, ⟨.const t.text type, bound.map some⟩)]
  | variable {bound : List String} {t : Token} (h : t.kind = .identifier)
      (hname : constants.lookup t.text = none ∨ t.text ∈ bound) :
      DerivesAt constants bound [t] (.var (some t.text))
        [(t, ⟨.var (some t.text), bound.map some⟩)]
  | abstraction {bound : List String} {l lambda param dot r : Token} {as ts : List Token}
      {ann : Option Ty} {body : Term} {qs : List (Token × Leaf)} (hl : l.text = "(")
      (hlambda : lambda.isLambda = true) (hparam : param.kind = .identifier)
      (hann : DerivesAnnotation as ann) (hdot : dot.text = ".")
      (hbody : DerivesAt constants (param.text :: bound) ts body qs) (hr : r.text = ")") :
      DerivesAt constants bound (l :: lambda :: param :: as ++ dot :: ts ++ [r])
        (.lam (some param.text) ann body) qs
  | application {bound : List String} {l r : Token} {fs as : List Token} {func arg : Term}
      {qs rs : List (Token × Leaf)} (hl : l.text = "(") (hf : DerivesAt constants bound fs func qs)
      (ha : DerivesAt constants bound as arg rs) (hr : r.text = ")") :
      DerivesAt constants bound (l :: fs ++ as ++ [r]) (.app func arg) (qs ++ rs)
  | operation {bound : List String} {l s r : Token} {ls rs : List Token} {o : Op}
      {left right : Term} {ps qs : List (Token × Leaf)} (hl : l.text = "(")
      (hleft : DerivesAt constants bound ls left ps) (hs : s.text = o.symbol)
      (hright : DerivesAt constants bound rs right qs) (hr : r.text = ")") :
      DerivesAt constants bound (l :: ls ++ s :: rs ++ [r]) (.op o left right) (ps ++ qs)

section Leaves

variable {constants : Constants} {bound : List String} {ts : List Token} {e : Term}
  {qs : List (Token × Leaf)}

theorem Derives.exists_derivesAt (h : Derives constants bound ts e) :
    ∃ qs, DerivesAt constants bound ts e qs := by
  induction h with
  | number h => exact ⟨_, .number h⟩
  | constant h hfound hfree => exact ⟨_, .constant h hfound hfree⟩
  | «variable» h hname => exact ⟨_, .variable h hname⟩
  | abstraction hl hlambda hparam hann hdot _ hr ih =>
      obtain ⟨qs, hqs⟩ := ih
      exact ⟨qs, .abstraction hl hlambda hparam hann hdot hqs hr⟩
  | application hl _ _ hr ihf iha =>
      obtain ⟨qs, hqs⟩ := ihf
      obtain ⟨rs, hrs⟩ := iha
      exact ⟨qs ++ rs, .application hl hqs hrs hr⟩
  | operation hl _ hs _ hr ihl ihr =>
      obtain ⟨ps, hps⟩ := ihl
      obtain ⟨qs, hqs⟩ := ihr
      exact ⟨ps ++ qs, .operation hl hps hs hqs hr⟩

theorem DerivesAt.map_snd (h : DerivesAt constants bound ts e qs) :
    qs.map Prod.snd = e.leaves (bound.map some) := by
  induction h with
  | number | constant | «variable» => rfl
  | abstraction _ _ _ _ _ _ _ ih => exact ih
  | application _ _ _ _ ihf iha => rw [List.map_append, ihf, iha, Term.leaves]
  | operation _ _ _ _ _ ihl ihr => rw [List.map_append, ihl, ihr, Term.leaves]

theorem DerivesAt.text_eq (h : DerivesAt constants bound ts e qs) :
    ∀ q ∈ qs, ∀ label, q.2.free? = some label → label = some q.1.text := by
  induction h with
  | number | constant => simp [Leaf.free?]
  | «variable» =>
      intro q hq label hlabel
      obtain rfl := List.mem_singleton.mp hq
      simp only [Leaf.free?] at hlabel
      split at hlabel
      · cases hlabel
      · exact (Option.some.inj hlabel).symm
  | abstraction _ _ _ _ _ _ _ ih => exact ih
  | application _ _ _ _ ihf iha =>
      intro q hq
      exact (List.mem_append.mp hq).elim (ihf q) (iha q)
  | operation _ _ _ _ _ ihl ihr =>
      intro q hq
      exact (List.mem_append.mp hq).elim (ihl q) (ihr q)

end Leaves

section Passage

variable {name : String} {place : Place} {flag : Bool} {t : Token} {ts : List Token}

theorem Token.WellFormed.not_punctuation (h : t.WellFormed) (hkind : t.kind ≠ .symbol) :
    t.text ∉ ["(", ")", ":", "."] := by
  intro htext
  refine hkind (h.symbol ?_)
  simp only [List.mem_cons, List.not_mem_nil, or_false] at htext
  rcases htext with htext | htext | htext | htext <;> simp [htext]

def Place.deeper (place : Place) : Place :=
  { place with depth := place.depth + 1 }

/-- No binder in scope stands deeper than the place itself. -/
def Place.Covered (place : Place) : Prop :=
  ∀ b ∈ place.binders, b.2 ≤ place.depth

theorem Place.Covered.deeper (h : place.Covered) : place.deeper.Covered := by
  intro b hb
  have hle := h b hb
  simp only [Place.deeper]
  omega

theorem freeOccurrenceFrom_open (h : t.text = "(") :
    freeOccurrenceFrom name place flag (t :: ts) =
      freeOccurrenceFrom name place.deeper false ts := by
  simp [freeOccurrenceFrom, h, Token.isLambda, Place.deeper]

theorem Place.Covered.dropWhile_eq (h : place.Covered) :
    place.binders.dropWhile (·.2 == place.depth + 1) = place.binders := by
  cases hbinders : place.binders with
  | nil => rfl
  | cons b rest =>
      have hle := h b (by simp [hbinders])
      have hne : (b.2 == place.depth + 1) = false := by
        rw [beq_eq_false_iff_ne]
        omega
      rw [List.dropWhile_cons, hne]
      rfl

theorem freeOccurrenceFrom_close (h : t.text = ")") (hplace : place.Covered) :
    freeOccurrenceFrom name place.deeper flag (t :: ts) =
      freeOccurrenceFrom name place false ts := by
  simp [freeOccurrenceFrom, h, Token.isLambda, Place.deeper, hplace.dropWhile_eq]

def Place.under (place : Place) (param : String) : Place :=
  { place.deeper with binders := (param, place.depth + 1) :: place.binders }

theorem Place.Covered.under (h : place.Covered) (param : String) :
    (place.under param).Covered := by
  intro b hb
  rcases List.mem_cons.mp hb with rfl | hb
  · exact Int.le_refl _
  · exact h.deeper b hb

theorem freeOccurrenceFrom_close_binder (h : t.text = ")") (hplace : place.Covered)
    (param : String) :
    freeOccurrenceFrom name (place.under param) flag (t :: ts) =
      freeOccurrenceFrom name place false ts := by
  simp [freeOccurrenceFrom, h, Token.isLambda, Place.under, Place.deeper, hplace.dropWhile_eq]

theorem freeOccurrenceFrom_colon (h : t.text = ":") :
    freeOccurrenceFrom name place flag (t :: ts) =
      freeOccurrenceFrom name { place with inType := true } false ts := by
  simp [freeOccurrenceFrom, h, Token.isLambda]

theorem freeOccurrenceFrom_dot (h : t.text = ".") :
    freeOccurrenceFrom name place flag (t :: ts) =
      freeOccurrenceFrom name { place with inType := false } false ts := by
  simp [freeOccurrenceFrom, h, Token.isLambda]

theorem freeOccurrenceFrom_pass (htext : t.text ∉ ["(", ")", ":", "."])
    (h : t.kind ≠ .identifier ∨ place.inType = true) :
    freeOccurrenceFrom name place flag (t :: ts) =
      freeOccurrenceFrom name place t.isLambda ts := by
  simp only [List.mem_cons, List.not_mem_nil, or_false, not_or] at htext
  obtain ⟨hopen, hclose, hcolon, hdot⟩ := htext
  have hskip : (decide (t.kind = .identifier) && !place.inType) = false := by
    rcases h with h | h <;> simp [h]
  simp [freeOccurrenceFrom, hopen, hclose, hcolon, hdot, hskip]

theorem freeOccurrenceFrom_parameter (ht : t.WellFormed) (h : t.kind = .identifier)
    (hplace : place.inType = false) :
    freeOccurrenceFrom name place.deeper true (t :: ts) =
      freeOccurrenceFrom name (place.under t.text) false ts := by
  have hkind : t.kind ≠ .symbol := by simp [h]
  have htext := ht.not_punctuation hkind
  simp only [List.mem_cons, List.not_mem_nil, or_false, not_or] at htext
  simp [freeOccurrenceFrom, htext, h, hplace, (ht.plain hkind).1, Place.under, Place.deeper]

theorem freeOccurrenceFrom_lambda (ht : t.WellFormed) (h : t.isLambda = true) :
    freeOccurrenceFrom name place flag (t :: ts) = freeOccurrenceFrom name place true ts := by
  have htext : t.text = "lambda" ∨ t.text = "λ" := by simpa [Token.isLambda] using h
  have hkind : t.kind = .symbol :=
    ht.symbol (by rcases htext with htext | htext <;> simp [htext])
  have hpass : t.text ∉ ["(", ")", ":", "."] := by
    rcases htext with htext | htext <;> simp [htext]
  rw [freeOccurrenceFrom_pass hpass (.inl (by simp [hkind])), h]

theorem freeOccurrenceFrom_op (ht : t.WellFormed) {o : Op} (h : t.text = o.symbol) :
    freeOccurrenceFrom name place flag (t :: ts) = freeOccurrenceFrom name place false ts := by
  have hkind : t.kind = .symbol := ht.symbol (by cases o <;> simp [h, Op.symbol])
  have hpass : t.text ∉ ["(", ")", ":", "."] := by cases o <;> simp [h, Op.symbol]
  have hlambda : t.isLambda = false := by cases o <;> simp [Token.isLambda, h, Op.symbol]
  rw [freeOccurrenceFrom_pass hpass (.inl (by simp [hkind])), hlambda]

theorem freeOccurrenceFrom_name (ht : t.WellFormed) (h : t.kind = .identifier)
    (hplace : place.inType = false) :
    freeOccurrenceFrom name place false (t :: ts) =
      if t.text = name ∧ name ∉ place.binders.map Prod.fst then some t
      else freeOccurrenceFrom name place false ts := by
  have hkind : t.kind ≠ .symbol := by simp [h]
  have htext := ht.not_punctuation hkind
  have hfree : (decide (t.text = name) && place.binders.all (·.1 != name)) = true ↔
      t.text = name ∧ name ∉ place.binders.map Prod.fst := by
    simp only [Bool.and_eq_true, decide_eq_true_eq, List.all_eq_true, bne_iff_ne, List.mem_map,
      not_exists, not_and]
  simp only [List.mem_cons, List.not_mem_nil, or_false, not_or] at htext
  refine Eq.trans ?_ (if_congr hfree rfl rfl)
  simp [freeOccurrenceFrom, htext, h, hplace, (ht.plain hkind).1]

theorem DerivesType.freeOccurrenceFrom_eq {isArrow : Bool} {type : Ty}
    (h : DerivesType isArrow ts type) (hts : ∀ t ∈ ts, t.WellFormed) (hplace : place.Covered)
    (hin : place.inType = true) (rest : List Token) :
    freeOccurrenceFrom name place flag (ts ++ rest) = freeOccurrenceFrom name place false rest := by
  induction h generalizing place flag rest with
  | @name t h =>
      have ht := hts t List.mem_cons_self
      have hkind : t.kind ≠ .symbol := by simp [h]
      rw [List.singleton_append,
        freeOccurrenceFrom_pass (ht.not_punctuation hkind) (.inr hin), (ht.plain hkind).1]
  | @group l r _ ts _ hl _ hr ih =>
      rw [List.append_assoc, List.cons_append, List.singleton_append, freeOccurrenceFrom_open hl,
        ih (fun t ht => hts t (by simp [ht])) hplace.deeper hin, freeOccurrenceFrom_close hr hplace]
  | @arrow a _ ds cs _ _ _ ha _ ihd ihc =>
      have hkind : a.kind ≠ .symbol := by simp [ha]
      have htext := (hts a (by simp)).not_punctuation hkind
      rw [List.append_assoc, ihd (fun t ht => hts t (by simp [ht])) hplace hin,
        List.cons_append, freeOccurrenceFrom_pass htext (.inr hin),
        ihc (fun t ht => hts t (by simp [ht])) hplace hin]

theorem DerivesAnnotation.freeOccurrenceFrom_eq {ann : Option Ty} {dot : Token}
    (h : DerivesAnnotation ts ann) (hts : ∀ t ∈ ts, t.WellFormed) (hdot : dot.text = ".")
    (hplace : place.Covered) (hin : place.inType = false) (rest : List Token) :
    freeOccurrenceFrom name place false (ts ++ dot :: rest) =
      freeOccurrenceFrom name place false rest := by
  have hback : { place with inType := false } = place := by rw [← hin]
  cases h with
  | none => rw [List.nil_append, freeOccurrenceFrom_dot hdot, hback]
  | @some k _ ts type hk h =>
      have htype : Place.Covered { place with inType := true } := hplace
      rw [List.cons_append, freeOccurrenceFrom_colon hk,
        h.freeOccurrenceFrom_eq (fun t ht => hts t (by simp [ht])) htype rfl,
        freeOccurrenceFrom_dot hdot, hback]

end Passage

section Occurrences

variable {constants : Constants} {bound : List String} {ts : List Token} {e : Term}
  {qs rs : List (Token × Leaf)} {name : String}

/-- The token of the leftmost leaf that is a free variable of a name. -/
def leftmost (name : String) (qs : List (Token × Leaf)) : Option Token :=
  (qs.find? fun q => q.2.free? = some (some name)).map Prod.fst

theorem leftmost_append : leftmost name (qs ++ rs) = (leftmost name qs).or (leftmost name rs) := by
  rw [leftmost, List.find?_append, Option.map_or, leftmost, leftmost]

/-- The passage through the tokens of a term ends at its leftmost free leaf of a name, or goes on
behind the term. -/
theorem DerivesAt.freeOccurrenceFrom_eq (h : DerivesAt constants bound ts e qs)
    (hts : ∀ t ∈ ts, t.WellFormed) (hname : constants.lookup name = none) {place : Place}
    (hplace : place.Covered) (hbound : place.binders.map Prod.fst = bound)
    (hin : place.inType = false) (rest : List Token) :
    freeOccurrenceFrom name place false (ts ++ rest) =
      (leftmost name qs).or (freeOccurrenceFrom name place false rest) := by
  -- the binders that were passed are those around the term, and none of them stands deeper than the
  -- place, so that a closing parenthesis takes away the binder of its own abstraction only
  induction h generalizing place rest with
  | @number bound t h =>
      have hkind : t.kind ≠ .symbol := by simp [h]
      have ht := hts t List.mem_cons_self
      have hother : t.kind ≠ .identifier := by simp [h]
      rw [List.singleton_append,
        freeOccurrenceFrom_pass (ht.not_punctuation hkind) (.inl hother), (ht.plain hkind).1]
      rfl
  | @constant bound t type h hfound =>
      have hne : t.text ≠ name := by
        rintro rfl
        rw [hname] at hfound
        cases hfound
      rw [List.singleton_append, freeOccurrenceFrom_name (hts t List.mem_cons_self) h hin,
        if_neg (fun hfree => hne hfree.1)]
      rfl
  | @«variable» bound t h =>
      rw [List.singleton_append, freeOccurrenceFrom_name (hts t List.mem_cons_self) h hin, hbound]
      split_ifs with hfree
      · obtain ⟨rfl, hfree⟩ := hfree
        simp [leftmost, Leaf.free?, hfree]
      · have hnone : leftmost name [(t, ⟨.var (some t.text), bound.map some⟩)] = none := by
          by_cases hmem : t.text ∈ bound
          · simp [leftmost, Leaf.free?, hmem]
          · have hne : t.text ≠ name := by
              rintro rfl
              exact hfree ⟨rfl, hmem⟩
            simp [leftmost, Leaf.free?, hmem, hne]
        rw [hnone, Option.none_or]
  | @abstraction bound l lambda param dot r as ts ann body qs hl hlambda hparam hann hdot _ hr ih =>
      have hscope : (place.under param.text).binders.map Prod.fst = param.text :: bound :=
        congrArg (param.text :: ·) hbound
      simp only [List.cons_append, List.append_assoc, List.nil_append]
      rw [freeOccurrenceFrom_open hl, freeOccurrenceFrom_lambda (hts lambda (by simp)) hlambda,
        freeOccurrenceFrom_parameter (hts param (by simp)) hparam hin,
        hann.freeOccurrenceFrom_eq (fun t ht => hts t (by simp [ht])) hdot (hplace.under _) hin,
        ih (fun t ht => hts t (by simp [ht])) (hplace.under _) hscope hin,
        freeOccurrenceFrom_close_binder hr hplace]
  | @application bound l r fs as _ _ qs rs hl _ _ hr ihf iha =>
      simp only [List.cons_append, List.append_assoc, List.nil_append]
      rw [freeOccurrenceFrom_open hl,
        ihf (fun t ht => hts t (by simp [ht])) hplace.deeper hbound hin,
        iha (fun t ht => hts t (by simp [ht])) hplace.deeper hbound hin,
        freeOccurrenceFrom_close hr hplace, leftmost_append, Option.or_assoc]
  | @operation bound l s r ls rs o _ _ ps qs hl _ hs _ hr ihl ihr =>
      simp only [List.cons_append, List.append_assoc, List.nil_append]
      rw [freeOccurrenceFrom_open hl,
        ihl (fun t ht => hts t (by simp [ht])) hplace.deeper hbound hin,
        freeOccurrenceFrom_op (hts s (by simp)) hs,
        ihr (fun t ht => hts t (by simp [ht])) hplace.deeper hbound hin,
        freeOccurrenceFrom_close hr hplace, leftmost_append, Option.or_assoc]

theorem DerivesAt.freeOccurrence_eq {text : String} (htokens : tokenize text = .ok ts)
    (h : DerivesAt constants [] ts e qs) (hname : constants.lookup name = none) :
    freeOccurrence text name = .ok (leftmost name qs) := by
  have hstart : Place.Covered {} := by simp [Place.Covered]
  have hpassed := h.freeOccurrenceFrom_eq (wellFormed_of_tokenize htokens) hname hstart rfl rfl []
  rw [List.append_nil, freeOccurrenceFrom, Option.or_none] at hpassed
  rw [freeOccurrence, htokens]
  exact congrArg Except.ok hpassed

theorem DerivesAt.filterMap_free? (h : DerivesAt constants [] ts e qs) :
    qs.filterMap (fun q => q.2.free?) = e.freeVars := by
  have hleaves := congrArg (List.filterMap Leaf.free?) h.map_snd
  rw [List.filterMap_map, Term.filterMap_leaves, List.filter_eq_self.mpr (by simp)] at hleaves
  exact hleaves

theorem DerivesAt.leftmost_eq_none_iff (h : DerivesAt constants [] ts e qs) :
    leftmost name qs = none ↔ some name ∉ e.freeVars := by
  rw [← h.filterMap_free?]
  simp [leftmost, List.mem_filterMap]

theorem exists_leftmost_of_head? (h : (qs.filterMap fun q => q.2.free?).head? = some (some name)) :
    ∃ t leaf, qs.find? (fun q => q.2.free?.isSome) = some (t, leaf) ∧
      leaf.free? = some (some name) ∧ leftmost name qs = some t := by
  induction qs with
  | nil => cases h
  | cons q qs ih =>
      obtain ⟨t, leaf⟩ := q
      cases hfree : leaf.free? with
      | none =>
          simp only [List.filterMap_cons, hfree] at h
          simpa [leftmost, hfree] using ih h
      | some label =>
          simp only [List.filterMap_cons, hfree] at h
          cases h
          exact ⟨t, leaf, by simp [hfree], hfree, by simp [leftmost, hfree]⟩

end Occurrences

end Source

end LambdaMachine
