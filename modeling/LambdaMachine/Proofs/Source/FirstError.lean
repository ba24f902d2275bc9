import LambdaMachine.Proofs.Source.Rejection

namespace LambdaMachine

namespace Source

section Texts

variable {place stop : Nat} {cs rest : List Char} {ts us : List Token}

theorem Lexes.of_append (h : Lexes place cs (ts ++ us) stop rest) :
    ∃ middle mid, Lexes place cs ts middle mid := by
  generalize hall : ts ++ us = all at h
  induction h generalizing ts with
  | done =>
      obtain ⟨rfl, -⟩ := List.append_eq_nil_iff.mp hall
      exact ⟨_, _, .done _ _⟩
  | blank hc _ ih =>
      obtain ⟨middle, mid, h⟩ := ih hall
      exact ⟨middle, mid, .blank hc h⟩
  | token hword _ ih =>
      cases ts with
      | nil => exact ⟨_, _, .done _ _⟩
      | cons t ts =>
          rw [List.cons_append] at hall
          obtain ⟨rfl, hrest⟩ := List.cons_eq_cons.mp hall
          obtain ⟨middle, mid, h⟩ := ih hrest
          exact ⟨middle, mid, .token hword h⟩

theorem Lexes.exists_cut (h : Lexes place cs ts stop rest) :
    ∃ kept, kept <+: cs ∧ ∃ stop, ∀ ds, Lexes place (kept ++ ' ' :: ds) ts stop (' ' :: ds) := by
  induction h with
  | done place cs => exact ⟨[], List.nil_prefix, place, fun ds => .done place _⟩
  | @blank place _ c cs _ _ hc _ ih =>
      obtain ⟨kept, hkept, stop, h⟩ := ih
      exact ⟨c :: kept, (List.prefix_cons_inj c).mpr hkept, stop, fun ds => .blank hc (h ds)⟩
  | @token place _ _ word cs _ _ hword _ ih =>
      obtain ⟨kept, hkept, stop, h⟩ := ih
      refine ⟨word ++ kept, (List.prefix_append_right_inj word).mpr hkept, stop, fun ds => ?_⟩
      rw [List.append_assoc]
      exact .token (hword.of_ends fun p hp hcs => (hcs.of_prefix hkept).append_cons hp ds) (h ds)

theorem exists_spells (hts : ∀ t ∈ ts, t.WellFormed) : ∃ cs, Spells cs (ts.map Token.word) := by
  induction ts with
  | nil => exact ⟨[], .nil⟩
  | cons t ts ih =>
      obtain ⟨ds, hds⟩ := ih fun u hu => hts u (List.mem_cons_of_mem t hu)
      have hword := Spells.word (hts t List.mem_cons_self) .nil
      rw [String.ofList_toList] at hword
      exact ⟨_, hword.append hds⟩

end Texts

/-- The tokens of a text that is read as a term. -/
def Acceptable (constants : Constants) (ts : List Token) : Prop :=
  ∃ text e, tokenize text = .ok ts ∧ read constants text = .ok e

section Acceptable

variable {constants : Constants} {text : String} {ts us before after : List Token} {t : Token}
  {error : ReadError}

theorem Acceptable.isTerm (h : Acceptable constants ts) : IsTerm constants [] ts := by
  obtain ⟨text, e, htokens, hread⟩ := h
  rw [read_of_tokenize constants htokens] at hread
  exact ⟨e, (readAll_term_iff (wellFormed_of_tokenize htokens)).mp hread⟩

theorem Acceptable.wellFormed (h : Acceptable constants ts) : ∀ t ∈ ts, t.WellFormed := by
  obtain ⟨text, e, htokens, -⟩ := h
  exact wellFormed_of_tokenize htokens

theorem Completable.acceptable (h : Completable (IsTerm constants []) before)
    (htokens : tokenize text = .ok (before ++ after)) :
    ∃ more, Acceptable constants (before ++ more) := by
  obtain ⟨more, hmore, e, hderives⟩ := h
  obtain ⟨_, hlexes⟩ := tokenize_eq_ok_iff.mp htokens
  obtain ⟨_, _, hbefore⟩ := hlexes.of_append
  obtain ⟨kept, -, stop, hcut⟩ := hbefore.exists_cut
  obtain ⟨ds, hds⟩ := exists_spells hmore
  have hblank : Spells (' ' :: ds) (more.map Token.word) := .blank (by decide) hds
  obtain ⟨more', _, hmore', hwords⟩ := hblank.exists_lexes stop
  have htokens' : tokenize (String.ofList (kept ++ ' ' :: ds)) = .ok (before ++ more') := by
    rw [tokenize_eq_ok_iff, String.toList_ofList]
    exact ⟨_, (hcut ds).trans hmore'⟩
  have hderives' : Derives constants [] (before ++ more') e :=
    hderives.of_words (by rw [List.map_append, List.map_append, hwords])
  exact ⟨more', _, e, htokens', read_eq_ok_iff.mpr ⟨_, htokens', hderives'⟩⟩

theorem not_prefix_of_rejects (hformed : ∀ u ∈ before ++ [t], u.WellFormed)
    (hblocked : ∀ more,
      Rejects (readAll .term (readTermFrom constants [])) (before ++ t :: more) error)
    (h : Acceptable constants us) :
    ¬ (before ++ [t]).map Token.word <+: us.map Token.word := by
  rintro ⟨ws, hws⟩
  obtain ⟨first, more, rfl, hfirst, -⟩ := List.map_eq_append_iff.mp hws.symm
  obtain ⟨e, hderives⟩ := h.isTerm
  have hderives' : Derives constants [] (before ++ [t] ++ more) e :=
    hderives.of_words (by rw [List.map_append, ← hfirst, ← List.map_append])
  have hall : ∀ u ∈ before ++ [t] ++ more, u.WellFormed := by
    intro u hu
    rcases List.mem_append.mp hu with hu | hu
    · exact hformed u hu
    · exact h.wellFormed u (List.mem_append_right _ hu)
  have hread := (readAll_term_iff hall).mpr hderives'
  rw [List.append_assoc, List.singleton_append, hblocked more] at hread
  cases hread

theorem fails_readAll (hts : ∀ t ∈ ts, t.WellFormed) (hne : ts ≠ [])
    (h : readAll .term (readTermFrom constants []) ts = .error error) :
    Fails (readAll .term (readTermFrom constants [])) (IsTerm constants []) ts error := by
  obtain ⟨u, us, rfl⟩ := List.exists_cons_of_ne_nil hne
  rcases error_of_bind h with hreader | ⟨⟨e, rest, hlt⟩, hreader, htrailing⟩
  · refine (fails_readTermFrom hts hreader).within [] [] ?_ (by simp) (fun us' hus' => ?_)
    · intro us' hhead hus'
      obtain _ | ⟨u', us'⟩ := us'
      · cases hhead
      · rw [Rejects, List.nil_append, readAll, hus']
        rfl
    · simpa using hus'
  · obtain ⟨read, hread, hderives⟩ := derives_of_reads ⟨hlt, hreader⟩
    cases rest with
    | nil => cases htrailing
    | cons t after =>
        cases htrailing
        refine .met read hread rfl ⟨[], by simp, by simpa using ⟨e, hderives⟩⟩ fun more => ?_
        have hformed : ∀ v ∈ read, v.WellFormed := fun v hv => hts v (by simp [hread, hv])
        obtain ⟨hlt', hreader'⟩ := hderives.reads hformed (t :: more)
        have hcons : (read ++ t :: more).isEmpty = false := by simp
        rw [Rejects, readAll, hcons, hreader']
        rfl

end Acceptable

section Reports

variable {text : String} {error : ReadError}

theorem subject_ofReadError : (Report.ofReadError text error).subject = text := by
  cases error <;> rfl

theorem stop_marked (problem : Report.Problem) (subject : String) (message : Report.Message)
    (start : Int) (stop : Nat) :
    (Report.Diagnostic.marked problem subject message { start := start, stop := stop }).stop =
      stop := by
  have hne : (stop : Int) ≠ -1 := by omega
  rw [Report.Diagnostic.marked, if_neg hne]

theorem span_ofReadError {t : Token} (h : error.found? = some t) :
    (Report.ofReadError text error).start = t.start ∧
      (Report.ofReadError text error).stop = t.stop := by
  cases error <;> cases h <;> exact ⟨rfl, stop_marked _ _ _ _ _⟩

theorem message_endedEarly (text expected : String) :
    (Report.ofReadError text (.endedEarly expected)).message =
      [.wording "'", .inserted text, .wording "' ended early, expected ", .inserted expected] := by
  have hpieces : Report.Template.pieces "'{}' ended early, expected {}" =
      [.wording ['\''], .place 0, .wording "' ended early, expected ".toList, .place 1] := by
    decide +kernel
  rw [Report.ofReadError, Report.Diagnostic.saying, Report.Diagnostic.marked]
  apply Except.ok.inj
  rw [← Report.Template.fill_eq_message, Report.Template.fill, hpieces]
  rfl

/-- A report says that a text ended early and points at its last character. All tokens of the text
are the start of further ones that are acceptable. -/
structure EndsEarly (constants : Constants) (text : String) (ts : List Token)
    (d : Report.Diagnostic) : Prop where
  message : ∃ expected, d.message =
    [.wording "'", .inserted text, .wording "' ended early, expected ", .inserted expected]
  start : d.start = text.length - 1
  stop : d.stop = text.length
  completable : ∃ more, more ≠ [] ∧ Acceptable constants (ts ++ more)

/-- A report points at a token. Those before it are the start of acceptable ones, but no acceptable
ones start with the same words up to the token itself. -/
structure PointsAt (constants : Constants) (before : List Token) (t : Token)
    (d : Report.Diagnostic) : Prop where
  start : d.start = t.start
  stop : d.stop = t.stop
  completable : ∃ more, Acceptable constants (before ++ more)
  offending : ∀ us, Acceptable constants us →
    ¬ (before ++ [t]).map Token.word <+: us.map Token.word

/-- Syntax errors are found at the first offending token: a text with tokens that is not read as a
term is reported either as one that ended early, or with its first token that cannot follow those
before it. The report is about the text, and about at least one character of it. -/
theorem read_error_at_first_offender (constants : Constants) {text : String} {ts : List Token}
    (htokens : tokenize text = .ok ts) (hne : ts ≠ []) {error : ReadError}
    (herror : read constants text = .error error) :
    let d := Report.ofReadError text error
    d.problem = .unreadable ∧ d.subject = text ∧ 0 ≤ d.start ∧ d.start < d.stop ∧
      d.stop ≤ text.length ∧
      (EndsEarly constants text ts d ∨
        ∃ before t after, ts = before ++ t :: after ∧ PointsAt constants before t d) := by
  intro d
  have hformed := wellFormed_of_tokenize htokens
  have hspan : ∀ t ∈ ts, t.start < t.stop ∧ t.stop ≤ text.length := by
    obtain ⟨stop, hlexes⟩ := tokenize_eq_ok_iff.mp htokens
    intro t ht
    obtain ⟨-, hlt, hstop⟩ := hlexes.span t ht
    rw [String.length_toList, Nat.zero_add] at hstop
    exact ⟨hlt, hstop⟩
  have hreject := (read_of_tokenize constants htokens).symm.trans herror
  refine ⟨problem_ofReadError text error, subject_ofReadError, ?_⟩
  cases fails_readAll hformed hne hreject with
  | ended expected hcompletable =>
      obtain ⟨t, ht⟩ := List.exists_mem_of_ne_nil ts hne
      obtain ⟨hlt, hstop⟩ := hspan t ht
      have hd : d.start = text.length - 1 ∧ d.stop = text.length := ⟨rfl, stop_marked _ _ _ _ _⟩
      have hmessage := message_endedEarly text expected
      refine ⟨by omega, by omega, by omega, .inl ⟨⟨expected, hmessage⟩, hd.1, hd.2, ?_⟩⟩
      rw [← List.append_nil ts] at htokens
      obtain ⟨more, hmore⟩ := hcompletable.acceptable htokens
      refine ⟨more, ?_, hmore⟩
      -- the tokens alone are not acceptable, as the text itself would be read
      rintro rfl
      rw [List.append_nil] at hmore
      obtain ⟨e, hderives⟩ := hmore.isTerm
      rw [(readAll_term_iff hformed).mpr hderives] at hreject
      cases hreject
  | @met before after t _ hts hfound hcompletable hblocked =>
      subst hts
      obtain ⟨hlt, hstop⟩ := hspan t (by simp)
      have hd : d.start = t.start ∧ d.stop = t.stop := span_ofReadError hfound
      refine ⟨by omega, by omega, by omega, .inr ⟨before, t, after, rfl, hd.1, hd.2, ?_, ?_⟩⟩
      · exact hcompletable.acceptable htokens
      · refine fun us hus => not_prefix_of_rejects (fun u hu => hformed u ?_) hblocked hus
        rw [List.append_cons]
        exact List.mem_append_left after hu

/-- The parentheses in the annotation are closed behind an arrow, which is the first error. -/
theorem read_error_at_first_offender_arrow :
    let ts : List Token := [⟨.symbol, "(", 0⟩, ⟨.symbol, "lambda", 1⟩, ⟨.identifier, "x", 8⟩,
      ⟨.symbol, ":", 9⟩, ⟨.symbol, "(", 10⟩, ⟨.identifier, "A", 11⟩, ⟨.arrow, "->", 13⟩,
      ⟨.symbol, ")", 16⟩, ⟨.symbol, ".", 17⟩, ⟨.symbol, ")", 19⟩]
    let error := ReadError.badStart .type ⟨.symbol, ")", 16⟩
    tokenize "(lambda x:(A -> ). )" = .ok ts ∧
      read [("true", .bool)] "(lambda x:(A -> ). )" = .error error ∧
      ∃ before t after, ts = before ++ t :: after ∧ t.start = 16 ∧
        PointsAt [("true", .bool)] before t (Report.ofReadError "(lambda x:(A -> ). )" error) := by
  intro ts error
  have htokens : tokenize "(lambda x:(A -> ). )" = .ok ts := by decide +kernel
  have hread : read [("true", .bool)] "(lambda x:(A -> ). )" = .error error := by decide +kernel
  refine ⟨htokens, hread, ?_⟩
  obtain ⟨-, -, -, -, -, hends | ⟨before, t, after, hts, hpoints⟩⟩ :=
    read_error_at_first_offender [("true", .bool)] htokens (List.cons_ne_nil _ _) hread
  · have hstart : (16 : Int) = 20 - 1 := hends.start
    omega
  · have hstart : (16 : Int) = t.start := hpoints.start
    exact ⟨before, t, after, hts, by omega, hpoints⟩

end Reports

end Source

end LambdaMachine
