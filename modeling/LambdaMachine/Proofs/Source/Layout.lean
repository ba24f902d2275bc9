import LambdaMachine.Proofs.Source.Nesting

namespace LambdaMachine.Source

/-- The words of a line: those that the text in front of its comment spells. -/
def Holds (line : String) (ws : List Word) : Prop :=
  ∃ code comment, line.toList = code ++ comment ∧ Spells code ws ∧
    (comment = [] ∨ ∃ text, comment = ';' :: ';' :: text)

namespace Holds

variable {line : String} {ws : List Word}

theorem of_words (h : words line = .ok ws) : Holds line ws :=
  ⟨line.toList, [], by simp, Spells.iff_words.mpr h, .inl rfl⟩

theorem of_words_comment (code comment : String)
    (hline : line.toList = code.toList ++ ';' :: ';' :: comment.toList)
    (h : words code = .ok ws) : Holds line ws :=
  ⟨code.toList, _, hline, Spells.iff_words.mpr h, .inr ⟨comment.toList, rfl⟩⟩

theorem content_eq (h : Holds line ws) :
    ∃ code, (content line).toList = Text.trim code ∧ Spells code ws := by
  obtain ⟨code, comment, hline, hcode, hcomment⟩ := h
  have huncommented : uncommented comment = [] := by
    rcases hcomment with rfl | ⟨text, rfl⟩
    · exact uncommented_nil
    · exact uncommented_comment text
  refine ⟨code, ?_, hcode⟩
  rw [content, String.toList_ofList, hline, uncommented_append hcode.not_semicolon, huncommented,
    List.append_nil]

theorem spells_content (h : Holds line ws) : Spells (content line).toList ws := by
  obtain ⟨code, hcontent, hcode⟩ := h.content_eq
  rw [hcontent]
  exact hcode.trim

theorem isEmpty_content (h : Holds line ws) : (content line).isEmpty = true ↔ ws = [] := by
  constructor
  · intro hempty
    have hspells := h.spells_content
    rw [String.isEmpty_iff.mp hempty] at hspells
    exact hspells.eq_nil
  · rintro rfl
    obtain ⟨code, hcontent, hcode⟩ := h.content_eq
    have htrim := Text.trim_append_of_blank_left hcode.blank_of_nil []
    rw [List.append_nil] at htrim
    rw [String.isEmpty_iff, ← String.toList_eq_nil_iff, hcontent, htrim]
    rfl

end Holds

/-- A text with the content of a line behind it. -/
def extended (text line : String) : String :=
  if (content line).isEmpty then text else text ++ " " ++ content line

theorem spells_extended {text line : String} {ws us : List Word} (h : Spells text.toList ws)
    (hline : Holds line us) : Spells (extended text line).toList (ws ++ us) := by
  unfold extended
  split
  · rename_i hempty
    rwa [hline.isEmpty_content.mp hempty, List.append_nil]
  · rw [String.toList_append, String.toList_append, List.append_assoc]
    exact h.append hline.spells_content

theorem spells_foldl_extended {lines : List String} {wss : List (List Word)}
    (hlines : List.Forall₂ Holds lines wss) {text : String} {ws : List Word}
    (h : Spells text.toList ws) :
    Spells (lines.foldl extended text).toList (ws ++ wss.flatten) := by
  induction hlines generalizing text ws with
  | nil => simpa using h
  | cons hline _ ih =>
      have hspells := ih (spells_extended h hline)
      simpa using hspells

namespace Layout

/-- Adds lines that are numbered from `n` on. -/
def addLines (layout : Layout) (n : Nat) (lines : List String) : Layout :=
  (lines.zipIdx n).foldl (fun layout (line, number) => layout.addLine line number) layout

theorem addLines_cons (layout : Layout) (n : Nat) (line : String) (lines : List String) :
    layout.addLines n (line :: lines) = (layout.addLine line n).addLines (n + 1) lines := by
  simp [addLines, List.zipIdx_cons]

theorem addLines_append (layout : Layout) (n : Nat) (lines lines' : List String) :
    layout.addLines n (lines ++ lines') =
      (layout.addLines n lines).addLines (n + lines.length) lines' := by
  simp [addLines, List.zipIdx_append]

variable {layout : Layout} {line text : String} {start : Nat} {before : List (String × Nat)}

theorem addLine_of_empty (h : (content line).isEmpty = true) (n : Nat) :
    layout.addLine line n = layout := by
  simp [addLine, h]

theorem addLine_of_start (h : (content line).isEmpty = false) (hlayout : layout.continued = false)
    (n : Nat) :
    layout.addLine line n =
      ⟨(content line, n) :: layout.statements, isOpen (content line)⟩ := by
  simp [addLine, h, hlayout]

theorem addLine_of_continued (h : (content line).isEmpty = false) (n : Nat) :
    (⟨(text, start) :: before, true⟩ : Layout).addLine line n =
      ⟨(text ++ " " ++ content line, start) :: before, isOpen (text ++ " " ++ content line)⟩ := by
  simp [addLine, h]

theorem addLines_of_whole {lines : List String} {wss : List (List Word)}
    (hlines : List.Forall₂ Holds lines wss) {ws : List Word} (h : Spells text.toList ws)
    (hne : ws ≠ []) (hwhole : Whole (ws ++ wss.flatten)) (n : Nat) :
    (⟨(text, start) :: before, isOpen text⟩ : Layout).addLines n lines =
      ⟨(lines.foldl extended text, start) :: before, isOpen (lines.foldl extended text)⟩ := by
  induction hlines generalizing text ws n with
  | nil => rfl
  | @cons line us lines wss hline _ ih =>
      rw [addLines_cons, List.foldl_cons]
      have hspells := spells_extended h hline
      rw [List.flatten_cons, ← List.append_assoc] at hwhole
      have hadd : (⟨(text, start) :: before, isOpen text⟩ : Layout).addLine line n =
          ⟨(extended text line, start) :: before, isOpen (extended text line)⟩ := by
        unfold extended
        cases hempty : (content line).isEmpty with
        | true => exact addLine_of_empty hempty n
        | false =>
            -- words are still to come, so what was read before this line is open
            have hus : us ≠ [] := fun hus => by simp [hline.isEmpty_content.mpr hus] at hempty
            have hopen : isOpen text = true := by
              rw [List.append_assoc] at hwhole
              rw [isOpen_eq h, decide_eq_true_eq]
              exact hwhole.open_of_split rfl hne (by simp [hus])
            rw [hopen]
            exact addLine_of_continued hempty n
      rw [hadd]
      exact ih hspells (by simp [hne]) hwhole (n + 1)

end Layout

/-- Lines, numbered from `n` on, in which statements are laid out: each starts on a line of its own
and goes on over any number of further lines. The words of the statements are given with the numbers
of the lines on which they start. -/
inductive Laid : Nat → List String → List (Nat × List Word) → Prop where
  | done (n : Nat) : Laid n [] []
  | blank {n : Nat} {line : String} {lines : List String} {sts : List (Nat × List Word)}
      (hline : Holds line []) (h : Laid (n + 1) lines sts) : Laid n (line :: lines) sts
  | statement {n : Nat} {line : String} (more : List String) {lines : List String}
      {ws : List Word} {wss : List (List Word)} {sts : List (Nat × List Word)}
      (hline : Holds line ws) (hne : ws ≠ []) (hmore : List.Forall₂ Holds more wss)
      (h : Laid (n + 1 + more.length) lines sts) :
      Laid n (line :: (more ++ lines)) ((n, ws ++ wss.flatten) :: sts)

/-- The texts of statements that are laid out in lines spell their words. -/
theorem Laid.addLines_eq {n : Nat} {lines : List String} {sts : List (Nat × List Word)}
    (h : Laid n lines sts) (hwhole : ∀ st ∈ sts, Whole st.2) (layout : Layout)
    (hlayout : layout.continued = false) :
    ∃ texts, layout.addLines n lines = ⟨texts.reverse ++ layout.statements, false⟩ ∧
      List.Forall₂ (fun text st => text.2 = st.1 ∧ Spells text.1.toList st.2) texts sts := by
  induction h generalizing layout with
  | done n => exact ⟨[], by cases layout; simp_all [Layout.addLines], .nil⟩
  | @blank n line lines sts hline _ ih =>
      rw [Layout.addLines_cons, Layout.addLine_of_empty (hline.isEmpty_content.mpr rfl)]
      exact ih hwhole layout hlayout
  | @statement n line more lines ws wss sts hline hne hmore _ ih =>
      have hempty : (content line).isEmpty = false := by
        rw [← Bool.not_eq_true, hline.isEmpty_content]
        exact hne
      have hst : Whole (ws ++ wss.flatten) := hwhole _ List.mem_cons_self
      have hspells := spells_foldl_extended hmore hline.spells_content
      have hclosed := hst.isOpen_eq_false hspells
      rw [Layout.addLines_cons, Layout.addLines_append, Layout.addLine_of_start hempty hlayout,
        Layout.addLines_of_whole hmore hline.spells_content hne hst, hclosed]
      obtain ⟨texts, hadd, htexts⟩ :=
        ih (fun st hmem => hwhole st (List.mem_cons_of_mem _ hmem)) ⟨_, false⟩ rfl
      refine ⟨(more.foldl extended (content line), n) :: texts, ?_, .cons ⟨rfl, hspells⟩ htexts⟩
      rw [hadd]
      simp

theorem Laid.statements_eq {lines : List String} {sts : List (Nat × List Word)}
    (h : Laid 1 lines sts) (hwhole : ∀ st ∈ sts, Whole st.2) :
    List.Forall₂ (fun text st => text.2 = st.1 ∧ Spells text.1.toList st.2) (statements lines)
      sts := by
  obtain ⟨texts, hadd, htexts⟩ := h.addLines_eq hwhole {} rfl
  have hstatements : statements lines = texts := by
    show (Layout.addLines {} 1 lines).statements.reverse = texts
    rw [hadd]
    simp
  rwa [hstatements]

theorem Laid.numbers {n : Nat} {lines : List String} {sts : List (Nat × List Word)}
    (h : Laid n lines sts) : (∀ st ∈ sts, n ≤ st.1) ∧ (sts.map (·.1)).Nodup := by
  induction h with
  | done n => simp
  | blank _ _ ih => exact ⟨fun st hst => Nat.le_of_succ_le (ih.1 st hst), ih.2⟩
  | @statement n line more lines ws wss sts _ _ _ _ ih =>
      obtain ⟨hle, hnodup⟩ := ih
      have hlt : ∀ st ∈ sts, n < st.1 := fun st hst => by
        have := hle st hst
        omega
      refine ⟨List.forall_mem_cons.mpr ⟨Nat.le_refl n, fun st hst => (hlt st hst).le⟩, ?_⟩
      refine List.nodup_cons.mpr ⟨fun hmem => ?_, hnodup⟩
      obtain ⟨st, hst, heq⟩ := List.mem_map.mp hmem
      exact absurd heq (Nat.ne_of_gt (hlt st hst))

end LambdaMachine.Source
