import Mathlib.Data.List.DropRight
import LambdaMachine.Proofs.Source.Tokens
import LambdaMachine.Source.Layout

namespace LambdaMachine

namespace Text

theorem trim_eq_rdropWhile (cs : List Char) :
    trim cs = (cs.dropWhile isBlank).rdropWhile isBlank :=
  rfl

theorem trim_append_of_blank_left {lead : List Char} (h : ∀ c ∈ lead, isBlank c = true)
    (cs : List Char) : trim (lead ++ cs) = trim cs := by
  simp only [trim_eq_rdropWhile, List.dropWhile_append_of_pos h]

theorem trim_append_of_blank_right {trail : List Char} (h : ∀ c ∈ trail, isBlank c = true)
    (cs : List Char) : trim (cs ++ trail) = trim cs := by
  induction trail using List.reverseRecOn with
  | nil => rw [List.append_nil]
  | append_singleton trail c ih =>
      have hc : isBlank c = true := h c (by simp)
      rw [← ih fun d hd => h d (by simp [hd]), ← List.append_assoc]
      rw [trim_eq_rdropWhile, trim_eq_rdropWhile, List.dropWhile_append]
      split
      · rename_i hnil
        simp [List.isEmpty_iff.mp hnil, hc]
      · exact List.rdropWhile_concat_pos _ _ _ hc

theorem exists_blanks (cs : List Char) : ∃ lead trail, (∀ c ∈ lead, isBlank c = true) ∧
    (∀ c ∈ trail, isBlank c = true) ∧ lead ++ (trim cs ++ trail) = cs := by
  refine ⟨cs.takeWhile isBlank, (cs.dropWhile isBlank).rtakeWhile isBlank,
    fun c => List.mem_takeWhile_imp, fun c => List.mem_rtakeWhile_imp, ?_⟩
  rw [trim_eq_rdropWhile, List.rdropWhile_append_rtakeWhile, List.takeWhile_append_dropWhile]

theorem exists_blanks_of_head {cs : List Char} (h : ∀ c ∈ cs.head?, isBlank c = false) :
    ∃ trail, (∀ c ∈ trail, isBlank c = true) ∧ trim cs ++ trail = cs := by
  have hhead : cs.dropWhile isBlank = cs := by
    cases cs with
    | nil => rfl
    | cons c cs => simp [h c rfl]
  refine ⟨cs.rtakeWhile isBlank, fun c => List.mem_rtakeWhile_imp, ?_⟩
  rw [trim_eq_rdropWhile, hhead, List.rdropWhile_append_rtakeWhile]

/-- A text without blanks at its ends. -/
structure Tight (cs : List Char) : Prop where
  head : ∀ c ∈ cs.head?, isBlank c = false
  last : ∀ c ∈ cs.getLast?, isBlank c = false

theorem Tight.trim_eq {cs : List Char} (h : Tight cs) : trim cs = cs := by
  have hhead : cs.dropWhile isBlank = cs := by
    cases cs with
    | nil => rfl
    | cons c cs => simp [h.head c rfl]
  rw [trim_eq_rdropWhile, hhead, List.rdropWhile_eq_self_iff]
  intro hne
  simp [h.last _ (List.getLast?_eq_some_getLast hne)]

theorem tight_trim (cs : List Char) : Tight (trim cs) := by
  rw [trim_eq_rdropWhile]
  constructor
  · intro c hc
    obtain ⟨trail, htrail⟩ := List.rdropWhile_prefix isBlank (cs.dropWhile isBlank)
    refine Source.ends_dropWhile isBlank cs c ?_
    rw [← htrail, List.head?_append, hc]
    rfl
  · intro c hc
    obtain ⟨hne, rfl⟩ := List.mem_getLast?_eq_getLast hc
    simpa using List.rdropWhile_last_not isBlank (cs.dropWhile isBlank) hne

theorem Tight.append {cs ds : List Char} (hcs : Tight cs) (hds : Tight ds) (hne : cs ≠ [])
    (hne' : ds ≠ []) (middle : List Char) : Tight (cs ++ (middle ++ ds)) := by
  constructor
  · rw [List.head?_append_of_ne_nil _ hne]
    exact hcs.head
  · rw [List.getLast?_append_of_ne_nil _ (by simp [hne']), List.getLast?_append_of_ne_nil _ hne']
    exact hds.last

end Text

namespace Source

@[simp] theorem uncommented_nil : uncommented [] = [] :=
  rfl

theorem uncommented_cons (c : Char) (cs : List Char) :
    uncommented (c :: cs) =
      if [';', ';'].isPrefixOf (c :: cs) then [] else c :: uncommented cs := by
  unfold uncommented
  rw [Text.indexOf?]
  split_ifs
  · rfl
  · cases Text.indexOf? [';', ';'] cs with
    | none => rfl
    | some n => rfl

@[simp] theorem uncommented_comment (cs : List Char) : uncommented (';' :: ';' :: cs) = [] := by
  simp [uncommented_cons]

theorem uncommented_append {code : List Char} (h : ';' ∉ code) (rest : List Char) :
    uncommented (code ++ rest) = code ++ uncommented rest := by
  induction code with
  | nil => rfl
  | cons c code ih =>
      obtain ⟨hc, hcode⟩ : ';' ≠ c ∧ ';' ∉ code := by simpa using h
      rw [List.cons_append, uncommented_cons, ih hcode, List.isPrefixOf_cons_cons]
      simp [hc]

theorem uncommented_prefix (cs : List Char) : uncommented cs <+: cs := by
  induction cs with
  | nil => exact List.prefix_rfl
  | cons c cs ih =>
      rw [uncommented_cons]
      split_ifs
      · exact List.nil_prefix
      · exact (List.prefix_cons_inj c).mpr ih

theorem not_mem_of_blank {cs : List Char} (h : ∀ c ∈ cs, Text.isBlank c = true) : ';' ∉ cs :=
  fun hc => absurd (h ';' hc) (by decide)

theorem uncommented_append_blank {trail : List Char} (h : ∀ c ∈ trail, Text.isBlank c = true)
    (cs : List Char) :
    uncommented (cs ++ trail) = uncommented cs ∨
      uncommented (cs ++ trail) = uncommented cs ++ trail := by
  induction cs with
  | nil =>
      right
      simpa using uncommented_append (not_mem_of_blank h) []
  | cons c cs ih =>
      have hcomment : [';', ';'].isPrefixOf (c :: (cs ++ trail)) =
          [';', ';'].isPrefixOf (c :: cs) := by
        cases cs with
        | nil =>
            cases trail with
            | nil => rfl
            | cons d trail =>
                have hd : ';' ≠ d := fun hd => not_mem_of_blank h (hd ▸ List.mem_cons_self)
                simp [List.isPrefixOf, hd]
        | cons d cs => simp [List.isPrefixOf]
      rw [List.cons_append, uncommented_cons, uncommented_cons, hcomment]
      split_ifs
      · exact .inl rfl
      · exact ih.imp (congrArg (c :: ·)) (congrArg (c :: ·))

theorem trim_uncommented_pad {lead trail : List Char} (hlead : ∀ c ∈ lead, Text.isBlank c = true)
    (htrail : ∀ c ∈ trail, Text.isBlank c = true) (cs : List Char) :
    Text.trim (uncommented (lead ++ (cs ++ trail))) = Text.trim (uncommented cs) := by
  rw [uncommented_append (not_mem_of_blank hlead), Text.trim_append_of_blank_left hlead]
  rcases uncommented_append_blank htrail cs with h | h
  · rw [h]
  · rw [h, Text.trim_append_of_blank_right htrail]

theorem trim_uncommented_trim (cs : List Char) :
    Text.trim (uncommented (Text.trim cs)) = Text.trim (uncommented cs) := by
  obtain ⟨lead, trail, hlead, htrail, hcs⟩ := Text.exists_blanks cs
  rw [← trim_uncommented_pad hlead htrail, hcs]

theorem isBlank_of_mem_space {c : Char} (hc : c ∈ " ".toList) : Text.isBlank c = true := by
  obtain rfl : c = ' ' := by simpa using hc
  decide

theorem content_space_trim (line : String) :
    content (" " ++ String.ofList (Text.trim line.toList)) = content line := by
  have htrail : ∀ c ∈ ([] : List Char), Text.isBlank c = true := by simp
  have hpad := trim_uncommented_pad (fun c => isBlank_of_mem_space) htrail (Text.trim line.toList)
  rw [List.append_nil, trim_uncommented_trim] at hpad
  simp only [content, String.toList_append, String.toList_ofList, hpad]

theorem content_of_blank {line : String} (h : Text.trim line.toList = []) : content line = "" := by
  rw [← content_space_trim, h]
  rfl

theorem tight_content (line : String) : Text.Tight (content line).toList := by
  rw [content, String.toList_ofList]
  exact Text.tight_trim _

theorem content_join {pending : String} (hne : pending ≠ "") (htight : Text.Tight pending.toList)
    (hcode : ';' ∉ pending.toList) (line : String) :
    content (pending ++ " " ++ String.ofList (Text.trim line.toList)) =
      if (content line).isEmpty then pending else pending ++ " " ++ content line := by
  have hcontent : (content line).toList = Text.trim (uncommented (Text.trim line.toList)) := by
    rw [trim_uncommented_trim, content, String.toList_ofList]
  have hspace : ';' ∉ " ".toList := not_mem_of_blank fun c => isBlank_of_mem_space
  have hhead : ∀ c ∈ (uncommented (Text.trim line.toList)).head?, Text.isBlank c = false := by
    obtain ⟨rest, hrest⟩ := uncommented_prefix (Text.trim line.toList)
    intro c hc
    refine (Text.tight_trim line.toList).head c ?_
    rw [← hrest, List.head?_append, hc]
    rfl
  obtain ⟨trail, htrail, hsplit⟩ := Text.exists_blanks_of_head hhead
  rw [← hcontent] at hsplit
  have hjoined : content (pending ++ " " ++ String.ofList (Text.trim line.toList)) =
      String.ofList (Text.trim (pending.toList ++ (" ".toList ++ (content line).toList))) := by
    have htrim : (String.ofList (Text.trim line.toList)).toList = Text.trim line.toList :=
      String.toList_ofList
    rw [content, String.toList_append, String.toList_append, htrim, List.append_assoc,
      uncommented_append hcode, uncommented_append hspace, ← hsplit, ← List.append_assoc,
      ← List.append_assoc, Text.trim_append_of_blank_right htrail, List.append_assoc]
  rw [hjoined]
  split
  · rename_i hempty
    rw [String.isEmpty_iff.mp hempty, String.toList_empty, List.append_nil,
      Text.trim_append_of_blank_right fun c => isBlank_of_mem_space, htight.trim_eq,
      String.ofList_toList]
  · rename_i hempty
    have hcontent' : (content line).toList ≠ [] := by simpa using hempty
    have htight' := tight_content line
    rw [(htight.append htight' (by simpa using hne) hcontent' _).trim_eq, ← List.append_assoc,
      ← String.toList_append, ← String.toList_append, String.ofList_toList]

end Source

end LambdaMachine
