import LambdaMachine.Term.Name
import Mathlib.Data.List.TakeWhile
import Mathlib.Order.Bounds.Defs

namespace LambdaMachine.Name

theorem subscriptValue?_subscriptDigit {value : Nat} (h : value < 10) :
    subscriptValue? (subscriptDigit value) = some value := by
  revert value
  decide

/-- The subscript digits of a number. -/
def spelling (n : Nat) : List Char :=
  (Nat.toDigits 10 n).map fun c => subscriptDigit (c.toNat - '0'.toNat)

theorem toList_subscripted (stem : String) (n : Nat) :
    (subscripted stem n).toList = stem.toList ++ spelling n := by
  simp [subscripted, spelling]

theorem digit_lt_ten {n : Nat} {c : Char} (h : c ∈ Nat.toDigits 10 n) :
    c.toNat - '0'.toNat < 10 := by
  have hdigit : c.isDigit := Nat.isDigit_of_mem_toDigits (by decide) (by decide) h
  have hle : c.toNat ≤ '9'.toNat := (Char.isDigit_iff_toNat.mp hdigit).2
  have hnine : '9'.toNat = 57 := rfl
  have hzero : '0'.toNat = 48 := rfl
  omega

theorem isSubscript_of_mem_spelling {n : Nat} {c : Char} (h : c ∈ spelling n) :
    isSubscript c = true := by
  obtain ⟨d, hd, rfl⟩ := List.mem_map.mp h
  rw [isSubscript, subscriptValue?_subscriptDigit (digit_lt_ten hd)]
  rfl

/-- The number that subscript digits spell, the most significant one first. -/
def number (digits : List Char) : Nat :=
  digits.foldl (fun n c => 10 * n + (subscriptValue? c).getD 0) 0

theorem number_spelling (n : Nat) : number (spelling n) = n := by
  have hread : ∀ (digits : List Char) (k : Nat), (∀ c ∈ digits, c.toNat - '0'.toNat < 10) →
      (digits.map fun c => subscriptDigit (c.toNat - '0'.toNat)).foldl
          (fun k c => 10 * k + (subscriptValue? c).getD 0) k =
        Nat.ofDigitChars 10 digits k := by
    intro digits
    induction digits with
    | nil =>
        intro k _
        rfl
    | cons d digits ih =>
        intro k h
        have hd : d.toNat - '0'.toNat < 10 := h d (by simp)
        rw [List.map_cons, List.foldl_cons, subscriptValue?_subscriptDigit hd,
          Nat.ofDigitChars_cons, ih _ fun c hc => h c (by simp [hc])]
        rfl
  rw [number, spelling, hread _ _ fun c hc => digit_lt_ten hc]
  exact Nat.ofDigitChars_ten_toDigits

/-- A spelling of a number: subscript digits, of which there is at least one. -/
structure Numeral (digits : List Char) : Prop where
  ne_nil : digits ≠ []
  isSubscript : ∀ c ∈ digits, isSubscript c = true

theorem numeral_spelling (n : Nat) : Numeral (spelling n) where
  ne_nil := by simp [spelling, Nat.toDigits_ne_nil]
  isSubscript _ := isSubscript_of_mem_spelling

section Splitting

variable {stem name : String} {digits : List Char} {n : Nat}

theorem subscriptDigits_eq_nil_iff :
    subscriptDigits stem = [] ↔ ∀ c ∈ stem.toList.getLast?, isSubscript c = false := by
  rw [subscriptDigits, List.reverse_eq_nil_iff, ← List.head?_reverse]
  cases stem.toList.reverse with
  | nil => simp
  | cons c rest => simp [List.takeWhile_cons]

theorem subscriptDigits_base (name : String) : subscriptDigits (base name) = [] := by
  simp only [subscriptDigits, base, String.toList_ofList, List.reverse_reverse,
    List.reverse_eq_nil_iff]
  rw [List.takeWhile_eq_nil_iff]
  intro hlen
  exact List.dropWhile_get_zero_not isSubscript name.toList.reverse hlen

theorem base_append_subscriptDigits (name : String) :
    base name ++ String.ofList (subscriptDigits name) = name := by
  rw [base, subscriptDigits, ← String.ofList_append, ← List.reverse_append,
    List.takeWhile_append_dropWhile, List.reverse_reverse, String.ofList_toList]

theorem numeral_subscriptDigits (h : subscriptDigits name ≠ []) :
    Numeral (subscriptDigits name) where
  ne_nil := h
  isSubscript c hc := by
    rw [subscriptDigits, List.mem_reverse] at hc
    exact List.mem_takeWhile_imp hc

theorem subscript?_eq_some_iff :
    subscript? name = some n ↔ subscriptDigits name ≠ [] ∧ number (subscriptDigits name) = n := by
  rw [subscript?]
  cases subscriptDigits name with
  | nil => simp
  | cons c digits => simp [number]

theorem subscriptDigits_append (h : subscriptDigits stem = []) (hdigits : Numeral digits) :
    subscriptDigits (stem ++ String.ofList digits) = digits := by
  have hstem : stem.toList.reverse.takeWhile isSubscript = [] := by
    simpa [subscriptDigits] using h
  rw [subscriptDigits, String.toList_append, String.toList_ofList, List.reverse_append,
    List.takeWhile_append_of_pos, hstem, List.append_nil, List.reverse_reverse]
  intro c hc
  exact hdigits.isSubscript c (List.mem_reverse.mp hc)

theorem base_append (h : subscriptDigits stem = []) (hdigits : Numeral digits) :
    base (stem ++ String.ofList digits) = stem := by
  have hwhole := base_append_subscriptDigits (stem ++ String.ofList digits)
  rw [subscriptDigits_append h hdigits] at hwhole
  exact (String.append_left_inj _).mp hwhole

theorem subscript?_append (h : subscriptDigits stem = []) (hdigits : Numeral digits) :
    subscript? (stem ++ String.ofList digits) = some (number digits) := by
  rw [subscript?_eq_some_iff, subscriptDigits_append h hdigits]
  exact ⟨hdigits.ne_nil, rfl⟩

theorem base_subscripted (h : subscriptDigits stem = []) (n : Nat) :
    base (subscripted stem n) = stem :=
  base_append h (numeral_spelling n)

theorem subscript?_subscripted (h : subscriptDigits stem = []) (n : Nat) :
    subscript? (subscripted stem n) = some n := by
  have hread := subscript?_append h (numeral_spelling n)
  rwa [number_spelling] at hread

end Splitting

section Choosing

variable {stem name : String} {used used' : List Label} {n : Nat}

theorem nextSubscript_le_iff :
    nextSubscript stem used ≤ n ↔
      ∀ name k, some name ∈ used → base name = stem → subscript? name = some k → k < n := by
  induction used with
  | nil => simp [nextSubscript]
  | cons label used ih =>
      cases label with
      | none => simp [nextSubscript, ih]
      | some other =>
          have hsplit : nextSubscript stem (some other :: used) ≤ n ↔
              (∀ k, base other = stem → subscript? other = some k → k < n) ∧
                nextSubscript stem used ≤ n := by
            rw [nextSubscript]
            cases hother : subscript? other with
            | none => simp
            | some k =>
                by_cases hbase : base other = stem
                · simp only [hbase, if_true, Option.some.injEq, forall_eq', forall_const]
                  exact Nat.max_le
                · simp [hbase]
          rw [hsplit, ih]
          constructor
          · rintro ⟨hfirst, hrest⟩ name k hmem
            rcases List.mem_cons.mp hmem with heq | hmem
            · cases heq
              exact hfirst k
            · exact hrest name k hmem
          · intro h
            exact ⟨fun k => h other k (by simp), fun name k hmem => h name k (by simp [hmem])⟩

theorem nextSubscript_le_iff_numerals (h : subscriptDigits stem = []) :
    nextSubscript stem used ≤ n ↔
      ∀ digits, Numeral digits → some (stem ++ String.ofList digits) ∈ used →
        number digits < n := by
  rw [nextSubscript_le_iff]
  constructor
  · intro hle digits hdigits hmem
    exact hle _ _ hmem (base_append h hdigits) (subscript?_append h hdigits)
  · rintro hle name k hmem rfl hk
    obtain ⟨hne, rfl⟩ := subscript?_eq_some_iff.mp hk
    refine hle _ (numeral_subscriptDigits hne) ?_
    rwa [base_append_subscriptDigits]

theorem nextSubscript_congr (h : ∀ label, label ∈ used' ↔ label ∈ used) (stem : String) :
    nextSubscript stem used' = nextSubscript stem used := by
  refine eq_of_forall_ge_iff fun n => ?_
  simp only [nextSubscript_le_iff, h]

theorem base_fresh (name : String) (used : List Label) : base (fresh name used) = base name :=
  base_subscripted (subscriptDigits_base name) _

theorem fresh_notMem (name : String) (used : List Label) : some (fresh name used) ∉ used := by
  intro hmem
  have hnumber := subscript?_subscripted (subscriptDigits_base name)
    (nextSubscript (base name) used)
  exact lt_irrefl _ (nextSubscript_le_iff.mp le_rfl _ _ hmem (base_fresh name used) hnumber)

end Choosing

/-- Fresh names are fresh and canonical. A subscript behind a name that does not end in a subscript
digit is read back, and so is the name. A fresh name is none of the names in sight, has the base of
the given name, and is the same for all lists of the same names; its number is the least one above
those that are spelled behind its base, with digits zero in front or without. -/
theorem fresh_names_canonical :
    (∀ (stem : String) (n : Nat), (∀ c ∈ stem.toList.getLast?, isSubscript c = false) →
      base (subscripted stem n) = stem ∧ subscript? (subscripted stem n) = some n) ∧
    ∀ (name : String) (used : List Label),
      some (fresh name used) ∉ used ∧
      base (fresh name used) = base name ∧
      (∀ used', (∀ label, label ∈ used' ↔ label ∈ used) → fresh name used' = fresh name used) ∧
      ∃ n, fresh name used = subscripted (base name) n ∧
        IsLeast {m | ∀ digits, Numeral digits →
          some (base name ++ String.ofList digits) ∈ used → number digits < m} n := by
  constructor
  · intro stem n hstem
    have hbare : subscriptDigits stem = [] := subscriptDigits_eq_nil_iff.mpr hstem
    exact ⟨base_subscripted hbare n, subscript?_subscripted hbare n⟩
  · intro name used
    have hleast : ∀ m, nextSubscript (base name) used ≤ m ↔ ∀ digits, Numeral digits →
        some (base name ++ String.ofList digits) ∈ used → number digits < m :=
      fun m => nextSubscript_le_iff_numerals (subscriptDigits_base name)
    refine ⟨fresh_notMem name used, base_fresh name used, ?_, nextSubscript (base name) used, rfl,
      (hleast _).mp le_rfl, fun m => (hleast m).mpr⟩
    intro used' h
    rw [fresh, fresh, nextSubscript_congr h]

/-- As texts, nine comes after ten, and nine with a zero in front is another text: only the numbers
tell that the next one is eleven. -/
theorem fresh_names_canonical_leadingZero :
    fresh "x₇" [some "x₀₉", some "x₁₀", some "y₄₂", some "x", none] = "x₁₁" ∧
      fresh "x₇" [none, some "x", some "y₄₂", some "x", some "x₁₀", some "x₀₉"] = "x₁₁" ∧
      some "x₁₁" ∉ [some "x₀₉", some "x₁₀", some "y₄₂", some "x", none] ∧
      base (subscripted "x" 11) = "x" ∧ subscript? (subscripted "x" 11) = some 11 := by
  obtain ⟨hread, hfresh⟩ := fresh_names_canonical
  obtain ⟨hnew, -, hset, -⟩ :=
    hfresh "x₇" [some "x₀₉", some "x₁₀", some "y₄₂", some "x", none]
  have hname : fresh "x₇" [some "x₀₉", some "x₁₀", some "y₄₂", some "x", none] = "x₁₁" := by
    decide +kernel
  have hsame := hset [none, some "x", some "y₄₂", some "x", some "x₁₀", some "x₀₉"] (by grind)
  rw [hname] at hnew hsame
  have hbare : subscriptDigits "x" = [] := by decide +kernel
  exact ⟨hname, hsame, hnew, hread "x" 11 (subscriptDigits_eq_nil_iff.mp hbare)⟩

end LambdaMachine.Name
