import LambdaMachine.Proofs.Code.Emit

namespace LambdaMachine.Nameless

open Term (Numbering)

/-- Raises the indices that point past `cutoff` binders by one. -/
def raise : (cutoff : Int) → Term → Term
  | cutoff, .idx i label => .idx (if i < cutoff then i else i + 1) label
  | cutoff, .lam param ann body => .lam param ann (raise (cutoff + 1) body)
  | cutoff, .app func arg => .app (raise cutoff func) (raise cutoff arg)
  | cutoff, .op o left right => .op o (raise cutoff left) (raise cutoff right)
  | _, e => e

/-- Puts a term in the place of the index `k`. The term is raised under every binder that is passed,
and the indices above `k` are lowered by one. -/
def substituteIndex : (k : Int) → (value : Term) → Term → Term
  | k, value, .idx i label => if i = k then value else .idx (if k < i then i - 1 else i) label
  | k, value, .lam param ann body => .lam param ann (substituteIndex (k + 1) (raise 0 value) body)
  | k, value, .app func arg => .app (substituteIndex k value func) (substituteIndex k value arg)
  | k, value, .op o left right =>
      .op o (substituteIndex k value left) (substituteIndex k value right)
  | _, _, e => e

theorem Tree.term_rename (t : Tree) {k : Nat} {r : Nat → Nat}
    (hr : ∀ i, r i = if i < k then i else i + 1) : (t.rename r).term = raise k t.term := by
  induction t generalizing k r with
  | ref i =>
      simp only [rename, term, raise, hr, Int.ofNat_lt]
      split <;> rfl
  | const name type => rfl
  | num value => rfl
  | abs ann body ih =>
      have hlifted : ∀ i, liftRenaming r i = if i < k + 1 then i else i + 1 := by
        rintro (_ | i)
        · rfl
        · simp only [liftRenaming, hr, Nat.add_lt_add_iff_right]
          split <;> rfl
      simp only [rename, term, raise, ih hlifted]
      rfl
  | app func arg ihf iha => simp only [rename, term, raise, ihf hr, iha hr]
  | op o left right ihl ihr => simp only [rename, term, raise, ihl hr, ihr hr]

theorem Tree.term_subst (t : Tree) {k : Nat} {value : Tree} {s : Nat → Tree}
    (hs : ∀ i, s i = if i = k then value else ref (if k < i then i - 1 else i)) :
    (t.subst s).term = substituteIndex k value.term t.term := by
  induction t generalizing k value s with
  | ref i =>
      simp only [subst, term, substituteIndex, hs, Int.natCast_inj, Int.ofNat_lt]
      split
      · rfl
      · simp only [term]
        split
        · congr 1
          omega
        · rfl
  | const name type => rfl
  | num n => rfl
  | abs ann body ih =>
      have hlifted : ∀ i, lift s i =
          if i = k + 1 then value.rename Nat.succ else ref (if k + 1 < i then i - 1 else i) := by
        rintro (_ | i)
        · rfl
        · by_cases heq : i = k
          · simp [lift, hs, heq]
          · simp only [lift, hs, Nat.add_right_cancel_iff, if_neg heq, rename,
              Nat.add_lt_add_iff_right, ref.injEq]
            split <;> omega
      have hraised : (value.rename Nat.succ).term = raise 0 value.term :=
        value.term_rename (k := 0) fun _ => rfl
      simp only [subst, term, substituteIndex, ih hlifted, hraised]
      rfl
  | app func arg ihf iha => simp only [subst, term, substituteIndex, ihf hs, iha hs]
  | op o left right ihl ihr => simp only [subst, term, substituteIndex, ihl hs, ihr hs]

theorem Tree.term_instantiate (body arg : Tree) :
    (body.instantiate arg).term = substituteIndex 0 arg.term body.term := by
  apply term_subst (k := 0)
  rintro (_ | i)
  · rfl
  · rfl

/-- The numbers of the labels that have binders. -/
def numbering (depths : Depths) (depth : Int) : Numbering :=
  fun label => (depth - (depths.lookup label).getD 0 - 1).toNat

theorem numbering_of_lookup {depths : Depths} {depth binder : Int} {label : Label}
    (h : depths.lookup label = some binder) (hlt : binder < depth) :
    depth - binder - 1 = numbering depths depth label := by
  rw [numbering, h, Option.getD_some]
  omega

/-- Substitution of named terms is substitution for an index of their nameless forms, in whatever
scope these are taken. -/
theorem convertUnder_substitute {e value : Term} (he : e.Named) (hv : value.Named) (x : String)
    {depths : Depths} {depth : Int}
    (hbelow : ∀ label binder, depths.lookup label = some binder → binder < depth)
    (hvalue : ∀ label ∈ value.freeVars, ∃ binder, depths.lookup label = some binder)
    (hother : ∀ label ∈ e.freeVars, label ≠ some x →
      ∃ binder, depths.lookup label = some binder) :
    ∃ body arg, convertUnder ((some x, depth) :: depths) (depth + 1) e = .ok body ∧
      convertUnder depths depth value = .ok arg ∧
      convertUnder depths depth (e.substitute (some x) value) =
        .ok (substituteIndex 0 arg body) := by
  have hnumbered : ∀ label, (∃ binder, depths.lookup label = some binder) →
      ∃ binder, depths.lookup label = some binder ∧
        depth - binder - 1 = numbering depths depth label := by
    rintro label ⟨binder, hfound⟩
    exact ⟨binder, hfound, numbering_of_lookup hfound (hbelow label binder hfound)⟩
  have hbody : convertUnder ((some x, depth) :: depths) (depth + 1) e =
      .ok (e.tree ((numbering depths depth).enter (some x))).term := by
    apply convertUnder_of_named he
    intro label hl
    exact exists_binder_enter fun hne => hnumbered label (hother label hl hne)
  have harg : convertUnder depths depth value = .ok (value.tree (numbering depths depth)).term :=
    convertUnder_of_named hv fun label hl => hnumbered label (hvalue label hl)
  refine ⟨_, _, hbody, harg, ?_⟩
  rw [← Tree.term_instantiate, ← he.tree_substitute hv]
  apply convertUnder_of_named (he.substitute hv _)
  intro label hl
  rcases Term.mem_freeVars_substitute.mp hl with ⟨hl, hne⟩ | ⟨-, hl⟩
  · exact hnumbered label (hother label hl hne)
  · exact hnumbered label (hvalue label hl)

/-- A term whose outer binder has the name of a free variable of what is to be substituted, and
whose inner binder has the name that the outer one is renamed to. -/
def clashing : Term :=
  .lam (some "y") none (.lam (some "y₀") none
    (.app (.var (some "x")) (.app (.var (some "y")) (.var (some "y₀")))))

theorem convertUnder_substitute_clashing :
    clashing.Named ∧
      convertUnder [(some "y", 0), (some "z", 1)] 2
          (clashing.substitute (some "x") (.app (.var (some "y")) (.var (some "z")))) =
        .ok (.lam none none (.lam none none
          (.app (.app (.idx 3 none) (.idx 2 none)) (.app (.idx 1 none) (.idx 0 none))))) := by
  have hnamed : clashing.Named := .lam _ _ (.lam _ _ (.app (.var _) (.app (.var _) (.var _))))
  have hbelow : ∀ (label : Label) (binder : Int),
      List.lookup label [(some "y", 0), (some "z", 1)] = some binder → binder < 2 := by
    intro label binder h
    obtain ⟨l₁, l₂, hl, -⟩ := List.lookup_eq_some_iff.mp h
    have hmem : (label, binder) ∈ [(some "y", (0 : Int)), (some "z", 1)] := by simp [hl]
    simp only [List.mem_cons, Prod.mk.injEq, List.not_mem_nil, or_false] at hmem
    omega
  obtain ⟨body, arg, hbody, harg, h⟩ := convertUnder_substitute hnamed
    (.app (.var "y") (.var "z")) "x" hbelow
    (by simp [Term.freeVars, List.lookup_cons]) (by simp [clashing, Term.freeVars])
  cases hbody
  cases harg
  exact ⟨hnamed, h⟩

end LambdaMachine.Nameless
