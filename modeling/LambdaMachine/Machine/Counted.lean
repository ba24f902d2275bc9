namespace LambdaMachine

/-- A list with its length, so that a limit on it can be checked at no cost. -/
structure Counted (α : Type) where
  items : List α := []
  count : Nat := 0
  count_eq : count = items.length := by rfl

namespace Counted

variable {α : Type}

/-- A list in front of which an item is put. -/
def push (a : α) (c : Counted α) : Counted α :=
  ⟨a :: c.items, c.count + 1, by simp [c.count_eq]⟩

/-- The first item and the others. -/
def pop? : Counted α → Option (α × Counted α)
  | ⟨[], _, _⟩ => none
  | ⟨a :: rest, n, h⟩ => some (a, ⟨rest, n - 1, by simp [h]⟩)

@[ext] theorem ext {c d : Counted α} (h : c.items = d.items) : c = d := by
  cases c with
  | mk items count count_eq =>
      cases d with
      | mk items' count' count_eq' =>
          cases h
          subst count_eq count_eq'
          rfl

@[simp] theorem items_push (a : α) (c : Counted α) : (c.push a).items = a :: c.items := rfl

@[simp] theorem count_push (a : α) (c : Counted α) : (c.push a).count = c.count + 1 := rfl

theorem pop?_eq_none_iff {c : Counted α} : c.pop? = none ↔ c.items = [] := by
  rcases c with ⟨_ | ⟨a, rest⟩, n, h⟩ <;> simp [pop?]

theorem pop?_eq_some_iff {c d : Counted α} {a : α} :
    c.pop? = some (a, d) ↔ c.items = a :: d.items := by
  rcases c with ⟨_ | ⟨b, rest⟩, n, h⟩
  · simp [pop?]
  · simp only [pop?, Option.some.injEq, Prod.mk.injEq, List.cons.injEq]
    constructor
    · rintro ⟨rfl, rfl⟩
      exact ⟨rfl, rfl⟩
    · rintro ⟨rfl, hrest⟩
      exact ⟨rfl, Counted.ext hrest⟩

end Counted

end LambdaMachine
