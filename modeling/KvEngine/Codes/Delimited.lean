import Mathlib

/-!
# Streams of delimited items

A stream of symbols in which every item ends with the delimiter: the items that have ended,
and what stands behind the last of them.

Results:
* `items_append_cons`, `rest_append_cons`: the first item.
* `items_append`, `rest_append`: a stream that goes on is what was behind the last item and
  what follows.
-/

namespace KvEngine.Delimited

variable {α : Type*} [DecidableEq α]

/-- The items that have ended, without their delimiters. -/
def items (delim : α) (xs : List α) : List (List α) := (xs.splitOn delim).dropLast

/-- What stands behind the last delimiter. -/
def rest (delim : α) (xs : List α) : List α := (xs.splitOn delim).getLastD []

variable {delim : α} {xs : List α}

theorem items_of_not_mem (h : delim ∉ xs) : items delim xs = [] := by
  rw [items, List.splitOn_eq_singleton h]
  rfl

theorem rest_of_not_mem (h : delim ∉ xs) : rest delim xs = xs := by
  rw [rest, List.splitOn_eq_singleton h]
  rfl

/-- The first item, and those of the others. -/
theorem items_append_cons (h : delim ∉ xs) (ys : List α) :
    items delim (xs ++ delim :: ys) = xs :: items delim ys := by
  have hne := List.splitOn_ne_nil delim ys
  rw [items, List.splitOn_append_cons_self_of_not_mem h, List.dropLast_cons_of_ne_nil hne]
  rfl

theorem rest_append_cons (h : delim ∉ xs) (ys : List α) :
    rest delim (xs ++ delim :: ys) = rest delim ys := by
  obtain ⟨z, zs, hz⟩ := List.exists_cons_of_ne_nil (List.splitOn_ne_nil delim ys)
  rw [rest, rest, List.splitOn_append_cons_self_of_not_mem h, hz]
  rfl

/-- A stream without a delimiter, or its first item and the others. -/
theorem eq_or_append_cons (delim : α) (xs : List α) :
    delim ∉ xs ∨ ∃ a b, xs = a ++ delim :: b ∧ delim ∉ a := by
  by_cases h : delim ∈ xs
  · exact Or.inr (List.eq_append_cons_of_mem h)
  · exact Or.inl h

/-- A property of streams that holds without a delimiter and with one more item in front. -/
theorem itemwise (delim : α) {motive : List α → Prop} (last : ∀ xs, delim ∉ xs → motive xs)
    (item : ∀ a xs, delim ∉ a → motive xs → motive (a ++ delim :: xs)) (xs : List α) :
    motive xs := by
  induction hn : xs.length using Nat.strong_induction_on generalizing xs with
  | _ n ih =>
    rcases eq_or_append_cons delim xs with h | ⟨a, b, rfl, ha⟩
    · exact last xs h
    · have hlt : b.length < n := by
        rw [← hn, List.length_append, List.length_cons]
        omega
      exact item a b ha (ih _ hlt b rfl)

theorem not_mem_rest (delim : α) (xs : List α) : delim ∉ rest delim xs := by
  induction xs using itemwise delim with
  | last xs h => rwa [rest_of_not_mem h]
  | item a xs ha ih => rwa [rest_append_cons ha]

/-- What is behind the last item goes on with what follows. -/
theorem items_append (xs ys : List α) :
    items delim (xs ++ ys) = items delim xs ++ items delim (rest delim xs ++ ys) := by
  induction xs using itemwise delim with
  | last xs h => rw [items_of_not_mem h, rest_of_not_mem h, List.nil_append]
  | item a xs ha ih =>
    rw [List.append_assoc, List.cons_append, items_append_cons ha, items_append_cons ha,
      rest_append_cons ha, ih, List.cons_append]

theorem rest_append (xs ys : List α) :
    rest delim (xs ++ ys) = rest delim (rest delim xs ++ ys) := by
  induction xs using itemwise delim with
  | last xs h => rw [rest_of_not_mem h]
  | item a xs ha ih =>
    rw [List.append_assoc, List.cons_append, rest_append_cons ha, rest_append_cons ha, ih]

end KvEngine.Delimited
