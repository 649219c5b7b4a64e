import Mathlib.Order.Bounds.Basic
import Mathlib.Order.Lattice
import Mathlib.Order.Lattice.Nat

/-!
# Columns of ragged tables

A table is a list of rows of any lengths, over a linear order.

* `sup`: two rows joined column by column. A column that only one row has is taken from there.
* `sups`: all rows of a table joined, from the first to the last.
* **`isGreatest_sups`** and `isLUB_length_sups`: what the joined row says about the table.
-/

namespace Ragged

/-- What holds of a row of a longer table: of a row before the last one, or of that. -/
theorem setOf_concat {α β : Type*} (P : List α → β → Prop) (rows : List (List α)) (row : List α) :
    {y | ∃ r ∈ rows ++ [row], P r y} = {y | ∃ r ∈ rows, P r y} ∪ {y | P row y} := by
  ext y
  simp [or_and_right, exists_or, or_comm]

variable {α : Type*} [LinearOrder α]

/-- Two rows joined: the larger entry of every column. -/
def sup : List α → List α → List α
  | [], ys => ys
  | x :: xs, [] => x :: xs
  | x :: xs, y :: ys => max x y :: sup xs ys

/-- The rows of a table joined. -/
def sups (rows : List (List α)) : List α := rows.foldl sup []

@[simp] theorem nil_sup (ys : List α) : sup [] ys = ys := rfl

@[simp] theorem sup_nil (xs : List α) : sup xs [] = xs := by cases xs <;> rfl

@[simp] theorem length_sup (xs ys : List α) :
    (sup xs ys).length = max xs.length ys.length := by
  induction xs, ys using sup.induct with
  | case1 ys => simp
  | case2 x xs => simp
  | case3 x xs y ys ih => simp [sup, ih, Nat.succ_max_succ]

/-- A column of the joined row. -/
theorem getElem?_sup (xs ys : List α) (c : ℕ) : (sup xs ys)[c]? = max xs[c]? ys[c]? := by
  induction xs, ys using sup.induct generalizing c with
  | case1 ys => cases h : ys[c]? <;> simp [h]
  | case2 x xs => cases h : (x :: xs)[c]? <;> simp [h]
  | case3 x xs y ys ih =>
      cases c with
      | zero => rfl
      | succ c => simpa [sup] using ih c

theorem sups_concat (rows : List (List α)) (row : List α) :
    sups (rows ++ [row]) = sup (sups rows) row := by
  simp [sups]

/-- The joined rows are as long as the longest row. -/
theorem isLUB_length_sups (rows : List (List α)) :
    IsLUB {n | ∃ row ∈ rows, row.length = n} (sups rows).length := by
  induction rows using List.reverseRecOn with
  | nil => simp [sups]
  | append_singleton rows row ih =>
      rw [sups_concat, length_sup, setOf_concat fun r n => r.length = n,
        Set.ofPred_eq_eq_singleton']
      exact ih.union isLUB_singleton

/-- A column that no row has. -/
theorem getElem?_eq_none_of_sups {rows : List (List α)} {c : ℕ} (h : (sups rows)[c]? = none) :
    {y | ∃ row ∈ rows, row[c]? = some y} = ∅ := by
  rw [Set.eq_empty_iff_forall_notMem]
  rintro y ⟨row, hrow, hy⟩
  have hle := (isLUB_length_sups rows).1 ⟨row, hrow, rfl⟩
  have hc := (List.getElem?_eq_some_iff.mp hy).1
  have hlen := List.getElem?_eq_none_iff.mp h
  omega

/-- **A column of the joined rows is the greatest entry of that column.** -/
theorem isGreatest_sups {rows : List (List α)} {c : ℕ} {x : α} (h : (sups rows)[c]? = some x) :
    IsGreatest {y | ∃ row ∈ rows, row[c]? = some y} x := by
  induction rows using List.reverseRecOn generalizing x with
  | nil => simp [sups] at h
  | append_singleton rows row ih =>
      rw [sups_concat, getElem?_sup] at h
      rw [setOf_concat fun r y => r[c]? = some y]
      cases hrows : (sups rows)[c]? with
      | none =>
          rw [hrows, Option.max_none_left] at h
          rw [getElem?_eq_none_of_sups hrows, Set.empty_union, h]
          simpa only [Option.some.injEq, Set.ofPred_eq_eq_singleton'] using isGreatest_singleton
      | some x' =>
          cases hrow : row[c]? with
          | none =>
              rw [hrows, hrow, Option.max_none_right] at h
              cases h
              simpa using ih hrows
          | some y =>
              rw [hrows, hrow, Option.max_some_some] at h
              cases h
              simp only [Option.some.injEq, Set.ofPred_eq_eq_singleton']
              exact (ih hrows).union isGreatest_singleton

end Ragged
