import Mathlib.Algebra.BigOperators.Group.Finset.Basic
import Mathlib.Algebra.BigOperators.Ring.List
import Mathlib.Tactic.Ring

/-!
# Running sums of running sums

The checksums of Fletcher and Adler keep two sums over a list: of its values, and of the first sum
after each value. Here the values lie in any commutative semiring.

* `step` and `sums` are the two sums.
* `weighted xs` weighs each value by how many values there are from it on.
* **`sums_eq`**: the closed form of both sums.
* `weighted_append`: the sums of two lists, one after the other.
* `weighted_set`, `weighted_exchange`: how the second sum changes when one value does, and when two
  values are exchanged.
-/

namespace Fletcher

variable {R : Type*} [CommSemiring R]

/-- Both sums after one more value. -/
def step (s : R × R) (x : R) : R × R := (s.1 + x, s.2 + (s.1 + x))

/-- Both sums after a list of values. -/
def sums (s : R × R) (xs : List R) : R × R := xs.foldl step s

/-- The sum of the values, each as often as there are values from it on. -/
def weighted : List R → R
  | [] => 0
  | x :: xs => (xs.length + 1) * x + weighted xs

variable (xs ys : List R)

/-- **The closed form of both sums.** -/
theorem sums_eq (s : R × R) :
    sums s xs = (s.1 + xs.sum, s.2 + xs.length * s.1 + weighted xs) := by
  induction xs generalizing s with
  | nil => simp [sums, weighted]
  | cons x xs ih =>
      rw [sums, List.foldl_cons, ← sums, ih]
      simp only [step, List.sum_cons, List.length_cons, weighted, Prod.mk.injEq, Nat.cast_add,
        Nat.cast_one]
      constructor <;> ring

theorem weighted_append :
    weighted (xs ++ ys) = weighted xs + ys.length * xs.sum + weighted ys := by
  induction xs with
  | nil => simp [weighted]
  | cons x xs ih =>
      simp only [List.cons_append, weighted, ih, List.length_append, List.sum_cons, Nat.cast_add]
      ring

section ring

variable {R : Type*} [CommRing R] {xs : List R} {i j : ℕ}

/-- One value changes. -/
theorem weighted_set (hi : i < xs.length) (y : R) :
    weighted (xs.set i y) = weighted xs + (xs.length - i) * (y - xs[i]) := by
  induction xs generalizing i with
  | nil => exact absurd hi (Nat.not_lt_zero i)
  | cons x xs ih =>
      cases i with
      | zero =>
          simp only [List.set_cons_zero, weighted, List.length_cons, List.getElem_cons_zero,
            Nat.cast_add, Nat.cast_one, Nat.cast_zero]
          ring
      | succ i =>
          have hi' : i < xs.length := Nat.lt_of_succ_lt_succ hi
          simp only [List.set_cons_succ, weighted, List.length_set, ih hi', List.length_cons,
            List.getElem_cons_succ, Nat.cast_add, Nat.cast_one]
          ring

/-- Two values are exchanged. -/
theorem weighted_exchange (hi : i < xs.length) (hj : j < xs.length) :
    weighted ((xs.set i xs[j]).set j xs[i]) = weighted xs + (j - i) * (xs[j] - xs[i]) := by
  by_cases hij : i = j
  · subst hij
    simp
  · have hj' : j < (xs.set i xs[j]).length := by rwa [List.length_set]
    rw [weighted_set hj', weighted_set hi, List.length_set, List.getElem_set_ne hij]
    ring

end ring

end Fletcher
