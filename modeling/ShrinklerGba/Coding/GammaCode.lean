import Mathlib.Data.Nat.Basic
import Mathlib.Tactic.Ring

/-!
# Numbers with their length in unary

The numbers from 2 on, written as the length of what follows their leading one in unary, and then
that, the most significant digit first. A number with `k` such digits is `k - 1` ones, a zero, and
the `k` digits.

* `digits k n` are the `k` low digits of `n`, `append x ds` writes digits behind a number, and
  `value ds` writes them behind a one.
* `word n` is the code word of `n`; **`word_value`** says that every code word's shape is one.
* **`word_prefixFree`**: no code word begins another.
-/

namespace GammaCode

/-- Write digits behind a number. -/
def append (x : ℕ) (ds : List Bool) : ℕ := ds.foldl (fun x b => 2 * x + b.toNat) x

/-- The `k` low digits, the most significant first. -/
def digits : ℕ → ℕ → List Bool
  | 0, _ => []
  | k + 1, n => n.testBit k :: digits k n

/-- The number with these digits behind its leading one. -/
def value (ds : List Bool) : ℕ := append 1 ds

/-- The code word of a number. -/
def word (n : ℕ) : List Bool :=
  List.replicate (n.log2 - 1) true ++ false :: digits n.log2 n

variable {k m n : ℕ} {ds : List Bool}

/-! ## Digits -/

@[simp] theorem append_nil (x : ℕ) : append x [] = x := rfl

@[simp] theorem append_cons (x : ℕ) (b : Bool) (ds : List Bool) :
    append x (b :: ds) = append (2 * x + b.toNat) ds := rfl

theorem append_concat (x : ℕ) (ds : List Bool) (b : Bool) :
    append x (ds ++ [b]) = 2 * append x ds + b.toNat := by
  simp [append]

@[simp] theorem length_digits (k n : ℕ) : (digits k n).length = k := by
  induction k with
  | zero => rfl
  | succ k ih => rw [digits, List.length_cons, ih]

/-- The digits make up the lower part of a number. -/
theorem append_digits (x k n : ℕ) : append x (digits k n) = x * 2 ^ k + n % 2 ^ k := by
  induction k generalizing x with
  | zero => simp [digits, Nat.mod_one]
  | succ k ih =>
      have hbit : (n.testBit k).toNat = n / 2 ^ k % 2 := by
        rw [Nat.testBit_eq_decide_div_mod_eq]
        rcases Nat.mod_two_eq_zero_or_one (n / 2 ^ k) with h | h <;> simp [h]
      rw [digits, append_cons, ih, hbit, Nat.pow_succ, Nat.mod_mul]
      ring

theorem append_eq (x : ℕ) (ds : List Bool) :
    ∃ r < 2 ^ ds.length, append x ds = x * 2 ^ ds.length + r := by
  induction ds generalizing x with
  | nil => exact ⟨0, by simp, by simp⟩
  | cons b ds ih =>
      obtain ⟨r, hr, h⟩ := ih (2 * x + b.toNat)
      refine ⟨b.toNat * 2 ^ ds.length + r, ?_, ?_⟩
      · have hb : b.toNat * 2 ^ ds.length ≤ 1 * 2 ^ ds.length :=
          Nat.mul_le_mul_right _ b.toNat_le
        rw [List.length_cons, Nat.pow_succ]
        omega
      · rw [append_cons, h, List.length_cons]
        ring

/-- The digits that were written are read back. -/
theorem digits_append (x : ℕ) (ds : List Bool) : digits ds.length (append x ds) = ds := by
  induction ds generalizing x with
  | nil => rfl
  | cons b ds ih =>
      obtain ⟨r, hr, h⟩ := append_eq (2 * x + b.toNat) ds
      have hdiv : append (2 * x + b.toNat) ds / 2 ^ ds.length = 2 * x + b.toNat := by
        rw [h, Nat.mul_comm, Nat.mul_add_div (Nat.two_pow_pos _), Nat.div_eq_of_lt hr, Nat.add_zero]
      have hbit : (append (2 * x + b.toNat) ds).testBit ds.length = b := by
        rw [Nat.testBit_eq_decide_div_mod_eq, hdiv]
        cases b <;> simp [Nat.add_mod]
      rw [append_cons, List.length_cons, digits, hbit, ih]

/-! ## Code words -/

theorem two_pow_le_value (ds : List Bool) : 2 ^ ds.length ≤ value ds := by
  obtain ⟨r, -, h⟩ := append_eq 1 ds
  rw [value, h]
  omega

theorem value_lt_two_pow (ds : List Bool) : value ds < 2 ^ (ds.length + 1) := by
  obtain ⟨r, hr, h⟩ := append_eq 1 ds
  rw [value, h, Nat.pow_succ]
  omega

theorem log2_value (ds : List Bool) : (value ds).log2 = ds.length := by
  have hlo := two_pow_le_value ds
  have hpos := Nat.two_pow_pos ds.length
  exact (Nat.log2_eq_iff (by omega)).mpr ⟨hlo, value_lt_two_pow ds⟩

theorem two_le_value (h : ds ≠ []) : 2 ≤ value ds := by
  have hlen : 0 < ds.length := List.length_pos_iff.mpr h
  calc 2 = 2 ^ 1 := rfl
    _ ≤ 2 ^ ds.length := Nat.pow_le_pow_right (by decide) hlen
    _ ≤ value ds := two_pow_le_value ds

/-- A number is its digits behind its leading one. -/
theorem value_digits (hn : n ≠ 0) : value (digits n.log2 n) = n := by
  have hlo := Nat.log2_self_le hn
  have hhi : n < 2 ^ (n.log2 + 1) := Nat.lt_log2_self
  rw [Nat.pow_succ] at hhi
  rw [value, append_digits, Nat.mod_eq_sub_mod hlo, Nat.mod_eq_of_lt (by omega)]
  omega

theorem log2_pos (hn : 2 ≤ n) : 1 ≤ n.log2 := (Nat.le_log2 (by omega)).mpr hn

/-- **Every sequence with the shape of a code word is one.** -/
theorem word_value (ds : List Bool) :
    word (value ds) = List.replicate (ds.length - 1) true ++ false :: ds := by
  rw [word, log2_value, value, digits_append]

/-- Where the ones end and what follows is determined. -/
theorem replicate_append_inj {a b : ℕ} {xs ys : List Bool}
    (h : List.replicate a true ++ false :: xs = List.replicate b true ++ false :: ys) :
    a = b ∧ xs = ys := by
  induction a generalizing b with
  | zero =>
      cases b with
      | zero => exact ⟨rfl, (List.cons.inj h).2⟩
      | succ b => cases h
  | succ a ih =>
      cases b with
      | zero => cases h
      | succ b =>
          obtain ⟨rfl, rfl⟩ := ih (List.cons.inj h).2
          exact ⟨rfl, rfl⟩

/-- **No code word begins another.** -/
theorem word_prefixFree (hm : 2 ≤ m) (hn : 2 ≤ n) (h : word m <+: word n) : m = n := by
  obtain ⟨rest, h⟩ := h
  rw [word, word, List.append_assoc, List.cons_append] at h
  obtain ⟨hlog, h⟩ := replicate_append_inj h
  have hm' := log2_pos hm
  have hn' := log2_pos hn
  have hlen := congrArg List.length h
  simp only [List.length_append, length_digits] at hlen
  obtain rfl : rest = [] := List.eq_nil_of_length_eq_zero (by omega)
  rw [List.append_nil] at h
  rw [← value_digits (n := m) (by omega), h, value_digits (by omega)]

end GammaCode
