import Mathlib.Data.List.Sort
import Mathlib.Data.Nat.Notation

/-!
# Laying out segments in memory

A segment is a run of values at a start address. Segments that do not overlap, in ascending order,
are laid out as one list: gaps are filled with a given value.

* `Ascending a ss`: the segments start at or after `a`, each at or after the end of the one before.
* **`layout_getElem?_of_mem`**: every value of every segment is at its place in the layout.
* **`layout_getElem?_gap`**: what no segment covers holds the filler.
* `finish_layout`: the layout ends where the last segment does.
* `Ascending.pairwise`: each segment ends before every later one starts.
-/

namespace Segments

variable {α : Type*}

/-- A run of values at a start address. -/
structure Segment (α : Type*) where
  /-- The address of the first value. -/
  start : ℕ
  /-- The values. -/
  values : List α

namespace Segment

/-- The address after the last value. -/
def stop (s : Segment α) : ℕ := s.start + s.values.length

/-- The addresses a segment covers. -/
def Covers (s : Segment α) (a : ℕ) : Prop := s.start ≤ a ∧ a < s.stop

end Segment

/-- The segments start at or after `a`, each at or after the end of the one before. -/
def Ascending (a : ℕ) : List (Segment α) → Prop
  | [] => True
  | s :: ss => a ≤ s.start ∧ Ascending s.stop ss

/-- The values from `a` on, with `z` where there is no segment. -/
def layout (z : α) (a : ℕ) : List (Segment α) → List α
  | [] => []
  | s :: ss => List.replicate (s.start - a) z ++ s.values ++ layout z s.stop ss

/-- Where the segments end. -/
def finish (a : ℕ) : List (Segment α) → ℕ
  | [] => a
  | s :: ss => finish s.stop ss

variable {z : α} {a : ℕ} {s : Segment α} {ss ts : List (Segment α)}

theorem Ascending.le_start (h : Ascending a ss) (hs : s ∈ ss) : a ≤ s.start := by
  induction ss generalizing a with
  | nil => cases hs
  | cons t ss ih =>
      rcases List.mem_cons.mp hs with rfl | hs
      · exact h.1
      · have := ih h.2 hs
        have := h.1
        simp only [Segment.stop] at *
        omega

theorem ascending_append :
    Ascending a (ss ++ ts) ↔ Ascending a ss ∧ Ascending (finish a ss) ts := by
  induction ss generalizing a with
  | nil => simp [Ascending, finish]
  | cons s ss ih => simp [Ascending, finish, ih, and_assoc]

theorem finish_append : finish a (ss ++ ts) = finish (finish a ss) ts := by
  induction ss generalizing a with
  | nil => rfl
  | cons s ss ih => exact ih

theorem layout_append :
    layout z a (ss ++ ts) = layout z a ss ++ layout z (finish a ss) ts := by
  induction ss generalizing a with
  | nil => rfl
  | cons s ss ih => simp [layout, finish, ih]

/-- The layout ends where the last segment does. -/
theorem finish_layout (h : Ascending a ss) : a + (layout z a ss).length = finish a ss := by
  induction ss generalizing a with
  | nil => rfl
  | cons s ss ih =>
      have := ih h.2
      have := h.1
      simp only [layout, List.length_append, List.length_replicate, finish, Segment.stop] at *
      omega

theorem Ascending.le_finish (h : Ascending a ss) : a ≤ finish a ss := by
  induction ss generalizing a with
  | nil => exact Nat.le_refl a
  | cons s ss ih =>
      have hs := ih h.2
      have ha := h.1
      simp only [finish, Segment.stop] at *
      omega

theorem Ascending.stop_le_finish (h : Ascending a ss) (hs : s ∈ ss) : s.stop ≤ finish a ss := by
  induction ss generalizing a with
  | nil => cases hs
  | cons t ss ih =>
      rcases List.mem_cons.mp hs with rfl | hs
      · exact h.2.le_finish
      · exact ih h.2 hs

/-- The last segment ends where the layout does. -/
theorem exists_stop_eq_finish (hne : ss ≠ []) : ∃ s ∈ ss, s.stop = finish a ss := by
  induction ss generalizing a with
  | nil => exact absurd rfl hne
  | cons t ss ih =>
      cases ss with
      | nil => exact ⟨t, List.mem_singleton_self t, rfl⟩
      | cons u us =>
          obtain ⟨s, hs, he⟩ := ih (a := t.stop) (List.cons_ne_nil u us)
          exact ⟨s, List.mem_cons_of_mem t hs, he⟩

/-! ## What lies where -/

/-- A segment with what lies before it. -/
theorem length_gap_append (ha : a ≤ s.start) :
    (List.replicate (s.start - a) z ++ s.values).length = s.stop - a := by
  simp only [List.length_append, List.length_replicate, Segment.stop]
  omega

/-- Every value of every segment is at its place. -/
theorem layout_getElem?_of_mem (h : Ascending a ss) (hs : s ∈ ss) {i : ℕ}
    (hi : i < s.values.length) : (layout z a ss)[s.start - a + i]? = s.values[i]? := by
  induction ss generalizing a with
  | nil => cases hs
  | cons t ss ih =>
      have ha := h.1
      have hlen := length_gap_append (z := z) ha
      rcases List.mem_cons.mp hs with rfl | hs
      · rw [layout, List.getElem?_append_left (by rw [hlen, Segment.stop]; omega),
          List.getElem?_append_right (by simp), List.length_replicate, Nat.add_sub_cancel_left]
      · have hle := h.2.le_start hs
        have hstop : t.start ≤ t.stop := Nat.le_add_right _ _
        rw [layout, List.getElem?_append_right (by rw [hlen]; omega), hlen, ← ih h.2 hs]
        congr 1
        omega

/-- What no segment covers holds the filler. -/
theorem layout_getElem?_gap (h : Ascending a ss) {j : ℕ} (hj : j < (layout z a ss).length)
    (hgap : ∀ s ∈ ss, ¬ s.Covers (a + j)) : (layout z a ss)[j]? = some z := by
  induction ss generalizing a j with
  | nil => simp [layout] at hj
  | cons t ss ih =>
      have ha := h.1
      have ht : ¬ t.Covers (a + j) := hgap t List.mem_cons_self
      simp only [Segment.Covers, Segment.stop] at ht
      by_cases hlt : j < t.start - a
      · rw [layout, List.append_assoc, List.getElem?_append_left (by simpa using hlt)]
        simp [hlt]
      · -- Past the first segment: the address is the same, counted from its end.
        have hlen := length_gap_append (z := z) ha
        have haddr : t.stop + (j - (t.stop - a)) = a + j := by
          simp only [Segment.stop]
          omega
        rw [layout, List.length_append, hlen] at hj
        rw [layout, List.getElem?_append_right (by rw [hlen, Segment.stop]; omega), hlen]
        refine ih h.2 ?_ fun s hs => ?_
        · simp only [Segment.stop] at *
          omega
        · rw [haddr]
          exact hgap s (List.mem_cons_of_mem t hs)

/-- Each segment ends before every later one starts. -/
theorem Ascending.pairwise (h : Ascending a ss) : ss.Pairwise fun s t => s.stop ≤ t.start := by
  induction ss generalizing a with
  | nil => exact .nil
  | cons s ss ih => exact .cons (fun _ ht => h.2.le_start ht) (ih h.2)

end Segments
