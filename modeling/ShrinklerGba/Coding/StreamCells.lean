import Mathlib.Data.List.Induction
import Mathlib.Order.Interval.Set.OrdConnected
import Mathlib.Order.PiLex
import ShrinklerGba.Coding.RangeCoder

/-!
# Streams and what they decode to

The streams that a range decoder decodes to a given sequence of decisions, for a rule that chooses
the next context from the decisions made so far. They are those whose first bits, read as a number,
lie in an interval that depends on the decisions alone: an encoder can keep track of it.

* `decoded rule d₀ x n` are the first `n` decisions, and the decoder after them.
* `Cell` is such an interval; `cell rule c₀ bits` is that of a sequence of decisions.
* **`decoded_eq_iff`**: a stream decodes to a sequence exactly if it is in the sequence's cell.
* **`cell_nonempty`**, **`cell_ordConnected`**: every cell has a stream, and all streams between two
  of its own.
* **`order_reversing`**: where two streams part, the lesser one decodes to a one.
-/

namespace RangeCoding

variable {κ : Type*}

/-- The number that the first bits of a stream make up. -/
def leading (x : ℕ → Bool) : ℕ → ℕ
  | 0 => 0
  | n + 1 => 2 * leading x n + (x n).toNat

/-! ## The order of streams -/

section order

theorem leading_congr {x y : ℕ → Bool} {n : ℕ} (h : ∀ i < n, x i = y i) :
    leading x n = leading y n := by
  induction n with
  | zero => rfl
  | succ n ih =>
      rw [leading, leading, ih fun i hi => h i (Nat.lt_succ_of_lt hi), h n (Nat.lt_succ_self n)]

/-- Later bits do not change which number is less. -/
theorem leading_le_of_lt {x y : ℕ → Bool} {i n : ℕ} (hin : i < n)
    (h : leading x (i + 1) < leading y (i + 1)) : leading x n < leading y n := by
  induction n, Nat.succ_le_of_lt hin using Nat.le_induction with
  | base => exact h
  | succ n hn ih =>
      have hlt := ih (Nat.lt_of_succ_le hn)
      have hx := (x n).toNat_le
      rw [leading, leading]
      omega

/-- **The first bits are in the order of the streams.** -/
theorem leading_mono {x y : Lex (ℕ → Bool)} (h : x ≤ y) (n : ℕ) :
    leading (ofLex x) n ≤ leading (ofLex y) n := by
  rcases h.lt_or_eq with hlt | rfl
  · obtain ⟨i, heq, hi⟩ := hlt
    rcases Nat.lt_or_ge i n with hin | hin
    · refine Nat.le_of_lt (leading_le_of_lt hin ?_)
      obtain ⟨hx, hy⟩ := Bool.lt_iff.mp hi
      have hx' : ofLex x i = false := hx
      have hy' : ofLex y i = true := hy
      have hsame : leading (ofLex x) i = leading (ofLex y) i :=
        leading_congr fun j hj => heq j hj
      rw [leading, leading, hsame, hx', hy']
      exact Nat.lt_succ_self _
    · exact (leading_congr fun j hj => heq j (Nat.lt_of_lt_of_le hj hin)).le
  · exact Nat.le_refl _

/-- What follows the first bits changes little. -/
theorem leading_add (x : ℕ → Bool) (n k : ℕ) : 2 ^ k * leading x n ≤ leading x (n + k) ∧
    leading x (n + k) < 2 ^ k * (leading x n + 1) := by
  induction k with
  | zero => simp
  | succ k ih =>
      have hbit := (x (n + k)).toNat_le
      rw [← Nat.add_assoc, leading, Nat.pow_succ']
      constructor
      · calc 2 * 2 ^ k * leading x n = 2 * (2 ^ k * leading x n) := Nat.mul_assoc ..
          _ ≤ 2 * leading x (n + k) + (x (n + k)).toNat := by omega
      · calc 2 * leading x (n + k) + (x (n + k)).toNat < 2 * (2 ^ k * (leading x n + 1)) := by omega
          _ = 2 * 2 ^ k * (leading x n + 1) := (Nat.mul_assoc ..).symm

/-- Zeros only move the first bits. -/
theorem leading_add_of_zeros {x : ℕ → Bool} {n : ℕ} (h : ∀ i, n ≤ i → x i = false) (k : ℕ) :
    leading x (n + k) = 2 ^ k * leading x n := by
  induction k with
  | zero => simp
  | succ k ih =>
      rw [← Nat.add_assoc, leading, ih, h _ (Nat.le_add_right n k), Nat.pow_succ', Nat.mul_assoc]
      rfl

/-- Every number begins a stream. -/
theorem exists_leading (n m : ℕ) (h : m < 2 ^ n) : ∃ x : ℕ → Bool, leading x n = m := by
  induction n generalizing m with
  | zero => exact ⟨fun _ => false, by simp [leading]; omega⟩
  | succ n ih =>
      rw [Nat.pow_succ] at h
      obtain ⟨x, hx⟩ := ih (m / 2) (by omega)
      refine ⟨Function.update x n (m % 2 == 1), ?_⟩
      have hsame : leading (Function.update x n (m % 2 == 1)) n = leading x n :=
        leading_congr fun i hi => Function.update_of_ne (Nat.ne_of_lt hi) _ _
      rw [leading, hsame, hx, Function.update_self]
      rcases Nat.mod_two_eq_zero_or_one m with hm | hm <;> simp [hm] <;> omega

end order

/-! ## Cells -/

/-- The streams whose first `pos` bits make up a number from `low` on, below `low + range`; and the
probabilities there. -/
structure Cell (κ : Type*) where
  /-- The bits that count. -/
  pos : ℕ
  /-- The least number. -/
  low : ℕ
  /-- How many numbers there are. -/
  range : ℕ
  /-- The probabilities. -/
  prob : κ → ℕ

namespace Cell

/-- A stream is in the cell. -/
def Holds (c : Cell κ) (x : ℕ → Bool) : Prop :=
  c.low ≤ leading x c.pos ∧ leading x c.pos < c.low + c.range

/-- The decoder of a stream in the cell. -/
def decoder (c : Cell κ) (x : ℕ → Bool) : Decoder κ :=
  ⟨⟨leading x c.pos - c.low, c.range⟩, c.pos, c.prob⟩

/-- One more bit counts. -/
def shift (c : Cell κ) : Cell κ := ⟨c.pos + 1, 2 * c.low, 2 * c.range, c.prob⟩

variable (A : Adaptation)

/-- More bits count until the range is normalised. -/
def normalise : ℕ → Cell κ → Cell κ
  | 0, c => c
  | fuel + 1, c => if c.range < A.half then normalise fuel c.shift else c

variable [DecidableEq κ]

/-- The part of the cell that belongs to a decision in a context. -/
def take (k : κ) (bit : Bool) (c : Cell κ) : Cell κ :=
  let threshold := A.threshold c.range (c.prob k)
  { c with
    low := if bit then c.low else c.low + threshold
    range := if bit then threshold else c.range - threshold
    prob := Function.update c.prob k (A.update bit (c.prob k)) }

/-- The part of the cell that is decoded to a decision in a context. -/
def next (k : κ) (bit : Bool) (c : Cell κ) : Cell κ := (c.normalise A A.width).take A k bit

/-- The invariant of cells: the numbers have as many bits as count, and the decoders are valid. -/
structure Valid (c : Cell κ) : Prop where
  /-- There is a number. -/
  range_pos : 0 < c.range
  /-- The range has its width. -/
  range_lt : c.range < 2 ^ A.width
  /-- The numbers have as many bits as count. -/
  le_pow : c.low + c.range ≤ 2 ^ c.pos
  /-- The probabilities keep their bounds. -/
  prob_mem : ∀ k, c.prob k ∈ Set.Icc A.lo A.hi

variable {A} {c : Cell κ} {x : ℕ → Bool} {k : κ} {bit : Bool}

/-! ### Shifting -/

omit [DecidableEq κ] in
theorem holds_shift : c.shift.Holds x ↔ c.Holds x := by
  have hbit := (x c.pos).toNat_le
  simp only [Holds, shift, leading]
  omega

omit [DecidableEq κ] in
theorem shift_decoder (h : c.Holds x) : (c.decoder x).shift x = c.shift.decoder x := by
  simp only [decoder, Decoder.shift, State.double, shift, leading, Decoder.mk.injEq, State.mk.injEq,
    and_true]
  have hle := h.1
  omega

omit [DecidableEq κ] in
theorem holds_normalise (fuel : ℕ) : (c.normalise A fuel).Holds x ↔ c.Holds x := by
  induction fuel generalizing c with
  | zero => rfl
  | succ fuel ih =>
      rw [normalise]
      split
      · rw [ih, holds_shift]
      · rfl

omit [DecidableEq κ] in
theorem normalise_decoder (h : c.Holds x) (fuel : ℕ) :
    (c.decoder x).normalise A x fuel = (c.normalise A fuel).decoder x := by
  induction fuel generalizing c with
  | zero => rfl
  | succ fuel ih =>
      have hrange : (c.decoder x).range = c.range := rfl
      rw [normalise, Decoder.normalise, hrange]
      split
      · rw [shift_decoder h, ih (holds_shift.mpr h)]
      · rfl

omit [DecidableEq κ] in
theorem Valid.shift (h : c.Valid A) (hc : c.range < A.half) : c.shift.Valid A := by
  have hhalf := A.two_mul_half
  have hle := h.le_pow
  refine ⟨Nat.mul_pos (by decide) h.range_pos, ?_, ?_, h.prob_mem⟩
  · simp only [Cell.shift]
    omega
  · simp only [Cell.shift, Nat.pow_succ]
    omega

omit [DecidableEq κ] in
theorem Valid.normalise (h : c.Valid A) (fuel : ℕ) : (c.normalise A fuel).Valid A := by
  induction fuel generalizing c with
  | zero => exact h
  | succ fuel ih =>
      rw [Cell.normalise]
      split
      · exact ih (h.shift ‹_›)
      · exact h

omit [DecidableEq κ] in
/-- The width is enough fuel. -/
theorem Valid.half_le_normalise (h : c.Valid A) : A.half ≤ (c.normalise A A.width).range := by
  have hfuel : A.half ≤ c.range * 2 ^ A.width := calc
    A.half ≤ 2 ^ A.width := Nat.pow_le_pow_right (by decide) (Nat.sub_le _ _)
    _ ≤ c.range * 2 ^ A.width := Nat.le_mul_of_pos_left _ h.range_pos
  generalize A.width = fuel at hfuel
  clear h
  induction fuel generalizing c with
  | zero => simpa [Cell.normalise] using hfuel
  | succ fuel ih =>
      rw [Cell.normalise]
      split
      · refine ih ?_
        calc A.half ≤ c.range * 2 ^ (fuel + 1) := hfuel
          _ = 2 * c.range * 2 ^ fuel := by ring
      · exact Nat.le_of_not_lt ‹_›

/-! ### Deciding -/

/-- The part of a decision holds the streams that are decoded to it. -/
theorem holds_take (h : c.Valid A) :
    (c.take A k bit).Holds x ↔ c.Holds x ∧ ((c.decoder x).narrow A (c.prob k)).1 = bit := by
  have hlt := A.threshold_lt h.range_pos (h.prob_mem k).2
  have hrange : (c.decoder x).range = c.range := rfl
  have hvalue : (c.decoder x).value = leading x c.pos - c.low := rfl
  rw [State.narrow, hrange, hvalue]
  simp only [Holds, take]
  cases bit <;> split <;> grind

theorem take_decoder (hx : c.Holds x) :
    (⟨((c.decoder x).narrow A (c.prob k)).2, c.pos, Function.update c.prob k
        (A.update ((c.decoder x).narrow A (c.prob k)).1 (c.prob k))⟩ : Decoder κ) =
      (c.take A k ((c.decoder x).narrow A (c.prob k)).1).decoder x := by
  have hle := hx.1
  have hrange : (c.decoder x).range = c.range := rfl
  have hvalue : (c.decoder x).value = leading x c.pos - c.low := rfl
  rw [State.narrow, hrange, hvalue]
  split <;> simp [take, decoder]
  omega

theorem Valid.take (h : c.Valid A) (hc : A.half ≤ c.range) : (c.take A k bit).Valid A := by
  have hpos := A.threshold_pos hc (h.prob_mem k).1
  have hlt := A.threshold_lt h.range_pos (h.prob_mem k).2
  have hle := h.le_pow
  have hwidth := h.range_lt
  refine ⟨?_, ?_, ?_, fun j => ?_⟩
  · cases bit <;> simp [Cell.take] <;> omega
  · cases bit <;> simp [Cell.take] <;> omega
  · cases bit <;> simp [Cell.take] <;> omega
  · by_cases hj : j = k
    · subst hj
      simpa [Cell.take] using A.update_mem _ _ (h.prob_mem j)
    · simpa [Cell.take, hj] using h.prob_mem j

theorem Valid.next (h : c.Valid A) : (c.next A k bit).Valid A :=
  (h.normalise A.width).take h.half_le_normalise

/-- **The next cell holds the streams that are decoded to the decision.** -/
theorem holds_next (h : c.Valid A) :
    (c.next A k bit).Holds x ↔ c.Holds x ∧ ((c.decoder x).decode A x k).1 = bit := by
  rw [next, holds_take (h.normalise A.width), holds_normalise]
  refine and_congr_right fun hx => ?_
  rw [Decoder.decode, normalise_decoder hx]
  rfl

/-- Decoding leads to the decoder of the next cell. -/
theorem decode_decoder (hx : c.Holds x) :
    ((c.decoder x).decode A x k).2 =
      (c.next A k ((c.decoder x).decode A x k).1).decoder x := by
  rw [Decoder.decode, normalise_decoder hx, next]
  exact take_decoder ((holds_normalise A.width).mpr hx)

end Cell

/-! ## Sequences of decisions -/

section sequences

variable (A : Adaptation) [DecidableEq κ] (rule : List Bool → κ)

/-- The first `n` decisions, and the decoder after them. -/
def decoded (d₀ : Decoder κ) (x : ℕ → Bool) : ℕ → List Bool × Decoder κ
  | 0 => ([], d₀)
  | n + 1 =>
      let (bits, d) := decoded d₀ x n
      let (bit, d) := d.decode A x (rule bits)
      (bits ++ [bit], d)

/-- The cell of a sequence of decisions, which is given in reverse. -/
def cellRev (c₀ : Cell κ) : List Bool → Cell κ
  | [] => c₀
  | bit :: bits => (cellRev c₀ bits).next A (rule bits.reverse) bit

/-- The cell of a sequence of decisions. -/
def cell (c₀ : Cell κ) (bits : List Bool) : Cell κ := cellRev A rule c₀ bits.reverse

variable {A rule} {c₀ : Cell κ} {x y : ℕ → Bool} {bits : List Bool}

theorem cell_concat (bits : List Bool) (bit : Bool) :
    cell A rule c₀ (bits ++ [bit]) = (cell A rule c₀ bits).next A (rule bits) bit := by
  simp [cell, cellRev]

variable (rule) in
theorem cell_valid (h : c₀.Valid A) (bits : List Bool) : (cell A rule c₀ bits).Valid A := by
  induction bits using List.reverseRecOn with
  | nil => exact h
  | append_singleton bits bit ih =>
      rw [cell_concat]
      exact ih.next

variable (rule) in
/-- A stream is in the cell of its decisions. -/
theorem holds_decoded (h : c₀.Valid A) (hx : c₀.Holds x) (n : ℕ) :
    (cell A rule c₀ (decoded A rule (c₀.decoder x) x n).1).Holds x ∧
      (decoded A rule (c₀.decoder x) x n).2 =
        (cell A rule c₀ (decoded A rule (c₀.decoder x) x n).1).decoder x := by
  induction n with
  | zero => exact ⟨hx, rfl⟩
  | succ n ih =>
      obtain ⟨hcell, hd⟩ := ih
      rw [decoded]
      simp only [hd, cell_concat]
      exact ⟨(Cell.holds_next (cell_valid rule h _)).mpr ⟨hcell, rfl⟩, Cell.decode_decoder hcell⟩

/-- **A stream decodes to a sequence exactly if it is in the sequence's cell.** -/
theorem decoded_eq_iff (h : c₀.Valid A) (hx : c₀.Holds x) :
    (decoded A rule (c₀.decoder x) x bits.length).1 = bits ↔ (cell A rule c₀ bits).Holds x := by
  refine ⟨fun heq => ?_, fun hcell => ?_⟩
  · have hholds := (holds_decoded rule h hx bits.length).1
    rwa [heq] at hholds
  · induction bits using List.reverseRecOn with
    | nil => rfl
    | append_singleton bits bit ih =>
        rw [cell_concat, Cell.holds_next (cell_valid rule h _)] at hcell
        obtain ⟨hcell, hbit⟩ := hcell
        have hbits := ih hcell
        have hd := (holds_decoded rule h hx bits.length).2
        rw [List.length_append, List.length_singleton, decoded]
        simp only [hd, hbits, hbit]

variable (rule) in
/-- **Every sequence has a stream.** -/
theorem cell_nonempty (h : c₀.Valid A) (bits : List Bool) :
    ∃ x, (cell A rule c₀ bits).Holds x := by
  have hvalid := cell_valid rule h bits
  have hpos := hvalid.range_pos
  have hle := hvalid.le_pow
  obtain ⟨x, hx⟩ := exists_leading (cell A rule c₀ bits).pos (cell A rule c₀ bits).low (by omega)
  exact ⟨x, hx.ge, by omega⟩

omit [DecidableEq κ] in
/-- **Between two streams of a cell, all are.** -/
theorem cell_ordConnected (c : Cell κ) :
    {x : Lex (ℕ → Bool) | c.Holds (ofLex x)}.OrdConnected := by
  refine ⟨fun x hx y hy z hz => ?_⟩
  have hxz := leading_mono hz.1 c.pos
  have hzy := leading_mono hz.2 c.pos
  exact ⟨hx.1.trans hxz, hzy.trans_lt hy.2⟩

/-- **Where two streams part, the lesser one decodes to a one.** -/
theorem order_reversing {x y : Lex (ℕ → Bool)} (hxy : x < y) {bit bit' : Bool}
    (hx : (cell A rule c₀ (bits ++ [bit])).Holds (ofLex x))
    (hy : (cell A rule c₀ (bits ++ [bit'])).Holds (ofLex y)) (hne : bit ≠ bit') :
    bit = true ∧ bit' = false := by
  cases bit with
  | true => exact ⟨rfl, Bool.eq_false_iff.mpr fun h => hne h.symm⟩
  | false =>
      obtain rfl : bit' = true := by simpa using hne.symm
      -- The greater stream would be below the threshold, and the lesser one not.
      have hle := leading_mono hxy.le ((cell A rule c₀ bits).normalise A A.width).pos
      rw [cell_concat] at hx hy
      simp only [Cell.next, Cell.take, Cell.Holds, if_true, Bool.false_eq_true, if_false] at hx hy
      omega

end sequences

end RangeCoding
