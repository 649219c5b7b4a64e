import Mathlib.Data.Nat.Log
import Mathlib.Order.Interval.Set.Basic
import Mathlib.Tactic.Ring

/-!
# Adaptive binary range coding

A decoder that reads decisions from a stream of bits, over an arbitrary type `κ` of contexts. Each
context has a probability that adapts to the decisions made in it.

* `Adaptation` is how probabilities adapt, together with the bounds they keep.
* `State` is the coder's interval: a value below a range. `double` shifts a bit in, `narrow`
  decides.
* `Decoder.decode` normalises and decides; `Decoder.Valid` is its invariant.
* **`Decoder.decode_relabel`**: the names of the contexts do not matter.
* **`Decoder.normalise_eq_iterate`**: normalising shifts in as many bits as it takes.
-/

namespace RangeCoding

/-- How probabilities adapt. They are multiples of `2 ^ -width`, and ranges stay below
`2 ^ width`. -/
structure Adaptation where
  /-- The width of ranges and probabilities. -/
  width : ℕ
  /-- The least probability. -/
  lo : ℕ
  /-- The greatest probability. -/
  hi : ℕ
  /-- The probability after a decision. -/
  update : Bool → ℕ → ℕ
  /-- A range has at least one bit. -/
  width_pos : 0 < width
  /-- No probability is so small that its share of a range can be empty. -/
  two_le_lo : 2 ≤ lo
  /-- No probability is so great that its share can be the whole range. -/
  hi_lt : hi < 2 ^ width
  /-- The bounds are kept. -/
  update_mem : ∀ b p, p ∈ Set.Icc lo hi → update b p ∈ Set.Icc lo hi

namespace Adaptation

variable (A : Adaptation)

/-- A range is normalised if it is at least this. -/
def half : ℕ := 2 ^ (A.width - 1)

theorem two_mul_half : 2 * A.half = 2 ^ A.width := by
  have hw := A.width_pos
  rw [half, ← Nat.pow_succ']
  congr 1
  omega

/-- The share of the range that belongs to a one. -/
def threshold (range prob : ℕ) : ℕ := range * prob / 2 ^ A.width

theorem threshold_pos {n p : ℕ} (hn : A.half ≤ n) (hp : A.lo ≤ p) : 1 ≤ A.threshold n p := by
  rw [threshold, Nat.le_div_iff_mul_le (Nat.two_pow_pos _), Nat.one_mul, ← A.two_mul_half,
    Nat.mul_comm n p]
  exact Nat.mul_le_mul (A.two_le_lo.trans hp) hn

theorem threshold_lt {n p : ℕ} (hn : 0 < n) (hp : p ≤ A.hi) : A.threshold n p < n := by
  rw [threshold, Nat.div_lt_iff_lt_mul (Nat.two_pow_pos _)]
  exact Nat.mul_lt_mul_of_pos_left (hp.trans_lt A.hi_lt) hn

end Adaptation

/-! ## Intervals -/

/-- The coder's interval. -/
structure State where
  /-- Where the stream's value lies in the interval. -/
  value : ℕ
  /-- The size of the interval. -/
  range : ℕ

namespace State

variable (A : Adaptation)

/-- The value lies in the interval, and the interval has its width. -/
structure Valid (s : State) : Prop where
  /-- The value lies in the interval. -/
  value_lt : s.value < s.range
  /-- The interval has its width. -/
  range_lt : s.range < 2 ^ A.width

/-- Shift in a bit. -/
def double (b : Bool) (s : State) : State := ⟨2 * s.value + b.toNat, 2 * s.range⟩

/-- Decide, with the probability of a one. -/
def narrow (prob : ℕ) (s : State) : Bool × State :=
  let threshold := A.threshold s.range prob
  if threshold ≤ s.value then (false, ⟨s.value - threshold, s.range - threshold⟩)
  else (true, ⟨s.value, threshold⟩)

variable {A} {s : State}

theorem narrow_of_le {p : ℕ} (h : A.threshold s.range p ≤ s.value) :
    s.narrow A p = (false,
      ⟨s.value - A.threshold s.range p, s.range - A.threshold s.range p⟩) := if_pos h

theorem narrow_of_lt {p : ℕ} (h : s.value < A.threshold s.range p) :
    s.narrow A p = (true, ⟨s.value, A.threshold s.range p⟩) := if_neg (Nat.not_le.mpr h)

theorem Valid.double (h : s.Valid A) (hs : s.range < A.half) (b : Bool) :
    (s.double b).Valid A := by
  have hhalf := A.two_mul_half
  have hv := h.value_lt
  have hb := b.toNat_le
  constructor <;> simp only [State.double] <;> omega

/-- Deciding keeps the value in the interval, whatever the decision. -/
theorem Valid.narrow (h : s.Valid A) (hs : A.half ≤ s.range) {p : ℕ} (hp : p ∈ Set.Icc A.lo A.hi) :
    (s.narrow A p).2.Valid A := by
  have hpos := A.threshold_pos hs hp.1
  have hv := h.value_lt
  have hr := h.range_lt
  have hlt := A.threshold_lt (by omega : 0 < s.range) hp.2
  rw [State.narrow]
  split
  · constructor <;> simp only <;> omega
  · constructor <;> simp only <;> omega

/-- A range that has its width has not been doubled more often than that. -/
theorem Valid.doublings_lt {n k : ℕ} (hn : 0 < n) (h : n * 2 ^ k < 2 ^ A.width) : k < A.width := by
  have hk : 2 ^ k ≤ n * 2 ^ k := Nat.le_mul_of_pos_left _ hn
  exact (Nat.pow_lt_pow_iff_right (by decide)).mp (hk.trans_lt h)

end State

/-! ## The decoder -/

/-- The coder's interval, the position in the stream, and the probabilities. -/
structure Decoder (κ : Type*) extends State where
  /-- The bits that were read. -/
  pos : ℕ
  /-- The probabilities. -/
  prob : κ → ℕ

variable {κ : Type*} (A : Adaptation) (bits : ℕ → Bool)

namespace Decoder

/-- The invariant of decoders. -/
structure Valid (d : Decoder κ) : Prop where
  /-- The interval is valid. -/
  state : d.toState.Valid A
  /-- The probabilities keep their bounds. -/
  prob_mem : ∀ k, d.prob k ∈ Set.Icc A.lo A.hi

/-- Read a bit. -/
def shift (d : Decoder κ) : Decoder κ :=
  { d with toState := d.double (bits d.pos), pos := d.pos + 1 }

/-- Read bits while the range is not normalised, at most `fuel` of them. -/
def normalise : ℕ → Decoder κ → Decoder κ
  | 0, d => d
  | fuel + 1, d => if d.range < A.half then normalise fuel (d.shift bits) else d

variable {A bits} {d : Decoder κ}

theorem Valid.shift (h : d.Valid A) (hd : d.range < A.half) : (d.shift bits).Valid A :=
  ⟨h.state.double hd _, h.prob_mem⟩

theorem Valid.normalise (h : d.Valid A) (fuel : ℕ) : (d.normalise A bits fuel).Valid A := by
  induction fuel generalizing d with
  | zero => exact h
  | succ fuel ih =>
      rw [Decoder.normalise]
      split
      · exact ih (h.shift ‹_›)
      · exact h

/-- Enough fuel normalises the range. -/
theorem half_le_normalise {fuel : ℕ} (h : A.half ≤ d.range * 2 ^ fuel) :
    A.half ≤ (d.normalise A bits fuel).range := by
  induction fuel generalizing d with
  | zero => simpa [normalise] using h
  | succ fuel ih =>
      rw [normalise]
      split
      · refine ih ?_
        simp only [shift, State.double]
        calc A.half ≤ d.range * 2 ^ (fuel + 1) := h
          _ = 2 * d.range * 2 ^ fuel := by ring
      · exact Nat.le_of_not_lt ‹_›

/-- The width is enough fuel. -/
theorem Valid.half_le_normalise (h : d.Valid A) :
    A.half ≤ (d.normalise A bits A.width).range := by
  refine Decoder.half_le_normalise ?_
  have hpos : 0 < d.range := Nat.zero_lt_of_lt h.state.value_lt
  calc A.half ≤ 2 ^ A.width := Nat.pow_le_pow_right (by decide) (Nat.sub_le _ _)
    _ ≤ d.range * 2 ^ A.width := Nat.le_mul_of_pos_left _ hpos

theorem iterate_shift_pos (n : ℕ) (d : Decoder κ) :
    ((Decoder.shift bits)^[n] d).pos = d.pos + n := by
  induction n generalizing d with
  | zero => rfl
  | succ n ih =>
      rw [Function.iterate_succ_apply, ih]
      exact Nat.succ_add_eq_add_succ d.pos n

/-- Normalising reads as many bits as it takes. -/
theorem normalise_eq_iterate {n fuel : ℕ} (h : A.half ≤ d.range * 2 ^ n)
    (hlt : d.range * 2 ^ n < 2 ^ A.width) (hn : n ≤ fuel) :
    d.normalise A bits fuel = (Decoder.shift bits)^[n] d := by
  have hhalf := A.two_mul_half
  induction n generalizing fuel d with
  | zero =>
      have hd : ¬d.range < A.half := by omega
      cases fuel <;> simp [normalise, hd]
  | succ n ih =>
      obtain ⟨fuel, rfl⟩ : ∃ m, fuel = m + 1 := ⟨fuel - 1, by omega⟩
      have hpow : d.range * 2 ^ (n + 1) = 2 * d.range * 2 ^ n := by ring
      have hle : 2 * d.range ≤ 2 * d.range * 2 ^ n := Nat.le_mul_of_pos_right _ (Nat.two_pow_pos n)
      rw [hpow] at h hlt
      rw [normalise, if_pos (by omega), Function.iterate_succ_apply]
      exact ih h hlt (Nat.le_of_succ_le_succ hn)

variable (A bits) in
theorem le_pos_normalise (fuel : ℕ) : d.pos ≤ (d.normalise A bits fuel).pos := by
  induction fuel generalizing d with
  | zero => exact Nat.le_refl _
  | succ fuel ih =>
      rw [normalise]
      split
      · exact (Nat.le_succ d.pos).trans (ih (d := d.shift bits))
      · exact Nat.le_refl _

variable (A bits) in
/-- No more bits are read than there is fuel. -/
theorem normalise_pos_le (fuel : ℕ) : (d.normalise A bits fuel).pos ≤ d.pos + fuel := by
  induction fuel generalizing d with
  | zero => exact Nat.le_refl _
  | succ fuel ih =>
      rw [normalise]
      split
      · have hle := ih (d := d.shift bits)
        have hpos : (d.shift bits).pos = d.pos + 1 := rfl
        omega
      · exact Nat.le_add_right _ _

@[simp] theorem normalise_prob (fuel : ℕ) : (d.normalise A bits fuel).prob = d.prob := by
  induction fuel generalizing d with
  | zero => rfl
  | succ fuel ih =>
      rw [normalise]
      split
      · exact ih
      · rfl

variable (A bits) [DecidableEq κ]

/-- Decode a decision in a context: the decision and the decoder after it. -/
def decode (k : κ) (d : Decoder κ) : Bool × Decoder κ :=
  let d := d.normalise A bits A.width
  let (b, s) := d.narrow A (d.prob k)
  (b, { d with toState := s, prob := Function.update d.prob k (A.update b (d.prob k)) })

variable {A bits}

/-- Deciding reads no bits. -/
theorem decode_pos (k : κ) :
    (d.decode A bits k).2.pos = (d.normalise A bits A.width).pos := rfl

/-- Only the probability of the context changes. -/
theorem decode_prob (k : κ) : (d.decode A bits k).2.prob =
    Function.update d.prob k (A.update (d.decode A bits k).1 (d.prob k)) := by
  simp only [decode, normalise_prob]

/-- **Decoding keeps the invariant**, whatever the stream and the context. -/
theorem Valid.decode (h : d.Valid A) (k : κ) : (d.decode A bits k).2.Valid A := by
  have hn : (d.normalise A bits A.width).Valid A := h.normalise A.width
  refine ⟨hn.state.narrow h.half_le_normalise (hn.prob_mem k), fun j => ?_⟩
  by_cases hj : j = k
  · subst hj
    simpa [Decoder.decode] using A.update_mem _ _ (h.prob_mem j)
  · simpa [Decoder.decode, hj] using h.prob_mem j

/-! ### Other names for the contexts -/

section relabel

variable {κ' : Type*} {τ : κ' → κ}

/-- The decoder for contexts that go by other names. -/
def relabel (τ : κ' → κ) (d : Decoder κ) : Decoder κ' := { d with prob := d.prob ∘ τ }

omit [DecidableEq κ] in
theorem normalise_relabel (τ : κ' → κ) (d : Decoder κ) (fuel : ℕ) :
    (d.relabel τ).normalise A bits fuel = (d.normalise A bits fuel).relabel τ := by
  induction fuel generalizing d with
  | zero => rfl
  | succ fuel ih =>
      have hrange : (d.relabel τ).range = d.range := rfl
      rw [normalise, normalise, hrange]
      split
      · exact ih (d.shift bits)
      · rfl

/-- **Names do not matter to decoding**, as long as different contexts have different ones. -/
theorem decode_relabel [DecidableEq κ'] (hτ : Function.Injective τ) (d : Decoder κ) (k : κ') :
    (d.relabel τ).decode A bits k =
      ((d.decode A bits (τ k)).1, (d.decode A bits (τ k)).2.relabel τ) := by
  rw [decode, normalise_relabel, decode]
  simp only [relabel, Function.comp_apply, Function.update_comp_eq_of_injective _ hτ]

end relabel

end Decoder

end RangeCoding
