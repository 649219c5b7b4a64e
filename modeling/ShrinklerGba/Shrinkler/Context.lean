import ShrinklerGba.Shrinkler.Depacker

/-!
# Contexts

What the bits of the format depend on, and where the depacker keeps their probabilities.

* `Context` is a logical context; `Context.index` is its number in the format.
* `Context.entry` is its entry in the depacker's table. Calls of `getbit` from `getnumber` have
  their `sp` 8 bytes lower and get an entry that is 4 less than the index suggests.
* **`Context.entry_inj`**: different contexts have different entries; `Context.slot_word` says that
  `getbit` uses them.
* `Site.context` is the context of a call of `getbit`; **`Site.slot_eq`** is where its probability
  is.
-/

namespace ShrinklerGba.Shrinkler

open Thumb

/-- The contexts of the format. -/
inductive Context
  /-- The kind of a symbol, by the parity of the output address. -/
  | kind (odd : Bool)
  /-- A bit of a literal, by the parity of the output address and the bits seen, after a leading
  one. -/
  | literal (odd : Bool) (seen : ℕ)
  /-- Whether an offset is repeated. -/
  | repeated
  /-- A bit of a number. -/
  | number (k : Number) (i : ℕ)
  deriving DecidableEq

namespace Context

/-- The contexts that occur while no number has more than 127 unary bits. -/
def Valid : Context → Prop
  | .literal _ seen => seen ∈ Set.Icc 1 255
  | .number _ i => i ∈ Set.Icc 1 254
  | _ => True

/-- The number of a context. -/
def index : Context → ℤ
  | .kind odd => 256 * odd.toNat
  | .literal odd seen => 256 * odd.toNat + seen
  | .repeated => -1
  | .number k i => 256 * k.base.toNat + i

/-- The entry of a context in the table. -/
def entry : Context → ℕ
  | .kind odd => 256 * odd.toNat + 5
  | .literal odd seen => 256 * odd.toNat + seen + 5
  | .repeated => 4
  | .number k i => 256 * k.base.toNat + i + 1

/-- The address of a context's probability. -/
def address (S : Word) (c : Context) : Word := S + BitVec.ofNat 32 (2 * c.entry)

/-- What `getbit` is passed for a context. -/
def word (c : Context) : Word := BitVec.ofInt 32 c.index

variable {c c' : Context}

/-- **Different contexts have different entries.** -/
theorem entry_inj (h : c.Valid) (h' : c'.Valid) : c.entry = c'.entry ↔ c = c' := by
  refine ⟨fun heq => ?_, fun heq => heq ▸ rfl⟩
  rcases c with (_ | _) | ⟨(_ | _), i⟩ | _ | ⟨(_ | _), i⟩ <;>
    rcases c' with (_ | _) | ⟨(_ | _), j⟩ | _ | ⟨(_ | _), j⟩ <;>
    simp [entry, Valid, Number.base] at heq h h' ⊢ <;> omega

theorem entry_lt (h : c.Valid) : c.entry < numContexts := by
  show c.entry < 2048
  rcases c with (_ | _) | ⟨(_ | _), i⟩ | _ | ⟨(_ | _), i⟩ <;>
    simp [entry, Valid, Number.base] at h ⊢ <;> omega

variable {S : Word}

/-- A probability lies in the table. -/
theorem address_subset (h : c.Valid) : range (c.address S) 2 ⊆ range S 4096 := by
  have hlt : c.entry < 2048 := c.entry_lt h
  refine range_subset ?_
  rw [address]
  bv_omega

theorem address_aligned (hS : S.toNat % 4 = 0) : (c.address S).toNat % 2 = 0 := by
  rw [address]
  bv_omega

/-- Probabilities of different contexts do not overlap. -/
theorem address_disjoint (h : c.Valid) (h' : c'.Valid) (hne : c ≠ c') :
    Disjoint (range (c.address S) 2) (range (c'.address S) 2) := by
  have hlt : c.entry < 2048 := c.entry_lt h
  have hlt' : c'.entry < 2048 := c'.entry_lt h'
  have hne' : c.entry ≠ c'.entry := fun heq => hne ((entry_inj h h').mp heq)
  rw [address, address]
  exact disjoint_range (by bv_omega) (by bv_omega)

/-! ## What `getbit` is passed -/

/-- Merging a small word into a shifted one adds it. -/
theorem shiftLeft_or (y x : Word) (hx : x.toNat < 2 ^ 8) : y <<< 8 ||| x = y <<< 8 + x := by
  refine (BitVec.add_eq_or_of_and_eq_zero _ _ ?_).symm
  ext i hi
  by_cases h8 : i < 8
  · simp [h8]
  · have hbit : x[i] = false := by
      rw [← BitVec.getLsbD_eq_getElem]
      exact Nat.testBit_lt_two_pow (hx.trans_le (Nat.pow_le_pow_right (by decide) (by omega)))
    simp [hbit]

theorem kindContext_eq (outp : Word) :
    Depacker.kindContext outp = (if outp.getLsbD 0 then (1 : Word) else 0) <<< 8 := by
  have hodd : outp.getLsbD 0 = Decidable.decide (outp.toNat % 2 = 1) := by
    rw [BitVec.getLsbD, Nat.testBit_zero]
  rw [hodd, Depacker.kindContext]
  by_cases h : outp.toNat % 2 = 1
  · simp only [h, decide_true, if_true]
    bv_omega
  · simp only [h, decide_false, Bool.false_eq_true, if_false]
    bv_omega

theorem word_kind (outp : Word) :
    Depacker.kindContext outp = (Context.kind (outp.getLsbD 0)).word := by
  rw [kindContext_eq]
  cases outp.getLsbD 0 <;> decide

theorem word_literal (outp x : Word) (hx : x.toNat < 2 ^ 8) :
    Depacker.kindContext outp ||| x = (Context.literal (outp.getLsbD 0) x.toNat).word := by
  rw [kindContext_eq, shiftLeft_or _ _ hx]
  have hx' : BitVec.ofInt 32 x.toNat = x := by simp
  cases outp.getLsbD 0
  · simp [word, index]
  · simp [word, index, BitVec.ofInt_add]

theorem word_number (k : Number) (x : Word) (hx : x.toNat < 2 ^ 8) :
    k.base <<< 8 ||| x = (Context.number k x.toNat).word := by
  rw [shiftLeft_or _ _ hx]
  cases k <;> simp [word, index, Number.base, BitVec.ofInt_add]

theorem slot_ofInt (S : Word) (z : ℤ) :
    Coder.slot S (BitVec.ofInt 32 z) = S + BitVec.ofInt 32 (2 * z + 10) := by
  rw [Coder.slot_eq, Int.two_mul, BitVec.ofInt_add, BitVec.ofInt_add]
  rfl

/-- **`getbit` uses the entry of a context**, when it is called from the main loop. -/
theorem slot_word (S : Word) {c : Context} (hc : ∀ k i, c ≠ .number k i) :
    Coder.slot S c.word = c.address S := by
  have hentry : 2 * c.index + 10 = ((2 * c.entry : ℕ) : ℤ) := by
    cases c with
    | kind odd => simp only [index, entry]; omega
    | literal odd seen => simp only [index, entry]; omega
    | repeated => rfl
    | number k i => exact absurd rfl (hc k i)
  rw [word, slot_ofInt, hentry, BitVec.ofInt_natCast, address]

/-- **`getbit` uses the entry of a context**, when it is called from `getnumber`. -/
theorem slot_word_number (S : Word) (k : Number) (i : ℕ) :
    Coder.slot (S - 8) (Context.number k i).word = (Context.number k i).address S := by
  have hentry : 2 * (Context.number k i).index + 10 =
      ((2 * (Context.number k i).entry : ℕ) : ℤ) + 8 := by
    simp only [index, entry]
    omega
  rw [word, slot_ofInt, hentry, BitVec.ofInt_add, BitVec.ofInt_natCast, address]
  show S - 8 + (_ + 8) = _
  bv_omega

end Context

/-! ## The context of a call -/

/-- The context of a call of `getbit`. -/
def Site.context (d : Depacker) : Site → Context
  | .literal => .literal (d.outp.getLsbD 0) d.tmp0.toNat
  | .kindAfterLiteral | .kindAfterReference => .kind (d.outp.getLsbD 0)
  | .repeated => .repeated
  | .unary k | .digit k => .number k d.counter.toNat

/-- What the code computes for it. -/
def Site.bitctx (d : Depacker) : Site → Word
  | .literal => Depacker.kindContext d.outp ||| d.tmp0
  | .kindAfterLiteral | .kindAfterReference => Depacker.kindContext d.outp
  | .repeated => -1
  | .unary _ | .digit _ => d.tmp0 ||| d.counter

/-- **`getbit` uses the entry of a call's context**, wherever it is called from. -/
theorem Site.slot_eq (S : Word) (d : Depacker) (σ : Site) :
    Coder.slot (σ.sp S) (σ.context d).word = (σ.context d).address S := by
  cases σ with
  | unary k => exact Context.slot_word_number S k _
  | digit k => exact Context.slot_word_number S k _
  | _ => exact Context.slot_word S (by simp [Site.context])

end ShrinklerGba.Shrinkler
