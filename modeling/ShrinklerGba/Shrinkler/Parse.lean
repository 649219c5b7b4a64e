import Mathlib.Data.Nat.Log
import ShrinklerGba.Coding.Bitstream
import ShrinklerGba.Coding.StreamCells
import ShrinklerGba.Shrinkler.Parity

/-!
# Every parse has a stream

A program can be put together from symbols in many ways. Whichever is chosen, there are bits that
are unpacked to these symbols, and a stream that is decoded to these bits.

* `Parses`: some symbols stand for some bytes.
* `Unpacker.Reads n u v`: no more than `n` bits lead from `u` to `v`.
* **`Parses.reads`**: there are bits for every parse, and after them bits for the end.
* **`Reads.exists_words`**: there are words for every sequence of bits that can be unpacked.
-/

namespace ShrinklerGba.Shrinkler

open Thumb RangeCoding Transition Bitstream

/-! ## Parses -/

/-- The symbols stand for the bytes; `offset` is the last offset, and the last symbol is a literal
or not. -/
inductive Parses : List LzSymbol → (out : List Byte) → (offset : Option ℕ) →
    (afterLiteral : Bool) → Prop
  /-- The first symbol is a literal. -/
  | first (b) : Parses [.literal b] [b] none true
  /-- One more literal. -/
  | literal {ss out o a} (b) : Parses ss out o a → Parses (ss ++ [.literal b]) (out ++ [b]) o true
  /-- One more reference. -/
  | reference {ss out o a d l} : Parses ss out o a → 1 ≤ d → d ≤ out.length → 2 ≤ l →
      d + 2 < 2 ^ 32 → l < 2 ^ 32 → Parses (ss ++ [.reference d l]) (copy out d l) (some d) false
  /-- A repeated offset, after a literal. -/
  | repeated {ss out d l} : Parses ss out (some d) true → 2 ≤ l → l < 2 ^ 32 →
      Parses (ss ++ [.repeated l]) (copy out d l) (some d) false

/-- The last offset lies within the output. -/
theorem Parses.offset_le {ss : List LzSymbol} {out : List Byte} {o : Option ℕ} {a : Bool}
    (h : Parses ss out o a) : ∀ d ∈ o, d ≤ out.length := by
  induction h with
  | first b =>
      intro e he
      cases he
  | literal b _ ih =>
      intro e he
      exact (ih e he).trans (by simp)
  | reference _ _ hle =>
      intro e he
      cases he
      rw [length_copy]
      omega
  | repeated _ _ _ ih =>
      intro e he
      cases he
      rw [length_copy]
      exact (ih _ rfl).trans (Nat.le_add_right _ _)

namespace Unpacker

/-! ## Bits -/

/-- The unpacker after some bits. -/
def advances (u : Unpacker) (bits : List Bool) : Option Unpacker := bits.foldlM advance u

/-- No more than `n` bits lead from one unpacker to another. -/
def Reads (n : ℕ) (u v : Unpacker) : Prop := ∃ bits, bits.length ≤ n ∧ u.advances bits = some v

variable {u v w : Unpacker} {m n : ℕ}

theorem Reads.refl (u : Unpacker) : Reads 0 u u := ⟨[], Nat.le_refl 0, rfl⟩

theorem Reads.mono (h : Reads m u v) (hmn : m ≤ n) : Reads n u v := by
  obtain ⟨bits, hle, hbits⟩ := h
  exact ⟨bits, hle.trans hmn, hbits⟩

theorem Reads.step (bit : Bool) (h : u.advance bit = some v) (hv : Reads n v w) :
    Reads (n + 1) u w := by
  obtain ⟨bits, hle, hbits⟩ := hv
  refine ⟨bit :: bits, Nat.succ_le_succ hle, ?_⟩
  rw [advances, List.foldlM_cons, h]
  exact hbits

theorem Reads.trans (h₁ : Reads m u v) (h₂ : Reads n v w) : Reads (m + n) u w := by
  obtain ⟨bits, hle, hbits⟩ := h₁
  obtain ⟨bits', hle', hbits'⟩ := h₂
  refine ⟨bits ++ bits', ?_, ?_⟩
  · rw [List.length_append]
    exact Nat.add_le_add hle hle'
  · rw [advances, List.foldlM_append, ← advances, hbits]
    exact hbits'

/-- The upper bits of a number, with one more bit. -/
theorem upper_bits (n j : ℕ) : 2 * (n / 2 ^ (j + 1)) + (n.testBit j).toNat = n / 2 ^ j := by
  rw [Nat.toNat_testBit, Nat.pow_succ, ← Nat.div_div_eq_div_mul]
  omega

/-- The last bits of a literal, of which `j + 1` are left. -/
theorem reads_literalBits {b : Byte} {j : ℕ} (hj : j ≤ 7)
    (h : u.place = .literal (2 ^ (7 - j) + b.toNat / 2 ^ (j + 1))) :
    Reads (j + 1) u { u with
      place := .kind true, out := u.out ++ [b], symbols := u.symbols ++ [.literal b] } := by
  have hb := b.isLt
  induction j generalizing u with
  | zero =>
      refine .step (b.toNat.testBit 0) ?_ (.refl _)
      have hx : 2 * (2 ^ (7 - 0) + b.toNat / 2 ^ (0 + 1)) + (b.toNat.testBit 0).toNat =
          256 + b.toNat := by
        have hupper := upper_bits b.toNat 0
        rw [Nat.pow_zero, Nat.div_one] at hupper
        omega
      have hbyte : BitVec.ofNat 8 (256 + b.toNat) = b := by bv_omega
      simp only [advance, h, hx, hbyte]
      rw [if_neg (by omega)]
  | succ j ih =>
      have hx : 2 * (2 ^ (7 - (j + 1)) + b.toNat / 2 ^ (j + 1 + 1)) +
          (b.toNat.testBit (j + 1)).toNat = 2 ^ (7 - j) + b.toNat / 2 ^ (j + 1) := by
        have hupper := upper_bits b.toNat (j + 1)
        have hpow : 2 ^ (7 - j) = 2 * 2 ^ (7 - (j + 1)) := by
          rw [← Nat.pow_succ']
          congr 1
          omega
        omega
      have hle : 2 ^ (7 - j) + b.toNat / 2 ^ (j + 1) ≤ 255 := by
        have hpow : 2 ^ (7 - j) ≤ 2 ^ 7 := Nat.pow_le_pow_right (by decide) (Nat.sub_le 7 j)
        have hdiv : b.toNat / 2 ^ (j + 1) ≤ b.toNat / 2 ^ 1 :=
          Nat.div_le_div_left (Nat.pow_le_pow_right (by decide) (by omega)) (by decide)
        omega
      refine .step (b.toNat.testBit (j + 1)) ?_
        (ih (u := { u with place := .literal (2 ^ (7 - j) + b.toNat / 2 ^ (j + 1)) }) (by omega)
          rfl)
      simp only [advance, h, hx]
      rw [if_pos hle]

/-- A literal. -/
theorem reads_literal (b : Byte) (h : u.place = .literal 1) :
    Reads 8 u { u with
      place := .kind true, out := u.out ++ [b], symbols := u.symbols ++ [.literal b] } := by
  refine reads_literalBits (j := 7) (Nat.le_refl 7) ?_
  rw [h, Nat.div_eq_of_lt b.isLt]
  rfl

/-- The last digits of a number, of which `j + 1` are left. -/
theorem reads_digits {k : Number} {n j : ℕ} (h : u.place = .digit k (j + 1) (n / 2 ^ (j + 1)))
    (hv : u.gotNumber n k = some v) : Reads (j + 1) u v := by
  induction j generalizing u with
  | zero =>
      have hupper := upper_bits n 0
      rw [Nat.pow_zero, Nat.div_one] at hupper
      refine .step (n.testBit 0) ?_ (.refl v)
      simp only [advance, h, hupper]
      rw [if_neg (by omega), hv]
  | succ j ih =>
      have hupper := upper_bits n (j + 1)
      refine .step (n.testBit (j + 1)) ?_
        (ih (u := { u with place := .digit k (j + 1) (n / 2 ^ (j + 1)) }) rfl ?_)
      · simp only [advance, h, hupper]
        rw [if_pos (by omega), Nat.add_sub_cancel]
      · rw [← hv]
        cases k <;> rfl

/-- The last unary bits of a number, of which `j + 1` are left. -/
theorem reads_unary {k : Number} {i j : ℕ} (hij : i + j ≤ 31) (h : u.place = .unary k i) :
    Reads (j + 1) u { u with place := .digit k (i + j) 1 } := by
  induction j generalizing u i with
  | zero =>
      refine .step false ?_ (.refl _)
      simp only [advance, h]
      rfl
  | succ j ih =>
      have hih := ih (u := { u with place := .unary k (i + 1) }) (i := i + 1) (by omega) rfl
      rw [Nat.add_right_comm, Nat.add_assoc] at hih
      refine .step true ?_ hih
      simp only [advance, h, if_true]
      rw [if_pos (by omega)]

/-- A number. -/
theorem reads_number {k : Number} {n : ℕ} (h : u.place = .unary k 1) (hn : 2 ≤ n)
    (hn' : n < 2 ^ 32) (hv : u.gotNumber n k = some v) : Reads 62 u v := by
  -- The number has `m + 2` digits, the first of which is left out.
  obtain ⟨m, hm⟩ : ∃ m, Nat.log 2 n = m + 1 :=
    ⟨Nat.log 2 n - 1, by have := Nat.log_pos one_lt_two hn; omega⟩
  have hlt : Nat.log 2 n < 32 := Nat.log_lt_of_lt_pow (by omega) hn'
  have hfirst : n / 2 ^ (m + 1) = 1 := by
    have hle := Nat.pow_log_le_self 2 (show n ≠ 0 by omega)
    have hgt := Nat.lt_pow_succ_log_self one_lt_two n
    rw [hm] at hle hgt
    refine Nat.div_eq_of_lt_le ?_ ?_
    · rwa [Nat.one_mul]
    · rwa [Nat.pow_succ'] at hgt
  have hunary := reads_unary (u := u) (k := k) (i := 1) (j := m) (by omega) h
  refine (hunary.trans (reads_digits (k := k) (n := n) (j := m) ?_ ?_)).mono (by omega)
  · rw [hfirst, Nat.add_comm]
  · rw [← hv]
    cases k <;> rfl

/-! ## Symbols -/

/-- A literal after another symbol. -/
theorem reads_nextLiteral {a : Bool} (b : Byte) (h : u.place = .kind a) :
    Reads 9 u { u with
      place := .kind true, out := u.out ++ [b], symbols := u.symbols ++ [.literal b] } := by
  refine .step false ?_ (reads_literal (u := { u with place := .literal 1 }) b rfl)
  cases a <;> simp only [advance, h] <;> rfl

/-- The beginning of a reference with a new offset, or of the end. -/
theorem reads_toOffset {a : Bool} (h : u.place = .kind a) :
    Reads 2 u { u with place := .unary .offset 1 } := by
  cases a with
  | false =>
      refine (Reads.step true ?_ (.refl _)).mono (Nat.le_succ 1)
      simp only [advance, h]
      rfl
  | true =>
      refine .step (v := { u with place := .repeated }) true ?_ (.step false ?_ (.refl _))
      · simp only [advance, h]
        rfl
      · rfl

/-- A length. -/
theorem reads_length {d l : ℕ} (h : u.place = .unary .length 1) (ho : u.offset = some d)
    (hd : d ≤ u.out.length) (hl : 2 ≤ l) (hl' : l < 2 ^ 32) :
    Reads 62 u { u with
      place := .kind false, out := copy u.out d l
      symbols := u.symbols ++ [if u.isNew then .reference d l else .repeated l] } := by
  refine reads_number h hl hl' ?_
  simp only [gotNumber, ho, Option.bind_some]
  rw [if_pos hd]

/-- A reference with a new offset. -/
theorem reads_reference {a : Bool} {d l : ℕ} (h : u.place = .kind a) (hd : 1 ≤ d)
    (hle : d ≤ u.out.length) (hd' : d + 2 < 2 ^ 32) (hl : 2 ≤ l) (hl' : l < 2 ^ 32) :
    Reads 126 u { u with
      place := .kind false, out := copy u.out d l, offset := some d, isNew := true
      symbols := u.symbols ++ [.reference d l] } := by
  refine (reads_toOffset h).trans (n := 62 + 62) ?_
  refine (reads_number (u := { u with place := .unary .offset 1 }) (n := d + 2) rfl (by omega) hd'
    (v := { u with place := .unary .length 1, offset := some d, isNew := true }) ?_).trans ?_
  · simp only [gotNumber, Nat.add_sub_cancel]
    rw [if_neg (by omega)]
  · exact reads_length (u := { u with
      place := .unary .length 1, offset := some d, isNew := true }) rfl rfl hle hl hl'

/-- A reference with the last offset. -/
theorem reads_repeated {d l : ℕ} (h : u.place = .kind true) (ho : u.offset = some d)
    (hle : d ≤ u.out.length) (hl : 2 ≤ l) (hl' : l < 2 ^ 32) :
    Reads 64 u { u with
      place := .kind false, out := copy u.out d l, offset := some d, isNew := false
      symbols := u.symbols ++ [.repeated l] } := by
  refine .step (v := { u with place := .repeated }) true ?_ (.step
    (v := { u with place := .unary .length 1, offset := some d, isNew := false }) true ?_ ?_)
  · simp only [advance, h]
    rfl
  · simp only [advance, ho]
    rfl
  · exact reads_length (u := { u with
      place := .unary .length 1, offset := some d, isNew := false }) rfl rfl hle hl hl'

/-- The end. -/
theorem reads_end {a : Bool} (h : u.place = .kind a) :
    Reads 64 u { u with place := .done, offset := none } :=
  (reads_toOffset h).trans
    (reads_number (u := { u with place := .unary .offset 1 }) (n := 2) rfl (by decide) (by decide)
      rfl)

end Unpacker

open Unpacker

/-- The unpacker has unpacked some symbols. -/
structure Unpacker.At (ss : List LzSymbol) (out : List Byte) (o : Option ℕ) (a : Bool)
    (u : Unpacker) : Prop where
  /-- The next bit is a kind. -/
  place : u.place = .kind a
  /-- The output. -/
  out : u.out = out
  /-- The last offset. -/
  offset : u.offset = o
  /-- The symbols. -/
  symbols : u.symbols = ss

/-- One more symbol takes no more than 126 bits. -/
theorem Unpacker.Reads.symbol {ss : List LzSymbol} {u v : Unpacker} {n : ℕ}
    (h : Reads (126 * ss.length) .start u) (hv : Reads n u v) (hn : n ≤ 126) (x : LzSymbol) :
    Reads (126 * (ss ++ [x]).length) .start v := by
  refine (h.trans hv).mono ?_
  rw [List.length_append, List.length_singleton]
  omega

/-- **There are bits for every parse.** -/
theorem Parses.reads {ss : List LzSymbol} {out : List Byte} {o : Option ℕ} {a : Bool}
    (h : Parses ss out o a) : ∃ u, Reads (126 * ss.length) .start u ∧ u.At ss out o a := by
  induction h with
  | first b => exact ⟨_, (reads_literal b rfl).mono (by simp), rfl, rfl, rfl, rfl⟩
  | literal b _ ih =>
      obtain ⟨u, hu, hplace, rfl, rfl, rfl⟩ := ih
      exact ⟨_, hu.symbol (reads_nextLiteral b hplace) (by decide) _, rfl, rfl, rfl, rfl⟩
  | reference _ hd hle hl hd' hl' ih =>
      obtain ⟨u, hu, hplace, rfl, rfl, rfl⟩ := ih
      exact ⟨_, hu.symbol (reads_reference hplace hd hle hd' hl hl') (by decide) _,
        rfl, rfl, rfl, rfl⟩
  | repeated h hl hl' ih =>
      obtain ⟨u, hu, hplace, rfl, ho, rfl⟩ := ih
      exact ⟨_, hu.symbol (reads_repeated hplace ho (h.offset_le _ rfl) hl hl') (by decide) _,
        rfl, rfl, rfl, rfl⟩

/-! ## Deliveries -/

/-- What was delivered, without the bits. -/
def completed (l : List Delivery) : List Delivery := l.filter fun x => x.bit?.isNone

@[simp] theorem completed_append (l l' : List Delivery) :
    completed (l ++ l') = completed l ++ completed l' := List.filter_append ..

/-- The offset of a reference whose length is not known yet, and that of the end. -/
def Unpacker.pending (u : Unpacker) : List Delivery :=
  match u.place, u.offset with
  | .unary .length _, some d | .digit .length _ _, some d =>
      if u.isNew then [.number .offset (BitVec.ofNat 32 (d + 2))] else []
  | .done, _ => [.number .offset 2]
  | _, _ => []

/-- What the symbols so far consist of. -/
def Unpacker.delivered (u : Unpacker) : List Delivery :=
  u.symbols.flatMap LzSymbol.deliveries ++ u.pending

/-- A number that is being read is not zero. -/
def Unpacker.Positive (u : Unpacker) : Prop := ∀ k i n, u.place = .digit k i n → 1 ≤ n

theorem Unpacker.Positive.of_place {u : Unpacker} (h : ∀ k i n, u.place ≠ .digit k i n) :
    u.Positive := fun k i n hn => absurd hn (h k i n)

theorem gotNumber_delivered {u v : Unpacker} {k : Number} {i n m : ℕ}
    (hplace : u.place = .digit k i n) (hm : 2 ≤ m) (h : u.gotNumber m k = some v) :
    v.Positive ∧ v.delivered = u.delivered ++ [.number k (BitVec.ofNat 32 m)] := by
  cases k with
  | offset =>
      rw [gotNumber] at h
      split at h
      · cases h
        obtain rfl : m = 2 := by omega
        refine ⟨.of_place (by simp), ?_⟩
        simp [delivered, pending, hplace]
      · cases h
        refine ⟨.of_place (by simp), ?_⟩
        simp [delivered, pending, hplace, Nat.sub_add_cancel hm]
  | length =>
      rw [gotNumber, Option.bind_eq_some_iff] at h
      obtain ⟨o, ho, h⟩ := h
      obtain ⟨-, h⟩ := Option.ite_none_right_eq_some.mp h
      cases h
      refine ⟨.of_place (by simp), ?_⟩
      cases hnew : u.isNew <;> simp [delivered, pending, hplace, ho, hnew, LzSymbol.deliveries]

/-- **A bit delivers what it adds to the symbols.** -/
theorem advance_delivered {u v : Unpacker} {bit : Bool} (hu : u.Positive)
    (h : u.advance bit = some v) :
    v.Positive ∧ v.delivered = u.delivered ++ completed (u.delivers bit) := by
  cases hplace : u.place with
  | literal seen =>
      simp only [advance, hplace] at h
      simp only [delivers, hplace]
      split at h
      · rename_i hx
        cases h
        refine ⟨.of_place (by simp), ?_⟩
        simp [delivered, pending, hplace, hx, completed, Delivery.bit?]
      · rename_i hx
        cases h
        refine ⟨.of_place (by simp), ?_⟩
        simp [delivered, pending, hplace, hx, completed, Delivery.bit?, LzSymbol.deliveries]
  | kind afterLiteral =>
      simp only [delivers, hplace]
      cases afterLiteral <;> cases bit <;> simp only [advance, hplace] at h <;> cases h <;>
        exact ⟨.of_place (by simp), by
          simp [delivered, pending, hplace, completed, Delivery.bit?]⟩
  | repeated =>
      simp only [delivers, hplace]
      simp only [advance, hplace] at h
      cases bit with
      | true =>
          obtain ⟨o, ho, rfl⟩ := Option.map_eq_some_iff.mp h
          exact ⟨.of_place (by simp), by
            simp [delivered, pending, hplace, completed, Delivery.bit?]⟩
      | false =>
          cases h
          exact ⟨.of_place (by simp), by
            simp [delivered, pending, hplace, completed, Delivery.bit?]⟩
  | unary k i =>
      simp only [delivers, hplace]
      simp only [advance, hplace] at h
      cases bit with
      | true =>
          obtain ⟨-, h⟩ := Option.ite_none_right_eq_some.mp h
          cases h
          refine ⟨.of_place (by simp), ?_⟩
          cases k <;> cases ho : u.offset <;>
            simp [delivered, pending, hplace, ho, completed, Delivery.bit?]
      | false =>
          cases h
          refine ⟨fun k i n hn => ?_, ?_⟩
          · cases hn
            exact Nat.le_refl 1
          · cases k <;> cases ho : u.offset <;>
              simp [delivered, pending, hplace, ho, completed, Delivery.bit?]
  | digit k i n =>
      have hn := hu k i n hplace
      simp only [delivers, hplace]
      simp only [advance, hplace] at h
      split at h
      · rename_i hi
        cases h
        refine ⟨fun k i n hn' => ?_, ?_⟩
        · cases hn'
          omega
        · cases k <;> cases ho : u.offset <;>
            simp [delivered, pending, hplace, ho, hi, completed, Delivery.bit?]
      · rename_i hi
        obtain ⟨hv, hdelivered⟩ := gotNumber_delivered hplace (by omega) h
        refine ⟨hv, ?_⟩
        rw [hdelivered, if_neg hi]
        rfl
  | done =>
      simp only [advance, hplace] at h
      cases h

/-- **What is delivered are the symbols.** -/
theorem Unpacker.Unpacks.delivered_eq {u v : Unpacker} {l : List Delivery} (h : Unpacks u l v)
    (hu : u.Positive) : v.delivered = u.delivered ++ completed l := by
  induction h with
  | refl u => simp [completed]
  | step hadvance _ ih =>
      obtain ⟨hv, hdelivered⟩ := advance_delivered hu hadvance
      rw [ih hv, hdelivered, completed_append, List.append_assoc]

/-! ## Streams -/

/-- All streams, in the initial state. -/
def wholeCell : Cell Context := ⟨0, 0, 1, fun _ => initOneProb⟩

theorem wholeCell_valid : wholeCell.Valid adaptation :=
  ⟨by decide, by decide, by decide,
    fun _ => show initOneProb ∈ Set.Icc adaptation.lo adaptation.hi by decide⟩

/-- The context of the bit that follows some bits. -/
def contextAfter (load : Word) (bits : List Bool) : Context :=
  (Unpacker.start.advances bits).elim .repeated (context load)

theorem advances_concat {u : Unpacker} {bits : List Bool} {bit : Bool} :
    u.advances (bits ++ [bit]) = (u.advances bits).bind fun v => v.advance bit := by
  simp [advances, List.foldlM_append]

/-- **A stream in the cell of some bits is decoded to them**, and these are unpacked. -/
theorem iter_of_holds {load : Word} {bits : List Bool} {stream : ℕ → Bool} {u : Unpacker}
    (h : Unpacker.start.advances bits = some u)
    (hstream : (cell adaptation (contextAfter load) wholeCell bits).Holds stream) :
    iter (Reference.step load stream) bits.length .start = some
      ⟨u, (cell adaptation (contextAfter load) wholeCell bits).decoder stream⟩ := by
  induction bits using List.reverseRecOn generalizing u with
  | nil =>
      cases h
      rfl
  | append_singleton bits bit ih =>
      rw [advances_concat, Option.bind_eq_some_iff] at h
      obtain ⟨v, hv, hu⟩ := h
      have hcontext : contextAfter load bits = v.context load := by rw [contextAfter, hv]; rfl
      rw [cell_concat, Cell.holds_next (cell_valid _ wholeCell_valid bits)] at hstream
      obtain ⟨hstream, hbit⟩ := hstream
      rw [List.length_append, List.length_singleton, iter_add, ih hv hstream, Option.bind_some,
        cell_concat]
      have hplace : v.place ≠ .done := by
        intro hdone
        simp [advance, hdone] at hu
      refine iter_succ_of_step (Reference.step_eq_some.mpr ⟨hplace, ?_, ?_⟩) 0
      · rw [← hcontext, hbit]
        exact hu
      · simp only [← hcontext]
        rw [Cell.decode_decoder hstream, hbit]

/-- What is decoded are the bits in whose cell the stream is. -/
theorem holds_of_iter {load : Word} {stream : ℕ → Bool} {n : ℕ} {u : Unpacker}
    {d : Decoder Context} (h : iter (Reference.step load stream) n .start = some ⟨u, d⟩) :
    ∃ bits, Unpacker.start.advances bits = some u ∧
      (cell adaptation (contextAfter load) wholeCell bits).Holds stream ∧
      d = (cell adaptation (contextAfter load) wholeCell bits).decoder stream := by
  induction n generalizing u d with
  | zero =>
      cases h
      exact ⟨[], rfl, ⟨Nat.le_refl 0, Nat.one_pos⟩, rfl⟩
  | succ n ih =>
      rw [iter_add, Option.bind_eq_some_iff] at h
      obtain ⟨⟨v, y⟩, hv, h⟩ := h
      obtain ⟨bits, hbits, hholds, rfl⟩ := ih hv
      obtain ⟨z, hz, h⟩ := (iter_succ_eq_some _).mp h
      cases h
      obtain ⟨-, hadvance, hdecode⟩ := Reference.step_eq_some.mp hz
      have hcontext : contextAfter load bits = v.context load := by
        rw [contextAfter, hbits]
        rfl
      simp only [← hcontext] at hadvance hdecode
      obtain ⟨bit, hbit⟩ : ∃ bit, (((cell adaptation (contextAfter load) wholeCell bits).decoder
          stream).decode adaptation stream (contextAfter load bits)).1 = bit := ⟨_, rfl⟩
      rw [hbit] at hadvance
      refine ⟨bits ++ [bit], ?_, ?_, ?_⟩
      · rw [advances_concat, hbits]
        exact hadvance
      · rw [cell_concat, Cell.holds_next (cell_valid _ wholeCell_valid bits)]
        exact ⟨hholds, hbit⟩
      · rw [cell_concat, ← hdecode, Cell.decode_decoder hholds, hbit]

/-- **There are words for every sequence of bits that can be unpacked**, for every load address and
whatever words follow: no more than one for two of these bits. -/
theorem Reads.exists_words {u : Unpacker} {m : ℕ} (h : Reads m .start u) : ∃ ws : List Word,
    2 * ws.length ≤ m + 1 ∧
    ∀ (load : Word) (word : ℕ → Word), (∀ j < ws.length, word j = ws.getD j 0) →
      ∃ n d, iter (Reference.step load (bitAt word)) n .start = some ⟨u, d⟩ ∧
        loaded 32 d.pos ≤ ws.length := by
  obtain ⟨bits, hm, hbits⟩ := h
  obtain ⟨stream, hstream⟩ := cell_nonempty (contextAfter 0) wholeCell_valid bits
  have hpos := Reference.iter_pos_le (iter_of_holds hbits hstream)
  change (cell adaptation (contextAfter 0) wholeCell bits).pos ≤ 0 + 16 * bits.length at hpos
  generalize hc : cell adaptation (contextAfter 0) wholeCell bits = c at hstream hpos
  refine ⟨(List.range (loaded 32 c.pos)).map (ofBits stream), ?_, fun load word hword => ?_⟩
  · rw [List.length_map, List.length_range, loaded]
    omega
  simp only [List.length_map, List.length_range] at hword ⊢
  -- The bits that count are those of the stream.
  have hsame (i : ℕ) (hi : i < c.pos) : bitAt word i = stream i := by
    have hj : i / 32 < loaded 32 c.pos := by
      rw [loaded]
      omega
    rw [← bitAt_ofBits (w := 32) (by decide) stream i, bitAt, bitAt, hword _ hj]
    simp [hj]
  have hholds : c.Holds (bitAt word) := by
    rw [Cell.Holds, leading_congr hsame]
    exact hstream
  subst hc
  obtain ⟨hrun, -⟩ := Reference.iter_load (iter_of_holds hbits hholds) load
  exact ⟨bits.length, _, hrun, Nat.le_refl _⟩

end ShrinklerGba.Shrinkler
