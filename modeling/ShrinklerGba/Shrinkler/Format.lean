import ShrinklerGba.Coding.RangeCoder
import ShrinklerGba.Shrinkler.Context
import ShrinklerGba.Shrinkler.RangeDecoder
import ShrinklerGba.Transition.Run

/-!
# The compressed format

What a compressed program is, with no processor in sight: a sequence of bits, each of which depends
on its context, that an unpacker turns into symbols and these into bytes.

* `LzSymbol` are the symbols; `copy` copies bytes that were put out before, one by one.
* `Unpacker` is what was unpacked so far, and `Place` where in the format the next bit is.
  `Unpacker.advance` takes a bit. It fails where a reference leads out of what was put out, where an
  offset is repeated and there is none, and where a number does not fit in 32 bits.
* `Reference` is an unpacker whose bits are decoded by a range decoder: the plain decoder.
-/

namespace ShrinklerGba.Shrinkler

open Thumb RangeCoding Transition

/-! ## Symbols -/

/-- What a program is put together from. -/
inductive LzSymbol
  /-- A byte. -/
  | literal (b : Byte)
  /-- Bytes from `offset` bytes before. -/
  | reference (offset length : ℕ)
  /-- Bytes from as far before as last time. -/
  | repeated (length : ℕ)

/-- Put out `n` more bytes, each a copy of the one that is `offset` bytes before it. -/
def copy (out : List Byte) (offset : ℕ) : ℕ → List Byte
  | 0 => out
  | n + 1 => copy (out ++ [out.getD (out.length - offset) 0]) offset n

@[simp] theorem length_copy (out : List Byte) (offset n : ℕ) :
    (copy out offset n).length = out.length + n := by
  induction n generalizing out with
  | zero => rfl
  | succ n ih =>
      rw [copy, ih, List.length_append, List.length_singleton]
      omega

/-- What is decoded. -/
inductive Delivery
  /-- A bit, by `getbit`. -/
  | bit (b : Bool)
  /-- A byte, by the main loop. -/
  | byte (b : Byte)
  /-- A number, by `getnumber`. -/
  | number (k : Number) (n : Word)
  /-- Decompression is done. -/
  | finish
  deriving DecidableEq

/-- The bit, if it is one. -/
def Delivery.bit? : Delivery → Option Bool
  | .bit b => some b
  | _ => none

/-- The bits that were delivered. -/
def decodedBits (l : List Delivery) : List Bool := l.filterMap Delivery.bit?

@[simp] theorem decodedBits_append (l l' : List Delivery) :
    decodedBits (l ++ l') = decodedBits l ++ decodedBits l' :=
  List.filterMap_append ..

/-- The bytes and numbers that a symbol consists of. -/
def LzSymbol.deliveries : LzSymbol → List Delivery
  | .literal b => [.byte b]
  | .reference offset length =>
      [.number .offset (BitVec.ofNat 32 (offset + 2)), .number .length (BitVec.ofNat 32 length)]
  | .repeated length => [.number .length (BitVec.ofNat 32 length)]

/-! ## Unpacking -/

/-- What the next bit is. -/
inductive Place
  /-- A bit of a byte; `seen` are the bits before it, behind a one. -/
  | literal (seen : ℕ)
  /-- The kind of a symbol. -/
  | kind (afterLiteral : Bool)
  /-- Whether the offset is repeated. -/
  | repeated
  /-- The `i`-th unary bit of a number. -/
  | unary (k : Number) (i : ℕ)
  /-- A digit of a number; `i` are left, and `n` is the number so far. -/
  | digit (k : Number) (i n : ℕ)
  /-- There is none. -/
  | done
  deriving DecidableEq

/-- The context of a bit, by the parity of the output address. -/
def Place.context (odd : Bool) : Place → Context
  | .literal seen => .literal odd seen
  | .kind _ => .kind odd
  | .repeated => .repeated
  | .unary k i => .number k (2 * i)
  | .digit k i _ => .number k (2 * i - 1)
  | .done => .repeated

/-- What was unpacked so far. -/
structure Unpacker where
  /-- Where the next bit is. -/
  place : Place
  /-- What was put out. -/
  out : List Byte
  /-- The last offset. -/
  offset : Option ℕ
  /-- Whether the last offset belongs to the symbol at hand. -/
  isNew : Bool
  /-- The symbols. -/
  symbols : List LzSymbol

namespace Unpacker

/-- Nothing was unpacked: the first symbol is a byte. -/
def start : Unpacker := ⟨.literal 1, [], none, false, []⟩

/-- A number was read: an offset, to which 2 was added, or a length. An offset of 0 is the end. -/
def gotNumber (u : Unpacker) (n : ℕ) : Number → Option Unpacker
  | .offset =>
      if n - 2 = 0 then some { u with place := .done, offset := none }
      else some { u with place := .unary .length 1, offset := some (n - 2), isNew := true }
  | .length =>
      u.offset.bind fun offset =>
        if offset ≤ u.out.length then
          some { u with
                 place := .kind false
                 out := copy u.out offset n
                 symbols := u.symbols ++
                   [if u.isNew then .reference offset n else .repeated n] }
        else none

/-- A bit was read. -/
def advance (u : Unpacker) (bit : Bool) : Option Unpacker :=
  match u.place with
  | .literal seen =>
      let x := 2 * seen + bit.toNat
      if x ≤ 255 then some { u with place := .literal x }
      else some { u with
                  place := .kind true
                  out := u.out ++ [BitVec.ofNat 8 x]
                  symbols := u.symbols ++ [.literal (BitVec.ofNat 8 x)] }
  | .kind true => some { u with place := if bit then .repeated else .literal 1 }
  | .kind false => some { u with place := if bit then .unary .offset 1 else .literal 1 }
  | .repeated =>
      if bit then
        u.offset.map fun offset =>
          { u with place := .unary .length 1, offset := some offset, isNew := false }
      else some { u with place := .unary .offset 1 }
  | .unary k i =>
      if bit then if i < 31 then some { u with place := .unary k (i + 1) } else none
      else some { u with place := .digit k i 1 }
  | .digit k i n =>
      if 2 ≤ i then some { u with place := .digit k (i - 1) (2 * n + bit.toNat) }
      else u.gotNumber (2 * n + bit.toNat) k
  | .done => none

/-- What is delivered when a bit is read: the bit, and what it completes. -/
def delivers (u : Unpacker) (bit : Bool) : List Delivery :=
  .bit bit ::
    match u.place with
    | .literal seen =>
        let x := 2 * seen + bit.toNat
        if x ≤ 255 then [] else [.byte (BitVec.ofNat 8 x)]
    | .digit k i n => if 2 ≤ i then [] else [.number k (BitVec.ofNat 32 (2 * n + bit.toNat))]
    | _ => []

/-- With a bit, nothing is delivered but what it completes. -/
@[simp] theorem decodedBits_delivers (u : Unpacker) (bit : Bool) :
    decodedBits (u.delivers bit) = [bit] := by
  unfold delivers
  cases u.place with
  | literal seen => simp only; split <;> rfl
  | digit k i n => simp only; split <;> rfl
  | _ => rfl

/-- Bits are read, which leads from one unpacker to another, and `l` is delivered. -/
inductive Unpacks : Unpacker → List Delivery → Unpacker → Prop
  /-- No bit is. -/
  | refl (u) : Unpacks u [] u
  /-- A bit is read, and then others. -/
  | step {u v w bit l} : u.advance bit = some v → Unpacks v l w → Unpacks u (u.delivers bit ++ l) w

theorem Unpacks.trans {u v w : Unpacker} {l l' : List Delivery} (h₁ : Unpacks u l v)
    (h₂ : Unpacks v l' w) : Unpacks u (l ++ l') w := by
  induction h₁ with
  | refl => exact h₂
  | step hv _ ih =>
      rw [List.append_assoc]
      exact .step hv (ih h₂)

/-- The parity of the output address. -/
def odd (load : Word) (u : Unpacker) : Bool := (load + BitVec.ofNat 32 u.out.length).getLsbD 0

/-- The context of the next bit. -/
def context (load : Word) (u : Unpacker) : Context := u.place.context (u.odd load)

theorem gotNumber_out_le {u v : Unpacker} {n : ℕ} {k : Number} (h : u.gotNumber n k = some v) :
    u.out.length ≤ v.out.length := by
  cases k with
  | offset =>
      rw [gotNumber] at h
      split at h <;> cases h <;> exact Nat.le_refl _
  | length =>
      rw [gotNumber, Option.bind_eq_some_iff] at h
      obtain ⟨o, -, h⟩ := h
      rw [Option.ite_none_right_eq_some] at h
      obtain ⟨-, h⟩ := h
      cases h
      simp

/-- What was put out stays there. -/
theorem advance_out_le {u v : Unpacker} {bit : Bool} (h : u.advance bit = some v) :
    u.out.length ≤ v.out.length := by
  cases hplace : u.place with
  | literal seen =>
      simp only [advance, hplace] at h
      split at h <;> cases h <;> simp
  | kind afterLiteral =>
      cases afterLiteral <;> simp only [advance, hplace] at h <;> cases h <;> exact Nat.le_refl _
  | repeated =>
      simp only [advance, hplace] at h
      split at h
      · obtain ⟨o, -, rfl⟩ := Option.map_eq_some_iff.mp h
        exact Nat.le_refl _
      · cases h
        exact Nat.le_refl _
  | unary k i =>
      simp only [advance, hplace] at h
      split at h
      · obtain ⟨-, h⟩ := Option.ite_none_right_eq_some.mp h
        cases h
        exact Nat.le_refl _
      · cases h
        exact Nat.le_refl _
  | digit k i n =>
      simp only [advance, hplace] at h
      split at h
      · cases h
        exact Nat.le_refl _
      · exact gotNumber_out_le h
  | done =>
      simp only [advance, hplace] at h
      cases h

end Unpacker

/-! ## The plain decoder -/

/-- An unpacker with a range decoder. -/
structure Reference where
  /-- What was unpacked. -/
  unpacker : Unpacker
  /-- Where the range decoder is. -/
  decoder : Decoder Context

namespace Reference

/-- Nothing was decoded. -/
def start : Reference := ⟨.start, ⟨⟨0, 1⟩, 0, fun _ => initOneProb⟩⟩

/-- Decode one more bit, for a program that is loaded to an address. -/
def step (load : Word) (bits : ℕ → Bool) (x : Reference) : Option Reference :=
  if x.unpacker.place = .done then none
  else
    let (bit, d) := x.decoder.decode adaptation bits (x.unpacker.context load)
    (x.unpacker.advance bit).map fun u => ⟨u, d⟩

/-- The bit that is decoded next. -/
def bit (load : Word) (bits : ℕ → Bool) (x : Reference) : Bool :=
  (x.decoder.decode adaptation bits (x.unpacker.context load)).1

/-- What is delivered when `n` bits are decoded. -/
def deliveries (load : Word) (bits : ℕ → Bool) (n : ℕ) (x : Reference) : List Delivery :=
  (trace (step load bits) (fun y => some (y.unpacker.delivers (y.bit load bits))) n x).flatten

/-- A step decodes a bit, and the unpacker takes it. -/
theorem step_eq_some {load : Word} {bits : ℕ → Bool} {x y : Reference} :
    x.step load bits = some y ↔ x.unpacker.place ≠ .done ∧
      x.unpacker.advance (x.decoder.decode adaptation bits (x.unpacker.context load)).1 =
        some y.unpacker ∧
      (x.decoder.decode adaptation bits (x.unpacker.context load)).2 = y.decoder := by
  obtain ⟨v, d⟩ := y
  simp only [step, Option.ite_none_left_eq_some, Option.map_eq_some_iff, Reference.mk.injEq]
  refine and_congr_right fun _ => ⟨?_, ?_⟩
  · rintro ⟨u, hu, rfl, hd⟩
    exact ⟨hu, hd⟩
  · rintro ⟨hu, hd⟩
    exact ⟨v, hu, rfl, hd⟩

theorem deliveries_succ {load : Word} {bits : ℕ → Bool} {n : ℕ} {x y : Reference}
    (h : x.step load bits = some y) : deliveries load bits (n + 1) x =
      x.unpacker.delivers (x.bit load bits) ++ deliveries load bits n y := by
  rw [deliveries, trace_succ_of_step _ h]
  rfl

/-- The unpacker reads the bits that are decoded. -/
theorem unpacks {load : Word} {bits : ℕ → Bool} {n : ℕ} {x y : Reference}
    (h : iter (step load bits) n x = some y) :
    x.unpacker.Unpacks (deliveries load bits n x) y.unpacker := by
  induction n generalizing x with
  | zero =>
      cases h
      exact .refl _
  | succ n ih =>
      obtain ⟨z, hz, h⟩ := (iter_succ_eq_some _).mp h
      rw [deliveries_succ hz]
      exact .step (step_eq_some.mp hz).2.1 (ih h)

/-- Nothing that was put out or read is taken back. -/
theorem iter_mono {load : Word} {bits : ℕ → Bool} {n : ℕ} {x y : Reference}
    (h : iter (step load bits) n x = some y) :
    x.unpacker.out.length ≤ y.unpacker.out.length ∧ x.decoder.pos ≤ y.decoder.pos := by
  induction n generalizing x with
  | zero =>
      cases h
      exact ⟨Nat.le_refl _, Nat.le_refl _⟩
  | succ n ih =>
      obtain ⟨z, hz, h⟩ := (iter_succ_eq_some _).mp h
      obtain ⟨-, hadvance, hdecode⟩ := step_eq_some.mp hz
      obtain ⟨hout, hpos⟩ := ih h
      refine ⟨(Unpacker.advance_out_le hadvance).trans hout, Nat.le_trans ?_ hpos⟩
      rw [← hdecode, Decoder.decode_pos]
      exact Decoder.le_pos_normalise adaptation bits adaptation.width

/-- No decision reads more bits than a range has. -/
theorem iter_pos_le {load : Word} {bits : ℕ → Bool} {n : ℕ} {x y : Reference}
    (h : iter (step load bits) n x = some y) : y.decoder.pos ≤ x.decoder.pos + 16 * n := by
  induction n generalizing x with
  | zero =>
      cases h
      exact Nat.le_refl _
  | succ n ih =>
      obtain ⟨z, hz, h⟩ := (iter_succ_eq_some _).mp h
      obtain ⟨-, -, hdecode⟩ := step_eq_some.mp hz
      have hrest := ih h
      have hread : z.decoder.pos ≤ x.decoder.pos + 16 := by
        rw [← hdecode, Decoder.decode_pos]
        exact Decoder.normalise_pos_le adaptation bits 16
      omega

end Reference

end ShrinklerGba.Shrinkler
