import ShrinklerGba.Shrinkler.Format

/-!
# The plain decoder at another load address

The contexts of literals and kinds depend on the parity of the output address. A load address of the
other parity exchanges the two banks of these contexts, throughout the run.

* `Context.flip` exchanges the banks; `exchange` does so if the parities of two addresses differ.
* **`Reference.iter_load`**: a run at one address is a run at another, with the banks exchanged.
-/

namespace ShrinklerGba.Shrinkler

open Thumb RangeCoding Transition

/-- The context of the other parity. -/
def Context.flip : Context → Context
  | .literal odd seen => .literal (!odd) seen
  | .kind odd => .kind (!odd)
  | c => c

theorem Context.flip_flip (c : Context) : c.flip.flip = c := by
  cases c <;> simp [flip]

/-- The contexts at one address, for those at another. -/
def exchange (a b : Word) : Context → Context :=
  if a.getLsbD 0 = b.getLsbD 0 then id else Context.flip

variable {a b : Word}

variable (a b) in
theorem exchange_injective : Function.Injective (exchange a b) := by
  unfold exchange
  split
  · exact Function.injective_id
  · exact Function.LeftInverse.injective Context.flip_flip

/-- The parity of an output address. -/
theorem Unpacker.odd_eq (a : Word) (u : Unpacker) :
    u.odd a = (a.getLsbD 0 ^^ (BitVec.ofNat 32 u.out.length).getLsbD 0) := by
  rw [odd, BitVec.getLsbD_add (by decide)]
  simp

theorem Place.context_not (odd : Bool) (p : Place) : p.context (!odd) = (p.context odd).flip := by
  cases p <;> rfl

variable (a b) in
/-- The context of the next bit, at another address. -/
theorem Unpacker.context_exchange (u : Unpacker) :
    exchange a b (u.context b) = u.context a := by
  rw [exchange, context, context, odd_eq, odd_eq]
  split
  · rename_i hsame
    rw [hsame, id]
  · rename_i hne
    rw [← Place.context_not, ← Bool.not_xor, Bool.eq_not_of_ne hne]

/-- The plain decoder at another address. -/
def Reference.exchange (a b : Word) (x : Reference) : Reference :=
  ⟨x.unpacker, x.decoder.relabel (Shrinkler.exchange a b)⟩

variable (a b) in
/-- The same bit is decoded. -/
theorem Reference.bit_exchange (bits : ℕ → Bool) (x : Reference) :
    (x.exchange a b).bit b bits = x.bit a bits := by
  simp only [bit, exchange, Decoder.decode_relabel (exchange_injective a b),
    Unpacker.context_exchange a b]

theorem Reference.step_exchange {bits : ℕ → Bool} {x y : Reference}
    (h : x.step a bits = some y) : (x.exchange a b).step b bits = some (y.exchange a b) := by
  obtain ⟨hplace, hadvance, hdecode⟩ := step_eq_some.mp h
  rw [step_eq_some]
  simp only [exchange, Decoder.decode_relabel (exchange_injective a b),
    Unpacker.context_exchange a b]
  exact ⟨hplace, hadvance, congrArg _ hdecode⟩

/-- **A run at one load address is a run at another**, with the banks exchanged, and the same is
delivered. -/
theorem Reference.iter_load {bits : ℕ → Bool} {n : ℕ} {x : Reference}
    (h : iter (step a bits) n .start = some x) (b : Word) :
    iter (step b bits) n .start = some (x.exchange a b) ∧
      deliveries b bits n .start = deliveries a bits n .start := by
  obtain ⟨hiter, htrace⟩ := trace_map (step a bits)
    (fun x => some (x.unpacker.delivers (x.bit a bits))) (g := step b bits)
    (p := fun x => some (x.unpacker.delivers (x.bit b bits))) (F := exchange a b)
    (fun _ _ => step_exchange) (fun x => by rw [bit_exchange, exchange]) h
  exact ⟨hiter, congrArg List.flatten htrace⟩

end ShrinklerGba.Shrinkler
