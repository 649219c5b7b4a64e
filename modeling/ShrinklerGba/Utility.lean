import Mathlib.Data.Nat.Notation
import Mathlib.Data.BitVec

/-!
# Byte vectors, exceptions, narrowing conversions

What every module of the program uses: `utility.cppm`, and the parts of the C++ standard library and
of GSL that the modelled functions call.
-/

namespace ShrinklerGba

/-- A vector of bytes.
Source: `utility.cppm`, `bytevector`. -/
abbrev Bytevector := List (BitVec 8)

/-- The exceptions the modelled functions throw, with what `what()` says. -/
inductive Exception
  /-- `std::runtime_error` -/
  | runtimeError (what : String)
  /-- `std::system_error` -/
  | systemError (what : String)
  /-- `std::out_of_range`, from `vector::at` -/
  | outOfRange
  /-- `gsl::narrowing_error` -/
  | narrowingError
  deriving DecidableEq, Repr

/-- The text of an exception. What the standard does not fix is the exception's name. -/
def Exception.what : Exception → String
  | .runtimeError s => s
  | .systemError s => s
  | .outOfRange => "std::out_of_range"
  | .narrowingError => "narrowing_error"

/-- Source: `utility.cpp`, `internal_error`. -/
def internalError (s : String) : Exception := .runtimeError ("INTERNAL ERROR: " ++ s)

/-- Source: `utility.cpp`, `adler32`. -/
def adler32 (data : Bytevector) : BitVec 32 :=
  let (s1, s2) := data.foldl
    (fun (s1, s2) byte =>
      let s1 := (s1 + byte.setWidth 32) % 65521
      (s1, (s2 + s1) % 65521))
    ((1 : BitVec 32), (0 : BitVec 32))
  s2 <<< 16 ||| s1

/-- `gsl::narrow` to an unsigned type of `w` bits. -/
def narrow (w x : ℕ) : Except Exception (BitVec w) :=
  if x < 2 ^ w then .ok (BitVec.ofNat w x) else .error .narrowingError

/-- `gsl::narrow<int32_t>` of an unsigned 32-bit value, as the bits of the result. -/
def narrowInt32 (x : BitVec 32) : Except Exception (BitVec 32) :=
  if x.toNat < 2 ^ 31 then .ok x else .error .narrowingError

/-- A sequence succeeds if both parts do. -/
theorem bind_eq_ok {ε α β : Type} {x : Except ε α} {f : α → Except ε β} {b : β} :
    x >>= f = .ok b ↔ ∃ a, x = .ok a ∧ f a = .ok b := by
  cases x <;> simp [bind, Except.bind]

theorem narrow_eq_ok {w x : ℕ} {y : BitVec w} : narrow w x = .ok y ↔ x = y.toNat := by
  unfold narrow
  split <;> rename_i h
  · rw [Except.ok.injEq, ← BitVec.toNat_inj, BitVec.toNat_ofNat, Nat.mod_eq_of_lt h]
  · have hy := y.isLt
    constructor
    · intro h'
      cases h'
    · omega

theorem narrowInt32_eq_ok {x y : BitVec 32} :
    narrowInt32 x = .ok y ↔ x.toNat < 2 ^ 31 ∧ x = y := by
  unfold narrowInt32
  split <;> rename_i h
  · simp only [Except.ok.injEq, h, true_and]
  · simp only [h, false_and, reduceCtorEq]

end ShrinklerGba
