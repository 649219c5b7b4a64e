import Mathlib.Data.BitVec
import Mathlib.Data.Nat.Init

/-!
# Reading words bit by bit

A reader delivers the bits of a sequence of words, the most significant bit of a word first. It has
one register for the bits of the current word that are left: below them stands a one, the sentinel,
and below that zeros. When shifting the register leaves nothing, the bit that came out was the
sentinel, and the next word is loaded.

* `bitAt word k` is the `k`-th bit of the sequence; `ofBits bits` are the words of a sequence of
  bits.
* `buffer x i` is the register when `i` bits of `x` were read; `bufferAt word k` when `k` bits of
  the sequence were, from `loaded w k` words.
* **`shl_bufferAt_eq_zero_iff`**: the register runs empty exactly at the end of a word.
* **`shl_bufferAt`**, **`reload`**: shifting and reloading deliver the next bit.
-/

namespace Bitstream

variable {w : ℕ}

/-- The `k`-th bit of a sequence of words. -/
def bitAt (word : ℕ → BitVec w) (k : ℕ) : Bool := (word (k / w)).getMsbD (k % w)

/-- The words of a sequence of bits. -/
def ofBits (bits : ℕ → Bool) (j : ℕ) : BitVec w :=
  (BitVec.ofBoolListBE ((List.range w).map fun i => bits (w * j + i))).cast (by simp)

/-- The register when `i` bits of a word were read. -/
def buffer (x : BitVec w) (i : ℕ) : BitVec w := x <<< i ||| 1#w <<< (i - 1)

/-- How many words were loaded to read `k` bits. -/
def loaded (w k : ℕ) : ℕ := (k + w - 1) / w

/-- The register when `k` bits of a sequence were read. Only the sentinel is left when these are
the bits of whole words. -/
def bufferAt (word : ℕ → BitVec w) (k : ℕ) : BitVec w :=
  if k % w = 0 then buffer 0 w else buffer (word (k / w)) (k % w)

theorem bitAt_ofBits (hw : 0 < w) (bits : ℕ → Bool) (k : ℕ) :
    bitAt (ofBits (w := w) bits) k = bits k := by
  have hlt := Nat.mod_lt k hw
  simp [bitAt, ofBits, hlt, Nat.div_add_mod]

/-! ## One word -/

section buffer

variable {x : BitVec w} {i : ℕ}

theorem shl_buffer (hi : 1 ≤ i) : buffer x i <<< 1 = buffer x (i + 1) := by
  obtain ⟨j, rfl⟩ : ∃ j, i = j + 1 := ⟨i - 1, by omega⟩
  simp only [buffer, BitVec.shiftLeft_or_distrib, ← BitVec.shiftLeft_add, Nat.add_sub_cancel]

theorem buffer_ne_zero (h₁ : 1 ≤ i) (h₂ : i ≤ w) : buffer x i ≠ 0#w := by
  intro h
  have hbit := congrArg (fun y => y.getLsbD (i - 1)) h
  simp [buffer] at hbit
  omega

theorem buffer_eq_zero (h : w < i) : buffer x i = 0#w := by
  rw [buffer, BitVec.shiftLeft_eq_zero (by omega), BitVec.shiftLeft_eq_zero (by omega)]
  simp

/-- The sentinel at the highest bit: nothing is left. -/
theorem buffer_width (x y : BitVec w) : buffer x w = buffer y w := by
  simp [buffer]

theorem msb_buffer (h₁ : 1 ≤ i) (h₂ : i < w) : (buffer x i).msb = x.getMsbD i := by
  simp only [buffer, BitVec.msb_or, BitVec.msb_shiftLeft]
  simp [BitVec.getMsbD]
  omega

/-- Doubling a word delivers its first bit, and the bit that is shifted in is the sentinel. -/
theorem add_self_or_one (x : BitVec w) : x + x ||| 1#w = buffer x 1 := by
  have hshift : x + x = x <<< 1 := by
    apply BitVec.eq_of_toNat_eq
    rw [BitVec.toNat_add, BitVec.toNat_shiftLeft, Nat.shiftLeft_eq]
    congr 1
    omega
  simp [buffer, hshift]

end buffer

/-! ## A sequence of words -/

section sequence

variable (word : ℕ → BitVec w) {k : ℕ}

theorem loaded_of_mod_eq_zero (hw : 0 < w) (h : k % w = 0) : loaded w k = k / w := by
  obtain ⟨q, rfl⟩ := Nat.dvd_of_mod_eq_zero h
  rw [loaded, Nat.mul_div_cancel_left _ hw, Nat.add_sub_assoc hw, Nat.mul_add_div hw,
    Nat.div_eq_of_lt (by omega), Nat.add_zero]

theorem loaded_of_mod_ne_zero (hw : 0 < w) (h : k % w ≠ 0) : loaded w k = k / w + 1 := by
  have hsplit := Nat.div_add_mod k w
  have hlt := Nat.mod_lt k hw
  have hk : k + w - 1 = w * (k / w + 1) + (k % w - 1) := by
    rw [Nat.mul_add, Nat.mul_one]
    omega
  have hsmall : (k % w - 1) / w = 0 := Nat.div_eq_of_lt (by omega)
  rw [loaded, hk, Nat.mul_add_div hw, hsmall, Nat.add_zero]

theorem loaded_mono {k k' : ℕ} (h : k ≤ k') : loaded w k ≤ loaded w k' :=
  Nat.div_le_div_right (Nat.sub_le_sub_right (Nat.add_le_add_right h w) 1)

/-- Only a bit that begins a word makes the reader load one. -/
theorem loaded_succ (hw : 0 < w) :
    loaded w (k + 1) = if k % w = 0 then loaded w k + 1 else loaded w k := by
  have hnext : loaded w (k + 1) = k / w + 1 := by
    rw [loaded, Nat.add_right_comm, Nat.add_sub_cancel, Nat.add_div_right _ hw]
  split
  · rw [hnext, loaded_of_mod_eq_zero hw ‹_›]
  · rw [hnext, loaded_of_mod_ne_zero hw ‹_›]

theorem bufferAt_ne_zero (hw : 0 < w) : bufferAt word k ≠ 0 := by
  rw [bufferAt]
  split
  · exact buffer_ne_zero hw (Nat.le_refl w)
  · exact buffer_ne_zero (by omega) (Nat.mod_lt k hw).le

theorem bufferAt_of_mod_ne_zero (h : k % w ≠ 0) :
    bufferAt word k = buffer (word (k / w)) (k % w) := if_neg h

theorem bufferAt_succ (hw : 0 < w) :
    bufferAt word (k + 1) = buffer (word (k / w)) (k % w + 1) := by
  have hsplit := Nat.div_add_mod k w
  have hlt := Nat.mod_lt k hw
  by_cases h : k % w + 1 = w
  · obtain ⟨-, hmod⟩ := (Nat.div_mod_unique hw).mpr
      (show 0 + w * (k / w + 1) = k + 1 ∧ 0 < w by rw [Nat.mul_add, Nat.mul_one]; omega)
    rw [bufferAt, if_pos hmod, h]
    exact buffer_width _ _
  · obtain ⟨hdiv, hmod⟩ := (Nat.div_mod_unique hw).mpr
      (show k % w + 1 + w * (k / w) = k + 1 ∧ k % w + 1 < w by omega)
    rw [bufferAt_of_mod_ne_zero _ (by omega), hdiv, hmod]

/-- **The register runs empty exactly at the end of a word**, whatever the words are. -/
theorem shl_bufferAt_eq_zero_iff (hw : 0 < w) : bufferAt word k <<< 1 = 0 ↔ k % w = 0 := by
  by_cases h : k % w = 0
  · rw [bufferAt, if_pos h, shl_buffer hw]
    exact iff_of_true (buffer_eq_zero (Nat.lt_succ_self w)) h
  · have hlt := Nat.mod_lt k hw
    rw [bufferAt_of_mod_ne_zero _ h, shl_buffer (by omega)]
    exact iff_of_false (buffer_ne_zero (by omega) (by omega)) h

/-- Within a word, shifting delivers the next bit. -/
theorem shl_bufferAt (hw : 0 < w) (h : k % w ≠ 0) :
    (bufferAt word k).msb = bitAt word k ∧ bufferAt word k <<< 1 = bufferAt word (k + 1) := by
  have hlt := Nat.mod_lt k hw
  rw [bufferAt_succ word hw, bufferAt_of_mod_ne_zero _ h]
  exact ⟨msb_buffer (by omega) hlt, shl_buffer (by omega)⟩

/-- At the end of a word, doubling the next word delivers the next bit. -/
theorem reload (hw : 0 < w) (h : k % w = 0) {x : BitVec w} (hx : word (k / w) = x) :
    x.msb = bitAt word k ∧ x + x ||| 1#w = bufferAt word (k + 1) := by
  subst hx
  refine ⟨?_, ?_⟩
  · simp [bitAt, h, BitVec.msb]
  · rw [bufferAt_succ word hw, h, add_self_or_one]

end sequence

end Bitstream
