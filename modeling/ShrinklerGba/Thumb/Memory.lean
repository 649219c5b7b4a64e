import Mathlib.Data.BitVec
import Mathlib.Data.Set.BooleanAlgebra
import Mathlib.Data.Set.Function
import Mathlib.Order.CompletePartialOrder

/-!
# Byte memory with little-endian words

Memory is a function from 32-bit addresses to bytes; addresses wrap. `range a n` is the set of the
`n` addresses from `a` on. Loads read only their own range (`load32_congr`), stores change only
theirs (`store32_eqOn`), and what was stored is loaded back (`loadWords_storeWords`).
-/

namespace Thumb

/-- An 8-bit byte. -/
abbrev Byte := BitVec 8

/-- A 16-bit halfword. -/
abbrev Half := BitVec 16

/-- A 32-bit word. -/
abbrev Word := BitVec 32

/-- Byte memory. -/
abbrev Mem := Word → Byte

/-! ## Ranges of addresses -/

/-- The `n` addresses from `a` on. -/
def range (a : Word) (n : ℕ) : Set Word := {x | (x - a).toNat < n}

theorem mem_range {a x : Word} {n : ℕ} : x ∈ range a n ↔ (x - a).toNat < n := Iff.rfl

theorem range_subset {a b : Word} {m n : ℕ} (h : (a - b).toNat + m ≤ n) :
    range a m ⊆ range b n := by
  intro x hx
  simp only [mem_range] at *
  bv_omega

/-- Two ranges are disjoint when each starts past the other's end. -/
theorem disjoint_range {a b : Word} {m n : ℕ} (h₁ : m ≤ (b - a).toNat) (h₂ : n ≤ (a - b).toNat) :
    Disjoint (range a m) (range b n) := by
  rw [Set.disjoint_left]
  intro x hx hx'
  simp only [mem_range] at *
  bv_omega

/-! ## Loads and stores -/

/-- The word address an unaligned word access is made at. -/
def align4 (a : Word) : Word := a >>> 2 <<< 2

/-- The halfword at `a`, little endian. -/
def load16 (m : Mem) (a : Word) : Half := m (a + 1) ++ m a

/-- The word at `a`, little endian. -/
def load32 (m : Mem) (a : Word) : Word := m (a + 3) ++ m (a + 2) ++ m (a + 1) ++ m a

/-- What a word load gets: an unaligned one rotates the aligned word it falls in. -/
def loadWord (m : Mem) (a : Word) : Word := (load32 m (align4 a)).rotateRight (8 * (a.toNat % 4))

/-- The `n` words from `a` on. -/
def loadWords (m : Mem) (a : Word) : ℕ → List Word
  | 0 => []
  | n + 1 => load32 m a :: loadWords m (a + 4) n

/-- The `n` bytes from `a` on. -/
def loadBytes (m : Mem) (a : Word) : ℕ → List Byte
  | 0 => []
  | n + 1 => m a :: loadBytes m (a + 1) n

/-- Store a byte. -/
def store8 (m : Mem) (a : Word) (x : Byte) : Mem := Function.update m a x

/-- Store a halfword, little endian. -/
def store16 (m : Mem) (a : Word) (x : Half) : Mem :=
  store8 (store8 m a (x.extractLsb' 0 8)) (a + 1) (x.extractLsb' 8 8)

/-- Store a word, little endian. -/
def store32 (m : Mem) (a : Word) (x : Word) : Mem :=
  store8 (store8 (store8 (store8 m a (x.extractLsb' 0 8)) (a + 1) (x.extractLsb' 8 8))
    (a + 2) (x.extractLsb' 16 8)) (a + 3) (x.extractLsb' 24 8)

/-- Store words at `a`, `a + 4` and so on. -/
def storeWords (m : Mem) (a : Word) : List Word → Mem
  | [] => m
  | w :: ws => storeWords (store32 m a w) (a + 4) ws

theorem align4_toNat (a : Word) : (align4 a).toNat = a.toNat / 4 * 4 := by
  simp only [align4, BitVec.toNat_shiftLeft, BitVec.toNat_ushiftRight, Nat.shiftRight_eq_div_pow,
    Nat.shiftLeft_eq]
  omega

/-- A word-aligned address is its own word address. -/
theorem align4_of_aligned {a : Word} (h : a.toNat % 4 = 0) : align4 a = a := by
  apply BitVec.eq_of_toNat_eq
  rw [align4_toNat]
  omega

/-- The low bit of a return address only says that it is Thumb code. -/
theorem clear_low_bit {x : Word} (h : x.toNat % 2 = 0) : (x ||| 1#32) &&& ~~~1#32 = x := by
  have hlow : x[0] = false := by
    rw [← BitVec.getLsbD_eq_getElem, BitVec.getLsbD, Nat.testBit_zero, h]
    rfl
  ext i hi
  simp only [BitVec.getElem_and, BitVec.getElem_or, BitVec.getElem_not, BitVec.getElem_one]
  by_cases h0 : i = 0
  · subst h0
    simpa using hlow.symm
  · simp [h0]

/-! ## A load reads only its own range -/

section congr

variable {m m' : Mem} {a : Word}

theorem load16_congr (h : Set.EqOn m m' (range a 2)) : load16 m a = load16 m' a := by
  unfold load16
  rw [h (x := a + 1) (by rw [mem_range]; bv_omega), h (x := a) (by rw [mem_range]; bv_omega)]

theorem load32_congr (h : Set.EqOn m m' (range a 4)) : load32 m a = load32 m' a := by
  unfold load32
  rw [h (x := a + 3) (by rw [mem_range]; bv_omega), h (x := a + 2) (by rw [mem_range]; bv_omega),
    h (x := a + 1) (by rw [mem_range]; bv_omega), h (x := a) (by rw [mem_range]; bv_omega)]

theorem loadWords_congr {n : ℕ} (h : Set.EqOn m m' (range a (4 * n))) :
    loadWords m a n = loadWords m' a n := by
  induction n generalizing a with
  | zero => rfl
  | succ n ih =>
      have h4 : range a 4 ⊆ range a (4 * (n + 1)) := range_subset (by bv_omega)
      have ht : range (a + 4) (4 * n) ⊆ range a (4 * (n + 1)) := range_subset (by bv_omega)
      rw [loadWords, loadWords, load32_congr (h.mono h4), ih (h.mono ht)]

/-- A word among those from `a` on. -/
theorem load32_of_loadWords {ws : List Word} (h : loadWords m a ws.length = ws) {i : ℕ}
    (hi : i < ws.length) : load32 m (a + BitVec.ofNat 32 (4 * i)) = ws.getD i 0 := by
  induction ws generalizing a i with
  | nil => exact absurd hi (Nat.not_lt_zero i)
  | cons w ws ih =>
      obtain ⟨hw, hws⟩ := List.cons.inj h
      cases i with
      | zero => simpa using hw
      | succ i =>
          have ha : a + BitVec.ofNat 32 (4 * (i + 1)) = a + 4 + BitVec.ofNat 32 (4 * i) := by
            rw [BitVec.add_assoc, Nat.mul_add, Nat.add_comm, BitVec.ofNat_add]
            rfl
          rw [ha, ih hws (Nat.lt_of_succ_lt_succ hi)]
          simp

end congr

/-- An aligned word load does not rotate. -/
theorem loadWord_of_aligned (m : Mem) {a : Word} (h : a.toNat % 4 = 0) :
    loadWord m a = load32 m a := by
  have hrot (x : Word) : x.rotateRight 0 = x := by simp [BitVec.rotateRight, BitVec.rotateRightAux]
  rw [loadWord, align4_of_aligned h, h, Nat.mul_zero, hrot]

/-! ## A store changes only its own range -/

section frame

variable (m : Mem) (a : Word)

theorem store8_eqOn (x : Byte) : Set.EqOn (store8 m a x) m (range a 1)ᶜ := by
  intro y hy
  refine Function.update_of_ne (fun h => hy ?_) _ _
  subst h
  simp [mem_range]

theorem store16_eqOn (x : Half) : Set.EqOn (store16 m a x) m (range a 2)ᶜ := by
  intro y hy
  have h₁ : y ∉ range (a + 1) 1 := fun h => hy (range_subset (by bv_omega) h)
  have h₀ : y ∉ range a 1 := fun h => hy (range_subset (by bv_omega) h)
  rw [store16, store8_eqOn _ _ _ h₁, store8_eqOn _ _ _ h₀]

theorem store32_eqOn (x : Word) : Set.EqOn (store32 m a x) m (range a 4)ᶜ := by
  intro y hy
  have h₃ : y ∉ range (a + 3) 1 := fun h => hy (range_subset (by bv_omega) h)
  have h₂ : y ∉ range (a + 2) 1 := fun h => hy (range_subset (by bv_omega) h)
  have h₁ : y ∉ range (a + 1) 1 := fun h => hy (range_subset (by bv_omega) h)
  have h₀ : y ∉ range a 1 := fun h => hy (range_subset (by bv_omega) h)
  rw [store32, store8_eqOn _ _ _ h₃, store8_eqOn _ _ _ h₂, store8_eqOn _ _ _ h₁,
    store8_eqOn _ _ _ h₀]

theorem storeWords_eqOn {ws : List Word} (h : 4 * ws.length ≤ 2 ^ 32) :
    Set.EqOn (storeWords m a ws) m (range a (4 * ws.length))ᶜ := by
  induction ws generalizing m a with
  | nil => exact fun _ _ => rfl
  | cons w ws ih =>
      intro y hy
      simp only [List.length_cons] at h hy
      have ht : y ∉ range (a + 4) (4 * ws.length) := fun hm => hy (range_subset (by bv_omega) hm)
      have h4 : y ∉ range a 4 := fun hm => hy (range_subset (by bv_omega) hm)
      rw [storeWords, ih _ _ (by omega) ht, store32_eqOn _ _ _ h4]

variable {m} {m' : Mem} {A : Set Word}

theorem store8_congr (h : Set.EqOn m m' A) (x : Byte) :
    Set.EqOn (store8 m a x) (store8 m' a x) A := by
  intro y hy
  by_cases hya : y = a
  · rw [hya, store8, store8, Function.update_self, Function.update_self]
  · rw [store8, store8, Function.update_of_ne hya, Function.update_of_ne hya, h hy]

theorem store16_congr (h : Set.EqOn m m' A) (x : Half) :
    Set.EqOn (store16 m a x) (store16 m' a x) A :=
  store8_congr (a + 1) (store8_congr a h _) _

theorem store32_congr (h : Set.EqOn m m' A) (x : Word) :
    Set.EqOn (store32 m a x) (store32 m' a x) A :=
  store8_congr (a + 3) (store8_congr (a + 2) (store8_congr (a + 1) (store8_congr a h _) _) _) _

end frame

/-! ## What was stored is loaded back -/

/-- A halfword is its two bytes. -/
theorem half_bytes (x : Half) : x.extractLsb' 8 8 ++ x.extractLsb' 0 8 = x := by
  have h : x.extractLsb' 8 8 ++ x.extractLsb' 0 8 = x.extractLsb' 0 16 :=
    BitVec.extractLsb'_append_extractLsb'_eq_extractLsb' rfl
  rw [h, BitVec.extractLsb'_eq_self]

/-- A word is its four bytes. -/
theorem word_bytes (x : Word) :
    x.extractLsb' 24 8 ++ x.extractLsb' 16 8 ++ x.extractLsb' 8 8 ++ x.extractLsb' 0 8 = x := by
  have h₁ : x.extractLsb' 24 8 ++ x.extractLsb' 16 8 = x.extractLsb' 16 16 :=
    BitVec.extractLsb'_append_extractLsb'_eq_extractLsb' rfl
  have h₂ : x.extractLsb' 16 16 ++ x.extractLsb' 8 8 = x.extractLsb' 8 24 :=
    BitVec.extractLsb'_append_extractLsb'_eq_extractLsb' rfl
  have h₃ : x.extractLsb' 8 24 ++ x.extractLsb' 0 8 = x.extractLsb' 0 32 :=
    BitVec.extractLsb'_append_extractLsb'_eq_extractLsb' rfl
  rw [h₁, h₂, h₃, BitVec.extractLsb'_eq_self]

@[simp] theorem load16_store16 (m : Mem) (a : Word) (x : Half) : load16 (store16 m a x) a = x := by
  have h₀ : store16 m a x a = x.extractLsb' 0 8 := by
    rw [store16, store8_eqOn _ _ _ (by rw [Set.mem_compl_iff, mem_range]; bv_omega)]
    exact Function.update_self ..
  have h₁ : store16 m a x (a + 1) = x.extractLsb' 8 8 := Function.update_self ..
  rw [load16, h₀, h₁, half_bytes]

theorem store32_bytes (m : Mem) (a x : Word) :
    store32 m a x a = x.extractLsb' 0 8 ∧ store32 m a x (a + 1) = x.extractLsb' 8 8 ∧
      store32 m a x (a + 2) = x.extractLsb' 16 8 ∧ store32 m a x (a + 3) = x.extractLsb' 24 8 := by
  refine ⟨?_, ?_, ?_, Function.update_self ..⟩
  · rw [store32, store8_eqOn _ _ _ (by rw [Set.mem_compl_iff, mem_range]; bv_omega),
      store8_eqOn _ _ _ (by rw [Set.mem_compl_iff, mem_range]; bv_omega),
      store8_eqOn _ _ _ (by rw [Set.mem_compl_iff, mem_range]; bv_omega)]
    exact Function.update_self ..
  · rw [store32, store8_eqOn _ _ _ (by rw [Set.mem_compl_iff, mem_range]; bv_omega),
      store8_eqOn _ _ _ (by rw [Set.mem_compl_iff, mem_range]; bv_omega)]
    exact Function.update_self ..
  · rw [store32, store8_eqOn _ _ _ (by rw [Set.mem_compl_iff, mem_range]; bv_omega)]
    exact Function.update_self ..

/-- Storing what is there already. -/
theorem store32_eq_self {m : Mem} {a x : Word} (h₀ : m a = x.extractLsb' 0 8)
    (h₁ : m (a + 1) = x.extractLsb' 8 8) (h₂ : m (a + 2) = x.extractLsb' 16 8)
    (h₃ : m (a + 3) = x.extractLsb' 24 8) : store32 m a x = m := by
  have hbyte {b : Word} {y : Byte} (h : m b = y) : store8 m b y = m :=
    Function.update_eq_self_iff.mpr h.symm
  rw [store32, hbyte h₀, hbyte h₁, hbyte h₂, hbyte h₃]

@[simp] theorem load32_store32 (m : Mem) (a x : Word) : load32 (store32 m a x) a = x := by
  obtain ⟨h₀, h₁, h₂, h₃⟩ := store32_bytes m a x
  rw [load32, h₀, h₁, h₂, h₃, word_bytes]

/-- The halves of a word that was stored. -/
theorem load16_store32 (m : Mem) (a x : Word) :
    load16 (store32 m a x) a = x.extractLsb' 0 16 ∧
      load16 (store32 m a x) (a + 2) = x.extractLsb' 16 16 := by
  obtain ⟨h₀, h₁, h₂, h₃⟩ := store32_bytes m a x
  have ha : a + 2 + 1 = a + 3 := by rw [BitVec.add_assoc]; rfl
  rw [load16, load16, h₀, h₁, ha, h₂, h₃]
  exact ⟨BitVec.extractLsb'_append_extractLsb'_eq_extractLsb' rfl,
    BitVec.extractLsb'_append_extractLsb'_eq_extractLsb' rfl⟩

/-- Words stored one after the other are loaded back. -/
theorem loadWords_storeWords (m : Mem) (a : Word) {ws : List Word} (h : 4 * ws.length ≤ 2 ^ 32) :
    loadWords (storeWords m a ws) a ws.length = ws := by
  induction ws generalizing m a with
  | nil => rfl
  | cons w ws ih =>
      simp only [List.length_cons] at h ⊢
      have hd : Disjoint (range a 4) (range (a + 4) (4 * ws.length)) :=
        disjoint_range (by bv_omega) (by bv_omega)
      have hw : load32 (storeWords (store32 m a w) (a + 4) ws) a = w := by
        rw [load32_congr ((storeWords_eqOn (store32 m a w) (a + 4) (by omega)).mono
          (Set.subset_compl_iff_disjoint_right.mpr hd)), load32_store32]
      rw [storeWords, loadWords, hw, ih _ _ (by omega)]

end Thumb
