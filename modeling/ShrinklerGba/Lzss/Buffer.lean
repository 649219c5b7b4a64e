import ShrinklerGba.Cartridge

/-!
# The buffer of the LZSS depacker

The depacker decodes the Huffman code to a buffer and the LZSS code from there to the load address.
The packer puts the buffer at the end of EWRAM and checks only that it is word aligned.

* `BufferSafe`: the buffer lies in EWRAM and off the load area.
* `bufferSafe_iff`: exactly when it does.
* **`assembleCartridge_bufferSafe_iff`**: a cartridge is returned for every size that is a multiple
  of four; its buffer is safe when the LZSS data fits into EWRAM and the load area does not reach
  into the end of EWRAM that the data takes.
-/

namespace ShrinklerGba.Lzss

open Thumb

/-- The buffer lies in EWRAM, without wrapping, and no address is both in the buffer and in the load
area. -/
structure BufferSafe (inputFile : InputFile) (lzssDataSize : Word) : Prop where
  /-- The buffer starts in EWRAM. -/
  start : ewramStart.toNat ≤ (lzssDepackBuffer lzssDataSize).toNat
  /-- The buffer ends in EWRAM. -/
  stop : (lzssDepackBuffer lzssDataSize).toNat + lzssDataSize.toNat ≤
    ewramStart.toNat + ewramSize.toNat
  /-- The buffer and the load area have no address in common. -/
  disjoint : ∀ a, ¬ (((lzssDepackBuffer lzssDataSize).toNat ≤ a ∧
      a < (lzssDepackBuffer lzssDataSize).toNat + lzssDataSize.toNat) ∧
    (inputFile.loadAddress.toNat ≤ a ∧
      a < inputFile.loadAddress.toNat + inputFile.data.length))

/-- The LZSS data fits into EWRAM, and the load area stays off the end of EWRAM it takes. -/
def FitsEwram (inputFile : InputFile) (lzssDataSize : Word) : Prop :=
  lzssDataSize.toNat ≤ ewramSize.toNat ∧
    (lzssDataSize = 0 ∨ inputFile.data = [] ∨
      inputFile.loadAddress.toNat + inputFile.data.length + lzssDataSize.toNat ≤
        ewramStart.toNat + ewramSize.toNat ∨
      ewramStart.toNat + ewramSize.toNat ≤ inputFile.loadAddress.toNat)

theorem lzssDepackBuffer_toNat {n : Word} (h : n.toNat ≤ ewramStart.toNat + ewramSize.toNat) :
    (lzssDepackBuffer n).toNat = ewramStart.toNat + ewramSize.toNat - n.toNat := by
  simp only [lzssDepackBuffer, ewramStart, ewramSize] at *
  bv_omega

/-- The buffer is safe exactly when the data fits. -/
theorem bufferSafe_iff {f : InputFile} {n : Word} : BufferSafe f n ↔ FitsEwram f n := by
  have hend : ewramStart.toNat + ewramSize.toNat = 0x02040000 := rfl
  have hstart : ewramStart.toNat = 0x02000000 := rfl
  have hsize : ewramSize.toNat = 0x40000 := rfl
  constructor
  · intro h
    have hn : n.toNat ≤ ewramSize.toNat := by
      have hs := h.start
      have ht := h.stop
      by_contra hlt
      by_cases hle : n.toNat ≤ ewramStart.toNat + ewramSize.toNat
      · rw [lzssDepackBuffer_toNat hle] at hs
        omega
      · omega
    refine ⟨hn, ?_⟩
    have hb := lzssDepackBuffer_toNat (n := n) (by omega)
    by_contra hne
    simp only [not_or] at hne
    obtain ⟨hn0, hdata, h₁, h₂⟩ := hne
    have hn0' : n.toNat ≠ 0 := fun h0 => hn0 (BitVec.eq_of_toNat_eq h0)
    have hlen : f.data.length ≠ 0 := fun h0 => hdata (List.length_eq_zero_iff.mp h0)
    -- The larger of the two starts lies in both.
    exact h.disjoint (max (lzssDepackBuffer n).toNat f.loadAddress.toNat) (by omega)
  · rintro ⟨hn, hcase⟩
    have hb := lzssDepackBuffer_toNat (n := n) (by omega)
    refine ⟨by omega, by omega, fun a ha => ?_⟩
    rcases hcase with rfl | hdata | h | h
    · have h0 : (0 : Word).toNat = 0 := rfl
      omega
    · rw [hdata] at ha
      simp only [List.length_nil] at ha
      omega
    · omega
    · omega

theorem lzssDepackBuffer_aligned (n : Word) :
    (lzssDepackBuffer n).toNat % 4 = 0 ↔ n.toNat % 4 = 0 := by
  simp only [lzssDepackBuffer, ewramStart, ewramSize]
  bv_omega

/-- The packer returns a cartridge for every size that is a multiple of four. -/
theorem assembleCartridge_ok_iff {f : InputFile} (compressed : Bytevector) (options : Options)
    (n : Word) (hload : f.loadAddress.toNat < 2 ^ 31) (hentry : f.entry.toNat < 2 ^ 31) :
    (∃ c, assembleCartridge f compressed options n = .ok c) ↔ n.toNat % 4 = 0 := by
  rw [← lzssDepackBuffer_aligned]
  unfold assembleCartridge
  by_cases h : (lzssDepackBuffer n).toNat % 4 = 0
  · obtain ⟨data, size, hok, -⟩ :=
      lzssCartridgeAssembler_ok f compressed options (lzssDepackBuffer n) hload hentry
    simp [h, hok, bind, Except.bind]
  · simp [h]

/-- A cartridge is returned for an aligned buffer only. -/
theorem aligned_of_assembleCartridge {f : InputFile} {compressed : Bytevector} {options : Options}
    {n : Word} {c : Cartridge} (h : assembleCartridge f compressed options n = .ok c) :
    (lzssDepackBuffer n).toNat % 4 = 0 := by
  by_contra hne
  rw [assembleCartridge, if_pos hne] at h
  cases h

/-- **The buffer is safe exactly when the LZSS data fits**: nothing but its alignment is checked. -/
theorem assembleCartridge_bufferSafe_iff (inputFile : InputFile) (compressedBinary : Bytevector)
    (options : Options) (lzssDataSize : Word) :
    (inputFile.loadAddress.toNat < 2 ^ 31 → inputFile.entry.toNat < 2 ^ 31 →
      ((∃ c, assembleCartridge inputFile compressedBinary options lzssDataSize = .ok c) ↔
        lzssDataSize.toNat % 4 = 0)) ∧
    (∀ c, assembleCartridge inputFile compressedBinary options lzssDataSize = .ok c →
      (lzssDepackBuffer lzssDataSize).toNat % 4 = 0 ∧
      (BufferSafe inputFile lzssDataSize ↔ FitsEwram inputFile lzssDataSize)) :=
  ⟨fun hload hentry => assembleCartridge_ok_iff compressedBinary options lzssDataSize hload hentry,
    fun _ hc => ⟨aligned_of_assembleCartridge hc, bufferSafe_iff⟩⟩

/-- An input file of one byte in IWRAM. -/
def iwramFile : InputFile := ⟨0x03000000, 0x03000000, [0]⟩

/-- The theorem at a file in IWRAM: its buffer is safe. -/
theorem assembleCartridge_bufferSafe_iwramFile :
    (∃ c, assembleCartridge iwramFile [] {} 8 = .ok c) ∧ BufferSafe iwramFile 8 := by
  have hok := ((assembleCartridge_bufferSafe_iff iwramFile [] {} 8).1 (by decide) (by decide)).mpr
    rfl
  refine ⟨hok, ?_⟩
  obtain ⟨c, hc⟩ := hok
  exact ((assembleCartridge_bufferSafe_iff iwramFile [] {} 8).2 c hc).2.mpr
    ⟨by decide, .inr (.inr (.inr (by decide)))⟩

/-- An input file of one byte near the end of EWRAM. -/
def ewramFile : InputFile := ⟨0x0203fffc, 0x0203fffc, [0]⟩

/-- The packer accepts a file whose load area the buffer overlaps. -/
theorem assembleCartridge_not_bufferSafe :
    ¬ ∀ (inputFile : InputFile) (compressedBinary : Bytevector) (options : Options)
      (lzssDataSize : Word) (c : Cartridge), inputFile.data ≠ [] → lzssDataSize.toNat % 4 = 0 →
      assembleCartridge inputFile compressedBinary options lzssDataSize = .ok c →
      BufferSafe inputFile lzssDataSize := by
  intro h
  obtain ⟨c, hc⟩ := (assembleCartridge_ok_iff (f := ewramFile) [] {} 8 (by decide) (by decide)).mpr
    rfl
  have hsafe := h ewramFile [] {} 8 c (by decide) rfl hc
  exact hsafe.disjoint 0x0203fffc (by decide)

end ShrinklerGba.Lzss
