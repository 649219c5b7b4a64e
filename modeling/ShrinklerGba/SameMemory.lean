import ShrinklerGba.InputFile

/-!
# What a loaded file depends on

An ELF file is loaded to what its included sections say about memory. How many sections there are,
what they are called, how they are cut and in what order they come does not matter.

* `Holds elf a b`: an included section has the byte `b` at the address `a`.
* `MemoryImage.holds_bounds`, `MemoryImage.getElem?_of_holds`: the image, in terms of it.
* **`inputFile_sameMemory`**: files that hold the same bytes and have the same entry point are
  loaded to the same image.
-/

namespace ShrinklerGba

/-- An included section has a byte at an address. -/
def Holds (elf : Elf) (a : ℕ) (b : BitVec 8) : Prop :=
  ∃ s ∈ getIncludedSections elf, s.address.toNat ≤ a ∧ s.data[a - s.address.toNat]? = some b

section image

variable {elf : Elf} {f : InputFile} {srt : SortSectionsByAddress} {s : Section} {a : ℕ}
  {b : BitVec 8}

theorem size_pos_of_mem (hs : s ∈ getIncludedSections elf) : 0 < s.size.toNat :=
  s.data_length ▸ size_pos_of_included (List.mem_filter.mp hs).2

/-- An included section holds a byte at each of its addresses. -/
theorem exists_holds (hs : s ∈ getIncludedSections elf) (hlo : s.address.toNat ≤ a)
    (hhi : a < s.address.toNat + s.size.toNat) : ∃ b, Holds elf a b := by
  have hlt : a - s.address.toNat < s.data.length := by
    rw [s.data_length]
    omega
  exact ⟨_, s, hs, hlo, List.getElem?_eq_getElem hlt⟩

/-- The bytes of the included sections are within the image. -/
theorem MemoryImage.holds_bounds (h : MemoryImage elf f) (ha : Holds elf a b) :
    f.loadAddress.toNat ≤ a ∧ a < f.loadAddress.toNat + f.data.length := by
  obtain ⟨s, hs, hlo, hb⟩ := ha
  obtain ⟨hlt, -⟩ := List.getElem?_eq_some_iff.mp hb
  have hstart := h.le_start s hs
  have hstop := h.stop_le s hs
  rw [s.data_length] at hlt
  omega

/-- They are where they belong. -/
theorem MemoryImage.getElem?_of_holds (h : MemoryImage elf f) (ha : Holds elf a b) :
    f.data[a - f.loadAddress.toNat]? = some b := by
  obtain ⟨s, hs, hlo, hb⟩ := ha
  obtain ⟨hlt, -⟩ := List.getElem?_eq_some_iff.mp hb
  have hstart := h.le_start s hs
  rw [← hb, ← h.covered s hs _ (s.data_length ▸ hlt)]
  congr 1
  omega

/-- The image starts with a byte of an included section. -/
theorem MemoryImage.exists_holds_start (h : MemoryImage elf f) :
    ∃ b, Holds elf f.loadAddress.toNat b := by
  obtain ⟨s, hs, heq⟩ := h.exists_start
  have hpos := size_pos_of_mem hs
  exact exists_holds hs (by omega) (by omega)

/-- It ends with one. -/
theorem MemoryImage.exists_holds_stop (h : MemoryImage elf f) :
    ∃ a b, Holds elf a b ∧ a + 1 = f.loadAddress.toNat + f.data.length := by
  obtain ⟨s, hs, heq⟩ := h.exists_stop
  have hpos := size_pos_of_mem hs
  have hstart := h.le_start s hs
  obtain ⟨b, hb⟩ := exists_holds hs (a := s.address.toNat + s.size.toNat - 1) (by omega) (by omega)
  exact ⟨_, b, hb, by omega⟩

/-- Where no section holds a byte, the image is zero. -/
theorem MemoryImage.getElem?_of_not_holds (h : MemoryImage elf f) {i : ℕ} (hi : i < f.data.length)
    (hnot : ∀ b, ¬Holds elf (f.loadAddress.toNat + i) b) : f.data[i]? = some 0 := by
  refine h.gap i hi fun s hs ⟨hlo, hhi⟩ => ?_
  obtain ⟨b, hb⟩ := exists_holds hs hlo hhi
  exact hnot b hb

end image

/-- **Files that hold the same bytes are loaded to the same image**, however they are divided into
sections, and with any sort. -/
theorem inputFile_sameMemory {srt srt' : SortSectionsByAddress} {elf elf' : Elf}
    {f f' : InputFile} (h : inputFile srt elf = .ok f) (h' : inputFile srt' elf' = .ok f')
    (hentry : elf.entry = elf'.entry) (hholds : ∀ a b, Holds elf a b ↔ Holds elf' a b) :
    f = f' := by
  have hfentry : f.entry = f'.entry := by
    obtain ⟨-, he, -⟩ := inputFile_eq_ok h
    obtain ⟨-, he', -⟩ := inputFile_eq_ok h'
    exact BitVec.eq_of_toNat_eq (by rw [← he, ← he', hentry])
  have hnil : getIncludedSections elf = [] ↔ getIncludedSections elf' = [] := by
    have hiff (e : Elf) : getIncludedSections e = [] ↔ ∀ a b, ¬Holds e a b := by
      constructor
      · rintro hnil a b ⟨s, hs, -⟩
        rw [hnil] at hs
        exact absurd hs List.not_mem_nil
      · intro hnot
        refine List.eq_nil_iff_forall_not_mem.mpr fun s hs => ?_
        have hpos := size_pos_of_mem hs
        obtain ⟨b, hb⟩ := exists_holds hs (Nat.le_refl _) (by omega)
        exact hnot _ b hb
    rw [hiff, hiff]
    exact forall₂_congr fun a b => not_congr (hholds a b)
  obtain ⟨entry, load, data⟩ := f
  obtain ⟨entry', load', data'⟩ := f'
  cases hfentry
  by_cases hempty : getIncludedSections elf = []
  · obtain ⟨rfl, rfl⟩ := inputFile_of_nil h hempty
    obtain ⟨rfl, rfl⟩ := inputFile_of_nil h' (hnil.mp hempty)
    rfl
  have himage := memoryImage_of_ne_nil h hempty
  have himage' := memoryImage_of_ne_nil h' (mt hnil.mpr hempty)
  -- Both images start at the first byte and end after the last.
  obtain ⟨b₁, hb₁⟩ := himage.exists_holds_start
  obtain ⟨b₂, hb₂⟩ := himage'.exists_holds_start
  obtain ⟨a₃, b₃, hb₃, ha₃⟩ := himage.exists_holds_stop
  obtain ⟨a₄, b₄, hb₄, ha₄⟩ := himage'.exists_holds_stop
  have hbounds₁ := himage'.holds_bounds ((hholds _ _).mp hb₁)
  have hbounds₂ := himage.holds_bounds ((hholds _ _).mpr hb₂)
  have hbounds₃ := himage'.holds_bounds ((hholds _ _).mp hb₃)
  have hbounds₄ := himage.holds_bounds ((hholds _ _).mpr hb₄)
  dsimp only at *
  obtain rfl : load = load' := BitVec.eq_of_toNat_eq (by omega)
  have hlen : data.length = data'.length := by omega
  congr 1
  refine List.ext_getElem? fun i => ?_
  by_cases hi : i < data.length
  · by_cases hex : ∃ b, Holds elf (load.toNat + i) b
    · obtain ⟨b, hb⟩ := hex
      have hbyte := himage.getElem?_of_holds hb
      have hbyte' := himage'.getElem?_of_holds ((hholds _ _).mp hb)
      dsimp only at hbyte hbyte'
      rw [Nat.add_sub_cancel_left] at hbyte hbyte'
      rw [hbyte, hbyte']
    · rw [not_exists] at hex
      exact (himage.getElem?_of_not_holds hi hex).trans (himage'.getElem?_of_not_holds (hlen ▸ hi)
        fun b hb => hex b ((hholds _ _).mpr hb)).symm
  · rw [List.getElem?_eq_none (by omega), List.getElem?_eq_none (by omega)]

/-- The second byte of IWRAM has the address of a 32-bit file. -/
theorem iwram_byte_lt : (0x03000001 : BitVec 64).toNat < 2 ^ 32 := by decide

/-- One byte of text. -/
theorem text_length : ([1] : Bytevector).length = (1 : BitVec 64).toNat := rfl

/-- `unsortedElf` with its text in two sections. -/
def dividedElf : Elf :=
  { unsortedElf with
    sections := [
      ⟨".text", 1, 6, 0x03000000, 1, [1], iwram_lt, byte_lt, text_length⟩,
      ⟨".iwram", 1, 6, 0x03000001, 1, [2], iwram_byte_lt, byte_lt, rfl⟩,
      ⟨".data", 1, 3, 0x03000004, 1, [3], iwram_word_lt, byte_lt, byte_length⟩] }

/-- The bytes from an address on: the first, and those from the next address on. -/
theorem getElem?_sub_cons {p a : ℕ} {x b : BitVec 8} {l : Bytevector} :
    (p ≤ a ∧ (x :: l)[a - p]? = some b) ↔
      (a = p ∧ x = b) ∨ (p + 1 ≤ a ∧ l[a - (p + 1)]? = some b) := by
  rcases Nat.lt_trichotomy a p with hlt | rfl | hgt
  · omega
  · simp
  · have hne : a ≠ p := by omega
    rw [show a - p = a - (p + 1) + 1 by omega, List.getElem?_cons_succ]
    simp only [hne, false_and, false_or, Nat.succ_le_iff, hgt, hgt.le, true_and]

theorem holds_unsortedElf {a : ℕ} {b : BitVec 8} : Holds unsortedElf a b ↔
    (a = 0x03000000 ∧ 1 = b) ∨ (a = 0x03000001 ∧ 2 = b) ∨ (a = 0x03000004 ∧ 3 = b) := by
  have hsections : getIncludedSections unsortedElf =
      [⟨".data", 1, 3, 0x03000004, 1, [3], iwram_word_lt, byte_lt, byte_length⟩,
        ⟨".text", 1, 6, 0x03000000, 2, [1, 2], iwram_lt, by decide, rfl⟩] := rfl
  rw [Holds, hsections]
  simp only [List.mem_cons, List.not_mem_nil, or_false, exists_eq_or_imp, exists_eq_left,
    getElem?_sub_cons, List.getElem?_nil, reduceCtorEq, and_false, BitVec.reduceToNat,
    Nat.reduceAdd]
  rw [or_comm, or_assoc]

theorem holds_dividedElf {a : ℕ} {b : BitVec 8} : Holds dividedElf a b ↔
    (a = 0x03000000 ∧ 1 = b) ∨ (a = 0x03000001 ∧ 2 = b) ∨ (a = 0x03000004 ∧ 3 = b) := by
  have hsections : getIncludedSections dividedElf = dividedElf.sections := rfl
  rw [Holds, hsections]
  simp only [dividedElf, List.mem_cons, List.not_mem_nil, or_false, exists_eq_or_imp,
    exists_eq_left, getElem?_sub_cons, List.getElem?_nil, reduceCtorEq, and_false,
    BitVec.reduceToNat]

/-- The theorem at the two files: both are loaded, and to the same image. -/
theorem inputFile_sameMemory_divided :
    ∃ f, inputFile insertionSortByAddress unsortedElf = .ok f ∧
      inputFile insertionSortByAddress dividedElf = .ok f ∧ f.data = [1, 2, 0, 0, 3] := by
  obtain ⟨f, hf, hdata⟩ : ∃ f, inputFile insertionSortByAddress unsortedElf = .ok f ∧
      f.data = [1, 2, 0, 0, 3] := ⟨_, rfl, rfl⟩
  obtain ⟨f', hf'⟩ : ∃ f', inputFile insertionSortByAddress dividedElf = .ok f' := ⟨_, rfl⟩
  obtain rfl := inputFile_sameMemory hf hf' rfl fun _ _ =>
    holds_unsortedElf.trans holds_dividedElf.symm
  exact ⟨f, hf, hf', hdata⟩

end ShrinklerGba
