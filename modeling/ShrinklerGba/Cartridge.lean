import Mathlib.Data.List.DropRight
import ShrinklerGba.Lzss.Packer
import ShrinklerGba.Shrinkler.Program

/-!
# Finished cartridges

What a cartridge needs to boot and to survive EZF Advance, which strips trailing `0xff` bytes, and
that the cartridges of both packers have it.

* `BootableRom image rom`: the logo, the fixed byte and the checksum of `rom` are right, `rom`
  starts with `image`, and nothing of it is stripped.
* `HeaderImage data`: the logo and the fixed byte are in place before the checksum is written.
* `HeaderImage.bootable`: adjusting any byte of the checksum area but the fixed byte makes a
  bootable cartridge.
* **`cartridges_bootable`**: both packers' cartridges are bootable, in all configurations.
* `PoweredOn` and `Entered` are the processor's states before and after it executes a depacker.
-/

namespace ShrinklerGba

open Thumb

/-- Source: `pack.cpp`, `fix_cartridge_for_ezf_advance` (the word appended is `Tom!`). -/
def fixCartridgeForEzfAdvance (cartridgeData : Bytevector) : Bytevector :=
  if cartridgeData.length ≠ 0 ∧ cartridgeData.getLast? = some 0xff then
    cartridgeData ++ [0x54, 0x6f, 0x6d, 0x21]
  else cartridgeData

/-- A ROM that boots and survives EZF Advance. -/
structure BootableRom (image rom : Bytevector) : Prop where
  /-- The ROM starts with the whole image. -/
  image : image <+: rom
  /-- The bytes 0x04 to 0x9f are the logo. -/
  logo : (rom.drop 0x04).take (0xa0 - 0x04) = nintendoLogo
  /-- The fixed byte is right. -/
  fixedByte : rom[ofsFixedByte]? = some fixedByteValue
  /-- The checksummed bytes sum with 0x19 to zero. -/
  checksum : headerSum rom + 0x19 = 0
  /-- Removing trailing 0xff bytes removes nothing. -/
  ezfAdvance : rom.rdropWhile (· = 0xff) = rom

/-- The logo and the fixed byte are in place, and the checksum area is there. -/
structure HeaderImage (data : Bytevector) : Prop where
  /-- The bytes 0x04 to 0x9f are the logo. -/
  logo : (data.drop 0x04).take (0xa0 - 0x04) = nintendoLogo
  /-- The fixed byte is right. -/
  fixedByte : data[ofsFixedByte]? = some fixedByteValue
  /-- The complement byte is there. -/
  length : ofsComplement < data.length

/-! ## From the header image to the cartridge -/

section fix

variable {data : Bytevector}

theorem fixCartridge_eq_append (data : Bytevector) :
    ∃ padding, fixCartridgeForEzfAdvance data = data ++ padding := by
  unfold fixCartridgeForEzfAdvance
  split
  · exact ⟨_, rfl⟩
  · exact ⟨[], (List.append_nil data).symm⟩

theorem fixCartridge_getElem? {i : ℕ} (hi : i < data.length) :
    (fixCartridgeForEzfAdvance data)[i]? = data[i]? := by
  obtain ⟨padding, h⟩ := fixCartridge_eq_append data
  rw [h, List.getElem?_append_left hi]

theorem fixCartridge_headerSum (h : ofsComplement < data.length) :
    headerSum (fixCartridgeForEzfAdvance data) = headerSum data := by
  unfold headerSum
  refine Finset.sum_congr rfl fun i hi => ?_
  have hi' : ofsGameTitle + i < data.length := by
    simp only [Finset.mem_range, checksumAreaSize, ofsComplement, ofsGameTitle] at *
    omega
  rw [List.getD_eq_getElem?_getD, List.getD_eq_getElem?_getD, fixCartridge_getElem? hi']

/-- A padded cartridge does not end with 0xff. -/
theorem fixCartridge_rdropWhile (data : Bytevector) :
    (fixCartridgeForEzfAdvance data).rdropWhile (· = 0xff) = fixCartridgeForEzfAdvance data := by
  rw [List.rdropWhile_eq_self_iff]
  intro hne
  unfold fixCartridgeForEzfAdvance at hne ⊢
  split at hne <;> rename_i h
  · simp [h]
  · simp only [h, if_false] at hne ⊢
    simp only [decide_eq_true_eq]
    intro hlast
    have hlen : data.length ≠ 0 := fun h0 => hne (List.length_eq_zero_iff.mp h0)
    exact h ⟨hlen, by rw [List.getLast?_eq_some_getLast hne, hlast]⟩

theorem take_drop_congr {l l' : Bytevector} {m n : ℕ} (h : ∀ i < m + n, l'[i]? = l[i]?) :
    (l'.drop m).take n = (l.drop m).take n := by
  refine List.ext_getElem? fun i => ?_
  rw [List.getElem?_take, List.getElem?_take]
  split
  · rw [List.getElem?_drop, List.getElem?_drop, h _ (by omega)]
  · rfl

/-- **Adjusting any byte of the checksum area but the fixed byte makes a bootable cartridge.** -/
theorem HeaderImage.bootable (h : HeaderImage data) {k : ℕ} (hk : k < checksumAreaSize)
    (hfixed : ofsGameTitle + k ≠ ofsFixedByte) :
    throwIfFixedByteWrong (writeComplement data (ofsGameTitle + k)) = .ok () ∧
    throwIfComplementWrong (writeComplement data (ofsGameTitle + k)) = .ok () ∧
    BootableRom (writeComplement data (ofsGameTitle + k))
      (fixCartridgeForEzfAdvance (writeComplement data (ofsGameTitle + k))) := by
  have hlen := h.length
  have hk' : ofsGameTitle + k ≤ ofsComplement := by
    simp only [checksumAreaSize, ofsComplement, ofsGameTitle] at *
    omega
  have hlen' : ofsComplement < (writeComplement data (ofsGameTitle + k)).length := by
    rwa [writeComplement_length]
  have hkeep : ∀ i < ofsGameTitle,
      (writeComplement data (ofsGameTitle + k))[i]? = data[i]? :=
    fun i hi => writeComplement_getElem?_ne data (Nat.le_add_right _ _) (by omega)
  have hfix : (writeComplement data (ofsGameTitle + k))[ofsFixedByte]? = some fixedByteValue := by
    rw [writeComplement_getElem?_ne data (Nat.le_add_right _ _) hfixed.symm, h.fixedByte]
  have hsum := writeComplement_sum data hk (by omega)
  refine ⟨throwIfFixedByteWrong_eq_ok.mpr hfix, (throwIfComplementWrong_eq_ok hlen').mpr hsum, ?_⟩
  refine ⟨?_, ?_, ?_, ?_, fixCartridge_rdropWhile _⟩
  · obtain ⟨padding, hpad⟩ := fixCartridge_eq_append (writeComplement data (ofsGameTitle + k))
    rw [hpad]
    exact List.prefix_append _ _
  · rw [← h.logo]
    refine take_drop_congr fun i hi => ?_
    have hi' : i < ofsGameTitle := by simpa [ofsGameTitle] using hi
    rw [fixCartridge_getElem? (by omega), hkeep i hi']
  · rw [fixCartridge_getElem? (by simp only [ofsComplement, ofsFixedByte] at *; omega), hfix]
  · rw [fixCartridge_headerSum hlen', hsum]

end fix

/-! ## The header images of the packers -/

/-- The logo lies after the branch. -/
theorem link_logo {ss post : List (Stmt Label)} {l : Label}
    (hss : ss = .armBranch l :: .bytes nintendoLogo :: post) :
    ((link ss).drop 0x04).take (0xa0 - 0x04) = nintendoLogo := by
  have hlogo : nintendoLogo.length = 0xa0 - 0x04 := rfl
  rw [hss, link, emitAll, emitAll, List.drop_append_of_le_length (by simp [emit])]
  simp only [emit, ← hlogo]
  rw [List.drop_of_length_le (by simp), List.nil_append,
    List.take_append_of_le_length (Nat.le_refl _), List.take_length]

/-- A program has a header image when its assertions hold, the logo follows the branch, and one of
the two statements that hold the fixed byte follows the assertion about it. -/
theorem headerImage_of_program {ss post rest : List (Stmt Label)} {l : Label} {what : String}
    {s : Stmt Label} (k : ℕ) (hok : failedAssertion 0 [] ss = none)
    (hlogo : ss = .armBranch l :: .bytes nintendoLogo :: rest)
    (hfixed : ss.drop k = .assertLc ofsFixedByte what :: s :: post)
    (hs : s = .bytes [fixedByteValue] ∨ ∃ rd, s = .instr (.movImm rd fixedByteValue))
    (hlen : ofsComplement < locate 0 [] ss) : HeaderImage (link ss) := by
  refine ⟨link_logo hlogo, ?_, by rwa [link_length]⟩
  have hss : ss = ss.take k ++ .assertLc ofsFixedByte what :: s :: post := by
    rw [← hfixed, List.take_append_drop]
  have hsize : 0 < s.size ofsFixedByte (pendingAfter [] (ss.take k)) := by
    rcases hs with rfl | ⟨rd, rfl⟩ <;> simp [Stmt.size, Instr.size]
  rw [← Nat.add_zero ofsFixedByte, link_getElem?_of_assertLc hok hss hsize]
  rcases hs with rfl | ⟨rd, rfl⟩
  · rfl
  · exact emit_movImm _ _ _ _ _ _

/-- What follows an assertion is within the program. -/
theorem lt_locate_of_assertLc {ss post : List (Stmt Label)} {n i : ℕ} {what : String}
    {s : Stmt Label} (k : ℕ) (hok : failedAssertion 0 [] ss = none)
    (hss : ss.drop k = .assertLc n what :: s :: post)
    (hi : i < s.size n (pendingAfter [] (ss.take k))) : n + i < locate 0 [] ss := by
  have hss' : ss = ss.take k ++ .assertLc n what :: s :: post := by
    rw [← hss, List.take_append_drop]
  have h := link_getElem?_of_assertLc hok hss' hi
  rw [List.getElem?_eq_getElem (l := emit _ _ _ _ _) (by rwa [emit_length])] at h
  rw [← link_length]
  exact (List.getElem?_eq_some_iff.mp h).1

section programs

attribute [local simp] emitNintendoLogo emitRemainingHeader Stmt.size Instr.size Stmt.padding
  ofsGameTitle ofsFixedByte ofsDeviceType ofsGameVersion ofsComplement ofsReserved2

set_option maxRecDepth 2000 in
theorem nintendoLogo_length : nintendoLogo.length = 156 := rfl

set_option maxRecDepth 2000 in
open Shrinkler in
/-- No assertion about the location counter fails in the Shrinkler packer. -/
theorem shrinkler_failedAssertion (c : Shrinkler.Config) :
    failedAssertion 0 [] (Shrinkler.program c) = none := by
  obtain ⟨⟨codeInHeader, debugChecks⟩, v, load, entry, size, checksum, compressed⟩ := c
  cases codeInHeader <;> cases debugChecks <;>
    simp [failedAssertion, Shrinkler.program, Shrinkler.depacker, header, getbitCode, startCode,
      mainCode, exitCode, getnumberCode, debugCheckDecompressedDataSize, debugCheckDecompressedData,
      debugCheckSpOnExit, debugCallPanicRoutine, debugEmitPanicRoutine, nintendoLogo_length]

theorem shrinkler_headerImage (c : Shrinkler.Config) :
    HeaderImage (link (Shrinkler.program c)) := by
  have hok := shrinkler_failedAssertion c
  obtain ⟨⟨codeInHeader, debugChecks⟩, v, load, entry, size, checksum, compressed⟩ := c
  cases codeInHeader with
  | false =>
      exact headerImage_of_program 7 hok rfl rfl (.inl rfl)
        (lt_locate_of_assertLc 15 (i := 0) hok rfl (by simp))
  | true =>
      exact headerImage_of_program 17 hok rfl rfl (.inr ⟨.r2, rfl⟩)
        (lt_locate_of_assertLc 25 (i := 1) hok rfl (by simp))

open Lzss in
/-- No assertion about the location counter fails in the LZSS packer. -/
theorem lzss_failedAssertion (c : Lzss.Config) : failedAssertion 0 [] (Lzss.program c) = none := by
  obtain ⟨⟨codeInHeader⟩, buffer, load, entry, compressed⟩ := c
  cases codeInHeader <;>
    simp [failedAssertion, Lzss.program, Lzss.depacker, ofsComplementIfCodeInHeader,
      nintendoLogo_length]

/-- With code in the header, the literal pool covers the complement byte. -/
theorem lzss_pool_covers (c : Lzss.Config) (h : c.codeInHeader = true) :
    ofsComplement < locate 0 [] (Lzss.program c) := by
  obtain ⟨⟨codeInHeader⟩, buffer, load, entry, compressed⟩ := c
  cases h
  have hmem : buffer ∈ pendingAfter [buffer]
      [.instr (.ldrLit .r0 buffer), .instr (.ldrLit .r1 load),
        (.instr (.ldrLit .r0 entry) : Stmt Label)] :=
    mem_pendingAfter List.mem_cons_self (by simp)
  have hpos := List.length_pos_of_mem hmem
  simp [locate, Lzss.program, Lzss.depacker, nintendoLogo_length, Stmt.pending,
    pendingAfter] at hpos ⊢
  omega

theorem lzss_headerImage (c : Lzss.Config) : HeaderImage (link (Lzss.program c)) := by
  have hok := lzss_failedAssertion c
  cases hc : c.codeInHeader with
  | false =>
      obtain ⟨⟨codeInHeader⟩, buffer, load, entry, compressed⟩ := c
      cases hc
      exact headerImage_of_program 7 hok rfl rfl (.inl rfl)
        (lt_locate_of_assertLc 15 (i := 0) hok rfl (by simp))
  | true =>
      have hlen := lzss_pool_covers c hc
      obtain ⟨⟨codeInHeader⟩, buffer, load, entry, compressed⟩ := c
      cases hc
      exact headerImage_of_program 11 hok rfl rfl (.inr ⟨.r2, rfl⟩) hlen

end programs

/-! ## In the console -/

/-- The processor is about to enter the cartridge, whose ROM starts with `rom`. -/
structure PoweredOn (rom : Bytevector) (s : Cpu) : Prop where
  /-- At the first word of the ROM. -/
  pc : s.pc = BitVec.ofNat 32 romStart
  /-- In ARM state. -/
  thumb : s.thumb = false
  /-- The stack pointer is aligned. -/
  sp : s.sp.toNat % 4 = 0
  /-- The ROM is in memory. -/
  rom : ∀ j < rom.length, s.mem (BitVec.ofNat 32 (romStart + j)) = rom.getD j 0

/-- Memory with nothing but a ROM. -/
def romMemory (rom : Bytevector) : Mem := fun a => rom.getD (a.toNat - romStart) 0

theorem romMemory_apply {rom : Bytevector} (h : rom.length ≤ 0x02000000) (j : ℕ)
    (hj : j < rom.length) : romMemory rom (BitVec.ofNat 32 (romStart + j)) = rom.getD j 0 := by
  rw [romMemory, BitVec.toNat_ofNat, Nat.mod_eq_of_lt (by rw [romStart]; omega),
    Nat.add_sub_cancel_left]

/-- The processor has entered a program. -/
structure Entered (inputFile : InputFile) (scratch : Set Word) (s t : Cpu) : Prop where
  /-- At the entry point. -/
  pc : t.pc = inputFile.entry &&& ~~~1
  /-- In the state that the entry point says. -/
  thumb : t.thumb = inputFile.entry.getLsbD 0
  /-- The stack pointer is what it was. -/
  sp : t.sp = s.sp
  /-- The program is where it belongs. -/
  bytes : ∀ i < inputFile.data.length,
    t.mem (inputFile.loadAddress + BitVec.ofNat 32 i) = inputFile.data.getD i 0
  /-- The rest of memory is what it was, but for what the depacker used. -/
  rest : Set.EqOn t.mem s.mem (range inputFile.loadAddress inputFile.data.length ∪ scratch)ᶜ

/-! ## Both packers -/

theorem assemble_eq_ok {ss : List (Stmt Label)} (hok : failedAssertion 0 [] ss = none) :
    assemble ss = .ok (link ss) := by
  rw [assemble, hok]

/-- The Shrinkler packer's checks pass and its cartridge is bootable. -/
theorem shrinkler_bootable (c : Shrinkler.Config) (options : Shrinkler.Options) :
    throwIfFixedByteWrong (writeComplement (link (Shrinkler.program c))
      (Shrinkler.complementOffset options)) = .ok () ∧
    throwIfComplementWrong (writeComplement (link (Shrinkler.program c))
      (Shrinkler.complementOffset options)) = .ok () ∧
    BootableRom (writeComplement (link (Shrinkler.program c)) (Shrinkler.complementOffset options))
      (fixCartridgeForEzfAdvance
        (writeComplement (link (Shrinkler.program c)) (Shrinkler.complementOffset options))) := by
  unfold Shrinkler.complementOffset
  split
  · exact (shrinkler_headerImage c).bootable (k := 0x1c) (by decide) (by decide)
  · exact (shrinkler_headerImage c).bootable (k := 0x1d) (by decide) (by decide)

/-- The LZSS packer's checks pass and its cartridge is bootable. -/
theorem lzss_bootable (c : Lzss.Config) (options : Lzss.Options) :
    throwIfFixedByteWrong (writeComplement (link (Lzss.program c))
      (Lzss.complementOffset options)) = .ok () ∧
    throwIfComplementWrong (writeComplement (link (Lzss.program c))
      (Lzss.complementOffset options)) = .ok () ∧
    BootableRom (writeComplement (link (Lzss.program c)) (Lzss.complementOffset options))
      (fixCartridgeForEzfAdvance
        (writeComplement (link (Lzss.program c)) (Lzss.complementOffset options))) := by
  unfold Lzss.complementOffset
  split
  · exact (lzss_headerImage c).bootable (k := 0x1a) (by decide) (by decide)
  · exact (lzss_headerImage c).bootable (k := 0x1d) (by decide) (by decide)

theorem shrinkler_config_eq_ok {inputFile : InputFile} (compressed : Bytevector)
    {options : Shrinkler.Options} (hload : inputFile.loadAddress.toNat < 2 ^ 31)
    (hentry : inputFile.entry.toNat < 2 ^ 31)
    (hsize : options.debugChecks = true → inputFile.data.length < 2 ^ 31) :
    ∃ c, Shrinkler.config inputFile compressed options = .ok c := by
  have hl : narrowInt32 inputFile.loadAddress = .ok inputFile.loadAddress := if_pos hload
  have he : narrowInt32 inputFile.entry = .ok inputFile.entry := if_pos hentry
  cases hd : options.debugChecks with
  | false =>
      exact ⟨_, by
        simp only [Shrinkler.config, hl, he, hd, bind, Except.bind, Bool.false_eq_true, if_false]
        rfl⟩
  | true =>
      have hlen := hsize hd
      have hn : inputFile.loadedDataSize = .ok (BitVec.ofNat 32 inputFile.data.length) :=
        if_pos (by omega)
      have hs : narrowInt32 (BitVec.ofNat 32 inputFile.data.length) =
          .ok (BitVec.ofNat 32 inputFile.data.length) :=
        if_pos (by rw [BitVec.toNat_ofNat]; omega)
      exact ⟨_, by
        simp only [Shrinkler.config, hl, he, hd, hn, hs, bind, Except.bind, if_true]
        rfl⟩

/-- The Shrinkler packer's constructor succeeds. -/
theorem shrinklerCartridgeAssembler_ok (inputFile : InputFile) (compressed : Bytevector)
    (options : Shrinkler.Options) (hload : inputFile.loadAddress.toNat < 2 ^ 31)
    (hentry : inputFile.entry.toNat < 2 ^ 31)
    (hsize : options.debugChecks = true → inputFile.data.length < 2 ^ 31) :
    ∃ data size, Shrinkler.shrinklerCartridgeAssembler inputFile compressed options =
      .ok (data, size) ∧ BootableRom data (fixCartridgeForEzfAdvance data) := by
  obtain ⟨c, hc⟩ := shrinkler_config_eq_ok compressed hload hentry hsize
  obtain ⟨hfixed, hcomplement, hboot⟩ := shrinkler_bootable c options
  refine ⟨_, locate 0 [] (Shrinkler.depacker c) - gbaHeaderSize, ?_, hboot⟩
  simp only [Shrinkler.shrinklerCartridgeAssembler, hc,
    assemble_eq_ok (shrinkler_failedAssertion c), hfixed, hcomplement, bind, Except.bind]

/-- The LZSS packer's constructor succeeds. -/
theorem lzssCartridgeAssembler_ok (inputFile : InputFile) (compressed : Bytevector)
    (options : Lzss.Options) (lzssDepackBuffer : Word)
    (hload : inputFile.loadAddress.toNat < 2 ^ 31) (hentry : inputFile.entry.toNat < 2 ^ 31) :
    ∃ data size, Lzss.lzssCartridgeAssembler inputFile compressed options lzssDepackBuffer =
      .ok (data, size) ∧ BootableRom data (fixCartridgeForEzfAdvance data) := by
  have hl : narrowInt32 inputFile.loadAddress = .ok inputFile.loadAddress := if_pos hload
  have he : narrowInt32 inputFile.entry = .ok inputFile.entry := if_pos hentry
  obtain ⟨c, hc⟩ : ∃ c, Lzss.config inputFile compressed options lzssDepackBuffer = .ok c :=
    ⟨_, by
      simp only [Lzss.config, hl, he, bind, Except.bind]
      rfl⟩
  obtain ⟨hfixed, hcomplement, hboot⟩ := lzss_bootable c options
  refine ⟨_, locate 0 [] (Lzss.depacker c) - gbaHeaderSize, ?_, hboot⟩
  simp only [Lzss.lzssCartridgeAssembler, hc, assemble_eq_ok (lzss_failedAssertion c),
    hfixed, hcomplement, bind, Except.bind]

/-- **Every cartridge of both packers is bootable**: assembling succeeds, neither check of the
finished cartridge throws, and the fixed ROM boots and survives EZF Advance. -/
theorem cartridges_bootable (inputFile : InputFile) (compressed : Bytevector)
    (hload : inputFile.loadAddress.toNat < 2 ^ 31) (hentry : inputFile.entry.toNat < 2 ^ 31) :
    (∀ options : Shrinkler.Options,
      (options.debugChecks = true → inputFile.data.length < 2 ^ 31) →
      ∃ data size, Shrinkler.shrinklerCartridgeAssembler inputFile compressed options =
          .ok (data, size) ∧ BootableRom data (fixCartridgeForEzfAdvance data)) ∧
    (∀ (options : Shrinkler.Options) (c : Shrinkler.Config) (data : Bytevector),
      Shrinkler.config inputFile compressed options = .ok c →
      assemble (Shrinkler.program c) = .ok data →
      throwIfFixedByteWrong (writeComplement data (Shrinkler.complementOffset options)) = .ok () ∧
      throwIfComplementWrong (writeComplement data (Shrinkler.complementOffset options)) = .ok ()) ∧
    (∀ (options : Lzss.Options) (lzssDepackBuffer : Word),
      ∃ data size, Lzss.lzssCartridgeAssembler inputFile compressed options lzssDepackBuffer =
          .ok (data, size) ∧ BootableRom data (fixCartridgeForEzfAdvance data)) := by
  refine ⟨fun options hsize =>
      shrinklerCartridgeAssembler_ok inputFile compressed options hload hentry hsize,
    fun options c data _ hdata => ?_,
    fun options buffer =>
      lzssCartridgeAssembler_ok inputFile compressed options buffer hload hentry⟩
  rw [assemble_eq_ok (shrinkler_failedAssertion c), Except.ok.injEq] at hdata
  obtain ⟨hfixed, hcomplement, -⟩ := shrinkler_bootable c options
  rw [← hdata]
  exact ⟨hfixed, hcomplement⟩

/-- The theorem at an input file in IWRAM whose entry is its first byte. -/
theorem cartridges_bootable_iwram :
    ∃ data size, Shrinkler.shrinklerCartridgeAssembler ⟨0x03000000, 0x03000000, [0]⟩ [0xff] {} =
      .ok (data, size) ∧ BootableRom data (fixCartridgeForEzfAdvance data) :=
  (cartridges_bootable ⟨0x03000000, 0x03000000, [0]⟩ [0xff] (by decide) (by decide)).1 {}
    (by decide)

end ShrinklerGba
