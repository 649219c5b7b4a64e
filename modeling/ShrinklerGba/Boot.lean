import ShrinklerGba.Lzss.Boot
import ShrinklerGba.Output
import ShrinklerGba.PackerChoice
import ShrinklerGba.Shrinkler.Boot

/-!
# From the ELF file to the running program

What comes of a whole run of the packer: a file that the console executes.

* `InPlace elf m`: memory `m` is what the included sections of `elf` say.
* `Ready` is what the cartridge relies on: the codecs of its packer, the BIOS and the console's
  memory.
* **`pack_boots`**: the file that a run leaves unpacks the ELF file's sections and enters its
  program.
-/

namespace ShrinklerGba

open Disk Thumb Transition

/-! ## The cartridge that is written -/

theorem exists_of_mapM_eq_ok {ε α β : Type} {f : α → Except ε β} {as : List α} {bs : List β}
    (h : as.mapM f = .ok bs) : ∀ b ∈ bs, ∃ a ∈ as, f a = .ok b := by
  induction as generalizing bs with
  | nil =>
      cases h
      exact fun b hb => absurd hb List.not_mem_nil
  | cons a as ih =>
      rw [List.mapM_cons, bind_eq_ok] at h
      obtain ⟨b, hb, h⟩ := h
      obtain ⟨cs, hcs, h⟩ := bind_eq_ok.mp h
      cases h
      rw [List.forall_mem_cons]
      refine ⟨⟨a, List.mem_cons_self, hb⟩, fun c hc => ?_⟩
      obtain ⟨d, hd, hdc⟩ := ih hcs c hc
      exact ⟨d, List.mem_cons_of_mem a hd, hdc⟩

section run

variable {env : Environment} {opts : Options} {inputFile : InputFile} {c : Cartridge}
  {fs fs' : FileSystem}

/-- Only registered packers are tried. -/
theorem mem_packers_of_getPackers {ps : List Packer} (h : getPackers env opts = .ok ps) :
    ∀ p ∈ ps, ∃ name, (name, p) ∈ packers env := by
  rw [getPackers] at h
  split at h
  · obtain ⟨q, hq, h⟩ := bind_eq_ok.mp h
    cases h
    rw [getPacker] at hq
    split at hq
    · cases hq
    · rename_i pi hfind
      cases hq
      simp only [List.mem_singleton, forall_eq]
      exact ⟨pi.1, List.mem_of_find?_eq_some hfind⟩
  · cases h
    intro p hp
    obtain ⟨pi, hpi, rfl⟩ := List.mem_map.mp hp
    exact ⟨pi.1, hpi⟩

/-- The smallest cartridge is a packer's, padded. -/
theorem tryAllPackers_eq_ok (h : tryAllPackers env inputFile opts = .ok c) :
    ∃ name p c₀, (name, p) ∈ packers env ∧ p inputFile opts = .ok c₀ ∧ c = c₀.padded := by
  rw [tryAllPackers, bind_eq_ok] at h
  obtain ⟨ps, hps, h⟩ := h
  rw [bind_eq_ok] at h
  obtain ⟨cs, hcs, h⟩ := h
  split at h
  · cases h
  · rename_i smallest hsmallest
    cases h
    rw [smallestCartridge_eq_argmin] at hsmallest
    obtain ⟨p, hp, hc⟩ := exists_of_mapM_eq_ok hcs c (List.argmin_mem hsmallest)
    obtain ⟨c₀, hc₀, hc⟩ := bind_eq_ok.mp hc
    cases hc
    obtain ⟨name, hname⟩ := mem_packers_of_getPackers hps p hp
    exact ⟨name, p, c₀, hname, hc₀, rfl⟩

/-- What was loaded. -/
theorem loadInputFile_eq_ok {path : Path} (h : loadInputFile env path fs = .ok inputFile) :
    ∃ bytes elf, Disk.read env.process fs path = some bytes ∧ env.load bytes = some elf ∧
      ShrinklerGba.inputFile env.sort elf = .ok inputFile ∧ inputFile.data ≠ [] := by
  rw [loadInputFile] at h
  split at h
  case h_2 => cases h
  rename_i f hload
  cases h
  rw [tryLoadInputFile] at hload
  split at hload
  · cases hload
  · rename_i bytes hbytes
    split at hload
    · cases hload
    · rename_i elf helf
      obtain ⟨f, hf, hload⟩ := bind_eq_ok.mp hload
      obtain ⟨n, hn, hload⟩ := bind_eq_ok.mp hload
      split at hload
      · cases hload
      · rename_i hne
        cases hload
        refine ⟨bytes, elf, hbytes, helf, hf, fun hnil => hne ?_⟩
        rw [InputFile.loadedDataSize, narrow_eq_ok, hnil] at hn
        exact BitVec.eq_of_toNat_eq hn.symm

end run

/-! ## The ELF file's sections in memory -/

/-- Memory is what the included sections of an ELF file say, with zeros between them. -/
structure InPlace (elf : Elf) (m : Mem) : Prop where
  /-- Every byte of every included section is at its address. -/
  bytes : ∀ s ∈ getIncludedSections elf, ∀ i < s.size.toNat,
    m (BitVec.ofNat 32 (s.address.toNat + i)) = s.data.getD i 0
  /-- The other bytes between the first and the last are zero. -/
  gap : ∀ a, (∃ s ∈ getIncludedSections elf, s.address.toNat ≤ a) →
    (∃ s ∈ getIncludedSections elf, a < s.address.toNat + s.size.toNat) →
    (∀ s ∈ getIncludedSections elf,
      ¬(s.address.toNat ≤ a ∧ a < s.address.toNat + s.size.toNat)) → m (BitVec.ofNat 32 a) = 0

/-- The image of the file is in memory. -/
theorem Entered.inPlace {elf : Elf} {f : InputFile} {srt : SortSectionsByAddress}
    {scratch : Set Word} {s t : Cpu} (h : Entered f scratch s t)
    (hf : inputFile srt elf = .ok f) (hne : f.data ≠ []) : InPlace elf t.mem := by
  have himage := memoryImage_of_ne_nil hf fun hnil => hne (inputFile_of_nil hf hnil).1
  have hbyte (a : ℕ) (hlo : f.loadAddress.toNat ≤ a)
      (hhi : a < f.loadAddress.toNat + f.data.length) :
      t.mem (BitVec.ofNat 32 a) = f.data.getD (a - f.loadAddress.toNat) 0 := by
    rw [← h.bytes _ (by omega)]
    congr 1
    rw [← Nat.add_sub_cancel' hlo, BitVec.ofNat_add, BitVec.ofNat_toNat, BitVec.setWidth_eq,
      Nat.add_sub_cancel_left]
  refine ⟨fun s hs i hi => ?_, fun a ⟨s, hs, hsa⟩ ⟨s', hs', hsa'⟩ hgap => ?_⟩
  · have hlo := himage.le_start s hs
    have hhi := himage.stop_le s hs
    rw [hbyte _ (by omega) (by omega), List.getD_eq_getElem?_getD, Nat.sub_add_comm hlo,
      himage.covered s hs i hi, ← List.getD_eq_getElem?_getD]
  · have hlo := himage.le_start s hs
    have hhi := himage.stop_le s' hs'
    rw [hbyte a (by omega) (by omega), List.getD_eq_getElem?_getD,
      himage.gap _ (by omega) fun s'' hs'' => by
        rw [Nat.add_sub_cancel' (by omega)]
        exact hgap s'' hs'']
    rfl

/-! ## What a cartridge relies on -/

/-- Where the program is unpacked to. -/
def InputFile.range (f : InputFile) : Set Word := Thumb.range f.loadAddress f.data.length

/-- What a cartridge of the LZSS packer relies on. -/
structure LzssReady (env : Environment) (f : InputFile) (rom : Bytevector) (B : Board)
    (own : Set Word) (lzssData : Bytevector) : Prop where
  /-- What the program is compressed to. -/
  compressed : Lzss.lzssCompress env.agbpack f.data = .ok lzssData
  /-- The BIOS decompresses what agbpack's Huffman decoder decodes. -/
  huffman : Lzss.Decompresses env.agbpack.huffmanDecode 4 own (B.swi swiHuffUncomp)
  /-- The BIOS decompresses what agbpack's LZSS decoder decodes. -/
  lzss : Lzss.Decompresses env.agbpack.lzssDecode 1 own (B.swi swiLz77UncompWram)
  /-- The program does not wrap around the address space. -/
  stop : f.loadAddress.toNat + f.data.length ≤ 2 ^ 32
  /-- The compressed data fit into EWRAM, off the program. -/
  buffer : Lzss.FitsEwram f (.ofNat 32 lzssData.length)
  /-- What the BIOS uses is off both. -/
  bios : Disjoint own
    (Thumb.range (Lzss.lzssDepackBuffer (.ofNat 32 lzssData.length)) lzssData.length ∪ f.range)
  /-- None of it is in the ROM. -/
  rom : Disjoint (Thumb.range (BitVec.ofNat 32 romStart) rom.length)
    (f.range ∪ Lzss.scratch lzssData own)

/-- What a cartridge of the Shrinkler packer relies on, whose decoder reads no more than `ahead`
bytes behind the compressed program. -/
structure ShrinklerReady (env : Environment) (f : InputFile) (rom : Bytevector) (s : Cpu)
    (ahead : ℕ) : Prop where
  /-- The plain decoder unpacks what libshrinkler returns. -/
  unpacks : ∀ compressed hint, env.shrinkler f.data = .ok (compressed, hint) →
    Shrinkler.UnpacksTo f.loadAddress compressed f.data ahead
  /-- The program is off the stack. -/
  stack : Disjoint f.range (Thumb.range (s.sp - 4120) 4120)
  /-- Neither is in the ROM or in what is read behind it. -/
  rom : Disjoint (Thumb.range (BitVec.ofNat 32 romStart) (rom.length + ahead))
    (Thumb.range (s.sp - 4120) 4120 ∪ f.range)

/-- What a cartridge relies on, and the memory that its depacker uses besides the program's. -/
inductive Ready (env : Environment) (opts : Options) (f : InputFile) (c : Cartridge) (B : Board)
    (s : Cpu) : (work : Set Word) → Prop
  /-- It is the LZSS packer's. -/
  | lzss {own : Set Word} {lzssData : Bytevector} (hpacker : c.packer = "LZSS-H4")
      (h : LzssReady env f c.data B own lzssData) :
      Ready env opts f c B s (Lzss.scratch lzssData own)
  /-- It is the Shrinkler packer's, without debug checks. -/
  | shrinkler {ahead : ℕ} (hpacker : c.packer = "Shrinkler") (hdebug : opts.debugChecks = false)
      (h : ShrinklerReady env f c.data s ahead) :
      Ready env opts f c B s (Thumb.range (s.sp - 4120) 4120)

/-- A ROM unpacks a program and enters it. -/
def Boots (B : Board) (f : InputFile) (work : Set Word) (s t : Cpu) : Prop :=
  Passes B.step (fun u => Set.EqOn u.mem s.mem (f.range ∪ work)ᶜ) s t ∧ Entered f work s t

section boots

variable {env : Environment} {opts : Options} {f : InputFile} {c : Cartridge}

/-- **A registered packer's cartridge boots**, and padding does not change that. -/
theorem boots_of_mem_packers {name : String} {p : Packer} (hp : (name, p) ∈ packers env)
    (hc : p f opts = .ok c) :
    BootableRom c.data c.padded.data ∧ ∀ B s work, Ready env opts f c.padded B s work →
      PoweredOn c.padded.data s → ∃ t, Boots B f work s t := by
  obtain ⟨padding, hpadding⟩ := fixCartridge_eq_append c.data
  have hdata : c.data <+: c.padded.data := ⟨padding, hpadding.symm⟩
  have hrange (ahead : ℕ) : Thumb.range (BitVec.ofNat 32 romStart) (c.data.length + ahead) ⊆
      Thumb.range (BitVec.ofNat 32 romStart) (c.padded.data.length + ahead) :=
    range_subset (by rw [BitVec.sub_self]; simpa using hdata.length_le)
  simp only [packers, List.mem_cons, Prod.mk.injEq, List.not_mem_nil, or_false] at hp
  rcases hp with ⟨-, rfl⟩ | ⟨-, rfl⟩
  · obtain ⟨-, -, config, -, -, -, -, -, hcartridge, hname⟩ := Lzss.pack_eq_ok hc
    refine ⟨?_, fun B s work hready hs => ?_⟩
    · have hbootable := (lzss_bootable config ⟨opts.codeInHeader⟩).2.2
      rwa [← hcartridge] at hbootable
    cases hready with
    | lzss _ h =>
        exact Lzss.cartridge_boots hc h.compressed h.buffer h.stop h.huffman h.lzss hs hdata
          (h.rom.mono_left (hrange 0)) h.bios
    | shrinkler hpacker => exact absurd (hpacker.symm.trans hname) (by decide)
  · obtain ⟨compressed, hint, size, hcompressed, hassembler, hname⟩ := Shrinkler.pack_eq_ok hc
    obtain ⟨config, -, hcartridge⟩ := Shrinkler.shrinklerCartridgeAssembler_eq_ok hassembler
    refine ⟨?_, fun B s work hready hs => ?_⟩
    · have hbootable := (shrinkler_bootable config ⟨opts.codeInHeader, opts.debugChecks⟩).2.2
      rwa [← hcartridge] at hbootable
    cases hready with
    | lzss hpacker => exact absurd (hpacker.symm.trans hname) (by decide)
    | shrinkler _ hdebug h =>
        exact Shrinkler.cartridge_boots (B := B) hassembler hdebug (h.unpacks _ _ hcompressed) hs
          hdata h.stack (h.rom.mono_left (hrange _))

end boots

/-! ## The whole run -/

/-- **What the packer leaves is what the console runs.** After a run without an error, whose last
bytes were not lost, the output file is a bootable ROM, and a console that starts at its first word
comes to the entry point of the ELF file, with the file's sections in memory at their addresses. -/
theorem pack_boots {env : Environment} {opts : Options} {fs fs' : FileSystem}
    (h : pack env opts fs = (.ok (), fs'))
    (hkept : ∀ c, packCartridge env opts fs = .ok c →
      Fits env.roomAtClose (bufferedBytes env c.data)) :
    ∃ bytes elf f c image, Disk.read env.process fs opts.inputFile = some bytes ∧
      env.load bytes = some elf ∧ inputFile env.sort elf = .ok f ∧
      packCartridge env opts fs = .ok c ∧ OnDisk env.process fs' opts.outputFile c.data ∧
      BootableRom image c.data ∧
      ∀ B s work, Ready env opts f c B s work → PoweredOn c.data s →
        ∃ t, Boots B f work s t ∧ t.pc = f.entry &&& ~~~1 ∧ elf.entry.toNat = f.entry.toNat ∧
          InPlace elf t.mem := by
  rw [pack] at h
  split at h
  · cases h
  rename_i c hc
  have hkept := hkept c hc
  obtain ⟨f, hf, htry⟩ := bind_eq_ok.mp hc
  obtain ⟨bytes, elf, hbytes, helf, hinput, hne⟩ := loadInputFile_eq_ok hf
  obtain ⟨name, p, c₀, hp, hc₀, rfl⟩ := tryAllPackers_eq_ok htry
  obtain ⟨hbootable, hboots⟩ := boots_of_mem_packers hp hc₀
  obtain ⟨fs₁, id, hopen, hwritten, rfl⟩ := writeToDisk_eq_ok.mp h
  have hdisk := closedOutput_onDisk c₀.padded.data hopen
  rw [accept_of_fits hwritten, accept_of_fits hkept, flushed_append_buffered] at hdisk
  refine ⟨bytes, elf, f, c₀.padded, c₀.data, hbytes, helf, hinput, hc, hdisk, hbootable,
    fun B s work hready hs => ?_⟩
  obtain ⟨t, ht⟩ := hboots B s work hready hs
  obtain ⟨-, hentry, -⟩ := inputFile_eq_ok hinput
  exact ⟨t, ht, ht.2.pc, hentry, ht.2.inPlace hinput hne⟩

/-- The first address of EWRAM is that of a 32-bit file. -/
theorem ewram_lt : (0x02000000 : BitVec 64).toNat < 2 ^ 32 := by decide

/-- So is a size of five bytes. -/
theorem five_bytes_lt : (5 : BitVec 64).toNat < 2 ^ 32 := by decide

/-- An ELF file with a section of five bytes. -/
def copiesElf : Elf where
  elfClass := 1
  encoding := 1
  type := 2
  machine := 40
  elfVersion := 1
  osAbi := 0
  abiVersion := 0
  version := 1
  entry := 0x02000000
  sections := [⟨".text", 1, 6, 0x02000000, 5, [0x5f, 0x5f, 0x5f, 0x5f, 0x5f], ewram_lt,
    five_bytes_lt, rfl⟩]

/-- Surroundings in which both packers can compress these bytes. -/
def copiesEnvironment : Environment where
  load := fun _ => some copiesElf
  sort := insertionSortByAddress
  agbpack := Lzss.copiesAgbpack
  shrinkler := Shrinkler.copiesEncode

/-- The file system after the run. -/
def inputAndOutput : FileSystem := (pack copiesEnvironment bestOptions inputOnly).2

/-- The LZSS packer's cartridge is the smaller one. -/
theorem copies_packCartridge :
    packCartridge copiesEnvironment bestOptions inputOnly = .ok Lzss.copiesCartridge := by
  decide +kernel

theorem pack_boots_copies : ∃ t, Boots Lzss.copiesBoard Lzss.copies
    (Lzss.scratch Lzss.copiesLzss (Thumb.range 0x03007fa0 0x40)) Lzss.copiesStart t ∧
    InPlace copiesElf t.mem := by
  have hok : (pack copiesEnvironment bestOptions inputOnly).1 = .ok () := by decide +kernel
  have hrun : pack copiesEnvironment bestOptions inputOnly = (.ok (), inputAndOutput) :=
    Prod.ext hok (by rw [inputAndOutput])
  obtain ⟨bytes, elf, f, c, image, -, helf, hf, hc, -, -, hboots⟩ := pack_boots hrun
    fun c _ n hn => absurd hn (by simp [copiesEnvironment])
  cases helf
  obtain rfl : Lzss.copies = f := Except.ok.inj (hf.symm.trans rfl).symm
  obtain rfl : Lzss.copiesCartridge = c := Except.ok.inj (copies_packCartridge.symm.trans hc)
  obtain ⟨hhuffman, hlzss⟩ := Lzss.copies_decompresses (Thumb.range 0x03007fa0 0x40)
  obtain ⟨t, ht, -, -, hplace⟩ := hboots Lzss.copiesBoard Lzss.copiesStart _
    (.lzss rfl ⟨Lzss.copies_lzssCompress, hhuffman, hlzss, by decide, Lzss.copies_fitsEwram,
      Lzss.copies_bios, Lzss.copies_rom⟩) Lzss.copies_poweredOn
  exact ⟨t, ht, hplace⟩

end ShrinklerGba
