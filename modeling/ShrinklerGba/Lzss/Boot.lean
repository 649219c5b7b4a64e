import Mathlib.Data.List.GetD
import ShrinklerGba.Lzss.Buffer
import ShrinklerGba.Thumb.Processor

/-!
# Booting the LZSS cartridge

What the processor does with the bytes of a finished cartridge, where the BIOS decompresses what
agbpack decodes.

* `Decompresses` is what is documented of a decompression function of the BIOS.
* `Loaded` says that the linked program is in memory, but for the byte that is adjusted.
* **`lzss_boots`**: from its first word on, the cartridge unpacks the program to its load address
  and enters it.
-/

namespace ShrinklerGba.Lzss

open Thumb Transition

/-! ## All instructions can be encoded -/

/-- The statements before the literal pool. -/
def beforePool (c : Config) : List (Stmt Label) :=
  ([.armBranch .codeStart] : List (Stmt Label)) ++ emitNintendoLogo ++
  (if c.codeInHeader then [] else emitRemainingHeader) ++
  ([.assertAligned 2,
    .align 2,
    .label .codeStart,
    .instr (.armToThumb .r0),
    .instr (.adr .r0 .packedIntro),
    .instr (.ldrLit .r1 c.lzssDepackBuffer),
    .instr (.swi swiHuffUncomp),
    .instr (.ldrLit .r0 c.lzssDepackBuffer),
    .instr (.ldrLit .r1 c.loadAddress)] : List (Stmt Label)) ++
  (if c.codeInHeader then
    [.assertLc ofsFixedByte "fixed byte",
     .instr (.movImm .r2 fixedByteValue)]
   else []) ++
  ([.instr (.swi swiLz77UncompWram),
    .instr (.ldrLit .r0 c.entry),
    .instr (.bx .r0)] : List (Stmt Label)) ++
  (if c.codeInHeader then
    [.assertLc ofsComplementIfCodeInHeader "complement if depacker code is in ROM header",
     .hword 0xffff,
     .assertLc ofsGameVersion "game version"]
   else []) ++
  [.assertAligned 2]

/-- The statements after the literal pool. -/
def afterPool (c : Config) : List (Stmt Label) :=
  [.assertAligned 2, .label .packedIntro, .bytes c.compressedBinary]

theorem program_eq (c : Config) : program c = beforePool c ++ .pool :: afterPool c := by
  cases h : c.codeInHeader <;> simp [program, depacker, beforePool, afterPool, h]

/-- Where the code starts. -/
def codeOffset (codeInHeader : Bool) : ℕ := if codeInHeader then 0xa0 else 0xc0

/-- Where the literals start. -/
def literalsStart (codeInHeader : Bool) : ℕ := if codeInHeader then 0xbc else 0xd8

/-- The addresses of the labels, with the compressed binary at the literals. -/
def lowest (codeInHeader : Bool) : Label → ℕ
  | .codeStart => codeOffset codeInHeader
  | .packedIntro => literalsStart codeInHeader
  | _ => 0

/-- The addresses of the labels, with the compressed binary far behind the literals. -/
def highest (codeInHeader : Bool) : Label → ℕ
  | .codeStart => codeOffset codeInHeader
  | .packedIntro => literalsStart codeInHeader + 0x100
  | _ => 0

/-- The cartridge with other values. -/
def blankConfig (codeInHeader : Bool) : Config where
  codeInHeader := codeInHeader
  lzssDepackBuffer := 0
  loadAddress := 0
  entry := 0

section program

attribute [local simp] emitNintendoLogo emitRemainingHeader Stmt.size Instr.size Stmt.padding
  ofsGameTitle ofsFixedByte ofsDeviceType ofsGameVersion ofsComplement ofsReserved2
  ofsComplementIfCodeInHeader nintendoLogo_length Lzss.program depacker beforePool

variable (c : Config)

theorem poolStart_beforePool :
    poolStart (locate 0 [] (beforePool c)) = literalsStart c.codeInHeader := by
  obtain ⟨⟨codeInHeader⟩, buffer, load, entry, compressed⟩ := c
  cases codeInHeader <;> simp [locate, literalsStart, poolStart]

theorem length_beforePool : (beforePool c).length ≤ 0x40 := by
  obtain ⟨⟨codeInHeader⟩, buffer, load, entry, compressed⟩ := c
  cases codeInHeader <;> simp

theorem noPool_beforePool : ∀ s ∈ beforePool c, s ≠ .pool := by
  obtain ⟨⟨codeInHeader⟩, buffer, load, entry, compressed⟩ := c
  cases codeInHeader <;> exact ne_pool_of_all rfl

theorem blank_beforePool : (beforePool c).map Stmt.blank =
    (beforePool (blankConfig c.codeInHeader)).map Stmt.blank := by
  obtain ⟨⟨codeInHeader⟩, buffer, load, entry, compressed⟩ := c
  cases codeInHeader <;> rfl

theorem labelsDistinct_program : labelsDistinct (program c) = true := by
  obtain ⟨⟨codeInHeader⟩, buffer, load, entry, compressed⟩ := c
  cases codeInHeader <;> rfl

theorem labelTable_beforePool :
    labelTable (place 0 [] (beforePool c)) = [(.codeStart, codeOffset c.codeInHeader)] := by
  obtain ⟨⟨codeInHeader⟩, buffer, load, entry, compressed⟩ := c
  cases codeInHeader <;> simp [labelTable, place, codeOffset]

end program

/-- The instructions can be encoded with the lowest addresses as well as with the highest. -/
theorem fits_blank (codeInHeader : Bool) :
    (∀ p ∈ place 0 [] ((beforePool (blankConfig codeInHeader)).map Stmt.blank),
      fitsAt (lowest codeInHeader) (literalsStart codeInHeader)
        (complementOffset ⟨codeInHeader⟩) p = true) ∧
    ∀ p ∈ place 0 [] ((beforePool (blankConfig codeInHeader)).map Stmt.blank),
      fitsAt (highest codeInHeader) (literalsStart codeInHeader + 0x100)
        (complementOffset ⟨codeInHeader⟩) p = true := by
  cases codeInHeader <;> decide +kernel

theorem program_packedIntro (c : Config) : program c =
    depacker c ++ [.label .packedIntro, .bytes c.compressedBinary] := rfl

/-- The compressed binary comes after the literals. -/
theorem labelPlaced_packedIntro (c : Config) :
    Bracketed (literalsStart c.codeInHeader) (literalsStart c.codeInHeader + 0x100)
      (labelPlaced .packedIntro (place 0 [] (program c))) := by
  have hsplit : program c = (beforePool c ++ [.pool, .assertAligned 2]) ++
      .label .packedIntro :: [.bytes c.compressedBinary] := by
    rw [program_eq, afterPool, List.append_assoc]
    rfl
  have hlits := length_pendingAfter_le [] (beforePool c)
  have hlen := length_beforePool c
  have hpool := poolStart_beforePool c
  have hmod := poolStart_mod (locate 0 [] (beforePool c))
  rw [poolStart] at hpool hmod
  rw [labelPlaced_of_split (labelsDistinct_program c) hsplit, locate_append]
  simp only [locate, Stmt.size, Nat.add_zero]
  rw [← Nat.add_assoc, hpool]
  rw [hpool] at hmod
  generalize literalsStart c.codeInHeader = n at *
  simp only [List.length_nil] at hlits
  exact .inr ⟨by omega, by omega, by omega⟩

/-- The code starts where the header or its part before the fixed byte ends. -/
theorem labelPlaced_codeStart (c : Config) :
    labelPlaced .codeStart (place 0 [] (program c)) = codeOffset c.codeInHeader := by
  rw [program_eq, place_append]
  refine labelPlaced_eq_of_lookup ?_
  rw [labelTable_beforePool]
  rfl

/-- The addresses of the labels are between the lowest and the highest. -/
theorem bracketed_labels (c : Config) (l : Label) :
    Bracketed (lowest c.codeInHeader l) (highest c.codeInHeader l)
      (labelPlaced l (place 0 [] (program c))) := by
  have hother (hl : l ≠ .codeStart) (hl' : l ≠ .packedIntro) :
      labelPlaced l (place 0 [] (program c)) = 0 := by
    refine labelPlaced_of_lookup_none ?_
    rw [program_eq, place_append, labelTable, List.filterMap_append]
    change (labelTable _ ++ [(Label.packedIntro, _)]).lookup l = none
    rw [labelTable_beforePool, List.lookup_append, List.lookup_cons, List.lookup_cons,
      beq_false_of_ne hl, beq_false_of_ne hl']
    rfl
  cases l with
  | codeStart => exact .inl (labelPlaced_codeStart c)
  | packedIntro => exact labelPlaced_packedIntro c
  | _ => exact .inl (hother (by decide) (by decide))

/-- **The cartridge can be linked.** -/
theorem linkable_program (c : Config) :
    Linkable (beforePool c) (afterPool c) (complementOffset c.toOptions) where
  noPool := noPool_beforePool c
  noCode := by simp [afterPool]
  fits := fun lit hlit => by
    have hlen := length_beforePool c
    rw [← program_eq]
    obtain ⟨hlo, hhi⟩ := fits_blank c.codeInHeader
    rw [← blank_beforePool] at hlo hhi
    intro p hp
    refine fitsAt_of_bracketed (fits_of_blank (noPool_beforePool c) hlo p hp)
      (fits_of_blank (noPool_beforePool c) hhi p hp) (bracketed_labels c) ?_
    rw [poolStart_beforePool] at hlit
    exact hlit.imp_right fun h => ⟨h.1, by omega, h.2.2⟩
  unused := by
    obtain ⟨⟨codeInHeader⟩, buffer, load, entry, compressed⟩ := c
    rw [poolStart_beforePool]
    cases codeInHeader <;> simp [complementOffset, literalsStart, ofsComplementIfCodeInHeader,
      ofsGameVersion, ofsComplement]

/-! ## The finished cartridge -/

/-- What `pack` puts together. -/
theorem pack_eq_ok {a : Agbpack} {inputFile : InputFile} {options : Options} {cartridge : Cartridge}
    (h : pack a inputFile options = .ok cartridge) : ∃ lzssData compressed c,
      lzssCompress a inputFile.data = .ok lzssData ∧ huffmanCompress a lzssData = .ok compressed ∧
      lzssData.length < 2 ^ 32 ∧ lzssData.length % 4 = 0 ∧
      config inputFile compressed options (lzssDepackBuffer (.ofNat 32 lzssData.length)) = .ok c ∧
      cartridge.data = writeComplement (link (program c)) (complementOffset options) ∧
      cartridge.packer = "LZSS-H4" := by
  rw [pack, bind_eq_ok] at h
  obtain ⟨lzssData, hlzss, h⟩ := h
  rw [bind_eq_ok] at h
  obtain ⟨compressed, hhuffman, h⟩ := h
  rw [bind_eq_ok] at h
  obtain ⟨n, hn, h⟩ := h
  rw [narrow_eq_ok] at hn
  have haligned := aligned_of_assembleCartridge h
  rw [assembleCartridge, if_neg (not_not.mpr haligned), bind_eq_ok] at h
  rw [lzssDepackBuffer_aligned, ← hn] at haligned
  obtain ⟨⟨data, size⟩, hdata, h⟩ := h
  rw [lzssCartridgeAssembler, bind_eq_ok] at hdata
  obtain ⟨c, hc, hdata⟩ := hdata
  rw [bind_eq_ok] at hdata
  obtain ⟨linked, hlinked, hdata⟩ := hdata
  rw [assemble_eq_ok (lzss_failedAssertion c), Except.ok.injEq] at hlinked
  simp only [bind_eq_ok, Except.ok.injEq, Prod.mk.injEq] at hdata
  obtain ⟨-, -, -, -, rfl, -⟩ := hdata
  cases h
  refine ⟨lzssData, compressed, c, hlzss, hhuffman, hn ▸ n.isLt, haligned, ?_, by rw [hlinked],
    rfl⟩
  rw [hn, BitVec.ofNat_toNat, BitVec.setWidth_eq]
  exact hc

/-- The values of the configuration. -/
theorem config_values {inputFile : InputFile} {compressed : Bytevector} {options : Options}
    {buffer : Word} {c : Config} (h : config inputFile compressed options buffer = .ok c) :
    c.toOptions = options ∧ c.lzssDepackBuffer = buffer ∧ c.loadAddress = inputFile.loadAddress ∧
      c.entry = inputFile.entry ∧ c.compressedBinary = compressed := by
  simp only [config, bind_eq_ok, Except.ok.injEq] at h
  obtain ⟨load, hload, entry, hentry, rfl⟩ := h
  obtain ⟨-, rfl⟩ := narrowInt32_eq_ok.mp hload
  obtain ⟨-, rfl⟩ := narrowInt32_eq_ok.mp hentry
  exact ⟨rfl, rfl, rfl, rfl, rfl⟩

/-- Decoding gives back what was verified. -/
theorem decode_of_verifiedCompress {encode decode : Bytevector → Except Exception Bytevector}
    {text : String} {input output : Bytevector}
    (h : verifiedCompress encode decode text input = .ok output) : decode output = .ok input := by
  simp only [verifiedCompress, bind_eq_ok] at h
  obtain ⟨bs, -, verified, hverified, h⟩ := h
  split at h
  · cases h
  · rename_i heq
    cases h
    rw [hverified, not_not.mp heq]

/-! ## The BIOS -/

/-- What is documented of a decompression function of the BIOS. The source is at `r0`, word aligned
and not in the BIOS, the destination is at `r1`. The function writes units of `unit` bytes, needs
`own` for itself and leaves `sp` as it is. -/
structure Decompresses (decode : Bytevector → Except Exception Bytevector) (unit : ℕ)
    (own : Set Word) (f : Cpu → Cpu) : Prop where
  /-- What it does. -/
  run : ∀ (s : Cpu) (compressed data : Bytevector), decode compressed = .ok data →
    s.r0.toNat % 4 = 0 → ewramStart.toNat ≤ s.r0.toNat → s.r1.toNat % unit = 0 →
    data.length % unit = 0 →
    (∀ i < compressed.length, s.mem (s.r0 + BitVec.ofNat 32 i) = compressed.getD i 0) →
    Disjoint (range s.r0 compressed.length) (range s.r1 data.length) →
    Disjoint own (range s.r0 compressed.length ∪ range s.r1 data.length) →
    (∀ i < data.length, (f s).mem (s.r1 + BitVec.ofNat 32 i) = data.getD i 0) ∧
      Set.EqOn (f s).mem s.mem (range s.r1 data.length ∪ own)ᶜ ∧ (f s).sp = s.sp

/-! ## The cartridge in memory -/

/-- The linked program is in memory, but for the byte that is adjusted. -/
def Loaded (c : Config) (m : Mem) : Prop :=
  LinkedAt romStart (program c) (complementOffset c.toOptions) m

/-- The cartridge's code. -/
def romImage (c : Config) (B : Board) : Image Label :=
  image romStart (program c) B.mulCarry B.swi

/-- The instructions before the Huffman decoder is called. -/
def huffmanArguments (c : Config) : List (Instr Label) :=
  [.adr .r0 .packedIntro, .ldrLit .r1 c.lzssDepackBuffer]

/-- The instructions before the LZSS decoder is called. -/
def lzssArguments (c : Config) : List (Instr Label) :=
  [.ldrLit .r0 c.lzssDepackBuffer, .ldrLit .r1 c.loadAddress] ++
    if c.codeInHeader then [.movImm .r2 fixedByteValue] else []

section loaded

variable {c : Config} {m : Mem}

/-- The cartridge's instructions are in memory. -/
theorem Loaded.inMemory (h : Loaded c m) (B : Board) : (romImage c B).InMemory romStart m := by
  have hpool := poolStart_beforePool c
  have hle : locate 0 [] (beforePool c) ≤ literalsStart c.codeInHeader :=
    hpool ▸ Nat.le_add_right _ _
  have hoffset : literalsStart c.codeInHeader < 0x200 := by
    cases c.codeInHeader <;> decide
  rw [romImage, program_eq]
  refine (linkable_program c).inMemory _ _ ?_ (by omega) ?_
  · simp only [romStart]
    omega
  · rw [← program_eq]
    exact h

theorem spare_bounds (c : Config) : 4 ≤ complementOffset c.toOptions ∧
    complementOffset c.toOptions < labelPlaced .packedIntro (place 0 [] (program c)) := by
  have hunused := (linkable_program c).unused
  rw [poolStart_beforePool] at hunused
  refine ⟨?_, by obtain h | h := labelPlaced_packedIntro c <;> omega⟩
  rw [complementOffset]
  split
  · exact Nat.le_of_ble_eq_true rfl
  · exact Nat.le_of_ble_eq_true rfl

/-- The first instruction is the branch to the depacker. -/
theorem Loaded.branch (h : Loaded c m) (B : Board) :
    decodeArm (BitVec.ofNat 32 romStart) (load32 m (BitVec.ofNat 32 romStart)).toNat =
      some (.b ((romImage c B).sym .codeStart)) := by
  have hlabel := labelPlaced_codeStart c
  have hsym : 8 ≤ codeOffset c.codeInHeader ∧ codeOffset c.codeInHeader < 2 ^ 25 ∧
      codeOffset c.codeInHeader % 4 = 0 := by
    cases c.codeInHeader <;> decide
  have hlength := (lzss_headerImage c).length
  have hspare := (spare_bounds c).1
  rw [ofsComplement] at hlength
  rw [← hlabel] at hsym
  have hss : program c = .armBranch .codeStart :: (program c).tail := rfl
  exact decodeArm_link hss hsym.1 hsym.2.1 hsym.2.2 fun j hj => h j (by omega) (by omega)

/-- The compressed binary is in memory. -/
theorem Loaded.compressed (h : Loaded c m) (B : Board) {i : ℕ}
    (hi : i < c.compressedBinary.length) :
    m ((romImage c B).sym .packedIntro + BitVec.ofNat 32 i) = c.compressedBinary.getD i 0 :=
  LinkedAt.bytes h (labelsDistinct_program c) (program_packedIntro c) (spare_bounds c).2 hi

/-- The depacker's instructions follow its label. -/
theorem fetchAt_codeStart (c : Config) (B : Board) :
    FetchAt (romImage c B) ((romImage c B).sym .codeStart) (.armToThumb .r0 ::
      ((huffmanArguments c ++ [.swi swiHuffUncomp]) ++
        ((lzssArguments c ++ [.swi swiLz77UncompWram]) ++
          ([.ldrLit .r0 c.entry] ++ [.bx .r0])))) := by
  have hlabel := labelPlaced_codeStart c
  obtain ⟨⟨codeInHeader⟩, buffer, load, entry, compressed⟩ := c
  cases codeInHeader <;>
  · refine (codeAt_from romStart B.mulCarry B.swi rfl rfl ?_).fetchAt
    rw [hlabel]
    simp [program, depacker, codeFrom, codeSize, romStart, codeOffset, emitNintendoLogo,
      emitRemainingHeader, Instr.size]

end loaded

/-! ## The run -/

/-- Instructions that put the addresses of the source and of the destination into the registers
where the function `n` of the BIOS expects them. -/
def Calls (M : Image Label) (is : List (Instr Label)) (n : ℕ) (source destination : Word) : Prop :=
  ∀ s, ∃ u, execs M (is ++ [.swi n]) s = some { M.swi n u with
      pc := s.pc + BitVec.ofNat 32 (bytesOf (is ++ [.swi n])), thumb := s.thumb } ∧
    u.r0 = source ∧ u.r1 = destination ∧ u.mem = s.mem ∧ u.sp = s.sp

section run

variable {c : Config} {B : Board} {s : Cpu}

theorem calls_huffman (c : Config) (B : Board) : Calls (romImage c B) (huffmanArguments c)
    swiHuffUncomp ((romImage c B).sym .packedIntro) c.lzssDepackBuffer := by
  intro s
  refine ⟨{ s with
    r0 := (romImage c B).sym .packedIntro
    r1 := c.lzssDepackBuffer
    pc := s.pc + 2 + 2 }, ?_, rfl, rfl, rfl, rfl⟩
  simp [huffmanArguments, execs, exec, Cpu.next, Cpu.set, Instr.size, BitVec.add_assoc]

theorem calls_lzss (c : Config) (B : Board) : Calls (romImage c B) (lzssArguments c)
    swiLz77UncompWram c.lzssDepackBuffer c.loadAddress := by
  intro s
  cases h : c.codeInHeader with
  | false =>
      refine ⟨{ s with r0 := c.lzssDepackBuffer, r1 := c.loadAddress, pc := s.pc + 2 + 2 }, ?_, rfl,
        rfl, rfl, rfl⟩
      simp [lzssArguments, h, execs, exec, Cpu.next, Cpu.set, Instr.size, BitVec.add_assoc]
  | true =>
      refine ⟨{ s with
        r0 := c.lzssDepackBuffer
        r1 := c.loadAddress
        r2 := fixedByteValue.setWidth 32
        n := (fixedByteValue.setWidth 32).msb
        z := fixedByteValue.setWidth 32 == 0
        pc := s.pc + 2 + 2 + 2 }, ?_, rfl, rfl, rfl, rfl⟩
      simp [lzssArguments, h, execs, exec, Cpu.next, Cpu.set, Cpu.setNZ, Instr.size,
        BitVec.add_assoc]

/-- **A function of the BIOS is called** and decompresses from the source to the destination. -/
theorem Decompresses.passes {decode : Bytevector → Except Exception Bytevector} {unit n : ℕ}
    {own : Set Word} {is : List (Instr Label)} {source destination : Word}
    {compressed data : Bytevector} {P : Mem → Prop}
    (h : Decompresses decode unit own (B.swi n))
    (hcalls : Calls (romImage c B) is n source destination)
    (his : ∀ j ∈ is, j.staysThumb = true ∧ j.stores = false)
    (hfetch : FetchAt (romImage c B) s.pc (is ++ [.swi n])) (hthumb : s.thumb = true)
    (hloaded : Loaded c s.mem) (hP : P s.mem) (hdecode : decode compressed = .ok data)
    (hsource : source.toNat % 4 = 0) (hsource' : ewramStart.toNat ≤ source.toNat)
    (hdestination : destination.toNat % unit = 0) (hdata : data.length % unit = 0)
    (hbytes : ∀ i < compressed.length,
      s.mem (source + BitVec.ofNat 32 i) = compressed.getD i 0)
    (hdisjoint : Disjoint (range source compressed.length) (range destination data.length))
    (hown : Disjoint own (range source compressed.length ∪ range destination data.length)) :
    ∃ t, Passes B.step (fun u => P u.mem) s t ∧
      t.pc = s.pc + BitVec.ofNat 32 (bytesOf (is ++ [.swi n])) ∧ t.thumb = true ∧ t.sp = s.sp ∧
      (∀ i < data.length, t.mem (destination + BitVec.ofNat 32 i) = data.getD i 0) ∧
      Set.EqOn t.mem s.mem (range destination data.length ∪ own)ᶜ := by
  obtain ⟨u, hexecs, rfl, rfl, hmem, hsp⟩ := hcalls s
  rw [← hmem] at hbytes
  obtain ⟨hout, hrest, hsp'⟩ := h.run u compressed data hdecode hsource hsource' hdestination hdata
    hbytes hdisjoint hown
  rw [hmem] at hrest
  exact ⟨_, Board.passes_block (by decide) rfl rfl hfetch hthumb his rfl (hloaded.inMemory B) hP
    hexecs, rfl, hthumb, hsp'.trans hsp, hout, hrest⟩

/-- Where the compressed binary is. -/
theorem packedIntro_toNat (c : Config) (B : Board) :
    ((romImage c B).sym .packedIntro).toNat =
      romStart + labelPlaced .packedIntro (place 0 [] (program c)) ∧
    ((romImage c B).sym .packedIntro).toNat % 4 = 0 := by
  have hplaced := labelPlaced_packedIntro c
  have hstart : literalsStart c.codeInHeader < 0x200 ∧ literalsStart c.codeInHeader % 4 = 0 := by
    cases c.codeInHeader <;> decide
  have hsym : ((romImage c B).sym .packedIntro).toNat =
      (romStart + labelPlaced .packedIntro (place 0 [] (program c))) % 2 ^ 32 := rfl
  rw [Bracketed] at hplaced
  rw [hsym, romStart]
  omega

/-- The compressed binary is in the ROM. -/
theorem range_packedIntro (c : Config) (B : Board) :
    range ((romImage c B).sym .packedIntro) c.compressedBinary.length ⊆
      range (BitVec.ofNat 32 romStart) (link (program c)).length := by
  refine range_subset ?_
  have hlength := link_length_of_split (labelsDistinct_program c) (program_packedIntro c)
  have hsym : (romImage c B).sym .packedIntro =
      BitVec.ofNat 32 (romStart + labelPlaced .packedIntro (place 0 [] (program c))) := rfl
  rw [hsym, BitVec.ofNat_add, BitVec.add_comm, BitVec.add_sub_cancel, BitVec.toNat_ofNat]
  have hle := Nat.mod_le (labelPlaced .packedIntro (place 0 [] (program c))) (2 ^ 32)
  omega

/-- The branch to the depacker, and the change to Thumb state. -/
theorem Loaded.passes_thumb (h : Loaded c s.mem) (hpc : s.pc = BitVec.ofNat 32 romStart)
    (hthumb : s.thumb = false) {P : Mem → Prop} (hP : P s.mem) :
    ∃ t, Passes B.step (fun u => P u.mem) s t ∧ t.pc = (romImage c B).sym .codeStart + 8 ∧
      t.thumb = true ∧ t.sp = s.sp ∧ t.mem = s.mem := by
  have hfetch := (fetchAt_codeStart c B).1
  have hstep : B.step s = some { s with pc := (romImage c B).sym .codeStart } := by
    rw [Board.step, if_neg (by rw [hthumb]; decide), hpc, h.branch B]
    rfl
  obtain ⟨u, hu⟩ : ∃ u, u = { s with pc := (romImage c B).sym .codeStart } := ⟨_, rfl⟩
  have hpc' : u.pc = (romImage c B).sym .codeStart := by rw [hu]
  have hmem : u.mem = s.mem := by rw [hu]
  rw [← hu] at hstep
  rw [← hpc'] at hfetch
  have hexec : Thumb.step (romImage c B) u =
      some { u.set .r0 (u.pc + 9) with pc := u.pc + 8, thumb := true } := by
    have harm : ((.armToThumb .r0 : Instr Label).isArm = u.thumb) = False := by
      rw [hu]
      exact eq_false (by rw [hthumb]; decide)
    rw [Thumb.step, hfetch, Option.bind_some, if_neg (of_eq_false harm)]
    rfl
  obtain ⟨n, hseg⟩ := Board.step_of_lies (B := B) (by decide) rfl rfl
    (hmem ▸ h.inMemory B u.pc _ hfetch) hfetch hexec
  refine ⟨_, (Passes.of_step hstep hP).trans (.of_segment hseg (hmem ▸ hP) fun v hv => ?_), ?_, rfl,
    ?_, hmem⟩
  · rw [hv, hmem]
    exact hP
  · rw [← hpc']
  · rw [← show u.sp = s.sp by rw [hu]]
    rfl

/-- **A cartridge in memory unpacks its program and enters it.** -/
theorem Loaded.boots {a : Agbpack} {own : Set Word} {lzssData data : Bytevector}
    (h : Loaded c s.mem) (hpc : s.pc = BitVec.ofNat 32 romStart) (hthumb : s.thumb = false)
    (hhuffman : Decompresses a.huffmanDecode 4 own (B.swi swiHuffUncomp))
    (hlzss : Decompresses a.lzssDecode 1 own (B.swi swiLz77UncompWram))
    (hdecode : a.huffmanDecode c.compressedBinary = .ok lzssData)
    (hdecode' : a.lzssDecode lzssData = .ok data)
    (haligned : c.lzssDepackBuffer.toNat % 4 = 0) (hlen : lzssData.length % 4 = 0)
    (hewram : ewramStart.toNat ≤ c.lzssDepackBuffer.toNat)
    (hrom : Disjoint (range (BitVec.ofNat 32 romStart) (link (program c)).length)
      (range c.loadAddress data.length ∪ (range c.lzssDepackBuffer lzssData.length ∪ own)))
    (hbuffer : Disjoint (range c.lzssDepackBuffer lzssData.length)
      (range c.loadAddress data.length))
    (hown : Disjoint own (range c.lzssDepackBuffer lzssData.length ∪
      range c.loadAddress data.length)) :
    ∃ t, Passes B.step (fun u => Set.EqOn u.mem s.mem (range c.loadAddress data.length ∪
        (range c.lzssDepackBuffer lzssData.length ∪ own))ᶜ) s t ∧
      Entered ⟨c.entry, c.loadAddress, data⟩ (range c.lzssDepackBuffer lzssData.length ∪ own)
        s t := by
  obtain ⟨A, hA⟩ : ∃ A, A = range c.loadAddress data.length ∪
    (range c.lzssDepackBuffer lzssData.length ∪ own) := ⟨_, rfl⟩
  obtain ⟨hintro, hintro'⟩ := packedIntro_toNat c B
  have hpacked := range_packedIntro c B
  obtain ⟨-, hromRest⟩ := Set.disjoint_union_right.mp hrom
  obtain ⟨hromBuffer, hromOwn⟩ := Set.disjoint_union_right.mp hromRest
  obtain ⟨hownBuffer, -⟩ := Set.disjoint_union_right.mp hown
  rw [← hA] at hrom ⊢
  have hkeep {m : Mem} (hm : Set.EqOn m s.mem Aᶜ) : Loaded c m :=
    LinkedAt.congr h (hm.mono (Set.subset_compl_iff_disjoint_right.mpr hrom))
  obtain ⟨s₁, hpass₁, hpc₁, hthumb₁, hsp₁, hmem₁⟩ := h.passes_thumb (B := B) hpc hthumb
    (P := fun m => Set.EqOn m s.mem Aᶜ) (Set.eqOn_refl _ _)
  have hsame₁ : Set.EqOn s₁.mem s.mem Aᶜ := hmem₁ ▸ Set.eqOn_refl _ _
  obtain ⟨-, hfetch₁⟩ := fetchAt_codeStart c B
  change FetchAt _ ((romImage c B).sym .codeStart + 8) _ at hfetch₁
  rw [← hpc₁] at hfetch₁
  -- The Huffman decoder writes the buffer.
  obtain ⟨s₂, hpass₂, hpc₂, hthumb₂, hsp₂, hbytes₂, hrest₂⟩ := hhuffman.passes
    (P := fun m => Set.EqOn m s.mem Aᶜ) (calls_huffman c B)
    (by simp [huffmanArguments, Instr.staysThumb, Instr.stores]) hfetch₁.left hthumb₁
    (hkeep hsame₁) hsame₁ hdecode hintro' (hintro ▸ Nat.le_add_right_of_le (by decide)) haligned
    hlen (fun i hi => (hkeep hsame₁).compressed B hi) (hromBuffer.mono_left hpacked)
    (Set.disjoint_union_right.mpr ⟨hromOwn.symm.mono_right hpacked, hownBuffer⟩)
  have hsame₂ : Set.EqOn s₂.mem s.mem Aᶜ :=
    (hrest₂.mono (Set.compl_subset_compl.mpr (hA ▸ Set.subset_union_right))).trans hsame₁
  have hfetch₂ := hfetch₁.right
  rw [← hpc₂] at hfetch₂
  -- The LZSS decoder writes the output.
  obtain ⟨s₃, hpass₃, hpc₃, hthumb₃, hsp₃, hbytes₃, hrest₃⟩ := hlzss.passes
    (P := fun m => Set.EqOn m s.mem Aᶜ) (calls_lzss c B) (by
      cases h : c.codeInHeader <;> simp [lzssArguments, h, Instr.staysThumb, Instr.stores])
    hfetch₂.left hthumb₂ (hkeep hsame₂) hsame₂ hdecode' haligned hewram (Nat.mod_one _)
    (Nat.mod_one _) hbytes₂ hbuffer hown
  have hsame₃ : Set.EqOn s₃.mem s.mem Aᶜ :=
    (hrest₃.mono (Set.compl_subset_compl.mpr
      (hA ▸ Set.union_subset_union_right _ Set.subset_union_right))).trans hsame₂
  have hfetch₃ := hfetch₂.right
  rw [← hpc₃] at hfetch₃
  -- The program is entered.
  have hexecs : execs (romImage c B) ([.ldrLit .r0 c.entry] ++ [.bx .r0]) s₃ = some
      { s₃ with
        r0 := c.entry
        pc := c.entry &&& ~~~1
        thumb := c.entry.getLsbD 0 } := by
    simp [execs, exec, Cpu.next, Cpu.set, Cpu.reg, Instr.size]
  have hpass₄ := Board.passes_block (B := B) (P := fun m => Set.EqOn m s.mem Aᶜ) (by decide) rfl
    rfl hfetch₃ hthumb₃ (by simp [Instr.staysThumb, Instr.stores]) rfl
    ((hkeep hsame₃).inMemory B) hsame₃ hexecs
  exact ⟨_, hpass₁.trans (hpass₂.trans (hpass₃.trans hpass₄)), rfl, rfl,
    hsp₃.trans (hsp₂.trans hsp₁), hbytes₃, hA ▸ hsame₃⟩

end run

/-! ## The packer's cartridge -/

theorem toNat_of_mem_range {a x : Word} {n : ℕ} (h : a.toNat + n ≤ 2 ^ 32) (hx : x ∈ range a n) :
    a.toNat ≤ x.toNat ∧ x.toNat < a.toNat + n := by
  rw [mem_range, BitVec.toNat_sub] at hx
  have ha := a.isLt
  have hx' := x.isLt
  omega

/-- A buffer that fits is off the output. -/
theorem FitsEwram.disjoint {inputFile : InputFile} {n : Word} (h : FitsEwram inputFile n)
    (hwrap : inputFile.loadAddress.toNat + inputFile.data.length ≤ 2 ^ 32) :
    Disjoint (range (lzssDepackBuffer n) n.toNat)
      (range inputFile.loadAddress inputFile.data.length) := by
  have hsafe := bufferSafe_iff.mpr h
  have hstop := hsafe.stop
  have hend : ewramStart.toNat + ewramSize.toNat = 0x02040000 := rfl
  rw [Set.disjoint_left]
  intro x hx hx'
  exact hsafe.disjoint x.toNat ⟨toNat_of_mem_range (by omega) hx, toNat_of_mem_range hwrap hx'⟩

/-- The memory that the two decoders use besides the output. -/
def scratch (lzssData : Bytevector) (own : Set Word) : Set Word :=
  range (lzssDepackBuffer (.ofNat 32 lzssData.length)) lzssData.length ∪ own

section packer

variable {a : Agbpack} {inputFile : InputFile} {options : Options} {cartridge : Cartridge}
  {lzssData : Bytevector} {B : Board} {own : Set Word} {s : Cpu}

/-- The cartridge of the packer unpacks its program and enters it. -/
theorem cartridge_boots {rom : Bytevector} (hpack : pack a inputFile options = .ok cartridge)
    (hlzssData : lzssCompress a inputFile.data = .ok lzssData)
    (hfits : FitsEwram inputFile (.ofNat 32 lzssData.length))
    (hwrap : inputFile.loadAddress.toNat + inputFile.data.length ≤ 2 ^ 32)
    (hhuffman : Decompresses a.huffmanDecode 4 own (B.swi swiHuffUncomp))
    (hlzss : Decompresses a.lzssDecode 1 own (B.swi swiLz77UncompWram))
    (hs : PoweredOn rom s) (hdata : cartridge.data <+: rom)
    (hrom : Disjoint (range (BitVec.ofNat 32 romStart) cartridge.data.length)
      (range inputFile.loadAddress inputFile.data.length ∪ scratch lzssData own))
    (hown : Disjoint own (range (lzssDepackBuffer (.ofNat 32 lzssData.length)) lzssData.length ∪
      range inputFile.loadAddress inputFile.data.length)) :
    ∃ t, Passes B.step (fun u => Set.EqOn u.mem s.mem
        (range inputFile.loadAddress inputFile.data.length ∪ scratch lzssData own)ᶜ) s t ∧
      Entered inputFile (scratch lzssData own) s t := by
  obtain ⟨bs, compressed, c, hbs, hcompressed, hlt, hlen, hconfig, hcartridge, -⟩ :=
    pack_eq_ok hpack
  obtain rfl : lzssData = bs := Except.ok.inj (hlzssData.symm.trans hbs)
  obtain ⟨hoptions, hbuffer, hload, hentry, rfl⟩ := config_values hconfig
  have hn : (BitVec.ofNat 32 lzssData.length).toNat = lzssData.length := by
    rw [BitVec.toNat_ofNat, Nat.mod_eq_of_lt hlt]
  have hdisjoint := hfits.disjoint hwrap
  have hstart := (bufferSafe_iff.mpr hfits).start
  have haligned := (lzssDepackBuffer_aligned (.ofNat 32 lzssData.length)).mpr (by rw [hn, hlen])
  have hlength : cartridge.data.length = (link (program c)).length := by
    rw [hcartridge, writeComplement_length]
  have hoffset : ofsGameTitle ≤ complementOffset options := by
    rw [complementOffset]
    split
    · exact Nat.le_of_ble_eq_true rfl
    · exact Nat.le_of_ble_eq_true rfl
  obtain ⟨padding, rfl⟩ := hdata
  have hloaded : Loaded c s.mem := by
    intro j hj hspare
    rw [hoptions] at hspare
    rw [← hlength] at hj
    rw [hs.rom j (by rw [List.length_append]; omega), List.getD_append _ _ _ _ hj, hcartridge,
      List.getD_eq_getElem?_getD, writeComplement_getElem?_ne _ hoffset hspare,
      ← List.getD_eq_getElem?_getD]
  rw [hn] at hdisjoint
  rw [hlength] at hrom
  rw [scratch] at *
  rw [← hbuffer] at hdisjoint hstart haligned hrom hown ⊢
  rw [← hload] at hdisjoint hrom hown
  obtain ⟨t, hpass, ht⟩ := hloaded.boots hs.pc hs.thumb hhuffman hlzss
    (decode_of_verifiedCompress hcompressed) (decode_of_verifiedCompress hlzssData) haligned hlen
    hstart hrom hdisjoint hown
  rw [hentry, hload] at ht
  rw [hload] at hpass
  exact ⟨t, hpass, ht⟩

/-- **The cartridge of the LZSS packer works.** Where the functions of the BIOS decompress what
agbpack decodes and the LZSS data fits into EWRAM, the processor executes the cartridge, from its
first word on, until it enters the program, which lies at its load address. On the way, memory is
unchanged but for the output, the buffer and what the BIOS uses. -/
theorem lzss_boots (hpack : pack a inputFile options = .ok cartridge)
    (hlzssData : lzssCompress a inputFile.data = .ok lzssData)
    (hfits : FitsEwram inputFile (.ofNat 32 lzssData.length))
    (hwrap : inputFile.loadAddress.toNat + inputFile.data.length ≤ 2 ^ 32)
    (hhuffman : Decompresses a.huffmanDecode 4 own (B.swi swiHuffUncomp))
    (hlzss : Decompresses a.lzssDecode 1 own (B.swi swiLz77UncompWram))
    (hs : PoweredOn cartridge.data s)
    (hrom : Disjoint (range (BitVec.ofNat 32 romStart) cartridge.data.length)
      (range inputFile.loadAddress inputFile.data.length ∪ scratch lzssData own))
    (hown : Disjoint own (range (lzssDepackBuffer (.ofNat 32 lzssData.length)) lzssData.length ∪
      range inputFile.loadAddress inputFile.data.length)) :
    ∃ t, Passes B.step (fun u => Set.EqOn u.mem s.mem
        (range inputFile.loadAddress inputFile.data.length ∪ scratch lzssData own)ᶜ) s t ∧
      Entered inputFile (scratch lzssData own) s t :=
  cartridge_boots hpack hlzssData hfits hwrap hhuffman hlzss hs (List.prefix_refl _) hrom hown

end packer

/-- A program of one byte and a copy of four bytes. -/
def copies : InputFile := ⟨0x02000000, 0x02000000, [0x5f, 0x5f, 0x5f, 0x5f, 0x5f]⟩

/-- Its LZSS code: the header, flags, a literal and a reference. -/
def copiesLzss : Bytevector := [0x10, 0x05, 0x00, 0x00, 0x40, 0x5f, 0x10, 0x00]

/-- The Huffman code of that: the header, the tree of the nibbles 0, 1, 5, 4 and 15, and the
bits. -/
def copiesHuffman : Bytevector :=
  [0x24, 0x08, 0x00, 0x00, 0x05, 0x80, 0x00, 0x00, 0xc0, 0xc1, 0x01, 0x05, 0x04, 0x0f, 0x00, 0x00,
    0x00, 0xf5, 0x06, 0x4a]

/-- A decoder that knows one code. -/
def decodeOnly (code data bs : Bytevector) : Except Exception Bytevector :=
  if bs = code then .ok data else .error (internalError "unknown code")

/-- Codecs for this program. -/
def copiesAgbpack : Agbpack where
  lzssEncode _ := .ok copiesLzss
  lzssDecode := decodeOnly copiesLzss copies.data
  huffmanEncode _ := .ok copiesHuffman
  huffmanDecode := decodeOnly copiesHuffman copiesLzss

/-- Write data to the destination. -/
def unpackTo (data : Bytevector) (s : Cpu) : Cpu := { s with
  mem := fun x => if (x - s.r1).toNat < data.length then data.getD (x - s.r1).toNat 0 else s.mem x }

theorem decompresses_unpackTo {code data : Bytevector} (hdata : data.length ≤ 2 ^ 32) (unit : ℕ)
    (own : Set Word) : Decompresses (decodeOnly code data) unit own (unpackTo data) := by
  refine ⟨fun s compressed decoded hdecode _ _ _ _ _ _ _ => ?_⟩
  obtain rfl : data = decoded := by
    rw [decodeOnly] at hdecode
    split at hdecode <;> cases hdecode
    rfl
  refine ⟨fun i hi => ?_, fun x hx => if_neg fun h => hx (.inl h), rfl⟩
  have hsub : (s.r1 + BitVec.ofNat 32 i - s.r1).toNat = i := by
    rw [BitVec.add_comm, BitVec.add_sub_cancel, BitVec.toNat_ofNat, Nat.mod_eq_of_lt (by omega)]
  simp only [unpackTo, hsub, hi, if_true]

/-- A console for this program. -/
def copiesBoard : Board where
  mulCarry _ _ := false
  swi n := if n = swiHuffUncomp then unpackTo copiesLzss else unpackTo copies.data

/-- Its cartridge. -/
def copiesCartridge : Cartridge where
  packer := "LZSS-H4"
  data := writeComplement (link (program {
    lzssDepackBuffer := 0x0203fff8
    loadAddress := 0x02000000
    entry := 0x02000000
    compressedBinary := copiesHuffman })) ofsComplementIfCodeInHeader
  compressedSize := 20
  depackerSize := 4

/-- The cartridge is in the console. -/
def copiesStart : Cpu where
  r0 := 0; r1 := 0; r2 := 0; r3 := 0; r4 := 0; r5 := 0; r6 := 0; r7 := 0; r8 := 0; r9 := 0
  r10 := 0; r11 := 0; r12 := 0; sp := 0x03007f00; lr := 0; pc := 0x08000000
  n := false; z := false; c := false; v := false; thumb := false
  mem := romMemory copiesCartridge.data

theorem copies_cartridge_length : copiesCartridge.data.length = 0xd8 := by decide +kernel

theorem copies_buffer : lzssDepackBuffer (.ofNat 32 copiesLzss.length) = 0x0203fff8 := by decide

theorem copies_lzssCompress : lzssCompress copiesAgbpack copies.data = .ok copiesLzss := by
  decide +kernel

theorem copies_poweredOn : PoweredOn copiesCartridge.data copiesStart := by
  have hmem : copiesStart.mem = romMemory copiesCartridge.data := by rw [copiesStart]
  refine ⟨rfl, rfl, by decide, ?_⟩
  rw [hmem]
  exact romMemory_apply (by rw [copies_cartridge_length]; decide)

theorem copies_decompresses (own : Set Word) :
    Decompresses copiesAgbpack.huffmanDecode 4 own (copiesBoard.swi swiHuffUncomp) ∧
      Decompresses copiesAgbpack.lzssDecode 1 own (copiesBoard.swi swiLz77UncompWram) := by
  rw [show copiesBoard.swi swiHuffUncomp = unpackTo copiesLzss from rfl,
    show copiesBoard.swi swiLz77UncompWram = unpackTo copies.data from rfl]
  exact ⟨decompresses_unpackTo (by decide) 4 own, decompresses_unpackTo (by decide) 1 own⟩

theorem copies_fitsEwram : FitsEwram copies (.ofNat 32 copiesLzss.length) :=
  ⟨by decide, .inr (.inr (.inl (by decide)))⟩

/-- The supervisor's stack is off the buffer and the output. -/
theorem copies_bios : Disjoint (range (0x03007fa0 : Word) 0x40)
    (range (lzssDepackBuffer (.ofNat 32 copiesLzss.length)) 8 ∪ range copies.loadAddress 5) := by
  rw [copies_buffer]
  exact Set.disjoint_union_right.mpr ⟨disjoint_range (by decide) (by decide),
    disjoint_range (by decide) (by decide)⟩

/-- All of them are off the ROM. -/
theorem copies_rom : Disjoint (range (BitVec.ofNat 32 romStart) copiesCartridge.data.length)
    (range copies.loadAddress 5 ∪ scratch copiesLzss (range 0x03007fa0 0x40)) := by
  rw [scratch, copies_buffer, copies_cartridge_length]
  simp only [Set.disjoint_union_right]
  exact ⟨disjoint_range (by decide) (by decide), disjoint_range (by decide) (by decide),
    disjoint_range (by decide) (by decide)⟩

theorem lzss_boots_copies : ∃ t,
    Passes copiesBoard.step (fun u => Set.EqOn u.mem copiesStart.mem
      (range 0x02000000 5 ∪ scratch copiesLzss (range 0x03007fa0 0x40))ᶜ) copiesStart t ∧
    Entered copies (scratch copiesLzss (range 0x03007fa0 0x40)) copiesStart t := by
  have hpack : pack copiesAgbpack copies {} = .ok copiesCartridge := by decide +kernel
  obtain ⟨hhuffman, hlzss⟩ := copies_decompresses (range 0x03007fa0 0x40)
  have hboots := lzss_boots hpack copies_lzssCompress copies_fitsEwram (by decide) hhuffman hlzss
    copies_poweredOn copies_rom copies_bios
  exact hboots

end ShrinklerGba.Lzss
