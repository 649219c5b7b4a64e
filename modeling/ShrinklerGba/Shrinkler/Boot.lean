import ShrinklerGba.Shrinkler.Confined
import ShrinklerGba.Shrinkler.Parse
import ShrinklerGba.Thumb.Processor

/-!
# Booting the cartridge

What the processor does with the bytes of a finished cartridge.

* `linkable_program`: all instructions of the cartridge can be encoded where they lie.
* `Rom.Holds` says that data are the linked program, but for a byte that is not code;
  `cartridge_holds`: those of a finished cartridge are.
* **`shrinkler_boots`**: from its first word on, the cartridge unpacks the program to its load
  address and enters it.
-/

namespace ShrinklerGba.Shrinkler

open Thumb Transition RangeCoding Bitstream

/-! ## All instructions can be encoded -/

/-- The statements after the literal pool. -/
def afterPool (c : Config) : List (Stmt Label) :=
  .align 2 :: .label .packedIntro :: .bytes c.compressedProgram :: debugEmitPanicRoutine c

theorem program_eq (c : Config) : program c = beforePool c ++ .pool :: afterPool c := by
  simp [program, depacker, beforePool, afterPool, getnumberCode]

/-- Where the literals start. -/
def literalsOffset (codeInHeader : Bool) : ℕ := if codeInHeader then 0x180 else 0x19c

/-- A byte of the cartridge that belongs to no instruction and no literal. -/
def spareByte (codeInHeader : Bool) : ℕ := if codeInHeader then 4 else ofsComplement

/-- The addresses of the labels, with the compressed program at the literals. -/
def lowest (codeInHeader : Bool) (l : Label) : ℕ :=
  if l = .packedIntro then literalsOffset codeInHeader else symOffset ⟨codeInHeader, false⟩ l

/-- The addresses of the labels, with the compressed program far behind the literals. -/
def highest (codeInHeader : Bool) (l : Label) : ℕ :=
  if l = .packedIntro then literalsOffset codeInHeader + 0x240
  else symOffset ⟨codeInHeader, false⟩ l

/-- The cartridge with other values. -/
def blankConfig (codeInHeader : Bool) : Config where
  codeInHeader := codeInHeader
  gameVersion := 0
  loadAddress := 0
  entry := 0

section program

attribute [local simp] emitNintendoLogo emitRemainingHeader Stmt.size Instr.size Stmt.padding
  ofsGameTitle ofsFixedByte ofsDeviceType ofsGameVersion ofsComplement ofsReserved2
  nintendoLogo_length Shrinkler.program depacker header getbitCode startCode mainCode exitCode
  getnumberCode debugCheckDecompressedDataSize debugCheckDecompressedData debugCheckSpOnExit
  debugEmitPanicRoutine beforePool

variable {c : Config}

set_option maxRecDepth 2000 in
theorem poolStart_beforePool (hd : c.debugChecks = false) :
    poolStart (locate 0 [] (beforePool c)) = literalsOffset c.codeInHeader := by
  obtain ⟨⟨codeInHeader, debugChecks⟩, v, load, entry, size, checksum, compressed⟩ := c
  cases hd
  cases codeInHeader <;> simp [locate, literalsOffset, poolStart]

theorem length_unchecked (hd : c.debugChecks = false) : (beforePool c).length ≤ 0x90 := by
  obtain ⟨⟨codeInHeader, debugChecks⟩, v, load, entry, size, checksum, compressed⟩ := c
  cases hd
  cases codeInHeader <;> simp

theorem noPool_beforePool (hd : c.debugChecks = false) : ∀ s ∈ beforePool c, s ≠ .pool := by
  obtain ⟨⟨codeInHeader, debugChecks⟩, v, load, entry, size, checksum, compressed⟩ := c
  cases hd
  cases codeInHeader <;> exact ne_pool_of_all rfl

theorem blank_beforePool (hd : c.debugChecks = false) : (beforePool c).map Stmt.blank =
    (beforePool (blankConfig c.codeInHeader)).map Stmt.blank := by
  obtain ⟨⟨codeInHeader, debugChecks⟩, v, load, entry, size, checksum, compressed⟩ := c
  cases hd
  cases codeInHeader <;> rfl

end program

/-- The instructions can be encoded with the lowest addresses as well as with the highest. -/
theorem fits_blank (codeInHeader : Bool) :
    (∀ p ∈ place 0 [] ((beforePool (blankConfig codeInHeader)).map Stmt.blank),
      fitsAt (lowest codeInHeader) (literalsOffset codeInHeader) (spareByte codeInHeader) p =
        true) ∧
    ∀ p ∈ place 0 [] ((beforePool (blankConfig codeInHeader)).map Stmt.blank),
      fitsAt (highest codeInHeader) (literalsOffset codeInHeader + 0x240) (spareByte codeInHeader)
        p = true := by
  cases codeInHeader <;> decide +kernel

section unchecked

variable {ρ : Rom} (hd : ρ.config.debugChecks = false)
include hd

/-- The compressed program is the end of the cartridge. -/
theorem program_packedIntro : program ρ.config =
    depacker ρ.config ++ [.label .packedIntro, .bytes ρ.config.compressedProgram] := by
  rw [program, debugEmitPanicRoutine, hd]
  exact List.append_nil _

/-- The compressed program comes after the literals. -/
theorem labelPlaced_packedIntro :
    Bracketed (literalsOffset ρ.config.codeInHeader) (literalsOffset ρ.config.codeInHeader + 0x240)
      (labelPlaced .packedIntro (place 0 [] (program ρ.config))) := by
  have hnot : defines .packedIntro (beforePool ρ.config) = false := by
    have hsplit : program ρ.config = beforePool ρ.config ++ .pool :: afterPool ρ.config :=
      program_eq _
    exact labelsDistinct_append (hsplit ▸ labelsDistinct_program ρ.config) rfl
  have hlits := length_pendingAfter_le [] (beforePool ρ.config)
  have hlen := length_unchecked hd
  have hpool := poolStart_beforePool hd
  have hmod := poolStart_mod (locate 0 [] (beforePool ρ.config))
  rw [poolStart] at hpool hmod
  rw [program_eq, place_append, labelPlaced_append hnot]
  simp only [place, afterPool, labelPlaced, if_true, Stmt.size, Stmt.pending]
  rw [← Nat.add_assoc, hpool]
  rw [hpool] at hmod
  generalize literalsOffset ρ.config.codeInHeader = n at *
  simp only [List.length_nil] at hlits
  have hpadding : Stmt.padding 2 (n + 4 * (pendingAfter [] (beforePool ρ.config)).length) = 0 := by
    simp only [Stmt.padding]
    omega
  rw [hpadding]
  exact .inr ⟨by omega, by omega, by omega⟩

/-- The addresses of the labels are between the lowest and the highest. -/
theorem bracketed_labels (l : Label) :
    Bracketed (lowest ρ.config.codeInHeader l) (highest ρ.config.codeInHeader l)
      (labelPlaced l (place 0 [] (program ρ.config))) := by
  by_cases hintro : l = .packedIntro
  · subst hintro
    exact labelPlaced_packedIntro hd
  have hoptions : ρ.config.toOptions = ⟨ρ.config.codeInHeader, false⟩ := by rw [← hd]
  rw [lowest, highest, if_neg hintro, if_neg hintro, ← hoptions]
  refine .inl ?_
  cases hcode : isCodeLabel l with
  | true => exact labelPlaced_program ρ hcode
  | false =>
      -- The labels of the debug checks are not defined.
      have htable := labelTable_depacker ρ.config
      have hlookup : (labelTable (place 0 [] (program ρ.config))).lookup l = none := by
        rw [labelTable, program_packedIntro hd, place_append, List.filterMap_append]
        change (labelTable _ ++ [(Label.packedIntro, _)]).lookup l = none
        rw [htable, List.lookup_append, List.lookup_cons, beq_false_of_ne hintro, List.lookup_nil,
          Option.or_none, hoptions]
        revert hcode
        cases ρ.config.codeInHeader <;> cases l <;> decide
      rw [labelPlaced_of_lookup_none hlookup, hoptions]
      revert hcode
      cases ρ.config.codeInHeader <;> cases l <;> decide

/-- **The cartridge can be linked.** -/
theorem linkable_program : Linkable (beforePool ρ.config) (afterPool ρ.config)
    (spareByte ρ.config.codeInHeader) where
  noPool := noPool_beforePool hd
  noCode := by
    simp [afterPool, debugEmitPanicRoutine, hd]
  fits := fun lit hlit => by
    have hlen := length_unchecked hd
    rw [← program_eq]
    obtain ⟨hlo, hhi⟩ := fits_blank ρ.config.codeInHeader
    rw [← blank_beforePool hd] at hlo hhi
    intro p hp
    refine fitsAt_of_bracketed (fits_of_blank (noPool_beforePool hd) hlo p hp)
      (fits_of_blank (noPool_beforePool hd) hhi p hp) (bracketed_labels hd) ?_
    rw [poolStart_beforePool hd] at hlit
    exact hlit.imp_right fun h => ⟨h.1, by omega, h.2.2⟩
  unused := by
    rw [poolStart_beforePool hd]
    cases ρ.config.codeInHeader <;> decide

end unchecked

/-! ## The finished cartridge -/

/-- Data are the linked program, but for a byte that is not code. -/
structure Rom.Holds (ρ : Rom) (data : Bytevector) : Prop where
  /-- Nothing is missing. -/
  length : data.length = (link (program ρ.config)).length
  /-- The bytes. -/
  bytes : ∀ j ≠ spareByte ρ.config.codeInHeader,
    data.getD j 0 = (link (program ρ.config)).getD j 0

/-- The values of the configuration. -/
theorem config_values {inputFile : InputFile} {compressed : Bytevector} {options : Options}
    {c : Config} (h : config inputFile compressed options = .ok c) : c.toOptions = options ∧
      c.loadAddress = inputFile.loadAddress ∧ c.entry = inputFile.entry ∧
      c.compressedProgram = compressed := by
  rw [config, bind_eq_ok] at h
  obtain ⟨load, hload, h⟩ := h
  obtain ⟨-, rfl⟩ := narrowInt32_eq_ok.mp hload
  cases hdebug : options.debugChecks <;>
    simp only [hdebug, Bool.false_eq_true, if_false, if_true, bind_eq_ok, Except.ok.injEq] at h
  all_goals
    obtain ⟨size, -, entry, hentry, rfl⟩ := h
    obtain ⟨-, rfl⟩ := narrowInt32_eq_ok.mp hentry
    exact ⟨rfl, rfl, rfl, rfl⟩

/-- The data of a cartridge. -/
theorem shrinklerCartridgeAssembler_eq_ok {inputFile : InputFile} {compressed data : Bytevector}
    {options : Options} {size : ℕ}
    (h : shrinklerCartridgeAssembler inputFile compressed options = .ok (data, size)) :
    ∃ c, config inputFile compressed options = .ok c ∧
      data = writeComplement (link (program c)) (complementOffset options) := by
  rw [shrinklerCartridgeAssembler, bind_eq_ok] at h
  obtain ⟨c, hc, h⟩ := h
  rw [bind_eq_ok] at h
  obtain ⟨linked, hlinked, h⟩ := h
  rw [assemble_eq_ok (shrinkler_failedAssertion c), Except.ok.injEq] at hlinked
  simp only [bind_eq_ok, Except.ok.injEq, Prod.mk.injEq] at h
  obtain ⟨-, -, -, -, rfl, -⟩ := h
  exact ⟨c, hc, by rw [hlinked]⟩

/-- What the packer puts together. -/
theorem pack_eq_ok {encode : Bytevector → Except Exception (Bytevector × Bool)}
    {inputFile : InputFile} {options : Options} {cartridge : Cartridge}
    (h : pack encode inputFile options = .ok cartridge) : ∃ compressed hint size,
      encode inputFile.data = .ok (compressed, hint) ∧
      shrinklerCartridgeAssembler inputFile compressed options = .ok (cartridge.data, size) ∧
      cartridge.packer = "Shrinkler" := by
  rw [pack, bind_eq_ok] at h
  obtain ⟨⟨compressed, hint⟩, hcompressed, h⟩ := h
  simp only [assembleCartridge, bind_eq_ok, Except.ok.injEq] at h
  obtain ⟨c, ⟨⟨data, size⟩, hdata, rfl⟩, h⟩ := h
  refine ⟨compressed, hint, size, hcompressed, ?_⟩
  split at h <;> cases h <;> exact ⟨hdata, rfl⟩

section gameVersion

attribute [local simp] emitNintendoLogo Stmt.size Instr.size Stmt.padding ofsFixedByte
  ofsGameVersion nintendoLogo_length header getbitCode

/-- The immediate value at the game version. -/
theorem program_gameVersion {c : Config} (h : c.codeInHeader = true) : ∃ pre post,
    locate 0 [] pre = ofsGameVersion ∧ ∀ x, program { c with gameVersion := x } =
      pre ++ .instr (.movImm tmp0 x) :: post := by
  have hcode (x : Byte) : getbitCode { c with gameVersion := x } =
      (getbitCode c).take 24 ++ .instr (.movImm tmp0 x) :: (getbitCode c).drop 25 := by
    simp [getbitCode, h]
  refine ⟨header c ++ (getbitCode c).take 24, (getbitCode c).drop 25 ++ (startCode c ++ mainCode ++
    exitCode c ++ getnumberCode ++ [.align 2] ++
      [.label .packedIntro, .bytes c.compressedProgram] ++ debugEmitPanicRoutine c),
    ?_, fun x => ?_⟩
  · simp [locate, h]
  · rw [program, depacker, hcode]
    simp only [List.append_assoc, List.cons_append]
    rfl

/-- Another immediate value is another byte of the linked program. -/
theorem link_gameVersion {c : Config} (h : c.codeInHeader = true) (x : Byte) :
    link (program { c with gameVersion := x }) = (link (program c)).set ofsGameVersion x := by
  obtain ⟨pre, post, hlocate, hprogram⟩ := program_gameVersion h
  have hc := hprogram c.gameVersion
  rw [hprogram x, link_movImm pre post tmp0 c.gameVersion x, hlocate, ← hc]

end gameVersion

/-- **The data of a finished cartridge are a linked program.** -/
theorem cartridge_holds {inputFile : InputFile} {compressed data : Bytevector} {options : Options}
    {size : ℕ} (h : shrinklerCartridgeAssembler inputFile compressed options = .ok (data, size))
    (hdebug : options.debugChecks = false) (mulCarry : Word → Word → Bool) (swi : ℕ → Cpu → Cpu) :
    ∃ ρ : Rom, ρ.Holds data ∧ ρ.config.debugChecks = false ∧ ρ.mulCarry = mulCarry ∧
      ρ.swi = swi ∧ ρ.config.loadAddress = inputFile.loadAddress ∧
      ρ.config.entry = inputFile.entry ∧ ρ.config.compressedProgram = compressed := by
  obtain ⟨c, hc, hdata⟩ := shrinklerCartridgeAssembler_eq_ok h
  obtain ⟨hoptions, hload, hentry, hcompressed⟩ := config_values hc
  have hnoDebug : c.debugChecks = false := by rw [hoptions, hdebug]
  cases hheader : options.codeInHeader with
  | true =>
      have hheader' : c.codeInHeader = true := by rw [hoptions, hheader]
      -- The byte that is adjusted is the immediate value of another program.
      obtain ⟨x, hx⟩ : ∃ x, data = (link (program c)).set ofsGameVersion x := by
        rw [hdata, complementOffset, if_pos hheader]
        exact ⟨_, rfl⟩
      rw [← link_gameVersion hheader' x] at hx
      exact ⟨⟨{ c with gameVersion := x }, mulCarry, swi⟩,
        ⟨congrArg List.length hx, fun j _ => by rw [hx]⟩, hnoDebug, rfl, rfl, hload, hentry,
        hcompressed⟩
  | false =>
      have hheader' : c.codeInHeader = false := by rw [hoptions, hheader]
      refine ⟨⟨c, mulCarry, swi⟩, ⟨?_, fun j hj => ?_⟩, hnoDebug, rfl, rfl, hload, hentry,
        hcompressed⟩
      · rw [hdata, writeComplement_length]
      · rw [spareByte, if_neg (by rw [hheader']; decide)] at hj
        rw [hdata, complementOffset, if_neg (by rw [hheader]; decide), List.getD_eq_getElem?_getD,
          writeComplement_getElem?_ne _ (by decide) hj, ← List.getD_eq_getElem?_getD]

/-! ## The cartridge in memory -/

/-- The linked program is in memory, but for a byte that is not code. -/
def Rom.Loaded (ρ : Rom) (m : Mem) : Prop :=
  LinkedAt romStart (program ρ.config) (spareByte ρ.config.codeInHeader) m

/-- The words of a sequence of bytes. -/
def wordsOf (bytes : ℕ → Byte) (j : ℕ) : Word :=
  bytes (4 * j + 3) ++ bytes (4 * j + 2) ++ bytes (4 * j + 1) ++ bytes (4 * j)

/-- What memory holds from an address on. -/
def bytesFrom (m : Mem) (a : Word) (i : ℕ) : Byte := m (a + BitVec.ofNat 32 i)

theorem load32_eq_wordsOf (m : Mem) (a : Word) (j : ℕ) :
    load32 m (a + BitVec.ofNat 32 (4 * j)) = wordsOf (bytesFrom m a) j := by
  have hbyte (k : ℕ) : m (a + BitVec.ofNat 32 (4 * j) + BitVec.ofNat 32 k) =
      bytesFrom m a (4 * j + k) := by
    rw [bytesFrom, BitVec.add_assoc, ← BitVec.ofNat_add]
  rw [load32, wordsOf, ← hbyte 3, ← hbyte 2, ← hbyte 1]
  rfl

section loaded

variable {ρ : Rom} {m : Mem} (hd : ρ.config.debugChecks = false) (h : ρ.Loaded m)
include hd h

/-- Its instructions are in memory. -/
theorem Rom.Loaded.inMemory : ρ.image.InMemory romStart m := by
  have hpool := poolStart_beforePool hd
  have hle : locate 0 [] (beforePool ρ.config) ≤ literalsOffset ρ.config.codeInHeader :=
    hpool ▸ Nat.le_add_right _ _
  have hoffset : literalsOffset ρ.config.codeInHeader < 0x200 := by
    cases ρ.config.codeInHeader <;> decide
  rw [Rom.image, program_eq]
  refine (linkable_program hd).inMemory _ _ ?_ (by omega) ?_
  · simp only [romStart]
    omega
  · rw [← program_eq]
    exact h

omit hd in
/-- Its first instruction is the branch to the depacker. -/
theorem Rom.Loaded.branch :
    decodeArm (BitVec.ofNat 32 romStart) (load32 m (BitVec.ofNat 32 romStart)).toNat =
      some (.b (ρ.sym .codeStart)) := by
  have hlabel := labelPlaced_program ρ (l := .codeStart) rfl
  have hsym : ∀ o : Options, 8 ≤ symOffset o .codeStart ∧ symOffset o .codeStart < 2 ^ 25 ∧
      symOffset o .codeStart % 4 = 0 := by decide
  have hsym := hsym ρ.config.toOptions
  have hspare : 4 ≤ spareByte ρ.config.codeInHeader := by
    cases ρ.config.codeInHeader <;> decide
  have hlength := (shrinkler_headerImage ρ.config).length
  rw [ofsComplement] at hlength
  rw [ρ.sym_eq (l := .codeStart) rfl, ← hlabel]
  rw [← hlabel] at hsym
  have hss : program ρ.config = .armBranch .codeStart :: (program ρ.config).tail := rfl
  exact decodeArm_link hss hsym.1 hsym.2.1 hsym.2.2 fun j hj => h j (by omega) (by omega)

/-- The compressed program is in memory. -/
theorem Rom.Loaded.compressed {i : ℕ} (hi : i < ρ.config.compressedProgram.length) :
    bytesFrom m (ρ.sym .packedIntro) i = ρ.config.compressedProgram.getD i 0 := by
  have hspare : spareByte ρ.config.codeInHeader <
      labelPlaced .packedIntro (place 0 [] (program ρ.config)) := by
    have hunused := (linkable_program hd).unused
    rw [poolStart_beforePool hd] at hunused
    obtain hplaced | hplaced := labelPlaced_packedIntro hd <;> omega
  exact LinkedAt.bytes h (labelsDistinct_program ρ.config) (program_packedIntro hd) hspare hi

end loaded

/-! ## The run -/

/-- The plain decoder unpacks compressed data to the data of the program, whatever follows them. It
reads no more than `ahead` bytes of that. -/
def UnpacksTo (load : Word) (compressed data : Bytevector) (ahead : ℕ) : Prop :=
  ∀ bytes : ℕ → Byte, (∀ i < compressed.length, bytes i = compressed.getD i 0) →
    ∃ n x, iter (Reference.step load (bitAt (wordsOf bytes))) n .start = some x ∧
      x.unpacker.place = .done ∧ x.unpacker.out = data ∧
      4 * loaded 32 x.decoder.pos ≤ compressed.length + ahead

/-- The words of the compressed data do not depend on what follows them. -/
theorem bitAt_wordsOf {compressed : Bytevector} {bytes : ℕ → Byte} {i m : ℕ}
    (hm : compressed.length = 4 * m) (hi : i < 32 * m)
    (h : ∀ i < compressed.length, bytes i = compressed.getD i 0) :
    bitAt (wordsOf bytes) i = bitAt (wordsOf fun i => compressed.getD i 0) i := by
  have hword : wordsOf bytes (i / 32) = wordsOf (fun i => compressed.getD i 0) (i / 32) := by
    simp only [wordsOf]
    rw [h _ (by omega), h _ (by omega), h _ (by omega), h _ (by omega)]
  rw [bitAt, hword, bitAt]

/-- Behind the data are zeros. -/
theorem bitAt_behind {compressed : Bytevector} {i m : ℕ} (hm : compressed.length = 4 * m)
    (hi : 32 * m ≤ i) : bitAt (wordsOf fun i => compressed.getD i 0) i = false := by
  have hbyte (k : ℕ) : compressed.getD (4 * (i / 32) + k) 0 = 0 :=
    List.getD_eq_default _ _ (by omega)
  have hword : wordsOf (fun i => compressed.getD i 0) (i / 32) = 0 := by
    rw [wordsOf, hbyte 3, hbyte 2, hbyte 1]
    exact (congrArg _ (hbyte 0)).trans (by decide)
  rw [bitAt, hword]
  exact BitVec.getMsbD_zero

/-- **What follows the data does not matter** where the plain decoder, after it has unpacked them
with zeros behind them, has room in its interval for whatever was behind them. -/
theorem UnpacksTo.of_zeros {load : Word} {compressed : Bytevector} {ahead m n : ℕ} {x : Reference}
    (hm : compressed.length = 4 * m)
    (h : iter (Reference.step load (bitAt (wordsOf fun i => compressed.getD i 0))) n .start =
      some x)
    (hdone : x.unpacker.place = .done) (hle : 32 * m ≤ x.decoder.pos)
    (hroom : x.decoder.value + 2 ^ (x.decoder.pos - 32 * m) ≤ x.decoder.range)
    (hahead : 4 * loaded 32 x.decoder.pos ≤ compressed.length + ahead) :
    UnpacksTo load compressed x.unpacker.out ahead := by
  intro bytes hbytes
  obtain ⟨u, d⟩ := x
  obtain ⟨bits, hbits, hzeros, rfl⟩ := holds_of_iter h
  generalize hc : cell adaptation (contextAfter load) wholeCell bits = c at *
  simp only [Cell.decoder] at hle hroom hahead
  have hzero := leading_add_of_zeros (x := bitAt (wordsOf fun i => compressed.getD i 0))
    (fun _ hi => bitAt_behind hm hi) (c.pos - 32 * m)
  rw [Nat.add_sub_cancel' hle] at hzero
  have hsame : leading (bitAt (wordsOf bytes)) (32 * m) =
      leading (bitAt (wordsOf fun i => compressed.getD i 0)) (32 * m) :=
    leading_congr fun i hi => bitAt_wordsOf hm hi hbytes
  obtain ⟨hlo, hhi⟩ := leading_add (bitAt (wordsOf bytes)) (32 * m) (c.pos - 32 * m)
  rw [Nat.add_sub_cancel' hle, hsame] at hlo hhi
  rw [← hzero] at hlo
  rw [Nat.mul_add, ← hzero, Nat.mul_one] at hhi
  have hholds : c.Holds (bitAt (wordsOf bytes)) := by
    obtain ⟨hlow, -⟩ := hzeros
    constructor <;> omega
  subst hc
  exact ⟨bits.length, _, iter_of_holds hbits hholds, hdone, rfl, hahead⟩

section run

variable {ρ : Rom} {B : Board} {s : Cpu} {data : Bytevector} {ahead : ℕ}

/-- The branch to the depacker. -/
theorem Rom.Loaded.step_branch (h : ρ.Loaded s.mem) (hpc : s.pc = BitVec.ofNat 32 romStart)
    (hthumb : s.thumb = false) : B.step s = some { s with pc := ρ.sym .codeStart } := by
  rw [Board.step, if_neg (by rw [hthumb]; decide), hpc, h.branch]
  rfl

/-- What the depacker needs. -/
theorem prepared_of_room (hd : ρ.config.debugChecks = false) (hpc : s.pc = ρ.sym .codeStart)
    (hthumb : s.thumb = false) (hsp : s.sp.toNat % 4 = 0)
    (hout : Disjoint (range ρ.config.loadAddress data.length) (range (s.sp - 4120) 4120))
    (hrom : Disjoint (range (BitVec.ofNat 32 romStart) ((link (program ρ.config)).length + ahead))
      (range (s.sp - 4120) 4120 ∪ range ρ.config.loadAddress data.length)) {words : ℕ}
    (hwords : 4 * words ≤ ρ.config.compressedProgram.length + ahead) :
    Prepared ρ s (wordsOf (bytesFrom s.mem (ρ.sym .packedIntro))) words data.length := by
  refine ⟨⟨hpc, hthumb, hsp⟩, hout, fun j _ => load32_eq_wordsOf _ _ j, fun j hj => ?_⟩
  refine hrom.mono_left (range_subset ?_)
  have hlength := link_length_of_split (labelsDistinct_program ρ.config) (program_packedIntro hd)
  have hsym : ρ.sym .packedIntro =
      BitVec.ofNat 32 (romStart + labelPlaced .packedIntro (place 0 [] (program ρ.config))) := rfl
  rw [hsym, ← BitVec.ofNat_add, Nat.add_assoc, BitVec.ofNat_add, BitVec.add_comm,
    BitVec.add_sub_cancel, BitVec.toNat_ofNat]
  have hle := Nat.mod_le
    (labelPlaced .packedIntro (place 0 [] (program ρ.config)) + 4 * j) (2 ^ 32)
  omega

/-- **A ROM in memory unpacks its program and enters it.** -/
theorem Rom.Loaded.boots (hd : ρ.config.debugChecks = false) (h : ρ.Loaded s.mem)
    (hmul : B.mulCarry = ρ.mulCarry) (hswi : B.swi = ρ.swi) (hpc : s.pc = BitVec.ofNat 32 romStart)
    (hthumb : s.thumb = false) (hsp : s.sp.toNat % 4 = 0)
    (hdecodes : UnpacksTo ρ.config.loadAddress ρ.config.compressedProgram data ahead)
    (hout : Disjoint (range ρ.config.loadAddress data.length) (range (s.sp - 4120) 4120))
    (hrom : Disjoint (range (BitVec.ofNat 32 romStart) ((link (program ρ.config)).length + ahead))
      (range (s.sp - 4120) 4120 ∪ range ρ.config.loadAddress data.length)) :
    ∃ t, Passes B.step (fun u => Set.EqOn u.mem s.mem
        (range ρ.config.loadAddress data.length ∪ range (s.sp - 4120) 4120)ᶜ) s t ∧
      Entered ⟨ρ.config.entry, ρ.config.loadAddress, data⟩ (range (s.sp - 4120) 4120) s t := by
  -- What follows the compressed program in memory does not matter.
  obtain ⟨n, x, hrun, hdone, rfl, hwords⟩ := hdecodes _ fun i hi => h.compressed hd hi
  obtain ⟨s₁, hs₁⟩ : ∃ s₁ : Cpu, s₁ = { s with pc := ρ.sym .codeStart } := ⟨_, rfl⟩
  have hmem₁ : s₁.mem = s.mem := by rw [hs₁]
  have hsp₁ : s₁.sp = s.sp := by rw [hs₁]
  have hstep : B.step s = some s₁ := by rw [hs₁, h.step_branch hpc hthumb]
  have hprepared : Prepared ρ s₁ (wordsOf (bytesFrom s.mem (ρ.sym .packedIntro)))
      (loaded 32 x.decoder.pos) x.unpacker.out.length := by
    subst hs₁
    exact prepared_of_room (s := { s with pc := ρ.sym .codeStart }) hd rfl hthumb hsp hout hrom
      hwords
  obtain ⟨k, t, hk, hunpacked, hthumb', hbetween⟩ :=
    hprepared.partlyUnpacked hd hrun hdone (Nat.le_refl _) (Nat.le_refl _)
  -- The ROM stays what it is.
  have hsame (j : ℕ) (hj : j ≤ k) (u : Cpu) (hu : iter (stepToBx ρ.image) j s₁ = some u) :
      Set.EqOn u.mem s.mem (range ρ.config.loadAddress x.unpacker.out.length ∪
        range (s.sp - 4120) 4120)ᶜ := by
    obtain ⟨p, hp, -, hrest⟩ := hbetween j hj u hu
    rw [hmem₁, hsp₁] at hrest
    refine hrest.mono (Set.compl_subset_compl.mpr (Set.union_subset_union_left _ ?_))
    exact range_subset (by simpa using hp)
  have hdata : range (BitVec.ofNat 32 romStart) (link (program ρ.config)).length ⊆
      range (BitVec.ofNat 32 romStart) ((link (program ρ.config)).length + ahead) :=
    range_subset (by simp)
  have hloaded {u : Cpu} (hu : Set.EqOn u.mem s.mem (range ρ.config.loadAddress
      x.unpacker.out.length ∪ range (s.sp - 4120) 4120)ᶜ) : ρ.Loaded u.mem :=
    LinkedAt.congr h (hu.mono (by
      rw [Set.union_comm]
      exact Set.subset_compl_iff_disjoint_right.mpr (hrom.mono_left hdata)))
  have hpass := Board.follows (P := fun m => Set.EqOn m s.mem (range ρ.config.loadAddress
    x.unpacker.out.length ∪ range (s.sp - 4120) 4120)ᶜ) (show romStart % 4 = 0 by decide) hmul hswi
    (fun _ _ => step_of_stepToBx) ⟨k, hk, fun j hj u hu =>
      ⟨(hloaded (hsame j hj.le u hu)).inMemory hd, hsame j hj.le u hu⟩⟩
  -- The jump to the program.
  have hend := hsame k (Nat.le_refl k) t hk
  have hbx : Thumb.step ρ.image t =
      some { t with pc := t.r1 &&& ~~~1, thumb := t.r1.getLsbD 0 } := by
    rw [step_of_fetch hunpacked.fetch rfl hthumb']
    rfl
  obtain ⟨m, hseg⟩ := Board.step_of_lies (show romStart % 4 = 0 by decide) hmul hswi
    ((hloaded hend).inMemory hd _ _ hunpacked.fetch) hunpacked.fetch hbx
  refine ⟨_, (Passes.of_step hstep fun _ _ => rfl).trans (hpass.trans (.of_segment hseg hend
    fun v hv => by rw [hv]; exact hend)), ?_, ?_, ?_, hunpacked.bytes, hend⟩
  · rw [hunpacked.entry]
  · rw [hunpacked.entry]
  · exact hunpacked.sp.trans hsp₁

/-- The cartridge of the packer unpacks its program and enters it. -/
theorem cartridge_boots {inputFile : InputFile} {compressed : Bytevector} {options : Options}
    {size : ℕ} {rom : Bytevector}
    (h : shrinklerCartridgeAssembler inputFile compressed options = .ok (data, size))
    (hdebug : options.debugChecks = false)
    (hdecodes : UnpacksTo inputFile.loadAddress compressed inputFile.data ahead)
    (hs : PoweredOn rom s) (hdata : data <+: rom)
    (hout : Disjoint (range inputFile.loadAddress inputFile.data.length)
      (range (s.sp - 4120) 4120))
    (hrom : Disjoint (range (BitVec.ofNat 32 romStart) (data.length + ahead))
      (range (s.sp - 4120) 4120 ∪ range inputFile.loadAddress inputFile.data.length)) :
    ∃ t, Passes B.step (fun u => Set.EqOn u.mem s.mem
        (range inputFile.loadAddress inputFile.data.length ∪ range (s.sp - 4120) 4120)ᶜ) s t ∧
      Entered inputFile (range (s.sp - 4120) 4120) s t := by
  obtain ⟨ρ, hholds, hd, hmul, hswi, hload, hentry, hcompressed⟩ :=
    cartridge_holds h hdebug B.mulCarry B.swi
  obtain ⟨padding, rfl⟩ := hdata
  have hloaded : ρ.Loaded s.mem := by
    intro j hj hspare
    rw [← hholds.length] at hj
    rw [hs.rom j (by rw [List.length_append]; omega), List.getD_append _ _ _ _ hj,
      hholds.bytes j hspare]
  rw [← hload] at hdecodes hout hrom ⊢
  rw [← hcompressed] at hdecodes
  rw [hholds.length] at hrom
  obtain ⟨t, hpass, ht⟩ := Rom.Loaded.boots hd hloaded hmul.symm hswi.symm hs.pc hs.thumb hs.sp
    hdecodes hout hrom
  rw [hentry, hload] at ht
  exact ⟨t, hpass, ht⟩

end run

/-- **The cartridge of the Shrinkler packer works**, without debug checks. Where the plain decoder
unpacks what the encoder returns, whatever follows that in memory, the processor executes the
cartridge, from its first word on, until it enters the program, which lies at its load address. On
the way, memory is unchanged but for the output and the stack. -/
theorem shrinkler_boots {encode : Bytevector → Except Exception (Bytevector × Bool)}
    {inputFile : InputFile} {options : Options} {cartridge : Cartridge} {ahead : ℕ}
    (hpack : pack encode inputFile options = .ok cartridge) (hdebug : options.debugChecks = false)
    (hencode : ∀ compressed hint, encode inputFile.data = .ok (compressed, hint) →
      UnpacksTo inputFile.loadAddress compressed inputFile.data ahead)
    (B : Board) {s : Cpu} (hs : PoweredOn cartridge.data s)
    (hout : Disjoint (range inputFile.loadAddress inputFile.data.length)
      (range (s.sp - 4120) 4120))
    (hrom : Disjoint (range (BitVec.ofNat 32 romStart) (cartridge.data.length + ahead))
      (range (s.sp - 4120) 4120 ∪ range inputFile.loadAddress inputFile.data.length)) :
    ∃ t, Passes B.step (fun u => Set.EqOn u.mem s.mem
        (range inputFile.loadAddress inputFile.data.length ∪ range (s.sp - 4120) 4120)ᶜ) s t ∧
      Entered inputFile (range (s.sp - 4120) 4120) s t := by
  obtain ⟨compressed, hint, size, hcompressed, hassembler, -⟩ := pack_eq_ok hpack
  exact cartridge_boots hassembler hdebug (hencode _ _ hcompressed) hs (List.prefix_refl _) hout
    hrom

/-- A program of one byte and a copy of four bytes. -/
def copies : InputFile := ⟨0x02000000, 0x02000000, [0x5f, 0x5f, 0x5f, 0x5f, 0x5f]⟩

/-- It is compressed to one word, although the decoder reads two. -/
def copiesCompressed : Bytevector := [0x00, 0x70, 0x67, 0xa0]

/-- It is unpacked again, whatever follows. -/
theorem unpacksTo_copies : UnpacksTo copies.loadAddress copiesCompressed copies.data 4 := by
  obtain ⟨x, hrun, hx⟩ : ∃ x, iter (Reference.step copies.loadAddress
      (bitAt (wordsOf fun i => copiesCompressed.getD i 0))) 19 .start = some x ∧
      (x.unpacker.place, x.unpacker.out, x.decoder.pos, x.decoder.value, x.decoder.range) =
        (.done, copies.data, 33, 5056, 17340) :=
    Option.map_eq_some_iff.mp (by decide +kernel)
  simp only [Prod.mk.injEq] at hx
  obtain ⟨hdone, hout, hpos, hvalue, hrange⟩ := hx
  rw [← hout]
  refine UnpacksTo.of_zeros (m := 1) rfl hrun hdone ?_ ?_ ?_
  · rw [hpos]
    decide
  · rw [hpos, hvalue, hrange]
    decide
  · rw [hpos]
    decide

/-- An encoder that knows this program. -/
def copiesEncode (_ : Bytevector) : Except Exception (Bytevector × Bool) :=
  .ok (copiesCompressed, false)

/-- Its cartridge. -/
def copiesCartridge : Cartridge where
  packer := "Shrinkler"
  data := writeComplement (link (program {
    loadAddress := 0x02000000
    entry := 0x02000000
    checksum := adler32 copies.data
    compressedProgram := copiesCompressed })) ofsGameVersion
  compressedSize := 4
  depackerSize := 0xc8

/-- The cartridge is in the console. -/
def copiesStart : Cpu := { started packedRom with
  pc := 0x08000000
  mem := romMemory copiesCartridge.data }

theorem shrinkler_boots_copies : ∃ t,
    Passes (Board.step ⟨fun _ _ => false, fun _ s => s⟩) (fun u => Set.EqOn u.mem copiesStart.mem
      (range 0x02000000 5 ∪ range (0x03007f00 - 4120) 4120)ᶜ) copiesStart t ∧
    Entered copies (range (0x03007f00 - 4120) 4120) copiesStart t := by
  have hlen : copiesCartridge.data.length = 0x18c := by decide +kernel
  have hpack : pack copiesEncode copies {} = .ok copiesCartridge := by decide +kernel
  have hmem : copiesStart.mem = romMemory copiesCartridge.data := by rw [copiesStart]
  have hs : PoweredOn copiesCartridge.data copiesStart := by
    refine ⟨by decide, rfl, by decide, ?_⟩
    rw [hmem]
    exact romMemory_apply (by rw [hlen]; decide)
  have hrom : Disjoint (range (BitVec.ofNat 32 romStart) (0x18c + 4))
      (range (0x03007f00 - 4120) 4120 ∪ range 0x02000000 5) := by
    rw [Set.disjoint_union_right]
    exact ⟨disjoint_range (by decide) (by decide), disjoint_range (by decide) (by decide)⟩
  exact shrinkler_boots hpack rfl (fun compressed hint h => by cases h; exact unpacksTo_copies)
    ⟨fun _ _ => false, fun _ s => s⟩ hs (disjoint_range (by decide) (by decide))
    (by rw [hlen]; exact hrom)

end ShrinklerGba.Shrinkler
