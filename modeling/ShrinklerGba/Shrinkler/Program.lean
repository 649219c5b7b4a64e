import ShrinklerGba.CartridgeAssembler
import ShrinklerGba.InputFile

/-!
# The Shrinkler depacker

The cartridge of the Shrinkler packer, statement by statement as `assemble` emits it.

* `Config` collects what the emitted code depends on; `program c` is the cartridge.
* `shrinklerCartridgeAssembler` is the constructor: assemble, write the complement, check.
-/

namespace ShrinklerGba.Shrinkler

open Thumb

/-! ## Registers and constants -/

/-- Source: `shrinkler_packer.cpp`, `initial_sp`. -/
def initialSp : Word := 0x03007f00

/-- Compressed data. -/
abbrev inp : Reg := .r0

/-- Decompressed data. -/
abbrev outp : Reg := .r1

/-- Scratch register 0. -/
abbrev tmp0 : Reg := .r2

/-- Scratch register 1. -/
abbrev tmp1 : Reg := .r3

/-- Range value. -/
abbrev rvalue : Reg := .r4

/-- Interval size. -/
abbrev isize : Reg := .r5

/-- Input bit buffer. -/
abbrev bitbuf : Reg := .r6

/-- Bit context index. -/
abbrev bitctx : Reg := .r7

/-- Offset. -/
abbrev offset : Reg := .r8

/-- Saved stack pointer. -/
abbrev savedSp : Reg := .r9

/-- Source: `shrinkler_packer.cpp`, `ADJUST_SHIFT`. -/
abbrev adjustShift : ℕ := 4

/-- Source: `shrinkler_packer.cpp`, `SINGLE_BIT_CONTEXTS`. -/
abbrev singleBitContexts : ℕ := 1

/-- Source: `shrinkler_packer.cpp`, `NUM_CONTEXTS`. -/
abbrev numContexts : ℕ := 2048

/-- Source: `shrinkler_packer.cpp`, `INIT_ONE_PROB`. -/
abbrev initOneProb : ℕ := 0x8000

/-- Source: `shrinkler_packer.cpp`, `getnumber_push_list`. -/
abbrev getnumberPushList : List Reg := [outp, .lr]

/-- Source: `shrinkler_packer.cpp`, `getbit_push_list`. -/
abbrev getbitPushList : List Reg := [outp, tmp0, tmp1, .lr]

/-- Source: `shrinkler_packer.cpp`, `CTX_TABLE_OFFSET`. -/
abbrev ctxTableOffset : ℕ :=
  4 * getbitPushList.length + 4 * getnumberPushList.length + 2 * singleBitContexts

/-- The options of the packer that the emitted code depends on.
Source: `shrinkler_packer.cpp`, `shrinkler_packer_options`. -/
structure Options where
  /-- `code_in_header` -/
  codeInHeader : Bool := true
  /-- `debug_checks` -/
  debugChecks : Bool := false

/-- What the emitted statements depend on: the options, the immediate value at the game version,
the values of the input file and the compressed program. -/
structure Config extends Options where
  /-- The immediate value of the second inserted `mov`. -/
  gameVersion : Byte := 0x77
  /-- `input_file.load_address()` -/
  loadAddress : Word
  /-- `input_file.entry()` -/
  entry : Word
  /-- `input_file.loaded_data_size()` -/
  loadedDataSize : Word := 0
  /-- `adler32(input_file.data())` -/
  checksum : Word := 0
  /-- `compressed_program` -/
  compressedProgram : Bytevector := []

/-! ## Debug macros -/

/-- The bytes of a zero terminated string. -/
def asciz (s : String) : List Byte := s.toList.map (fun ch => BitVec.ofNat 8 ch.toNat) ++ [0]

/-- The label is the message itself in the source.
Source: `shrinkler_packer.cpp`, `debug_call_panic_routine`. -/
def debugCallPanicRoutine (label : Label) (message : String) : List (Stmt Label) := [
  .instr (.adr .r2 label),
  .instr (.bl .panic),
  .align 2,
  .label label,
  .bytes (asciz message),
  .align 1]

/-- Source: `shrinkler_packer.cpp`, `debug_check_decompressed_data_size`. -/
def debugCheckDecompressedDataSize (c : Config) : List (Stmt Label) :=
  if c.debugChecks then
    [.instr (.ldrLit tmp1 c.loadAddress),
     .instr (.subReg outp outp tmp1),
     .instr (.ldrLit tmp1 c.loadedDataSize),
     .instr (.cmpReg outp tmp1),
     .instr (.bc .eq .decompressedDataSizeOk)] ++
    debugCallPanicRoutine .messageSize "Wrong decompressed data size\n" ++
    [.label .decompressedDataSizeOk]
  else []

/-- Source: `shrinkler_packer.cpp`, `debug_check_decompressed_data`. -/
def debugCheckDecompressedData (c : Config) : List (Stmt Label) :=
  if c.debugChecks then
    let decompressedData := Reg.r0
    let s1 := Reg.r1
    let s2 := Reg.r2
    let loopCounter := Reg.r3
    let byte := Reg.r4
    let base := Reg.r5
    let expectedChecksum := Reg.r6
    ([.instr (.ldrLit base 65521),
     .instr (.ldrLit decompressedData c.loadAddress),
     .instr (.movImm s1 1),
     .instr (.movImm s2 0),
     .instr (.ldrLit loopCounter c.loadedDataSize),
     .label .adler32Loop,
     .instr (.ldrb byte decompressedData 0),
     .instr (.addReg s1 s1 byte),
     .instr (.cmpReg s1 base),
     .instr (.bc .cc .s1Ok),
     .instr (.subReg s1 s1 base),
     .label .s1Ok,
     .instr (.addReg s2 s2 s1),
     .instr (.cmpReg s2 base),
     .instr (.bc .cc .s2Ok),
     .instr (.subReg s2 s2 base),
     .label .s2Ok,
     .instr (.addImm decompressedData 1),
     .instr (.subImm loopCounter 1),
     .instr (.bc .ne .adler32Loop),
     .instr (.lsl s2 s2 16),
     .instr (.orr s1 s2),
     .instr (.ldrLit expectedChecksum c.checksum),
     .instr (.cmpReg s1 expectedChecksum),
     .instr (.bc .eq .checksumOk)] : List (Stmt Label)) ++
    debugCallPanicRoutine .messageChecksum "Wrong decompressed data checksum\n" ++
    [.label .checksumOk]
  else []

/-- Source: `shrinkler_packer.cpp`, `debug_check_sp_on_exit`. -/
def debugCheckSpOnExit (c : Config) : List (Stmt Label) :=
  if c.debugChecks then
    [.instr (.ldrLit .r0 initialSp),
     .instr (.cmpHigh .r0 .sp),
     .instr (.bc .eq .spOk)] ++
    debugCallPanicRoutine .messageSp "Wrong sp after depacking\n" ++
    [.label .spOk]
  else []

/-- Source: `shrinkler_packer.cpp`, `reg_dispcnt`. -/
def regDispcnt : Word := 0x04000000

/-- Source: `shrinkler_packer.cpp`, `mode_4`. -/
def mode4 : Word := 4

/-- Source: `shrinkler_packer.cpp`, `bg2_on`. -/
def bg2On : Word := 1 <<< 10

/-- Source: `shrinkler_packer.cpp`, `rgb5`. -/
def rgb5 (r g b : Word) : Word := r ||| (g <<< 5) ||| (b <<< 10)

/-- Source: `shrinkler_packer.cpp`, `rgb8`. -/
def rgb8 (r g b : Word) : Word := rgb5 (r >>> 3) (g >>> 3) (b >>> 3)

/-- Source: `shrinkler_packer.cpp`, `debug_emit_panic_routine`. -/
def debugEmitPanicRoutine (c : Config) : List (Stmt Label) :=
  if c.debugChecks then
    [.align 1,
     .label .panic,
     .instr (.ldrLit .r0 0xc0ded00d),
     .instr (.movImm .r1 0),
     .instr (.and .r0 .r0),
     .instr (.ldrLit .r0 (mode4 ||| bg2On)),
     .instr (.ldrLit .r1 regDispcnt),
     .instr (.str .r0 .r1 0),
     .instr (.ldrLit .r0 ((rgb8 255 255 255 <<< 16) ||| rgb8 0 119 215)),
     .instr (.ldrLit .r1 bgPaletteStart),
     .instr (.str .r0 .r1 0),
     .instr (.adr .r0 .sadface),
     .instr (.ldrLit .r1 (vramStart + 4 * 240 + 4)),
     .instr (.movImm .r4 8),
     .label .copyLine,
     .instr (.ldmia .r0 [.r2, .r3]),
     .instr (.stmia .r1 [.r2, .r3]),
     .instr (.addImm .r1 (240 - 8)),
     .instr (.subImm3 .r4 .r4 1),
     .instr (.bc .ne .copyLine),
     .label .loop,
     .instr (.b .loop),
     .align 2,
     .label .sadface,
     .bytes [0x00, 0x01, 0x01, 0x01, 0x01, 0x01, 0x01, 0x00],
     .bytes [0x01, 0x00, 0x00, 0x00, 0x00, 0x00, 0x00, 0x01],
     .bytes [0x01, 0x00, 0x01, 0x00, 0x00, 0x01, 0x00, 0x01],
     .bytes [0x01, 0x00, 0x00, 0x00, 0x00, 0x00, 0x00, 0x01],
     .bytes [0x01, 0x00, 0x00, 0x01, 0x01, 0x00, 0x00, 0x01],
     .bytes [0x01, 0x00, 0x01, 0x00, 0x00, 0x01, 0x00, 0x01],
     .bytes [0x01, 0x00, 0x00, 0x00, 0x00, 0x00, 0x00, 0x01],
     .bytes [0x00, 0x01, 0x01, 0x01, 0x01, 0x01, 0x01, 0x00],
     .pool]
  else []

/-! ## The cartridge -/

/-- The branch to the depacker, the logo, and the header fields if they hold no code. -/
def header (c : Config) : List (Stmt Label) :=
  [.armBranch .codeStart] ++ emitNintendoLogo ++
  (if c.codeInHeader then [] else emitRemainingHeader)

/-- `getkind` and `getbit`. -/
def getbitCode (c : Config) : List (Stmt Label) :=
  ([.assertAligned 1,
   .align 1,
   .label .getkind,
   .instr (.lsl bitctx outp 31),
   .instr (.lsr bitctx bitctx 23),
   .label .getbit,
   .instr (.push getbitPushList),
   .instr (.b .loopCondition),
   .label .readbit,
   .instr (.lsl bitbuf bitbuf 1),
   .instr (.bc .ne .nonewword),
   .label .newword,
   .instr (.ldr bitbuf inp 0),
   .instr (.addImm inp 4),
   .instr (.addReg bitbuf bitbuf bitbuf)] : List (Stmt Label)) ++
  (if c.codeInHeader then
    [.assertLc ofsFixedByte "fixed byte",
     .instr (.movImm tmp0 fixedByteValue)]
   else []) ++
  ([.instr (.movImm tmp0 1),
   .instr (.orr bitbuf tmp0),
   .label .nonewword,
   .instr (.adc rvalue rvalue),
   .instr (.addReg isize isize isize),
   .label .loopCondition] : List (Stmt Label)) ++
  (if c.codeInHeader then
    [.assertLc ofsGameVersion "game version",
     .instr (.movImm tmp0 c.gameVersion)]
   else []) ++
  ([.instr (.lsr tmp0 isize 16),
   .instr (.bc .cc .readbit),
   .instr (.addReg tmp0 bitctx bitctx),
   .instr (.addHigh tmp0 .sp),
   .instr (.ldrh tmp1 tmp0 ctxTableOffset),
   .instr (.movLow outp tmp1),
   .instr (.mul outp isize),
   .instr (.lsr outp outp 16),
   .instr (.lsr bitctx tmp1 adjustShift),
   .instr (.subReg tmp1 tmp1 bitctx),
   .instr (.subReg rvalue rvalue outp),
   .instr (.bc .cc .one),
   .label .zero,
   .instr (.subReg isize isize outp),
   .instr (.addImm tmp1 0),
   .instr (.b .done),
   .label .one,
   .instr (.movLow isize outp),
   .instr (.ldrLit bitctx (0xffff >>> adjustShift)),
   .instr (.addReg tmp1 tmp1 bitctx),
   .instr (.addReg rvalue rvalue outp),
   .label .done,
   .instr (.strh tmp1 tmp0 ctxTableOffset),
   .instr (.popPc [outp, tmp0, tmp1])] : List (Stmt Label))

/-- From the entry point to the end of the context table's initialisation. -/
def startCode (c : Config) : List (Stmt Label) :=
  [.assertAligned 2,
   .align 2,
   .label .codeStart,
   .instr (.armToThumb inp),
   .instr (.movHigh savedSp .sp),
   .instr (.adr inp .packedIntro),
   .instr (.ldrLit outp c.loadAddress),
   .instr (.movImm isize 1),
   .instr (.lsl bitbuf isize 31),
   .instr (.lsl rvalue isize (Nat.log2 (numContexts / 2))),
   .instr (.lsl bitctx isize (Nat.log2 initOneProb)),
   .instr (.orr bitctx bitbuf),
   .label .init,
   .instr (.push [bitctx]),
   .instr (.subImm rvalue 1),
   .instr (.bc .ne .init)]

/-- The main decompression loop. -/
def mainCode : List (Stmt Label) :=
  [.label .literal,
   .instr (.movImm tmp0 1),
   .label .getlit,
   .instr (.lsl bitctx outp 31),
   .instr (.lsr bitctx bitctx 23),
   .instr (.orr bitctx tmp0),
   .instr (.bl .getbit),
   .instr (.adc tmp0 tmp0),
   .instr (.cmpImm tmp0 255),
   .instr (.bc .ls .getlit),
   .instr (.strb tmp0 outp 0),
   .instr (.addImm outp 1),
   .label .switch,
   .instr (.bl .getkind),
   .instr (.bc .cc .literal),
   .instr (.movImm bitctx 0),
   .instr (.subImm bitctx 1),
   .instr (.bl .getbit),
   .instr (.bc .cc .readoffset),
   .label .readlength,
   .instr (.movImm tmp0 4),
   .instr (.bl .getnumber),
   .instr (.movHigh tmp0 offset),
   .instr (.neg tmp0 tmp0),
   .label .copyloop,
   .instr (.ldrbReg bitctx outp tmp0),
   .instr (.strb bitctx outp 0),
   .instr (.addImm outp 1),
   .instr (.subImm tmp1 1),
   .instr (.bc .ne .copyloop),
   .instr (.bl .getkind),
   .instr (.bc .cc .literal),
   .label .readoffset,
   .instr (.movImm tmp0 3),
   .instr (.bl .getnumber),
   .instr (.subImm tmp1 2),
   .instr (.movHigh offset tmp1),
   .instr (.bc .ne .readlength)]

/-- Leaving the depacker. -/
def exitCode (c : Config) : List (Stmt Label) :=
  [.label .donedecompressing,
   .instr (.movHigh .sp savedSp)] ++
  debugCheckDecompressedDataSize c ++ debugCheckDecompressedData c ++ debugCheckSpOnExit c ++
  [.instr (.ldrLit outp c.entry),
   .instr (.bx outp)]

/-- `getnumber` and the literal pool. -/
def getnumberCode : List (Stmt Label) :=
  [.label .getnumber,
   .instr (.push getnumberPushList),
   .instr (.lsl tmp0 tmp0 8),
   .instr (.movImm outp 0),
   .label .numberloop,
   .instr (.addImm outp 2),
   .instr (.movLow bitctx tmp0),
   .instr (.orr bitctx outp),
   .instr (.bl .getbit),
   .instr (.bc .cs .numberloop),
   .instr (.movImm tmp1 1),
   .instr (.subImm outp 1),
   .label .bitsloop,
   .instr (.movLow bitctx tmp0),
   .instr (.orr bitctx outp),
   .instr (.bl .getbit),
   .instr (.adc tmp1 tmp1),
   .instr (.subImm outp 2),
   .instr (.bc .cs .bitsloop),
   .instr (.popPc [outp]),
   .pool]

/-- The statements before the compressed program. -/
def depacker (c : Config) : List (Stmt Label) :=
  header c ++ getbitCode c ++ startCode c ++ mainCode ++ exitCode c ++ getnumberCode ++ [.align 2]

/-- The cartridge.
Source: `shrinkler_packer.cpp`, `shrinkler_cartridge_assembler::assemble`. -/
def program (c : Config) : List (Stmt Label) :=
  depacker c ++ [.label .packedIntro, .bytes c.compressedProgram] ++ debugEmitPanicRoutine c

/-! ## The packer -/

/-- The narrowing conversions of the values that the code loads.
Source: `shrinkler_packer.cpp`, `shrinkler_cartridge_assembler::assemble`. -/
def config (inputFile : InputFile) (compressedProgram : Bytevector) (options : Options) :
    Except Exception Config := do
  let loadAddress ← narrowInt32 inputFile.loadAddress
  let loadedDataSize ←
    if options.debugChecks then inputFile.loadedDataSize >>= narrowInt32 else .ok 0
  let entry ← narrowInt32 inputFile.entry
  .ok { options with
        loadAddress := loadAddress
        entry := entry
        loadedDataSize := loadedDataSize
        checksum := adler32 inputFile.data
        compressedProgram := compressedProgram }

/-- Which byte of the header is adjusted. -/
def complementOffset (options : Options) : ℕ :=
  if options.codeInHeader then ofsGameVersion else ofsComplement

/-- The constructor: the cartridge's data and the depacker's size.
Source: `shrinkler_packer.cpp`, `shrinkler_cartridge_assembler`. -/
def shrinklerCartridgeAssembler (inputFile : InputFile) (compressedProgram : Bytevector)
    (options : Options) : Except Exception (Bytevector × ℕ) := do
  let c ← config inputFile compressedProgram options
  let data ← assemble (program c)
  let data := writeComplement data (complementOffset options)
  throwIfFixedByteWrong data
  throwIfComplementWrong data
  .ok (data, locate 0 [] (depacker c) - gbaHeaderSize)

/-- Source: `shrinkler_packer.cpp`, `assemble_cartridge`. -/
def assembleCartridge (inputFile : InputFile) (compressedBinary : Bytevector) (options : Options) :
    Except Exception Cartridge := do
  let (data, depackerSize) ← shrinklerCartridgeAssembler inputFile compressedBinary options
  .ok { packer := "Shrinkler"
        data := data
        compressedSize := compressedBinary.length
        depackerSize := depackerSize }

/-- The packer, with the encoder of libshrinkler for the run's parameters: it returns the compressed
program and whether a larger reference buffer may help.
Source: `shrinkler_packer.cpp`, `shrinkler_packer::pack`. -/
def pack (encode : Bytevector → Except Exception (Bytevector × Bool)) (inputFile : InputFile)
    (options : Options) : Except Exception Cartridge := do
  let (compressedBinary, increaseReferenceBufferHint) ← encode inputFile.data
  let cartridge ← assembleCartridge inputFile compressedBinary options
  if increaseReferenceBufferHint then
    .ok { cartridge with
          info := cartridge.info ++
            ["Shrinkler compression may benefit from a larger reference buffer (-r option)"] }
  else .ok cartridge

end ShrinklerGba.Shrinkler
