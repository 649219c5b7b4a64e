import ShrinklerGba.CartridgeAssembler
import ShrinklerGba.InputFile

/-!
# The LZSS packer

The cartridge of the LZSS packer, statement by statement as `assemble` emits it, and where the
packer puts the buffer between the two decoders.

* `program c` is the cartridge, `lzssCartridgeAssembler` the constructor.
* `assembleCartridge` computes the buffer's address and checks that it is word aligned.
-/

namespace ShrinklerGba.Lzss

open Thumb

/-- Source: `lzss_packer.cpp`, `lzss_packer_options`. -/
structure Options where
  /-- `code_in_header` -/
  codeInHeader : Bool := true

/-- What the emitted statements depend on. -/
structure Config extends Options where
  /-- `m_lzss_depack_buffer` -/
  lzssDepackBuffer : Word
  /-- `input_file.load_address()` -/
  loadAddress : Word
  /-- `input_file.entry()` -/
  entry : Word
  /-- `compressed_binary` -/
  compressedBinary : Bytevector := []

/-- Source: `lzss_packer.cpp`, `ofs_complement_if_code_in_header`. -/
def ofsComplementIfCodeInHeader : ℕ := ofsGameVersion - 2

/-- The statements before the compressed binary. -/
def depacker (c : Config) : List (Stmt Label) :=
  ([.armBranch .codeStart] : List (Stmt Label)) ++ emitNintendoLogo ++
  (if c.codeInHeader then [] else emitRemainingHeader) ++
  ([.assertAligned 2,
    .align 2,
    .label .codeStart,
    .instr (.armToThumb .r0),
    .instr (.adr .r0 .packedIntro),
    .instr (.ldrLit .r1 c.lzssDepackBuffer),
    .instr (.swi swiHuffUncomp),
    .instr (.ldrLit .r0 c.lzssDepackBuffer),
    .instr (.ldrLit .r1 c.loadAddress)] : List (Stmt Label)) ++
  (if c.codeInHeader then
    [.assertLc ofsFixedByte "fixed byte",
     .instr (.movImm .r2 fixedByteValue)]
   else []) ++
  ([.instr (.swi swiLz77UncompWram),
    .instr (.ldrLit .r0 c.entry),
    .instr (.bx .r0)] : List (Stmt Label)) ++
  (if c.codeInHeader then
    [.assertLc ofsComplementIfCodeInHeader "complement if depacker code is in ROM header",
     .hword 0xffff,
     .assertLc ofsGameVersion "game version"]
   else []) ++
  ([.assertAligned 2,
    .pool,
    .assertAligned 2] : List (Stmt Label))

/-- The cartridge.
Source: `lzss_packer.cpp`, `lzss_cartridge_assembler::assemble`. -/
def program (c : Config) : List (Stmt Label) :=
  depacker c ++ [.label .packedIntro, .bytes c.compressedBinary]

/-- The narrowing conversions of the values that the code loads.
Source: `lzss_packer.cpp`, `lzss_cartridge_assembler::assemble`. -/
def config (inputFile : InputFile) (compressedBinary : Bytevector) (options : Options)
    (lzssDepackBuffer : Word) : Except Exception Config := do
  let loadAddress ← narrowInt32 inputFile.loadAddress
  let entry ← narrowInt32 inputFile.entry
  .ok { options with
        lzssDepackBuffer := lzssDepackBuffer
        loadAddress := loadAddress
        entry := entry
        compressedBinary := compressedBinary }

/-- Which byte of the header is adjusted. -/
def complementOffset (options : Options) : ℕ :=
  if options.codeInHeader then ofsComplementIfCodeInHeader else ofsComplement

/-- The constructor: the cartridge's data and the depacker's size.
Source: `lzss_packer.cpp`, `lzss_cartridge_assembler`. -/
def lzssCartridgeAssembler (inputFile : InputFile) (compressedBinary : Bytevector)
    (options : Options) (lzssDepackBuffer : Word) : Except Exception (Bytevector × ℕ) := do
  let c ← config inputFile compressedBinary options lzssDepackBuffer
  let data ← assemble (program c)
  let data := writeComplement data (complementOffset options)
  throwIfFixedByteWrong data
  throwIfComplementWrong data
  .ok (data, locate 0 [] (depacker c) - gbaHeaderSize)

/-- The address of the buffer for the LZSS data, in 32-bit arithmetic.
Source: `lzss_packer.cpp`, `assemble_cartridge`. -/
def lzssDepackBuffer (lzssDataSize : Word) : Word := ewramStart + ewramSize - lzssDataSize

/-- Source: `lzss_packer.cpp`, `assemble_cartridge`. -/
def assembleCartridge (inputFile : InputFile) (compressedBinary : Bytevector) (options : Options)
    (lzssDataSize : Word) : Except Exception Cartridge :=
  if (lzssDepackBuffer lzssDataSize).toNat % 4 ≠ 0 then
    .error (internalError
      "LZSS depack buffer is not word aligned. This means that agbpack is broken")
  else do
    let (data, depackerSize) ←
      lzssCartridgeAssembler inputFile compressedBinary options (lzssDepackBuffer lzssDataSize)
    .ok { packer := "LZSS-H4"
          data := data
          compressedSize := compressedBinary.length
          depackerSize := depackerSize }

/-- The four codecs of agbpack that the packer calls. -/
structure Agbpack where
  /-- `optimal_lzss_encoder` -/
  lzssEncode : Bytevector → Except Exception Bytevector
  /-- `lzss_decoder` -/
  lzssDecode : Bytevector → Except Exception Bytevector
  /-- `huffman_encoder` -/
  huffmanEncode : Bytevector → Except Exception Bytevector
  /-- `huffman_decoder` -/
  huffmanDecode : Bytevector → Except Exception Bytevector

/-- Encode, and throw if decoding does not give the input back. -/
def verifiedCompress (encode decode : Bytevector → Except Exception Bytevector) (text : String)
    (input : Bytevector) : Except Exception Bytevector := do
  let output ← encode input
  let verified ← decode output
  if verified ≠ input then .error (internalError text) else .ok output

/-- Source: `lzss_packer.cpp`, `lzss_compress`. -/
def lzssCompress (a : Agbpack) (input : Bytevector) : Except Exception Bytevector :=
  verifiedCompress a.lzssEncode a.lzssDecode "verification of LZSS encoded data failed" input

/-- Source: `lzss_packer.cpp`, `huffman_compress`. -/
def huffmanCompress (a : Agbpack) (input : Bytevector) : Except Exception Bytevector :=
  verifiedCompress a.huffmanEncode a.huffmanDecode "verification of huffman encoded data failed"
    input

/-- Source: `lzss_packer.cpp`, `lzss_packer::pack`. -/
def pack (a : Agbpack) (inputFile : InputFile) (options : Options) :
    Except Exception Cartridge := do
  let lzssData ← lzssCompress a inputFile.data
  let compressedBinary ← huffmanCompress a lzssData
  let lzssDataSize ← narrow 32 lzssData.length
  assembleCartridge inputFile compressedBinary options lzssDataSize

end ShrinklerGba.Lzss
