import Mathlib.Algebra.BigOperators.Group.Finset.Piecewise
import Mathlib.Tactic.Ring
import ShrinklerGba.Thumb.Link
import ShrinklerGba.Utility

/-!
# The cartridge header

The GBA's addresses and header offsets, the header emitters that both packers share, the checksum
over the header and the checks made on a finished cartridge.

* `Label` names the labels of both depackers and `assemble` runs the assertions of a program and
  links it.
* `calculateComplement`, `writeComplement` and the two checks of a finished cartridge.
* `writeComplement_sum`: after `writeComplement`, the checksummed bytes sum with `0x19` to zero,
  whichever of them is the one that is adjusted.
* **`writeComplement_correct`**: the complement is right for every choice of that byte.
-/

namespace ShrinklerGba

open Thumb

/-! ## Addresses and offsets -/

/-- Source: `gba.cppm`, `ewram_start`. -/
def ewramStart : Word := 0x02000000

/-- Source: `gba.cppm`, `ewram_size`. -/
def ewramSize : Word := 0x40000

/-- Source: `gba.cppm`, `bg_palette_start`. -/
def bgPaletteStart : Word := 0x05000000

/-- Source: `gba.cppm`, `vram_start`. -/
def vramStart : Word := 0x06000000

/-- Source: `gba.cppm`, `rom_start`. -/
def romStart : ℕ := 0x08000000

/-- Source: `gba.cppm`, `gba_header_size`. -/
def gbaHeaderSize : ℕ := 192

/-- Source: `gba.cppm`, `ofs_game_title`. -/
def ofsGameTitle : ℕ := 0xa0

/-- Source: `gba.cppm`, `ofs_fixed_byte`. -/
def ofsFixedByte : ℕ := 0xb2

/-- Source: `gba.cppm`, `ofs_device_type`. -/
def ofsDeviceType : ℕ := 0xb4

/-- Source: `gba.cppm`, `ofs_game_version`. -/
def ofsGameVersion : ℕ := 0xbc

/-- Source: `gba.cppm`, `ofs_complement`. -/
def ofsComplement : ℕ := 0xbd

/-- Source: `gba.cppm`, `ofs_reserved2`. -/
def ofsReserved2 : ℕ := 0xbe

/-- Source: `gba.cppm`, `fixed_byte_value`. -/
def fixedByteValue : Byte := 0x96

/-- Source: `gba.cppm`, `swi_lz77_uncomp_wram`. -/
def swiLz77UncompWram : ℕ := 0x11

/-- Source: `gba.cppm`, `swi_huff_uncomp`. -/
def swiHuffUncomp : ℕ := 0x13

/-! ## Emitting the header -/

/-- The labels of the depackers. The messages of the panic routine are labels of their own. -/
inductive Label
  | getkind | getbit | readbit | newword | nonewword | loopCondition | zero | one | done
  | codeStart | init | literal | getlit | switch | readlength | copyloop | readoffset
  | donedecompressing | getnumber | numberloop | bitsloop | packedIntro
  | decompressedDataSizeOk | adler32Loop | s1Ok | s2Ok | checksumOk | spOk
  | messageSize | messageChecksum | messageSp | panic | copyLine | loop | sadface
  deriving DecidableEq

/-- The bytes 0x04 to 0x9f of every cartridge. -/
def nintendoLogo : List Byte := [
  0x24, 0xff, 0xae, 0x51, 0x69, 0x9a, 0xa2, 0x21,
  0x3d, 0x84, 0x82, 0x0a, 0x84, 0xe4, 0x09, 0xad,
  0x11, 0x24, 0x8b, 0x98, 0xc0, 0x81, 0x7f, 0x21,
  0xa3, 0x52, 0xbe, 0x19, 0x93, 0x09, 0xce, 0x20,
  0x10, 0x46, 0x4a, 0x4a, 0xf8, 0x27, 0x31, 0xec,
  0x58, 0xc7, 0xe8, 0x33, 0x82, 0xe3, 0xce, 0xbf,
  0x85, 0xf4, 0xdf, 0x94, 0xce, 0x4b, 0x09, 0xc1,
  0x94, 0x56, 0x8a, 0xc0, 0x13, 0x72, 0xa7, 0xfc,
  0x9f, 0x84, 0x4d, 0x73, 0xa3, 0xca, 0x9a, 0x61,
  0x58, 0x97, 0xa3, 0x27, 0xfc, 0x03, 0x98, 0x76,
  0x23, 0x1d, 0xc7, 0x61, 0x03, 0x04, 0xae, 0x56,
  0xbf, 0x38, 0x84, 0x00, 0x40, 0xa7, 0x0e, 0xfd,
  0xff, 0x52, 0xfe, 0x03, 0x6f, 0x95, 0x30, 0xf1,
  0x97, 0xfb, 0xc0, 0x85, 0x60, 0xd6, 0x80, 0x25,
  0xa9, 0x63, 0xbe, 0x03, 0x01, 0x4e, 0x38, 0xe2,
  0xf9, 0xa2, 0x34, 0xff, 0xbb, 0x3e, 0x03, 0x44,
  0x78, 0x00, 0x90, 0xcb, 0x88, 0x11, 0x3a, 0x94,
  0x65, 0xc0, 0x7c, 0x63, 0x87, 0xf0, 0x3c, 0xaf,
  0xd6, 0x25, 0xe4, 0x8b, 0x38, 0x0a, 0xac, 0x72,
  0x21, 0xd4, 0xf8, 0x07]

/-- Source: `cartridge_assembler.cpp`, `emit_nintendo_logo`. -/
def emitNintendoLogo : List (Stmt Label) := [.bytes nintendoLogo]

/-- Source: `cartridge_assembler.cpp`, `emit_remaining_header`. -/
def emitRemainingHeader : List (Stmt Label) := [
  .assertLc ofsGameTitle "game title",
  .bytes [0x00, 0x00, 0x00, 0x00, 0x00, 0x00],
  .bytes [0x00, 0x00, 0x00, 0x00, 0x00, 0x00],
  .bytes [0x00, 0x00, 0x00, 0x00],
  .bytes [0x00, 0x00],
  .assertLc ofsFixedByte "fixed byte",
  .bytes [fixedByteValue],
  .bytes [0x00],
  .assertLc ofsDeviceType "device type",
  .bytes [0x00],
  .bytes [0x00, 0x00, 0x00, 0x00, 0x00, 0x00, 0x00],
  .assertLc ofsGameVersion "game version",
  .bytes [0x00],
  .assertLc ofsComplement "complement",
  .bytes [0x00],
  .assertLc ofsReserved2 "reserved area 2",
  .bytes [0x00, 0x00]]

/-- `{:#x}` -/
def hex (n : ℕ) : String := "0x" ++ String.ofList (Nat.toDigits 16 n)

/-- The exception a failed assertion throws.
Source: `cartridge_assembler.cpp`, `throw_if_wrong_lc`, `throw_if_not_aligned`. -/
def assertionException (currentLc : ℕ) : Stmt Label → Exception
  | .assertLc expectedLc what =>
      internalError (what ++ " is at wrong offset. Expected it to be at " ++ hex expectedLc ++
        ", but it is at " ++ hex currentLc)
  | .assertAligned alignment =>
      internalError
        s!"Location counter is not aligned to {2 ^ alignment} bytes. We're wasting space"
  | _ => internalError ""

/-- Run the assertions and link. -/
def assemble (ss : List (Stmt Label)) : Except Exception Bytevector :=
  match failedAssertion 0 [] ss with
  | some (lc, s) => .error (assertionException lc s)
  | none => .ok (link ss)

/-- What a packer returns.
Source: `packer.cppm`, `cartridge`. -/
structure Cartridge where
  /-- `packer` -/
  packer : String
  /-- `data` -/
  data : Bytevector
  /-- `compressed_size` -/
  compressedSize : ℕ := 0
  /-- `depacker_size` -/
  depackerSize : ℕ := 0
  /-- `info` -/
  info : List String := []
  deriving DecidableEq

/-! ## The checksum -/

/-- Source: `complement.cppm`, `checksum_area_size`. -/
def checksumAreaSize : ℕ := ofsComplement - ofsGameTitle + 1

/-- Source: `complement.cpp`, `calculate_complement`. -/
def calculateComplement (checksumArea : Bytevector) (variableByteIndex : ℕ) : Byte :=
  -((List.range checksumAreaSize).foldl
    (fun sum i => if i ≠ variableByteIndex then sum + checksumArea.getD i 0 else sum) 0x19)

/-- Source: `cartridge_assembler.cpp`, `write_complement`. -/
def writeComplement (cartridgeData : Bytevector) (complementByteOffset : ℕ) : Bytevector :=
  let complementByteIndex := complementByteOffset - ofsGameTitle
  let complement := calculateComplement (cartridgeData.drop ofsGameTitle) complementByteIndex
  cartridgeData.set (ofsGameTitle + complementByteIndex) complement

/-- Source: `cartridge_assembler.cpp`, `throw_if_fixed_byte_wrong`. -/
def throwIfFixedByteWrong (cartridgeData : Bytevector) : Except Exception Unit :=
  match cartridgeData[ofsFixedByte]? with
  | none => .error .outOfRange
  | some actualByte =>
      if actualByte ≠ fixedByteValue then
        .error (internalError ("Fixed byte at " ++ hex ofsFixedByte ++
          " has wrong value. Should be " ++ hex fixedByteValue.toNat ++ ", but is " ++
          hex actualByte.toNat))
      else .ok ()

/-- Source: `cartridge_assembler.cpp`, `throw_if_complement_wrong`. -/
def throwIfComplementWrong (cartridgeData : Bytevector) : Except Exception Unit :=
  let expectedComplement :=
    calculateComplement (cartridgeData.drop ofsGameTitle) (ofsComplement - ofsGameTitle)
  match cartridgeData[ofsComplement]? with
  | none => .error .outOfRange
  | some actualComplement =>
      if actualComplement ≠ expectedComplement then
        .error (internalError ("Complement at " ++ hex ofsComplement ++
          " has wrong value. Should be " ++ hex expectedComplement.toNat ++ ", but is " ++
          hex actualComplement.toNat))
      else .ok ()

/-! ## What the checksum guarantees -/

/-- The sum of the checksummed bytes, modulo 256. -/
def headerSum (cartridgeData : Bytevector) : Byte :=
  ∑ i ∈ Finset.range checksumAreaSize, cartridgeData.getD (ofsGameTitle + i) 0

theorem calculateComplement_eq (area : Bytevector) (k : ℕ) :
    calculateComplement area k =
      -(0x19 + ∑ i ∈ Finset.range checksumAreaSize, if i ≠ k then area.getD i 0 else 0) := by
  have hfold : ∀ n, (List.range n).foldl
      (fun sum i => if i ≠ k then sum + area.getD i 0 else sum) (0x19 : Byte) =
        0x19 + ∑ i ∈ Finset.range n, if i ≠ k then area.getD i 0 else 0 := by
    intro n
    induction n with
    | zero => simp
    | succ n ih =>
        rw [List.range_succ, List.foldl_append, ih, Finset.sum_range_succ]
        by_cases hn : n = k <;> simp [hn, add_assoc]
  rw [calculateComplement, hfold]

theorem headerSum_split (data : Bytevector) {k : ℕ} (hk : k < checksumAreaSize) :
    headerSum data = (∑ i ∈ Finset.range checksumAreaSize,
      if i ≠ k then data.getD (ofsGameTitle + i) 0 else 0) + data.getD (ofsGameTitle + k) 0 := by
  have hone : data.getD (ofsGameTitle + k) 0 = ∑ i ∈ Finset.range checksumAreaSize,
      if i = k then data.getD (ofsGameTitle + i) 0 else 0 := by
    rw [Finset.sum_ite_eq' _ k fun i => data.getD (ofsGameTitle + i) 0,
      if_pos (Finset.mem_range.mpr hk)]
  rw [hone, ← Finset.sum_add_distrib]
  refine Finset.sum_congr rfl fun i _ => ?_
  by_cases hi : i = k <;> simp [hi]

theorem getD_drop (data : Bytevector) (n i : ℕ) : (data.drop n).getD i 0 = data.getD (n + i) 0 := by
  simp [List.getD_eq_getElem?_getD]

theorem getD_of_lt {data : Bytevector} {i : ℕ} (h : i < data.length) : data.getD i 0 = data[i] := by
  simp [List.getD_eq_getElem?_getD, h]

theorem writeComplement_length (data : Bytevector) (ofs : ℕ) :
    (writeComplement data ofs).length = data.length := by
  simp [writeComplement]

theorem writeComplement_getElem?_ne (data : Bytevector) {ofs i : ℕ} (hofs : ofsGameTitle ≤ ofs)
    (hi : i ≠ ofs) : (writeComplement data ofs)[i]? = data[i]? := by
  rw [writeComplement, List.getElem?_set_ne]
  omega

/-- **The header sums to zero after `writeComplement`**, whichever byte is adjusted. -/
theorem writeComplement_sum (data : Bytevector) {k : ℕ} (hk : k < checksumAreaSize)
    (hlen : ofsGameTitle + k < data.length) :
    headerSum (writeComplement data (ofsGameTitle + k)) + 0x19 = 0 := by
  have hset : (writeComplement data (ofsGameTitle + k)).getD (ofsGameTitle + k) 0 =
      calculateComplement (data.drop ofsGameTitle) k := by
    simp [writeComplement, List.getD_eq_getElem?_getD, hlen]
  have hrest : (∑ i ∈ Finset.range checksumAreaSize, if i ≠ k then
      (writeComplement data (ofsGameTitle + k)).getD (ofsGameTitle + i) 0 else 0) =
      ∑ i ∈ Finset.range checksumAreaSize,
        if i ≠ k then (data.drop ofsGameTitle).getD i 0 else 0 := by
    refine Finset.sum_congr rfl fun i _ => ?_
    by_cases hi : i = k
    · simp [hi]
    · rw [if_pos hi, if_pos hi, getD_drop, List.getD_eq_getElem?_getD, List.getD_eq_getElem?_getD,
        writeComplement_getElem?_ne data (by omega) (by omega)]
  rw [headerSum_split _ hk, hset, hrest, calculateComplement_eq]
  ring

/-- Every byte of the area is the complement of the others exactly when the header sums to zero. -/
theorem calculateComplement_eq_iff (data : Bytevector) {k : ℕ} (hk : k < checksumAreaSize) :
    calculateComplement (data.drop ofsGameTitle) k = data.getD (ofsGameTitle + k) 0 ↔
      headerSum data + 0x19 = 0 := by
  rw [headerSum_split data hk, calculateComplement_eq]
  simp only [getD_drop]
  generalize (∑ i ∈ Finset.range checksumAreaSize,
    if i ≠ k then data.getD (ofsGameTitle + i) 0 else 0) = x
  generalize data.getD (ofsGameTitle + k) 0 = y
  rw [eq_comm, eq_neg_iff_add_eq_zero, show y + (0x19 + x) = x + y + 0x19 by ring]

theorem throwIfFixedByteWrong_eq_ok {data : Bytevector} :
    throwIfFixedByteWrong data = .ok () ↔ data[ofsFixedByte]? = some fixedByteValue := by
  unfold throwIfFixedByteWrong
  cases h : data[ofsFixedByte]? with
  | none => simp
  | some b => by_cases hb : b = fixedByteValue <;> simp [hb]

/-- The complement is right exactly when the header sums to zero. -/
theorem throwIfComplementWrong_eq_ok {data : Bytevector} (hlen : ofsComplement < data.length) :
    throwIfComplementWrong data = .ok () ↔ headerSum data + 0x19 = 0 := by
  have hget : data.getD (ofsGameTitle + (ofsComplement - ofsGameTitle)) 0 = data[ofsComplement] :=
    getD_of_lt hlen
  rw [← calculateComplement_eq_iff data (k := ofsComplement - ofsGameTitle) (by decide), hget,
    throwIfComplementWrong, List.getElem?_eq_getElem hlen]
  dsimp only
  split <;> rename_i h
  · exact ⟨nofun, fun heq => absurd heq.symm h⟩
  · exact ⟨fun _ => (not_not.mp h).symm, fun _ => rfl⟩

/-! ## The choice of the variable byte -/

/-- What holds after `writeComplement` at an offset. -/
structure ComplementWritten (data : Bytevector) (ofs : ℕ) (data' : Bytevector) : Prop where
  /-- The header sums to zero. -/
  sum : headerSum data' + 0x19 = 0
  /-- Every byte of the area is the complement of the others. -/
  complement : ∀ j < checksumAreaSize,
    calculateComplement (data'.drop ofsGameTitle) j = data'.getD (ofsGameTitle + j) 0
  /-- The check of the real complement passes. -/
  check : throwIfComplementWrong data' = .ok ()
  /-- The byte written is the only one with which the header sums to zero. -/
  unique : ∀ b, headerSum (data.set ofs b) + 0x19 = 0 → data.set ofs b = data'
  /-- It is the only one with which any byte of the area is the complement of the others. -/
  unique_complement : ∀ b, ∀ j < checksumAreaSize,
    calculateComplement ((data.set ofs b).drop ofsGameTitle) j =
      (data.set ofs b).getD (ofsGameTitle + j) 0 → data.set ofs b = data'
  /-- The length is the same. -/
  length : data'.length = data.length
  /-- No other byte has changed. -/
  other : ∀ i, i ≠ ofs → data'[i]? = data[i]?
  /-- A second complement, wherever it is written, changes nothing. -/
  again : ∀ ofs' ∈ Set.Icc ofsGameTitle ofsComplement, writeComplement data' ofs' = data'

/-- Setting the byte that is left out of the sum leaves the complement alone. -/
theorem calculateComplement_set (data : Bytevector) (k : ℕ) (b : Byte) :
    calculateComplement ((data.set (ofsGameTitle + k) b).drop ofsGameTitle) k =
      calculateComplement (data.drop ofsGameTitle) k := by
  have hsum (i : ℕ) (_ : i ∈ Finset.range checksumAreaSize) :
      (if i ≠ k then ((data.set (ofsGameTitle + k) b).drop ofsGameTitle).getD i 0 else 0) =
        if i ≠ k then (data.drop ofsGameTitle).getD i 0 else 0 := by
    by_cases hi : i = k
    · rw [if_neg (not_not.mpr hi), if_neg (not_not.mpr hi)]
    · rw [getD_drop, getD_drop, List.getD_eq_getElem?_getD, List.getElem?_set_ne (by omega),
        List.getD_eq_getElem?_getD]
  rw [calculateComplement_eq, calculateComplement_eq, Finset.sum_congr rfl hsum]

/-- **The complement is right for every choice of the variable byte.** -/
theorem writeComplement_correct (data : Bytevector) (ofs : ℕ) (hlen : 0xbe ≤ data.length)
    (hofs : ofs ∈ Set.Icc 0xa0 0xbd) : ComplementWritten data ofs (writeComplement data ofs) := by
  obtain ⟨k, rfl⟩ : ∃ k, ofs = ofsGameTitle + k := ⟨ofs - ofsGameTitle, by
    simp only [Set.mem_Icc, ofsGameTitle] at *
    omega⟩
  have hk : k < checksumAreaSize := by
    simp only [Set.mem_Icc, ofsGameTitle, ofsComplement, checksumAreaSize] at *
    omega
  have hin : ofsGameTitle + k < data.length := by
    simp only [Set.mem_Icc, ofsGameTitle] at *
    omega
  have hsum := writeComplement_sum data hk hin
  have hunique (b : Byte) (hb : headerSum (data.set (ofsGameTitle + k) b) + 0x19 = 0) :
      data.set (ofsGameTitle + k) b = writeComplement data (ofsGameTitle + k) := by
    have hcomp := (calculateComplement_eq_iff _ hk).mpr hb
    rw [calculateComplement_set, List.getD_eq_getElem?_getD, List.getElem?_set_self hin,
      Option.getD_some] at hcomp
    rw [writeComplement, Nat.add_sub_cancel_left, hcomp]
  refine ⟨hsum, fun j hj => (calculateComplement_eq_iff _ hj).mpr hsum, ?_, hunique,
    fun b j hj hb => hunique b ((calculateComplement_eq_iff _ hj).mp hb),
    writeComplement_length _ _, fun i hi => writeComplement_getElem?_ne _ (Nat.le_add_right _ _) hi,
    fun ofs' hofs' => ?_⟩
  · refine (throwIfComplementWrong_eq_ok ?_).mpr hsum
    rw [writeComplement_length]
    exact hlen
  · obtain ⟨j, rfl⟩ : ∃ j, ofs' = ofsGameTitle + j := ⟨ofs' - ofsGameTitle, by
      have := hofs'.1
      omega⟩
    have hj : j < checksumAreaSize := by
      simp only [Set.mem_Icc, ofsGameTitle, ofsComplement, checksumAreaSize] at *
      omega
    have hj' : ofsGameTitle + j < (writeComplement data (ofsGameTitle + k)).length := by
      rw [writeComplement_length]
      have := hofs'.2
      simp only [ofsGameTitle, ofsComplement] at *
      omega
    -- The byte that is there already is its own complement.
    have hcomp := (calculateComplement_eq_iff _ hj).mpr hsum
    rw [getD_of_lt hj'] at hcomp
    conv_lhs => rw [writeComplement, Nat.add_sub_cancel_left, hcomp]
    exact List.set_getElem_self hj'

/-- A header whose bytes are their offsets. -/
def offsetsHeader : Bytevector := (List.range gbaHeaderSize).map (BitVec.ofNat 8)

/-- The theorem at this header, with the game version as variable byte. -/
theorem writeComplement_correct_offsetsHeader :
    ComplementWritten offsetsHeader 0xbc (writeComplement offsetsHeader 0xbc) ∧
      (writeComplement offsetsHeader 0xbc)[0xbc]? = some 0x30 :=
  ⟨writeComplement_correct offsetsHeader 0xbc (by simp [offsetsHeader, gbaHeaderSize]) (by decide),
    by decide +kernel⟩

end ShrinklerGba
