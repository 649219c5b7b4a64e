import ShrinklerGba.Disk.FileSystem
import ShrinklerGba.Cartridge

/-!
# Packing a file

`pack` from the options to the file system it leaves: load the input, run the packers, write the
smallest cartridge. Console output is left out.

* `packCartridge` is everything before the output is touched, `writeToDisk` the rest.
* `writeToDisk_of_open_none`, `writeToDisk_of_open_some`: what a failing write leaves, by where it
  failed.
* **`pack_failure_harmless_iff`**: a failing run is harmless exactly when it did not fail to open an
  output path that can be removed.
-/

namespace ShrinklerGba

open Disk

/-! ## The run's surroundings -/

/-- Source: `options.cppm`, `options` (`shrinkler_parameters` is part of the encoder). -/
structure Options where
  /-- `input_file` -/
  inputFile : Path
  /-- `output_file` -/
  outputFile : Path
  /-- `code_in_header` -/
  codeInHeader : Bool := true
  /-- `debug_checks` -/
  debugChecks : Bool := false
  /-- `packer` -/
  packer : Option String := none

/-- What a run depends on besides the options and the file system: the libraries, and failures
that the permissions do not show. -/
structure Environment where
  /-- `ELFIO::elfio::load` -/
  load : Bytevector → Option Elf
  /-- `std::ranges::sort` -/
  sort : SortSectionsByAddress
  /-- agbpack -/
  agbpack : Lzss.Agbpack
  /-- libshrinkler, with the run's parameters -/
  shrinkler : Bytevector → Except Exception (Bytevector × Bool)
  /-- The current directory, and the permissions of new files. -/
  process : Process := {}
  /-- `strerror(errno)` after a failed call. -/
  strerror : String := ""
  /-- The output cannot be opened although the permissions allow it. -/
  openFails : Bool := false
  /-- How many bytes of a write stay in the stream buffer. -/
  buffered : Bytevector → ℕ := fun _ => 0
  /-- The bytes the device accepts at the write, if there is a limit. -/
  roomAtWrite : Option ℕ := none
  /-- The bytes the device accepts when the buffer is flushed, if there is a limit. -/
  roomAtClose : Option ℕ := none

/-- `path.string()` -/
def pathString : Path → String
  | "/" :: names => "/" ++ "/".intercalate names
  | names => "/".intercalate names

/-! ## Loading and packing -/

/-- Source: `pack.cpp`, `load_input_file`, the body of its `try` block. -/
def tryLoadInputFile (env : Environment) (path : Path) (fs : FileSystem) :
    Except Exception InputFile :=
  match Disk.read env.process fs path with
  | none => .error (.systemError env.strerror)
  | some bytes =>
      match env.load bytes with
      | none => .error (.runtimeError "File is not a valid ELF file")
      | some elf => do
          let inputFile ← inputFile env.sort elf
          let loadedDataSize ← inputFile.loadedDataSize
          if loadedDataSize = 0 then
            .error (.runtimeError "File is too small to be compressed")
          else .ok inputFile

/-- Source: `pack.cpp`, `load_input_file`. -/
def loadInputFile (env : Environment) (path : Path) (fs : FileSystem) :
    Except Exception InputFile :=
  match tryLoadInputFile env path fs with
  | .ok inputFile => .ok inputFile
  | .error e => .error (.runtimeError (pathString path ++ ": " ++ e.what))

/-- A packer, as `packer_info::create` makes it. -/
abbrev Packer := InputFile → Options → Except Exception Cartridge

/-- Source: `packer.cpp`, `packers`. -/
def packers (env : Environment) : List (String × Packer) := [
  ("lzss-h4", fun inputFile opts =>
    Lzss.pack env.agbpack inputFile { codeInHeader := opts.codeInHeader }),
  ("shrinkler", fun inputFile opts =>
    Shrinkler.pack env.shrinkler inputFile
      { codeInHeader := opts.codeInHeader, debugChecks := opts.debugChecks })]

/-- Source: `pack.cpp`, `get_packer`; `packer.cpp`, `find_info`. -/
def getPacker (env : Environment) (name : String) : Except Exception Packer :=
  match (packers env).find? fun pi => pi.1 = name with
  | none => .error (internalError ("Unknown packer: '" ++ name ++ "'"))
  | some pi => .ok pi.2

/-- Source: `pack.cpp`, `get_packers`; `packer.cpp`, `create_all_packers`. -/
def getPackers (env : Environment) (opts : Options) : Except Exception (List Packer) :=
  match opts.packer with
  | some name => do
      let p ← getPacker env name
      .ok [p]
  | none => .ok ((packers env).map Prod.snd)

/-- The first cartridge with the least data.
Source: `pack.cpp`, `smallest_cartridge`. -/
def smallestCartridge : List Cartridge → Option Cartridge
  | [] => none
  | c :: cs =>
      some (cs.foldl (fun best c => if c.data.length < best.data.length then c else best) c)

/-- Source: `pack.cpp`, `try_all_packers`. -/
def tryAllPackers (env : Environment) (inputFile : InputFile) (opts : Options) :
    Except Exception Cartridge := do
  let packers ← getPackers env opts
  let cartridges ← packers.mapM fun packer => do
    let cartridge ← packer inputFile opts
    .ok { cartridge with data := fixCartridgeForEzfAdvance cartridge.data }
  match smallestCartridge cartridges with
  | none => .error (.runtimeError "No packer could compress the input")
  | some smallest => .ok smallest

/-- What `pack` does before it touches the output. -/
def packCartridge (env : Environment) (opts : Options) (fs : FileSystem) :
    Except Exception Cartridge := do
  let inputFile ← loadInputFile env opts.inputFile fs
  tryAllPackers env inputFile opts

/-! ## Writing -/

/-- `ofstream::open` for writing, truncating. A failed call changes nothing. -/
def openOutput (env : Environment) (fs : FileSystem) (filename : Path) :
    Option (FileSystem × FileId) :=
  if env.openFails then none else openTrunc env.process fs filename

/-- The bytes a device accepts. -/
def accept (room : Option ℕ) (bytes : Bytevector) : Bytevector :=
  match room with
  | none => bytes
  | some n => bytes.take n

/-- `ofstream::write`: some bytes go to the device, the rest stays in the buffer; and whether the
device accepted what it was given. -/
def writeOutput (env : Environment) (fs : FileSystem) (id : FileId) (data : Bytevector) :
    FileSystem × Bytevector × Bool :=
  let flushed := data.take (data.length - env.buffered data)
  let rest := data.drop (data.length - env.buffered data)
  let accepted := accept env.roomAtWrite flushed
  (append fs id accepted, rest, accepted.length = flushed.length)

/-- `ofstream::close`, which the destructor calls too: the buffer is flushed; and whether the device
accepted it (if not, `failbit` is set). -/
def closeOutput (env : Environment) (fs : FileSystem) (id : FileId) (rest : Bytevector) :
    FileSystem × Bool :=
  let accepted := accept env.roomAtClose rest
  (append fs id accepted, accepted.length = rest.length)

/-- Source: `pack.cpp`, `remove_output_file`. -/
def removeOutputFile (env : Environment) (fs : FileSystem) (filename : Path) : FileSystem :=
  remove env.process fs filename

/-- The body of the `try` block.
Source: `pack.cpp`, `write_to_disk` (a vector has less than 2 ^ 63 bytes, so `gsl::narrow` cannot
fail). -/
def tryWriteToDisk (env : Environment) (data : Bytevector) (filename : Path) (fs : FileSystem) :
    Except Exception Unit × FileSystem :=
  match openOutput env fs filename with
  | none => (.error (.systemError env.strerror), fs)
  | some (fs, file) =>
      let (fs, rest, good) := writeOutput env fs file data
      if !good then
        (.error (.systemError env.strerror), (closeOutput env fs file rest).1)
      else
        -- Nothing looks at the stream after it is closed.
        (.ok (), (closeOutput env fs file rest).1)

/-- Source: `pack.cpp`, `write_to_disk`. -/
def writeToDisk (env : Environment) (data : Bytevector) (filename : Path) (fs : FileSystem) :
    Except Exception Unit × FileSystem :=
  match tryWriteToDisk env data filename fs with
  | (.error (.systemError what), fs) =>
      (.error (.runtimeError ("Could not write " ++ pathString filename ++ ": " ++ what)),
        removeOutputFile env fs filename)
  | result => result

/-- Source: `pack.cpp`, `pack`. -/
def pack (env : Environment) (opts : Options) (fs : FileSystem) :
    Except Exception Unit × FileSystem :=
  match packCartridge env opts fs with
  | .error e => (.error e, fs)
  | .ok cartridge => writeToDisk env cartridge.data opts.outputFile fs

/-! ## What a failing run leaves -/

variable {env : Environment} {opts : Options} {fs fs' : FileSystem} {e : Exception} {id : FileId}

/-- A failed open leaves the file system as `remove` does. -/
theorem writeToDisk_of_open_none (data : Bytevector) {p : Path} (h : openOutput env fs p = none) :
    (writeToDisk env data p fs).2 = remove env.process fs p := by
  simp only [writeToDisk, tryWriteToDisk, h, removeOutputFile]

/-- The file system when the output is closed. -/
def closedOutput (env : Environment) (fs : FileSystem) (id : FileId) (data : Bytevector) :
    FileSystem :=
  (closeOutput env (writeOutput env fs id data).1 id (writeOutput env fs id data).2.1).1

/-- A failed write leaves the file system as `remove` does, after what was written. -/
theorem writeToDisk_of_open_some {data : Bytevector} {p : Path} {fs₁ : FileSystem}
    (h : openOutput env fs p = some (fs₁, id))
    (herr : writeToDisk env data p fs = (.error e, fs')) :
    fs' = remove env.process (closedOutput env fs₁ id data) p := by
  cases hgood : (writeOutput env fs₁ id data).2.2 with
  | true =>
      simp only [writeToDisk, tryWriteToDisk, h, hgood, Bool.not_true, Bool.false_eq_true, if_false,
        Prod.mk.injEq, reduceCtorEq, false_and] at herr
  | false =>
      simp only [writeToDisk, tryWriteToDisk, h, hgood, Bool.not_false, if_true, Prod.mk.injEq,
        removeOutputFile] at herr
      exact herr.2.symm

/-- A failing run throws before or at opening the output and changes nothing, or it throws later and
leaves no partial output that can be removed. -/
structure Harmless (env : Environment) (opts : Options) (fs fs' : FileSystem) : Prop where
  /-- Before or at opening the output: nothing has changed, so what is at the output path, a link
  or what it leads to, is still there. -/
  unopened : (∀ cartridge, packCartridge env opts fs = .ok cartridge →
      openOutput env fs opts.outputFile = none) → fs' = fs
  /-- After opening the output: if what is at its path can be removed, it is gone. -/
  opened : ∀ cartridge fs₁ id, packCartridge env opts fs = .ok cartridge →
    openOutput env fs opts.outputFile = some (fs₁, id) →
    removable env.process (closedOutput env fs₁ id cartridge.data) opts.outputFile ≠ none →
    named env.process fs' opts.outputFile = none

/-- The run packs a cartridge, cannot open the output path, and can remove what is there: a file, an
empty directory, or a link, whatever that leads to. -/
def RemovesUnopened (env : Environment) (opts : Options) (fs : FileSystem) : Prop :=
  (∃ cartridge, packCartridge env opts fs = .ok cartridge) ∧
    openOutput env fs opts.outputFile = none ∧ removable env.process fs opts.outputFile ≠ none

/-- **A failing run is harmless exactly when it does not remove an output that it could not open.**
The `catch` block removes the output path whichever step failed. -/
theorem pack_failure_harmless_iff (env : Environment) (opts : Options) (fs fs' : FileSystem)
    (e : Exception) (h : pack env opts fs = (.error e, fs')) :
    Harmless env opts fs fs' ↔ ¬ RemovesUnopened env opts fs := by
  cases hc : packCartridge env opts fs with
  | error e' =>
      -- Nothing was packed, and the output was not touched.
      simp only [pack, hc, Prod.mk.injEq, Except.error.injEq] at h
      obtain ⟨-, rfl⟩ := h
      refine ⟨fun _ hr => ?_, fun _ => ⟨fun _ => rfl, fun _ _ _ h => ?_⟩⟩
      · obtain ⟨c, hr⟩ := hr.1
        simp [hc] at hr
      · simp [hc] at h
  | ok cartridge =>
      simp only [pack, hc] at h
      cases ho : openOutput env fs opts.outputFile with
      | none =>
          -- The output could not be opened, and was removed where that is possible.
          have hfs : fs' = remove env.process fs opts.outputFile := by
            rw [← writeToDisk_of_open_none cartridge.data ho, h]
          refine ⟨fun hh hr => ?_, fun hr => ⟨fun _ => ?_, fun _ _ _ _ h => ?_⟩⟩
          · have hsame := hh.unopened fun _ _ => ho
            exact hr.2.2 (remove_eq_iff.mp (hfs.symm.trans hsame))
          · have hnone : removable env.process fs opts.outputFile = none := by
              by_contra hne
              exact hr ⟨⟨cartridge, hc⟩, ho, hne⟩
            rw [hfs, remove_of_none hnone]
          · simp [ho] at h
      | some opened =>
          -- The write failed, and what was written is removed where that is possible.
          obtain ⟨fs₁, id⟩ := opened
          have hfs := writeToDisk_of_open_some ho h
          refine ⟨fun _ hr => ?_, fun _ => ⟨fun hno => ?_, fun c fs₂ id' hc' ho' hrem => ?_⟩⟩
          · simp [hr.2.1] at ho
          · simp [hno cartridge hc] at ho
          · obtain rfl := Except.ok.inj (hc.symm.trans hc')
            cases ho.symm.trans ho'
            obtain ⟨q, hq⟩ := Option.ne_none_iff_exists'.mp hrem
            rw [hfs, named_remove hq]

/-! ## Three runs -/

/-- A file of one section in IWRAM. -/
def sampleElf : Elf where
  elfClass := 1
  encoding := 1
  type := 2
  machine := 40
  elfVersion := 1
  osAbi := 0
  abiVersion := 0
  version := 1
  entry := 0x03000000
  sections := [⟨".text", 1, 6, 0x03000000, 1, [1], iwram_lt, byte_lt, rfl⟩]

/-- Surroundings in which nothing is compressed and nothing else fails. -/
def sampleEnvironment : Environment where
  load := fun _ => some sampleElf
  sort := insertionSortByAddress
  agbpack := ⟨.ok, .ok, .ok, .ok⟩
  shrinkler := fun data => .ok (data, false)
  strerror := "Permission denied"

/-- Pack `in` to `out` with Shrinkler. -/
def sampleOptions : Options where
  inputFile := ["in"]
  outputFile := ["out"]
  packer := some "shrinkler"

/-- A file system with an input file. -/
def inputOnly : FileSystem := FileSystem.root.make ["in"] ⟨[0], true, true⟩

/-- The same with a file where the output goes, which is read-only or not. -/
def oldOutput (writable : Bool) : FileSystem := inputOnly.make ["out"] ⟨[42], true, writable⟩

/-- What the input file is loaded to. -/
def sampleInputFile : InputFile := ⟨0x03000000, 0x03000000, [1]⟩

theorem sample_packCartridge :
    ∃ c, packCartridge sampleEnvironment sampleOptions (oldOutput false) = .ok c := by
  obtain ⟨data, size, hok, -⟩ := shrinklerCartridgeAssembler_ok sampleInputFile
    sampleInputFile.data ⟨sampleOptions.codeInHeader, sampleOptions.debugChecks⟩ (by decide)
    (by decide) (by decide)
  have hload : loadInputFile sampleEnvironment sampleOptions.inputFile
      (oldOutput false) = .ok sampleInputFile := rfl
  have hpackers : getPackers sampleEnvironment sampleOptions =
      .ok [fun inputFile opts => Shrinkler.pack sampleEnvironment.shrinkler inputFile
        { codeInHeader := opts.codeInHeader, debugChecks := opts.debugChecks }] := by
    simp [getPackers, sampleOptions, getPacker, packers, bind, Except.bind]
  have hencode : sampleEnvironment.shrinkler sampleInputFile.data =
      .ok (sampleInputFile.data, false) := rfl
  have hpack : Shrinkler.pack sampleEnvironment.shrinkler sampleInputFile
      { codeInHeader := sampleOptions.codeInHeader, debugChecks := sampleOptions.debugChecks } =
        .ok ⟨"Shrinkler", data, sampleInputFile.data.length, size, []⟩ := by
    simp only [Shrinkler.pack, hencode, Shrinkler.assembleCartridge, hok, bind, Except.bind]
    rfl
  refine ⟨⟨"Shrinkler", fixCartridgeForEzfAdvance data, 1, size, []⟩, ?_⟩
  simp only [packCartridge, hload, tryAllPackers, hpackers, bind, Except.bind, List.mapM_cons,
    List.mapM_nil, pure, Except.pure, hpack]
  rfl

/-- The failing run whose output path holds a read-only file removes that file. -/
theorem pack_removes_readOnlyOutput :
    ¬ ∀ (env : Environment) (opts : Options) (fs fs' : FileSystem) (e : Exception),
      pack env opts fs = (.error e, fs') → Harmless env opts fs fs' := by
  intro h
  obtain ⟨c, hc⟩ := sample_packCartridge
  have hopen : openOutput sampleEnvironment (oldOutput false) sampleOptions.outputFile = none := by
    have hnone : (openOutput sampleEnvironment (oldOutput false)
        sampleOptions.outputFile).isNone := by decide +kernel
    exact Option.isNone_iff_eq_none.mp hnone
  have hpack : pack sampleEnvironment sampleOptions (oldOutput false) =
      (.error (.runtimeError ("Could not write " ++ pathString sampleOptions.outputFile ++ ": " ++
        sampleEnvironment.strerror)),
        remove sampleEnvironment.process (oldOutput false) sampleOptions.outputFile) := by
    simp only [pack, hc, writeToDisk, tryWriteToDisk, hopen, removeOutputFile]
  have hsame := (h _ _ _ _ _ hpack).unopened fun _ _ => hopen
  exact absurd (remove_eq_iff.mp hsame) (by decide +kernel)

/-- The device takes nothing. -/
def fullEnvironment : Environment :=
  { sampleEnvironment with roomAtWrite := some 0, strerror := "No space left on device" }

/-- The input is not there. -/
def missingInput : Options := { sampleOptions with inputFile := ["missing"] }

/-- The theorem where the output path holds a file: it stays when there is no input, and goes when
the write fails. -/
theorem pack_failure_harmless_oldOutput :
    (∃ e, pack sampleEnvironment missingInput (oldOutput false) = (.error e, oldOutput false) ∧
      Harmless sampleEnvironment missingInput (oldOutput false) (oldOutput false)) ∧
    ∃ e fs', pack fullEnvironment sampleOptions (oldOutput true) = (.error e, fs') ∧
      Harmless fullEnvironment sampleOptions (oldOutput true) fs' ∧
      named fullEnvironment.process fs' sampleOptions.outputFile = none := by
  refine ⟨?_, ?_⟩
  · have hload : (packCartridge sampleEnvironment missingInput (oldOutput false)).toOption =
        none := by
      decide +kernel
    cases hc : packCartridge sampleEnvironment missingInput (oldOutput false) with
    | ok c =>
        rw [hc] at hload
        cases hload
    | error e =>
        have hpack : pack sampleEnvironment missingInput (oldOutput false) =
            (.error e, oldOutput false) := by rw [pack, hc]
        refine ⟨e, hpack, (pack_failure_harmless_iff _ _ _ _ e hpack).mpr fun h => ?_⟩
        obtain ⟨c, hok⟩ := h.1
        rw [hc] at hok
        cases hok
  · have herror : (pack fullEnvironment sampleOptions (oldOutput true)).1 =
        .error (.runtimeError "Could not write out: No space left on device") := by
      decide +kernel
    have hgone : named fullEnvironment.process
        (pack fullEnvironment sampleOptions (oldOutput true)).2 sampleOptions.outputFile =
          none := by
      decide +kernel
    have hopen : (openOutput fullEnvironment (oldOutput true) sampleOptions.outputFile).isSome := by
      decide +kernel
    obtain ⟨fs', hfs'⟩ : ∃ fs', fs' = (pack fullEnvironment sampleOptions (oldOutput true)).2 :=
      ⟨_, rfl⟩
    have hpack : pack fullEnvironment sampleOptions (oldOutput true) = (.error _, fs') :=
      Prod.ext herror hfs'.symm
    refine ⟨_, fs', hpack, (pack_failure_harmless_iff _ _ _ _ _ hpack).mpr fun h => ?_, ?_⟩
    · rw [h.2.1] at hopen
      cases hopen
    · rw [hfs', hgone]

end ShrinklerGba
