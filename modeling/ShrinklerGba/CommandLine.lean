import ShrinklerGba.Runs

/-!
# The default output file

Where the output goes when the command line does not say so.

* `completeOptions` is what `parse_command_line` does after the options have been parsed.
* `Spared d fs gs`: between two file systems, at most the `.gba` files in the directory `d` have
  changed; `Spared.pack`: that is so for a run with a default output.
* **`packAll_default`**: so it is for any number of them, whatever comes of them.
-/

namespace ShrinklerGba

open Disk Transition

/-- `path::stem`: a file name without its extension, which is the last period and what follows it.
A period at the start is not that of an extension. -/
def stem (name : List Char) : List Char :=
  if name = ['.'] ∨ name = ['.', '.'] then name
  else match name.reverse.dropWhile (· ≠ '.') with
    | [] => name
    | [_] => name
    | _ :: front => front.reverse

/-- `path::replace_extension`, of a file name. -/
def replaceExtension (name extension : String) : String :=
  String.ofList (stem name.toList) ++ "." ++ extension

/-- `path::filename`, which is empty for a path that ends with a slash. -/
def filename (p : Path) : String :=
  if p.getLast? = some "/" then "" else p.getLastD ""

/-- Source: `command_line.cpp`, `default_output_file`. -/
def defaultOutputFile (inputFile : Path) : Path := [replaceExtension (filename inputFile) "gba"]

/-- Source: `options.cppm`, `has_output_file`. -/
def hasOutputFile (opts : Options) : Bool := !opts.outputFile.isEmpty

/-- Source: `command_line.cpp`, `parse_command_line`, after the options have been parsed. -/
def completeOptions (opts : Options) (arg : Path) : Options :=
  let opts := { opts with inputFile := arg }
  if !hasOutputFile opts then { opts with outputFile := defaultOutputFile opts.inputFile } else opts

example : defaultOutputFile ["directory", "intro.elf"] = ["intro.gba"] := by decide

/-! ## What runs with default outputs change -/

/-- A name in a directory that ends with `.gba`. -/
def IsGba (d q : Place) : Prop := ∃ name : String, q = d ++ [name ++ ".gba"]

theorem defaultOutputFile_eq (p : Path) : ∃ name : String, defaultOutputFile p = [name ++ ".gba"] :=
  ⟨String.ofList (stem (filename p).toList), by
    rw [defaultOutputFile, replaceExtension, String.append_assoc]
    rfl⟩

theorem outputFile_completeOptions {opts : Options} (h : hasOutputFile opts = false) (arg : Path) :
    (completeOptions opts arg).outputFile = defaultOutputFile arg ∧
      (completeOptions opts arg).inputFile = arg := by
  have h' : hasOutputFile { opts with inputFile := arg } = false := h
  simp [completeOptions, h']

theorem length_gba (name : String) : 4 ≤ (name ++ ".gba").length := by
  rw [String.length_append]
  exact Nat.le_add_left 4 _

/-- A `.gba` name is not one of the special ones. -/
theorem gba_ne {name s : String} (hs : s.length < 4) : name ++ ".gba" ≠ s := by
  rintro rfl
  exact absurd (length_gba name) (by omega)

variable {env : Environment} {opts : Options} {fs gs : FileSystem} {d q : Place} {id : FileId}

/-- A `.gba` name leads to itself if it is not that of a link. -/
theorem locate_gba {name : String} {follow : Bool}
    (hlink : ∀ target, gs.nodes.lookup (d ++ [name ++ ".gba"]) ≠ some (.link target))
    (h : locate gs d follow [name ++ ".gba"] = some q) : q = d ++ [name ++ ".gba"] :=
  locate_name (gba_ne (by decide)) (gba_ne (by decide)) (gba_ne (by decide)) (gba_ne (by decide))
    hlink h

/-- Between two file systems, no name has changed but `.gba` names in a directory, and no file but
those that had one. -/
structure Spared (d : Place) (fs gs : FileSystem) : Prop where
  /-- The other names. -/
  names : ∀ q, ¬IsGba d q → gs.nodes.lookup q = fs.nodes.lookup q
  /-- The files without such a name. -/
  files : ∀ id ∈ fs.files, (∀ q, IsGba d q → fs.nodes.lookup q ≠ some (.file id)) →
    gs.files.lookup id = fs.files.lookup id
  /-- No such name is that of a link. -/
  links : ∀ q target, IsGba d q → gs.nodes.lookup q ≠ some (.link target)
  /-- The files that have such a name had one before, or are new. -/
  origin : ∀ q id, IsGba d q → gs.nodes.lookup q = some (.file id) → id ∈ fs.files →
    ∃ q', IsGba d q' ∧ fs.nodes.lookup q' = some (.file id)
  /-- No file is lost. -/
  mem : ∀ id ∈ fs.files, id ∈ gs.files

theorem Spared.refl (h : ∀ q target, IsGba d q → fs.nodes.lookup q ≠ some (.link target)) :
    Spared d fs fs :=
  ⟨fun _ _ => rfl, fun _ _ _ => rfl, h, fun q _ hq hid _ => ⟨q, hq, hid⟩, fun _ h => h⟩

/-- Writing to a `.gba` name spares the rest. -/
theorem Spared.write (h : Spared env.process.directory fs gs) (data : Bytevector)
    (name : String) :
    Spared env.process.directory fs (writeToDisk env data [name ++ ".gba"] gs).2 := by
  have hplace {follow : Bool} {q : Place}
      (hq : locate gs env.process.directory follow [name ++ ".gba"] = some q) :
      IsGba env.process.directory q :=
    ⟨name, locate_gba (fun target => h.links _ target ⟨name, rfl⟩) hq⟩
  have hslash : withoutSlash [name ++ ".gba"] = [name ++ ".gba"] :=
    if_neg fun heq => gba_ne (by decide) (Option.some.inj heq)
  have hnewId (q : Place) : newId gs q ∉ fs.files := fun hmem => newId_not_mem gs q (h.mem _ hmem)
  have hframe := writeToDisk_frame env data [name ++ ".gba"] gs
  refine ⟨fun q hq => ?_, fun id hid hnone => ?_, fun q target hq hlookup => ?_,
    fun q id hq hlookup hid => ?_, fun id hid => mem_writeToDisk (h.mem id hid)⟩
  · refine (hframe.nodes q ?_).trans (h.names q hq)
    rintro ((⟨id, hk, -⟩ | ⟨q', hq', -, hk | hk⟩) | ⟨q', hk, hq'⟩)
    · cases hk
    · cases hk
      exact hq (hplace hq')
    · cases hk
    · cases hk
      rw [namedPlace, hslash] at hq'
      exact hq (hplace hq')
  · refine (hframe.files id ?_).trans (h.files id hid hnone)
    rintro ((⟨id', hk, hid'⟩ | ⟨q', -, -, hk | hk⟩) | ⟨q', hk, -⟩)
    · cases hk
      obtain ⟨q, hq, hlookup⟩ := locate_of_fileAt hid'
      obtain ⟨q', hq', hfile⟩ := h.origin q id (hplace hq) hlookup hid
      exact hnone q' hq' hfile
    · cases hk
    · cases hk
      exact hnewId q' hid
    · cases hk
  · rcases writeToDisk_nodes hlookup with hlookup | ⟨q', heq⟩
    · exact h.links q target hq hlookup
    · cases heq
  · rcases writeToDisk_nodes hlookup with hlookup | ⟨q', heq⟩
    · exact h.origin q id hq hlookup hid
    · cases heq
      exact absurd hid (hnewId q')

/-- A run with a default output spares the rest. -/
theorem Spared.pack (h : Spared env.process.directory fs gs) {opts : Options}
    (hopts : hasOutputFile opts = false) (arg : Path) :
    Spared env.process.directory fs (pack env (completeOptions opts arg) gs).2 := by
  obtain ⟨name, hname⟩ := defaultOutputFile_eq arg
  rw [ShrinklerGba.pack]
  split
  · exact h
  · rw [(outputFile_completeOptions hopts arg).1, hname]
    exact h.write _ name

/-- **Runs with default outputs spare everything but `.gba` files** in the directory they are
started in, whatever comes of them, if none of these names is that of a link. -/
theorem packAll_default {rs : List Run} (h : ∀ r ∈ rs, r.1.process.directory = d ∧
      ∃ opts arg, hasOutputFile opts = false ∧ r.2 = completeOptions opts arg)
    (hlinks : ∀ q target, IsGba d q → fs.nodes.lookup q ≠ some (.link target)) :
    (∀ q, ¬IsGba d q → (packAll rs fs).2.nodes.lookup q = fs.nodes.lookup q) ∧
      ∀ id ∈ fs.files, (∀ q, IsGba d q → fs.nodes.lookup q ≠ some (.file id)) →
        (packAll rs fs).2.files.lookup id = fs.files.lookup id := by
  have hspared (gs : FileSystem) (hgs : Spared d fs gs) : Spared d fs (packAll rs gs).2 := by
    induction rs generalizing gs with
    | nil => exact hgs
    | cons r rs ih =>
        obtain ⟨⟨hd, opts, arg, hopts, hr⟩, hrs⟩ := List.forall_mem_cons.mp h
        refine ih hrs _ ?_
        subst hd
        change Spared r.1.process.directory fs (pack r.1 r.2 gs).2
        rw [hr]
        exact hgs.pack hopts arg
  have hall := hspared fs (.refl hlinks)
  exact ⟨hall.names, hall.files⟩

/-- Options without an output file. -/
def noOutputFile : Options := { sampleOptions with inputFile := [], outputFile := [] }

/-- An input and an older output. -/
def inputAndGba : FileSystem := inputOnly.make ["in.gba"] ⟨[1], true, true⟩

/-- The theorem where the run replaces the older output and leaves the input. -/
theorem packAll_default_sample :
    (packAll [(sampleEnvironment, completeOptions noOutputFile ["in"])] inputAndGba).2.files.lookup
        (["in"], 0) = some ⟨[0], true, true⟩ ∧
      (packAll [(sampleEnvironment, completeOptions noOutputFile ["in"])] inputAndGba).1 =
        [.ok ()] := by
  have hentries : ∀ e ∈ inputAndGba.nodes.entries, (e.2 = .file (["in"], 0) → e.1 = ["in"]) ∧
      e.2 ∈ [.directory true true, .file (["in"], 0), .file (["in.gba"], 0)] := by decide +kernel
  have hnode {q : Place} {node : Node} (hq : inputAndGba.nodes.lookup q = some node) :=
    hentries ⟨q, node⟩ (AList.mem_lookup_iff.mp hq)
  have hrun : ∀ r ∈ [(sampleEnvironment, completeOptions noOutputFile ["in"])],
      r.1.process.directory = [] ∧ ∃ opts arg, hasOutputFile opts = false ∧
        r.2 = completeOptions opts arg :=
    List.forall_mem_singleton.mpr ⟨rfl, noOutputFile, ["in"], rfl, rfl⟩
  have hlinks (q : Place) (target : Path) (_ : IsGba [] q) :
      inputAndGba.nodes.lookup q ≠ some (.link target) := fun hq => by
    have hmem := (hnode hq).2
    simp at hmem
  have hdefault := (packAll_default hrun hlinks).2 (["in"], 0) (by decide +kernel)
    fun q hgba hq => ?_
  · exact ⟨hdefault.trans (by decide +kernel), by decide +kernel⟩
  · obtain ⟨name, rfl⟩ := hgba
    have hin := (hnode hq).1 rfl
    exact gba_ne (by decide) (List.cons.inj hin).1

end ShrinklerGba
