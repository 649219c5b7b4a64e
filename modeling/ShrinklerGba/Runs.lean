import ShrinklerGba.Disk.Footprint
import ShrinklerGba.Output
import ShrinklerGba.Transition.Footprint

/-!
# Runs one after the other

The packer is run many times on one file system, as a build does.

* `writeToDisk_eq`: everything that writing the output can do.
* `pack_local`: a run looks at its input and around its output, and changes only its output.
* **`packAll_independent`**: runs that do not get in each other's way do in any order what each does
  alone.
* **`pack_again`**: a run that succeeded does so again and changes nothing more.
-/

namespace ShrinklerGba

open Disk Transition

variable {env : Environment} {opts : Options} {fs gs fs' fs₁ : FileSystem} {p : Path} {id : FileId}
  {K : Set Key}

/-! ## What a run looks at and what it changes -/

/-- What is thrown when the output cannot be written. -/
def writeError (env : Environment) (filename : Path) : Exception :=
  .runtimeError ("Could not write " ++ pathString filename ++ ": " ++ env.strerror)

/-- Whether the device takes what it is given at the write. -/
def written (env : Environment) (data : Bytevector) : Bool :=
  (accept env.roomAtWrite (flushedBytes env data)).length = (flushedBytes env data).length

/-- **Writing the output**: it cannot be opened, the write fails, or the file is closed. -/
theorem writeToDisk_eq (env : Environment) (data : Bytevector) (p : Path) (fs : FileSystem) :
    writeToDisk env data p fs = match openOutput env fs p with
      | none => (.error (writeError env p), remove env.process fs p)
      | some (fs₁, id) =>
          if written env data then (.ok (), closedOutput env fs₁ id data)
          else
            (.error (writeError env p), remove env.process (closedOutput env fs₁ id data) p) := by
  cases hopen : openOutput env fs p with
  | none => simp only [writeToDisk, tryWriteToDisk, hopen, removeOutputFile, writeError]
  | some opened =>
      obtain ⟨fs₁, id⟩ := opened
      have hgood : (writeOutput env fs₁ id data).2.2 = written env data := rfl
      cases hw : written env data <;>
        simp [writeToDisk, tryWriteToDisk, hopen, hgood, hw, removeOutputFile, writeError,
          closedOutput]

/-- What writing the output may look at. -/
def outputReads (env : Environment) (p : Path) (fs : FileSystem) : Set Key :=
  openPrint env.process fs p ∪ removePrint env.process fs p

/-- What writing the output may change. -/
def outputWrites (env : Environment) (p : Path) (fs : FileSystem) : Set Key :=
  openWrites env.process fs p ∪ removeWrites env.process fs p

section output

variable {data : Bytevector}

/-- Opening the output depends on what it looks at. -/
theorem openOutput_congr_none (h : Alike (openPrint env.process fs p) fs gs)
    (hopen : openOutput env fs p = none) : openOutput env gs p = none := by
  rw [openOutput] at hopen ⊢
  split at hopen
  · rw [if_pos (by assumption)]
  · rw [if_neg (by assumption)]
    exact openTrunc_congr_none h hopen

theorem closedOutput_congr (h : Alike K fs gs) (hid : .inr id ∈ K) (env : Environment)
    (data : Bytevector) : Alike K (closedOutput env fs id data) (closedOutput env gs id data) :=
  append_congr (append_congr h hid _) hid _

theorem closedOutput_frame (env : Environment) (fs : FileSystem) (data : Bytevector)
    (hid : .inr id ∈ K) : Alike Kᶜ fs (closedOutput env fs id data) :=
  (append_frame fs hid _).trans (append_frame _ hid _)

/-- Between opening the output and removing it, no path comes to lead elsewhere. -/
theorem closedOutput_grows (hopen : openOutput env fs p = some (fs₁, id)) (data : Bytevector) :
    Grows fs (closedOutput env fs₁ id data) := by
  intro r
  rw [closedOutput_nodes]
  exact openTrunc_grows (openOutput_eq_some.mp hopen).2 r

theorem removePrint_closedOutput (hopen : openOutput env fs p = some (fs₁, id))
    (data : Bytevector) :
    removePrint env.process (closedOutput env fs₁ id data) p = removePrint env.process fs p ∧
      removeWrites env.process (closedOutput env fs₁ id data) p =
        removeWrites env.process fs p := by
  have hgrows := closedOutput_grows hopen data
  obtain ⟨q, hq, -⟩ := openTrunc_eq_some.mp (openOutput_eq_some.mp hopen).2
  exact removePrint_of_grows hgrows hq

theorem outputWrites_subset : outputWrites env p fs ⊆ outputReads env p fs :=
  Set.union_subset_union openWrites_subset removeWrites_subset

/-- What is written depends only on what is around the output. -/
theorem writeToDisk_congr (h : Alike (outputReads env p fs) fs gs) (data : Bytevector) :
    (writeToDisk env data p gs).1 = (writeToDisk env data p fs).1 ∧
      Alike (outputReads env p fs) (writeToDisk env data p fs).2 (writeToDisk env data p gs).2 := by
  have hprint : Alike (openPrint env.process fs p) fs gs := h.mono Set.subset_union_left
  have hremove : removePrint env.process fs p ⊆ outputReads env p fs := Set.subset_union_right
  rw [writeToDisk_eq, writeToDisk_eq]
  cases hopen : openOutput env fs p with
  | none =>
      rw [openOutput_congr_none hprint hopen]
      exact ⟨rfl, (remove_congr (h.mono hremove) h).mono Set.subset_union_left⟩
  | some opened =>
      obtain ⟨fs₁, id⟩ := opened
      obtain ⟨hfails, htrunc⟩ := openOutput_eq_some.mp hopen
      obtain ⟨gs₁, hgs₁, hopened⟩ := openTrunc_congr hprint htrunc
      have hid : .inr id ∈ outputReads env p fs :=
        .inl (openWrites_subset (openTrunc_frame htrunc).2)
      have hclosed := closedOutput_congr ((hopened _ h).mono Set.subset_union_left) hid env data
      rw [openOutput_eq_some.mpr ⟨hfails, hgs₁⟩]
      dsimp only
      split
      · exact ⟨rfl, hclosed⟩
      · have hsub : removePrint env.process (closedOutput env fs₁ id data) p ⊆
            outputReads env p fs := (removePrint_closedOutput hopen data).1 ▸ hremove
        exact ⟨rfl, (remove_congr (hclosed.mono hsub) hclosed).mono Set.subset_union_left⟩

/-- Only the output changes. -/
theorem writeToDisk_frame (env : Environment) (data : Bytevector) (p : Path) (fs : FileSystem) :
    Alike (outputWrites env p fs)ᶜ fs (writeToDisk env data p fs).2 := by
  have hopenWrites : openWrites env.process fs p ⊆ outputWrites env p fs := Set.subset_union_left
  have hremoveWrites : removeWrites env.process fs p ⊆ outputWrites env p fs :=
    Set.subset_union_right
  rw [writeToDisk_eq]
  cases hopen : openOutput env fs p with
  | none => exact (remove_frame env.process fs p).mono (Set.compl_subset_compl.mpr hremoveWrites)
  | some opened =>
      obtain ⟨fs₁, id⟩ := opened
      obtain ⟨hopened, hid⟩ := openTrunc_frame (openOutput_eq_some.mp hopen).2
      have hclosed : Alike (outputWrites env p fs)ᶜ fs (closedOutput env fs₁ id data) :=
        (hopened.mono (Set.compl_subset_compl.mpr hopenWrites)).trans
          (closedOutput_frame env fs₁ data (hopenWrites hid))
      dsimp only
      split
      · exact hclosed
      · have hsub : removeWrites env.process (closedOutput env fs₁ id data) p ⊆
            outputWrites env p fs := (removePrint_closedOutput hopen data).2 ▸ hremoveWrites
        exact hclosed.trans
          ((remove_frame env.process _ p).mono (Set.compl_subset_compl.mpr hsub))

/-- A name that is there after the output was written was there before, or is that of a new file. -/
theorem writeToDisk_nodes {q : Place} {node : Node}
    (h : (writeToDisk env data p fs).2.nodes.lookup q = some node) :
    fs.nodes.lookup q = some node ∨ ∃ q', node = .file (newId fs q') := by
  rw [writeToDisk_eq] at h
  cases hopen : openOutput env fs p with
  | none =>
      rw [hopen] at h
      exact .inl (remove_nodes h)
  | some opened =>
      obtain ⟨fs₁, id⟩ := opened
      have hopened {r : Place} (hr : (closedOutput env fs₁ id data).nodes.lookup r = some node) :
          fs.nodes.lookup r = some node ∨ ∃ q', node = .file (newId fs q') := by
        rw [closedOutput_nodes] at hr
        exact openTrunc_nodes (openOutput_eq_some.mp hopen).2 hr
      rw [hopen] at h
      dsimp only at h
      split at h
      · exact hopened h
      · exact hopened (remove_nodes h)

/-- No file is lost, but perhaps its name. -/
theorem mem_writeToDisk (h : id ∈ fs.files) : id ∈ (writeToDisk env data p fs).2.files := by
  have hclosed {fs₁ : FileSystem} {id' : FileId} (hopen : openOutput env fs p = some (fs₁, id')) :
      id ∈ (closedOutput env fs₁ id' data).files :=
    mem_append (mem_append (mem_openTrunc (openOutput_eq_some.mp hopen).2 h))
  rw [writeToDisk_eq]
  cases hopen : openOutput env fs p with
  | none => exact mem_remove h
  | some opened =>
      dsimp only
      split
      · exact hclosed hopen
      · exact mem_remove (hclosed hopen)

end output

/-- A run of the packer. -/
abbrev Run := Environment × Options

/-- What a run may look at. -/
def Run.reads (r : Run) (fs : FileSystem) : Set Key :=
  readPrint r.1.process fs r.2.inputFile ∪ outputReads r.1 r.2.outputFile fs

/-- What a run may change. -/
def Run.writes (r : Run) (fs : FileSystem) : Set Key := outputWrites r.1 r.2.outputFile fs

theorem Run.writes_subset (r : Run) (fs : FileSystem) : r.writes fs ⊆ r.reads fs :=
  outputWrites_subset.trans Set.subset_union_right

theorem packCartridge_congr
    (h : Disk.read env.process gs opts.inputFile = Disk.read env.process fs opts.inputFile) :
    packCartridge env opts gs = packCartridge env opts fs := by
  simp only [packCartridge, loadInputFile, tryLoadInputFile, h]

theorem read_of_packCartridge {c : Cartridge} (h : packCartridge env opts fs = .ok c) :
    ∃ bytes, Disk.read env.process fs opts.inputFile = some bytes := by
  refine Option.ne_none_iff_exists'.mp fun hnone => ?_
  simp [packCartridge, loadInputFile, tryLoadInputFile, hnone, bind, Except.bind] at h

/-- **A run looks at its input and around its output, and changes only its output.** -/
theorem pack_local (r : Run) (fs : FileSystem) :
    Local look fs (r.reads fs) (r.writes fs) (pack r.1 r.2) where
  frame gs h := by
    rw [← alike_iff] at h ⊢
    have hwrites : r.writes gs = r.writes fs := by
      rw [Run.writes, Run.writes, outputWrites, outputWrites,
        openWrites_congr (h.mono (Set.subset_union_left.trans Set.subset_union_right)),
        removeWrites_congr (h.mono (Set.subset_union_right.trans Set.subset_union_right))]
    rw [pack, ← hwrites]
    split
    · exact ⟨fun _ _ => rfl, fun _ _ => rfl⟩
    · exact writeToDisk_frame r.1 _ r.2.outputFile gs
  result gs h := by
    rw [← alike_iff] at h
    rw [pack, pack, packCartridge_congr (read_congr (h.mono Set.subset_union_left))]
    split
    · rfl
    · exact (writeToDisk_congr (h.mono Set.subset_union_right) _).1
  written gs h := by
    rw [← alike_iff] at h ⊢
    rw [pack, pack, packCartridge_congr (read_congr (h.mono Set.subset_union_left))]
    split
    · exact h.mono (r.writes_subset fs)
    · exact (writeToDisk_congr (h.mono Set.subset_union_right) _).2.mono outputWrites_subset

/-! ## Many runs -/

/-- Runs one after the other, with what each returns. -/
def packAll : List Run → FileSystem → List (Except Exception Unit) × FileSystem :=
  runAll fun r => pack r.1 r.2

/-- Neither of two runs writes where the other may look. -/
def OffEachOther (fs : FileSystem) (r r' : Run) : Prop :=
  Disjoint (r.writes fs) (r'.reads fs) ∧ Disjoint (r'.writes fs) (r.reads fs)

theorem OffEachOther.independent {r r' : Run} (h : OffEachOther fs r r') :
    Independent (fun r : Run => r.reads fs) (fun r => r.writes fs) r r' :=
  ⟨h.1, h.2, h.1.mono_right (r'.writes_subset fs)⟩

/-- **Runs that do not get in each other's way do what each does alone, in any order**: every run
returns what it would return as the only one, all that it looks at or changes is as it would leave
it, and everything else stays as it is. -/
theorem packAll_independent {rs rs' : List Run} {fs : FileSystem}
    (h : rs.Pairwise (OffEachOther fs)) (hperm : rs'.Perm rs) :
    (packAll rs' fs).1 = rs'.map (fun r => (pack r.1 r.2 fs).1) ∧
      (∀ r ∈ rs, Set.EqOn (look (packAll rs' fs).2) (look (pack r.1 r.2 fs).2) (r.reads fs)) ∧
      (∀ k, (∀ r ∈ rs, k ∉ r.writes fs) → look (packAll rs' fs).2 k = look fs k) ∧
      look (packAll rs' fs).2 = look (packAll rs fs).2 := by
  have hlocal (r : Run) := pack_local r fs
  have hpairwise := h.imp OffEachOther.independent
  have hsymm : Std.Symm (OffEachOther fs) := ⟨fun _ _ h => ⟨h.2, h.1⟩⟩
  obtain ⟨hresults, hwritten, hframe⟩ :=
    runAll_of_pairwise hlocal (hperm.symm.pairwise hpairwise fun h => h.symm)
  have hframe' (k : Key) (hk : ∀ r ∈ rs, k ∉ r.writes fs) : look (packAll rs' fs).2 k = look fs k :=
    hframe k fun r hr => hk r (hperm.mem_iff.mp hr)
  refine ⟨hresults, fun r hr k hk => ?_, hframe', runAll_perm hlocal hpairwise hperm⟩
  by_cases hkr : k ∈ r.writes fs
  · exact hwritten r (hperm.mem_iff.mpr hr) hkr
  · -- No other run changes what this one looks at.
    have hothers : ∀ r' ∈ rs, k ∉ r'.writes fs := fun r' hr' hkr' => by
      by_cases heq : r' = r
      · exact hkr (heq ▸ hkr')
      · exact Set.disjoint_left.mp (h.forall hr' hr heq).1 hkr' hk
    exact (hframe' k hothers).trans ((hlocal r).frame fs (Set.eqOn_refl _ _) hkr).symm

/-- Pack `in` to a file of some name. -/
def sampleRun (name : String) : Run :=
  (sampleEnvironment, { sampleOptions with outputFile := [name] })

/-- There is nothing of that name next to `in`. -/
structure NewName (name : String) : Prop where
  /-- It is not that of the input. -/
  ne : name ≠ "in"
  /-- It is a name. -/
  path : withoutSlash [name] = [name]
  /-- It leads to itself. -/
  walk : ∀ follow, Disk.walk inputOnly follow maxLinks [] [name] = ([[], [name]], some [name])
  /-- There is no file. -/
  file : fileAt {} inputOnly [name] = none
  /-- There was none. -/
  id : newId inputOnly [name] = ([name], 0)

/-- Runs with outputs of two new names are off each other. -/
theorem NewName.disjoint {a b : String} (ha : NewName a) (hb : NewName b) (hab : a ≠ b) :
    Disjoint ((sampleRun a).writes inputOnly) ((sampleRun b).reads inputOnly) := by
  have hwalk : Disk.walk inputOnly true maxLinks [] ["in"] = ([[], ["in"]], some ["in"]) := by
    decide +kernel
  have hfile : fileAt {} inputOnly ["in"] = some (["in"], 0) := by decide +kernel
  have hprocess : sampleEnvironment.process = {} := rfl
  rw [Set.disjoint_left]
  intro k hk hk'
  have hk : k = .inl [a] ∨ k = .inr ([a], 0) := by
    simp only [Run.writes, sampleRun, outputWrites, openWrites, removeWrites, namedPlace, locate,
      hprocess, ha.path, ha.walk, ha.file] at hk
    simp [ha.id] at hk
    tauto
  simp only [Run.reads, sampleRun, outputReads, readPrint, openPrint, removePrint, namedPlace,
    trail, locate, sampleOptions, hprocess, hb.path, hb.walk, hb.file, hwalk, hfile] at hk'
  rcases hk with rfl | rfl <;> simp [ha.ne, ha.ne.symm, hab, hab.symm, parent] at hk'

theorem packAll_independent_sample :
    Set.EqOn (look (packAll [sampleRun "other", sampleRun "out"] inputOnly).2)
      (look (pack sampleEnvironment sampleOptions inputOnly).2)
      ((sampleRun "out").reads inputOnly) ∧
    (packAll [sampleRun "other", sampleRun "out"] inputOnly).1 = [.ok (), .ok ()] := by
  have hout : NewName "out" := ⟨by decide, by decide, by decide +kernel, by decide +kernel,
    by decide +kernel⟩
  have hother : NewName "other" := ⟨by decide, by decide, by decide +kernel, by decide +kernel,
    by decide +kernel⟩
  have hpairwise : [sampleRun "out", sampleRun "other"].Pairwise (OffEachOther inputOnly) :=
    List.pairwise_pair.mpr ⟨hout.disjoint hother (by decide), hother.disjoint hout (by decide)⟩
  obtain ⟨hresults, hreads, -⟩ := packAll_independent hpairwise (List.Perm.swap _ _ [])
  refine ⟨hreads (sampleRun "out") List.mem_cons_self, hresults.trans ?_⟩
  decide +kernel

/-! ## A run again -/

theorem closedOutput_files (env : Environment) (fs : FileSystem) (data : Bytevector) {id' : FileId}
    (h : id' ≠ id) : (closedOutput env fs id data).files.lookup id' = fs.files.lookup id' :=
  (lookup_append_of_ne _ _ h).trans (lookup_append_of_ne fs _ h)

/-- What is there can be read again after the output was written, if the output is another file. -/
theorem read_closedOutput {p' : Path} {data : Bytevector} {bytes : List (BitVec 8)}
    (hopen : openOutput env fs p = some (fs₁, id)) (hread : read env.process fs p' = some bytes)
    (hne : fileAt env.process (closedOutput env fs₁ id data) p' ≠ some id) :
    read env.process (closedOutput env fs₁ id data) p' = some bytes := by
  have hgrows := closedOutput_grows hopen data
  obtain ⟨node, hnode, hbytes⟩ := Option.bind_eq_some_iff.mp hread
  obtain ⟨q, hq, hlookup⟩ := Option.bind_eq_some_iff.mp hnode
  have hnode' : nodeAt env.process (closedOutput env fs₁ id data) p' = some node := by
    rw [nodeAt, locate_grows hgrows hq, Option.bind_some,
      hgrows.lookup (by rw [hlookup]; exact Option.some_ne_none node), hlookup]
  unfold Disk.read
  rw [hnode', Option.bind_some]
  cases node with
  | file id' =>
      have hid : id' ≠ id := by
        rintro rfl
        exact hne (by rw [fileAt, hnode']; rfl)
      dsimp only at hbytes ⊢
      rw [closedOutput_files env fs₁ data hid,
        openTrunc_files (openOutput_eq_some.mp hopen).2 hid]
      exact hbytes
  | directory => exact hbytes
  | link => exact hbytes

theorem look_congr (hnodes : ∀ q, gs.nodes.lookup q = fs.nodes.lookup q)
    (hfiles : ∀ id, gs.files.lookup id = fs.files.lookup id) : look gs = look fs :=
  (Set.eqOn_univ _ _).mp (alike_iff.mp ⟨fun q _ => hnodes q, fun id _ => hfiles id⟩)

/-- A closed output that is writable can be opened again, and closing it again leaves the same. -/
theorem reopen_closedOutput {data : Bytevector} (hopen : openOutput env fs p = some (fs₁, id))
    (hwritable : ∃ file, (closedOutput env fs₁ id data).files.lookup id = some file ∧
      file.writable = true) :
    ∃ fs₂, openOutput env (closedOutput env fs₁ id data) p = some (fs₂, id) ∧
      look (closedOutput env fs₂ id data) = look (closedOutput env fs₁ id data) := by
  obtain ⟨hat, file, hfile, hempty⟩ := openOutput_spec hopen
  obtain ⟨fs', hfs'⟩ : ∃ fs', fs' = closedOutput env fs₁ id data := ⟨_, rfl⟩
  have hclosed := lookup_closedOutput env data hfile
  rw [← hfs'] at hwritable hclosed ⊢
  obtain ⟨file', hfile', hwritable⟩ := hwritable
  have hat' : fileAt env.process fs' p = some id := by
    rw [hfs', fileAt_of_nodes (closedOutput_nodes env fs₁ id data), hat]
  obtain ⟨q, hq, hnode⟩ := locate_of_fileAt hat'
  refine ⟨fs'.setFile id { file' with contents := [] }, ?_, ?_⟩
  · refine openOutput_eq_some.mpr ⟨(openOutput_eq_some.mp hopen).1, ?_⟩
    exact openTrunc_eq_some.mpr ⟨q, hq, .inl ⟨file', hnode, hfile', hwritable, rfl⟩⟩
  · refine look_congr (fun q => by rw [closedOutput_nodes, setFile_nodes]) fun id' => ?_
    by_cases hid : id' = id
    · subst hid
      -- The file holds what it held when it was closed the first time.
      obtain rfl := Option.some.inj (hclosed.symm.trans hfile')
      rw [lookup_closedOutput env data (lookup_setFile fs' id' _), hclosed]
      simp only [hempty]
    · rw [closedOutput_files env _ data hid, lookup_setFile_of_ne fs' _ hid]

/-- A run that succeeded does so again. -/
theorem pack_twice (h : pack env opts fs = (.ok (), fs'))
    (hne : fileAt env.process fs' opts.inputFile ≠ fileAt env.process fs' opts.outputFile)
    (hwritable : ∃ id file, fileAt env.process fs' opts.outputFile = some id ∧
      fs'.files.lookup id = some file ∧ file.writable = true) :
    (pack env opts fs').1 = .ok () ∧ look (pack env opts fs').2 = look fs' := by
  rw [pack] at h
  split at h
  · cases h
  rename_i c hc
  obtain ⟨fs₁, id, hopen, hwritten, rfl⟩ := writeToDisk_eq_ok.mp h
  obtain ⟨hat, -⟩ := openOutput_spec hopen
  rw [← fileAt_of_nodes (closedOutput_nodes env fs₁ id c.data)] at hat
  obtain ⟨id', file, hat', hfile, hwritable⟩ := hwritable
  obtain rfl := Option.some.inj (hat.symm.trans hat')
  obtain ⟨fs₂, hreopen, hsame⟩ := reopen_closedOutput hopen ⟨file, hfile, hwritable⟩
  have hc' : packCartridge env opts (closedOutput env fs₁ id c.data) = .ok c := by
    obtain ⟨bytes, hread⟩ := read_of_packCartridge hc
    rw [← hc]
    refine packCartridge_congr ((read_closedOutput hopen hread ?_).trans hread.symm)
    rw [← hat]
    exact hne
  have hagain : pack env opts (closedOutput env fs₁ id c.data) =
      (.ok (), closedOutput env fs₂ id c.data) := by
    rw [pack, hc']
    exact writeToDisk_eq_ok.mpr ⟨fs₂, id, hreopen, hwritten, rfl⟩
  rw [hagain]
  exact ⟨rfl, hsame⟩

/-- **A run that succeeded can be repeated as often as one likes**, if its output is another file
than its input and was not made read-only: it succeeds again, and nothing changes any more. -/
theorem pack_again (h : pack env opts fs = (.ok (), fs'))
    (hne : fileAt env.process fs' opts.inputFile ≠ fileAt env.process fs' opts.outputFile)
    (hwritable : ∃ id file, fileAt env.process fs' opts.outputFile = some id ∧
      fs'.files.lookup id = some file ∧ file.writable = true) (n : ℕ) :
    (packAll (.replicate n (env, opts)) fs').1 = .replicate n (.ok ()) ∧
      look (packAll (.replicate n (env, opts)) fs').2 = look fs' := by
  obtain ⟨hok, hsame⟩ := pack_twice h hne hwritable
  -- Whatever state looks like the one after the first run, a run leaves it looking so.
  have hstep (gs : FileSystem) (hgs : look gs = look fs') :
      (pack env opts gs).1 = .ok () ∧ look (pack env opts gs).2 = look fs' := by
    have hlocal := pack_local (env, opts) fs'
    have hgs' (K : Set Key) : Set.EqOn (look gs) (look fs') K := fun k _ => congrFun hgs k
    refine ⟨(hlocal.result gs (hgs' _)).trans hok, funext fun k => ?_⟩
    by_cases hk : k ∈ Run.writes (env, opts) fs'
    · exact (hlocal.written gs (hgs' _) hk).trans (congrFun hsame k)
    · exact (hlocal.frame gs (hgs' _) hk).trans (congrFun hgs k)
  have hruns (gs : FileSystem) (hgs : look gs = look fs') :
      (packAll (.replicate n (env, opts)) gs).1 = .replicate n (.ok ()) ∧
        look (packAll (.replicate n (env, opts)) gs).2 = look fs' := by
    induction n generalizing gs with
    | zero => exact ⟨rfl, hgs⟩
    | succ n ih =>
        obtain ⟨hok, hgs'⟩ := hstep gs hgs
        obtain ⟨hoks, hrest⟩ := ih _ hgs'
        exact ⟨congrArg₂ List.cons hok hoks, hrest⟩
  exact hruns fs' rfl

/-- The theorem where the output is new. -/
theorem pack_again_sample :
    (packAll (.replicate 3 (sampleEnvironment, sampleOptions))
      (pack sampleEnvironment sampleOptions inputOnly).2).1 = [.ok (), .ok (), .ok ()] := by
  have hok : (pack sampleEnvironment sampleOptions inputOnly).1 = .ok () := by decide +kernel
  have hin : fileAt sampleEnvironment.process (pack sampleEnvironment sampleOptions inputOnly).2
      sampleOptions.inputFile = some (["in"], 0) := by decide +kernel
  have hout : fileAt sampleEnvironment.process (pack sampleEnvironment sampleOptions inputOnly).2
      sampleOptions.outputFile = some (["out"], 0) := by decide +kernel
  have hwritable : ((pack sampleEnvironment sampleOptions inputOnly).2.files.lookup
      (["out"], 0)).map File.writable = some true := by decide +kernel
  obtain ⟨file, hfile, hwritable⟩ := Option.map_eq_some_iff.mp hwritable
  obtain ⟨fs', hfs'⟩ : ∃ fs', fs' = (pack sampleEnvironment sampleOptions inputOnly).2 := ⟨_, rfl⟩
  rw [← hfs'] at hin hout hfile ⊢
  have hrun : pack sampleEnvironment sampleOptions inputOnly = (.ok (), fs') :=
    Prod.ext hok hfs'.symm
  exact (pack_again hrun (by rw [hin, hout]; decide) ⟨_, file, hout, hfile, hwritable⟩ 3).1

end ShrinklerGba
