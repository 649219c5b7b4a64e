import ShrinklerGba.Pack

/-!
# When the output is on disk

`write_to_disk` looks at the stream after `open` and after `write`, but not after `close`.

* `OnDisk`: a file at a path has exactly some contents.
* `LostAtClose`: the device takes what it is given at the write, and refuses some of the buffered
  bytes when the file is closed.
* **`writeToDisk_onDisk_iff`**: a normal return means that the output is on disk exactly when no
  byte is lost there.
-/

namespace ShrinklerGba

open Disk

/-- The path leads to a file with exactly these contents. -/
def OnDisk (π : Process) (fs : FileSystem) (p : Path) (data : Bytevector) : Prop :=
  ∃ id file, fileAt π fs p = some id ∧ fs.files.lookup id = some file ∧ file.contents = data

/-- The device accepts all of these bytes. -/
def Fits (room : Option ℕ) (bytes : Bytevector) : Prop := ∀ n ∈ room, bytes.length ≤ n

/-- The bytes of a write that stay in the buffer, and those before them. -/
def bufferedBytes (env : Environment) (data : Bytevector) : Bytevector :=
  data.drop (data.length - env.buffered data)

/-- The bytes of a write that go to the device. -/
def flushedBytes (env : Environment) (data : Bytevector) : Bytevector :=
  data.take (data.length - env.buffered data)

/-- The output can be opened and the device accepts what it is given at the write, but not all of
what is left in the buffer when the file is closed. -/
structure LostAtClose (env : Environment) (data : Bytevector) (filename : Path)
    (fs : FileSystem) : Prop where
  /-- The output can be opened. -/
  opened : openOutput env fs filename ≠ none
  /-- The write succeeds. -/
  written : Fits env.roomAtWrite (flushedBytes env data)
  /-- The flush fails. -/
  refused : ¬Fits env.roomAtClose (bufferedBytes env data)

variable {env : Environment} {data : Bytevector} {filename : Path} {fs fs₁ fs' : FileSystem}
  {id : FileId}

theorem length_accept (room : Option ℕ) (bytes : Bytevector) :
    (accept room bytes).length = bytes.length ↔ Fits room bytes := by
  cases room with
  | none => simp [accept, Fits]
  | some n => simp [accept, Fits]

theorem accept_of_fits {room : Option ℕ} {bytes : Bytevector} (h : Fits room bytes) :
    accept room bytes = bytes := by
  cases room with
  | none => rfl
  | some n => exact List.take_of_length_le (h n rfl)

theorem flushed_append_buffered (env : Environment) (data : Bytevector) :
    flushedBytes env data ++ bufferedBytes env data = data := List.take_append_drop _ _

theorem openOutput_eq_some {opened : FileSystem × FileId} :
    openOutput env fs filename = some opened ↔
      env.openFails = false ∧ openTrunc env.process fs filename = some opened := by
  unfold openOutput
  cases env.openFails <;> simp

theorem openOutput_spec (h : openOutput env fs filename = some (fs₁, id)) :
    fileAt env.process fs₁ filename = some id ∧
      ∃ file, fs₁.files.lookup id = some file ∧ file.contents = [] :=
  openTrunc_spec (openOutput_eq_some.mp h).2

theorem closedOutput_nodes (env : Environment) (fs : FileSystem) (id : FileId) (data : Bytevector) :
    (closedOutput env fs id data).nodes = fs.nodes :=
  (append_nodes _ _ _).trans (append_nodes _ _ _)

/-- The closed file holds what was accepted, and nothing else. -/
theorem lookup_closedOutput (env : Environment) (data : Bytevector) {file : File}
    (h : fs.files.lookup id = some file) : (closedOutput env fs id data).files.lookup id =
      some { file with
        contents := file.contents ++ accept env.roomAtWrite (flushedBytes env data) ++
          accept env.roomAtClose (bufferedBytes env data) } :=
  lookup_append (lookup_append h _) _

variable (data) in
/-- The output path leads to the closed file. -/
theorem closedOutput_onDisk (h : openOutput env fs filename = some (fs₁, id)) :
    OnDisk env.process (closedOutput env fs₁ id data) filename
      (accept env.roomAtWrite (flushedBytes env data) ++
        accept env.roomAtClose (bufferedBytes env data)) := by
  obtain ⟨hat, file, hfile, hempty⟩ := openOutput_spec h
  refine ⟨id, _, ?_, lookup_closedOutput env data hfile, by rw [hempty, List.nil_append]⟩
  rw [fileAt_of_nodes (closedOutput_nodes env fs₁ id data), hat]

theorem onDisk_inj {π : Process} {data' : Bytevector} (h : OnDisk π fs filename data)
    (h' : OnDisk π fs filename data') : data = data' := by
  obtain ⟨id, file, hid, hfile, rfl⟩ := h
  obtain ⟨id', file', hid', hfile', rfl⟩ := h'
  obtain rfl := Option.some.inj (hid.symm.trans hid')
  obtain rfl := Option.some.inj (hfile.symm.trans hfile')
  rfl

/-- A normal return: the output was opened, the write succeeded, and the file was closed. -/
theorem writeToDisk_eq_ok : writeToDisk env data filename fs = (.ok (), fs') ↔
    ∃ fs₁ id, openOutput env fs filename = some (fs₁, id) ∧
      Fits env.roomAtWrite (flushedBytes env data) ∧ fs' = closedOutput env fs₁ id data := by
  cases hopen : openOutput env fs filename with
  | none => simp [writeToDisk, tryWriteToDisk, hopen]
  | some opened =>
      obtain ⟨fs₁, id⟩ := opened
      have hgood : (writeOutput env fs₁ id data).2.2 = true ↔
          Fits env.roomAtWrite (flushedBytes env data) :=
        decide_eq_true_iff.trans (length_accept _ _)
      simp only [Option.some.injEq, Prod.mk.injEq, ← hgood]
      cases hw : (writeOutput env fs₁ id data).2.2 with
      | true =>
          simp only [writeToDisk, tryWriteToDisk, hopen, hw, Bool.not_true, Bool.false_eq_true,
            if_false, Prod.mk.injEq, true_and]
          constructor
          · rintro rfl
            exact ⟨fs₁, id, ⟨rfl, rfl⟩, rfl⟩
          · rintro ⟨_, _, ⟨rfl, rfl⟩, rfl⟩
            rfl
      | false =>
          simp only [writeToDisk, tryWriteToDisk, hopen, hw, Bool.not_false, if_true, Prod.mk.injEq,
            reduceCtorEq, false_and, false_iff, not_exists, not_and]
          exact fun _ _ _ htrue => htrue.elim

/-- Where bytes are lost at the close, a normal return leaves something else on disk. -/
theorem LostAtClose.exists_ok (h : LostAtClose env data filename fs) :
    ∃ fs', writeToDisk env data filename fs = (.ok (), fs') ∧
      ¬OnDisk env.process fs' filename data := by
  obtain ⟨⟨fs₁, id⟩, hopen⟩ := Option.ne_none_iff_exists'.mp h.opened
  refine ⟨_, writeToDisk_eq_ok.mpr ⟨fs₁, id, hopen, h.written, rfl⟩, fun hdata => ?_⟩
  -- The file would hold the data, but it holds what was accepted, which is shorter.
  have heq := onDisk_inj hdata (closedOutput_onDisk data hopen)
  rw [accept_of_fits h.written] at heq
  nth_rewrite 1 [← flushed_append_buffered env data] at heq
  refine h.refused ((length_accept _ _).mp ?_)
  rw [← List.append_cancel_left heq]

/-- **A normal return means that the output is on disk exactly when no byte is lost at the close.**
The stream is not looked at any more after `close`. -/
theorem writeToDisk_onDisk_iff (env : Environment) (data : Bytevector) (filename : Path)
    (fs : FileSystem) :
    (∀ fs', writeToDisk env data filename fs = (.ok (), fs') →
        OnDisk env.process fs' filename data) ↔
      ¬LostAtClose env data filename fs := by
  constructor
  · intro h hlost
    obtain ⟨fs', hok, hnot⟩ := hlost.exists_ok
    exact hnot (h fs' hok)
  · intro h fs' hok
    obtain ⟨fs₁, id, hopen, hwritten, rfl⟩ := writeToDisk_eq_ok.mp hok
    have hfits : Fits env.roomAtClose (bufferedBytes env data) := by
      by_contra hrefused
      exact h ⟨by rw [hopen]; exact Option.some_ne_none _, hwritten, hrefused⟩
    have hdisk := closedOutput_onDisk data hopen
    rwa [accept_of_fits hwritten, accept_of_fits hfits, flushed_append_buffered] at hdisk

/-! ## A full disk -/

/-- Surroundings in which a small write stays in the buffer and the disk is full. -/
def fullDisk : Environment :=
  { sampleEnvironment with buffered := fun data => data.length, roomAtClose := some 0 }

/-- On the full disk, `write_to_disk` returns normally and leaves an empty file. -/
theorem writeToDisk_loses_bytes :
    ¬ ∀ (env : Environment) (data : Bytevector) (filename : Path) (fs fs' : FileSystem),
      writeToDisk env data filename fs = (.ok (), fs') →
        OnDisk env.process fs' filename data := by
  intro h
  have hlost : LostAtClose fullDisk [42] ["out"] FileSystem.root :=
    ⟨by decide, fun n hn => absurd hn (by simp [fullDisk, sampleEnvironment]), fun hfits =>
      absurd (hfits 0 rfl) (by decide)⟩
  obtain ⟨fs', hok, hnot⟩ := hlost.exists_ok
  exact hnot (h _ _ _ _ _ hok)

/-- The theorem where the device refuses nothing. -/
theorem writeToDisk_onDisk_sample :
    OnDisk sampleEnvironment.process
      (writeToDisk sampleEnvironment [42] ["out"] FileSystem.root).2 ["out"] [42] := by
  have hnot : ¬LostAtClose sampleEnvironment [42] ["out"] FileSystem.root :=
    fun hlost => hlost.refused fun n hn => absurd hn (by simp [sampleEnvironment])
  exact (writeToDisk_onDisk_iff _ _ _ _).mpr hnot _ rfl

end ShrinklerGba
