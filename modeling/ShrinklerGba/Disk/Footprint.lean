import Mathlib.Data.Set.Function
import ShrinklerGba.Disk.FileSystem

/-!
# What an operation looks at and what it changes

A file system is looked at name by name and file by file. Which names and files an operation looks
at depends on the links that it follows.

* `readPrint`, `openPrint` and `removePrint` are what an operation may look at, `openWrites` and
  `removeWrites` what it may change.
* `read_congr`, `openTrunc_congr`, `remove_congr`: where that is the same, the operation does the
  same.
* `openTrunc_frame`, `append_frame`, `remove_frame`: the rest stays as it is.
-/

namespace Disk

/-- A name or a file. -/
abbrev Key := Place ⊕ FileId

/-- What there is. -/
def look (fs : FileSystem) : Key → Option (Node ⊕ File)
  | .inl q => (fs.nodes.lookup q).map .inl
  | .inr id => (fs.files.lookup id).map .inr

/-- Two file systems have the same at some keys. -/
structure Alike (K : Set Key) (fs gs : FileSystem) : Prop where
  /-- The same names. -/
  nodes : ∀ q, .inl q ∈ K → gs.nodes.lookup q = fs.nodes.lookup q
  /-- The same files. -/
  files : ∀ id, .inr id ∈ K → gs.files.lookup id = fs.files.lookup id

theorem alike_iff {K : Set Key} {fs gs : FileSystem} :
    Alike K fs gs ↔ Set.EqOn (look gs) (look fs) K := by
  constructor
  · rintro h (q | id) hk
    · rw [look, look, h.nodes q hk]
    · rw [look, look, h.files id hk]
  · intro h
    exact ⟨fun q hq => Option.map_injective Sum.inl_injective (h hq),
      fun id hid => Option.map_injective Sum.inr_injective (h hid)⟩

section footprints

variable (π : Process) (fs : FileSystem) (p : Path)

/-- The names and the file that are looked at to read a file. -/
def readPrint : Set Key :=
  {k | (∃ q, k = .inl q ∧
      (q ∈ trail fs π.directory true p ∨ locate fs π.directory true p = some q)) ∨
    ∃ id, k = .inr id ∧ fileAt π fs p = some id}

/-- What is looked at to open a file: if it is new, also its directory, and the files that were made
there. -/
def openPrint : Set Key :=
  readPrint π fs p ∪
    {k | ∃ q, locate fs π.directory true p = some q ∧ (k = .inl (parent q) ∨ ∃ n, k = .inr (q, n))}

/-- What is looked at to remove a name: its directory, and what is in it. -/
def removePrint : Set Key :=
  {k | (∃ q, k = .inl q ∧ q ∈ trail fs π.directory false (withoutSlash p)) ∨
    ∃ q, namedPlace π fs p = some q ∧
      (k = .inl q ∨ k = .inl (parent q) ∨ ∃ r, k = .inl r ∧ parent r = q)}

/-- What opening changes: the file, or the new file and its name. -/
def openWrites : Set Key :=
  {k | (∃ id, k = .inr id ∧ fileAt π fs p = some id) ∨
    ∃ q, locate fs π.directory true p = some q ∧ fs.nodes.lookup q = none ∧
      (k = .inl q ∨ k = .inr (newId fs q))}

/-- What removing changes: the name. -/
def removeWrites : Set Key := {k | ∃ q, k = .inl q ∧ namedPlace π fs p = some q}

end footprints

variable {π : Process} {fs gs fs' gs' : FileSystem} {p : Path} {q : Place} {id : FileId}
  {K L : Set Key}

theorem Alike.mono (h : Alike K fs gs) (hL : L ⊆ K) : Alike L fs gs :=
  ⟨fun q hq => h.nodes q (hL hq), fun id hid => h.files id (hL hid)⟩

theorem Alike.symm (h : Alike K fs gs) : Alike K gs fs :=
  ⟨fun q hq => (h.nodes q hq).symm, fun id hid => (h.files id hid).symm⟩

theorem Alike.trans {hs : FileSystem} (h : Alike K fs gs) (h' : Alike K gs hs) : Alike K fs hs :=
  ⟨fun q hq => (h'.nodes q hq).trans (h.nodes q hq),
    fun id hid => (h'.files id hid).trans (h.files id hid)⟩

/-! ## Reading -/

section read

variable (h : Alike (readPrint π fs p) fs gs)
include h

theorem readPrint_walk :
    walk gs true maxLinks π.directory p = walk fs true maxLinks π.directory p :=
  walk_congr fs fun r hr => h.nodes r (.inl ⟨r, rfl, .inl hr⟩)

theorem readPrint_locate : locate gs π.directory true p = locate fs π.directory true p := by
  rw [locate, locate, readPrint_walk h]

theorem readPrint_nodeAt : nodeAt π gs p = nodeAt π fs p := by
  rw [nodeAt, nodeAt, readPrint_locate h]
  cases hq : locate fs π.directory true p with
  | none => rfl
  | some q => exact h.nodes q (.inl ⟨q, rfl, .inr hq⟩)

theorem readPrint_fileAt : fileAt π gs p = fileAt π fs p := by
  rw [fileAt, fileAt, readPrint_nodeAt h]

theorem readPrint_congr : readPrint π gs p = readPrint π fs p := by
  simp only [readPrint, trail, readPrint_walk h, readPrint_locate h, readPrint_fileAt h]

/-- Reading depends on what it looks at. -/
theorem read_congr : read π gs p = read π fs p := by
  rw [read, read, readPrint_nodeAt h]
  cases hnode : nodeAt π fs p with
  | none => rfl
  | some node =>
      cases node with
      | file id =>
          have hfile : fileAt π fs p = some id := by rw [fileAt, hnode]; rfl
          simp only [Option.bind_some, h.files id (.inr ⟨id, rfl, hfile⟩)]
      | directory => rfl
      | link => rfl

end read

theorem compl_subset_of_mem {k : Key} (hk : k ∈ K) : Kᶜ ⊆ {k}ᶜ :=
  Set.compl_subset_compl.mpr (Set.singleton_subset_iff.mpr hk)

/-! ## Opening -/

section change

/-- The same file is put into both. -/
theorem Alike.setFile (h : Alike K fs gs) (id : FileId) (file : File) :
    Alike (K ∪ {.inr id}) (fs.setFile id file) (gs.setFile id file) := by
  refine ⟨fun q hq => h.nodes q (hq.resolve_right nofun), fun id' hid => ?_⟩
  by_cases hid' : id' = id
  · rw [hid', lookup_setFile, lookup_setFile]
  · rw [lookup_setFile_of_ne fs file hid', lookup_setFile_of_ne gs file hid']
    exact h.files id' (hid.resolve_right fun h => hid' (Sum.inr_injective h))

/-- The same name is put into both. -/
theorem Alike.setName (h : Alike K fs gs) (q : Place) (id : FileId) :
    Alike (K ∪ {.inl q}) (fs.setName q id) (gs.setName q id) := by
  refine ⟨fun r hr => ?_, fun id' hid => h.files id' (hid.resolve_right nofun)⟩
  by_cases hrq : r = q
  · rw [hrq, lookup_setName, lookup_setName]
  · rw [lookup_setName_of_ne fs id hrq, lookup_setName_of_ne gs id hrq]
    exact h.nodes r (hr.resolve_right fun h => hrq (Sum.inl_injective h))

theorem alike_setFile (fs : FileSystem) (id : FileId) (file : File) :
    Alike {Sum.inr id}ᶜ fs (fs.setFile id file) :=
  ⟨fun _ _ => rfl, fun _ hid =>
    lookup_setFile_of_ne fs file fun heq => hid (congrArg Sum.inr heq)⟩

theorem alike_setName (fs : FileSystem) (q : Place) (id : FileId) :
    Alike {Sum.inl q}ᶜ fs (fs.setName q id) :=
  ⟨fun _ hr => lookup_setName_of_ne fs id fun heq => hr (congrArg Sum.inl heq), fun _ _ => rfl⟩

end change

section openTrunc

theorem fileAt_of_lookup (hq : locate fs π.directory true p = some q)
    (hnode : fs.nodes.lookup q = some (.file id)) : fileAt π fs p = some id := by
  rw [fileAt, nodeAt, hq, Option.bind_some, hnode]
  rfl

variable (h : Alike (openPrint π fs p) fs gs)
include h

theorem openPrint_readPrint : Alike (readPrint π fs p) fs gs := h.mono Set.subset_union_left

theorem openPrint_newId (hq : locate fs π.directory true p = some q) : newId gs q = newId fs q := by
  have hmem (n : ℕ) : (q, n) ∈ gs.files.keys.toFinset ↔ (q, n) ∈ fs.files.keys.toFinset := by
    simp only [List.mem_toFinset, ← AList.mem_keys, ← AList.lookup_isSome,
      h.files (q, n) (.inr ⟨q, hq, .inr ⟨n, rfl⟩⟩)]
  have hfilter : gs.files.keys.toFinset.filter (·.1 = q) =
      fs.files.keys.toFinset.filter (·.1 = q) := by
    ext ⟨r, n⟩
    simp only [Finset.mem_filter]
    exact and_congr_left fun hr => by rw [hr, hmem]
  rw [newId, newId, hfilter]

theorem openPrint_congr : openPrint π gs p = openPrint π fs p := by
  have hread := openPrint_readPrint h
  simp only [openPrint, readPrint_congr hread, readPrint_locate hread]

theorem openWrites_congr : openWrites π gs p = openWrites π fs p := by
  have hread := openPrint_readPrint h
  ext k
  simp only [openWrites, readPrint_fileAt hread, readPrint_locate hread, Set.mem_ofPred_eq]
  refine or_congr_right (exists_congr fun q => and_congr_right fun hq => ?_)
  rw [h.nodes q (.inl (.inl ⟨q, rfl, .inr hq⟩)), openPrint_newId h hq]

omit h in
theorem openWrites_subset : openWrites π fs p ⊆ openPrint π fs p := by
  rintro k (⟨id, rfl, hid⟩ | ⟨q, hq, -, rfl | rfl⟩)
  · exact .inl (.inr ⟨id, rfl, hid⟩)
  · exact .inl (.inl ⟨q, rfl, .inr hq⟩)
  · exact .inr ⟨q, hq, .inr ⟨_, rfl⟩⟩

/-- Opening depends on what it looks at. -/
theorem openTrunc_congr (hopen : openTrunc π fs p = some (fs', id)) :
    ∃ gs', openTrunc π gs p = some (gs', id) ∧
      ∀ K, Alike K fs gs → Alike (K ∪ openWrites π fs p) fs' gs' := by
  have hread := openPrint_readPrint h
  obtain ⟨q, hq, ⟨file, hnode, hfile, hwritable, rfl⟩ | ⟨hnone, hparent, rfl, rfl⟩⟩ :=
    openTrunc_eq_some.mp hopen
  · have hid := fileAt_of_lookup hq hnode
    have hgs : openTrunc π gs p = some (gs.setFile id { file with contents := [] }, id) := by
      refine openTrunc_eq_some.mpr ⟨q, by rw [readPrint_locate hread, hq], .inl ⟨file, ?_, ?_,
        hwritable, rfl⟩⟩
      · rw [h.nodes q (.inl (.inl ⟨q, rfl, .inr hq⟩)), hnode]
      · rw [h.files id (.inl (.inr ⟨id, rfl, hid⟩)), hfile]
    refine ⟨_, hgs, fun K hK => (hK.setFile id _).mono (Set.union_subset_union_right K ?_)⟩
    rintro k (⟨id', rfl, hid'⟩ | ⟨q', hq', hnone, -⟩)
    · rw [hid] at hid'
      cases hid'
      rfl
    · obtain rfl := Option.some.inj (hq.symm.trans hq')
      rw [hnode] at hnone
      cases hnone
  · have hgs : openTrunc π gs p =
        some (gs.make q ⟨[], π.newReadable, π.newWritable⟩, newId fs q) := by
      refine openTrunc_eq_some.mpr ⟨q, by rw [readPrint_locate hread, hq], .inr ⟨?_, ?_,
        (openPrint_newId h hq).symm, rfl⟩⟩
      · rw [h.nodes q (.inl (.inl ⟨q, rfl, .inr hq⟩)), hnone]
      · rw [canChange, h.nodes (parent q) (.inr ⟨q, hq, .inl rfl⟩)]
        exact hparent
    refine ⟨_, hgs, fun K hK => ?_⟩
    rw [FileSystem.make, FileSystem.make, openPrint_newId h hq]
    refine ((hK.setName q _).setFile _ _).mono ?_
    rw [Set.union_assoc]
    refine Set.union_subset_union_right K ?_
    rintro k (⟨id', rfl, hid'⟩ | ⟨q', hq', -, hk⟩)
    · rw [fileAt, nodeAt, hq, Option.bind_some, hnone] at hid'
      cases hid'
    · obtain rfl := Option.some.inj (hq.symm.trans hq')
      exact hk

theorem openTrunc_congr_none (hopen : openTrunc π fs p = none) : openTrunc π gs p = none := by
  by_contra hne
  obtain ⟨⟨gs', id⟩, hgs⟩ := Option.ne_none_iff_exists'.mp hne
  have hsymm : Alike (openPrint π gs p) gs fs := by
    rw [openPrint_congr h]
    exact h.symm
  obtain ⟨fs', hfs, -⟩ := openTrunc_congr hsymm hgs
  rw [hopen] at hfs
  cases hfs

omit h in
/-- Opening changes no other name and no other file, and the file that it opens is one of those it
changes. -/
theorem openTrunc_frame (hopen : openTrunc π fs p = some (fs', id)) :
    Alike (openWrites π fs p)ᶜ fs fs' ∧ .inr id ∈ openWrites π fs p := by
  obtain ⟨q, hq, ⟨file, hnode, -, -, rfl⟩ | ⟨hnone, -, rfl, rfl⟩⟩ := openTrunc_eq_some.mp hopen
  · have hid : .inr id ∈ openWrites π fs p := .inl ⟨id, rfl, fileAt_of_lookup hq hnode⟩
    exact ⟨(alike_setFile fs id _).mono (compl_subset_of_mem hid), hid⟩
  · have hname : .inl q ∈ openWrites π fs p := .inr ⟨q, hq, hnone, .inl rfl⟩
    have hid : .inr (newId fs q) ∈ openWrites π fs p := .inr ⟨q, hq, hnone, .inr rfl⟩
    refine ⟨Alike.trans ?_ ((alike_setFile (fs.setName q _) _ _).mono (compl_subset_of_mem hid)),
      hid⟩
    exact (alike_setName fs q _).mono (compl_subset_of_mem hname)

end openTrunc

/-! ## Writing and removing -/

/-- What is written follows what is there. -/
theorem append_congr (h : Alike K fs gs) (hid : .inr id ∈ K) (bytes : List (BitVec 8)) :
    Alike K (append fs id bytes) (append gs id bytes) := by
  unfold append
  rw [h.files id hid]
  split
  · exact (h.setFile id _).mono Set.subset_union_left
  · exact h

/-- Writing changes no other file. -/
theorem append_frame (fs : FileSystem) (hid : .inr id ∈ K) (bytes : List (BitVec 8)) :
    Alike Kᶜ fs (append fs id bytes) := by
  unfold append
  split
  · exact (alike_setFile fs id _).mono (compl_subset_of_mem hid)
  · exact ⟨fun _ _ => rfl, fun _ _ => rfl⟩

/-- There is nothing in a directory when nothing is at the places in it. -/
theorem isEmpty_iff (fs : FileSystem) (q : Place) :
    isEmpty fs q = true ↔ ∀ r, parent r = q → r ≠ q → fs.nodes.lookup r = none := by
  simp only [isEmpty, List.all_eq_true, decide_eq_true_eq, ← AList.mem_keys, AList.lookup_eq_none]
  exact ⟨fun h r hr hne hmem => (h r hmem).elim hne fun h => h hr, fun h r hmem =>
    or_iff_not_imp_left.mpr fun hne hr => h r hr hne hmem⟩

section remove

variable (h : Alike (removePrint π fs p) fs gs)
include h

theorem removePrint_walk : walk gs false maxLinks π.directory (withoutSlash p) =
    walk fs false maxLinks π.directory (withoutSlash p) :=
  walk_congr fs fun r hr => h.nodes r (.inl ⟨r, rfl, hr⟩)

theorem removePrint_namedPlace : namedPlace π gs p = namedPlace π fs p := by
  rw [namedPlace, namedPlace, locate, locate, removePrint_walk h]

theorem removeWrites_congr : removeWrites π gs p = removeWrites π fs p := by
  simp only [removeWrites, removePrint_namedPlace h]

omit h in
theorem removeWrites_subset : removeWrites π fs p ⊆ removePrint π fs p := by
  rintro k ⟨q, rfl, hq⟩
  exact .inr ⟨q, hq, .inl rfl⟩

theorem removable_congr : removable π gs p = removable π fs p := by
  rw [removable, removable, removePrint_namedPlace h]
  cases hq : namedPlace π fs p with
  | none => rfl
  | some q =>
      have hempty : isEmpty gs q = isEmpty fs q := by
        rw [Bool.eq_iff_iff, isEmpty_iff, isEmpty_iff]
        refine forall_congr' fun r => forall_congr' fun hr => ?_
        rw [h.nodes r (.inr ⟨q, hq, .inr (.inr ⟨r, rfl, hr⟩)⟩)]
      simp only [Option.filter_some, canChange, hempty, h.nodes q (.inr ⟨q, hq, .inl rfl⟩),
        h.nodes (parent q) (.inr ⟨q, hq, .inr (.inl rfl)⟩)]

/-- Removing depends on what it looks at. -/
theorem remove_congr (hK : Alike K fs gs) :
    Alike (K ∪ removeWrites π fs p) (remove π fs p) (remove π gs p) := by
  cases hq : removable π fs p with
  | none =>
      rw [remove_of_none hq, remove_of_none ((removable_congr h).trans hq)]
      refine ⟨?_, fun id hid => hK.files id (hid.resolve_right nofun)⟩
      rintro r (hr | ⟨q, hrq, hq⟩)
      · exact hK.nodes r hr
      · cases hrq
        exact h.nodes r (.inr ⟨r, hq, .inl rfl⟩)
  | some q =>
      rw [remove_of_removable hq, remove_of_removable ((removable_congr h).trans hq)]
      refine ⟨fun r hr => ?_, fun id hid => hK.files id (hid.resolve_right nofun)⟩
      by_cases hrq : r = q
      · rw [hrq, AList.lookup_erase, AList.lookup_erase]
      · rw [AList.lookup_erase_ne hrq, AList.lookup_erase_ne hrq]
        refine hK.nodes r (hr.resolve_right ?_)
        rintro ⟨q', heq, hq'⟩
        cases heq
        exact hrq (Option.some.inj (hq'.symm.trans (namedPlace_of_removable hq).1))

omit h in
/-- Removing changes no other name. -/
theorem remove_frame (π : Process) (fs : FileSystem) (p : Path) :
    Alike (removeWrites π fs p)ᶜ fs (remove π fs p) := by
  cases hq : removable π fs p with
  | none =>
      rw [remove_of_none hq]
      exact ⟨fun _ _ => rfl, fun _ _ => rfl⟩
  | some q =>
      rw [remove_of_removable hq]
      refine ⟨fun r hr => AList.lookup_erase_ne fun hrq => hr ⟨q, congrArg Sum.inl hrq, ?_⟩,
        fun _ _ => rfl⟩
      exact (namedPlace_of_removable hq).1

end remove

/-! ## Removing what was opened -/

/-- If a path leads somewhere, so does a beginning of it. -/
theorem walkWith_append {jump : Place → Path → List Place × Option Place} {follow : Bool}
    {jump' : Place → Path → List Place × Option Place} {p' : Path}
    (hjump : ∀ q p, (jump q (p ++ p')).2 ≠ none → (jump' q p).2 ≠ none)
    (h : (walkWith fs jump follow q (p ++ p')).2 ≠ none) :
    (walkWith fs jump' false q p).2 ≠ none := by
  induction p generalizing q with
  | nil => exact Option.some_ne_none q
  | cons name rest ih =>
      rw [List.cons_append] at h
      cases hnext : next fs q name with
      | place q' =>
          rw [walkWith_place hnext] at h ⊢
          exact ih h
      | link target =>
          by_cases hlast : rest = []
          · subst hlast
            rw [walkWith_last hnext]
            exact Option.some_ne_none _
          · rw [walkWith_link hnext fun hl => hlast (List.append_eq_nil_iff.mp hl.1).1,
              ← List.append_assoc] at h
            rw [walkWith_link hnext fun hl => hlast hl.1]
            exact hjump _ _ h
      | missing =>
          rw [walkWith_missing hnext] at h ⊢
          split at h <;> rename_i hrest
          · rw [if_pos (List.append_eq_nil_iff.mp hrest).1]
            exact Option.some_ne_none _
          · exact absurd rfl h
      | stuck => simp [walkWith_stuck hnext] at h

theorem walk_append {n : ℕ} {follow : Bool} {p' : Path}
    (h : (walk fs follow n q (p ++ p')).2 ≠ none) : (walk fs false n q p).2 ≠ none := by
  induction n generalizing q p with
  | zero => exact walkWith_append (fun _ _ h => absurd rfl h) h
  | succ n ih => exact walkWith_append (fun _ _ => ih) h

theorem exists_withoutSlash (p : Path) : ∃ p', p = withoutSlash p ++ p' := by
  unfold withoutSlash
  split
  · rename_i hlast
    exact ⟨[""], (List.dropLast_append_getLast? "" hlast).symm⟩
  · exact ⟨[], (List.append_nil p).symm⟩

/-- The name that is removed after a file was opened is looked up as before. -/
theorem removePrint_of_grows (h : Grows fs fs') {follow : Bool}
    (hq : locate fs π.directory follow p = some q) :
    removePrint π fs' p = removePrint π fs p ∧ removeWrites π fs' p = removeWrites π fs p := by
  obtain ⟨p', hp'⟩ := exists_withoutSlash p
  have hsome : (walk fs follow maxLinks π.directory (withoutSlash p ++ p')).2 ≠ none := by
    rw [← hp']
    rw [locate] at hq
    split at hq
    · cases hq
    · rw [hq]
      exact Option.some_ne_none q
  have hwalk : walk fs' false maxLinks π.directory (withoutSlash p) =
      walk fs false maxLinks π.directory (withoutSlash p) := h.walk (walk_append hsome)
  have hplace : namedPlace π fs' p = namedPlace π fs p := by
    rw [namedPlace, namedPlace, locate, locate, hwalk]
  simp only [removePrint, removeWrites, trail, hwalk, hplace, and_self]

end Disk
