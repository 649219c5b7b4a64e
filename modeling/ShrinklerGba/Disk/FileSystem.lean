import Mathlib.Data.Finset.Lattice.Fold
import Mathlib.Order.Lattice.Nat
import ShrinklerGba.Disk.Walk

/-!
# What a process does with files

Files have any number of names, and permissions; paths follow links.

* `openTrunc` empties a file or makes one, `append` writes to an open file, and `remove` deletes the
  name of a file, of a link (not of what it leads to) or of an empty directory. What is not
  permitted changes nothing.
* `openTrunc_spec`: what was opened is there, and empty; `lookup_append`: what was written follows.
* `named_remove`: what was removed is gone; `remove_eq_iff`: otherwise nothing has changed.
-/

namespace Disk

/-- What the system keeps for a process. -/
structure Process where
  /-- Where its relative paths start. -/
  directory : Place := []
  /-- The files it makes can be opened for reading. -/
  newReadable : Bool := true
  /-- The files it makes can be opened for writing. -/
  newWritable : Bool := true

/-! ## Operations -/

section operations

variable (π : Process) (fs : FileSystem) (p : Path)

/-- Whether names can be made and removed in a directory. -/
def canChange (q : Place) : Bool := fs.nodes.lookup q = some (.directory true true)

/-- Whether there is nothing in a directory. -/
def isEmpty (q : Place) : Bool := fs.nodes.keys.all fun r => r = q ∨ parent r ≠ q

/-- What a path leads to. -/
def nodeAt : Option Node := (locate fs π.directory true p).bind fs.nodes.lookup

/-- The file that a path leads to. -/
def fileAt : Option FileId :=
  (nodeAt π fs p).bind fun
    | .file id => some id
    | _ => none

/-- What can be read at a path. A directory can be opened, but there is nothing to read. -/
def read : Option (List (BitVec 8)) :=
  (nodeAt π fs p).bind fun
    | .file id => (fs.files.lookup id).bind fun file =>
        if file.readable then some file.contents else none
    | .directory _ _ => some []
    | .link _ => none

/-- A file that is not there yet. -/
def newId (q : Place) : FileId :=
  (q, (fs.files.keys.toFinset.filter (·.1 = q)).sup fun id => id.2 + 1)

/-- Put a file at an identity. -/
def FileSystem.setFile (id : FileId) (file : File) : FileSystem :=
  { fs with files := fs.files.insert id file }

/-- Make a name for a file. -/
def FileSystem.setName (q : Place) (id : FileId) : FileSystem :=
  { fs with nodes := fs.nodes.insert q (.file id) }

/-- Make a file, with a name. -/
def FileSystem.make (q : Place) (file : File) : FileSystem :=
  (fs.setName q (newId fs q)).setFile (newId fs q) file

/-- An empty directory. -/
def FileSystem.root : FileSystem := ⟨AList.singleton [] (.directory true true), ∅⟩

/-- Open for writing: the file that the path leads to is emptied, or a new one is made there. -/
def openTrunc : Option (FileSystem × FileId) :=
  (locate fs π.directory true p).bind fun q =>
    match fs.nodes.lookup q with
    | some (.file id) => (fs.files.lookup id).bind fun file =>
        if file.writable then some (fs.setFile id { file with contents := [] }, id) else none
    | some _ => none
    | none =>
        if canChange fs (parent q) then
          some (fs.make q ⟨[], π.newReadable, π.newWritable⟩, newId fs q)
        else none

/-- Write at the end of an open file. -/
def append (id : FileId) (bytes : List (BitVec 8)) : FileSystem :=
  match fs.files.lookup id with
  | some file => fs.setFile id { file with contents := file.contents ++ bytes }
  | none => fs

/-- A path without the slash at its end. -/
def withoutSlash : Path := if p.getLast? = some "" then p.dropLast else p

/-- The place that a path names. If there is a link, that is it. -/
def namedPlace : Option Place := locate fs π.directory false (withoutSlash p)

/-- What a path names. -/
def named : Option Node := (namedPlace π fs p).bind fs.nodes.lookup

/-- Whether a path ends with a name. -/
def endsWithName : Bool :=
  match (withoutSlash p).getLast? with
  | some name => name ≠ "/" ∧ name ≠ "" ∧ name ≠ "." ∧ name ≠ ".."
  | none => false

/-- The place whose name can be removed: that of a link, of a file, or of an empty directory. -/
def removable : Option Place :=
  if endsWithName p then
    (namedPlace π fs p).filter fun q =>
      (match fs.nodes.lookup q with
        | some (.directory _ _) => isEmpty fs q
        | some _ => withoutSlash p = p
        | none => false) && canChange fs (parent q)
  else none

/-- Remove a name, where that is permitted. -/
def remove : FileSystem :=
  match removable π fs p with
  | some q => { fs with nodes := fs.nodes.erase q }
  | none => fs

end operations

/-! ## What the operations do -/

section spec

variable {π : Process} {fs fs' gs : FileSystem} {p : Path} {q : Place} {id id' : FileId}
  {file : File}

@[simp] theorem setFile_nodes (fs : FileSystem) (id : FileId) (file : File) :
    (fs.setFile id file).nodes = fs.nodes := rfl

@[simp] theorem setName_files (fs : FileSystem) (q : Place) (id : FileId) :
    (fs.setName q id).files = fs.files := rfl

theorem lookup_setFile (fs : FileSystem) (id : FileId) (file : File) :
    (fs.setFile id file).files.lookup id = some file := AList.lookup_insert fs.files

theorem lookup_setFile_of_ne (fs : FileSystem) (file : File) (h : id' ≠ id) :
    (fs.setFile id file).files.lookup id' = fs.files.lookup id' := AList.lookup_insert_ne h

theorem lookup_setName (fs : FileSystem) (q : Place) (id : FileId) :
    (fs.setName q id).nodes.lookup q = some (.file id) := AList.lookup_insert fs.nodes

theorem lookup_setName_of_ne (fs : FileSystem) (id : FileId) {r : Place} (h : r ≠ q) :
    (fs.setName q id).nodes.lookup r = fs.nodes.lookup r := AList.lookup_insert_ne h

theorem grows_setName (h : fs.nodes.lookup q = none) (id : FileId) :
    Grows fs (fs.setName q id) := by
  intro r
  by_cases hr : r = q
  · subst hr
    exact .inr ⟨h, id, lookup_setName fs r id⟩
  · exact .inl (lookup_setName_of_ne fs id hr)

/-- A new file is none of those that are there. -/
theorem newId_not_mem (fs : FileSystem) (q : Place) : newId fs q ∉ fs.files := by
  intro hmem
  have hfilter : newId fs q ∈ fs.files.keys.toFinset.filter fun id => id.1 = q :=
    Finset.mem_filter.mpr ⟨List.mem_toFinset.mpr (AList.mem_keys.mp hmem), rfl⟩
  have hle : (newId fs q).2 + 1 ≤ (newId fs q).2 :=
    Finset.le_sup (f := fun id : FileId => id.2 + 1) hfilter
  omega

/-- Opening: a file is emptied, or a new one is made. -/
theorem openTrunc_eq_some : openTrunc π fs p = some (fs', id) ↔
    ∃ q, locate fs π.directory true p = some q ∧
      ((∃ file, fs.nodes.lookup q = some (.file id) ∧ fs.files.lookup id = some file ∧
          file.writable = true ∧ fs' = fs.setFile id { file with contents := [] }) ∨
        fs.nodes.lookup q = none ∧ canChange fs (parent q) = true ∧ id = newId fs q ∧
          fs' = fs.make q ⟨[], π.newReadable, π.newWritable⟩) := by
  rw [openTrunc, Option.bind_eq_some_iff]
  refine exists_congr fun q => and_congr_right fun _ => ?_
  cases hq : fs.nodes.lookup q with
  | none =>
      simp only [Option.ite_none_right_eq_some, Option.some.injEq, Prod.mk.injEq, reduceCtorEq,
        false_and, exists_false, false_or, true_and]
      refine and_congr_right fun _ => ⟨?_, ?_⟩
      · rintro ⟨rfl, rfl⟩
        exact ⟨rfl, rfl⟩
      · rintro ⟨rfl, rfl⟩
        exact ⟨rfl, rfl⟩
  | some node =>
      cases node with
      | file id' =>
          simp only [Option.bind_eq_some_iff, Option.ite_none_right_eq_some, Option.some.injEq,
            Prod.mk.injEq, Node.file.injEq, reduceCtorEq, false_and, or_false]
          refine exists_congr fun file => ⟨?_, ?_⟩
          · rintro ⟨hfile, hwritable, rfl, rfl⟩
            exact ⟨rfl, hfile, hwritable, rfl⟩
          · rintro ⟨rfl, hfile, hwritable, rfl⟩
            exact ⟨hfile, hwritable, rfl, rfl⟩
      | directory => simp
      | link => simp

theorem locate_grows (h : Grows fs fs') {follow : Bool} {d : Place}
    (hp : locate fs d follow p = some q) : locate fs' d follow p = some q := by
  unfold locate at hp ⊢
  split at hp
  · cases hp
  · rename_i hne
    rw [if_neg hne, h.walk (by rw [hp]; exact Option.some_ne_none q), hp]

theorem openTrunc_grows (h : openTrunc π fs p = some (fs', id)) : Grows fs fs' := by
  obtain ⟨q, -, ⟨file, -, -, -, rfl⟩ | ⟨hnone, -, rfl, rfl⟩⟩ := openTrunc_eq_some.mp h
  · exact fun _ => .inl rfl
  · exact grows_setName hnone _

/-- Opening changes no other file. -/
theorem openTrunc_files (h : openTrunc π fs p = some (fs', id)) (hid : id' ≠ id) :
    fs'.files.lookup id' = fs.files.lookup id' := by
  obtain ⟨q, -, ⟨file, -, -, -, rfl⟩ | ⟨-, -, rfl, rfl⟩⟩ := openTrunc_eq_some.mp h
  · exact lookup_setFile_of_ne fs _ hid
  · exact lookup_setFile_of_ne (fs.setName q _) _ hid

/-- A name that is there after opening was there before, or is that of a new file. -/
theorem openTrunc_nodes {node : Node} (h : openTrunc π fs p = some (fs', id))
    (hq : fs'.nodes.lookup q = some node) :
    fs.nodes.lookup q = some node ∨ ∃ q', node = .file (newId fs q') := by
  obtain ⟨q', -, ⟨file, -, -, -, rfl⟩ | ⟨-, -, rfl, rfl⟩⟩ := openTrunc_eq_some.mp h
  · exact .inl hq
  · rw [FileSystem.make, setFile_nodes] at hq
    by_cases hqq : q = q'
    · rw [hqq, lookup_setName] at hq
      exact .inr ⟨q', (Option.some.inj hq).symm⟩
    · rw [lookup_setName_of_ne fs _ hqq] at hq
      exact .inl hq

theorem mem_setFile (file : File) (h : id' ∈ fs.files) : id' ∈ (fs.setFile id file).files :=
  (AList.mem_insert fs.files).mpr (.inr h)

theorem mem_openTrunc (h : openTrunc π fs p = some (fs', id)) (hid : id' ∈ fs.files) :
    id' ∈ fs'.files := by
  obtain ⟨q, -, ⟨file, -, -, -, rfl⟩ | ⟨-, -, rfl, rfl⟩⟩ := openTrunc_eq_some.mp h
  · exact mem_setFile _ hid
  · exact (AList.mem_insert fs.files).mpr (.inr hid)

theorem mem_append {bytes : List (BitVec 8)} (h : id' ∈ fs.files) :
    id' ∈ (append fs id bytes).files := by
  unfold append
  split
  · exact mem_setFile _ h
  · exact h

theorem locate_of_fileAt (h : fileAt π fs p = some id) :
    ∃ q, locate fs π.directory true p = some q ∧ fs.nodes.lookup q = some (.file id) := by
  obtain ⟨node, hnode, hid⟩ := Option.bind_eq_some_iff.mp h
  obtain ⟨q, hq, hlookup⟩ := Option.bind_eq_some_iff.mp hnode
  refine ⟨q, hq, ?_⟩
  cases node <;> cases hid
  exact hlookup

/-- **What is opened is there, and empty.** -/
theorem openTrunc_spec (h : openTrunc π fs p = some (fs', id)) : fileAt π fs' p = some id ∧
    ∃ file, fs'.files.lookup id = some file ∧ file.contents = [] := by
  have hgrows := openTrunc_grows h
  obtain ⟨q, hq, ⟨file, hnode, -, -, rfl⟩ | ⟨-, -, rfl, rfl⟩⟩ := openTrunc_eq_some.mp h
  · refine ⟨?_, _, lookup_setFile fs id _, rfl⟩
    rw [fileAt, nodeAt, locate_grows hgrows hq, setFile_nodes, Option.bind_some, hnode]
    rfl
  · refine ⟨?_, _, lookup_setFile (fs.setName q _) _ _, rfl⟩
    rw [fileAt, nodeAt, locate_grows hgrows hq, FileSystem.make, setFile_nodes, Option.bind_some,
      lookup_setName]
    rfl

theorem append_nodes (fs : FileSystem) (id : FileId) (bytes : List (BitVec 8)) :
    (append fs id bytes).nodes = fs.nodes := by
  unfold append
  split <;> rfl

/-- What is written follows what is there. -/
theorem lookup_append (h : fs.files.lookup id = some file) (bytes : List (BitVec 8)) :
    (append fs id bytes).files.lookup id =
      some { file with contents := file.contents ++ bytes } := by
  rw [append, h]
  exact lookup_setFile fs id _

theorem lookup_append_of_ne (fs : FileSystem) (bytes : List (BitVec 8)) (h : id' ≠ id) :
    (append fs id bytes).files.lookup id' = fs.files.lookup id' := by
  unfold append
  split
  · exact lookup_setFile_of_ne fs _ h
  · rfl

theorem walk_of_nodes (h : fs'.nodes = fs.nodes) (follow : Bool) (n : ℕ) (q : Place) (p : Path) :
    walk fs' follow n q p = walk fs follow n q p := walk_congr fs fun _ _ => by rw [h]

theorem fileAt_of_nodes (h : fs'.nodes = fs.nodes) : fileAt π fs' p = fileAt π fs p := by
  simp only [fileAt, nodeAt, locate, walk_of_nodes h, h]

theorem remove_of_removable (h : removable π fs p = some q) :
    remove π fs p = { fs with nodes := fs.nodes.erase q } := by
  rw [remove, h]

theorem remove_of_none (h : removable π fs p = none) : remove π fs p = fs := by
  rw [remove, h]

/-- A name that is there after removing was there before. -/
theorem remove_nodes {r : Place} {node : Node} (h : (remove π fs p).nodes.lookup r = some node) :
    fs.nodes.lookup r = some node := by
  cases hq : removable π fs p with
  | none => rwa [remove_of_none hq] at h
  | some q =>
      rw [remove_of_removable hq] at h
      by_cases hrq : r = q
      · rw [hrq, AList.lookup_erase] at h
        cases h
      · rwa [AList.lookup_erase_ne hrq] at h

theorem mem_remove (h : id ∈ fs.files) : id ∈ (remove π fs p).files := by
  unfold remove
  split <;> exact h

theorem namedPlace_of_removable (h : removable π fs p = some q) :
    namedPlace π fs p = some q ∧ fs.nodes.lookup q ≠ none := by
  rw [removable] at h
  split at h
  · obtain ⟨hplace, hq⟩ := Option.filter_eq_some_iff.mp h
    refine ⟨hplace, fun hnone => ?_⟩
    rw [hnone] at hq
    cases hq
  · cases h

/-- **What is removed is gone.** -/
theorem named_remove (h : removable π fs p = some q) : named π (remove π fs p) p = none := by
  obtain ⟨hplace, -⟩ := namedPlace_of_removable h
  rw [remove_of_removable h]
  obtain ⟨gs, hgs⟩ : ∃ gs : FileSystem, gs = { fs with nodes := fs.nodes.erase q } := ⟨_, rfl⟩
  rw [← hgs]
  by_contra hne
  obtain ⟨node, hnode⟩ := Option.ne_none_iff_exists'.mp hne
  obtain ⟨q', hq', hnode⟩ := Option.bind_eq_some_iff.mp hnode
  have hgone : gs.nodes.lookup q = none := by
    rw [hgs]
    exact AList.lookup_erase q fs.nodes
  -- Everything on the way is still there, so the way is what it was.
  have hsame {r : Place} (hr : gs.nodes.lookup r ≠ none) :
      fs.nodes.lookup r = gs.nodes.lookup r := by
    have hne : r ≠ q := fun hrq => hr (by rw [hrq, hgone])
    rw [hgs]
    exact (AList.lookup_erase_ne hne).symm
  rw [namedPlace, locate] at hplace hq'
  split at hq'
  · cases hq'
  rename_i hpath
  rw [if_neg hpath] at hplace
  have hwalk : walk fs false maxLinks π.directory (withoutSlash p) =
      walk gs false maxLinks π.directory (withoutSlash p) :=
    walk_congr gs fun r hr =>
      hsame ((lookup_of_walk hq' hr).elim id fun hr => by
        rw [hr, hnode]
        exact Option.some_ne_none node)
  rw [hwalk, hq'] at hplace
  obtain rfl := Option.some.inj hplace
  rw [hgone] at hnode
  cases hnode

/-- Removing does something exactly when it is permitted. -/
theorem remove_eq_iff : remove π fs p = fs ↔ removable π fs p = none := by
  refine ⟨fun h => ?_, remove_of_none⟩
  by_contra hne
  obtain ⟨q, hq⟩ := Option.ne_none_iff_exists'.mp hne
  have hnamed := named_remove hq
  obtain ⟨hplace, hnode⟩ := namedPlace_of_removable hq
  rw [h, named, hplace] at hnamed
  exact hnode hnamed

end spec

end Disk
