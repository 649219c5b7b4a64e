import Mathlib.Data.List.AList

/-!
# Following paths

A tree of directories with files and symbolic links in it, and where a path in it leads.

* `next` looks a name up and `walk` follows a path; a walk also says which places it looks at.
* `walk_congr`: it depends on nothing else. `lookup_of_walk`: if it leads somewhere, all of them are
  there, but perhaps the last.
* `Grows.walk`: names of new files do not change where it leads.
-/

namespace Disk

/-- A path, by its elements: the root directory is `/`, and a path that ends with a slash has an
empty last element. -/
abbrev Path := List String

/-- A place in the tree of directories: the names from the root on. No name is a link. -/
abbrev Place := List String

/-- A file: the place where it was made, and how many were made there before. -/
abbrev FileId := Place × ℕ

/-- What a name leads to. -/
inductive Node
  /-- A file. It may have other names. -/
  | file (id : FileId)
  /-- A directory, in which names can be looked up, made and removed. -/
  | directory (searchable writable : Bool)
  /-- A symbolic link. -/
  | link (target : Path)
  deriving DecidableEq

/-- A file's contents and permissions. -/
structure File where
  /-- What is in it. -/
  contents : List (BitVec 8)
  /-- It can be opened for reading. -/
  readable : Bool := true
  /-- It can be opened for writing. -/
  writable : Bool := true
  deriving DecidableEq

/-- The names and the files. -/
structure FileSystem where
  /-- What is at the places. -/
  nodes : AList fun _ : Place => Node
  /-- The files, also those without a name. -/
  files : AList fun _ : FileId => File

/-- The directory a place is in. -/
def parent (q : Place) : Place := q.dropLast

/-! ## Following a path -/

section walk

variable (fs : FileSystem)

/-- Whether names can be looked up in a directory. -/
def canSearch (q : Place) : Bool :=
  match fs.nodes.lookup q with
  | some (.directory searchable _) => searchable
  | _ => false

/-- Where a name leads. -/
inductive Next
  /-- To a place. -/
  | place (q : Place)
  /-- To a link. -/
  | link (target : Path)
  /-- To nothing, but something can be made there. -/
  | missing
  /-- It cannot be looked up. -/
  | stuck

/-- Look a name up in a directory. -/
def next (q : Place) (name : String) : Next :=
  if name = "/" then .place []
  else if canSearch fs q then
    if name = "" ∨ name = "." then .place q
    else if name = ".." then .place (parent q)
    else match fs.nodes.lookup (q ++ [name]) with
      | some (.link target) => .link target
      | some _ => .place (q ++ [name])
      | none => .missing
  else .stuck

/-- The places that are looked at for that. -/
def seen (q : Place) (name : String) : List Place :=
  if name = "/" then []
  else if name = "" ∨ name = "." ∨ name = ".." then [q]
  else [q, q ++ [name]]

/-- Follow a path as far as to its first link, and `jump` from there; whether the last element is
followed if it is a link is `follow`. The result is the places that were looked at, and where the
path leads. -/
def walkWith (jump : Place → Path → List Place × Option Place) (follow : Bool) :
    Place → Path → List Place × Option Place
  | q, [] => ([], some q)
  | q, name :: rest =>
      let walked := match next fs q name with
        | .place q' => walkWith jump follow q' rest
        | .link target =>
            if rest = [] ∧ follow = false then ([], some (q ++ [name]))
            else jump q (target ++ rest)
        | .missing => ([], if rest = [] then some (q ++ [name]) else none)
        | .stuck => ([], none)
      (seen q name ++ walked.1, walked.2)

/-- Follow a path over no more than so many links. -/
def walk (follow : Bool) : ℕ → Place → Path → List Place × Option Place
  | 0 => walkWith fs (fun _ _ => ([], none)) follow
  | n + 1 => walkWith fs (walk follow n) follow

/-- How many links are followed for one path. -/
def maxLinks : ℕ := 40

/-- Where a path leads, for a process in a directory. Nothing need be there yet. -/
def locate (q : Place) (follow : Bool) (p : Path) : Option Place :=
  if p = [] then none else (walk fs follow maxLinks q p).2

/-- The places that are looked at for that. -/
def trail (q : Place) (follow : Bool) (p : Path) : List Place := (walk fs follow maxLinks q p).1

end walk

/-! ## What a walk depends on -/

section walks

variable {fs gs : FileSystem} {q q' : Place} {p : Path} {name : String} {follow : Bool}

/-- Two file systems have the same at some places. -/
def SameAt (l : List Place) (fs gs : FileSystem) : Prop :=
  ∀ r ∈ l, gs.nodes.lookup r = fs.nodes.lookup r

theorem SameAt.symm {l : List Place} (h : SameAt l fs gs) : SameAt l gs fs :=
  fun r hr => (h r hr).symm

theorem canSearch_congr (h : gs.nodes.lookup q = fs.nodes.lookup q) :
    canSearch gs q = canSearch fs q := by
  rw [canSearch, canSearch, h]

theorem next_congr (h : SameAt (seen q name) fs gs) : next gs q name = next fs q name := by
  unfold seen at h
  unfold next
  by_cases hroot : name = "/"
  · rw [if_pos hroot, if_pos hroot]
  rw [if_neg hroot] at h ⊢
  rw [if_neg hroot]
  by_cases hself : name = "" ∨ name = "." ∨ name = ".."
  · rw [if_pos hself] at h
    rw [canSearch_congr (h q List.mem_cons_self)]
    split
    · split
      · rfl
      · rw [if_pos (by tauto), if_pos (by tauto)]
    · rfl
  · rw [if_neg hself] at h
    rw [canSearch_congr (h q List.mem_cons_self), h (q ++ [name]) (by simp)]

theorem canSearch_of_next (hroot : name ≠ "/") (h : next fs q name ≠ .stuck) :
    canSearch fs q = true := by
  by_contra hno
  exact h (by rw [next, if_neg hroot, if_neg hno])

theorem lookup_of_canSearch (h : canSearch fs q = true) : fs.nodes.lookup q ≠ none := by
  intro hnone
  rw [canSearch, hnone] at h
  cases h

/-- If a name leads anywhere, all that was looked at is there, unless the name itself is missing. -/
theorem lookup_of_next {r : Place} (hr : r ∈ seen q name) (h : next fs q name ≠ .stuck) :
    fs.nodes.lookup r ≠ none ∨ next fs q name = .missing ∧ r = q ++ [name] := by
  unfold seen at hr
  by_cases hroot : name = "/"
  · simp [hroot] at hr
  have hsearch := canSearch_of_next hroot h
  have hq := lookup_of_canSearch hsearch
  rw [if_neg hroot] at hr
  by_cases hself : name = "" ∨ name = "." ∨ name = ".."
  · rw [if_pos hself, List.mem_singleton] at hr
    exact .inl (hr ▸ hq)
  rw [if_neg hself, List.mem_pair] at hr
  rcases hr with rfl | rfl
  · exact .inl hq
  · refine or_iff_not_imp_left.mpr fun hnone => ⟨?_, rfl⟩
    rw [next, if_neg hroot, if_pos hsearch, if_neg (by tauto), if_neg (by tauto),
      not_ne_iff.mp hnone]

section jump

variable {jump jump' : Place → Path → List Place × Option Place} {rest target : Path}

theorem walkWith_place (h : next fs q name = .place q') : walkWith fs jump follow q (name :: rest) =
    (seen q name ++ (walkWith fs jump follow q' rest).1, (walkWith fs jump follow q' rest).2) := by
  rw [walkWith, h]

theorem walkWith_link (h : next fs q name = .link target) (hlast : ¬(rest = [] ∧ follow = false)) :
    walkWith fs jump follow q (name :: rest) =
      (seen q name ++ (jump q (target ++ rest)).1, (jump q (target ++ rest)).2) := by
  simp only [walkWith, h, if_neg hlast]

theorem walkWith_last (h : next fs q name = .link target) :
    walkWith fs jump false q [name] = (seen q name, some (q ++ [name])) := by
  simp [walkWith, h]

theorem walkWith_missing (h : next fs q name = .missing) :
    walkWith fs jump follow q (name :: rest) =
      (seen q name, if rest = [] then some (q ++ [name]) else none) := by
  simp [walkWith, h]

theorem walkWith_stuck (h : next fs q name = .stuck) :
    walkWith fs jump follow q (name :: rest) = (seen q name, none) := by
  simp [walkWith, h]

theorem walkWith_congr (hjump : ∀ q p, SameAt (jump q p).1 fs gs → jump' q p = jump q p)
    (h : SameAt (walkWith fs jump follow q p).1 fs gs) :
    walkWith gs jump' follow q p = walkWith fs jump follow q p := by
  induction p generalizing q with
  | nil => rfl
  | cons name rest ih =>
      have hseen : SameAt (seen q name) fs gs := fun r hr => h r (by
        rw [walkWith]
        exact List.mem_append_left _ hr)
      have hgs := next_congr hseen
      cases hnext : next fs q name with
      | place q' =>
          rw [walkWith_place hnext] at h ⊢
          rw [walkWith_place (hgs.trans hnext), ih fun r hr => h r (List.mem_append_right _ hr)]
      | link target =>
          by_cases hlast : rest = [] ∧ follow = false
          · obtain ⟨rfl, rfl⟩ := hlast
            rw [walkWith_last hnext, walkWith_last (hgs.trans hnext)]
          · rw [walkWith_link hnext hlast] at h ⊢
            rw [walkWith_link (hgs.trans hnext) hlast,
              hjump _ _ fun r hr => h r (List.mem_append_right _ hr)]
      | missing => rw [walkWith_missing hnext, walkWith_missing (hgs.trans hnext)]
      | stuck => rw [walkWith_stuck hnext, walkWith_stuck (hgs.trans hnext)]

/-- What a walk that leads somewhere has looked at is there, but for the place it leads to. -/
theorem lookup_of_walkWith {r : Place}
    (hjump : ∀ q p, (jump q p).2 = some q' → r ∈ (jump q p).1 → fs.nodes.lookup r ≠ none ∨ r = q')
    (h : (walkWith fs jump follow q p).2 = some q')
    (hr : r ∈ (walkWith fs jump follow q p).1) : fs.nodes.lookup r ≠ none ∨ r = q' := by
  induction p generalizing q with
  | nil => cases hr
  | cons name rest ih =>
      have hseen (hstuck : next fs q name ≠ .stuck) (hmissing : next fs q name ≠ .missing)
          (hr : r ∈ seen q name) : fs.nodes.lookup r ≠ none ∨ r = q' :=
        (lookup_of_next hr hstuck).imp_right fun h => absurd h.1 hmissing
      cases hnext : next fs q name with
      | place q'' =>
          rw [hnext] at hseen
          rw [walkWith_place hnext] at h hr
          exact (List.mem_append.mp hr).elim (hseen nofun nofun) (ih h)
      | link target =>
          rw [hnext] at hseen
          by_cases hlast : rest = [] ∧ follow = false
          · obtain ⟨rfl, rfl⟩ := hlast
            rw [walkWith_last hnext] at hr
            exact hseen nofun nofun hr
          · rw [walkWith_link hnext hlast] at h hr
            exact (List.mem_append.mp hr).elim (hseen nofun nofun) (hjump _ _ h)
      | missing =>
          rw [walkWith_missing hnext] at h hr
          refine (lookup_of_next hr (by rw [hnext]; nofun)).imp_right fun hr => ?_
          split at h
          · exact hr.2.trans (Option.some.inj h)
          · cases h
      | stuck => simp [walkWith_stuck hnext] at h

end jump

variable (fs) in
theorem walk_congr {n : ℕ} (h : SameAt (walk fs follow n q p).1 fs gs) :
    walk gs follow n q p = walk fs follow n q p := by
  induction n generalizing q p with
  | zero => exact walkWith_congr (fun _ _ _ => rfl) h
  | succ n ih => exact walkWith_congr (fun _ _ => ih) h

theorem lookup_of_walk {n : ℕ} {r : Place} (h : (walk fs follow n q p).2 = some q')
    (hr : r ∈ (walk fs follow n q p).1) : fs.nodes.lookup r ≠ none ∨ r = q' := by
  induction n generalizing q p with
  | zero => exact lookup_of_walkWith (fun _ _ h => absurd h (Option.some_ne_none _).symm) h hr
  | succ n ih => exact lookup_of_walkWith (fun _ _ => ih) h hr

/-- A name leads to itself if it is not that of a link. -/
theorem locate_name (hroot : name ≠ "/") (hempty : name ≠ "") (hself : name ≠ ".")
    (hparent : name ≠ "..") (hlink : ∀ target, fs.nodes.lookup (q ++ [name]) ≠ some (.link target))
    (h : locate fs q follow [name] = some q') : q' = q ++ [name] := by
  have hnext : next fs q name = if canSearch fs q then match fs.nodes.lookup (q ++ [name]) with
      | some (.link target) => .link target
      | some _ => .place (q ++ [name])
      | none => .missing
    else .stuck := by
    rw [next, if_neg hroot, if_neg (not_or.mpr ⟨hempty, hself⟩), if_neg hparent]
  rw [locate, if_neg (List.cons_ne_nil _ _), show maxLinks = 39 + 1 from rfl, walk] at h
  split at hnext
  · cases hlookup : fs.nodes.lookup (q ++ [name]) with
    | none =>
        rw [hlookup] at hnext
        rw [walkWith_missing hnext, if_pos rfl] at h
        exact (Option.some.inj h).symm
    | some node =>
        have hplace : next fs q name = .place (q ++ [name]) := by
          rw [hnext, hlookup]
          cases node with
          | link target => exact absurd hlookup (hlink target)
          | file => rfl
          | directory => rfl
        rw [walkWith_place hplace] at h
        exact (Option.some.inj h).symm
  · rw [walkWith_stuck hnext] at h
    cases h

/-! ## New files -/

/-- All that is new are names of files. -/
def Grows (fs gs : FileSystem) : Prop := ∀ r, gs.nodes.lookup r = fs.nodes.lookup r ∨
  fs.nodes.lookup r = none ∧ ∃ id, gs.nodes.lookup r = some (.file id)

theorem Grows.lookup (h : Grows fs gs) {r : Place} (hr : fs.nodes.lookup r ≠ none) :
    gs.nodes.lookup r = fs.nodes.lookup r :=
  (h r).resolve_right fun hnone => hr hnone.1

/-- A name leads where it did, or to a new file. -/
theorem Grows.next (h : Grows fs gs) (hstuck : Disk.next fs q name ≠ .stuck) :
    Disk.next gs q name = Disk.next fs q name ∨
      Disk.next fs q name = .missing ∧ Disk.next gs q name = .place (q ++ [name]) := by
  by_cases hroot : name = "/"
  · exact .inl (by rw [Disk.next, Disk.next, if_pos hroot, if_pos hroot])
  have hsearch := canSearch_of_next hroot hstuck
  have hsearch' : canSearch gs q = true := by
    rw [canSearch_congr (h.lookup (lookup_of_canSearch hsearch)), hsearch]
  rw [Disk.next, Disk.next, if_neg hroot, if_neg hroot, if_pos hsearch, if_pos hsearch']
  split
  · exact .inl rfl
  split
  · exact .inl rfl
  rcases h (q ++ [name]) with heq | ⟨hnone, id, hfile⟩
  · exact .inl (by rw [heq])
  · exact .inr ⟨by rw [hnone], by rw [hfile]⟩

/-- A name that is there leads where it did. -/
theorem Grows.next_eq (h : Grows fs gs) {x : Next} (hx : Disk.next fs q name = x)
    (hstuck : x ≠ .stuck) (hmissing : x ≠ .missing) : Disk.next gs q name = x := by
  subst hx
  exact (h.next hstuck).resolve_right fun hx => hmissing hx.1

theorem Grows.walkWith {jump jump' : Place → Path → List Place × Option Place} (h : Grows fs gs)
    (hjump : ∀ q p, (jump q p).2 ≠ none → jump' q p = jump q p)
    (hsome : (Disk.walkWith fs jump follow q p).2 ≠ none) :
    Disk.walkWith gs jump' follow q p = Disk.walkWith fs jump follow q p := by
  induction p generalizing q with
  | nil => rfl
  | cons name rest ih =>
      cases hnext : Disk.next fs q name with
      | place q' =>
          have hgs := h.next_eq hnext nofun nofun
          rw [walkWith_place hnext] at hsome ⊢
          rw [walkWith_place hgs, ih hsome]
      | link target =>
          have hgs := h.next_eq hnext nofun nofun
          by_cases hlast : rest = [] ∧ follow = false
          · obtain ⟨rfl, rfl⟩ := hlast
            rw [walkWith_last hnext, walkWith_last hgs]
          · rw [walkWith_link hnext hlast] at hsome ⊢
            rw [walkWith_link hgs hlast, hjump _ _ hsome]
      | missing =>
          rw [walkWith_missing hnext] at hsome ⊢
          rcases h.next (by rw [hnext]; nofun) with hgs | ⟨-, hgs⟩
          · rw [walkWith_missing (hgs.trans hnext)]
          · -- Nothing follows the name of the new file.
            by_cases hlast : rest = []
            · subst hlast
              rw [walkWith_place hgs, Disk.walkWith, if_pos rfl, List.append_nil]
            · exact absurd (if_neg hlast) hsome
      | stuck => simp [walkWith_stuck hnext] at hsome

/-- A walk leads where it did. -/
theorem Grows.walk (h : Grows fs gs) {n : ℕ} (hsome : (Disk.walk fs follow n q p).2 ≠ none) :
    Disk.walk gs follow n q p = Disk.walk fs follow n q p := by
  induction n generalizing q p with
  | zero => exact h.walkWith (fun _ _ h => absurd rfl h) hsome
  | succ n ih => exact h.walkWith (fun _ _ => ih) hsome

end walks

end Disk
