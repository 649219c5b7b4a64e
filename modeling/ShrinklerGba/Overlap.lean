import Mathlib.Data.Set.BooleanAlgebra
import Mathlib.Order.CompletePartialOrder
import Mathlib.Order.Interval.Set.Defs
import ShrinklerGba.InputFile

/-!
# When sections overlap

`load_binary` compares each section with the running end of the image only.

* `Overlapping elf`: two different included sections share an address.
* `overlapping_of_error`: a section that is rejected shares an address with one before it.
* **`loadBinary_overlap`**: the overlap error is thrown exactly then, and it is the only error.
-/

namespace ShrinklerGba

open Segments

/-- The addresses of a section. -/
def Section.addresses (s : Section) : Set ℕ :=
  Set.Ico s.address.toNat (s.address.toNat + s.size.toNat)

/-- Two sections at different places of the list share an address. -/
def Overlapping (elf : Elf) : Prop :=
  ∃ (i j : ℕ) (s t : Section), i < j ∧ (getIncludedSections elf)[i]? = some s ∧
    (getIncludedSections elf)[j]? = some t ∧ (s.addresses ∩ t.addresses).Nonempty

/-- The error for a section and the one before it.
Source: `input_file.cpp`, `load_binary`. -/
def overlapError (s previous : Section) : Exception :=
  .runtimeError s!"Section {s.name} overlaps with previous section {previous.name}"

/-- The overlap error is thrown. -/
def ThrowsOverlap (srt : SortSectionsByAddress) (elf : Elf) : Prop :=
  ∃ s ∈ getIncludedSections elf, ∃ t ∈ getIncludedSections elf,
    loadBinary srt elf = .error (overlapError s t)

theorem overlapping_iff (elf : Elf) : Overlapping elf ↔
    ¬(getIncludedSections elf).Pairwise fun s t => Disjoint s.addresses t.addresses := by
  rw [List.pairwise_iff_getElem, Overlapping]
  push Not
  constructor
  · rintro ⟨i, j, s, t, hij, hs, ht, hst⟩
    obtain ⟨hi, rfl⟩ := List.getElem?_eq_some_iff.mp hs
    obtain ⟨hj, rfl⟩ := List.getElem?_eq_some_iff.mp ht
    exact ⟨i, j, hi, hj, hij, Set.not_disjoint_iff_nonempty_inter.mpr hst⟩
  · rintro ⟨i, j, hi, hj, hij, hst⟩
    exact ⟨i, j, _, _, hij, List.getElem?_eq_getElem hi, List.getElem?_eq_getElem hj,
      Set.not_disjoint_iff_nonempty_inter.mp hst⟩

variable {srt : SortSectionsByAddress} {elf : Elf}

variable (srt) in
/-- Whether sections overlap does not depend on their order. -/
theorem pairwise_sorted : ((srt.sort (getIncludedSections elf)).Pairwise
    fun s t => Disjoint s.addresses t.addresses) ↔ ¬Overlapping elf := by
  rw [overlapping_iff, not_not]
  exact (srt.perm _).pairwise_iff fun h => h.symm

/-! ## Success and failure of the loop -/

/-- A section that is accepted becomes the previous one. -/
theorem loadSection_previous {st st' : Loading} {s : Section} (h : loadSection st s = .ok st') :
    st'.previousSection = some s := by
  rw [loadSection] at h
  split at h
  · split at h
    · cases h
    · cases h; rfl
  · cases hn : narrow 32 s.address.toNat with
    | error e => simp [hn, bind, Except.bind] at h
    | ok load =>
        simp only [hn, bind, Except.bind, Except.ok.injEq] at h
        rw [← h]
        rfl

/-- **A section that is rejected** begins before the end of one that was accepted. -/
theorem Loaded.error {pre : List Section} {st : Loading} {s : Section} {e : Exception}
    (h : Loaded pre st) (hpos : ∀ s ∈ pre, 0 < s.data.length)
    (hprev : st.previousSection = pre.getLast?) (he : loadSection st s = .error e) :
    (∃ t ∈ pre, s.address.toNat < t.address.toNat + t.size.toNat) ∧
      ∃ t ∈ pre, e = overlapError s t := by
  rw [loadSection] at he
  split at he
  · rename_i hlen
    have hpre := (h.data_ne_nil hpos).mp hlen
    split at he
    · rename_i hlt
      rw [BitVec.lt_def, h.outputAddress hpre] at hlt
      constructor
      · have hne : pre.map Section.toSegment ≠ [] := by simpa using hpre
        obtain ⟨t, ht, hstop⟩ := exists_stop_eq_finish (a := st.loadAddress.toNat) hne
        obtain ⟨u, hu, rfl⟩ := List.mem_map.mp ht
        rw [← hstop, u.toSegment_stop] at hlt
        exact ⟨u, hu, hlt⟩
      · refine ⟨pre.getLast hpre, List.getLast_mem hpre, ?_⟩
        rw [hprev, List.getLast?_eq_getLast_of_ne_nil hpre] at he
        exact (Except.error.inj he).symm
    · cases he
  · rw [narrow, if_pos s.address_lt] at he
    cases he

/-- A loop that fails, fails at a section that shares an address with an earlier one. -/
theorem Loaded.run_error {pre l : List Section} {st : Loading} {e : Exception} (h : Loaded pre st)
    (hpos : ∀ s ∈ pre ++ l, 0 < s.data.length) (hprev : st.previousSection = pre.getLast?)
    (hsorted : (pre ++ l).Pairwise fun s t => ¬t.address < s.address)
    (he : l.foldlM loadSection st = .error e) :
    ¬(pre ++ l).Pairwise (fun s t => Disjoint s.addresses t.addresses) ∧
      ∃ s ∈ pre ++ l, ∃ t ∈ pre ++ l, e = overlapError s t := by
  induction l generalizing pre st with
  | nil => cases he
  | cons s l ih =>
      rw [List.foldlM_cons] at he
      have hpre : ∀ t ∈ pre, 0 < t.data.length := fun t ht => hpos t (List.mem_append_left _ ht)
      cases hs : loadSection st s with
      | ok u =>
          rw [hs] at he
          have hnext := (h.step hpre hs).1
          have happ : pre ++ [s] ++ l = pre ++ s :: l := by simp
          have hlast : u.previousSection = (pre ++ [s]).getLast? := by
            rw [loadSection_previous hs, List.getLast?_append, List.getLast?_singleton]
            rfl
          simpa only [happ] using ih hnext (by rwa [happ]) hlast (by rwa [happ]) he
      | error e' =>
          rw [hs] at he
          cases he
          obtain ⟨⟨t, ht, hlt⟩, v, hv, he'⟩ := h.error hpre hprev hs
          refine ⟨fun hpw => ?_, s, by simp, v, List.mem_append_left _ hv, he'⟩
          -- The section begins inside the earlier one.
          have hle : ¬s.address < t.address :=
            (List.pairwise_append.mp hsorted).2.2 t ht s List.mem_cons_self
          have hpos' := hpos s (by simp)
          rw [s.data_length] at hpos'
          have hdisj := (List.pairwise_append.mp hpw).2.2 t ht s List.mem_cons_self
          have ht' : s.address.toNat ∈ t.addresses := ⟨BitVec.not_lt.mp hle, hlt⟩
          exact Set.disjoint_left.mp hdisj ht' ⟨Nat.le_refl _, by omega⟩

/-- A file that is loaded has no overlapping sections. -/
theorem not_overlapping_of_ok {st : Loading} (h : loadBinary srt elf = .ok st) :
    ¬Overlapping elf := by
  refine (pairwise_sorted srt).mp ?_
  have hends := List.pairwise_map.mp (loadBinary_ok h).ascending.pairwise
  refine hends.imp fun {s t} hst => ?_
  rw [s.toSegment_stop] at hst
  exact Set.disjoint_left.mpr fun a hs ht => absurd (hs.2.trans_le hst) (Nat.not_lt.mpr ht.1)

/-- A file that is not loaded has overlapping sections, and the error says so. -/
theorem overlapping_of_error {e : Exception} (h : loadBinary srt elf = .error e) :
    Overlapping elf ∧ ThrowsOverlap srt elf := by
  obtain ⟨hnot, s, hs, t, ht, rfl⟩ := loaded_nil.run_error (by simpa using sorted_size_pos) rfl
    (by simpa using srt.sorted (getIncludedSections elf)) h
  refine ⟨not_not.mp (mt (pairwise_sorted srt).mpr hnot), s, ?_, t, ?_, h⟩
  · exact (srt.perm _).mem_iff.mp hs
  · exact (srt.perm _).mem_iff.mp ht

/-! ## The error -/

theorem throwsOverlap_iff : ThrowsOverlap srt elf ↔ Overlapping elf := by
  refine ⟨fun ⟨s, _, t, _, h⟩ => (overlapping_of_error h).1, fun h => ?_⟩
  cases hload : loadBinary srt elf with
  | ok st => exact absurd h (not_overlapping_of_ok hload)
  | error e => exact (overlapping_of_error hload).2

theorem exists_ok_iff : (∃ st, loadBinary srt elf = .ok st) ↔ ¬Overlapping elf := by
  refine ⟨fun ⟨st, h⟩ => not_overlapping_of_ok h, fun h => ?_⟩
  cases hload : loadBinary srt elf with
  | ok st => exact ⟨st, rfl⟩
  | error e => exact absurd (overlapping_of_error hload).1 h

theorem overlapping_perm {elf' : Elf} (h : elf'.sections.Perm elf.sections) :
    Overlapping elf' ↔ Overlapping elf := by
  have hperm : (getIncludedSections elf').Perm (getIncludedSections elf) := h.filter _
  rw [overlapping_iff, overlapping_iff, hperm.pairwise_iff fun h => h.symm]

/-- The included sections at two different places are `s` and `t`. -/
def Included (elf : Elf) (i j : ℕ) (s t : Section) : Prop :=
  i ≠ j ∧ (getIncludedSections elf)[i]? = some s ∧ (getIncludedSections elf)[j]? = some t

theorem Included.overlapping {i j : ℕ} {s t : Section} (h : Included elf i j s t) {a : ℕ}
    (hs : a ∈ s.addresses) (ht : a ∈ t.addresses) : Overlapping elf := by
  obtain ⟨hne, hi, hj⟩ := h
  rcases Nat.lt_or_gt_of_ne hne with hlt | hlt
  · exact ⟨i, j, s, t, hlt, hi, hj, a, hs, ht⟩
  · exact ⟨j, i, t, s, hlt, hj, hi, a, ht, hs⟩

/-- An included section has an address of its own. -/
theorem Included.start_mem {i j : ℕ} {s t : Section} (h : Included elf i j s t) :
    t.address.toNat ∈ t.addresses := by
  have hmem := List.mem_filter.mp (List.mem_of_getElem? h.2.2)
  have hpos := size_pos_of_included hmem.2
  rw [t.data_length] at hpos
  exact ⟨Nat.le_refl _, by omega⟩

/-- **Overlap detection is exact**: the overlap error is thrown exactly when two different included
sections share an address, nothing else is thrown, and the outcome depends neither on the order of
the sections nor on the sort. -/
theorem loadBinary_overlap (srt : SortSectionsByAddress) (elf : Elf) :
    (ThrowsOverlap srt elf ↔ Overlapping elf) ∧
    ((∃ st, loadBinary srt elf = .ok st) ↔ ¬Overlapping elf) ∧
    (∀ srt' elf', elf'.sections.Perm elf.sections →
      (ThrowsOverlap srt' elf' ↔ ThrowsOverlap srt elf)) ∧
    -- Equal addresses and containment are rejected, wherever the sections stand.
    (∀ i j s t, Included elf i j s t → s.address = t.address → ThrowsOverlap srt elf) ∧
    (∀ i j s t, Included elf i j s t → t.addresses ⊆ s.addresses → ThrowsOverlap srt elf) ∧
    -- Sections that at most touch are accepted.
    ((∀ i j s t, Included elf i j s t → s.address.toNat + s.size.toNat ≤ t.address.toNat ∨
      t.address.toNat + t.size.toNat ≤ s.address.toNat) →
        ∃ st, loadBinary srt elf = .ok st) := by
  refine ⟨throwsOverlap_iff, exists_ok_iff, fun srt' elf' h => ?_, fun i j s t h heq => ?_,
    fun i j s t h hsub => ?_, fun h => ?_⟩
  · rw [throwsOverlap_iff, throwsOverlap_iff, overlapping_perm h]
  · have hs := Included.start_mem (i := j) (j := i) (s := t) ⟨h.1.symm, h.2.2, h.2.1⟩
    rw [throwsOverlap_iff]
    exact h.overlapping hs (by rw [heq]; exact h.start_mem)
  · rw [throwsOverlap_iff]
    exact h.overlapping (hsub h.start_mem) h.start_mem
  · refine exists_ok_iff.mpr fun ⟨i, j, s, t, hlt, hs, ht, a, has, hat⟩ => ?_
    rcases h i j s t ⟨hlt.ne, hs, ht⟩ with hle | hle
    · exact absurd (has.2.trans_le hle) (Nat.not_lt.mpr hat.1)
    · exact absurd (hat.2.trans_le hle) (Nat.not_lt.mpr has.1)

/-- A file in which a section begins inside another that is not its neighbour. -/
def overlappingElf : Elf :=
  { unsortedElf with
    sections := [
      ⟨".data", 1, 3, 0x03000004, 1, [3], iwram_word_lt, byte_lt, byte_length⟩,
      ⟨".rodata", 1, 2, 0x03000002, 1, [4], by decide, byte_lt, rfl⟩,
      ⟨".text", 1, 6, 0x03000000, 5, [1, 2, 3, 4, 5], iwram_lt, by decide, rfl⟩] }

/-- The theorem at that file. -/
theorem loadBinary_overlap_overlappingElf : ThrowsOverlap insertionSortByAddress overlappingElf :=
  (loadBinary_overlap insertionSortByAddress overlappingElf).1.mpr
    ⟨0, 2, _, _, by decide, rfl, rfl, 0x03000004, by constructor <;> decide,
      by constructor <;> decide⟩

end ShrinklerGba
