import Mathlib.Data.List.Pairwise
import ShrinklerGba.Segments.Layout
import ShrinklerGba.Utility

/-!
# Loading an ELF file

The constructor of `input_file` on a parsed ELF file: the header checks, the entry point, and the
loop that copies the included sections, in the order of their addresses, into one image.

* `inputFile srt elf` is the constructor, `loadSection` one iteration of the loop of `load_binary`.
* `Loaded pre st` is the loop invariant: after the sections `pre` the image is their layout.
* `loadBinary_ok`: the image of a loaded file is the layout of its included sections.
* `loadBinary_perm`: a file with the same sections in another order loads to the same image, with
  any sort.
-/

namespace ShrinklerGba

open Segments

/-! ## The parsed file -/

/-- An ELF section, as ELFIO presents it. ELFIO's addresses and sizes have 64 bits; those of a
32-bit file fit in 32, and `get_data` yields `get_size` bytes. -/
structure Section where
  /-- `get_name` -/
  name : String
  /-- `get_type` -/
  type : BitVec 32
  /-- `get_flags` -/
  flags : BitVec 64
  /-- `get_address` -/
  address : BitVec 64
  /-- `get_size` -/
  size : BitVec 64
  /-- `get_data` -/
  data : Bytevector
  /-- The address is that of a 32-bit file. -/
  address_lt : address.toNat < 2 ^ 32
  /-- The size is that of a 32-bit file. -/
  size_lt : size.toNat < 2 ^ 32
  /-- The data has the size it says. -/
  data_length : data.length = size.toNat

/-- A parsed ELF file: the header fields that are checked, the entry point and the sections. -/
structure Elf where
  /-- `get_class` -/
  elfClass : BitVec 8
  /-- `get_encoding` -/
  encoding : BitVec 8
  /-- `get_type` -/
  type : BitVec 16
  /-- `get_machine` -/
  machine : BitVec 16
  /-- `get_elf_version` -/
  elfVersion : BitVec 8
  /-- `get_os_abi` -/
  osAbi : BitVec 8
  /-- `get_abi_version` -/
  abiVersion : BitVec 8
  /-- `get_version` -/
  version : BitVec 32
  /-- `get_entry` -/
  entry : BitVec 64
  /-- `sections`, in file order. -/
  sections : List Section

/-! ## The header checks -/

/-- Source: `input_file.cpp`, `check_executable_type` (`ELFCLASS32`, `ELFDATA2LSB`, `ET_EXEC`,
`EM_ARM`). -/
def checkExecutableType (elf : Elf) : Except Exception Unit :=
  if elf.elfClass ≠ 1 ∨ elf.encoding ≠ 1 ∨ elf.type ≠ 2 ∨ elf.machine ≠ 40 then
    .error (.runtimeError "File is not a 32-bit little endian ARM executable ELF file")
  else .ok ()

/-- The check of one header field: it must have the expected value. -/
def checkField {w : ℕ} (actual expected : BitVec w) (text : ℕ → ℕ → String) :
    Except Exception Unit :=
  if actual ≠ expected then .error (.runtimeError (text actual.toNat expected.toNat)) else .ok ()

/-- Source: `input_file.cpp`, `check_elf_version`. -/
def checkElfVersion (elf : Elf) : Except Exception Unit :=
  checkField elf.elfVersion 1 fun version expected =>
    s!"Unknown ELF format version {version}. Expected {expected}"

/-- Source: `input_file.cpp`, `check_os_abi`. -/
def checkOsAbi (elf : Elf) : Except Exception Unit :=
  checkField elf.osAbi 0 fun osabi expected =>
    s!"Unknown ELF OS ABI {osabi}. Expected none ({expected})"

/-- Source: `input_file.cpp`, `check_abi_version`. -/
def checkAbiVersion (elf : Elf) : Except Exception Unit :=
  checkField elf.abiVersion 0 fun abiversion expected =>
    s!"Unknown ABI version {abiversion}. Expected {expected}"

/-- Source: `input_file.cpp`, `check_object_file_version`. -/
def checkObjectFileVersion (elf : Elf) : Except Exception Unit :=
  checkField elf.version 1 fun version expected =>
    s!"Unknown object file version {version}. Expected {expected}"

/-- Source: `input_file.cpp`, `check_header`. -/
def checkHeader (elf : Elf) : Except Exception Unit := do
  checkExecutableType elf
  checkElfVersion elf
  checkOsAbi elf
  checkAbiVersion elf
  checkObjectFileVersion elf

/-! ## The loop over the included sections -/

/-- Source: `input_file.cpp`, `is_section_included` (`SHT_NULL`, `SHT_NOBITS`, `SHF_ALLOC`). -/
def isSectionIncluded (s : Section) : Bool :=
  if s.type = 0 ∨ s.type = 8 then false
  else if s.address = 0 then false
  else if s.size = 0 then false
  else if s.flags &&& 2 = 0 then false
  else true

/-- Source: `input_file.cpp`, `get_included_sections`. -/
def getIncludedSections (elf : Elf) : List Section := elf.sections.filter isSectionIncluded

/-- `std::ranges::sort` by address: some permutation in which no section has a smaller address than
one before it. It need not be stable.
Source: `input_file.cpp`, `sort_sections_by_address`. -/
structure SortSectionsByAddress where
  /-- The sorted sections. -/
  sort : List Section → List Section
  /-- Sorting permutes. -/
  perm : ∀ l, (sort l).Perm l
  /-- No section has a smaller address than one before it. -/
  sorted : ∀ l, (sort l).Pairwise fun s t => ¬ t.address < s.address

/-- The members and local variables of `load_binary`. -/
structure Loading where
  /-- `m_data` -/
  data : Bytevector := []
  /-- `m_load_address` -/
  loadAddress : BitVec 32 := 0
  /-- `output_address` -/
  outputAddress : BitVec 64 := 0
  /-- `previous_section` -/
  previousSection : Option Section := none

namespace Loading

/-- Pad up to the section. -/
def pad (st : Loading) (s : Section) : Loading :=
  let npaddingBytes := s.address - st.outputAddress
  if 0 < npaddingBytes then
    { st with data := st.data ++ List.replicate npaddingBytes.toNat 0,
              outputAddress := st.outputAddress + npaddingBytes }
  else st

/-- Copy the section's data to the output. -/
def copy (st : Loading) (s : Section) : Loading :=
  { st with data := st.data ++ s.data,
            outputAddress := st.outputAddress + s.size,
            previousSection := some s }

end Loading

/-- One iteration of the loop.
Source: `input_file.cpp`, `load_binary` (`gsl::narrow<size_t>` is to 64 bits and cannot fail). -/
def loadSection (st : Loading) (s : Section) : Except Exception Loading :=
  if st.data.length ≠ 0 then
    if s.address < st.outputAddress then
      let previous := (st.previousSection.map Section.name).getD ""
      .error (.runtimeError s!"Section {s.name} overlaps with previous section {previous}")
    else
      .ok ((st.pad s).copy s)
  else do
    let loadAddress ← narrow 32 s.address.toNat
    .ok ({ st with outputAddress := s.address, loadAddress := loadAddress }.copy s)

/-- Source: `input_file.cpp`, `load_binary`. -/
def loadBinary (srt : SortSectionsByAddress) (elf : Elf) : Except Exception Loading :=
  (srt.sort (getIncludedSections elf)).foldlM loadSection {}

/-- A loaded file.
Source: `input_file.cppm`, `input_file`. -/
structure InputFile where
  /-- `m_entry` -/
  entry : BitVec 32
  /-- `m_load_address` -/
  loadAddress : BitVec 32
  /-- `m_data` -/
  data : Bytevector

/-- Source: `input_file.cppm`, `loaded_data_size`. -/
def InputFile.loadedDataSize (f : InputFile) : Except Exception (BitVec 32) :=
  narrow 32 f.data.length

/-- The constructor.
Source: `input_file.cpp`, `input_file::input_file`, `read_entry`. -/
def inputFile (srt : SortSectionsByAddress) (elf : Elf) : Except Exception InputFile := do
  checkHeader elf
  let entry ← narrow 32 elf.entry.toNat
  let binary ← loadBinary srt elf
  .ok ⟨entry, binary.loadAddress, binary.data⟩

/-! ## The image of the sections before the current one -/

/-- A section as a segment of memory. -/
def Section.toSegment (s : Section) : Segment (BitVec 8) := ⟨s.address.toNat, s.data⟩

theorem Section.toSegment_stop (s : Section) :
    s.toSegment.stop = s.address.toNat + s.size.toNat := by
  simp [toSegment, Segment.stop, s.data_length]

/-- The loop invariant: after the sections `pre`, the image is their layout. -/
structure Loaded (pre : List Section) (st : Loading) : Prop where
  /-- The sections are in order and do not overlap. -/
  ascending : Ascending st.loadAddress.toNat (pre.map Section.toSegment)
  /-- The image is their layout. -/
  data : st.data = layout 0 st.loadAddress.toNat (pre.map Section.toSegment)
  /-- The load address is the first section's. -/
  loadAddress : ∀ s, pre.head? = some s → s.address.toNat = st.loadAddress.toNat
  /-- The output address is the end of the last section. -/
  outputAddress : pre ≠ [] →
    st.outputAddress.toNat = finish st.loadAddress.toNat (pre.map Section.toSegment)
  /-- Nothing is written for no sections. -/
  nil : pre = [] → st.loadAddress = 0

theorem loaded_nil : Loaded [] {} where
  ascending := trivial
  data := rfl
  loadAddress := by simp
  outputAddress := fun h => absurd rfl h
  nil := fun _ => rfl

theorem size_pos_of_included {s : Section} (h : isSectionIncluded s = true) :
    0 < s.data.length := by
  have hsize : s.size ≠ 0 := by
    rintro h0
    simp [isSectionIncluded, h0] at h
  rw [s.data_length]
  exact Nat.pos_of_ne_zero fun h0 => hsize (BitVec.eq_of_toNat_eq h0)

theorem Loaded.data_ne_nil {pre : List Section} {st : Loading} (h : Loaded pre st)
    (hpos : ∀ s ∈ pre, 0 < s.data.length) : st.data.length ≠ 0 ↔ pre ≠ [] := by
  rw [h.data]
  cases pre with
  | nil => simp [layout]
  | cons s pre =>
      have := hpos s List.mem_cons_self
      simp only [List.map_cons, layout, List.length_append, Section.toSegment]
      simp only [ne_eq, reduceCtorEq, not_false_eq_true, iff_true]
      omega

/-! ## One iteration -/

/-- The 64-bit computations of one iteration do not wrap. -/
structure Exact (st : Loading) (s : Section) : Prop where
  /-- The padding is the distance to the section. -/
  padding : st.data ≠ [] →
    st.outputAddress.toNat + (s.address - st.outputAddress).toNat = s.address.toNat
  /-- The output address grows by the size of a later section. -/
  later : st.data ≠ [] →
    ((st.pad s).copy s).outputAddress.toNat = (st.pad s).outputAddress.toNat + s.size.toNat
  /-- The output address grows by the size of the first section. -/
  first : st.data = [] → (s.address + s.size).toNat = s.address.toNat + s.size.toNat

theorem address_add_size (s : Section) :
    (s.address + s.size).toNat = s.address.toNat + s.size.toNat := by
  have h₁ := s.address_lt
  have h₂ := s.size_lt
  rw [BitVec.toNat_add, Nat.mod_eq_of_lt (by omega)]

theorem toNat_padding {st : Loading} {s : Section} (h : ¬ s.address < st.outputAddress) :
    (s.address - st.outputAddress).toNat = s.address.toNat - st.outputAddress.toNat :=
  BitVec.toNat_sub_of_le (BitVec.not_lt.mp h)

theorem pad_data {st : Loading} {s : Section} (h : ¬ s.address < st.outputAddress) :
    (st.pad s).data = st.data ++ List.replicate (s.address.toNat - st.outputAddress.toNat) 0 := by
  rw [← toNat_padding h, Loading.pad]
  split
  · rfl
  · rename_i h0
    have h0' : (s.address - st.outputAddress).toNat = 0 := by
      simpa [BitVec.lt_def] using h0
    simp [h0']

theorem pad_outputAddress {st : Loading} {s : Section} (h : ¬ s.address < st.outputAddress) :
    (st.pad s).outputAddress = s.address := by
  rw [Loading.pad]
  split
  · simp
  · rename_i h0
    have h0' : (s.address - st.outputAddress).toNat = 0 := by
      simpa [BitVec.lt_def] using h0
    rw [toNat_padding h] at h0'
    rw [BitVec.lt_def] at h
    apply BitVec.eq_of_toNat_eq
    show st.outputAddress.toNat = _
    omega

theorem pad_loadAddress (st : Loading) (s : Section) :
    (st.pad s).loadAddress = st.loadAddress := by
  rw [Loading.pad]
  split <;> rfl

/-- An iteration extends the layout by its section. -/
theorem Loaded.step {pre : List Section} {st st' : Loading} {s : Section} (h : Loaded pre st)
    (hpos : ∀ s ∈ pre, 0 < s.data.length) (hst : loadSection st s = .ok st') :
    Loaded (pre ++ [s]) st' ∧ Exact st s := by
  have hne := h.data_ne_nil hpos
  by_cases hpre : pre = []
  · -- The first section sets the load address.
    subst hpre
    have hlen : ¬ st.data.length ≠ 0 := by simpa using hne
    rw [loadSection, if_neg hlen] at hst
    obtain ⟨load, hload⟩ : ∃ load, narrow 32 s.address.toNat = .ok load :=
      ⟨BitVec.ofNat 32 s.address.toNat, if_pos s.address_lt⟩
    simp only [hload, bind, Except.bind, Except.ok.injEq] at hst
    have hl : s.address.toNat = load.toNat := narrow_eq_ok.mp hload
    have hd : st.data = [] := by rw [h.data]; rfl
    subst hst
    refine ⟨⟨?_, ?_, ?_, fun _ => ?_, fun h => by simp at h⟩,
      ⟨fun h => absurd hd h, fun h => absurd hd h, fun _ => address_add_size s⟩⟩
    · simp [Ascending, Loading.copy, Section.toSegment, hl]
    · simp [layout, Loading.copy, Section.toSegment, hl, hd]
    · simp [Loading.copy, hl]
    · simp only [Loading.copy, List.nil_append, List.map_cons, List.map_nil, finish,
        s.toSegment_stop, address_add_size]
  · -- A later section is padded up to and copied.
    have hlen : st.data.length ≠ 0 := hne.mpr hpre
    rw [loadSection, if_pos hlen] at hst
    by_cases hlt : s.address < st.outputAddress
    · rw [if_pos hlt] at hst
      cases hst
    · rw [if_neg hlt, Except.ok.injEq] at hst
      have hout := h.outputAddress hpre
      have hle : st.outputAddress.toNat ≤ s.address.toNat := BitVec.not_lt.mp hlt
      subst hst
      refine ⟨⟨?_, ?_, ?_, fun _ => ?_, fun h => by simp at h⟩, ⟨fun _ => ?_, fun _ => ?_, ?_⟩⟩
      · rw [List.map_append, ascending_append]
        refine ⟨by simpa [Loading.copy, pad_loadAddress] using h.ascending, ?_, trivial⟩
        simpa [Loading.copy, pad_loadAddress, ← hout, Section.toSegment] using hle
      · rw [List.map_append, layout_append]
        simp only [Loading.copy, pad_data hlt, pad_loadAddress, ← hout, ← h.data, List.map_cons,
          List.map_nil, layout, Section.toSegment, List.append_nil, List.append_assoc]
      · intro t ht
        have hhead : pre.head? = some t := by
          cases pre with
          | nil => exact absurd rfl hpre
          | cons u us => simpa using ht
        simpa [Loading.copy, pad_loadAddress] using h.loadAddress t hhead
      · rw [List.map_append, finish_append]
        simp only [Loading.copy, pad_outputAddress hlt, List.map_cons, List.map_nil, finish,
          s.toSegment_stop, address_add_size]
      · rw [toNat_padding hlt]
        omega
      · simp only [Loading.copy, pad_outputAddress hlt, address_add_size]
      · intro hnil
        exact absurd (by rw [hnil]; rfl) hlen

/-! ## The whole loop -/

/-- The loop lays out the sections it went through, and never wraps. -/
theorem Loaded.run {pre l : List Section} {st st' : Loading} (h : Loaded pre st)
    (hpos : ∀ s ∈ pre ++ l, 0 < s.data.length) (hst : l.foldlM loadSection st = .ok st') :
    Loaded (pre ++ l) st' ∧
      ∀ l₁ s l₂ t, l = l₁ ++ s :: l₂ → l₁.foldlM loadSection st = .ok t → Exact t s := by
  induction l generalizing pre st with
  | nil =>
      cases hst
      refine ⟨by simpa using h, fun l₁ s l₂ t hl => ?_⟩
      simp at hl
  | cons s l ih =>
      rw [List.foldlM_cons] at hst
      obtain ⟨u, hu⟩ : ∃ u, loadSection st s = .ok u := by
        cases hu : loadSection st s with
        | error e => rw [hu] at hst; cases hst
        | ok u => exact ⟨u, rfl⟩
      rw [hu] at hst
      have hpre : ∀ t ∈ pre, 0 < t.data.length := fun t ht => hpos t (List.mem_append_left _ ht)
      obtain ⟨hnext, hexact⟩ := h.step hpre hu
      obtain ⟨hend, hrest⟩ := ih hnext (by simpa using hpos) hst
      refine ⟨by simpa using hend, fun l₁ t l₂ v hl hv => ?_⟩
      cases l₁ with
      | nil =>
          simp only [List.nil_append, List.cons.injEq] at hl
          cases hv
          rw [← hl.1]
          exact hexact
      | cons t' l₁ =>
          simp only [List.cons_append, List.cons.injEq] at hl
          rw [List.foldlM_cons, ← hl.1, hu] at hv
          exact hrest l₁ t l₂ v hl.2 hv

variable {srt : SortSectionsByAddress} {elf : Elf} {st : Loading}

theorem mem_sorted {s : Section} :
    s ∈ srt.sort (getIncludedSections elf) ↔ s ∈ elf.sections ∧ isSectionIncluded s = true := by
  rw [(srt.perm _).mem_iff, getIncludedSections, List.mem_filter]

theorem sorted_size_pos : ∀ s ∈ srt.sort (getIncludedSections elf), 0 < s.data.length :=
  fun _ hs => size_pos_of_included (mem_sorted.mp hs).2

/-- The image of a loaded file is the layout of its included sections. -/
theorem loadBinary_ok (h : loadBinary srt elf = .ok st) :
    Loaded (srt.sort (getIncludedSections elf)) st :=
  (loaded_nil.run (by simpa using sorted_size_pos) h).1

/-- The loop never wraps. -/
theorem loadBinary_exact (h : loadBinary srt elf = .ok st) {l₁ l₂ : List Section} {s : Section}
    {t : Loading} (hl : srt.sort (getIncludedSections elf) = l₁ ++ s :: l₂)
    (ht : l₁.foldlM loadSection {} = .ok t) : Exact t s :=
  (loaded_nil.run (by simpa using sorted_size_pos) h).2 l₁ s l₂ t hl ht

/-- The included sections of a loaded file have different addresses. -/
theorem address_injOn (h : loadBinary srt elf = .ok st) :
    ∀ s ∈ srt.sort (getIncludedSections elf), ∀ t ∈ srt.sort (getIncludedSections elf),
      s.address = t.address → s = t := by
  have hpw : (srt.sort (getIncludedSections elf)).Pairwise
      fun s t => s.address = t.address → s = t := by
    have hends := List.pairwise_map.mp (loadBinary_ok h).ascending.pairwise
    refine hends.imp_of_mem fun {s t} hs _ hst heq => ?_
    have hpos := sorted_size_pos s hs
    rw [s.toSegment_stop, ← s.data_length] at hst
    simp only [Section.toSegment, heq] at hst
    omega
  have : Std.Symm fun s t : Section => s.address = t.address → s = t :=
    ⟨fun _ _ h heq => (h heq.symm).symm⟩
  exact hpw.forall_of_forall fun _ _ _ => rfl

/-- A file with the same sections in another order loads to the same image, with any sort. -/
theorem loadBinary_perm (h : loadBinary srt elf = .ok st) (srt' : SortSectionsByAddress)
    (elf' : Elf) (hperm : elf'.sections.Perm elf.sections) : loadBinary srt' elf' = .ok st := by
  have hsame : srt'.sort (getIncludedSections elf') = srt.sort (getIncludedSections elf) := by
    have hp : (srt.sort (getIncludedSections elf)).Perm (srt'.sort (getIncludedSections elf')) :=
      (srt.perm _).trans ((hperm.symm.filter _).trans (srt'.perm _).symm)
    refine (hp.eq_of_pairwise (fun s t hs ht h₁ h₂ => ?_) (srt.sorted _) (srt'.sorted _)).symm
    refine address_injOn h s hs t (hp.mem_iff.mpr ht) ?_
    exact BitVec.le_antisymm (BitVec.not_lt.mp h₁) (BitVec.not_lt.mp h₂)
  rw [loadBinary, hsame]
  exact h

/-! ## The loaded file -/

theorem inputFile_eq_ok {f : InputFile} (h : inputFile srt elf = .ok f) :
    checkHeader elf = .ok () ∧ elf.entry.toNat = f.entry.toNat ∧
      ∃ st, loadBinary srt elf = .ok st ∧ f.loadAddress = st.loadAddress ∧ f.data = st.data := by
  unfold inputFile at h
  cases hh : checkHeader elf with
  | error e => simp only [hh, bind, Except.bind, reduceCtorEq] at h
  | ok u =>
      cases he : narrow 32 elf.entry.toNat with
      | error e => simp only [hh, he, bind, Except.bind, reduceCtorEq] at h
      | ok entry =>
          cases hb : loadBinary srt elf with
          | error e => simp only [hh, he, hb, bind, Except.bind, reduceCtorEq] at h
          | ok st =>
              simp only [hh, he, hb, bind, Except.bind, Except.ok.injEq] at h
              subst h
              exact ⟨rfl, narrow_eq_ok.mp he, st, rfl, rfl, rfl⟩

/-- The image is the memory image of the included sections: it starts at the least included
address, ends at the greatest end, and holds the bytes of every included section and zeros
elsewhere. -/
structure MemoryImage (elf : Elf) (f : InputFile) : Prop where
  /-- The load address is an included section's. -/
  exists_start : ∃ s ∈ getIncludedSections elf, s.address.toNat = f.loadAddress.toNat
  /-- It is the least included address. -/
  le_start : ∀ s ∈ getIncludedSections elf, f.loadAddress.toNat ≤ s.address.toNat
  /-- The image ends where an included section does. -/
  exists_stop : ∃ s ∈ getIncludedSections elf,
    f.data.length = s.address.toNat + s.size.toNat - f.loadAddress.toNat
  /-- It ends after all included sections. -/
  stop_le : ∀ s ∈ getIncludedSections elf,
    s.address.toNat + s.size.toNat ≤ f.loadAddress.toNat + f.data.length
  /-- Every byte of every included section is in its place. -/
  covered : ∀ s ∈ getIncludedSections elf, ∀ i < s.size.toNat,
    f.data[s.address.toNat - f.loadAddress.toNat + i]? = s.data[i]?
  /-- The other bytes are zero. -/
  gap : ∀ j < f.data.length, (∀ s ∈ getIncludedSections elf,
    ¬ (s.address.toNat ≤ f.loadAddress.toNat + j ∧
      f.loadAddress.toNat + j < s.address.toNat + s.size.toNat)) → f.data[j]? = some 0

theorem Loaded.memoryImage {f : InputFile}
    (h : Loaded (srt.sort (getIncludedSections elf)) st) (hload : f.loadAddress = st.loadAddress)
    (hdata : f.data = st.data) (hne : getIncludedSections elf ≠ []) : MemoryImage elf f := by
  have hmem : ∀ s, s ∈ getIncludedSections elf ↔ s ∈ srt.sort (getIncludedSections elf) :=
    fun s => (srt.perm _).mem_iff.symm
  have hne' : srt.sort (getIncludedSections elf) ≠ [] := fun h0 =>
    hne (List.nil_perm.mp (h0 ▸ srt.perm (getIncludedSections elf)))
  have hmap : ∀ s ∈ getIncludedSections elf,
      s.toSegment ∈ (srt.sort (getIncludedSections elf)).map Section.toSegment :=
    fun s hs => List.mem_map_of_mem ((hmem s).mp hs)
  have hlen : f.loadAddress.toNat + f.data.length =
      finish f.loadAddress.toNat ((srt.sort (getIncludedSections elf)).map Section.toSegment) := by
    rw [hdata, hload, h.data, finish_layout h.ascending]
  refine ⟨?_, fun s hs => ?_, ?_, fun s hs => ?_, fun s hs i hi => ?_, fun j hj hgap => ?_⟩
  · obtain ⟨s, l, hl⟩ := List.exists_cons_of_ne_nil hne'
    exact ⟨s, (hmem s).mpr (hl ▸ List.mem_cons_self), hload ▸ h.loadAddress s (by rw [hl]; rfl)⟩
  · rw [hload]
    exact h.ascending.le_start (hmap s hs)
  · have hmapne : (srt.sort (getIncludedSections elf)).map Section.toSegment ≠ [] := by
      simpa using hne'
    obtain ⟨t, ht, hstop⟩ := exists_stop_eq_finish (a := f.loadAddress.toNat) hmapne
    obtain ⟨s, hs, rfl⟩ := List.mem_map.mp ht
    refine ⟨s, (hmem s).mpr hs, ?_⟩
    rw [← hlen, s.toSegment_stop] at hstop
    omega
  · rw [hlen, ← s.toSegment_stop, hload]
    exact h.ascending.stop_le_finish (hmap s hs)
  · rw [hdata, h.data, hload]
    exact layout_getElem?_of_mem h.ascending (hmap s hs)
      (by simpa [Section.toSegment, s.data_length])
  · rw [hdata] at hj
    rw [hdata, h.data]
    refine layout_getElem?_gap h.ascending (h.data ▸ hj) fun t ht => ?_
    obtain ⟨s, hs, rfl⟩ := List.mem_map.mp ht
    rw [Segment.Covers, s.toSegment_stop, ← hload]
    exact hgap s ((hmem s).mpr hs)

/-- Nothing is loaded without included sections. -/
theorem inputFile_of_nil {f : InputFile} (h : inputFile srt elf = .ok f)
    (hnil : getIncludedSections elf = []) : f.data = [] ∧ f.loadAddress = 0 := by
  obtain ⟨-, -, st, hst, hload, hdata⟩ := inputFile_eq_ok h
  have hsort : srt.sort (getIncludedSections elf) = [] := by
    rw [hnil]
    exact List.perm_nil.mp (srt.perm [])
  have hok := loadBinary_ok hst
  rw [hsort] at hok
  rw [hdata, hload, hok.data, hok.nil rfl]
  exact ⟨rfl, rfl⟩

theorem memoryImage_of_ne_nil {f : InputFile} (h : inputFile srt elf = .ok f)
    (hne : getIncludedSections elf ≠ []) : MemoryImage elf f := by
  obtain ⟨-, -, st, hst, hload, hdata⟩ := inputFile_eq_ok h
  exact (loadBinary_ok hst).memoryImage hload hdata hne

/-- **The loaded image is the memory image of the included sections**, whatever their order in the
file; no 64-bit address computation of the loop wraps. -/
theorem inputFile_memoryImage (srt : SortSectionsByAddress) (elf : Elf) (f : InputFile)
    (h : inputFile srt elf = .ok f) :
    (getIncludedSections elf = [] → f.data = [] ∧ f.loadAddress = 0) ∧
    (getIncludedSections elf ≠ [] → MemoryImage elf f) ∧
    (∀ l₁ s l₂ st, srt.sort (getIncludedSections elf) = l₁ ++ s :: l₂ →
      l₁.foldlM loadSection {} = .ok st → Exact st s) ∧
    (∀ (srt' : SortSectionsByAddress) (l : List Section), l.Perm elf.sections →
      inputFile srt' { elf with sections := l } = .ok f) := by
  obtain ⟨hheader, hentry, st, hst, hload, hdata⟩ := inputFile_eq_ok h
  refine ⟨inputFile_of_nil h, memoryImage_of_ne_nil h, fun l₁ s l₂ t => loadBinary_exact hst,
    fun srt' l hl => ?_⟩
  have hst' := loadBinary_perm hst srt' { elf with sections := l } hl
  have hheader' : checkHeader { elf with sections := l } = .ok () := hheader
  have hentry' : narrow 32 elf.entry.toNat = .ok f.entry := narrow_eq_ok.mpr hentry
  simp only [inputFile, hheader', hentry', hst', bind, Except.bind, ← hload, ← hdata]

/-- Sorting by insertion. -/
def insertionSortByAddress : SortSectionsByAddress where
  sort l := l.insertionSort fun s t => s.address ≤ t.address
  perm := List.perm_insertionSort _
  sorted l := by
    have : Std.Total fun s t : Section => s.address ≤ t.address :=
      ⟨fun s t => BitVec.le_total s.address t.address⟩
    have : IsTrans Section fun s t => s.address ≤ t.address :=
      ⟨fun _ _ _ h₁ h₂ => BitVec.le_trans h₁ h₂⟩
    exact (List.pairwise_insertionSort (fun s t : Section => s.address ≤ t.address) l).imp
      fun h => BitVec.not_lt.mpr h

/-- The first address of IWRAM is that of a 32-bit file. -/
theorem iwram_lt : (0x03000000 : BitVec 64).toNat < 2 ^ 32 := by decide

/-- So is the second word's. -/
theorem iwram_word_lt : (0x03000004 : BitVec 64).toNat < 2 ^ 32 := by decide

/-- So is a size of one byte. -/
theorem byte_lt : (1 : BitVec 64).toNat < 2 ^ 32 := by decide

/-- One byte of data. -/
theorem byte_length : ([3] : Bytevector).length = (1 : BitVec 64).toNat := rfl

/-- A file whose sections are not in order and leave a gap. -/
def unsortedElf : Elf where
  elfClass := 1
  encoding := 1
  type := 2
  machine := 40
  elfVersion := 1
  osAbi := 0
  abiVersion := 0
  version := 1
  entry := 0x03000000
  sections := [
    ⟨".data", 1, 3, 0x03000004, 1, [3], iwram_word_lt, byte_lt, byte_length⟩,
    ⟨".bss", 8, 3, 0x03000008, 2, [0, 0], by decide, by decide, rfl⟩,
    ⟨".text", 1, 6, 0x03000000, 2, [1, 2], iwram_lt, by decide, rfl⟩]

/-- The theorem at the unsorted file: the gap is filled with zeros. -/
theorem inputFile_memoryImage_unsortedElf :
    MemoryImage unsortedElf ⟨0x03000000, 0x03000000, [1, 2, 0, 0, 3]⟩ :=
  (inputFile_memoryImage insertionSortByAddress unsortedElf _ rfl).2.1 (by decide)

end ShrinklerGba
