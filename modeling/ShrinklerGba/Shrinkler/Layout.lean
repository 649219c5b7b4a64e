import ShrinklerGba.Cartridge
import ShrinklerGba.Thumb.Block

/-!
# Where the depacker's code lies

The address of every label of the depacker, in each layout, and the instructions that follow it.

* `Rom` is a configuration and what surrounds the machine; `Rom.image` is its code.
* `symOffset` is the table of the labels' offsets; **`Rom.sym_eq`** says that they lie there.
* **`Rom.fetchAt`**: the instructions after a label are those of the program.
-/

namespace ShrinklerGba.Shrinkler

open Thumb Transition

/-- A ROM, and what surrounds the machine that runs it. -/
structure Rom where
  /-- The configuration. -/
  config : Config
  /-- The carry that `mul` leaves. -/
  mulCarry : Word → Word → Bool
  /-- The supervisor calls. -/
  swi : ℕ → Cpu → Cpu

/-- A ROM that loads its program to the beginning of EWRAM. -/
def ewramRom : Rom where
  config := { loadAddress := 0x02000000, entry := 0x02000000 }
  mulCarry := fun _ _ => false
  swi := fun _ s => s

/-- The code of a ROM. -/
def Rom.image (ρ : Rom) : Image Label :=
  Thumb.image romStart (program ρ.config) ρ.mulCarry ρ.swi

/-- The address of a label. -/
def Rom.sym (ρ : Rom) (l : Label) : Word := ρ.image.sym l

theorem Rom.image_sym (ρ : Rom) (l : Label) : ρ.image.sym l = ρ.sym l := rfl

/-- There are two options. -/
instance decidableForallOptions {p : Options → Prop}
    [∀ codeInHeader debugChecks, Decidable (p ⟨codeInHeader, debugChecks⟩)] :
    Decidable (∀ o, p o) :=
  decidable_of_iff (∀ codeInHeader debugChecks, p ⟨codeInHeader, debugChecks⟩)
    ⟨fun h ⟨codeInHeader, debugChecks⟩ => h codeInHeader debugChecks, fun h _ _ => h ⟨_, _⟩⟩

/-- The labels up to the end of the main loop, with their offsets. -/
def mainOffsets (codeInHeader : Bool) : List (Label × ℕ) :=
  if codeInHeader then
    [(.getkind, 0xa0), (.getbit, 0xa4), (.readbit, 0xa8), (.newword, 0xac), (.nonewword, 0xb8),
     (.loopCondition, 0xbc), (.zero, 0xd6), (.one, 0xdc), (.done, 0xe4), (.codeStart, 0xe8),
     (.init, 0x100), (.literal, 0x106), (.getlit, 0x108), (.switch, 0x11c), (.readlength, 0x12c),
     (.copyloop, 0x136), (.readoffset, 0x146), (.donedecompressing, 0x152)]
  else
    [(.getkind, 0xc0), (.getbit, 0xc4), (.readbit, 0xc8), (.newword, 0xcc), (.nonewword, 0xd6),
     (.loopCondition, 0xda), (.zero, 0xf2), (.one, 0xf8), (.done, 0x100), (.codeStart, 0x104),
     (.init, 0x11c), (.literal, 0x122), (.getlit, 0x124), (.switch, 0x138), (.readlength, 0x148),
     (.copyloop, 0x152), (.readoffset, 0x162), (.donedecompressing, 0x16e)]

/-- The labels after the main loop, with their offsets from its end. -/
def exitOffsets (debugChecks : Bool) : List (Label × ℕ) :=
  if debugChecks then
    [(.messageSize, 0x12), (.decompressedDataSizeOk, 0x30), (.adler32Loop, 0x3a), (.s1Ok, 0x44),
     (.s2Ok, 0x4c), (.messageChecksum, 0x62), (.checksumOk, 0x84), (.messageSp, 0x92),
     (.spOk, 0xac), (.getnumber, 0xb0), (.numberloop, 0xb6), (.bitsloop, 0xc6)]
  else
    [(.getnumber, 6), (.numberloop, 0xc), (.bitsloop, 0x1c)]

/-- Where the main loop ends. -/
def mainEnd (codeInHeader : Bool) : ℕ := if codeInHeader then 0x152 else 0x16e

/-- The labels of the depacker with their offsets. -/
def labelOffsets (o : Options) : List (Label × ℕ) :=
  mainOffsets o.codeInHeader ++
    (exitOffsets o.debugChecks).map fun p => (p.1, mainEnd o.codeInHeader + p.2)

/-- The offset of a label of the depacker. -/
def symOffset (o : Options) (l : Label) : ℕ := ((labelOffsets o).lookup l).getD 0

/-- Whether a label is in the table. -/
def isCodeLabel : Label → Bool
  | .getkind | .getbit | .readbit | .newword | .nonewword | .loopCondition | .zero | .one | .done
  | .codeStart | .init | .literal | .getlit | .switch | .readlength | .copyloop | .readoffset
  | .donedecompressing | .getnumber | .numberloop | .bitsloop => true
  | _ => false

theorem lookup_labelOffsets {l : Label} (h : isCodeLabel l = true) (o : Options) :
    (labelOffsets o).lookup l = some (symOffset o l) := by
  revert h o
  cases l <;> decide

section table

attribute [local simp] emitNintendoLogo emitRemainingHeader Stmt.size Instr.size Stmt.padding
  ofsGameTitle ofsFixedByte ofsDeviceType ofsGameVersion ofsComplement ofsReserved2
  nintendoLogo_length Shrinkler.program depacker header getbitCode startCode mainCode exitCode
  getnumberCode debugCheckDecompressedDataSize debugCheckDecompressedData debugCheckSpOnExit
  debugEmitPanicRoutine debugCallPanicRoutine asciz

set_option maxRecDepth 3000 in
theorem labelTable_depacker (c : Config) :
    labelTable (place 0 [] (depacker c)) = labelOffsets c.toOptions := by
  obtain ⟨⟨codeInHeader, debugChecks⟩, v, load, entry, size, checksum, compressed⟩ := c
  cases codeInHeader <;> cases debugChecks <;>
    simp [labelTable, place, labelOffsets, mainOffsets, exitOffsets, mainEnd]

set_option maxRecDepth 3000 in
theorem labelsDistinct_program (c : Config) : labelsDistinct (program c) = true := by
  obtain ⟨⟨codeInHeader, debugChecks⟩, v, load, entry, size, checksum, compressed⟩ := c
  cases codeInHeader <;> cases debugChecks <;> simp [labelsDistinct, defines]

set_option maxRecDepth 3000 in
theorem instrBytes_program (c : Config) : instrBytes (program c) ≤ 0x200 := by
  obtain ⟨⟨codeInHeader, debugChecks⟩, v, load, entry, size, checksum, compressed⟩ := c
  cases codeInHeader <;> cases debugChecks <;> simp [instrBytes]

end table

theorem symOffset_lt (o : Options) (l : Label) : symOffset o l < 0x400 := by
  revert o
  cases l <;> decide

variable (ρ : Rom)

theorem labelPlaced_program {l : Label} (h : isCodeLabel l = true) :
    labelPlaced l (place 0 [] (program ρ.config)) = symOffset ρ.config.toOptions l := by
  have htable := labelTable_depacker ρ.config
  rw [program, List.append_assoc, place_append]
  exact labelPlaced_eq_of_lookup (by rw [htable, lookup_labelOffsets h])

/-- **Every label of the depacker lies where the table says.** -/
theorem Rom.sym_eq {l : Label} (h : isCodeLabel l = true) :
    ρ.sym l = BitVec.ofNat 32 (romStart + symOffset ρ.config.toOptions l) := by
  show BitVec.ofNat 32 (romStart + labelPlaced l (place 0 [] (program ρ.config))) = _
  rw [labelPlaced_program ρ h]

theorem Rom.sym_toNat {l : Label} (h : isCodeLabel l = true) :
    (ρ.sym l).toNat = romStart + symOffset ρ.config.toOptions l := by
  have hlt := symOffset_lt ρ.config.toOptions l
  rw [ρ.sym_eq h, BitVec.toNat_ofNat, Nat.mod_eq_of_lt]
  simp only [romStart]
  omega

/-- The address `k` bytes after a label. -/
def Rom.addr (l : Label) (k : ℕ) : Word := ρ.sym l + BitVec.ofNat 32 k

@[simp] theorem Rom.addr_zero (l : Label) : ρ.addr l 0 = ρ.sym l := by
  simp [addr]

theorem Rom.addr_eq {l : Label} {k : ℕ} (h : isCodeLabel l = true) :
    ρ.addr l k = BitVec.ofNat 32 (romStart + (symOffset ρ.config.toOptions l + k)) := by
  rw [addr, ρ.sym_eq h, ← BitVec.ofNat_add, Nat.add_assoc]

theorem Rom.addr_toNat {l : Label} {k : ℕ} (h : isCodeLabel l = true) (hk : k < 0x400) :
    (ρ.addr l k).toNat = romStart + (symOffset ρ.config.toOptions l + k) := by
  have hlt := symOffset_lt ρ.config.toOptions l
  rw [ρ.addr_eq h, BitVec.toNat_ofNat, Nat.mod_eq_of_lt]
  simp only [romStart]
  omega

theorem Rom.addr_eq_iff {l l' : Label} {k k' : ℕ} (h : isCodeLabel l = true)
    (h' : isCodeLabel l' = true) (hk : k < 0x400) (hk' : k' < 0x400) :
    ρ.addr l k = ρ.addr l' k' ↔
      symOffset ρ.config.toOptions l + k = symOffset ρ.config.toOptions l' + k' := by
  rw [← BitVec.toNat_inj, ρ.addr_toNat h hk, ρ.addr_toNat h' hk']
  exact Nat.add_left_cancel_iff

/-- Places that differ in all layouts. -/
theorem Rom.addr_ne {l l' : Label} {k k' : ℕ} (h : isCodeLabel l = true)
    (h' : isCodeLabel l' = true) (hk : k < 0x400) (hk' : k' < 0x400)
    (hne : ∀ o, symOffset o l + k ≠ symOffset o l' + k') : ρ.addr l k ≠ ρ.addr l' k' := by
  rw [Ne, ρ.addr_eq_iff h h' hk hk']
  exact hne _

/-- One place has two names. -/
theorem Rom.addr_eq_addr {l l' : Label} {k k' : ℕ} (h : isCodeLabel l = true)
    (h' : isCodeLabel l' = true)
    (hk : symOffset ρ.config.toOptions l + k = symOffset ρ.config.toOptions l' + k') :
    ρ.addr l k = ρ.addr l' k' := by
  rw [ρ.addr_eq h, ρ.addr_eq h', hk]

/-- Clearing the low bit of a return address. -/
theorem Rom.addr_clear {l : Label} {k : ℕ} (hl : isCodeLabel l = true) (hk : k < 0x400)
    (heven : ∀ o, (symOffset o l + k) % 2 = 0) :
    (ρ.addr l k ||| 1#32) &&& ~~~1#32 = ρ.addr l k := by
  have heven := heven ρ.config.toOptions
  refine clear_low_bit ?_
  rw [ρ.addr_toNat hl hk, romStart]
  omega

/-! ## The instructions after a label -/

/-- The statements from `getkind` on. -/
def codeFromGetkind (c : Config) : List (Stmt Label) :=
  getbitCode c ++ startCode c ++ mainCode ++ exitCode c ++ getnumberCode

/-- The instructions after a label. -/
def Rom.code (l : Label) : List (Instr Label) := instrs (codeFrom l (codeFromGetkind ρ.config))

theorem defines_depacker {l : Label} (h : isCodeLabel l = true) :
    defines l (depacker ρ.config) = true := by
  rw [← List.append_nil (depacker ρ.config)]
  exact defines_of_lookup (by rw [labelTable_depacker ρ.config, lookup_labelOffsets h])

theorem defines_program {l : Label} (h : isCodeLabel l = true) :
    defines l (program ρ.config) = true := by
  rw [program, List.append_assoc, defines_append, defines_depacker ρ h, Bool.true_or]

theorem defines_header (c : Config) (l : Label) : defines l (header c) = false := by
  cases hc : c.codeInHeader <;>
    simp [header, hc, defines, emitNintendoLogo, emitRemainingHeader]

theorem depacker_eq (c : Config) : depacker c = header c ++ (codeFromGetkind c ++ [.align 2]) := by
  simp only [depacker, codeFromGetkind, List.append_assoc]

theorem defines_codeFromGetkind {l : Label} (h : isCodeLabel l = true) :
    defines l (codeFromGetkind ρ.config) = true := by
  have hdef := defines_depacker ρ h
  rw [depacker_eq, defines_append, defines_append, defines_header] at hdef
  simpa [defines] using hdef

theorem code_eq_program {l : Label} (h : isCodeLabel l = true) :
    instrs (codeFrom l (program ρ.config)) = ρ.code l := by
  rw [program, depacker_eq, List.append_assoc, List.append_assoc,
    codeFrom_append_of_not_defines (defines_header _ l), List.append_assoc,
    codeFrom_append (defines_codeFromGetkind ρ h), List.singleton_append, instrs_append_align,
    Rom.code]

/-- Only the part of the code that defines a label, and what follows it, matters. -/
theorem code_of_part (pre part post : List (Stmt Label)) {l : Label}
    (hsplit : codeFromGetkind ρ.config = pre ++ (part ++ post)) (hl : defines l part = true) :
    ρ.code l = instrs (codeFrom l part ++ post) := by
  have hdistinct := labelsDistinct_program ρ.config
  rw [program, depacker_eq, hsplit] at hdistinct
  simp only [List.append_assoc] at hdistinct
  rw [← List.append_assoc] at hdistinct
  have hpre : defines l (header ρ.config ++ pre) = false :=
    labelsDistinct_append hdistinct (by rw [defines_append, hl, Bool.true_or])
  rw [defines_append, Bool.or_eq_false_iff] at hpre
  rw [Rom.code, hsplit, codeFrom_append_of_not_defines hpre.2, codeFrom_append hl]

/-- The instructions after a label of `getbit`. -/
theorem code_of_getbit {l : Label} (hl : defines l (getbitCode ρ.config) = true) :
    ρ.code l = instrs (codeFrom l (getbitCode ρ.config) ++
      (startCode ρ.config ++ (mainCode ++ (exitCode ρ.config ++ getnumberCode)))) :=
  code_of_part ρ [] _ _ (by simp [codeFromGetkind]) hl

/-- The instructions after a label before the main loop. -/
theorem code_of_start {l : Label} (hl : defines l (startCode ρ.config) = true) :
    ρ.code l = instrs (codeFrom l (startCode ρ.config) ++
      (mainCode ++ (exitCode ρ.config ++ getnumberCode))) :=
  code_of_part ρ (getbitCode ρ.config) _ _ (by simp [codeFromGetkind]) hl

/-- The instructions after a label of the main loop. -/
theorem code_of_main {l : Label} (hl : defines l mainCode = true) :
    ρ.code l = instrs (codeFrom l mainCode ++ (exitCode ρ.config ++ getnumberCode)) :=
  code_of_part ρ (getbitCode ρ.config ++ startCode ρ.config) _ _ (by simp [codeFromGetkind]) hl

/-- The instructions after a label of the exit. -/
theorem code_of_exit {l : Label} (hl : defines l (exitCode ρ.config) = true) :
    ρ.code l = instrs (codeFrom l (exitCode ρ.config) ++ getnumberCode) :=
  code_of_part ρ (getbitCode ρ.config ++ startCode ρ.config ++ mainCode) _ _
    (by simp [codeFromGetkind]) hl

/-- The instructions after a label of `getnumber`. -/
theorem code_of_getnumber {l : Label} (hl : defines l getnumberCode = true) :
    ρ.code l = instrs (codeFrom l getnumberCode) := by
  rw [code_of_part ρ (getbitCode ρ.config ++ startCode ρ.config ++ mainCode ++ exitCode ρ.config) _
    [] (by simp [codeFromGetkind]) hl, List.append_nil]

/-- **The instructions after a label are those of the program.** -/
theorem Rom.fetchAt {l : Label} (h : isCodeLabel l = true) :
    FetchAt ρ.image (ρ.sym l) (ρ.code l) := by
  have hsize := codeSize_codeFrom_le l (program ρ.config)
  have hbytes := instrBytes_program ρ.config
  have hlt := symOffset_lt ρ.config.toOptions l
  rw [← code_eq_program ρ h]
  refine (codeAt_from romStart ρ.mulCarry ρ.swi (labelsDistinct_program ρ.config)
    (defines_program ρ h) ?_).fetchAt
  rw [labelPlaced_program ρ h]
  simp only [romStart]
  omega

/-- The `m` instructions from the `n`-th after a label on. -/
theorem Rom.fetchAt_take_drop {l : Label} (h : isCodeLabel l = true) (n m : ℕ) :
    FetchAt ρ.image (ρ.addr l (bytesOf ((ρ.code l).take n))) (((ρ.code l).drop n).take m) :=
  ((ρ.fetchAt h).drop n).take m

/-- The compressed program is word aligned. -/
theorem Rom.packedIntro_aligned : (ρ.sym .packedIntro).toNat % 4 = 0 := by
  obtain ⟨rest, hrest⟩ : ∃ rest, program ρ.config =
      depacker ρ.config ++ .label .packedIntro :: rest := by
    refine ⟨.bytes ρ.config.compressedProgram :: debugEmitPanicRoutine ρ.config, ?_⟩
    simp only [program, List.append_assoc, List.cons_append, List.nil_append]
  have hnot : defines .packedIntro (depacker ρ.config) = false :=
    labelsDistinct_append (hrest ▸ labelsDistinct_program ρ.config) (by simp [defines])
  have hplaced : labelPlaced .packedIntro (place 0 [] (program ρ.config)) =
      locate 0 [] (depacker ρ.config) := by
    rw [hrest, place_append, labelPlaced_append hnot]
    simp [place, labelPlaced]
  have hmod : locate 0 [] (depacker ρ.config) % 4 = 0 := locate_align_mod 0 [] _ 2
  have hsym : ρ.sym .packedIntro =
      BitVec.ofNat 32 (romStart + labelPlaced .packedIntro (place 0 [] (program ρ.config))) := rfl
  rw [hsym, hplaced, BitVec.toNat_ofNat]
  simp only [romStart]
  omega

/-! ## Regions and blocks -/

/-- The regions of the depacker's code. Each has its own position of the stack pointer. -/
inductive Region
  | getkind | getbit | start | main | exit | getnumber
  deriving DecidableEq

/-- Where a region begins: that of a subroutine after its `push`, that of the exit after `sp` is
restored. -/
def Region.lo (o : Options) : Region → ℕ
  | .getkind => symOffset o .getkind
  | .getbit => symOffset o .getbit + 2
  | .start => symOffset o .codeStart
  | .main => symOffset o .literal
  | .exit => symOffset o .donedecompressing + 2
  | .getnumber => symOffset o .getnumber + 2

/-- Where a region ends. -/
def Region.hi (o : Options) : Region → ℕ
  | .getkind => symOffset o .getbit
  | .getbit => symOffset o .codeStart
  | .start => symOffset o .literal
  | .main => symOffset o .donedecompressing + 2
  | .exit => symOffset o .getnumber
  | .getnumber => symOffset o .bitsloop + 16

theorem Region.hi_lt (R : Region) (o : Options) : R.hi o < 0x400 := by
  revert o
  cases R <;> decide

/-- Control is inside a region, between two places where something can be observed. -/
def Rom.Within (R : Region) (x : Word) (s : Cpu) : Prop :=
  Quiet ρ.image x (romStart + R.lo ρ.config.toOptions) (romStart + R.hi ρ.config.toOptions) s

/-- Instructions lie at an address; all but the first are quiet and lie in a region. -/
structure Rom.Block (R : Region) (a : Word) (is : List (Instr Label)) : Prop where
  /-- The instructions lie there. -/
  fetch : FetchAt ρ.image a is
  /-- All but the first lie after the region's begin. -/
  lo_le : ∀ i ∈ is.head?, romStart + R.lo ρ.config.toOptions ≤ a.toNat + i.size
  /-- They lie before the region's end. -/
  le_hi : a.toNat + bytesOf is ≤ romStart + R.hi ρ.config.toOptions
  /-- The first stays in Thumb state. -/
  first : ∀ i ∈ is.head?, i.staysThumb = true
  /-- All but the first are quiet. -/
  quiet : ∀ i ∈ is.tail, i.quiet = true

variable {ρ}

/-- The run leads from one state to another with control within a region. -/
def Rom.Leads (ρ : Rom) (R : Region) (x : Word) (s t : Cpu) : Prop :=
  ∃ k, Segment (stepToBx ρ.image) (ρ.Within R x) k s t

theorem Rom.Leads.trans {R : Region} {x : Word} {s u t : Cpu} (h₁ : ρ.Leads R x s u)
    (hu : ρ.Within R x u) (h₂ : ρ.Leads R x u t) : ρ.Leads R x s t := by
  obtain ⟨_, h₁⟩ := h₁
  obtain ⟨_, h₂⟩ := h₂
  exact ⟨_, h₁.trans hu h₂⟩

/-- **A block that is executed to its end leads there.** -/
theorem Rom.Block.leads {R : Region} {a : Word} {i : Instr Label} {is : List (Instr Label)}
    (hb : ρ.Block R a (i :: is)) {s t : Cpu} (hpc : s.pc = a) (ht : s.thumb = true) {x : Word}
    (h : execs ρ.image (i :: is) s = some t) (hx : t.sp = x) : ρ.Leads R x s t := by
  have hhi := R.hi_lt ρ.config.toOptions
  have hwrap : romStart + R.hi ρ.config.toOptions ≤ 2 ^ 32 := by
    simp only [romStart]
    omega
  subst hpc hx
  exact ⟨_, segment_execs hb.fetch ht (hb.first i rfl) hb.quiet (hb.lo_le i rfl) hb.le_hi hwrap h⟩

/-- A block is executed to its end. -/
structure Rom.Executes (ρ : Rom) (R : Region) (is : List (Instr Label)) (s t : Cpu) : Prop where
  /-- The block is where control is. -/
  block : ρ.Block R s.pc is
  /-- There is something to execute. -/
  nonempty : is ≠ []
  /-- Thumb state. -/
  thumb : s.thumb = true
  /-- The end of the block is reached. -/
  execs : execs ρ.image is s = some t

theorem Rom.Executes.leads {R : Region} {is : List (Instr Label)} {s t : Cpu} {x : Word}
    (h : ρ.Executes R is s t) (hx : t.sp = x) : ρ.Leads R x s t := by
  cases is with
  | nil => exact absurd rfl h.nonempty
  | cons i is => exact h.block.leads rfl h.thumb h.execs hx

theorem Rom.Block.executes {R : Region} {a : Word} {is : List (Instr Label)} (hb : ρ.Block R a is)
    {s t : Cpu} (hpc : s.pc = a) (ht : s.thumb = true) (hne : is ≠ [])
    (h : Thumb.execs ρ.image is s = some t) : ρ.Executes R is s t :=
  ⟨hpc ▸ hb, hne, ht, h⟩

/-- A block that is executed to its end is a segment of the run of any machine that executes its
instructions. -/
theorem Rom.Executes.segment {R : Region} {is : List (Instr Label)} {s t : Cpu}
    (h : ρ.Executes R is s t) {f : Cpu → Option Cpu} {P : Cpu → Prop}
    (hf : ∀ j ∈ is, ∀ u : Cpu, ρ.image.fetch u.pc = some j → step ρ.image u = exec ρ.image u j →
      f u = exec ρ.image u j)
    (hP : ∀ j ∈ is.tail, ∀ u : Cpu, ρ.image.fetch u.pc = some j → P u) :
    ∃ n, Segment f P n s t := by
  obtain ⟨hblock, hne, hthumb, hexecs⟩ := h
  obtain ⟨i, is, rfl⟩ := List.exists_cons_of_ne_nil hne
  have hstays : ∀ j ∈ i :: is, j.staysThumb = true := by
    rintro j (_ | ⟨_, hj⟩)
    · exact hblock.first i rfl
    · exact Instr.staysThumb_of_quiet (hblock.quiet j hj)
  exact ⟨_, segment_of_execs hblock.fetch hthumb hstays
    (fun j hj u hu ht =>
      hf j hj u hu (step_of_fetch hu (Instr.isArm_of_staysThumb (hstays j hj)) ht)) hP hexecs⟩

/-- Run to the end of a call. -/
def stepInCall (ρ : Rom) (s : Cpu) : Option Cpu :=
  match ρ.image.fetch s.pc with
  | some (.popPc _) => none
  | _ => step ρ.image s

theorem stepInCall_of_fetch {s : Cpu} {i : Instr Label} (hi : ρ.image.fetch s.pc = some i)
    (hpop : ∀ rs, i ≠ .popPc rs) : stepInCall ρ s = step ρ.image s := by
  rw [stepInCall, hi]
  split
  · rename_i rs heq
    exact absurd (Option.some.inj heq) (hpop rs)
  · rfl

theorem Rom.lo_le_addr {R : Region} {l : Label} {k : ℕ} (hl : isCodeLabel l = true)
    (hk : k < 0x400)
    (h : ∀ o, R.lo o ≤ symOffset o l + k) :
    romStart + R.lo ρ.config.toOptions ≤ (ρ.addr l k).toNat := by
  have h := h ρ.config.toOptions
  rw [ρ.addr_toNat hl hk]
  omega

/-- A single instruction is a step. -/
theorem Rom.Block.step {R : Region} {a : Word} {i : Instr Label} (hb : ρ.Block R a [i])
    {s t : Cpu} (hpc : s.pc = a) (ht : s.thumb = true) (h : exec ρ.image s i = some t) :
    stepToBx ρ.image s = some t := by
  subst hpc
  rw [stepToBx_eq_exec hb.fetch.1 (hb.first i rfl) ht, h]

/-- Nothing lies inside a single step. -/
theorem Rom.leads_of_step {R : Region} {s t : Cpu} {x : Word} (h : stepToBx ρ.image s = some t) :
    ρ.Leads R x s t := ⟨0, .last h⟩

/-- The first state of a block inside its region is within the region. -/
theorem Rom.Block.within {R : Region} {a : Word} {i : Instr Label} {is : List (Instr Label)}
    (hb : ρ.Block R a (i :: is)) (hlo : romStart + R.lo ρ.config.toOptions ≤ a.toNat)
    (hi : i.quiet = true) {x : Word} {s : Cpu} (hpc : s.pc = a) (ht : s.thumb = true)
    (hx : s.sp = x) : ρ.Within R x s := by
  subst hpc hx
  have hpos := i.size_pos
  have hhi := hb.le_hi
  simp only [bytesOf_cons] at hhi
  exact ⟨rfl, ht, hlo, by omega, i, hb.fetch.1, hi⟩

/-- A block may be left early. -/
theorem Rom.Block.take {R : Region} {a : Word} {i : Instr Label} {is : List (Instr Label)}
    (hb : ρ.Block R a (i :: is)) (n : ℕ) : ρ.Block R a (i :: is.take n) := by
  have hle : bytesOf (i :: is.take n) ≤ bytesOf (i :: is) := bytesOf_take_le (n + 1) (i :: is)
  exact ⟨hb.fetch.take (n + 1), hb.lo_le, Nat.le_trans (Nat.add_le_add_left hle _) hb.le_hi,
    hb.first, fun j hj => hb.quiet j (List.mem_of_mem_take hj)⟩

variable (ρ)

/-- A block after a label of the depacker. -/
theorem Rom.block_of {R : Region} {l : Label} (hl : isCodeLabel l = true) (n k : ℕ)
    {is : List (Instr Label)} (hcode : ((ρ.code l).drop n).take is.length = is)
    (hk : bytesOf ((ρ.code l).take n) = k)
    (hlo : ∀ o : Options, o.codeInHeader = ρ.config.codeInHeader →
      ∀ i ∈ is.head?, R.lo o ≤ symOffset o l + k + i.size)
    (hhi : ∀ o : Options, o.codeInHeader = ρ.config.codeInHeader →
      symOffset o l + k + bytesOf is ≤ R.hi o)
    (hfirst : ∀ i ∈ is.head?, i.staysThumb = true) (hquiet : ∀ i ∈ is.tail, i.quiet = true) :
    ρ.Block R (ρ.addr l k) is := by
  have hlo := hlo ρ.config.toOptions rfl
  have hhi := hhi ρ.config.toOptions rfl
  have hk' : k < 0x400 := by
    have hlt := R.hi_lt ρ.config.toOptions
    omega
  refine ⟨?_, fun i hi => ?_, ?_, hfirst, hquiet⟩
  · have h := ρ.fetchAt_take_drop hl n is.length
    rwa [hcode, hk] at h
  · rw [ρ.addr_toNat hl hk']
    have := hlo i hi
    omega
  · rw [ρ.addr_toNat hl hk']
    omega

/-- A block that lies alike in all layouts. -/
theorem Rom.block_at {R : Region} {l : Label} (hl : isCodeLabel l = true) (n k : ℕ)
    {is : List (Instr Label)} (hcode : ((ρ.code l).drop n).take is.length = is)
    (hk : bytesOf ((ρ.code l).take n) = k)
    (hlo : ∀ o : Options, ∀ i ∈ is.head?, R.lo o ≤ symOffset o l + k + i.size)
    (hhi : ∀ o : Options, symOffset o l + k + bytesOf is ≤ R.hi o)
    (hfirst : ∀ i ∈ is.head?, i.staysThumb = true) (hquiet : ∀ i ∈ is.tail, i.quiet = true) :
    ρ.Block R (ρ.addr l k) is :=
  ρ.block_of hl n k hcode hk (fun o _ => hlo o) (fun o _ => hhi o) hfirst hquiet

end ShrinklerGba.Shrinkler
