import ShrinklerGba.Adler32
import ShrinklerGba.Shrinkler.ExitCode

/-!
# The debug checks

What the code between `donedecompressing` and the jump to the decompressed program does when it
checks the decompressed data.

* `DebugRom` is a configuration with debug checks and what surrounds the machine.
* `ChecksHold` is what the checks are for: the right number of bytes, the right checksum, the
  initial stack pointer.
* **`debugChecks_verdict`**: from any state the code ends, at the load of the entry address if the
  checks hold and at `panic` if they do not.
-/

namespace ShrinklerGba.Shrinkler

open Thumb Transition

/-- A ROM with debug checks. -/
structure DebugRom extends Rom where
  /-- There are debug checks. -/
  debug : config.debugChecks = true

/-! ## The instructions of the checks -/

variable (ρ : DebugRom)

/-- The check of the size. -/
def sizeCheck (c : Config) : List (Instr Label) :=
  [.movHigh .sp savedSp, .ldrLit tmp1 c.loadAddress, .subReg outp outp tmp1,
   .ldrLit tmp1 c.loadedDataSize, .cmpReg outp tmp1, .bc .eq .decompressedDataSizeOk,
   .adr .r2 .messageSize, .bl .panic]

/-- What comes before the checksum's loop. -/
def loopStart (c : Config) : List (Instr Label) :=
  [.ldrLit .r5 65521, .ldrLit .r0 c.loadAddress, .movImm .r1 1, .movImm .r2 0,
   .ldrLit .r3 c.loadedDataSize]

/-- A byte is added to the first sum. -/
def addByte : List (Instr Label) :=
  [.ldrb .r4 .r0 0, .addReg .r1 .r1 .r4, .cmpReg .r1 .r5, .bc .cc .s1Ok, .subReg .r1 .r1 .r5]

/-- The first sum is added to the second. -/
def addSum : List (Instr Label) :=
  [.addReg .r2 .r2 .r1, .cmpReg .r2 .r5, .bc .cc .s2Ok, .subReg .r2 .r2 .r5]

/-- The checksum is put together. -/
def combine (c : Config) : List (Instr Label) :=
  [.lsl .r2 .r2 16, .orr .r1 .r2, .ldrLit .r6 c.checksum]

/-- The check of the checksum. -/
def checksumCheck : List (Instr Label) :=
  [.cmpReg .r1 .r6, .bc .eq .checksumOk, .adr .r2 .messageChecksum, .bl .panic]

/-- The check of the stack pointer. -/
def spCheck : List (Instr Label) :=
  [.ldrLit .r0 initialSp, .cmpHigh .r0 .sp, .bc .eq .spOk, .adr .r2 .messageSp, .bl .panic]

/-- The end of the loop, and the check of the checksum. -/
def loopEnd (c : Config) : List (Instr Label) :=
  [.addImm .r0 1, .subImm .r3 1, .bc .ne .adler32Loop] ++ combine c ++ checksumCheck

section fetch

attribute [local simp] exitCode debugCheckDecompressedDataSize debugCheckDecompressedData
  debugCheckSpOnExit debugCallPanicRoutine codeFrom instrs DebugRom.debug Rom.sym

theorem fetchAt_sizeCheck :
    FetchAt ρ.image (ρ.image.sym .donedecompressing) (sizeCheck ρ.config) := by
  simpa [sizeCheck] using (ρ.codeAt_check ρ.debug (l := .donedecompressing) rfl).fetchAt

theorem fetchAt_spCheck : FetchAt ρ.image (ρ.image.sym .checksumOk) spCheck := by
  simpa [spCheck] using (ρ.codeAt_check ρ.debug (l := .checksumOk) rfl).fetchAt

theorem fetchAt_spOk : ρ.image.fetch (ρ.image.sym .spOk) = some (.ldrLit outp ρ.config.entry) := by
  have h : FetchAt ρ.image (ρ.image.sym .spOk) [.ldrLit outp ρ.config.entry, .bx outp] := by
    simpa using (ρ.codeAt_check ρ.debug (l := .spOk) rfl).fetchAt
  exact h.1

/-- The instructions of the loop, and the labels between them. -/
theorem loop_layout :
    (FetchAt ρ.image (ρ.image.sym .decompressedDataSizeOk) (loopStart ρ.config) ∧
      ρ.image.sym .adler32Loop = ρ.image.sym .decompressedDataSizeOk + 10) ∧
    (FetchAt ρ.image (ρ.image.sym .adler32Loop) addByte ∧
      ρ.image.sym .s1Ok = ρ.image.sym .adler32Loop + 10) ∧
    (FetchAt ρ.image (ρ.image.sym .s1Ok) addSum ∧
      ρ.image.sym .s2Ok = ρ.image.sym .s1Ok + 8) ∧
    FetchAt ρ.image (ρ.image.sym .s2Ok) (loopEnd ρ.config) := by
  have h := ρ.codeAt_check ρ.debug (l := .decompressedDataSizeOk) rfl
  obtain ⟨rest, hrest⟩ : ∃ rest, codeFrom .decompressedDataSizeOk (exitCode ρ.config) =
      (loopStart ρ.config).map .instr ++ .label .adler32Loop ::
        (addByte.map .instr ++ .label .s1Ok :: (addSum.map .instr ++ .label .s2Ok ::
          ((loopEnd ρ.config).map .instr ++ .align 2 :: rest))) :=
    ⟨_, by simp [loopStart, addByte, addSum, loopEnd, combine, checksumCheck]; rfl⟩
  rw [hrest] at h
  obtain ⟨hstart, hloop, h⟩ := h.upTo
  obtain ⟨hbyte, hs1, h⟩ := h.upTo
  obtain ⟨hsum, hs2, h⟩ := h.upTo
  refine ⟨⟨hstart, hloop⟩, ⟨hbyte, hs1⟩, ⟨hsum, hs2⟩, ?_⟩
  simpa [loopEnd, combine, checksumCheck] using h.fetchAt

theorem fetchAt_checksumCheck :
    FetchAt ρ.image (ρ.image.sym .s2Ok + 12) checksumCheck := (loop_layout ρ).2.2.2.drop 6

end fetch

/-! ## Verdicts -/

/-- The entry address is loaded next. -/
def AtEntryLoad (s : Cpu) : Prop :=
  s.pc = ρ.image.sym .spOk ∧ ρ.image.fetch s.pc = some (.ldrLit outp ρ.config.entry)

/-- The panic routine is called next. -/
def AtPanicCall (s : Cpu) : Prop :=
  ρ.image.fetch s.pc = some (.bl .panic) ∧
    ∃ t, step ρ.image s = some t ∧ t.pc = ρ.image.sym .panic

/-- Whether an instruction is a verdict. -/
def isVerdict : Instr Label → Bool
  | .bl .panic | .ldrLit .r1 _ => true
  | _ => false

/-- There is no verdict yet. -/
def Undecided (s : Cpu) : Prop := ∀ i, ρ.image.fetch s.pc = some i → isVerdict i = false

variable {ρ} {s : Cpu}

/-- A block without a verdict is passed. -/
theorem passes_block {i : Instr Label} {is : List (Instr Label)} {s t : Cpu}
    (hf : FetchAt ρ.image s.pc (i :: is)) (ht : s.thumb = true)
    (hstays : ∀ j ∈ i :: is, j.staysThumb = true) (hno : ∀ j ∈ i :: is, isVerdict j = false)
    (h : execs ρ.image (i :: is) s = some t) : Passes (step ρ.image) (Undecided ρ) s t := by
  refine passes_execs hf ht hstays (fun j hj u hu k hk => ?_) h
  rw [hu] at hk
  cases hk
  exact hno j hj

section passes

attribute [local irreducible] Rom.image

attribute [local simp] execs exec Cpu.reg Cpu.set Cpu.setNZ Cpu.setFlags Cpu.next Cpu.holds
  Instr.size

theorem atPanicCall (hf : ρ.image.fetch s.pc = some (.bl .panic)) (ht : s.thumb = true) :
    AtPanicCall ρ s := by
  refine ⟨hf, { s with lr := (s.pc + 4) ||| 1, pc := ρ.image.sym .panic }, ?_, rfl⟩
  rw [step_of_fetch hf rfl ht]
  rfl

/-- A failed check calls the panic routine. -/
theorem passes_panic {ok msg : Label}
    (hf : FetchAt ρ.image s.pc [.bc .eq ok, .adr .r2 msg, .bl .panic]) (ht : s.thumb = true)
    (hz : s.z = false) :
    ∃ t, Passes (step ρ.image) (Undecided ρ) s t ∧ AtPanicCall ρ t := by
  have hcall : ρ.image.fetch (s.pc + 2 + 2) = some (.bl .panic) := hf.2.2.1
  exact ⟨{ s with pc := s.pc + 2 + 2, r2 := ρ.image.sym msg },
    passes_block (hf.take 2) ht (by simp [Instr.staysThumb]) (by simp [isVerdict])
      (by simp [hz]), atPanicCall hcall ht⟩

/-- A check that holds goes on. -/
theorem passes_ok {ok : Label} (hf : FetchAt ρ.image s.pc [.bc .eq ok]) (ht : s.thumb = true)
    (hz : s.z = true) :
    Passes (step ρ.image) (Undecided ρ) s { s with pc := ρ.image.sym ok } :=
  passes_block hf ht (by simp [Instr.staysThumb]) (by simp [isVerdict]) (by simp [hz])

/-- **A check goes on exactly when it holds.** -/
theorem passes_verdict {ok msg : Label}
    (hf : FetchAt ρ.image s.pc [.bc .eq ok, .adr .r2 msg, .bl .panic]) (ht : s.thumb = true)
    {x y : Word} (hz : s.z = (x - y == 0)) :
    (x = y ∧ Passes (step ρ.image) (Undecided ρ) s { s with pc := ρ.image.sym ok }) ∨
      (x ≠ y ∧ ∃ t, Passes (step ρ.image) (Undecided ρ) s t ∧ AtPanicCall ρ t) := by
  by_cases hxy : x = y
  · refine .inl ⟨hxy, passes_ok (hf.take 1) ht ?_⟩
    simp [hz, hxy]
  · refine .inr ⟨hxy, passes_panic hf ht ?_⟩
    have hne : x - y ≠ 0 := fun h => hxy (by bv_omega)
    simpa [hz] using hne

theorem passes_sizeCheck (ht : s.thumb = true) (hpc : s.pc = ρ.image.sym .donedecompressing) :
    ∃ n c v, Passes (step ρ.image) (Undecided ρ) s
      { s with sp := s.r9
               r1 := s.r1 - ρ.config.loadAddress
               r3 := ρ.config.loadedDataSize
               pc := ρ.image.sym .donedecompressing + 10
               n := n
               z := s.r1 - ρ.config.loadAddress - ρ.config.loadedDataSize == 0
               c := c, v := v } := by
  have hf := (fetchAt_sizeCheck ρ).take 5
  rw [← hpc] at hf
  exact ⟨(s.r1 - ρ.config.loadAddress - ρ.config.loadedDataSize).msb,
    carrySub (s.r1 - ρ.config.loadAddress) ρ.config.loadedDataSize,
    overflowSub (s.r1 - ρ.config.loadAddress) ρ.config.loadedDataSize,
    passes_block hf ht (by simp [Instr.staysThumb]) (by simp [isVerdict])
      (by simp [hpc, BitVec.add_assoc])⟩

theorem passes_loopStart (ht : s.thumb = true)
    (hpc : s.pc = ρ.image.sym .decompressedDataSizeOk) :
    ∃ n z, Passes (step ρ.image) (Undecided ρ) s
      { s with r0 := ρ.config.loadAddress, r1 := 1, r2 := 0, r3 := ρ.config.loadedDataSize
               r5 := 65521, pc := ρ.image.sym .adler32Loop, n := n, z := z } := by
  obtain ⟨⟨hf, hnext⟩, -⟩ := loop_layout ρ
  rw [← hpc] at hf
  exact ⟨false, true, passes_block hf ht (by simp [Instr.staysThumb]) (by simp [isVerdict])
    (by simp [hpc, hnext, BitVec.add_assoc])⟩

theorem passes_addByte (ht : s.thumb = true) (hpc : s.pc = ρ.image.sym .adler32Loop)
    {x y : Word} (hx : s.r1 + (s.mem s.r0).setWidth 32 = x)
    (hy : (if carrySub x s.r5 then x - s.r5 else x) = y) :
    ∃ n z c v, Passes (step ρ.image) (Undecided ρ) s
      { s with r1 := y, r4 := (s.mem s.r0).setWidth 32, pc := ρ.image.sym .s1Ok
               n := n, z := z, c := c, v := v } := by
  obtain ⟨-, ⟨hf, hnext⟩, -⟩ := loop_layout ρ
  rw [← hpc] at hf hnext
  subst hx hy
  by_cases hc : carrySub (s.r1 + (s.mem s.r0).setWidth 32) s.r5 = true
  · refine ⟨_, _, _, _, passes_block hf ht (by simp [Instr.staysThumb]) (by simp [isVerdict])
      (by simp [hc, hnext, BitVec.add_assoc]; exact ⟨rfl, rfl, rfl, rfl⟩)⟩
  · refine ⟨_, _, _, _, passes_block (hf.take 4) ht (by simp [Instr.staysThumb])
      (by simp [isVerdict]) (by simp [hc, hnext, BitVec.add_assoc]; exact ⟨rfl, rfl, rfl, rfl⟩)⟩

theorem passes_addSum (ht : s.thumb = true) (hpc : s.pc = ρ.image.sym .s1Ok) {x y : Word}
    (hx : s.r2 + s.r1 = x) (hy : (if carrySub x s.r5 then x - s.r5 else x) = y) :
    ∃ n z c v, Passes (step ρ.image) (Undecided ρ) s
      { s with r2 := y, pc := ρ.image.sym .s2Ok, n := n, z := z, c := c, v := v } := by
  obtain ⟨-, -, ⟨hf, hnext⟩, -⟩ := loop_layout ρ
  rw [← hpc] at hf hnext
  subst hx hy
  by_cases hc : carrySub (s.r2 + s.r1) s.r5 = true
  · refine ⟨_, _, _, _, passes_block hf ht (by simp [Instr.staysThumb]) (by simp [isVerdict])
      (by simp [hc, hnext, BitVec.add_assoc]; exact ⟨rfl, rfl, rfl, rfl⟩)⟩
  · refine ⟨_, _, _, _, passes_block (hf.take 3) ht (by simp [Instr.staysThumb])
      (by simp [isVerdict]) (by simp [hc, hnext, BitVec.add_assoc]; exact ⟨rfl, rfl, rfl, rfl⟩)⟩

/-- The end of an iteration: back to the loop, or on. -/
theorem passes_nextByte (ht : s.thumb = true) (hpc : s.pc = ρ.image.sym .s2Ok) :
    ∃ n z c v, Passes (step ρ.image) (Undecided ρ) s
      { s with r0 := s.r0 + 1
               r3 := s.r3 - 1
               pc := if s.r3 - 1 = 0 then ρ.image.sym .s2Ok + 6 else ρ.image.sym .adler32Loop
               n := n, z := z, c := c, v := v } := by
  obtain ⟨-, -, -, hf⟩ := loop_layout ρ
  rw [← hpc] at hf ⊢
  refine ⟨(s.r3 - 1).msb, s.r3 - 1 == 0, carrySub s.r3 1, overflowSub s.r3 1,
    passes_block (hf.take 3) ht (by simp [Instr.staysThumb]) (by simp [isVerdict]) ?_⟩
  simp [BitVec.add_assoc]

theorem passes_combine (ht : s.thumb = true) (hpc : s.pc = ρ.image.sym .s2Ok + 6) :
    ∃ n z c, Passes (step ρ.image) (Undecided ρ) s
      { s with r1 := s.r1 ||| s.r2 <<< 16
               r2 := s.r2 <<< 16
               r6 := ρ.config.checksum
               pc := ρ.image.sym .s2Ok + 12, n := n, z := z, c := c } := by
  obtain ⟨-, -, -, hf⟩ := loop_layout ρ
  have hf' := (hf.drop 3).take 3
  have hbytes : BitVec.ofNat 32 (bytesOf ((loopEnd ρ.config).take 3)) = 6 := rfl
  rw [hbytes, ← hpc] at hf'
  exact ⟨_, _, _, passes_block hf' ht (by simp [Instr.staysThumb]) (by simp [isVerdict])
    (by simp [hpc, BitVec.add_assoc]; exact ⟨rfl, rfl, rfl⟩)⟩

theorem passes_compare (ht : s.thumb = true) (hpc : s.pc = ρ.image.sym .s2Ok + 12) :
    ∃ n c v, Passes (step ρ.image) (Undecided ρ) s
      { s with pc := ρ.image.sym .s2Ok + 14, n := n, z := s.r1 - s.r6 == 0, c := c, v := v } := by
  have hf := (fetchAt_checksumCheck ρ).take 1
  rw [← hpc] at hf
  exact ⟨_, _, _, passes_block hf ht (by simp [Instr.staysThumb]) (by simp [isVerdict])
    (by simp [hpc, BitVec.add_assoc]; exact ⟨rfl, rfl, rfl⟩)⟩

theorem passes_spCheck (ht : s.thumb = true) (hpc : s.pc = ρ.image.sym .checksumOk) :
    ∃ n c v, Passes (step ρ.image) (Undecided ρ) s
      { s with r0 := initialSp
               pc := ρ.image.sym .checksumOk + 4
               n := n, z := initialSp - s.sp == 0, c := c, v := v } := by
  have hf := (fetchAt_spCheck ρ).take 2
  rw [← hpc] at hf
  exact ⟨_, _, _, passes_block hf ht (by simp [Instr.staysThumb]) (by simp [isVerdict])
    (by simp [hpc, BitVec.add_assoc]; exact ⟨rfl, rfl, rfl⟩)⟩

end passes

/-! ## The loop computes the checksum -/

/-- One conditional subtraction is the remainder. -/
theorem sub_eq_umod {x : Word} (h : x.toNat < 2 * 65521) :
    (if carrySub x 65521 then x - 65521 else x) = x % 65521 := by
  have hbase : (65521 : Word).toNat = 65521 := rfl
  apply BitVec.eq_of_toNat_eq
  simp only [carrySub, decide_eq_true_eq, BitVec.toNat_umod, hbase]
  split
  · rw [BitVec.toNat_sub, hbase]
    omega
  · omega

/-- **One iteration is one iteration of `adler32`.** -/
theorem passes_iteration (ht : s.thumb = true) (hpc : s.pc = ρ.image.sym .adler32Loop)
    (hbase : s.r5 = 65521) (hred : Reduced (s.r1, s.r2)) :
    ∃ x n z c v, Passes (step ρ.image) (Undecided ρ) s
      { s with r0 := s.r0 + 1
               r1 := (adler32Step (s.r1, s.r2) (s.mem s.r0)).1
               r2 := (adler32Step (s.r1, s.r2) (s.mem s.r0)).2
               r3 := s.r3 - 1
               r4 := x
               pc := if s.r3 - 1 = 0 then ρ.image.sym .s2Ok + 6 else ρ.image.sym .adler32Loop
               n := n, z := z, c := c, v := v } := by
  have h₁ : s.r1.toNat < 65521 := hred.fst_lt
  have h₂ : s.r2.toNat < 65521 := hred.snd_lt
  have hbyte := (s.mem s.r0).isLt
  -- Both sums stay below twice the base before they are reduced.
  have hfst : (s.r1 + (s.mem s.r0).setWidth 32).toNat < 2 * 65521 := by
    rw [BitVec.toNat_add, BitVec.toNat_setWidth]
    omega
  have hstep : (adler32Step (s.r1, s.r2) (s.mem s.r0)).1.toNat < 65521 :=
    (hred.next (s.mem s.r0)).fst_lt
  have hsnd : (s.r2 + (adler32Step (s.r1, s.r2) (s.mem s.r0)).1).toNat < 2 * 65521 := by
    rw [BitVec.toNat_add]
    omega
  obtain ⟨n₁, z₁, c₁, v₁, hadd⟩ := passes_addByte ht hpc rfl
    (y := (adler32Step (s.r1, s.r2) (s.mem s.r0)).1) (by rw [hbase]; exact sub_eq_umod hfst)
  obtain ⟨n₂, z₂, c₂, v₂, hsum⟩ := passes_addSum (ρ := ρ) (s := { s with
      r1 := (adler32Step (s.r1, s.r2) (s.mem s.r0)).1
      r4 := (s.mem s.r0).setWidth 32
      pc := ρ.image.sym .s1Ok, n := n₁, z := z₁, c := c₁, v := v₁ }) ht rfl rfl
    (y := (adler32Step (s.r1, s.r2) (s.mem s.r0)).2)
    (by simp only [hbase]; exact sub_eq_umod hsnd)
  obtain ⟨n₃, z₃, c₃, v₃, hnext⟩ := passes_nextByte (ρ := ρ) (s := { s with
      r1 := (adler32Step (s.r1, s.r2) (s.mem s.r0)).1
      r2 := (adler32Step (s.r1, s.r2) (s.mem s.r0)).2
      r4 := (s.mem s.r0).setWidth 32
      pc := ρ.image.sym .s2Ok, n := n₂, z := z₂, c := c₂, v := v₂ }) ht rfl
  exact ⟨_, n₃, z₃, c₃, v₃, hadd.trans (hsum.trans hnext)⟩

/-- **The loop ends, with the sums of the bytes.** -/
theorem passes_loop {k : ℕ} (hk : k + 1 < 2 ^ 32) (ht : s.thumb = true)
    (hpc : s.pc = ρ.image.sym .adler32Loop) (hbase : s.r5 = 65521)
    (hcount : s.r3 = BitVec.ofNat 32 (k + 1)) (hred : Reduced (s.r1, s.r2)) :
    ∃ t, Passes (step ρ.image) (Undecided ρ) s t ∧ t.thumb = true ∧
      t.pc = ρ.image.sym .s2Ok + 6 ∧ t.sp = s.sp ∧
      (t.r1, t.r2) = (loadBytes s.mem s.r0 (k + 1)).foldl adler32Step (s.r1, s.r2) := by
  induction k generalizing s with
  | zero =>
      obtain ⟨x, n, z, c, v, hpass⟩ := passes_iteration ht hpc hbase hred
      have hlast : s.r3 - 1 = 0 := by rw [hcount]; rfl
      rw [if_pos hlast] at hpass
      exact ⟨_, hpass, ht, rfl, rfl, rfl⟩
  | succ k ih =>
      obtain ⟨x, n, z, c, v, hpass⟩ := passes_iteration ht hpc hbase hred
      have hmore : s.r3 - 1 = BitVec.ofNat 32 (k + 1) := by
        rw [hcount]
        bv_omega
      have hne : BitVec.ofNat 32 (k + 1) ≠ 0 := by bv_omega
      rw [hmore, if_neg hne] at hpass
      obtain ⟨t, hloop, ht', hpc', hsp', hsums⟩ := ih (by omega) (s := { s with
        r0 := s.r0 + 1
        r1 := (adler32Step (s.r1, s.r2) (s.mem s.r0)).1
        r2 := (adler32Step (s.r1, s.r2) (s.mem s.r0)).2
        r3 := BitVec.ofNat 32 (k + 1)
        r4 := x
        pc := ρ.image.sym .adler32Loop, n := n, z := z, c := c, v := v }) ht rfl hbase rfl
        (hred.next _)
      exact ⟨t, hpass.trans hloop, ht', hpc', hsp', hsums⟩

/-! ## The verdict -/

/-- What the checks are for: the state at `donedecompressing` is the one that decompressing the
input file should lead to. -/
structure ChecksHold (inputFile : InputFile) (s : Cpu) : Prop where
  /-- As many bytes were written as the input file has. -/
  size : s.r1 - inputFile.loadAddress = BitVec.ofNat 32 inputFile.data.length
  /-- They have the input file's checksum. -/
  checksum : adler32 (loadBytes s.mem inputFile.loadAddress inputFile.data.length) =
    adler32 inputFile.data
  /-- The saved stack pointer is the initial one. -/
  savedSp : s.r9 = initialSp

/-- What is emitted for an input file. -/
theorem config_eq_ok {inputFile : InputFile} {compressedProgram : Bytevector} {options : Options}
    {c : Config} (h : config inputFile compressedProgram options = .ok c)
    (hd : c.debugChecks = true) :
    c.loadAddress = inputFile.loadAddress ∧
      c.loadedDataSize = BitVec.ofNat 32 inputFile.data.length ∧ inputFile.data.length < 2 ^ 32 ∧
      c.checksum = adler32 inputFile.data := by
  rw [config, bind_eq_ok] at h
  obtain ⟨load, hload, h⟩ := h
  obtain ⟨-, rfl⟩ := narrowInt32_eq_ok.mp hload
  cases hopt : options.debugChecks with
  | false =>
      simp only [hopt, Bool.false_eq_true, if_false, bind_eq_ok, Except.ok.injEq] at h
      obtain ⟨size, -, entry, -, rfl⟩ := h
      cases hopt.symm.trans hd
  | true =>
      simp only [hopt, if_true, bind_eq_ok, Except.ok.injEq] at h
      obtain ⟨size, ⟨len, hlen, hsize⟩, entry, -, rfl⟩ := h
      obtain ⟨-, rfl⟩ := narrowInt32_eq_ok.mp hsize
      have hlen := narrow_eq_ok.mp hlen
      have hlt := len.isLt
      refine ⟨rfl, ?_, by omega, rfl⟩
      rw [hlen, BitVec.ofNat_toNat, BitVec.setWidth_eq]

/-- **The checksum that the code computes is that of the C++ function.** -/
theorem passes_checksum (ht : s.thumb = true)
    (hpc : s.pc = ρ.image.sym .decompressedDataSizeOk) {k : ℕ}
    (hk : ρ.config.loadedDataSize.toNat = k + 1) :
    ∃ t, Passes (step ρ.image) (Undecided ρ) s t ∧ t.thumb = true ∧
      t.pc = ρ.image.sym .s2Ok + 12 ∧ t.sp = s.sp ∧ t.r6 = ρ.config.checksum ∧
      t.r1 = adler32 (loadBytes s.mem ρ.config.loadAddress (k + 1)) := by
  have hlt := ρ.config.loadedDataSize.isLt
  obtain ⟨n, z, hstart⟩ := passes_loopStart ht hpc
  obtain ⟨u, hloop, hthumb, hupc, hsp, hsums⟩ := passes_loop (ρ := ρ) (k := k) (by omega)
    (s := { s with
      r0 := ρ.config.loadAddress, r1 := 1, r2 := 0, r3 := ρ.config.loadedDataSize
      r5 := 65521, pc := ρ.image.sym .adler32Loop, n := n, z := z }) ht rfl rfl
    (by rw [← hk, BitVec.ofNat_toNat, BitVec.setWidth_eq]) (reduced_adler32Sums [])
  obtain ⟨n', z', c', hcombine⟩ := passes_combine hthumb hupc
  refine ⟨_, hstart.trans (hloop.trans hcombine), hthumb, rfl, hsp, rfl, ?_⟩
  have hfst : u.r1 = (adler32Sums (loadBytes s.mem ρ.config.loadAddress (k + 1))).1 :=
    congrArg Prod.fst hsums
  have hsnd : u.r2 = (adler32Sums (loadBytes s.mem ρ.config.loadAddress (k + 1))).2 :=
    congrArg Prod.snd hsums
  rw [adler32_eq_sums, ← hfst, ← hsnd, BitVec.or_comm]

/-- The verdict on the size. -/
theorem verdict_size (ht : s.thumb = true) (hpc : s.pc = ρ.image.sym .donedecompressing) :
    (s.r1 - ρ.config.loadAddress = ρ.config.loadedDataSize ∧ ∃ t,
      Passes (step ρ.image) (Undecided ρ) s t ∧ t.thumb = true ∧
        t.pc = ρ.image.sym .decompressedDataSizeOk ∧ t.sp = s.r9 ∧ t.mem = s.mem) ∨
    (s.r1 - ρ.config.loadAddress ≠ ρ.config.loadedDataSize ∧ ∃ t,
      Passes (step ρ.image) (Undecided ρ) s t ∧ AtPanicCall ρ t) := by
  obtain ⟨n, c, v, hcheck⟩ := passes_sizeCheck ht hpc
  rcases passes_verdict (s := { s with
      sp := s.r9
      r1 := s.r1 - ρ.config.loadAddress
      r3 := ρ.config.loadedDataSize
      pc := ρ.image.sym .donedecompressing + 10
      n := n
      z := s.r1 - ρ.config.loadAddress - ρ.config.loadedDataSize == 0
      c := c, v := v }) ((fetchAt_sizeCheck ρ).drop 5) ht rfl with
    ⟨heq, hok⟩ | ⟨hne, t, hpanic, hat⟩
  · exact .inl ⟨heq, _, hcheck.trans hok, ht, rfl, rfl, rfl⟩
  · exact .inr ⟨hne, t, hcheck.trans hpanic, hat⟩

/-- The verdict on the checksum. -/
theorem verdict_checksum (ht : s.thumb = true) (hpc : s.pc = ρ.image.sym .s2Ok + 12) :
    (s.r1 = s.r6 ∧ ∃ t, Passes (step ρ.image) (Undecided ρ) s t ∧ t.thumb = true ∧
      t.pc = ρ.image.sym .checksumOk ∧ t.sp = s.sp) ∨
    (s.r1 ≠ s.r6 ∧ ∃ t, Passes (step ρ.image) (Undecided ρ) s t ∧ AtPanicCall ρ t) := by
  obtain ⟨n, c, v, hcheck⟩ := passes_compare ht hpc
  rcases passes_verdict (s := { s with
      pc := ρ.image.sym .s2Ok + 14, n := n, z := s.r1 - s.r6 == 0, c := c, v := v })
      ((loop_layout ρ).2.2.2.drop 7) ht rfl with ⟨heq, hok⟩ | ⟨hne, t, hpanic, hat⟩
  · exact .inl ⟨heq, _, hcheck.trans hok, ht, rfl, rfl⟩
  · exact .inr ⟨hne, t, hcheck.trans hpanic, hat⟩

/-- The verdict on the stack pointer. -/
theorem verdict_sp (ht : s.thumb = true) (hpc : s.pc = ρ.image.sym .checksumOk) :
    (initialSp = s.sp ∧ ∃ t, Passes (step ρ.image) (Undecided ρ) s t ∧ AtEntryLoad ρ t) ∨
    (initialSp ≠ s.sp ∧ ∃ t, Passes (step ρ.image) (Undecided ρ) s t ∧ AtPanicCall ρ t) := by
  obtain ⟨n, c, v, hcheck⟩ := passes_spCheck ht hpc
  rcases passes_verdict (s := { s with
      r0 := initialSp
      pc := ρ.image.sym .checksumOk + 4
      n := n, z := initialSp - s.sp == 0, c := c, v := v })
      ((fetchAt_spCheck ρ).drop 2) ht rfl with ⟨heq, hok⟩ | ⟨hne, t, hpanic, hat⟩
  · exact .inl ⟨heq, _, hcheck.trans hok, rfl, fetchAt_spOk ρ⟩
  · exact .inr ⟨hne, t, hcheck.trans hpanic, hat⟩

/-- **The debug checks give the right verdict**, from any state at `donedecompressing`: their code
ends, at the load of the entry address exactly when the checks hold, and at the call of the panic
routine otherwise. If the size is right, the checksum that is compared is that of `adler32`. -/
theorem debugChecks_verdict {inputFile : InputFile} {compressedProgram : Bytevector}
    {options : Options} (hconfig : config inputFile compressedProgram options = .ok ρ.config)
    (hdata : inputFile.data ≠ []) (ht : s.thumb = true)
    (hpc : s.pc = ρ.image.sym .donedecompressing) :
    (∃ t, Passes (step ρ.image) (Undecided ρ) s t ∧
      (AtEntryLoad ρ t ∧ ChecksHold inputFile s ∨
        AtPanicCall ρ t ∧ ¬ChecksHold inputFile s)) ∧
    (s.r1 - inputFile.loadAddress = BitVec.ofNat 32 inputFile.data.length →
      ∃ u, Passes (step ρ.image) (Undecided ρ) s u ∧
        ρ.image.fetch u.pc = some (.cmpReg .r1 .r6) ∧
        u.r1 = adler32 (loadBytes s.mem inputFile.loadAddress inputFile.data.length)) := by
  obtain ⟨hload, hsize, hlt, hchecksum⟩ := config_eq_ok hconfig ρ.debug
  obtain ⟨k, hk⟩ : ∃ k, inputFile.data.length = k + 1 :=
    Nat.exists_eq_succ_of_ne_zero fun h => hdata (List.eq_nil_of_length_eq_zero h)
  have hk' : ρ.config.loadedDataSize.toNat = k + 1 := by
    rw [hsize, BitVec.toNat_ofNat, Nat.mod_eq_of_lt hlt, hk]
  rw [← hload, ← hsize]
  rcases verdict_size ht hpc with ⟨heq, s₁, hs₁, ht₁, hpc₁, hsp₁, hmem₁⟩ | ⟨hne, t, hpanic, hat⟩
  · obtain ⟨s₂, hs₂, ht₂, hpc₂, hsp₂, h₆, h₁⟩ := passes_checksum ht₁ hpc₁ hk'
    rw [hmem₁, ← hk] at h₁
    have hs₂ := hs₁.trans hs₂
    refine ⟨?_, fun _ => ⟨s₂, hs₂, ?_, h₁⟩⟩
    · rcases verdict_checksum ht₂ hpc₂ with ⟨heq', s₃, hs₃, ht₃, hpc₃, hsp₃⟩ | ⟨hne, t, hpanic, hat⟩
      · have hs₃ := hs₂.trans hs₃
        rw [hsp₂, hsp₁] at hsp₃
        rcases verdict_sp ht₃ hpc₃ with ⟨heq'', t, hentry, hat⟩ | ⟨hne, t, hpanic, hat⟩
        · refine ⟨t, hs₃.trans hentry, .inl ⟨hat, ?_, ?_, ?_⟩⟩
          · rw [← hload, ← hsize, heq]
          · rw [← hload, ← h₁, heq', h₆, hchecksum]
          · rw [← hsp₃, heq'']
        · refine ⟨t, hs₃.trans hpanic, .inr ⟨hat, fun h => hne ?_⟩⟩
          rw [hsp₃, h.savedSp]
      · refine ⟨t, hs₂.trans hpanic, .inr ⟨hat, fun h => hne ?_⟩⟩
        rw [h₁, h₆, hchecksum, hload, h.checksum]
    · rw [hpc₂]
      exact (fetchAt_checksumCheck ρ).1
  · refine ⟨⟨t, hpanic, .inr ⟨hat, fun h => hne ?_⟩⟩, fun h => absurd h hne⟩
    rw [hload, hsize, h.size]

/-- An input file with three bytes of data. -/
def threeByteFile : InputFile where
  entry := 0x02000000
  loadAddress := 0x02000000
  data := [42, 23, 42]

/-- The ROM for it. -/
def threeByteRom : DebugRom where
  config := { codeInHeader := true
              debugChecks := true
              loadAddress := 0x02000000
              entry := 0x02000000
              loadedDataSize := 3
              checksum := adler32 [42, 23, 42] }
  mulCarry _ _ := false
  swi _ s := s
  debug := rfl

/-- The processor after three bytes were written, the second of which is `byte`. -/
def threeByteState (byte : BitVec 8) : Cpu :=
  ⟨0, 0x02000003, 0, 0, 0, 0, 0, 0, 0, initialSp, 0, 0, 0, 0, 0,
    threeByteRom.image.sym .donedecompressing, false, false, false, false, true,
    fun a => if a = 0x02000001 then byte else 42⟩

/-- The three bytes pass the checks; with another second byte, they do not. -/
theorem debugChecks_verdict_threeBytes :
    (∃ t, Passes (step threeByteRom.image) (Undecided threeByteRom) (threeByteState 23) t ∧
      AtEntryLoad threeByteRom t) ∧
    ∃ t, Passes (step threeByteRom.image) (Undecided threeByteRom) (threeByteState 42) t ∧
      AtPanicCall threeByteRom t := by
  have hconfig : config threeByteFile [] { codeInHeader := true, debugChecks := true } =
      .ok threeByteRom.config := rfl
  have hdata : threeByteFile.data ≠ [] := by simp [threeByteFile]
  have hhold : ChecksHold threeByteFile (threeByteState 23) := ⟨by decide, rfl, rfl⟩
  have hfail : ¬ChecksHold threeByteFile (threeByteState 42) := fun h =>
    absurd h.checksum (by decide)
  obtain ⟨t, hpass, hat | hat⟩ :=
    (debugChecks_verdict (s := threeByteState 23) hconfig hdata rfl rfl).1
  · obtain ⟨u, hpass', hat' | hat'⟩ :=
      (debugChecks_verdict (s := threeByteState 42) hconfig hdata rfl rfl).1
    · exact absurd hat'.2 hfail
    · exact ⟨⟨t, hpass, hat.1⟩, u, hpass', hat'.1⟩
  · exact absurd hhold hat.2

end ShrinklerGba.Shrinkler
