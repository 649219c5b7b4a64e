import ShrinklerGba.Shrinkler.Blocks
import ShrinklerGba.Thumb.Closed

/-!
# What follows the main loop

With debug checks, the depacker does not leave at the end of the main loop, but checks what it has
decompressed. Whatever comes of that, control does not get back.

* `checkLabels` are the labels of the checks and of the panic routine.
* **`Rom.entries`**: after them, the code is closed.
* **`Rom.enclosed`**: after the end of the main loop, control is in closed code.
-/

namespace ShrinklerGba.Shrinkler

open Thumb Transition

/-! ## Where the checks lie -/

/-- The labels of the checks. -/
def isCheckLabel : Label → Bool
  | .donedecompressing | .decompressedDataSizeOk | .adler32Loop | .s1Ok | .s2Ok | .checksumOk
  | .spOk => true
  | _ => false

/-- The labels of the panic routine. -/
def isPanicLabel : Label → Bool
  | .panic | .copyLine | .loop => true
  | _ => false

/-- The statements before the literal pool. -/
def beforePool (c : Config) : List (Stmt Label) :=
  header c ++ getbitCode c ++ startCode c ++ mainCode ++ exitCode c ++ getnumberCode.dropLast

theorem depacker_eq_beforePool (c : Config) : depacker c = beforePool c ++ [.pool, .align 2] := by
  simp [depacker, beforePool, getnumberCode]

section table

attribute [local simp] emitNintendoLogo emitRemainingHeader Stmt.size Instr.size Stmt.padding
  ofsGameTitle ofsFixedByte ofsDeviceType ofsGameVersion ofsComplement ofsReserved2
  nintendoLogo_length header getbitCode startCode mainCode exitCode getnumberCode
  debugCheckDecompressedDataSize debugCheckDecompressedData debugCheckSpOnExit
  debugCallPanicRoutine asciz beforePool

set_option maxRecDepth 3000 in
theorem locate_beforePool (c : Config) :
    locate 0 [] (beforePool c) = Region.hi c.toOptions .getnumber := by
  obtain ⟨⟨codeInHeader, debugChecks⟩, v, load, entry, size, checksum, compressed⟩ := c
  cases codeInHeader <;> cases debugChecks <;> simp [locate] <;> rfl

end table

variable {c : Config} {l : Label}

/-- The statements after a label that a part of the program defines lie there. -/
theorem codeAt_part {pre part post : List (Stmt Label)} (hsplit : program c = pre ++ part ++ post)
    (hl : defines l part = true)
    (hsize : romStart + labelPlaced l (place 0 [] (program c)) + codeSize (codeFrom l (program c)) ≤
      2 ^ 32) (mulCarry : Word → Word → Bool) (swi : ℕ → Cpu → Cpu) :
    CodeAt (Thumb.image romStart (program c) mulCarry swi)
      ((Thumb.image romStart (program c) mulCarry swi).sym l) (codeFrom l part) := by
  have hdistinct := labelsDistinct_program c
  have hcode : codeFrom l (program c) = codeFrom l part ++ post := by
    rw [hsplit, List.append_assoc] at hdistinct ⊢
    rw [codeFrom_append_of_not_defines, codeFrom_append hl]
    exact labelsDistinct_append hdistinct (by rw [defines_append, hl, Bool.true_or])
  have h := codeAt_from romStart mulCarry swi hdistinct
    (by rw [hsplit, defines_append, defines_append, hl, Bool.or_true, Bool.true_or]) hsize
  rw [hcode] at h
  exact h.left

theorem lookup_checkLabel (h : isCheckLabel l = true) : ∀ o : Options, o.debugChecks = true →
    (labelOffsets o).lookup l = some (symOffset o l) := by
  revert h
  cases l <;> decide

section exit

attribute [local simp] exitCode debugCheckDecompressedDataSize debugCheckDecompressedData
  debugCheckSpOnExit debugCallPanicRoutine

theorem defines_exitCode (hd : c.debugChecks = true) (hl : isCheckLabel l = true) :
    defines l (exitCode c) = true := by
  cases l <;> simp [isCheckLabel] at hl <;> simp [defines, hd]

theorem labelPlaced_check (hd : c.debugChecks = true) (hl : isCheckLabel l = true) :
    labelPlaced l (place 0 [] (program c)) = symOffset c.toOptions l := by
  rw [program, List.append_assoc, place_append]
  exact labelPlaced_eq_of_lookup (by rw [labelTable_depacker, lookup_checkLabel hl _ hd])

variable {ρ : Rom}

/-- The statements after the label of a check lie there. -/
theorem Rom.codeAt_check (hd : ρ.config.debugChecks = true) (hl : isCheckLabel l = true) :
    CodeAt ρ.image (ρ.sym l) (codeFrom l (exitCode ρ.config)) := by
  have hsplit : program ρ.config =
      header ρ.config ++ getbitCode ρ.config ++ startCode ρ.config ++ mainCode ++
        exitCode ρ.config ++ (getnumberCode ++ ([.align 2] ++ ([.label .packedIntro,
          .bytes ρ.config.compressedProgram] ++ debugEmitPanicRoutine ρ.config))) := by
    simp only [program, depacker, List.append_assoc]
  have hlt := symOffset_lt ρ.config.toOptions l
  have hbytes := (codeSize_codeFrom_le l (program ρ.config)).trans (instrBytes_program ρ.config)
  refine codeAt_part hsplit (defines_exitCode hd hl) ?_ ρ.mulCarry ρ.swi
  rw [labelPlaced_check hd hl]
  simp only [romStart]
  omega

theorem Rom.sym_check (hd : ρ.config.debugChecks = true) (hl : isCheckLabel l = true) :
    (ρ.sym l).toNat = romStart + symOffset ρ.config.toOptions l := by
  have hlt := symOffset_lt ρ.config.toOptions l
  have hsym : ρ.sym l =
      BitVec.ofNat 32 (romStart + labelPlaced l (place 0 [] (program ρ.config))) := rfl
  rw [hsym, labelPlaced_check hd hl, BitVec.toNat_ofNat]
  simp only [romStart]
  omega

end exit

/-! ## Where the panic routine lies -/

/-- With debug checks, the cartridge lies in the address space: the panic routine is behind the
compressed program. -/
def Rom.Fits (ρ : Rom) : Prop :=
  ρ.config.debugChecks = true → romStart + (link (program ρ.config)).length < 2 ^ 32

/-- The statements before the panic routine. -/
def beforePanic (c : Config) : List (Stmt Label) :=
  depacker c ++ [.label .packedIntro, .bytes c.compressedProgram]

theorem hi_le_locate_beforePanic (c : Config) :
    Region.hi c.toOptions .getnumber ≤ locate 0 [] (beforePanic c) := by
  rw [beforePanic, depacker_eq_beforePool, List.append_assoc, locate_append, locate_beforePool]
  exact le_locate _ _ _

theorem defines_panicRoutine (hd : c.debugChecks = true) (hl : isPanicLabel l = true) :
    defines l (debugEmitPanicRoutine c) = true := by
  cases l <;> simp [isPanicLabel] at hl <;> simp [defines, hd, debugEmitPanicRoutine]

/-- The panic routine is the last part of the cartridge. -/
theorem labelPlaced_panic (hd : c.debugChecks = true) (hl : isPanicLabel l = true) :
    Region.hi c.toOptions .getnumber ≤ labelPlaced l (place 0 [] (program c)) ∧
      labelPlaced l (place 0 [] (program c)) + codeSize (codeFrom l (program c)) ≤
        (link (program c)).length ∧
      codeFrom l (program c) = codeFrom l (debugEmitPanicRoutine c) := by
  have hsplit : program c = beforePanic c ++ debugEmitPanicRoutine c := rfl
  have hdefines := defines_panicRoutine hd hl
  have hdistinct := labelsDistinct_program c
  rw [hsplit] at hdistinct
  have hbefore := labelsDistinct_append hdistinct hdefines
  obtain ⟨hlo, -⟩ := labelPlaced_bounds hdefines (locate 0 [] (beforePanic c))
    (pendingAfter [] (beforePanic c))
  have hprogram : defines l (program c) = true := by
    rw [hsplit, defines_append, hdefines, Bool.or_true]
  obtain ⟨-, hhi⟩ := labelPlaced_bounds hprogram 0 []
  refine ⟨(hi_le_locate_beforePanic c).trans ?_, by rwa [link_length], ?_⟩
  · rwa [hsplit, place_append, labelPlaced_append hbefore]
  · rw [hsplit, codeFrom_append_of_not_defines hbefore]

section panic

variable {ρ : Rom}

/-- The statements after a label of the panic routine lie there. -/
theorem Rom.codeAt_panic (hfits : ρ.Fits) (hd : ρ.config.debugChecks = true)
    (hl : isPanicLabel l = true) :
    CodeAt ρ.image (ρ.sym l) (codeFrom l (debugEmitPanicRoutine ρ.config)) := by
  have hsplit : program ρ.config =
      beforePanic ρ.config ++ debugEmitPanicRoutine ρ.config ++ [] := by
    rw [List.append_nil]
    rfl
  have hlt := hfits hd
  obtain ⟨-, hle, -⟩ := labelPlaced_panic hd hl
  exact codeAt_part hsplit (defines_panicRoutine hd hl) (by omega) ρ.mulCarry ρ.swi

/-- They lie between `getnumber` and the end of the cartridge. -/
theorem Rom.sym_panic (hfits : ρ.Fits) (hd : ρ.config.debugChecks = true)
    (hl : isPanicLabel l = true) :
    romStart + Region.hi ρ.config.toOptions .getnumber ≤ (ρ.sym l).toNat ∧
      (ρ.sym l).toNat + codeSize (codeFrom l (debugEmitPanicRoutine ρ.config)) ≤
        romStart + (link (program ρ.config)).length := by
  have hlt := hfits hd
  obtain ⟨hlo, hle, hcode⟩ := labelPlaced_panic hd hl
  rw [hcode] at hle
  have hsym : ρ.sym l =
      BitVec.ofNat 32 (romStart + labelPlaced l (place 0 [] (program ρ.config))) := rfl
  rw [hsym, BitVec.toNat_ofNat, Nat.mod_eq_of_lt (by omega)]
  omega

end panic

/-! ## Control does not get back -/

/-- The labels that branches after the main loop lead to. -/
def checkLabels : List Label :=
  [.decompressedDataSizeOk, .adler32Loop, .s1Ok, .s2Ok, .checksumOk, .spOk, .panic, .copyLine,
   .loop]

variable (ρ : Rom)

/-- Where the checks and the panic routine lie. -/
def Rom.checkAreas : List (ℕ × ℕ) :=
  [(romStart + Region.lo ρ.config.toOptions .exit, romStart + Region.hi ρ.config.toOptions .exit),
   (romStart + Region.hi ρ.config.toOptions .getnumber,
    romStart + (link (program ρ.config)).length)]

variable {ρ}

section closed

attribute [local simp] exitCode debugCheckDecompressedDataSize debugCheckDecompressedData
  debugCheckSpOnExit debugCallPanicRoutine debugEmitPanicRoutine

/-- The code after the label of a check is closed. -/
theorem closed_check (hd : c.debugChecks = true) (hl : isCheckLabel l = true)
    (hne : l ≠ .donedecompressing) : closed checkLabels (codeFrom l (exitCode c)) = true ∧
      ∀ o : Options, o.debugChecks = true → Region.lo o .exit ≤ symOffset o l ∧
        symOffset o l + codeSize (codeFrom l (exitCode c)) ≤ Region.hi o .exit := by
  cases l <;> simp [isCheckLabel] at hl hne <;>
    simp [hd, codeFrom, closed, checkLabels, Instr.plain, Instr.quiet, Instr.jumps, codeSize,
      Instr.size] <;> decide

/-- The code of the panic routine is closed. -/
theorem closed_panic (hd : c.debugChecks = true) (hl : isPanicLabel l = true) :
    closed checkLabels (codeFrom l (debugEmitPanicRoutine c)) = true := by
  cases l <;> simp [isPanicLabel] at hl <;>
    simp [hd, codeFrom, closed, checkLabels, Instr.plain, Instr.quiet, Instr.jumps]

end closed

/-- **The code after the main loop is closed.** -/
theorem Rom.entries (hfits : ρ.Fits) (hd : ρ.config.debugChecks = true) :
    Entries ρ.image checkLabels ρ.checkAreas where
  encloses := fun l hl => by
    cases hcheck : isCheckLabel l with
    | true =>
        have hne : l ≠ .donedecompressing := by
          rintro rfl
          revert hl
          decide
        obtain ⟨hclosed, harea⟩ := closed_check hd hcheck hne
        obtain ⟨hlo, hhi⟩ := harea _ hd
        have hsym := ρ.sym_check hd hcheck
        refine ⟨_, ρ.codeAt_check hd hcheck, hclosed, _, List.mem_cons_self, ?_, ?_⟩
        · simp only [image_sym]
          omega
        · simp only [image_sym]
          omega
    | false =>
        have hpanic : isPanicLabel l = true := by
          revert hl hcheck
          cases l <;> decide
        obtain ⟨hlo, hhi⟩ := Rom.sym_panic hfits hd hpanic
        exact ⟨_, Rom.codeAt_panic hfits hd hpanic, closed_panic hd hpanic, _,
          List.mem_cons_of_mem _ List.mem_cons_self, hlo, hhi⟩
  lt := fun p hp => by
    have hlt := Region.hi_lt .exit ρ.config.toOptions
    have hend := hfits hd
    simp only [checkAreas, List.mem_cons, List.not_mem_nil, or_false] at hp
    rcases hp with rfl | rfl
    · simp only [romStart]
      omega
    · exact hend

variable {s t : Cpu} {n : ℕ}

/-- **After the end of the main loop, control is in closed code**, with the restored stack
pointer. -/
theorem Rom.enclosed (hfits : ρ.Fits) (hd : ρ.config.debugChecks = true)
    (hpc : s.pc = ρ.sym .donedecompressing) (hthumb : s.thumb = true)
    (ht : iter (stepToBx ρ.image) (n + 1) s = some t) :
    Enclosed ρ.image checkLabels ρ.checkAreas s.r9 t := by
  have hfetch : ρ.image.fetch s.pc = some (.movHigh .sp savedSp) := by
    rw [hpc, ρ.fetch_donedecompressing]
  obtain ⟨u, hu, ht⟩ := (iter_succ_eq_some _).mp ht
  rw [stepToBx_eq_exec hfetch rfl hthumb] at hu
  cases hu
  refine Enclosed.iter (ρ.entries hfits hd) ?_ ht
  have hcode := ρ.codeAt_check hd (l := .donedecompressing) rfl
  have hsym := ρ.sym_check hd (l := .donedecompressing) rfl
  obtain ⟨ss, hss, hclosed, hsize⟩ : ∃ ss, codeFrom .donedecompressing (exitCode ρ.config) =
      .instr (.movHigh .sp savedSp) :: ss ∧ closed checkLabels ss = true ∧
        ∀ o : Options, o.debugChecks = true →
          symOffset o .donedecompressing + 2 + codeSize ss ≤ Region.hi o .exit := by
    refine ⟨_, rfl, ?_, ?_⟩ <;>
      simp [hd, debugCheckDecompressedDataSize, debugCallPanicRoutine, closed, checkLabels,
        Instr.plain, Instr.quiet, Instr.jumps, codeSize, Instr.size]
    decide
  rw [hss] at hcode
  have hsize := hsize _ hd
  have hlt := symOffset_lt ρ.config.toOptions .donedecompressing
  have hnat : (s.pc + 2).toNat =
      romStart + (symOffset ρ.config.toOptions .donedecompressing + 2) := by
    rw [hpc, BitVec.toNat_add, hsym]
    simp only [romStart]
    bv_omega
  refine ⟨rfl, hthumb, ss, ?_, hclosed, _, List.mem_cons_self, hnat.ge, ?_⟩
  · show CodeAt ρ.image (s.pc + 2) ss
    rw [hpc]
    exact hcode.2
  · show (s.pc + 2).toNat + codeSize ss ≤ _
    omega

/-- It does not come back. -/
theorem Rom.enclosed_pc_ne {x : Word} (h : Enclosed ρ.image checkLabels ρ.checkAreas x t) :
    t.pc ≠ ρ.sym .donedecompressing := by
  intro hpc
  obtain ⟨p, hp, hlo, -⟩ := h.pc
  have hle : ∀ o : Options, symOffset o .donedecompressing < Region.lo o .exit ∧
      symOffset o .donedecompressing < Region.hi o .getnumber := by decide
  have hle := hle ρ.config.toOptions
  rw [hpc, ρ.sym_toNat rfl] at hlo
  simp only [Rom.checkAreas, List.mem_cons, List.not_mem_nil, or_false] at hp
  rcases hp with rfl | rfl <;> simp only at hlo <;> omega

end ShrinklerGba.Shrinkler
