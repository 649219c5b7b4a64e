import ShrinklerGba.Shrinkler.Layout

/-!
# The blocks of the depacker

Between two places where it touches memory, calls or loops, the depacker executes a block. This file
lists the blocks with the places they lie at, and the places that have two names.

The two instructions that code in the header adds are `dummyFixedByte` and `dummyGameVersion`.
-/

namespace ShrinklerGba.Shrinkler

open Thumb

/-- The instruction that stands where the fixed byte of the header does. -/
def dummyFixedByte (c : Config) : List (Instr Label) :=
  if c.codeInHeader then [.movImm tmp0 fixedByteValue] else []

/-- The instruction that stands where the game version and the complement do. -/
def dummyGameVersion (c : Config) : List (Instr Label) :=
  if c.codeInHeader then [.movImm tmp0 c.gameVersion] else []

theorem bytesOf_dummyGameVersion (c : Config) :
    bytesOf (dummyGameVersion c) = if c.codeInHeader then 2 else 0 := by
  cases hc : c.codeInHeader <;> simp [dummyGameVersion, hc, Instr.size]

variable (ρ : Rom)

/-- Where `getbit` loads the probability. -/
def Rom.loadAddr : Word := ρ.addr .loopCondition (bytesOf (dummyGameVersion ρ.config) + 8)

/-- Where `getbit` compares the value with the threshold. -/
def Rom.compareAddr : Word := ρ.addr .loopCondition (bytesOf (dummyGameVersion ρ.config) + 20)

section getbit

attribute [local simp] Instr.size code_of_getbit defines getbitCode codeFrom instrs

/-! ## `getkind` and `getbit` -/

theorem Rom.block_getkind :
    ρ.Block .getkind (ρ.addr .getkind 0) [.lsl bitctx outp 31, .lsr bitctx bitctx 23] := by
  have hl : isCodeLabel .getkind = true := rfl
  cases hc : ρ.config.codeInHeader <;>
    exact ρ.block_at hl 0 0 (by simp [hc]) (by simp) (by decide) (by decide) (by decide)
      (by decide)

theorem Rom.block_getbit :
    ρ.Block .getbit (ρ.addr .getbit 0) [.push getbitPushList, .b .loopCondition] := by
  have hl : isCodeLabel .getbit = true := rfl
  cases hc : ρ.config.codeInHeader <;>
    exact ρ.block_at hl 0 0 (by simp [hc]) (by simp) (by decide) (by decide) (by decide)
      (by decide)

theorem Rom.block_readbit :
    ρ.Block .getbit (ρ.addr .readbit 0) [.lsl bitbuf bitbuf 1, .bc .ne .nonewword] := by
  have hl : isCodeLabel .readbit = true := rfl
  cases hc : ρ.config.codeInHeader <;>
    exact ρ.block_at hl 0 0 (by simp [hc]) (by simp) (by decide) (by decide) (by decide)
      (by decide)

theorem Rom.block_newword :
    ρ.Block .getbit (ρ.addr .newword 0)
      (.ldr bitbuf inp 0 :: .addImm inp 4 :: .addReg bitbuf bitbuf bitbuf ::
        (dummyFixedByte ρ.config ++ [.movImm tmp0 1, .orr bitbuf tmp0])) := by
  have hl : isCodeLabel .newword = true := rfl
  cases hc : ρ.config.codeInHeader <;> simp only [dummyFixedByte, hc] <;>
    exact ρ.block_of hl 0 0 (by simp [hc]) (by simp) (by rw [hc]; decide) (by rw [hc]; decide)
      (by decide) (by decide)

theorem Rom.block_nonewword :
    ρ.Block .getbit (ρ.addr .nonewword 0) [.adc rvalue rvalue, .addReg isize isize isize] := by
  have hl : isCodeLabel .nonewword = true := rfl
  cases hc : ρ.config.codeInHeader <;>
    exact ρ.block_at hl 0 0 (by simp [hc]) (by simp) (by decide) (by decide) (by decide)
      (by decide)

theorem Rom.block_loopCondition :
    ρ.Block .getbit (ρ.addr .loopCondition 0)
      (dummyGameVersion ρ.config ++
        [.lsr tmp0 isize 16, .bc .cc .readbit, .addReg tmp0 bitctx bitctx, .addHigh tmp0 .sp]) := by
  have hl : isCodeLabel .loopCondition = true := rfl
  cases hc : ρ.config.codeInHeader <;> simp only [dummyGameVersion, hc] <;>
    exact ρ.block_of hl 0 0 (by simp [hc]) (by simp) (by simp [hc]; decide) (by simp [hc]; decide)
      (by simp [Instr.staysThumb]) (by simp [Instr.quiet])

/-- The instructions that decide whether the loop goes on. -/
theorem Rom.block_condition :
    ρ.Block .getbit (ρ.addr .loopCondition 0)
      (dummyGameVersion ρ.config ++ [.lsr tmp0 isize 16, .bc .cc .readbit]) := by
  have hb := ρ.block_loopCondition
  cases hc : ρ.config.codeInHeader <;> simp only [dummyGameVersion, hc] at hb ⊢
  · exact Rom.Block.take hb 1
  · exact Rom.Block.take hb 2

theorem Rom.block_load :
    ρ.Block .getbit ρ.loadAddr
      [.ldrh tmp1 tmp0 ctxTableOffset, .movLow outp tmp1, .mul outp isize, .lsr outp outp 16,
       .lsr bitctx tmp1 adjustShift, .subReg tmp1 tmp1 bitctx] := by
  have hl : isCodeLabel .loopCondition = true := rfl
  cases hc : ρ.config.codeInHeader <;> simp only [Rom.loadAddr, dummyGameVersion, hc]
  · exact ρ.block_of hl 4 _ (by simp [hc]) (by simp [hc]) (by simp [hc]; decide)
      (by simp [hc]; decide) (by decide) (by decide)
  · exact ρ.block_of hl 5 _ (by simp [hc]) (by simp [hc]) (by simp [hc]; decide)
      (by simp [hc]; decide) (by decide) (by decide)

theorem Rom.block_compare :
    ρ.Block .getbit ρ.compareAddr
      [.subReg rvalue rvalue outp, .bc .cc .one, .subReg isize isize outp, .addImm tmp1 0,
       .b .done] := by
  have hl : isCodeLabel .loopCondition = true := rfl
  cases hc : ρ.config.codeInHeader <;> simp only [Rom.compareAddr, dummyGameVersion, hc]
  · exact ρ.block_of hl 10 _ (by simp [hc]) (by simp [hc]) (by simp [hc]; decide)
      (by simp [hc]; decide) (by decide) (by decide)
  · exact ρ.block_of hl 11 _ (by simp [hc]) (by simp [hc]) (by simp [hc]; decide)
      (by simp [hc]; decide) (by decide) (by decide)

theorem Rom.block_one :
    ρ.Block .getbit (ρ.addr .one 0)
      [.movLow isize outp, .ldrLit bitctx (0xffff >>> adjustShift), .addReg tmp1 tmp1 bitctx,
       .addReg rvalue rvalue outp] := by
  have hl : isCodeLabel .one = true := rfl
  cases hc : ρ.config.codeInHeader <;>
    exact ρ.block_at hl 0 0 (by simp [hc]) (by simp) (by decide) (by decide) (by decide)
      (by decide)

theorem Rom.block_done :
    ρ.Block .getbit (ρ.addr .done 0) [.strh tmp1 tmp0 ctxTableOffset] := by
  have hl : isCodeLabel .done = true := rfl
  cases hc : ρ.config.codeInHeader <;>
    exact ρ.block_at hl 0 0 (by simp [hc]) (by simp) (by decide) (by decide) (by decide)
      (by decide)

theorem Rom.block_popGetbit :
    ρ.Block .getbit (ρ.addr .done 2) [.popPc [outp, tmp0, tmp1]] := by
  have hl : isCodeLabel .done = true := rfl
  cases hc : ρ.config.codeInHeader <;>
    exact ρ.block_at hl 1 2 (by simp [hc]) (by simp [hc]) (by decide) (by decide) (by decide)
      (by decide)

end getbit

section main

attribute [local simp] Instr.size code_of_start code_of_main defines startCode mainCode codeFrom
  instrs

/-! ## From the entry point to the main loop -/

theorem Rom.block_setup :
    ρ.Block .start (ρ.addr .codeStart 8)
      [.movHigh savedSp .sp, .adr inp .packedIntro, .ldrLit outp ρ.config.loadAddress,
       .movImm isize 1] :=
  ρ.block_at rfl 1 8 (by simp) (by simp) (by simp; decide) (by simp; decide)
    (by simp [Instr.staysThumb]) (by simp [Instr.quiet])

theorem Rom.block_shifts :
    ρ.Block .start (ρ.addr .codeStart 16)
      [.lsl bitbuf isize 31, .lsl rvalue isize (Nat.log2 (numContexts / 2)),
       .lsl bitctx isize (Nat.log2 initOneProb), .orr bitctx bitbuf] :=
  ρ.block_at rfl 5 16 (by simp) (by simp) (by decide) (by decide) (by decide) (by decide)

theorem Rom.block_init :
    ρ.Block .start (ρ.addr .init 0)
      [.push [bitctx], .subImm rvalue 1, .bc .ne .init] :=
  ρ.block_at rfl 0 0 (by simp) (by simp) (by decide) (by decide) (by decide) (by decide)

/-! ## The main loop -/

theorem Rom.block_literal :
    ρ.Block .main (ρ.addr .literal 0)
      [.movImm tmp0 1] :=
  ρ.block_at rfl 0 0 (by simp) (by simp) (by decide) (by decide) (by decide) (by decide)

theorem Rom.block_getlit :
    ρ.Block .main (ρ.addr .getlit 0)
      [.lsl bitctx outp 31, .lsr bitctx bitctx 23, .orr bitctx tmp0, .bl .getbit] :=
  ρ.block_at rfl 0 0 (by simp) (by simp) (by decide) (by decide) (by decide) (by decide)

theorem Rom.block_afterLiteralBit :
    ρ.Block .main (ρ.addr .getlit 10)
      [.adc tmp0 tmp0, .cmpImm tmp0 255, .bc .ls .getlit] :=
  ρ.block_at rfl 4 10 (by simp) (by simp) (by decide) (by decide) (by decide) (by decide)

theorem Rom.block_storeLiteral :
    ρ.Block .main (ρ.addr .getlit 16)
      [.strb tmp0 outp 0, .addImm outp 1] :=
  ρ.block_at rfl 7 16 (by simp) (by simp) (by decide) (by decide) (by decide) (by decide)

theorem Rom.block_switch :
    ρ.Block .main (ρ.addr .switch 0)
      [.bl .getkind] :=
  ρ.block_at rfl 0 0 (by simp) (by simp) (by decide) (by decide) (by decide) (by decide)

theorem Rom.block_kindAfterLiteral :
    ρ.Block .main (ρ.addr .switch 4)
      [.bc .cc .literal, .movImm bitctx 0, .subImm bitctx 1, .bl .getbit] :=
  ρ.block_at rfl 1 4 (by simp) (by simp) (by decide) (by decide) (by decide) (by decide)

theorem Rom.block_repeated :
    ρ.Block .main (ρ.addr .switch 14)
      [.bc .cc .readoffset] :=
  ρ.block_at rfl 5 14 (by simp) (by simp) (by decide) (by decide) (by decide) (by decide)

theorem Rom.block_readlength :
    ρ.Block .main (ρ.addr .readlength 0)
      [.movImm tmp0 4, .bl .getnumber] :=
  ρ.block_at rfl 0 0 (by simp) (by simp) (by decide) (by decide) (by decide) (by decide)

theorem Rom.block_gotLength :
    ρ.Block .main (ρ.addr .readlength 6)
      [.movHigh tmp0 offset, .neg tmp0 tmp0] :=
  ρ.block_at rfl 2 6 (by simp) (by simp) (by decide) (by decide) (by decide) (by decide)

theorem Rom.block_copyloop :
    ρ.Block .main (ρ.addr .copyloop 0)
      [.ldrbReg bitctx outp tmp0] :=
  ρ.block_at rfl 0 0 (by simp) (by simp) (by decide) (by decide) (by decide) (by decide)

theorem Rom.block_copyStore :
    ρ.Block .main (ρ.addr .copyloop 2)
      [.strb bitctx outp 0, .addImm outp 1, .subImm tmp1 1, .bc .ne .copyloop, .bl .getkind] :=
  ρ.block_at rfl 1 2 (by simp) (by simp) (by decide) (by decide) (by decide) (by decide)

theorem Rom.block_kindAfterReference :
    ρ.Block .main (ρ.addr .copyloop 14)
      [.bc .cc .literal] :=
  ρ.block_at rfl 6 14 (by simp) (by simp) (by decide) (by decide) (by decide) (by decide)

theorem Rom.block_readoffset :
    ρ.Block .main (ρ.addr .readoffset 0)
      [.movImm tmp0 3, .bl .getnumber] :=
  ρ.block_at rfl 0 0 (by simp) (by simp) (by decide) (by decide) (by decide) (by decide)

theorem Rom.block_gotOffset :
    ρ.Block .main (ρ.addr .readoffset 6)
      [.subImm tmp1 2, .movHigh offset tmp1, .bc .ne .readlength] :=
  ρ.block_at rfl 2 6 (by simp) (by simp) (by decide) (by decide) (by decide) (by decide)

/-- The entry point switches to Thumb state. -/
theorem Rom.fetch_codeStart : ρ.image.fetch (ρ.addr .codeStart 0) = some (.armToThumb inp) := by
  have h := (ρ.fetchAt (l := .codeStart) rfl).take 1
  have hcode : (ρ.code .codeStart).take 1 = [.armToThumb inp] := by simp
  rw [hcode] at h
  rw [ρ.addr_zero]
  exact h.1

end main

section exit

attribute [local simp] Instr.size code_of_exit defines exitCode debugCheckDecompressedDataSize
  debugCheckDecompressedData debugCheckSpOnExit codeFrom instrs

/-- The depacker restores the stack pointer first. -/
theorem Rom.fetch_donedecompressing :
    ρ.image.fetch (ρ.sym .donedecompressing) = some (.movHigh .sp savedSp) := by
  have h := (ρ.fetchAt (l := .donedecompressing) rfl).take 1
  have hcode : (ρ.code .donedecompressing).take 1 = [.movHigh .sp savedSp] := by simp
  rw [hcode] at h
  exact h.1

/-- Without debug checks, the entry point is loaded next. -/
theorem Rom.block_donedecompressing (hd : ρ.config.debugChecks = false) :
    ρ.Block .exit (ρ.addr .donedecompressing 0)
      [.movHigh .sp savedSp, .ldrLit outp ρ.config.entry] :=
  ρ.block_at rfl 0 0 (by simp [hd]) (by simp) (by simp; decide) (by simp; decide)
    (by simp [Instr.staysThumb]) (by simp [Instr.quiet])

/-- Then the depacker leaves with a `bx`. -/
theorem Rom.fetch_bx (hd : ρ.config.debugChecks = false) :
    ρ.image.fetch (ρ.addr .donedecompressing 4) = some (.bx outp) := by
  have h := ρ.fetchAt_take_drop (l := .donedecompressing) rfl 2 1
  have hcode : ((ρ.code .donedecompressing).drop 2).take 1 = [.bx outp] := by simp [hd]
  have hbytes : bytesOf ((ρ.code .donedecompressing).take 2) = 4 := by simp [hd]
  rw [hcode, hbytes] at h
  exact h.1

end exit

section getnumber

attribute [local simp] Instr.size code_of_getnumber defines getnumberCode codeFrom instrs

theorem Rom.block_getnumber :
    ρ.Block .getnumber (ρ.addr .getnumber 0)
      [.push getnumberPushList, .lsl tmp0 tmp0 8, .movImm outp 0] :=
  ρ.block_at rfl 0 0 (by simp) (by simp) (by decide) (by decide) (by decide) (by decide)

theorem Rom.block_numberloop :
    ρ.Block .getnumber (ρ.addr .numberloop 0)
      [.addImm outp 2, .movLow bitctx tmp0, .orr bitctx outp, .bl .getbit] :=
  ρ.block_at rfl 0 0 (by simp) (by simp) (by decide) (by decide) (by decide) (by decide)

theorem Rom.block_unary :
    ρ.Block .getnumber (ρ.addr .numberloop 10)
      [.bc .cs .numberloop, .movImm tmp1 1, .subImm outp 1] :=
  ρ.block_at rfl 4 10 (by simp) (by simp) (by decide) (by decide) (by decide) (by decide)

theorem Rom.block_bitsloop :
    ρ.Block .getnumber (ρ.addr .bitsloop 0)
      [.movLow bitctx tmp0, .orr bitctx outp, .bl .getbit] :=
  ρ.block_at rfl 0 0 (by simp) (by simp) (by decide) (by decide) (by decide) (by decide)

theorem Rom.block_digit :
    ρ.Block .getnumber (ρ.addr .bitsloop 8)
      [.adc tmp1 tmp1, .subImm outp 2, .bc .cs .bitsloop] :=
  ρ.block_at rfl 3 8 (by simp) (by simp) (by decide) (by decide) (by decide) (by decide)

theorem Rom.block_popGetnumber :
    ρ.Block .getnumber (ρ.addr .bitsloop 14)
      [.popPc [outp]] :=
  ρ.block_at rfl 6 14 (by simp) (by simp) (by decide) (by decide) (by decide) (by decide)

end getnumber

/-! ## Places with two names -/

section places

variable {ρ}

theorem Rom.addr_add (l : Label) (k n : ℕ) :
    ρ.addr l k + BitVec.ofNat 32 n = ρ.addr l (k + n) := by
  rw [addr, addr, BitVec.add_assoc, BitVec.ofNat_add]

theorem Rom.sym_add (l : Label) (n : ℕ) : ρ.sym l + BitVec.ofNat 32 n = ρ.addr l n := rfl

/-- A place before a label by `k` bytes. -/
theorem Rom.addr_eq_sym {l l' : Label} {k : ℕ} (h : isCodeLabel l = true)
    (h' : isCodeLabel l' = true)
    (hk : symOffset ρ.config.toOptions l + k = symOffset ρ.config.toOptions l') :
    ρ.addr l k = ρ.sym l' := by
  rw [← ρ.addr_zero l']
  exact ρ.addr_eq_addr h h' hk

/-- The same in all layouts. -/
theorem Rom.addr_end {l l' : Label} {k : ℕ} (h : isCodeLabel l = true)
    (h' : isCodeLabel l' = true) (hk : ∀ o, symOffset o l + k = symOffset o l') :
    ρ.addr l k = ρ.sym l' := addr_eq_sym h h' (hk _)

theorem Rom.addr_getkind_end : ρ.addr .getkind 4 = ρ.sym .getbit :=
  addr_end rfl rfl (by decide)

theorem Rom.addr_readbit_end : ρ.addr .readbit 4 = ρ.sym .newword :=
  addr_end rfl rfl (by decide)

theorem Rom.addr_nonewword_end : ρ.addr .nonewword 4 = ρ.sym .loopCondition :=
  addr_end rfl rfl (by decide)

theorem Rom.addr_one_end : ρ.addr .one 8 = ρ.sym .done :=
  addr_end rfl rfl (by decide)

theorem Rom.addr_codeStart_end : ρ.addr .codeStart 24 = ρ.sym .init :=
  addr_end rfl rfl (by decide)

theorem Rom.addr_init_end : ρ.addr .init 6 = ρ.sym .literal :=
  addr_end rfl rfl (by decide)

theorem Rom.addr_literal_end : ρ.addr .literal 2 = ρ.sym .getlit :=
  addr_end rfl rfl (by decide)

theorem Rom.addr_getlit_end : ρ.addr .getlit 20 = ρ.sym .switch :=
  addr_end rfl rfl (by decide)

theorem Rom.addr_switch_end : ρ.addr .switch 16 = ρ.sym .readlength :=
  addr_end rfl rfl (by decide)

theorem Rom.addr_readlength_end : ρ.addr .readlength 10 = ρ.sym .copyloop :=
  addr_end rfl rfl (by decide)

theorem Rom.addr_copyloop_end : ρ.addr .copyloop 16 = ρ.sym .readoffset :=
  addr_end rfl rfl (by decide)

theorem Rom.addr_readoffset_end : ρ.addr .readoffset 12 = ρ.sym .donedecompressing :=
  addr_end rfl rfl (by decide)

theorem Rom.addr_getnumber_end : ρ.addr .getnumber 6 = ρ.sym .numberloop :=
  addr_end rfl rfl (by decide)

theorem Rom.addr_numberloop_end : ρ.addr .numberloop 16 = ρ.sym .bitsloop :=
  addr_end rfl rfl (by decide)

theorem symOffset_newword_fixedByte : ∀ o : Options, o.codeInHeader = true →
    symOffset o .newword + 12 = symOffset o .nonewword := by decide

theorem symOffset_newword : ∀ o : Options, o.codeInHeader = false →
    symOffset o .newword + 10 = symOffset o .nonewword := by decide

theorem Rom.addr_newword_fixedByte (h : ρ.config.codeInHeader = true) :
    ρ.addr .newword 12 = ρ.sym .nonewword :=
  addr_eq_sym rfl rfl (symOffset_newword_fixedByte _ h)

theorem Rom.addr_newword (h : ρ.config.codeInHeader = false) :
    ρ.addr .newword 10 = ρ.sym .nonewword :=
  addr_eq_sym rfl rfl (symOffset_newword _ h)

end places

end ShrinklerGba.Shrinkler
