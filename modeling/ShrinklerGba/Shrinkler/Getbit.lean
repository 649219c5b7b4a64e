import ShrinklerGba.Shrinkler.Blocks

/-!
# `getbit`

One call of `getbit`, from its `push` to the place it returns to, for any context, any caller and
any probabilities.

* `Coder` is what `getbit` works on; `Phase` is where it is, at the places where it touches memory
  or loops; `Coder.step` goes from one phase to the next.
* `InGetbit ρ W s₀ (p, c) s`: the processor is in the call that began in `s₀`, in phase `p`, with
  coder state `c`. `W` holds the call's frame and whatever else the call does not touch.
* **`InGetbit.simulate`**: the processor goes from one phase to the next as `Coder.step` does, with
  `sp` 16 bytes below the caller's.
-/

namespace ShrinklerGba.Shrinkler

open Thumb Transition

/-! ## The coder, phase by phase -/

/-- What `getbit` works on. -/
structure Coder where
  /-- The registers of these names. -/
  (inp rvalue isize bitbuf bitctx : Word)
  /-- Memory. -/
  mem : Mem

/-- Where control is in `getbit`. -/
inductive Phase
  /-- At `getbit`, about to push. -/
  | call
  /-- At `loop_condition`. -/
  | loop
  /-- About to load the probability at `slot`. -/
  | load (slot : Word)
  /-- At `done`, about to store the probability at `slot`. -/
  | store (slot prob : Word) (bit : Bool)
  /-- About to pop. -/
  | pop (bit : Bool)
  /-- Back at the caller. -/
  | ret (bit : Bool)

namespace Coder

/-- The words that the processor holds for `getbit`. -/
def ofCpu (s : Cpu) : Coder := ⟨s.r0, s.r4, s.r5, s.r6, s.r7, s.mem⟩

/-- One iteration of the loop: a bit goes from the bit buffer to `rvalue`. The words are read from
`rd`.
Source: `shrinkler_packer.cpp`, from `readbit` to `loop_condition`. -/
def shift (rd : Mem) (c : Coder) : Coder :=
  if c.bitbuf <<< 1 = 0 then
    let w := loadWord rd c.inp
    { c with
      inp := c.inp + 4
      bitbuf := w + w ||| 1
      rvalue := c.rvalue + c.rvalue + (BitVec.ofBool (carryAdd w w false)).setWidth 32
      isize := c.isize + c.isize }
  else
    { c with
      bitbuf := c.bitbuf <<< 1
      rvalue := c.rvalue + c.rvalue + (BitVec.ofBool (c.bitbuf.getLsbD 31)).setWidth 32
      isize := c.isize + c.isize }

/-- Where the probability of a context is, for a caller with stack pointer `sp`. -/
def slot (sp bitctx : Word) : Word :=
  bitctx + bitctx + (sp - 16) + BitVec.ofNat 32 ctxTableOffset

theorem slot_eq (sp bitctx : Word) : slot sp bitctx = sp + (bitctx + bitctx + 10) := by
  show bitctx + bitctx + (sp - 16) + 26#32 = _
  bv_omega

/-- Decide the bit with the probability at `slot` of `rd`.
Source: `shrinkler_packer.cpp`, from the `ldrh` to `done`. -/
def decide (rd : Mem) (slot : Word) (c : Coder) : Phase × Coder :=
  let prob := (load16 rd slot).setWidth 32
  let threshold := (prob * c.isize) >>> 16
  let adjust := prob >>> adjustShift
  if carrySub c.rvalue threshold then
    (.store slot (prob - adjust) false,
      { c with
        rvalue := c.rvalue - threshold
        isize := c.isize - threshold
        bitctx := adjust })
  else
    (.store slot (prob - adjust + 0xfff) true,
      { c with
        rvalue := c.rvalue - threshold + threshold
        isize := threshold
        bitctx := 0xfff })

/-- From one phase to the next, for a caller with stack pointer `sp`; words and probabilities are
read from `rd`. -/
def step (rd : Mem) (sp : Word) : Phase × Coder → Option (Phase × Coder)
  | (.call, c) => some (.loop, c)
  | (.loop, c) =>
      if c.isize.getLsbD 15 then some (.load (slot sp c.bitctx), c) else some (.loop, c.shift rd)
  | (.load slot, c) => some (c.decide rd slot)
  | (.store slot prob bit, c) =>
      some (.pop bit, { c with mem := store16 c.mem slot (prob.setWidth 16) })
  | (.pop bit, c) => some (.ret bit, c)
  | (.ret _, _) => none

end Coder

/-! ## The processor in a call of `getbit` -/

/-- The call's frame: `sp` and the words that were pushed. -/
structure Frame (s₀ s : Cpu) : Prop where
  /-- Four words were pushed. -/
  sp : s.sp = s₀.sp - 16
  /-- The caller's registers and the return address. -/
  saved : loadWords s.mem (s₀.sp - 16) 4 = [s₀.r1, s₀.r2, s₀.r3, s₀.lr]

/-- The caller's registers. -/
structure Restored (s₀ s : Cpu) : Prop where
  /-- The stack pointer. -/
  sp : s.sp = s₀.sp
  /-- The register `outp`. -/
  outp : s.r1 = s₀.r1
  /-- The register `tmp0`. -/
  tmp0 : s.r2 = s₀.r2
  /-- The register `tmp1`. -/
  tmp1 : s.r3 = s₀.r3

variable (ρ : Rom)

/-- What holds in each phase of the call that began in `s₀`. -/
def AtPhase (s₀ s : Cpu) : Phase → Prop
  | .call => s.pc = ρ.sym .getbit ∧ Restored s₀ s ∧ s.lr = s₀.lr
  | .loop => s.pc = ρ.sym .loopCondition ∧ Frame s₀ s
  | .load slot =>
      s.pc = ρ.loadAddr ∧ Frame s₀ s ∧ s.r2 + BitVec.ofNat 32 ctxTableOffset = slot ∧
        slot.toNat % 2 = 0
  | .store slot prob bit =>
      s.pc = ρ.sym .done ∧ Frame s₀ s ∧ s.r2 + BitVec.ofNat 32 ctxTableOffset = slot ∧
        slot.toNat % 2 = 0 ∧ s.r3 = prob ∧ s.c = bit
  | .pop bit => s.pc = ρ.addr .done 2 ∧ Frame s₀ s ∧ s.c = bit
  | .ret bit => s.pc = s₀.lr &&& ~~~1 ∧ Restored s₀ s ∧ s.c = bit

/-- The processor is in the call of `getbit` that began in `s₀`. Memory is the coder's but for `W`,
where it is the caller's but for the call's frame. -/
structure InGetbit (W : Set Word) (s₀ : Cpu) (x : Phase × Coder) (s : Cpu) : Prop where
  /-- Thumb state. -/
  thumb : s.thumb = true
  /-- The coder's registers. -/
  inp : s.r0 = x.2.inp
  /-- The coder's registers. -/
  rvalue : s.r4 = x.2.rvalue
  /-- The coder's registers. -/
  isize : s.r5 = x.2.isize
  /-- The coder's registers. -/
  bitbuf : s.r6 = x.2.bitbuf
  /-- The coder's registers. -/
  bitctx : s.r7 = x.2.bitctx
  /-- A register that `getbit` leaves alone. -/
  offset : s.r8 = s₀.r8
  /-- A register that `getbit` leaves alone. -/
  savedSp : s.r9 = s₀.r9
  /-- The registers that no code names, and the return address. -/
  others : s.r10 = s₀.r10 ∧ s.r11 = s₀.r11 ∧ s.r12 = s₀.r12 ∧ s.lr = s₀.lr
  /-- Memory outside `W`. -/
  mem_out : Set.EqOn s.mem x.2.mem Wᶜ
  /-- Memory in `W`, but for the frame. -/
  mem_in : Set.EqOn s.mem s₀.mem (W \ range (s₀.sp - 16) 16)
  /-- Where control is, and the scratch registers. -/
  at_phase : AtPhase ρ s₀ s x.1

/-! ## The blocks of `getbit` -/

section blocks

attribute [local simp] execs exec Cpu.reg Cpu.set Cpu.setNZ Cpu.setFlags Cpu.next Cpu.holds
  Cpu.loadRegs Instr.size Rom.addr_add Rom.sym_add Rom.addr_readbit_end Rom.addr_nonewword_end
  Rom.addr_newword_fixedByte Rom.addr_newword Rom.addr_one_end Rom.loadAddr Rom.compareAddr
  Rom.image_sym
  ctxTableOffset adjustShift

variable {ρ} {s : Cpu}

theorem executes_call (ht : s.thumb = true) (hpc : s.pc = ρ.sym .getbit) :
    ρ.Executes .getbit [.push getbitPushList, .b .loopCondition] s
      { s with sp := s.sp - 16
               pc := ρ.sym .loopCondition
               mem := storeWords s.mem (align4 (s.sp - 16)) [s.r1, s.r2, s.r3, s.lr] } :=
  ρ.block_getbit.executes (by simp [hpc]) ht (by simp) (by simp [hpc])

theorem executes_again (ht : s.thumb = true) (hpc : s.pc = ρ.sym .loopCondition)
    (hn : s.r5.getLsbD 15 = false) :
    ∃ x n z v, ρ.Executes .getbit
      (dummyGameVersion ρ.config ++ [.lsr tmp0 isize 16, .bc .cc .readbit]) s
      { s with r2 := x, pc := ρ.sym .readbit, n := n, z := z, c := false, v := v } := by
  have hn' : s.r5[15] = false := hn
  refine ⟨s.r5 >>> 16, (s.r5 >>> 16).msb, s.r5 >>> 16 == 0, s.v,
    ρ.block_condition.executes (by simp [hpc]) ht (by simp) ?_⟩
  cases hc : ρ.config.codeInHeader <;> simp [hn', hpc, dummyGameVersion, hc]

theorem executes_load (ht : s.thumb = true) (hpc : s.pc = ρ.sym .loopCondition)
    (hn : s.r5.getLsbD 15 = true) :
    ∃ n z c v, ρ.Executes .getbit
      (dummyGameVersion ρ.config ++
        [.lsr tmp0 isize 16, .bc .cc .readbit, .addReg tmp0 bitctx bitctx, .addHigh tmp0 .sp]) s
      { s with r2 := s.r7 + s.r7 + s.sp, pc := ρ.loadAddr, n := n, z := z, c := c, v := v } := by
  have hn' : s.r5[15] = true := hn
  refine ⟨(s.r7 + s.r7).msb, s.r7 + s.r7 == 0, carryAdd s.r7 s.r7 false,
    overflowAdd s.r7 s.r7 false, ρ.block_loopCondition.executes (by simp [hpc]) ht (by simp) ?_⟩
  cases hc : ρ.config.codeInHeader <;> simp [hn', hpc, dummyGameVersion, hc]

theorem executes_nonewword (ht : s.thumb = true) (hpc : s.pc = ρ.sym .nonewword) :
    ∃ n z c v, ρ.Executes .getbit [.adc rvalue rvalue, .addReg isize isize isize] s
      { s with r4 := s.r4 + s.r4 + (BitVec.ofBool s.c).setWidth 32
               r5 := s.r5 + s.r5
               pc := ρ.sym .loopCondition, n := n, z := z, c := c, v := v } :=
  ⟨(s.r5 + s.r5).msb, s.r5 + s.r5 == 0, carryAdd s.r5 s.r5 false, overflowAdd s.r5 s.r5 false,
    ρ.block_nonewword.executes (by simp [hpc]) ht (by simp) (by simp [hpc])⟩

/-- A new word: its highest bit is left in the carry, and the sentinel is put below the rest. -/
theorem executes_newword (ht : s.thumb = true) (hpc : s.pc = ρ.sym .newword) {w : Word}
    (hw : loadWord s.mem s.r0 = w) :
    ∃ n z v, ρ.Executes .getbit
      (.ldr bitbuf inp 0 :: .addImm inp 4 :: .addReg bitbuf bitbuf bitbuf ::
        (dummyFixedByte ρ.config ++ [.movImm tmp0 1, .orr bitbuf tmp0])) s
      { s with r0 := s.r0 + 4
               r2 := 1
               r6 := w + w ||| 1
               pc := ρ.sym .nonewword, n := n, z := z, c := carryAdd w w false, v := v } := by
  refine ⟨(w + w ||| 1).msb, w + w ||| 1 == 0, overflowAdd w w false,
    ρ.block_newword.executes (by simp [hpc]) ht (by simp) ?_⟩
  cases hc : ρ.config.codeInHeader <;> simp [hpc, hc, hw, dummyFixedByte]

/-- `readbit` goes to `nonewword` with the shifted bit in the carry, or to `newword`. -/
theorem executes_readbit (ht : s.thumb = true) (hpc : s.pc = ρ.sym .readbit) :
    ∃ n z v, ρ.Executes .getbit [.lsl bitbuf bitbuf 1, .bc .ne .nonewword] s
      { s with r6 := s.r6 <<< 1
               pc := if s.r6 <<< 1 = 0 then ρ.sym .newword else ρ.sym .nonewword
               n := n, z := z, c := s.r6.getLsbD 31, v := v } :=
  ⟨(s.r6 <<< 1).msb, s.r6 <<< 1 == 0, s.v,
    ρ.block_readbit.executes (by simp [hpc]) ht (by simp) (by simp [hpc])⟩

theorem executes_threshold (ht : s.thumb = true) (hpc : s.pc = ρ.loadAddr) {slot prob : Word}
    (hslot : s.r2 + BitVec.ofNat 32 ctxTableOffset = slot) (heven : slot.toNat % 2 = 0)
    (hprob : (load16 s.mem slot).setWidth 32 = prob) :
    ∃ n z c v, ρ.Executes .getbit
      [.ldrh tmp1 tmp0 ctxTableOffset, .movLow outp tmp1, .mul outp isize, .lsr outp outp 16,
       .lsr bitctx tmp1 adjustShift, .subReg tmp1 tmp1 bitctx] s
      { s with r1 := (prob * s.r5) >>> 16
               r3 := prob - prob >>> adjustShift
               r7 := prob >>> adjustShift
               pc := ρ.compareAddr, n := n, z := z, c := c, v := v } := by
  have hslot' : s.r2 + 26#32 = slot := hslot
  refine ⟨(prob - prob >>> adjustShift).msb, prob - prob >>> adjustShift == 0,
    carrySub prob (prob >>> adjustShift), overflowSub prob (prob >>> adjustShift),
    ρ.block_load.executes hpc ht (by simp) ?_⟩
  simp [hpc, hslot', heven, hprob, Nat.add_assoc]

theorem executes_zero (ht : s.thumb = true) (hpc : s.pc = ρ.compareAddr)
    (hge : carrySub s.r4 s.r1 = true) :
    ∃ n z v, ρ.Executes .getbit
      [.subReg rvalue rvalue outp, .bc .cc .one, .subReg isize isize outp, .addImm tmp1 0,
       .b .done] s
      { s with r4 := s.r4 - s.r1
               r5 := s.r5 - s.r1
               pc := ρ.sym .done, n := n, z := z, c := false, v := v } :=
  ⟨s.r3.msb, s.r3 == 0, overflowAdd s.r3 0 false,
    ρ.block_compare.executes hpc ht (by simp) (by simp [hge])⟩

theorem executes_below (ht : s.thumb = true) (hpc : s.pc = ρ.compareAddr)
    (hlt : carrySub s.r4 s.r1 = false) :
    ∃ n z v, ρ.Executes .getbit [.subReg rvalue rvalue outp, .bc .cc .one] s
      { s with r4 := s.r4 - s.r1
               pc := ρ.sym .one, n := n, z := z, c := false, v := v } :=
  ⟨(s.r4 - s.r1).msb, s.r4 - s.r1 == 0, overflowSub s.r4 s.r1,
    (ρ.block_compare.take 1).executes hpc ht (by simp) (by simp [hlt])⟩

theorem executes_restore (ht : s.thumb = true) (hpc : s.pc = ρ.sym .one) :
    ∃ n z v, ρ.Executes .getbit
      [.movLow isize outp, .ldrLit bitctx (0xffff >>> adjustShift), .addReg tmp1 tmp1 bitctx,
       .addReg rvalue rvalue outp] s
      { s with r3 := s.r3 + 0xfff
               r4 := s.r4 + s.r1
               r5 := s.r1
               r7 := 0xfff
               pc := ρ.sym .done, n := n, z := z, c := carryAdd s.r4 s.r1 false, v := v } :=
  ⟨(s.r4 + s.r1).msb, s.r4 + s.r1 == 0, overflowAdd s.r4 s.r1 false,
    ρ.block_one.executes (by simp [hpc]) ht (by simp) (by simp [hpc])⟩

/-- Below the threshold, the subtraction is undone, and undoing it sets the carry. -/
theorem leads_one (ht : s.thumb = true) (hpc : s.pc = ρ.compareAddr)
    (hlt : carrySub s.r4 s.r1 = false) :
    ∃ n z v, ρ.Leads .getbit s.sp s
      { s with r3 := s.r3 + 0xfff
               r4 := s.r4 - s.r1 + s.r1
               r5 := s.r1
               r7 := 0xfff
               pc := ρ.sym .done, n := n, z := z, c := true, v := v } := by
  have hlo : romStart + Region.lo ρ.config.toOptions .getbit ≤ (ρ.addr .one 0).toNat :=
    Rom.lo_le_addr rfl (by decide) (by decide)
  obtain ⟨n, z, v, hbelow⟩ := executes_below ht hpc hlt
  obtain ⟨n', z', v', hrestore⟩ := executes_restore (ρ := ρ) (s := { s with
    r4 := s.r4 - s.r1, pc := ρ.sym .one, n := n, z := z, c := false, v := v }) ht rfl
  simp only [carryAdd_sub hlt] at hrestore
  exact ⟨n', z', v', (hbelow.leads rfl).trans (ρ.block_one.within hlo rfl (by simp) ht rfl)
    (hrestore.leads rfl)⟩

theorem executes_store (ht : s.thumb = true) (hpc : s.pc = ρ.sym .done) {slot : Word}
    (hslot : s.r2 + BitVec.ofNat 32 ctxTableOffset = slot) (heven : slot.toNat % 2 = 0) :
    ρ.Executes .getbit [.strh tmp1 tmp0 ctxTableOffset] s
      { s with pc := ρ.addr .done 2, mem := store16 s.mem slot (s.r3.setWidth 16) } := by
  have hslot' : s.r2 + 26#32 = slot := hslot
  exact ρ.block_done.executes (by simp [hpc]) ht (by simp) (by simp [hpc, hslot', heven])

/-- What was saved is restored. -/
theorem exec_return (hsp : s.sp.toNat % 4 = 0) {x₁ x₂ x₃ ret : Word}
    (hsaved : loadWords s.mem s.sp 4 = [x₁, x₂, x₃, ret]) :
    exec ρ.image s (.popPc [outp, tmp0, tmp1]) = some
      { s with r1 := x₁, r2 := x₂, r3 := x₃, sp := s.sp + 16, pc := ret &&& ~~~1 } := by
  simp only [loadWords, List.cons.injEq, and_true] at hsaved
  obtain ⟨rfl, rfl, rfl, rfl⟩ := hsaved
  simp [align4_of_aligned hsp, BitVec.add_assoc]

theorem step_return (ht : s.thumb = true) (hpc : s.pc = ρ.addr .done 2)
    (hsp : s.sp.toNat % 4 = 0) {x₁ x₂ x₃ ret : Word}
    (hsaved : loadWords s.mem s.sp 4 = [x₁, x₂, x₃, ret]) :
    stepToBx ρ.image s = some
      { s with r1 := x₁, r2 := x₂, r3 := x₃, sp := s.sp + 16, pc := ret &&& ~~~1 } :=
  ρ.block_popGetbit.step hpc ht (exec_return hsp hsaved)

end blocks

/-! ## The simulation -/

section simulation

variable {ρ} {W : Set Word} {s₀ s : Cpu} {c : Coder}

theorem InGetbit.call (hW : range (s₀.sp - 16) 16 ⊆ W) (hsp : s₀.sp.toNat % 4 = 0)
    (h : InGetbit ρ W s₀ (.call, c) s) :
    ∃ t, ρ.Leads .getbit (s₀.sp - 16) s t ∧ InGetbit ρ W s₀ (.loop, c) t := by
  obtain ⟨hpc, hregs, hlr⟩ := h.at_phase
  have halign : align4 (s.sp - 16) = s₀.sp - 16 := by
    rw [hregs.sp]
    exact align4_of_aligned (by bv_omega)
  have hleads : ρ.Leads .getbit (s.sp - 16) s _ := (executes_call h.thumb hpc).leads rfl
  rw [halign, hregs.sp, hregs.outp, hregs.tmp0, hregs.tmp1, hlr] at hleads
  have hframe : Set.EqOn (storeWords s.mem (s₀.sp - 16) [s₀.r1, s₀.r2, s₀.r3, s₀.lr]) s.mem
      (range (s₀.sp - 16) 16)ᶜ := storeWords_eqOn _ _ (by simp)
  refine ⟨_, hleads, ⟨h.thumb, h.inp, h.rvalue, h.isize, h.bitbuf, h.bitctx, h.offset, h.savedSp,
    ⟨h.others.1, h.others.2.1, h.others.2.2.1, rfl⟩, ?_, ?_, rfl, rfl, ?_⟩⟩
  · exact (hframe.mono (Set.compl_subset_compl.mpr hW)).trans h.mem_out
  · exact (hframe.mono fun _ hx => hx.2).trans h.mem_in
  · exact loadWords_storeWords _ _ (by simp)

theorem InGetbit.loop (hsp : s₀.sp.toNat % 4 = 0) (h : InGetbit ρ W s₀ (.loop, c) s)
    (hn : c.isize.getLsbD 15 = true) :
    ∃ t, ρ.Leads .getbit (s₀.sp - 16) s t ∧
      InGetbit ρ W s₀ (.load (Coder.slot s₀.sp c.bitctx), c) t := by
  obtain ⟨hpc, hframe⟩ := h.at_phase
  obtain ⟨n, z, c', v, hload⟩ := executes_load h.thumb hpc (by rw [h.isize]; exact hn)
  have hleads : ρ.Leads .getbit (s₀.sp - 16) s _ := hload.leads hframe.sp
  rw [hframe.sp] at hleads
  refine ⟨_, hleads, ⟨h.thumb, h.inp, h.rvalue, h.isize, h.bitbuf, h.bitctx, h.offset, h.savedSp,
    h.others, h.mem_out, h.mem_in, rfl, ⟨rfl, hframe.saved⟩, ?_, ?_⟩⟩
  · show s.r7 + s.r7 + (s₀.sp - 16) + BitVec.ofNat 32 ctxTableOffset = _
    rw [h.bitctx]
    rfl
  · simp only [Coder.slot, ctxTableOffset, singleBitContexts, List.length_cons, List.length_nil]
    bv_omega

/-- A bit is taken from the bit buffer, or from the next word: it is left in the carry. -/
theorem leads_bit {x : Word} (ht : s.thumb = true) (hpc : s.pc = ρ.sym .readbit) (hx : s.sp = x) :
    ∃ r0 r2 r6 n z c v, ρ.Leads .getbit x s
        { s with r0 := r0, r2 := r2, r6 := r6, pc := ρ.sym .nonewword
                 n := n, z := z, c := c, v := v } ∧
      (s.r6 <<< 1 = 0 → r0 = s.r0 + 4 ∧ r6 = loadWord s.mem s.r0 + loadWord s.mem s.r0 ||| 1 ∧
        c = carryAdd (loadWord s.mem s.r0) (loadWord s.mem s.r0) false) ∧
      (s.r6 <<< 1 ≠ 0 → r0 = s.r0 ∧ r6 = s.r6 <<< 1 ∧ c = s.r6.getLsbD 31) := by
  have hlo : romStart + Region.lo ρ.config.toOptions .getbit ≤ (ρ.addr .newword 0).toNat :=
    Rom.lo_le_addr rfl (by decide) (by decide)
  obtain ⟨n, z, v, hreadbit⟩ := executes_readbit ht hpc
  by_cases hb : s.r6 <<< 1 = 0
  · rw [if_pos hb] at hreadbit
    obtain ⟨n', z', v', hnewword⟩ := executes_newword (ρ := ρ) (s := { s with
      r6 := s.r6 <<< 1, pc := ρ.sym .newword, n := n, z := z, c := s.r6.getLsbD 31, v := v })
      ht rfl rfl
    exact ⟨_, _, _, _, _, _, _, (hreadbit.leads hx).trans
      (ρ.block_newword.within hlo rfl (by simp) ht hx) (hnewword.leads hx),
      fun _ => ⟨rfl, rfl, rfl⟩, fun h => absurd hb h⟩
  · rw [if_neg hb] at hreadbit
    exact ⟨_, _, _, _, _, _, _, hreadbit.leads hx, fun h => absurd h hb,
      fun _ => ⟨rfl, rfl, rfl⟩⟩

theorem InGetbit.shift (h : InGetbit ρ W s₀ (.loop, c) s) (hn : c.isize.getLsbD 15 = false) :
    ∃ t, ρ.Leads .getbit (s₀.sp - 16) s t ∧ InGetbit ρ W s₀ (.loop, c.shift s.mem) t ∧
      t.mem = s.mem := by
  obtain ⟨hpc, hframe⟩ := h.at_phase
  have hlo {l : Label} (hl : isCodeLabel l = true)
      (hoff : ∀ o, Region.lo o .getbit ≤ symOffset o l) :
      romStart + Region.lo ρ.config.toOptions .getbit ≤ (ρ.addr l 0).toNat :=
    Rom.lo_le_addr hl (by decide) hoff
  obtain ⟨x, n, z, v, hagain⟩ := executes_again h.thumb hpc (by rw [h.isize]; exact hn)
  obtain ⟨r0, r2, r6, n', z', c', v', hbit, hempty, hmore⟩ := leads_bit (ρ := ρ) (s := { s with
    r2 := x, pc := ρ.sym .readbit, n := n, z := z, c := false, v := v }) h.thumb rfl hframe.sp
  obtain ⟨n'', z'', c'', v'', hlast⟩ := executes_nonewword (ρ := ρ) (s := { s with
    r0 := r0, r2 := r2, r6 := r6, pc := ρ.sym .nonewword, n := n', z := z', c := c', v := v' })
    h.thumb rfl
  have hread := (hagain.leads hframe.sp).trans (ρ.block_readbit.within
    (hlo rfl (by decide)) rfl (by simp) h.thumb hframe.sp) hbit
  have hleads := hread.trans (ρ.block_nonewword.within
    (hlo rfl (by decide)) rfl (by simp) h.thumb hframe.sp)
    (hlast.leads hframe.sp)
  refine ⟨_, hleads, ?_, rfl⟩
  -- The bit comes from the bit buffer, or the buffer is empty and it comes from the next word.
  rw [Coder.shift, ← h.rvalue, ← h.isize, ← h.inp, ← h.bitbuf]
  split <;> rename_i hb
  · obtain ⟨rfl, rfl, rfl⟩ := hempty hb
    exact ⟨h.thumb, rfl, rfl, rfl, rfl, h.bitctx, h.offset, h.savedSp, h.others, h.mem_out,
      h.mem_in, rfl, hframe.sp, hframe.saved⟩
  · obtain ⟨rfl, rfl, rfl⟩ := hmore hb
    exact ⟨h.thumb, rfl, rfl, rfl, rfl, h.bitctx, h.offset, h.savedSp, h.others, h.mem_out,
      h.mem_in, rfl, hframe.sp, hframe.saved⟩

/-- Where the comparison is within the region. -/
theorem within_compare {x : Word} (hpc : s.pc = ρ.compareAddr) (ht : s.thumb = true)
    (hx : s.sp = x) : ρ.Within .getbit x s := by
  refine ρ.block_compare.within (Rom.lo_le_addr rfl ?_ ?_) rfl hpc ht hx <;>
    rw [bytesOf_dummyGameVersion] <;> cases ρ.config.codeInHeader <;> decide

/-- At the comparison of the value with the threshold. -/
structure Comparing (ρ : Rom) (sp threshold : Word) (c : Coder) (s : Cpu) : Prop where
  /-- Thumb state. -/
  thumb : s.thumb = true
  /-- The comparison comes next. -/
  pc : s.pc = ρ.compareAddr
  /-- The stack pointer. -/
  sp : s.sp = sp
  /-- The threshold. -/
  threshold : s.r1 = threshold
  /-- The value. -/
  rvalue : s.r4 = c.rvalue
  /-- The range. -/
  isize : s.r5 = c.isize

theorem InGetbit.decide {slot : Word} (h : InGetbit ρ W s₀ (.load slot, c) s) :
    ∃ u t, ρ.Leads .getbit (s₀.sp - 16) s u ∧
      Comparing ρ (s₀.sp - 16) (((load16 s.mem slot).setWidth 32 * c.isize) >>> 16) c u ∧
      ρ.Leads .getbit (s₀.sp - 16) u t ∧ InGetbit ρ W s₀ (c.decide s.mem slot) t := by
  obtain ⟨hpc, hframe, hslot, heven⟩ := h.at_phase
  obtain ⟨n, z, c', v, hexec⟩ := executes_threshold h.thumb hpc hslot heven rfl
  have hthreshold : ρ.Leads .getbit (s₀.sp - 16) s _ := hexec.leads hframe.sp
  rw [hframe.sp] at hthreshold
  rw [Coder.decide, ← h.rvalue, ← h.isize]
  split <;> rename_i hge
  · obtain ⟨n', z', v', hzero⟩ := executes_zero (ρ := ρ) (s := { s with
      r1 := ((load16 s.mem slot).setWidth 32 * s.r5) >>> 16
      r3 := (load16 s.mem slot).setWidth 32 - (load16 s.mem slot).setWidth 32 >>> adjustShift
      r7 := (load16 s.mem slot).setWidth 32 >>> adjustShift, sp := s₀.sp - 16
      pc := ρ.compareAddr, n := n, z := z, c := c', v := v }) h.thumb rfl hge
    exact ⟨_, _, hthreshold, ⟨h.thumb, rfl, rfl, rfl, h.rvalue, h.isize⟩, hzero.leads rfl, h.thumb,
      h.inp, rfl, rfl, h.bitbuf, rfl, h.offset, h.savedSp, h.others, h.mem_out, h.mem_in, rfl,
      ⟨rfl, hframe.saved⟩, hslot, heven, rfl, rfl⟩
  · obtain ⟨n', z', v', hone⟩ := leads_one (ρ := ρ) (s := { s with
      r1 := ((load16 s.mem slot).setWidth 32 * s.r5) >>> 16
      r3 := (load16 s.mem slot).setWidth 32 - (load16 s.mem slot).setWidth 32 >>> adjustShift
      r7 := (load16 s.mem slot).setWidth 32 >>> adjustShift, sp := s₀.sp - 16
      pc := ρ.compareAddr, n := n, z := z, c := c', v := v }) h.thumb rfl (by simpa using hge)
    exact ⟨_, _, hthreshold, ⟨h.thumb, rfl, rfl, rfl, h.rvalue, h.isize⟩, hone, h.thumb, h.inp,
      rfl, rfl, h.bitbuf, rfl, h.offset, h.savedSp, h.others, h.mem_out, h.mem_in, rfl,
      ⟨rfl, hframe.saved⟩, hslot, heven, rfl, rfl⟩

theorem InGetbit.store (hW : range (s₀.sp - 16) 16 ⊆ W) {slot prob : Word} {bit : Bool}
    (h : InGetbit ρ W s₀ (.store slot prob bit, c) s) (hsafe : Disjoint (range slot 2) W) :
    ∃ t, ρ.Leads .getbit (s₀.sp - 16) s t ∧
      InGetbit ρ W s₀ (.pop bit, { c with mem := store16 c.mem slot (prob.setWidth 16) }) t := by
  obtain ⟨hpc, hframe, hslot, heven, hprob, hbit⟩ := h.at_phase
  have hleads : ρ.Leads .getbit (s₀.sp - 16) s _ :=
    (executes_store h.thumb hpc hslot heven).leads hframe.sp
  rw [hprob] at hleads
  have hkeep : Set.EqOn (store16 s.mem slot (prob.setWidth 16)) s.mem W :=
    (store16_eqOn _ _ _).mono (Set.subset_compl_iff_disjoint_left.mpr hsafe)
  refine ⟨_, hleads, h.thumb, h.inp, h.rvalue, h.isize, h.bitbuf, h.bitctx, h.offset, h.savedSp,
    h.others, store16_congr _ h.mem_out _, ?_, rfl, ⟨hframe.sp, ?_⟩, hbit⟩
  · exact (hkeep.mono Set.sdiff_subset).trans h.mem_in
  · rw [loadWords_congr (hkeep.mono hW), hframe.saved]

theorem InGetbit.pop (hsp : s₀.sp.toNat % 4 = 0) {bit : Bool}
    (h : InGetbit ρ W s₀ (.pop bit, c) s) :
    ∃ t, stepToBx ρ.image s = some t ∧ InGetbit ρ W s₀ (.ret bit, c) t := by
  obtain ⟨hpc, hframe, hbit⟩ := h.at_phase
  have hstep := step_return h.thumb hpc (by rw [hframe.sp]; bv_omega)
    (by rw [hframe.sp]; exact hframe.saved)
  refine ⟨_, hstep, h.thumb, h.inp, h.rvalue, h.isize, h.bitbuf, h.bitctx, h.offset, h.savedSp,
    h.others, h.mem_out, h.mem_in, rfl, ⟨?_, rfl, rfl, rfl⟩, hbit⟩
  show s.sp + 16 = s₀.sp
  rw [hframe.sp]
  simp

/-- **The processor goes from one phase of `getbit` to the next.** -/
theorem InGetbit.simulate {x x' : Phase × Coder} (hW : range (s₀.sp - 16) 16 ⊆ W)
    (hsp : s₀.sp.toNat % 4 = 0) (h : InGetbit ρ W s₀ x s)
    (hsafe : ∀ slot prob bit, x.1 = .store slot prob bit → Disjoint (range slot 2) W)
    (hx : Coder.step s.mem s₀.sp x = some x') :
    ∃ t, ρ.Leads .getbit (s₀.sp - 16) s t ∧ InGetbit ρ W s₀ x' t := by
  obtain ⟨p, c⟩ := x
  cases p with
  | call => cases hx; exact h.call hW hsp
  | loop =>
      cases hn : c.isize.getLsbD 15 <;> simp only [Coder.step, hn] at hx <;> cases hx
      · obtain ⟨t, hst, ht, -⟩ := h.shift hn
        exact ⟨t, hst, ht⟩
      · exact h.loop hsp hn
  | load slot =>
      cases hx
      obtain ⟨u, t, hsu, hu, hut, ht⟩ := h.decide
      exact ⟨t, hsu.trans (within_compare hu.pc hu.thumb hu.sp) hut, ht⟩
  | store slot prob bit => cases hx; exact h.store hW (hsafe slot prob bit rfl)
  | pop bit =>
      cases hx
      obtain ⟨t, hst, ht⟩ := h.pop hsp
      exact ⟨t, Rom.leads_of_step hst, ht⟩
  | ret bit => cases hx

end simulation

end ShrinklerGba.Shrinkler
