import ShrinklerGba.Shrinkler.Depacker
import ShrinklerGba.Shrinkler.Getnumber

/-!
# The processor simulates the depacker

`Rel ρ S d s` relates the depacker's places to states of the processor that runs the ROM: which
address control is at, where `sp` is, which register holds which value, and what the frames on the
stack hold. Memory is equal but for the 24 bytes below the context table, where the frames lie.

* `Safe S d`: the store that the depacker is about to make misses the frames.
* **`Rel.simulate`**: from a safe place the processor goes where the depacker does, with control
  inside the regions' code in between and `sp` at the region's position.
-/

namespace ShrinklerGba.Shrinkler

open Thumb Transition

variable (ρ : Rom) (S : Word)

/-! ## The relation -/

/-- The addresses below the context table where the frames lie. -/
def stack : Set Word := range (S - 24) 24

/-- The position of the stack pointer in a region. -/
def Region.spOk : Region → Word → Prop
  | .getkind, x | .main, x => x = S
  | .getbit, x => x = S - 16 ∨ x = S - 24
  | .start, _ => True
  | .exit, x => x = S + 4096
  | .getnumber, x => x = S - 8

/-- Control is inside the depacker's code, between two of its places. -/
def Rom.Inside (s : Cpu) : Prop := ∃ R x, ρ.Within R x s ∧ R.spOk S x

/-- The run leads from one place to another. -/
def Rom.Runs (s t : Cpu) : Prop := ∃ n, Segment (stepToBx ρ.image) (ρ.Inside S) n s t

/-- Where a call of `getnumber` returns to. -/
def Number.ret : Number → Word
  | .offset => ρ.addr .readoffset 6
  | .length => ρ.addr .readlength 6

/-- Where a call of `getbit` returns to. -/
def Site.ret : Site → Word
  | .literal => ρ.addr .getlit 10
  | .kindAfterLiteral => ρ.addr .switch 4
  | .repeated => ρ.addr .switch 14
  | .kindAfterReference => ρ.addr .copyloop 14
  | .unary _ => ρ.addr .numberloop 10
  | .digit _ => ρ.addr .bitsloop 8

/-- The frame of `getnumber`. -/
def NumberFrame (k : Number) (outp : Word) (m : Mem) : Prop :=
  loadWords m (S - 8) 2 = [outp, k.ret ρ ||| 1]

/-- The registers that hold the same everywhere but in `getbit`. -/
structure Regs (d : Depacker) (s : Cpu) : Prop where
  /-- Thumb state. -/
  thumb : s.thumb = true
  /-- The register of this name. -/
  inp : s.r0 = d.inp
  /-- The register of this name. -/
  tmp0 : s.r2 = d.tmp0
  /-- The register of this name. -/
  tmp1 : s.r3 = d.tmp1
  /-- The register of this name. -/
  rvalue : s.r4 = d.rvalue
  /-- The register of this name. -/
  isize : s.r5 = d.isize
  /-- The register of this name. -/
  bitbuf : s.r6 = d.bitbuf
  /-- The register of this name. -/
  bitctx : s.r7 = d.bitctx
  /-- The register of this name. -/
  offset : s.r8 = d.offset
  /-- The stack pointer at the start. -/
  savedSp : s.r9 = S + 4096
  /-- Memory but for the frames. -/
  mem : Set.EqOn s.mem d.mem (stack S)ᶜ

/-- Control is at `pc`, in no subroutine. -/
structure InMain (pc : Word) (d : Depacker) (s : Cpu) : Prop extends Regs S d s where
  /-- The program counter. -/
  pc : s.pc = pc
  /-- The stack pointer. -/
  sp : s.sp = S
  /-- The output address. -/
  outp : s.r1 = d.outp

/-- Control is at `pc`, in `getnumber`. -/
structure InNumber (k : Number) (pc : Word) (d : Depacker) (s : Cpu) : Prop extends Regs S d s where
  /-- The program counter. -/
  pc : s.pc = pc
  /-- The stack pointer. -/
  sp : s.sp = S - 8
  /-- The counter. -/
  counter : s.r1 = d.counter
  /-- The frame. -/
  frame : NumberFrame ρ S k d.outp s.mem

/-- What the caller of `getbit` has in the registers, and its own frame. -/
structure Calling (σ : Site) (d : Depacker) (s₀ : Cpu) : Prop where
  /-- The stack pointer. -/
  sp : s₀.sp = σ.sp S
  /-- The output address or the counter. -/
  outp : s₀.r1 = if σ.number.isSome then d.counter else d.outp
  /-- The register of this name. -/
  tmp0 : s₀.r2 = d.tmp0
  /-- The register of this name. -/
  tmp1 : s₀.r3 = d.tmp1
  /-- The return address. -/
  lr : s₀.lr = σ.ret ρ ||| 1
  /-- The register of this name. -/
  offset : s₀.r8 = d.offset
  /-- The stack pointer at the start. -/
  savedSp : s₀.r9 = S + 4096
  /-- The frame of `getnumber`. -/
  frame : ∀ k ∈ σ.number, NumberFrame ρ S k d.outp s₀.mem

/-- The depacker's state and the processor's. -/
def Rel (d : Depacker) (s : Cpu) : Prop :=
  match d.ctl with
  | .start =>
      s.pc = ρ.sym .codeStart ∧ s.thumb = false ∧ s.sp = S + 4096 ∧ s.r2 = d.tmp0 ∧
        s.r3 = d.tmp1 ∧ s.r8 = d.offset ∧ Set.EqOn s.mem d.mem (stack S)ᶜ
  | .init =>
      Regs S d s ∧ s.pc = ρ.sym .init ∧ s.sp = S + 4 * d.rvalue ∧ s.r1 = d.outp ∧
        1 ≤ d.rvalue.toNat ∧ d.rvalue.toNat ≤ 1024
  | .literal => InMain S (ρ.sym .literal) d s
  | .getlit => InMain S (ρ.sym .getlit) d s
  | .storeLiteral => InMain S (ρ.addr .getlit 16) d s
  | .switch => InMain S (ρ.sym .switch) d s
  | .readlength => InMain S (ρ.sym .readlength) d s
  | .copyloop => InMain S (ρ.sym .copyloop) d s
  | .copyStore => InMain S (ρ.addr .copyloop 2) d s
  | .readoffset => InMain S (ρ.sym .readoffset) d s
  | .done => InMain S (ρ.sym .donedecompressing) d s
  | .exit =>
      Regs S d s ∧ s.pc = ρ.addr .donedecompressing 4 ∧ s.sp = S + 4096 ∧ s.r1 = d.outp ∧
        ρ.config.debugChecks = false
  | .getnumber k => InMain S (ρ.sym .getnumber) d s ∧ s.lr = k.ret ρ ||| 1
  | .numberloop k => InNumber ρ S k (ρ.sym .numberloop) d s
  | .bitsloop k => InNumber ρ S k (ρ.sym .bitsloop) d s
  | .popNumber k => InNumber ρ S k (ρ.addr .bitsloop 14) d s
  | .gotNumber k => InMain S (k.ret ρ) d s
  | .getbit σ p =>
      ∃ s₀, Calling ρ S σ d s₀ ∧ InGetbit ρ (stack S) s₀ (p, d.toCoder) s ∧
        (p = .call → s.c = false)

/-- The store that the depacker is about to make misses the frames. -/
def Safe (d : Depacker) : Prop :=
  match d.ctl with
  | .storeLiteral | .copyStore => d.outp ∉ stack S
  | .getbit _ (.store slot _ _) => Disjoint (range slot 2) (stack S)
  | _ => True

variable {ρ S}

/-! ## Combining runs -/

theorem Rom.Leads.runs {R : Region} {x : Word} {s t : Cpu} (h : ρ.Leads R x s t)
    (hx : R.spOk S x) : ρ.Runs S s t := by
  obtain ⟨n, h⟩ := h
  exact ⟨n, h.mono fun _ hu => ⟨R, x, hu, hx⟩⟩

theorem Rom.Runs.trans {s t u : Cpu} (h₁ : ρ.Runs S s u) (hu : ρ.Inside S u)
    (h₂ : ρ.Runs S u t) : ρ.Runs S s t := by
  obtain ⟨_, h₁⟩ := h₁
  obtain ⟨_, h₂⟩ := h₂
  exact ⟨_, h₁.trans hu h₂⟩

/-! ## Calling `getbit` and returning from it -/

theorem stack_subset_site (σ : Site) : range (σ.sp S - 16) 16 ⊆ stack S := by
  rw [Site.sp, stack]
  split <;> exact range_subset (by bv_omega)

/-- A frame of `getbit` lies below that of `getnumber`. -/
theorem numberFrame_congr {k : Number} {outp : Word} {m m' : Mem}
    (h : Set.EqOn m m' (range (S - 8) 8)) (hf : NumberFrame ρ S k outp m') :
    NumberFrame ρ S k outp m := by
  rw [NumberFrame, loadWords_congr h]
  exact hf

theorem Site.ret_clear (σ : Site) : (σ.ret ρ ||| 1#32) &&& ~~~1#32 = σ.ret ρ := by
  cases σ <;> exact ρ.addr_clear rfl (by decide) (by decide)

theorem Number.ret_clear (k : Number) : (k.ret ρ ||| 1#32) &&& ~~~1#32 = k.ret ρ := by
  cases k <;> exact ρ.addr_clear rfl (by decide) (by decide)

/-- The caller's stack pointer is aligned. -/
theorem Calling.aligned {σ : Site} {d : Depacker} {s₀ : Cpu} (h : Calling ρ S σ d s₀)
    (hS : S.toNat % 4 = 0) : s₀.sp.toNat % 4 = 0 := by
  rw [h.sp, Site.sp]
  split <;> bv_omega

/-- A call of `getbit` from the main loop. -/
theorem InMain.calling {σ : Site} (hσ : σ.number = none) {d : Depacker} {s : Cpu}
    (h : InMain S (ρ.sym .getbit) d s) (hlr : s.lr = σ.ret ρ ||| 1) (hc : s.c = false)
    (hctl : d.ctl = .getbit σ .call) : Rel ρ S d s := by
  rw [Rel, hctl]
  refine ⟨s, ⟨?_, ?_, h.tmp0, h.tmp1, hlr, h.offset, h.savedSp, ?_⟩,
    ⟨h.thumb, h.inp, h.rvalue, h.isize, h.bitbuf, h.bitctx, rfl, rfl, ⟨rfl, rfl, rfl, rfl⟩, h.mem,
      fun _ _ => rfl,
      h.pc, ⟨rfl, rfl, rfl, rfl⟩, rfl⟩, fun _ => hc⟩
  · simp [Site.sp, hσ, h.sp]
  · simp [hσ, h.outp]
  · simp [hσ]

/-- A call of `getbit` from `getnumber`. -/
theorem InNumber.calling {σ : Site} {k : Number} (hσ : σ.number = some k) {d : Depacker} {s : Cpu}
    (h : InNumber ρ S k (ρ.sym .getbit) d s) (hlr : s.lr = σ.ret ρ ||| 1) (hc : s.c = false)
    (hctl : d.ctl = .getbit σ .call) : Rel ρ S d s := by
  rw [Rel, hctl]
  refine ⟨s, ⟨?_, ?_, h.tmp0, h.tmp1, hlr, h.offset, h.savedSp, ?_⟩,
    ⟨h.thumb, h.inp, h.rvalue, h.isize, h.bitbuf, h.bitctx, rfl, rfl, ⟨rfl, rfl, rfl, rfl⟩, h.mem,
      fun _ _ => rfl,
      h.pc, ⟨rfl, rfl, rfl, rfl⟩, rfl⟩, fun _ => hc⟩
  · simp [Site.sp, hσ, h.sp]
  · simp [hσ, h.counter]
  · simpa [hσ] using h.frame

section returning

variable {σ : Site} {bit : Bool} {d : Depacker} {s : Cpu} (hctl : d.ctl = .getbit σ (.ret bit))
  (h : Rel ρ S d s)
include hctl h

/-- Back in the main loop. -/
theorem Rel.returned (hσ : σ.number = none) : InMain S (σ.ret ρ) d s ∧ s.c = bit := by
  rw [Rel, hctl] at h
  obtain ⟨s₀, hcall, hin, -⟩ := h
  obtain ⟨hpc, hregs, hbit⟩ := hin.at_phase
  have hsp := hcall.sp
  have houtp := hcall.outp
  simp only [Site.sp, hσ, Option.isSome_none, Bool.false_eq_true, if_false] at hsp houtp
  refine ⟨⟨⟨hin.thumb, hin.inp, hregs.tmp0.trans hcall.tmp0, hregs.tmp1.trans hcall.tmp1,
    hin.rvalue, hin.isize, hin.bitbuf, hin.bitctx, hin.offset.trans hcall.offset,
    hin.savedSp.trans hcall.savedSp, hin.mem_out⟩, ?_, hregs.sp.trans hsp,
    hregs.outp.trans houtp⟩, hbit⟩
  rw [hpc, hcall.lr]
  exact σ.ret_clear

/-- Back in `getnumber`. -/
theorem Rel.returnedNumber {k : Number} (hσ : σ.number = some k) :
    InNumber ρ S k (σ.ret ρ) d s ∧ s.c = bit := by
  rw [Rel, hctl] at h
  obtain ⟨s₀, hcall, hin, -⟩ := h
  obtain ⟨hpc, hregs, hbit⟩ := hin.at_phase
  have hsp := hcall.sp
  have houtp := hcall.outp
  simp only [Site.sp, hσ, Option.isSome_some, if_true] at hsp houtp
  have hmem : Set.EqOn s.mem s₀.mem (range (S - 8) 8) := by
    refine hin.mem_in.mono (Set.subset_sdiff.mpr ⟨range_subset (by bv_omega), ?_⟩)
    rw [hsp]
    exact disjoint_range (by bv_omega) (by bv_omega)
  refine ⟨⟨⟨hin.thumb, hin.inp, hregs.tmp0.trans hcall.tmp0, hregs.tmp1.trans hcall.tmp1,
    hin.rvalue, hin.isize, hin.bitbuf, hin.bitctx, hin.offset.trans hcall.offset,
    hin.savedSp.trans hcall.savedSp, hin.mem_out⟩, ?_, hregs.sp.trans hsp,
    hregs.outp.trans houtp, numberFrame_congr hmem (hcall.frame k hσ)⟩, hbit⟩
  rw [hpc, hcall.lr]
  exact σ.ret_clear

end returning

/-! ## The blocks outside `getbit` -/

section blocks

attribute [local simp] execs exec Cpu.reg Cpu.set Cpu.setNZ Cpu.setFlags Cpu.next Cpu.holds
  Cpu.loadRegs Instr.size Rom.addr_add Rom.sym_add Rom.image_sym Rom.addr_getkind_end
  Rom.addr_codeStart_end Rom.addr_init_end Rom.addr_literal_end Rom.addr_getlit_end
  Rom.addr_switch_end Rom.addr_readlength_end Rom.addr_copyloop_end Rom.addr_readoffset_end

variable {d : Depacker} {s : Cpu}

theorem InMain.getkind (h : InMain S (ρ.sym .getkind) d s) :
    ∃ t, ρ.Runs S s t ∧ InMain S (ρ.sym .getbit)
      { d with bitctx := Depacker.kindContext d.outp } t ∧ t.lr = s.lr ∧ t.c = false := by
  have hleads : ρ.Leads .getkind S s
      { s with r7 := Depacker.kindContext s.r1, pc := ρ.sym .getbit, c := false
               n := (Depacker.kindContext s.r1).msb, z := Depacker.kindContext s.r1 == 0 } :=
    ρ.block_getkind.leads (by simp [h.pc]) h.thumb (by simp [h.pc, Depacker.kindContext]) h.sp
  refine ⟨_, hleads.runs rfl, ⟨⟨h.thumb, h.inp, h.tmp0, h.tmp1, h.rvalue, h.isize, h.bitbuf, ?_,
    h.offset, h.savedSp, h.mem⟩, rfl, h.sp, h.outp⟩, rfl, rfl⟩
  rw [h.outp]

theorem InMain.literal (h : InMain S (ρ.sym .literal) d s) :
    ∃ t, ρ.Runs S s t ∧ InMain S (ρ.sym .getlit) { d with ctl := .getlit, tmp0 := 1 } t := by
  have hleads : ρ.Leads .main S s
      { s with r2 := 1, pc := ρ.sym .getlit, n := false, z := false } :=
    ρ.block_literal.leads (by simp [h.pc]) h.thumb (by simp [h.pc]) h.sp
  exact ⟨_, hleads.runs rfl, ⟨h.thumb, h.inp, rfl, h.tmp1, h.rvalue, h.isize, h.bitbuf, h.bitctx,
    h.offset, h.savedSp, h.mem⟩, rfl, h.sp, h.outp⟩

theorem InMain.getlit (h : InMain S (ρ.sym .getlit) d s) :
    ∃ t, ρ.Runs S s t ∧ Rel ρ S (d.call .literal (Depacker.kindContext d.outp ||| d.tmp0)) t := by
  have hleads : ρ.Leads .main S s
      { s with r7 := Depacker.kindContext s.r1 ||| s.r2, pc := ρ.sym .getbit, c := false
               lr := ρ.addr .getlit 10 ||| 1
               n := (Depacker.kindContext s.r1 ||| s.r2).msb
               z := Depacker.kindContext s.r1 ||| s.r2 == 0 } :=
    ρ.block_getlit.leads (by simp [h.pc]) h.thumb (by simp [h.pc, Depacker.kindContext]) h.sp
  rw [h.outp, h.tmp0] at hleads
  refine ⟨_, hleads.runs rfl, InMain.calling (σ := .literal) rfl ?_ rfl rfl rfl⟩
  exact ⟨⟨h.thumb, h.inp, rfl, h.tmp1, h.rvalue, h.isize, h.bitbuf, rfl, h.offset, h.savedSp,
    h.mem⟩, rfl, h.sp, rfl⟩

/-- The `bls` after a comparison with 255. -/
theorem holds_ls (x : Word) :
    (!carrySub x 255#32 || x - 255#32 == 0#32) = Decidable.decide (x.toNat ≤ 255) := by
  rw [Bool.eq_iff_iff]
  simp only [carrySub, Bool.or_eq_true, Bool.not_eq_true', decide_eq_false_iff_not, beq_iff_eq,
    decide_eq_true_eq]
  bv_omega

theorem InMain.literalBit {bit : Bool} (h : InMain S (Site.ret ρ .literal) d s) (hc : s.c = bit) :
    ∃ t, ρ.Runs S s t ∧ Rel ρ S (d.received bit .literal) t := by
  have hpc : s.pc = ρ.addr .getlit 10 := h.pc
  generalize hx : s.r2 + s.r2 + Depacker.bitWord s.c = x
  have hleads : ρ.Leads .main S s
      { s with r2 := x
               pc := if !carrySub x 255#32 || x - 255#32 == 0#32 then ρ.sym .getlit
                 else ρ.addr .getlit 16
               n := (x - 255).msb, z := x - 255 == 0, c := carrySub x 255
               v := overflowSub x 255 } :=
    ρ.block_afterLiteralBit.leads hpc h.thumb
      (by simp only [Depacker.bitWord] at hx; simp [hpc, hx]) h.sp
  simp only [holds_ls, decide_eq_true_eq] at hleads
  rw [Depacker.received, ← h.tmp0, ← hc, hx]
  refine ⟨_, hleads.runs rfl, ?_⟩
  have hregs (pc : Word) (ctl : Control) : InMain S pc { d with tmp0 := x, ctl := ctl }
      { s with r2 := x, pc := pc, n := (x - 255).msb, z := x - 255 == 0, c := carrySub x 255
               v := overflowSub x 255 } :=
    ⟨⟨h.thumb, h.inp, rfl, h.tmp1, h.rvalue, h.isize, h.bitbuf, h.bitctx, h.offset, h.savedSp,
      h.mem⟩, rfl, h.sp, h.outp⟩
  by_cases hle : x.toNat ≤ 255
  · simp only [if_pos hle]
    exact hregs _ .getlit
  · simp only [if_neg hle]
    exact hregs _ .storeLiteral

theorem InMain.storeLiteral (h : InMain S (ρ.addr .getlit 16) d s) :
    ∃ t, ρ.Runs S s t ∧ InMain S (ρ.sym .switch)
      { d with ctl := .switch, outp := d.outp + 1
               mem := store8 d.mem d.outp (d.tmp0.setWidth 8) } t := by
  have hleads : ρ.Leads .main S s
      { s with r1 := s.r1 + 1, pc := ρ.sym .switch, mem := store8 s.mem s.r1 (s.r2.setWidth 8)
               n := (s.r1 + 1).msb, z := s.r1 + 1 == 0, c := carryAdd s.r1 1 false
               v := overflowAdd s.r1 1 false } :=
    ρ.block_storeLiteral.leads h.pc h.thumb (by simp [h.pc]) h.sp
  rw [h.outp, h.tmp0] at hleads
  exact ⟨_, hleads.runs rfl, ⟨h.thumb, h.inp, rfl, h.tmp1, h.rvalue, h.isize, h.bitbuf, h.bitctx,
    h.offset, h.savedSp, store8_congr _ h.mem _⟩, rfl, h.sp, rfl⟩

/-- A `bl` to `getkind`. -/
theorem InMain.callKind {σ : Site} (hσ : σ.number = none)
    (hb : ρ.Block .main s.pc [.bl .getkind]) (hret : s.pc + 4#32 = σ.ret ρ)
    (h : InMain S s.pc d s) :
    ∃ t, ρ.Runs S s t ∧ Rel ρ S (d.call σ (Depacker.kindContext d.outp)) t := by
  have hleads : ρ.Leads .main S s { s with pc := ρ.sym .getkind, lr := σ.ret ρ ||| 1 } :=
    Rom.leads_of_step (hb.step rfl h.thumb (by simp [hret]))
  have hkind : InMain S (ρ.sym .getkind) d { s with pc := ρ.sym .getkind, lr := σ.ret ρ ||| 1 } :=
    ⟨⟨h.thumb, h.inp, h.tmp0, h.tmp1, h.rvalue, h.isize, h.bitbuf, h.bitctx, h.offset, h.savedSp,
      h.mem⟩, rfl, h.sp, h.outp⟩
  have hlo : romStart + Region.lo ρ.config.toOptions .getkind ≤ (ρ.addr .getkind 0).toNat :=
    Rom.lo_le_addr rfl (by decide) (by decide)
  obtain ⟨t, hruns, ht, hlr, hc⟩ := hkind.getkind
  refine ⟨t, (hleads.runs rfl).trans ⟨.getkind, S, ?_, rfl⟩ hruns, ?_⟩
  · exact ρ.block_getkind.within hlo rfl (by simp) h.thumb h.sp
  · exact InMain.calling hσ (d := d.call σ (Depacker.kindContext d.outp)) ⟨⟨ht.thumb, ht.inp,
      ht.tmp0, ht.tmp1, ht.rvalue, ht.isize, ht.bitbuf, ht.bitctx, ht.offset, ht.savedSp, ht.mem⟩,
      ht.pc, ht.sp, ht.outp⟩ hlr hc rfl

theorem InMain.switch (h : InMain S (ρ.sym .switch) d s) :
    ∃ t, ρ.Runs S s t ∧ Rel ρ S (d.call .kindAfterLiteral (Depacker.kindContext d.outp)) t := by
  have hpc := h.pc
  refine InMain.callKind rfl ?_ ?_ (by rw [hpc]; exact h)
  · rw [hpc, ← ρ.addr_zero]
    exact ρ.block_switch
  · rw [hpc]
    rfl

theorem InMain.kindAfterLiteralBit {bit : Bool} (h : InMain S (Site.ret ρ .kindAfterLiteral) d s)
    (hc : s.c = bit) :
    ∃ t, ρ.Runs S s t ∧ Rel ρ S (d.received bit .kindAfterLiteral) t := by
  have hpc : s.pc = ρ.addr .switch 4 := h.pc
  cases bit with
  | false =>
      have hleads : ρ.Leads .main S s { s with pc := ρ.sym .literal } :=
        (ρ.block_kindAfterLiteral.take 0).leads hpc h.thumb (by simp [hc]) h.sp
      exact ⟨_, hleads.runs rfl, ⟨h.thumb, h.inp, h.tmp0, h.tmp1, h.rvalue, h.isize, h.bitbuf,
        h.bitctx, h.offset, h.savedSp, h.mem⟩, rfl, h.sp, h.outp⟩
  | true =>
      have hleads : ρ.Leads .main S s
          { s with r7 := -1, pc := ρ.sym .getbit, lr := ρ.addr .switch 14 ||| 1, n := true
                   z := false, c := false, v := false } :=
        ρ.block_kindAfterLiteral.leads hpc h.thumb
          (by simp [hpc, hc, carrySub, overflowSub]; decide) h.sp
      refine ⟨_, hleads.runs rfl, InMain.calling (σ := .repeated) rfl ?_ rfl rfl rfl⟩
      exact ⟨⟨h.thumb, h.inp, h.tmp0, h.tmp1, h.rvalue, h.isize, h.bitbuf, rfl, h.offset, h.savedSp,
        h.mem⟩, rfl, h.sp, h.outp⟩

theorem InMain.repeatedBit {bit : Bool} (h : InMain S (Site.ret ρ .repeated) d s) (hc : s.c = bit) :
    ∃ t, ρ.Runs S s t ∧ Rel ρ S (d.received bit .repeated) t := by
  have hpc : s.pc = ρ.addr .switch 14 := h.pc
  have hleads : ρ.Leads .main S s
      { s with pc := if bit then ρ.sym .readlength else ρ.sym .readoffset } :=
    ρ.block_repeated.leads hpc h.thumb (by cases bit <;> simp [hpc, hc]) h.sp
  refine ⟨_, hleads.runs rfl, ?_⟩
  cases bit <;>
    exact ⟨⟨h.thumb, h.inp, h.tmp0, h.tmp1, h.rvalue, h.isize, h.bitbuf, h.bitctx, h.offset,
      h.savedSp, h.mem⟩, rfl, h.sp, h.outp⟩

theorem InMain.readlength (h : InMain S (ρ.sym .readlength) d s) :
    ∃ t, ρ.Runs S s t ∧ Rel ρ S { d with ctl := .getnumber .length, tmp0 := 4 } t := by
  have hleads : ρ.Leads .main S s
      { s with r2 := 4, pc := ρ.sym .getnumber, lr := ρ.addr .readlength 6 ||| 1
               n := (4 : Word).msb, z := false } :=
    ρ.block_readlength.leads (by simp [h.pc]) h.thumb (by simp [h.pc]) h.sp
  exact ⟨_, hleads.runs rfl, ⟨⟨h.thumb, h.inp, rfl, h.tmp1, h.rvalue, h.isize, h.bitbuf, h.bitctx,
    h.offset, h.savedSp, h.mem⟩, rfl, h.sp, h.outp⟩, rfl⟩

theorem InMain.readoffset (h : InMain S (ρ.sym .readoffset) d s) :
    ∃ t, ρ.Runs S s t ∧ Rel ρ S { d with ctl := .getnumber .offset, tmp0 := 3 } t := by
  have hleads : ρ.Leads .main S s
      { s with r2 := 3, pc := ρ.sym .getnumber, lr := ρ.addr .readoffset 6 ||| 1
               n := (3 : Word).msb, z := false } :=
    ρ.block_readoffset.leads (by simp [h.pc]) h.thumb (by simp [h.pc]) h.sp
  exact ⟨_, hleads.runs rfl, ⟨⟨h.thumb, h.inp, rfl, h.tmp1, h.rvalue, h.isize, h.bitbuf, h.bitctx,
    h.offset, h.savedSp, h.mem⟩, rfl, h.sp, h.outp⟩, rfl⟩

theorem InMain.gotLength (h : InMain S (Number.ret ρ .length) d s) :
    ∃ t, ρ.Runs S s t ∧
      InMain S (ρ.sym .copyloop) { d with ctl := .copyloop, tmp0 := 0 - d.offset } t := by
  have hpc : s.pc = ρ.addr .readlength 6 := h.pc
  have hleads : ρ.Leads .main S s
      { s with r2 := 0 - s.r8, pc := ρ.sym .copyloop, n := (0 - s.r8).msb, z := 0 - s.r8 == 0
               c := carrySub 0 s.r8, v := overflowSub 0 s.r8 } :=
    ρ.block_gotLength.leads hpc h.thumb (by simp [hpc]) h.sp
  rw [h.offset] at hleads
  exact ⟨_, hleads.runs rfl, ⟨h.thumb, h.inp, rfl, h.tmp1, h.rvalue, h.isize, h.bitbuf, h.bitctx,
    rfl, h.savedSp, h.mem⟩, rfl, h.sp, h.outp⟩

theorem InMain.gotOffset (h : InMain S (Number.ret ρ .offset) d s) :
    ∃ t, ρ.Runs S s t ∧ Rel ρ S
      { d with ctl := if d.tmp1 - 2 = 0 then .done else .readlength, tmp1 := d.tmp1 - 2
               offset := d.tmp1 - 2 } t := by
  have hpc : s.pc = ρ.addr .readoffset 6 := h.pc
  have hleads : ρ.Leads .main S s
      { s with r3 := s.r3 - 2, r8 := s.r3 - 2
               pc := if s.r3 - 2 = 0 then ρ.sym .donedecompressing else ρ.sym .readlength
               n := (s.r3 - 2).msb, z := s.r3 - 2 == 0, c := carrySub s.r3 2
               v := overflowSub s.r3 2 } :=
    ρ.block_gotOffset.leads hpc h.thumb (by simp [hpc]) h.sp
  rw [h.tmp1] at hleads
  refine ⟨_, hleads.runs rfl, ?_⟩
  have hregs (pc : Word) (ctl : Control) : InMain S pc
      { d with ctl := ctl, tmp1 := d.tmp1 - 2, offset := d.tmp1 - 2 }
      { s with r3 := d.tmp1 - 2, r8 := d.tmp1 - 2, pc := pc, n := (d.tmp1 - 2).msb
               z := d.tmp1 - 2 == 0, c := carrySub d.tmp1 2, v := overflowSub d.tmp1 2 } :=
    ⟨⟨h.thumb, h.inp, h.tmp0, rfl, h.rvalue, h.isize, h.bitbuf, h.bitctx, rfl, h.savedSp, h.mem⟩,
      rfl, h.sp, h.outp⟩
  by_cases h0 : d.tmp1 - 2 = 0
  · simp only [if_pos h0]
    exact hregs _ .done
  · simp only [if_neg h0]
    exact hregs _ .readlength

theorem InMain.copyloop (h : InMain S (ρ.sym .copyloop) d s) :
    ∃ t, ρ.Runs S s t ∧ InMain S (ρ.addr .copyloop 2)
      { d with ctl := .copyStore, bitctx := (s.mem (d.outp + d.tmp0)).setWidth 32 } t := by
  have hleads : ρ.Leads .main S s
      { s with r7 := (s.mem (s.r1 + s.r2)).setWidth 32, pc := ρ.addr .copyloop 2 } :=
    ρ.block_copyloop.leads (by simp [h.pc]) h.thumb (by simp [h.pc]) h.sp
  rw [h.outp, h.tmp0] at hleads
  exact ⟨_, hleads.runs rfl, ⟨h.thumb, h.inp, rfl, h.tmp1, h.rvalue, h.isize, h.bitbuf, rfl,
    h.offset, h.savedSp, h.mem⟩, rfl, h.sp, rfl⟩

theorem InMain.kindAfterReferenceBit {bit : Bool}
    (h : InMain S (Site.ret ρ .kindAfterReference) d s) (hc : s.c = bit) :
    ∃ t, ρ.Runs S s t ∧ Rel ρ S (d.received bit .kindAfterReference) t := by
  have hpc : s.pc = ρ.addr .copyloop 14 := h.pc
  have hleads : ρ.Leads .main S s
      { s with pc := if bit then ρ.sym .readoffset else ρ.sym .literal } :=
    ρ.block_kindAfterReference.leads hpc h.thumb (by cases bit <;> simp [hpc, hc]) h.sp
  refine ⟨_, hleads.runs rfl, ?_⟩
  cases bit <;>
    exact ⟨⟨h.thumb, h.inp, h.tmp0, h.tmp1, h.rvalue, h.isize, h.bitbuf, h.bitctx, h.offset,
      h.savedSp, h.mem⟩, rfl, h.sp, h.outp⟩

theorem InMain.done (hdebug : ρ.config.debugChecks = false)
    (h : InMain S (ρ.sym .donedecompressing) d s) :
    ∃ t, ρ.Runs S s t ∧ Rel ρ S { d with ctl := .exit, outp := ρ.config.entry } t := by
  have hleads : ρ.Leads .exit (S + 4096) s
      { s with r1 := ρ.config.entry, sp := S + 4096, pc := ρ.addr .donedecompressing 4 } :=
    (ρ.block_donedecompressing hdebug).leads (by simp [h.pc]) h.thumb
      (by simp [h.pc, h.savedSp]) rfl
  exact ⟨_, hleads.runs rfl, ⟨h.thumb, h.inp, h.tmp0, h.tmp1, h.rvalue, h.isize, h.bitbuf,
    h.bitctx, h.offset, h.savedSp, h.mem⟩, rfl, rfl, rfl, hdebug⟩

theorem InMain.copyStore (h : InMain S (ρ.addr .copyloop 2) d s) {d' : Depacker}
    (hd' : d' = { d with outp := d.outp + 1, tmp1 := d.tmp1 - 1
                         mem := store8 d.mem d.outp (d.bitctx.setWidth 8) }) :
    ∃ t, ρ.Runs S s t ∧ Rel ρ S
      (if d'.tmp1 = 0 then d'.call .kindAfterReference (Depacker.kindContext d'.outp)
        else { d' with ctl := .copyloop }) t := by
  let u (pc lr : Word) : Cpu :=
    { s with r1 := s.r1 + 1, r3 := s.r3 - 1, mem := store8 s.mem s.r1 (s.r7.setWidth 8)
             pc := pc, lr := lr, n := (s.r3 - 1).msb, z := s.r3 - 1 == 0, c := carrySub s.r3 1
             v := overflowSub s.r3 1 }
  have hu (pc lr : Word) (ctl : Control) : InMain S pc { d' with ctl := ctl } (u pc lr) := by
    subst hd'
    refine ⟨⟨h.thumb, h.inp, h.tmp0, ?_, h.rvalue, h.isize, h.bitbuf, h.bitctx, h.offset,
      h.savedSp, ?_⟩, rfl, h.sp, ?_⟩
    · show s.r3 - 1 = d.tmp1 - 1
      rw [h.tmp1]
    · show Set.EqOn (store8 s.mem s.r1 _) (store8 d.mem d.outp _) _
      rw [h.outp, h.bitctx]
      exact store8_congr _ h.mem _
    · show s.r1 + 1 = d.outp + 1
      rw [h.outp]
  have htmp1 : d'.tmp1 = s.r3 - 1#32 := by
    rw [hd', h.tmp1]
    rfl
  by_cases h0 : d'.tmp1 = 0
  · -- The last byte: on to the kind of the next symbol.
    have hz : s.r3 - 1#32 = 0#32 := htmp1.symm.trans h0
    have hleads : ρ.Leads .main S s (u (ρ.sym .getkind) (ρ.addr .copyloop 14 ||| 1)) :=
      ρ.block_copyStore.leads h.pc h.thumb (by simp [u, h.pc, hz]) h.sp
    have hlo : romStart + Region.lo ρ.config.toOptions .getkind ≤ (ρ.addr .getkind 0).toNat :=
      Rom.lo_le_addr rfl (by decide) (by decide)
    obtain ⟨t, hruns, ht, hlr, hc⟩ := (hu (ρ.sym .getkind) (ρ.addr .copyloop 14 ||| 1)
      .copyloop).getkind
    rw [if_pos h0]
    refine ⟨t, (hleads.runs rfl).trans ⟨.getkind, S, ?_, rfl⟩ hruns, ?_⟩
    · exact ρ.block_getkind.within hlo rfl (by simp [u]) h.thumb h.sp
    · exact InMain.calling (σ := .kindAfterReference) rfl ⟨⟨ht.thumb, ht.inp, ht.tmp0, ht.tmp1,
        ht.rvalue, ht.isize, ht.bitbuf, ht.bitctx, ht.offset, ht.savedSp, ht.mem⟩, ht.pc, ht.sp,
        ht.outp⟩ hlr hc rfl
  · have hz : ¬s.r3 - 1#32 = 0#32 := fun hz => h0 (htmp1.trans hz)
    have hleads : ρ.Leads .main S s (u (ρ.sym .copyloop) s.lr) :=
      (ρ.block_copyStore.take 3).leads h.pc h.thumb (by simp [u, h.pc, hz]) h.sp
    rw [if_neg h0]
    exact ⟨_, hleads.runs rfl, hu _ _ .copyloop⟩

/-! ### `getnumber` -/

theorem InMain.getnumber (hS : S.toNat % 4 = 0) {k : Number} (h : InMain S (ρ.sym .getnumber) d s)
    (hlr : s.lr = k.ret ρ ||| 1) :
    ∃ t, ρ.Runs S s t ∧ InNumber ρ S k (ρ.sym .numberloop)
      { d with ctl := .numberloop k, tmp0 := d.tmp0 <<< 8, counter := 0 } t := by
  have halign : align4 (S - 8) = S - 8 := align4_of_aligned (by bv_omega)
  have hleads : ρ.Leads .getnumber (s.sp - 8) s _ :=
    (executes_getnumber h.thumb h.pc).leads rfl
  rw [h.sp, halign, h.outp, hlr, h.tmp0] at hleads
  have hmem : Set.EqOn (storeWords s.mem (S - 8) [d.outp, k.ret ρ ||| 1]) s.mem (stack S)ᶜ :=
    (storeWords_eqOn _ _ (by simp)).mono
      (Set.compl_subset_compl.mpr (range_subset (by simp)))
  exact ⟨_, hleads.runs rfl, ⟨h.thumb, h.inp, rfl, h.tmp1, h.rvalue, h.isize, h.bitbuf, h.bitctx,
    h.offset, h.savedSp, hmem.trans h.mem⟩, rfl, rfl, rfl, loadWords_storeWords _ _ (by simp)⟩

theorem InNumber.numberloop {k : Number} (h : InNumber ρ S k (ρ.sym .numberloop) d s) :
    ∃ t, ρ.Runs S s t ∧ Rel ρ S
      { d.call (.unary k) (d.tmp0 ||| (d.counter + 2)) with counter := d.counter + 2 } t := by
  have hleads : ρ.Leads .getnumber (S - 8) s _ := (executes_numberloop h.thumb h.pc).leads h.sp
  rw [h.counter, h.tmp0] at hleads
  refine ⟨_, hleads.runs rfl, InNumber.calling (σ := .unary k) rfl ?_ rfl rfl rfl⟩
  exact ⟨⟨h.thumb, h.inp, rfl, h.tmp1, h.rvalue, h.isize, h.bitbuf, rfl, h.offset, h.savedSp,
    h.mem⟩, rfl, h.sp, rfl, h.frame⟩

theorem InNumber.unaryBit {k : Number} {bit : Bool} (h : InNumber ρ S k (Site.ret ρ (.unary k)) d s)
    (hc : s.c = bit) : ∃ t, ρ.Runs S s t ∧ Rel ρ S (d.received bit (.unary k)) t := by
  have hpc : s.pc = ρ.addr .numberloop 10 := h.pc
  cases bit with
  | true =>
      have hleads : ρ.Leads .getnumber (S - 8) s _ :=
        (executes_unaryOne h.thumb hpc hc).leads h.sp
      exact ⟨_, hleads.runs rfl, ⟨h.thumb, h.inp, h.tmp0, h.tmp1, h.rvalue, h.isize, h.bitbuf,
        h.bitctx, h.offset, h.savedSp, h.mem⟩, rfl, h.sp, h.counter, h.frame⟩
  | false =>
      have hleads : ρ.Leads .getnumber (S - 8) s _ :=
        (executes_unaryZero h.thumb hpc hc).leads h.sp
      rw [h.counter] at hleads
      exact ⟨_, hleads.runs rfl, ⟨h.thumb, h.inp, h.tmp0, rfl, h.rvalue, h.isize, h.bitbuf,
        h.bitctx, h.offset, h.savedSp, h.mem⟩, rfl, h.sp, rfl, h.frame⟩

theorem InNumber.bitsloop {k : Number} (h : InNumber ρ S k (ρ.sym .bitsloop) d s) :
    ∃ t, ρ.Runs S s t ∧ Rel ρ S (d.call (.digit k) (d.tmp0 ||| d.counter)) t := by
  have hleads : ρ.Leads .getnumber (S - 8) s _ := (executes_bitsloop h.thumb h.pc).leads h.sp
  rw [h.counter, h.tmp0] at hleads
  refine ⟨_, hleads.runs rfl, InNumber.calling (σ := .digit k) rfl ?_ rfl rfl rfl⟩
  exact ⟨⟨h.thumb, h.inp, rfl, h.tmp1, h.rvalue, h.isize, h.bitbuf, rfl, h.offset, h.savedSp,
    h.mem⟩, rfl, h.sp, rfl, h.frame⟩

theorem InNumber.digitBit {k : Number} {bit : Bool} (h : InNumber ρ S k (Site.ret ρ (.digit k)) d s)
    (hc : s.c = bit) : ∃ t, ρ.Runs S s t ∧ Rel ρ S (d.received bit (.digit k)) t := by
  have hleads : ρ.Leads .getnumber (S - 8) s _ := (executes_digit h.thumb h.pc).leads h.sp
  rw [h.counter, h.tmp1, hc] at hleads
  refine ⟨_, hleads.runs rfl, ?_⟩
  have hregs (pc : Word) (ctl : Control) : InNumber ρ S k pc
      { d with ctl := ctl, tmp1 := d.tmp1 + d.tmp1 + Depacker.bitWord bit
               counter := d.counter - 2 }
      { s with r1 := d.counter - 2, r3 := d.tmp1 + d.tmp1 + Depacker.bitWord bit, pc := pc
               n := (d.counter - 2).msb, z := d.counter - 2 == 0, c := carrySub d.counter 2
               v := overflowSub d.counter 2 } :=
    ⟨⟨h.thumb, h.inp, h.tmp0, rfl, h.rvalue, h.isize, h.bitbuf, h.bitctx, h.offset, h.savedSp,
      h.mem⟩, rfl, h.sp, rfl, h.frame⟩
  rw [Depacker.received]
  by_cases h2 : 2 ≤ d.counter.toNat
  · have hcarry : carrySub d.counter 2 = true := decide_eq_true h2
    simp only [if_pos h2, hcarry, if_true]
    have ht := hregs (ρ.sym .bitsloop) (.bitsloop k)
    simp only [hcarry] at ht
    exact ht
  · have hcarry : carrySub d.counter 2 = false := decide_eq_false h2
    simp only [if_neg h2, hcarry, Bool.false_eq_true, if_false]
    have ht := hregs (ρ.addr .bitsloop 14) (.popNumber k)
    simp only [hcarry] at ht
    exact ht

/-- `getnumber` pops what it pushed. -/
theorem InNumber.exec_pop (hS : S.toNat % 4 = 0) {k : Number} {pc : Word}
    (h : InNumber ρ S k pc d s) : exec ρ.image s (.popPc [.r1]) =
      some { s with r1 := d.outp, sp := S, pc := k.ret ρ } := by
  have halign : align4 s.sp = S - 8 := by
    rw [h.sp]
    exact align4_of_aligned (by bv_omega)
  have hframe := h.frame
  simp only [NumberFrame, loadWords, List.cons.injEq, and_true] at hframe
  have hret : load32 s.mem (S - 8 + 4) &&& ~~~1#32 = k.ret ρ := by
    rw [hframe.2]
    exact k.ret_clear
  have hsp : s.sp + 8 = S := by
    rw [h.sp]
    simp
  have hexec := exec_popNumber (ρ := ρ) s
  rw [halign, hframe.1, hret, hsp] at hexec
  exact hexec

theorem InNumber.pop (hS : S.toNat % 4 = 0) {k : Number}
    (h : InNumber ρ S k (ρ.addr .bitsloop 14) d s) :
    ∃ t, ρ.Runs S s t ∧ InMain S (k.ret ρ) { d with ctl := .gotNumber k } t := by
  have hleads : ρ.Leads .getnumber (S - 8) s { s with r1 := d.outp, sp := S, pc := k.ret ρ } :=
    Rom.leads_of_step (ρ.block_popGetnumber.step h.pc h.thumb (h.exec_pop hS))
  exact ⟨_, hleads.runs rfl, ⟨h.thumb, h.inp, h.tmp0, h.tmp1, h.rvalue, h.isize, h.bitbuf,
    h.bitctx, h.offset, h.savedSp, h.mem⟩, rfl, rfl, rfl⟩

/-! ### The start -/

/-- The parameters of a ROM, for a main loop's stack pointer. -/
def Rom.params (ρ : Rom) (S : Word) : Depacker.Params where
  debugChecks := ρ.config.debugChecks
  load := ρ.config.loadAddress
  entry := ρ.config.entry
  intro := ρ.sym .packedIntro
  S := S

@[simp] theorem Rom.params_debugChecks (ρ : Rom) (S : Word) :
    (ρ.params S).debugChecks = ρ.config.debugChecks := by
  rw [Rom.params]

theorem leads_setup (ht : s.thumb = true) (hpc : s.pc = ρ.addr .codeStart 8) :
    ρ.Leads .start s.sp s
      { s with r0 := ρ.sym .packedIntro, r1 := ρ.config.loadAddress, r5 := 1, r9 := s.sp
               pc := ρ.addr .codeStart 16, n := false, z := false } :=
  ρ.block_setup.leads hpc ht (by simp [hpc]) rfl

theorem leads_shifts (ht : s.thumb = true) (hpc : s.pc = ρ.addr .codeStart 16) :
    ρ.Leads .start s.sp s
      { s with r4 := s.r5 <<< 10, r6 := s.r5 <<< 31, r7 := s.r5 <<< 15 ||| s.r5 <<< 31
               pc := ρ.sym .init, n := (s.r5 <<< 15 ||| s.r5 <<< 31).msb
               z := s.r5 <<< 15 ||| s.r5 <<< 31 == 0, c := s.r5.getLsbD 17 } := by
  have hlog : Nat.log2 (numContexts / 2) = 10 ∧ Nat.log2 initOneProb = 15 := by decide
  exact ρ.block_shifts.leads hpc ht (by simp [hpc, hlog]) rfl

theorem leads_start (ht : s.thumb = true) (hpc : s.pc = ρ.addr .codeStart 8) :
    ρ.Leads .start s.sp s
      { s with r0 := ρ.sym .packedIntro, r1 := ρ.config.loadAddress, r4 := 1024, r5 := 1
               r6 := 0x80000000, r7 := 0x80008000, r9 := s.sp
               pc := ρ.sym .init, n := true, z := false, c := false } := by
  have hlo :
      romStart + Region.lo ρ.config.toOptions .start ≤ (ρ.addr .codeStart 16).toNat :=
    Rom.lo_le_addr rfl (by decide) fun _ => Nat.le_add_right _ _
  have hr4 : (1 : Word) <<< 10 = 1024 := by decide
  have hr6 : (1 : Word) <<< 31 = 0x80000000 := by decide
  have hr7 : (1 : Word) <<< 15 ||| (0x80000000 : Word) = 0x80008000 := by decide
  have hn : (0x80008000 : Word).msb = true := by decide
  have hz : ((0x80008000 : Word) == 0) = false := by decide
  have hc : (1 : Word).getLsbD 17 = false := by decide
  have hshifts := leads_shifts (ρ := ρ) (s := { s with
    r0 := ρ.sym .packedIntro, r1 := ρ.config.loadAddress, r5 := 1, r9 := s.sp
    pc := ρ.addr .codeStart 16, n := false, z := false }) ht rfl
  simp only [hr4, hr6, hr7, hn, hz, hc] at hshifts
  exact (leads_setup ht hpc).trans (ρ.block_shifts.within hlo rfl rfl ht rfl) hshifts

/-- The entry point switches to Thumb state. -/
theorem step_codeStart (hpc : s.pc = ρ.sym .codeStart) (ht : s.thumb = false) :
    stepToBx ρ.image s =
      some { s with r0 := s.pc + 9, pc := ρ.addr .codeStart 8, thumb := true } := by
  have hfetch : ρ.image.fetch (ρ.sym .codeStart) = some (.armToThumb inp) := by
    rw [← ρ.addr_zero]
    exact ρ.fetch_codeStart
  simp [stepToBx, step, hfetch, Instr.isArm, ht, hpc]

theorem runs_start (hpc : s.pc = ρ.sym .codeStart) (ht : s.thumb = false) (hsp : s.sp = S + 4096)
    (htmp0 : s.r2 = d.tmp0) (htmp1 : s.r3 = d.tmp1) (hoffset : s.r8 = d.offset)
    (hmem : Set.EqOn s.mem d.mem (stack S)ᶜ) :
    ∃ t, ρ.Runs S s t ∧ Rel ρ S
      { d with ctl := .init, inp := ρ.sym .packedIntro, outp := ρ.config.loadAddress, isize := 1
               bitbuf := 0x80000000, rvalue := 1024, bitctx := 0x80008000 } t := by
  have hlo :
      romStart + Region.lo ρ.config.toOptions .start ≤ (ρ.addr .codeStart 8).toNat :=
    Rom.lo_le_addr rfl (by decide) fun _ => Nat.le_add_right _ _
  obtain ⟨n, hstart⟩ := leads_start (ρ := ρ) (s := { s with
    r0 := s.pc + 9, pc := ρ.addr .codeStart 8, thumb := true }) rfl rfl
  have hin : ρ.Inside S { s with r0 := s.pc + 9, pc := ρ.addr .codeStart 8, thumb := true } :=
    ⟨.start, s.sp, ρ.block_setup.within hlo rfl rfl rfl rfl, trivial⟩
  have htop : s.sp = S + 4 * 1024 := by
    rw [hsp]
    simp
  have hcount : 1 ≤ (1024 : Word).toNat ∧ (1024 : Word).toNat ≤ 1024 := by decide
  refine ⟨_, ⟨_, .cons (step_codeStart hpc ht) hin
    (hstart.mono fun _ hv => ⟨.start, _, hv, trivial⟩)⟩, ?_⟩
  exact ⟨⟨rfl, rfl, htmp0, htmp1, rfl, rfl, rfl, rfl, hoffset, hsp, hmem⟩, rfl, htop, rfl, hcount⟩

theorem runs_init (hS : S.toNat % 4 = 0) (h : Regs S d s) (hpc : s.pc = ρ.sym .init)
    (hsp : s.sp = S + 4 * d.rvalue) (houtp : s.r1 = d.outp) (hlo : 1 ≤ d.rvalue.toNat)
    (hhi : d.rvalue.toNat ≤ 1024) :
    ∃ t, ρ.Runs S s t ∧ Rel ρ S
      { d with ctl := if d.rvalue - 1 = 0 then .literal else .init, rvalue := d.rvalue - 1
               mem := store32 d.mem (S + 4 * (d.rvalue - 1)) d.bitctx } t := by
  have hpush : s.sp - 4#32 = S + 4 * (d.rvalue - 1) := by
    rw [hsp]
    bv_omega
  have halign : align4 (s.sp - 4#32) = S + 4 * (d.rvalue - 1) := by
    rw [hpush]
    exact align4_of_aligned (by bv_omega)
  have hleads : ρ.Leads .start (s.sp - 4#32) s
      { s with r4 := s.r4 - 1, sp := s.sp - 4#32
               pc := if s.r4 - 1 = 0 then ρ.sym .literal else ρ.sym .init
               mem := store32 s.mem (align4 (s.sp - 4#32)) s.r7
               n := (s.r4 - 1).msb, z := s.r4 - 1 == 0, c := carrySub s.r4 1
               v := overflowSub s.r4 1 } :=
    ρ.block_init.leads (by simp [hpc]) h.thumb (by simp [hpc, storeWords]) rfl
  rw [halign, hpush, h.rvalue] at hleads
  refine ⟨_, hleads.runs trivial, ?_⟩
  have hmem : Set.EqOn (store32 s.mem (S + 4 * (d.rvalue - 1)) s.r7)
      (store32 d.mem (S + 4 * (d.rvalue - 1)) d.bitctx) (stack S)ᶜ := by
    rw [h.bitctx]
    exact store32_congr _ h.mem _
  have hregs (pc : Word) (ctl : Control) : Regs S
      { d with ctl := ctl, rvalue := d.rvalue - 1
               mem := store32 d.mem (S + 4 * (d.rvalue - 1)) d.bitctx }
      { s with r4 := d.rvalue - 1, sp := S + 4 * (d.rvalue - 1), pc := pc
               mem := store32 s.mem (S + 4 * (d.rvalue - 1)) s.r7
               n := (d.rvalue - 1).msb, z := d.rvalue - 1 == 0, c := carrySub d.rvalue 1
               v := overflowSub d.rvalue 1 } :=
    ⟨h.thumb, h.inp, h.tmp0, h.tmp1, rfl, h.isize, h.bitbuf, h.bitctx, h.offset, h.savedSp, hmem⟩
  by_cases h0 : d.rvalue - 1 = 0
  · simp only [if_pos h0]
    have hS0 : S + 4 * (d.rvalue - 1) = S := by rw [h0]; simp
    exact ⟨hregs _ .literal, rfl, hS0, houtp⟩
  · simp only [if_neg h0]
    exact ⟨hregs _ .init, rfl, rfl, houtp, by show 1 ≤ (d.rvalue - 1).toNat; bv_omega,
      by show (d.rvalue - 1).toNat ≤ 1024; bv_omega⟩

end blocks

/-! ## The simulation -/

variable {d d' : Depacker} {s : Cpu}

theorem Rel.getbit {σ : Site} {p : Phase} (hS : S.toNat % 4 = 0) (hctl : d.ctl = .getbit σ p)
    (h : Rel ρ S d s) (hsafe : Safe S d) {x : Phase × Coder}
    (hx : Coder.step s.mem (σ.sp S) (p, d.toCoder) = some x) :
    ∃ t, ρ.Runs S s t ∧ Rel ρ S { d with toCoder := x.2, ctl := .getbit σ x.1 } t := by
  rw [Rel, hctl] at h
  obtain ⟨s₀, hcall, hin, -⟩ := h
  have hsp := hcall.aligned hS
  have hW : range (s₀.sp - 16) 16 ⊆ stack S := hcall.sp ▸ stack_subset_site σ
  obtain ⟨t, hleads, ht⟩ := hin.simulate hW hsp
    (fun slot prob bit hp => by simp only [Safe, hctl] at hsafe; cases hp; exact hsafe)
    (by rw [hcall.sp]; exact hx)
  have hcall' : Calling ρ S σ { d with toCoder := x.2, ctl := .getbit σ x.1 } s₀ :=
    ⟨hcall.sp, hcall.outp, hcall.tmp0, hcall.tmp1, hcall.lr, hcall.offset, hcall.savedSp,
      hcall.frame⟩
  refine ⟨t, hleads.runs ?_, s₀, hcall', ht, ?_⟩
  · rw [hcall.sp, Site.sp]
    split
    · exact .inr (by bv_omega)
    · exact .inl rfl
  · -- No step of `getbit` leads to its beginning.
    rintro hp
    obtain ⟨p', c'⟩ := x
    cases hp
    cases p <;> simp only [Coder.step, Coder.decide] at hx <;> (try split at hx) <;> cases hx

/-- **The processor goes where the depacker goes.** -/
theorem Rel.simulate (hS : S.toNat % 4 = 0) (h : Rel ρ S d s) (hsafe : Safe S d)
    (hd' : Depacker.step (ρ.params S) s.mem d = some d') :
    ∃ t, ρ.Runs S s t ∧ Rel ρ S d' t := by
  have h₀ := h
  unfold Rel at h
  unfold Depacker.step at hd'
  cases hctl : d.ctl with
  | start =>
      simp only [hctl] at h hd'
      cases hd'
      exact runs_start h.1 h.2.1 h.2.2.1 h.2.2.2.1 h.2.2.2.2.1 h.2.2.2.2.2.1 h.2.2.2.2.2.2
  | init =>
      simp only [hctl] at h hd'
      cases hd'
      exact runs_init hS h.1 h.2.1 h.2.2.1 h.2.2.2.1 h.2.2.2.2.1 h.2.2.2.2.2
  | literal => simp only [hctl] at h hd'; cases hd'; exact h.literal
  | getlit => simp only [hctl] at h hd'; cases hd'; exact h.getlit
  | storeLiteral => simp only [hctl] at h hd'; cases hd'; exact h.storeLiteral
  | switch => simp only [hctl] at h hd'; cases hd'; exact h.switch
  | readlength => simp only [hctl] at h hd'; cases hd'; exact h.readlength
  | copyloop => simp only [hctl] at h hd'; cases hd'; exact h.copyloop
  | copyStore => simp only [hctl] at h hd'; cases hd'; exact h.copyStore rfl
  | readoffset => simp only [hctl] at h hd'; cases hd'; exact h.readoffset
  | done =>
      simp only [hctl] at h hd'
      split at hd'
      · cases hd'
      · rename_i hdebug
        cases hd'
        exact h.done (eq_false_of_ne_true hdebug)
  | exit => simp only [hctl] at hd'; cases hd'
  | getnumber k => simp only [hctl] at h hd'; cases hd'; exact h.1.getnumber hS h.2
  | numberloop k => simp only [hctl] at h hd'; cases hd'; exact h.numberloop
  | bitsloop k => simp only [hctl] at h hd'; cases hd'; exact h.bitsloop
  | popNumber k => simp only [hctl] at h hd'; cases hd'; exact h.pop hS
  | gotNumber k =>
      cases k with
      | length => simp only [hctl] at h hd'; cases hd'; exact h.gotLength
      | offset => simp only [hctl] at h hd'; cases hd'; exact h.gotOffset
  | getbit σ p =>
      cases p with
      | ret bit =>
          simp only [hctl] at hd'
          cases hd'
          cases σ with
          | literal => exact (h₀.returned hctl rfl).1.literalBit (h₀.returned hctl rfl).2
          | kindAfterLiteral =>
              exact (h₀.returned hctl rfl).1.kindAfterLiteralBit (h₀.returned hctl rfl).2
          | repeated => exact (h₀.returned hctl rfl).1.repeatedBit (h₀.returned hctl rfl).2
          | kindAfterReference =>
              exact (h₀.returned hctl rfl).1.kindAfterReferenceBit (h₀.returned hctl rfl).2
          | unary k => exact (h₀.returnedNumber hctl rfl).1.unaryBit (h₀.returnedNumber hctl rfl).2
          | digit k => exact (h₀.returnedNumber hctl rfl).1.digitBit (h₀.returnedNumber hctl rfl).2
      | _ =>
          simp only [hctl] at hd'
          obtain ⟨x, hx, rfl⟩ := Option.map_eq_some_iff.mp hd'
          exact h₀.getbit hS hctl hsafe hx

/-! ## Where it starts -/

/-- Control is at the depacker's entry point. -/
structure Started (s : Cpu) : Prop where
  /-- At the entry point. -/
  pc : s.pc = ρ.sym .codeStart
  /-- In ARM state. -/
  thumb : s.thumb = false
  /-- The stack pointer is aligned. -/
  sp : s.sp.toNat % 4 = 0

/-- Where the depacker starts. -/
def Depacker.ofCpu (s : Cpu) : Depacker where
  toCoder := .ofCpu s
  ctl := .start
  outp := s.r1
  tmp0 := s.r2
  tmp1 := s.r3
  offset := s.r8
  counter := 0

theorem Started.rel (h : Started (ρ := ρ) s) : Rel ρ (s.sp - 4096) (.ofCpu s) s := by
  simp only [Rel, Depacker.ofCpu]
  exact ⟨h.pc, h.thumb, by simp, trivial, trivial, trivial, fun _ _ => rfl⟩

end ShrinklerGba.Shrinkler
