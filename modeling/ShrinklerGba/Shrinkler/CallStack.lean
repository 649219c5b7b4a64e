import ShrinklerGba.Shrinkler.Simulation
import ShrinklerGba.Thumb.Closed

/-!
# The call stack

What the depacker pushes, pops and accesses through the stack pointer, as it can be seen from
outside.

* `Saved` is what a subroutine saves; `StackEvent` are pushes, pops, accesses to halfwords and
  stores of bytes; `stackEvent` is what the next instruction does.
* `replay` keeps the stack of what was pushed, and fails when something else is popped.
* `Depacker.frames` is what the depacker has on the stack, `Depacker.event` what it does next.
* **`Rel.event`**: the processor does what the depacker does.
-/

namespace ShrinklerGba.Shrinkler

open Thumb Transition

/-! ## What can be observed -/

/-- What a subroutine saves. -/
structure Saved where
  /-- The registers that it pushes before the return address. -/
  regs : List Word
  /-- Where it returns to. -/
  ret : Word
  /-- The caller's stack pointer. -/
  sp : Word
  deriving DecidableEq

/-- What an instruction does with the stack or with memory. -/
inductive StackEvent
  /-- A subroutine at an address pushes what it saves. -/
  | push (pc : Word) (x : Saved)
  /-- A subroutine pops what is restored. -/
  | pop (x : Saved)
  /-- A halfword is loaded or stored. -/
  | access (a : Word)
  /-- A byte is stored. -/
  | store (a : Word)

variable (ρ : Rom) (S : Word)

/-- What the next instruction does. The `push` in `init` belongs to no subroutine. -/
def stackEvent (s : Cpu) : Option StackEvent :=
  match ρ.image.fetch s.pc with
  | some (.push rs) =>
      if .lr ∈ rs then
        some (.push s.pc ⟨(rs.filter (· ≠ .lr)).map s.reg, s.lr &&& ~~~1, s.sp⟩)
      else none
  | some (.popPc rs) =>
      (exec ρ.image s (.popPc rs)).map fun t => .pop ⟨rs.map t.reg, t.pc, t.sp⟩
  | some (.ldrh _ rb n) | some (.strh _ rb n) => some (.access (s.reg rb + BitVec.ofNat 32 n))
  | some (.strb _ rb n) => some (.store (s.reg rb + BitVec.ofNat 32 n))
  | _ => none

/-- The processor is at a quiet instruction. -/
def AtQuiet (s : Cpu) : Prop := ∃ i, ρ.image.fetch s.pc = some i ∧ i.quiet = true

variable {ρ} in
theorem AtQuiet.event {s : Cpu} (h : AtQuiet ρ s) : stackEvent ρ s = none := by
  obtain ⟨i, hf, hq⟩ := h
  rw [stackEvent, hf]
  cases i <;> first | rfl | cases hq

/-- After the main loop, nothing is pushed or accessed. -/
theorem event_of_enclosed {ρ : Rom} {areas : List (ℕ × ℕ)} {ls : List Label} {x : Word} {s : Cpu}
    (h : Enclosed ρ.image ls areas x s) : stackEvent ρ s = none := by
  obtain ⟨i, hf, hi | hi | ⟨r, rfl⟩⟩ := h.fetch
  · rw [stackEvent, hf]
    cases i <;> first | rfl | cases hi
  · exact AtQuiet.event ⟨i, hf, hi⟩
  · rw [stackEvent, hf]

/-! ## Replaying -/

/-- The stack after one more event. -/
def StackEvent.apply : List Saved → StackEvent → Option (List Saved)
  | xs, .push _ x => some (x :: xs)
  | x :: xs, .pop y => if x = y then some xs else none
  | [], .pop _ => none
  | xs, _ => some xs

/-- The stack after a list of events, or `none` if something else was popped than what was
pushed. -/
def replay (l : List StackEvent) : Option (List Saved) := l.foldlM StackEvent.apply []

theorem replay_append {l : List StackEvent} {xs : List Saved} (h : replay l = some xs)
    (e : Option StackEvent) :
    replay (l ++ e.toList) = e.elim (some xs) (StackEvent.apply xs) := by
  rw [replay] at *
  rw [List.foldlM_append, h]
  cases e <;> simp

/-! ## The depacker's stack -/

/-- What `getnumber` saves. -/
def Number.saved (k : Number) (d : Depacker) : Saved := ⟨[d.outp], k.ret ρ, S⟩

/-- What a call of `getbit` saves. -/
def Site.saved (σ : Site) (d : Depacker) : Saved :=
  ⟨[if σ.number.isSome then d.counter else d.outp, d.tmp0, d.tmp1], σ.ret ρ, σ.sp S⟩

namespace Depacker

/-- What was pushed by the subroutines that control is in. -/
def frames (d : Depacker) : List Saved :=
  match d.ctl with
  | .numberloop k | .bitsloop k | .popNumber k => [k.saved ρ S d]
  | .getbit σ .call | .getbit σ (.ret _) => (σ.number.map fun k => k.saved ρ S d).toList
  | .getbit σ _ => σ.saved ρ S d :: (σ.number.map fun k => k.saved ρ S d).toList
  | _ => []

/-- What the depacker does next with the stack or with memory. -/
def event (d : Depacker) : Option StackEvent :=
  match d.ctl with
  | .getnumber k => some (.push (ρ.sym .getnumber) (k.saved ρ S d))
  | .popNumber k => some (.pop (k.saved ρ S d))
  | .getbit σ .call => some (.push (ρ.sym .getbit) (σ.saved ρ S d))
  | .getbit σ (.pop _) => some (.pop (σ.saved ρ S d))
  | .getbit _ (.load slot) | .getbit _ (.store slot _ _) => some (.access slot)
  | .storeLiteral | .copyStore => some (.store d.outp)
  | _ => none

end Depacker

variable {ρ S} {d : Depacker} {s : Cpu}

/-! ## Every pop is of what was pushed -/

theorem frames_received {σ : Site} {bit : Bool} :
    (d.received bit σ).frames ρ S = (σ.number.map fun k => k.saved ρ S d).toList := by
  cases σ <;> simp only [Depacker.received] <;> (try split) <;> rfl

/-- **The depacker pops what it pushed.** -/
theorem frames_step {π : Depacker.Params} {rd : Mem} {d' : Depacker}
    (h : Depacker.step π rd d = some d') :
    (d.event ρ S).elim (some (d.frames ρ S)) (StackEvent.apply (d.frames ρ S)) =
      some (d'.frames ρ S) := by
  unfold Depacker.step at h
  simp only [Depacker.event, Depacker.frames]
  cases hctl : d.ctl with
  | exit => simp only [hctl] at h; cases h
  | done =>
      simp only [hctl] at h
      split at h <;> cases h
      rfl
  | init =>
      simp only [hctl] at h
      cases h
      by_cases h0 : d.rvalue - 1 = 0
      · simp only [if_pos h0]
        rfl
      · simp only [if_neg h0]
        rfl
  | copyStore =>
      simp only [hctl] at h
      cases h
      by_cases h0 : d.tmp1 - 1 = 0
      · simp only [if_pos h0]
        rfl
      · simp only [if_neg h0]
        rfl
  | popNumber k =>
      simp only [hctl] at h
      cases h
      simp [StackEvent.apply]
  | gotNumber k =>
      cases k with
      | length => simp only [hctl] at h; cases h; rfl
      | offset =>
          simp only [hctl] at h
          cases h
          by_cases h0 : d.tmp1 - 2 = 0
          · simp only [if_pos h0]
            rfl
          · simp only [if_neg h0]
            rfl
  | getbit σ p =>
      cases p with
      | ret bit =>
          simp only [hctl] at h
          cases h
          exact congrArg some frames_received.symm
      | call => simp only [hctl, Coder.step, Option.map_some] at h; cases h; rfl
      | loop =>
          simp only [hctl, Coder.step] at h
          split at h <;> cases h <;> rfl
      | load slot =>
          simp only [hctl, Coder.step, Coder.decide] at h
          split at h <;> cases h <;> rfl
      | store slot prob bit => simp only [hctl, Coder.step, Option.map_some] at h; cases h; rfl
      | pop bit =>
          simp only [hctl, Coder.step, Option.map_some] at h
          cases h
          simp only [Option.elim_some, StackEvent.apply, if_true]
          rfl
  | _ => simp only [hctl] at h; cases h; rfl

/-! ## The processor does what the depacker does -/

theorem Rom.Block.atQuiet {R : Region} {a : Word} {i : Instr Label} {is : List (Instr Label)}
    (hb : ρ.Block R a (i :: is)) (hq : i.quiet = true) (hpc : s.pc = a) : AtQuiet ρ s :=
  ⟨i, hpc ▸ hb.fetch.1, hq⟩

/-- At a label. -/
theorem Rom.Block.atQuiet_sym {R : Region} {l : Label} {i : Instr Label}
    {is : List (Instr Label)} (hb : ρ.Block R (ρ.addr l 0) (i :: is)) (hq : i.quiet = true)
    (hpc : s.pc = ρ.sym l) : AtQuiet ρ s :=
  hb.atQuiet hq (hpc.trans (ρ.addr_zero l).symm)

theorem Rom.Inside.atQuiet (h : ρ.Inside S s) : AtQuiet ρ s := by
  obtain ⟨R, x, hquiet, -⟩ := h
  exact hquiet.instr

/-- What a call of `getbit` in a state saves. -/
def savedBy (s₀ : Cpu) : Saved := ⟨[s₀.r1, s₀.r2, s₀.r3], s₀.lr &&& ~~~1, s₀.sp⟩

theorem Calling.saved_eq {σ : Site} {s₀ : Cpu} (h : Calling ρ S σ d s₀) :
    savedBy s₀ = σ.saved ρ S d := by
  rw [savedBy, Site.saved, h.outp, h.tmp0, h.tmp1, h.sp, h.lr]
  exact congrArg (fun x => Saved.mk _ x _) σ.ret_clear

section getbit

variable {W : Set Word} {s₀ : Cpu} {c : Coder}

theorem InGetbit.event_call (h : InGetbit ρ W s₀ (.call, c) s) :
    stackEvent ρ s = some (.push (ρ.sym .getbit) (savedBy s₀)) := by
  obtain ⟨hpc, hregs, hlr⟩ := h.at_phase
  have hf := ρ.block_getbit.fetch.1
  rw [ρ.addr_zero, ← hpc] at hf
  rw [stackEvent, hf, savedBy, ← hregs.outp, ← hregs.tmp0, ← hregs.tmp1, ← hregs.sp, ← hlr, hpc]
  rfl

theorem InGetbit.atQuiet_loop (h : InGetbit ρ W s₀ (.loop, c) s) : AtQuiet ρ s := by
  have hb := ρ.block_loopCondition
  cases hc : ρ.config.codeInHeader <;> simp only [dummyGameVersion, hc] at hb
  · exact hb.atQuiet rfl (by simpa using h.at_phase.1)
  · exact hb.atQuiet rfl (by simpa using h.at_phase.1)

theorem InGetbit.event_load {slot : Word} (h : InGetbit ρ W s₀ (.load slot, c) s) :
    stackEvent ρ s = some (.access slot) := by
  obtain ⟨hpc, -, hslot, -⟩ := h.at_phase
  rw [stackEvent, hpc, ρ.block_load.fetch.1, ← hslot]
  rfl

theorem InGetbit.event_store {slot prob : Word} {bit : Bool}
    (h : InGetbit ρ W s₀ (.store slot prob bit, c) s) : stackEvent ρ s = some (.access slot) := by
  obtain ⟨hpc, -, hslot, -⟩ := h.at_phase
  rw [stackEvent, hpc, ← ρ.addr_zero, ρ.block_done.fetch.1, ← hslot]
  rfl

theorem InGetbit.event_pop {bit : Bool} (hsp : s₀.sp.toNat % 4 = 0)
    (h : InGetbit ρ W s₀ (.pop bit, c) s) : stackEvent ρ s = some (.pop (savedBy s₀)) := by
  obtain ⟨hpc, hframe, -⟩ := h.at_phase
  have hexec := exec_return (ρ := ρ) (by rw [hframe.sp]; bv_omega) (hframe.sp ▸ hframe.saved)
  rw [stackEvent, hpc, ρ.block_popGetbit.fetch.1]
  simp only [hexec, Option.map_some, savedBy, hframe.sp, BitVec.sub_add_cancel]
  rfl

end getbit

/-- Back from a call of `getbit`, nothing is pushed or accessed next. -/
theorem Site.block_ret (σ : Site) :
    ∃ R i is, ρ.Block R (σ.ret ρ) (i :: is) ∧ i.quiet = true := by
  cases σ with
  | literal => exact ⟨_, _, _, ρ.block_afterLiteralBit, rfl⟩
  | kindAfterLiteral => exact ⟨_, _, _, ρ.block_kindAfterLiteral, rfl⟩
  | repeated => exact ⟨_, _, _, ρ.block_repeated, rfl⟩
  | kindAfterReference => exact ⟨_, _, _, ρ.block_kindAfterReference, rfl⟩
  | unary k => exact ⟨_, _, _, ρ.block_unary, rfl⟩
  | digit k => exact ⟨_, _, _, ρ.block_digit, rfl⟩

theorem Number.ret_offset_iff (k : Number) : k.ret ρ = Number.ret ρ .offset ↔ k = .offset := by
  refine ⟨fun h => ?_, fun h => h ▸ rfl⟩
  cases k with
  | offset => rfl
  | length =>
      exact absurd h (ρ.addr_ne rfl rfl (by decide) (by decide) (by decide))

theorem Number.block_ret (k : Number) :
    ∃ R i is, ρ.Block R (k.ret ρ) (i :: is) ∧ i.quiet = true := by
  cases k with
  | offset => exact ⟨_, _, _, ρ.block_gotOffset, rfl⟩
  | length => exact ⟨_, _, _, ρ.block_gotLength, rfl⟩

theorem InMain.event_getnumber {k : Number} (h : InMain S (ρ.sym .getnumber) d s)
    (hlr : s.lr = k.ret ρ ||| 1) :
    stackEvent ρ s = some (.push (ρ.sym .getnumber) (k.saved ρ S d)) := by
  have hf := ρ.block_getnumber.fetch.1
  rw [ρ.addr_zero, ← h.pc] at hf
  have hsaved : (⟨[s.r1], s.lr &&& ~~~1#32, s.sp⟩ : Saved) = k.saved ρ S d := by
    rw [Number.saved, h.outp, h.sp, hlr]
    exact congrArg (fun x => Saved.mk _ x _) k.ret_clear
  rw [stackEvent, hf, ← hsaved, ← h.pc]
  rfl

theorem InNumber.event_pop {k : Number} (hS : S.toNat % 4 = 0)
    (h : InNumber ρ S k (ρ.addr .bitsloop 14) d s) :
    stackEvent ρ s = some (.pop (k.saved ρ S d)) := by
  rw [stackEvent, h.pc, ρ.block_popGetnumber.fetch.1]
  simp only [h.exec_pop hS, Option.map_some, Number.saved]
  rfl

/-- Whether the next instruction is a quiet one. -/
def Depacker.quiet (d : Depacker) : Bool :=
  match d.ctl with
  | .literal | .getlit | .switch | .readlength | .copyloop | .readoffset | .numberloop _
  | .bitsloop _ | .gotNumber _ | .getbit _ .loop | .getbit _ (.ret _) => true
  | _ => false

theorem Rel.atQuiet (h : Rel ρ S d s) (hd : d.quiet = true) : AtQuiet ρ s := by
  unfold Rel at h
  unfold Depacker.quiet at hd
  cases hctl : d.ctl with
  | literal => simp only [hctl] at h; exact ρ.block_literal.atQuiet_sym rfl h.pc
  | getlit => simp only [hctl] at h; exact ρ.block_getlit.atQuiet_sym rfl h.pc
  | switch => simp only [hctl] at h; exact ρ.block_switch.atQuiet_sym rfl h.pc
  | readlength => simp only [hctl] at h; exact ρ.block_readlength.atQuiet_sym rfl h.pc
  | copyloop => simp only [hctl] at h; exact ρ.block_copyloop.atQuiet_sym rfl h.pc
  | readoffset => simp only [hctl] at h; exact ρ.block_readoffset.atQuiet_sym rfl h.pc
  | numberloop k => simp only [hctl] at h; exact ρ.block_numberloop.atQuiet_sym rfl h.pc
  | bitsloop k => simp only [hctl] at h; exact ρ.block_bitsloop.atQuiet_sym rfl h.pc
  | gotNumber k =>
      simp only [hctl] at h
      obtain ⟨R, i, is, hb, hq⟩ := k.block_ret (ρ := ρ)
      exact hb.atQuiet hq h.pc
  | getbit σ p =>
      simp only [hctl] at h hd
      obtain ⟨s₀, hcall, hin, -⟩ := h
      cases p with
      | loop => exact hin.atQuiet_loop
      | ret bit =>
          obtain ⟨R, i, is, hb, hq⟩ := σ.block_ret (ρ := ρ)
          exact hb.atQuiet hq (hin.at_phase.1.trans (hcall.lr ▸ σ.ret_clear))
      | _ => cases hd
  | _ => simp only [hctl] at hd; cases hd

/-- **The processor does what the depacker does.** -/
theorem Rel.event (hS : S.toNat % 4 = 0) (h : Rel ρ S d s) : stackEvent ρ s = d.event ρ S := by
  have hquiet := h.atQuiet
  unfold Rel at h
  unfold Depacker.event
  unfold Depacker.quiet at hquiet
  cases hctl : d.ctl with
  | start =>
      simp only [hctl] at h ⊢
      rw [stackEvent, h.1, ← ρ.addr_zero, ρ.fetch_codeStart]
  | init =>
      simp only [hctl] at h ⊢
      rw [stackEvent, h.2.1, ← ρ.addr_zero, ρ.block_init.fetch.1]
      rfl
  | storeLiteral =>
      simp only [hctl] at h ⊢
      rw [stackEvent, h.pc, ρ.block_storeLiteral.fetch.1, ← h.outp]
      simp [Cpu.reg]
  | copyStore =>
      simp only [hctl] at h ⊢
      rw [stackEvent, h.pc, ρ.block_copyStore.fetch.1, ← h.outp]
      simp [Cpu.reg]
  | done =>
      simp only [hctl] at h ⊢
      rw [stackEvent, h.pc, ρ.fetch_donedecompressing]
  | exit =>
      simp only [hctl] at h ⊢
      rw [stackEvent, h.2.1, ρ.fetch_bx h.2.2.2.2]
  | getnumber k => simp only [hctl] at h ⊢; exact h.1.event_getnumber h.2
  | popNumber k => simp only [hctl] at h ⊢; exact h.event_pop hS
  | getbit σ p =>
      simp only [hctl] at h hquiet ⊢
      obtain ⟨s₀, hcall, hin, -⟩ := h
      have hsp := hcall.aligned hS
      cases p with
      | call => exact hin.event_call.trans (by rw [hcall.saved_eq])
      | loop => exact (hquiet rfl).event
      | load slot => exact hin.event_load
      | store slot prob bit => exact hin.event_store
      | pop bit => exact (hin.event_pop hsp).trans (by rw [hcall.saved_eq])
      | ret bit => exact (hquiet rfl).event
  | _ => simp only [hctl] at hquiet ⊢; exact (hquiet trivial).event

end ShrinklerGba.Shrinkler
