import Mathlib.Data.List.Find
import ShrinklerGba.Shrinkler.CallStack

/-!
# Calls of `getbit` and returns from it

What can be seen of the decoder where `getbit` is called and where it returns.

* `DecoderState` is the decoder's state there; `getbitEvent` says whether the next instruction
  enters `getbit` or leaves it, and in which state.
* **`Rel.getbitEvent`**: the processor enters and leaves `getbit` where the depacker does.
-/

namespace ShrinklerGba.Shrinkler

open Thumb Transition

/-! ## What the decoder does -/

/-- The places where calls of `getbit` return to. -/
def returnPlaces : List (Label × ℕ) :=
  [(.getlit, 10), (.switch, 4), (.switch, 14), (.copyloop, 14), (.numberloop, 10), (.bitsloop, 8)]

/-- The decoder's state where `getbit` is called or has returned, but for some of memory. -/
structure DecoderState (H : Set Word) where
  /-- Where `getbit` returns to. -/
  ret : Option (Label × ℕ)
  /-- The registers of these names; `inp` is counted from the compressed program on. -/
  (inp outp rvalue isize bitbuf bitctx offset sp : Word)
  /-- The carry. -/
  carry : Bool
  /-- Memory. -/
  memory : H → Byte

/-- A call of `getbit`, or a return from it. -/
inductive GetbitEvent (H : Set Word)
  /-- `getbit` is called. -/
  | call (x : DecoderState H)
  /-- `getbit` returns. -/
  | ret (x : DecoderState H)

variable (ρ : Rom) (H : Set Word)

/-- The place that an address is at. -/
def Rom.returnPlace (a : Word) : Option (Label × ℕ) :=
  returnPlaces.find? fun p => ρ.addr p.1 p.2 = a

/-- The decoder's state, when `getbit` returns to an address. -/
def decoderState (s : Cpu) (ret : Word) : DecoderState H where
  ret := ρ.returnPlace ret
  inp := s.r0 - ρ.sym .packedIntro
  outp := s.r1
  rvalue := s.r4
  isize := s.r5
  bitbuf := s.r6
  bitctx := s.r7
  offset := s.r8
  sp := s.sp
  carry := s.c
  memory a := s.mem a

/-- Whether the next instruction is the first or the last one of `getbit`. -/
def getbitEvent (s : Cpu) : Option (GetbitEvent H) :=
  match ρ.image.fetch s.pc with
  | some (.push rs) =>
      if rs = getbitPushList then some (.call (decoderState ρ H s (s.lr &&& ~~~1))) else none
  | some (.popPc rs) =>
      if rs ++ [.lr] = getbitPushList then
        (exec ρ.image s (.popPc rs)).map fun t => .ret (decoderState ρ H t t.pc)
      else none
  | _ => none

/-! ### The depacker's -/

/-- Where a call returns to. -/
def Site.place : Site → Label × ℕ
  | .literal => (.getlit, 10)
  | .kindAfterLiteral => (.switch, 4)
  | .repeated => (.switch, 14)
  | .kindAfterReference => (.copyloop, 14)
  | .unary _ => (.numberloop, 10)
  | .digit _ => (.bitsloop, 8)

variable (S : Word)

/-- The decoder's state, for the depacker, when memory is `m`. -/
def Depacker.decoderState (intro : Word) (m : Mem) (σ : Site) (carry : Bool) (d : Depacker) :
    DecoderState H where
  ret := some σ.place
  inp := d.inp - intro
  outp := if σ.number.isSome then d.counter else d.outp
  rvalue := d.rvalue
  isize := d.isize
  bitbuf := d.bitbuf
  bitctx := d.bitctx
  offset := d.offset
  sp := σ.sp S
  carry := carry
  memory a := m a

/-- Whether the depacker is about to enter `getbit` or to leave it. -/
def Depacker.getbitEvent (intro : Word) (m : Mem) (d : Depacker) : Option (GetbitEvent H) :=
  match d.ctl with
  | .getbit σ .call => some (.call (d.decoderState H S intro m σ false))
  | .getbit σ (.pop bit) => some (.ret (d.decoderState H S intro m σ bit))
  | _ => none

variable {ρ H S} {d : Depacker} {s : Cpu}

theorem returnPlace_ret (σ : Site) : ρ.returnPlace (σ.ret ρ) = some σ.place := by
  have hcode : ∀ p ∈ returnPlaces, isCodeLabel p.1 = true ∧ p.2 < 0x400 := by decide
  have hσ : σ.place ∈ returnPlaces := by cases σ <;> simp [Site.place, returnPlaces]
  have hret : σ.ret ρ = ρ.addr σ.place.1 σ.place.2 := by cases σ <;> rfl
  have hsame : ∀ p ∈ returnPlaces, decide (ρ.addr p.1 p.2 = σ.ret ρ) =
      decide (symOffset ρ.config.toOptions p.1 + p.2 =
        symOffset ρ.config.toOptions σ.place.1 + σ.place.2) := fun p hp => by
    rw [hret]
    exact decide_eq_decide.mpr (ρ.addr_eq_iff (hcode p hp).1 (hcode _ hσ).1 (hcode p hp).2
      (hcode _ hσ).2)
  rw [Rom.returnPlace, List.find?_congr hsame]
  generalize ρ.config.toOptions = o
  revert o
  rcases σ with _ | _ | _ | _ | (_ | _) | (_ | _) <;> decide

theorem AtQuiet.getbitEvent (h : AtQuiet ρ s) : getbitEvent ρ H s = none := by
  obtain ⟨i, hf, hq⟩ := h
  rw [Shrinkler.getbitEvent, hf]
  cases i with
  | push rs => cases hq
  | popPc rs => cases hq
  | _ => rfl

/-- A call of `getbit`. -/
theorem InGetbit.getbitEvent_call {W : Set Word} {σ : Site} {s₀ : Cpu}
    (hcall : Calling ρ S σ d s₀) (h : InGetbit ρ W s₀ (.call, d.toCoder) s) (hc : s.c = false) :
    getbitEvent ρ H s =
      some (.call (d.decoderState H S (ρ.sym .packedIntro) s.mem σ false)) := by
  obtain ⟨hpc, hregs, hlr⟩ := h.at_phase
  have hf := ρ.block_getbit.fetch.1
  rw [ρ.addr_zero, ← hpc] at hf
  have hret : ρ.returnPlace (s.lr &&& ~~~1) = some σ.place := by
    rw [hlr, hcall.lr]
    exact (congrArg _ σ.ret_clear).trans (returnPlace_ret σ)
  rw [Shrinkler.getbitEvent, hf]
  simp only [if_true, decoderState, Depacker.decoderState, hret, h.inp, h.rvalue, h.isize,
    h.bitbuf, h.bitctx, hregs.outp, hcall.outp, hregs.sp, hcall.sp, h.offset, hcall.offset, hc]

/-- A return from `getbit`. -/
theorem InGetbit.getbitEvent_pop {W : Set Word} {σ : Site} {s₀ : Cpu} {bit : Bool}
    (hS : S.toNat % 4 = 0) (hcall : Calling ρ S σ d s₀)
    (h : InGetbit ρ W s₀ (.pop bit, d.toCoder) s) :
    getbitEvent ρ H s =
      some (.ret (d.decoderState H S (ρ.sym .packedIntro) s.mem σ bit)) := by
  obtain ⟨hpc, hframe, hbit⟩ := h.at_phase
  have hsp := hcall.aligned hS
  have hexec := exec_return (ρ := ρ) (by rw [hframe.sp]; bv_omega) (hframe.sp ▸ hframe.saved)
  have hret : ρ.returnPlace (s₀.lr &&& ~~~1) = some σ.place := by
    rw [hcall.lr]
    exact (congrArg _ σ.ret_clear).trans (returnPlace_ret σ)
  rw [Shrinkler.getbitEvent, hpc, ρ.block_popGetbit.fetch.1]
  simp only [hexec, Option.map_some, List.cons_append, List.nil_append, if_true, decoderState,
    Depacker.decoderState, hret, h.inp, h.rvalue, h.isize, h.bitbuf, h.bitctx, hcall.outp,
    hframe.sp, BitVec.sub_add_cancel, hcall.sp, h.offset, hcall.offset, hbit]

/-- **The processor enters and leaves `getbit` where the depacker does**, in the same states. -/
theorem Rel.getbitEvent (hS : S.toNat % 4 = 0) (h : Rel ρ S d s) :
    getbitEvent ρ H s = d.getbitEvent H S (ρ.sym .packedIntro) s.mem := by
  have hquiet := h.atQuiet
  unfold Rel at h
  unfold Depacker.getbitEvent
  unfold Depacker.quiet at hquiet
  cases hctl : d.ctl with
  | start =>
      simp only [hctl] at h ⊢
      rw [Shrinkler.getbitEvent, h.1, ← ρ.addr_zero, ρ.fetch_codeStart]
  | init =>
      simp only [hctl] at h ⊢
      rw [Shrinkler.getbitEvent, h.2.1, ← ρ.addr_zero, ρ.block_init.fetch.1]
      rfl
  | storeLiteral =>
      simp only [hctl] at h ⊢
      rw [Shrinkler.getbitEvent, h.pc, ρ.block_storeLiteral.fetch.1]
  | copyStore =>
      simp only [hctl] at h ⊢
      rw [Shrinkler.getbitEvent, h.pc, ρ.block_copyStore.fetch.1]
  | done =>
      simp only [hctl] at h ⊢
      rw [Shrinkler.getbitEvent, h.pc, ρ.fetch_donedecompressing]
  | exit =>
      simp only [hctl] at h ⊢
      rw [Shrinkler.getbitEvent, h.2.1, ρ.fetch_bx h.2.2.2.2]
  | getnumber k =>
      simp only [hctl] at h ⊢
      rw [Shrinkler.getbitEvent, h.1.pc, ← ρ.addr_zero, ρ.block_getnumber.fetch.1]
      rfl
  | popNumber k =>
      simp only [hctl] at h ⊢
      rw [Shrinkler.getbitEvent, h.pc, ρ.block_popGetnumber.fetch.1]
      rfl
  | getbit σ p =>
      simp only [hctl] at h hquiet ⊢
      obtain ⟨s₀, hcall, hin, hc⟩ := h
      cases p with
      | call => exact hin.getbitEvent_call hcall (hc rfl)
      | load slot =>
          rw [Shrinkler.getbitEvent, hin.at_phase.1, ρ.block_load.fetch.1]
      | store slot prob bit =>
          rw [Shrinkler.getbitEvent, hin.at_phase.1, ← ρ.addr_zero, ρ.block_done.fetch.1]
      | pop bit => exact hin.getbitEvent_pop hS hcall
      | _ => exact (hquiet rfl).getbitEvent
  | _ => simp only [hctl] at hquiet ⊢; exact (hquiet trivial).getbitEvent

end ShrinklerGba.Shrinkler
