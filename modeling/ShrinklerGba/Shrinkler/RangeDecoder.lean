import ShrinklerGba.Coding.RangeCoder
import ShrinklerGba.Shrinkler.Getbit

/-!
# `getbit` is a range decoder

The words that `getbit` computes with are the numbers of an adaptive range decoder.

* `adaptation` is how the depacker's probabilities adapt: between 15 and `0xfff0`.
* `Coder.interval` is the interval in the registers `rvalue` and `isize`.
* `Coder.interval_shift`, `Coder.decide_narrow`: shifting and deciding are those of the library.
-/

namespace ShrinklerGba.Shrinkler

open Thumb RangeCoding

/-- How probabilities adapt. -/
def adaptation : Adaptation where
  width := 16
  lo := 15
  hi := 0xfff0
  update bit p := if bit then p - p / 16 + 0xfff else p - p / 16
  width_pos := by decide
  two_le_lo := by decide
  hi_lt := by decide
  update_mem := by
    intro b p hp
    rw [Set.mem_Icc] at *
    cases b <;> simp only [Bool.false_eq_true, if_true, if_false] <;> omega

theorem adaptation_half : adaptation.half = 0x8000 := rfl

namespace Coder

/-- The interval in the registers. -/
def interval (c : Coder) : State := ⟨c.rvalue.toNat, c.isize.toNat⟩

/-- The bit that is shifted in next. -/
def nextBit (rd : Mem) (c : Coder) : Bool :=
  if c.bitbuf <<< 1 = 0 then (loadWord rd c.inp).msb else c.bitbuf.msb

variable {c : Coder} {rd : Mem}

/-- The loop condition says whether the range is normalised. -/
theorem getLsbD_isize (h : c.interval.Valid adaptation) :
    c.isize.getLsbD 15 = Decidable.decide (adaptation.half ≤ c.interval.range) := by
  have hlt : c.isize.toNat < 2 ^ 16 := h.range_lt
  rw [BitVec.getLsbD, Nat.testBit_eq_decide_div_mod_eq, adaptation_half, decide_eq_decide]
  simp only [interval]
  omega

theorem shift_rvalue : (c.shift rd).rvalue =
    c.rvalue + c.rvalue + (BitVec.ofBool (c.nextBit rd)).setWidth 32 := by
  rw [shift, nextBit]
  split
  · simp only [carryAdd_self]
  · rw [BitVec.msb_eq_getLsbD_last]

theorem shift_isize : (c.shift rd).isize = c.isize + c.isize := by
  rw [shift]
  split <;> rfl

/-- Shifting changes neither memory nor the context. -/
theorem iterate_shift (rd : Mem) (n : ℕ) (c : Coder) :
    ((shift rd)^[n] c).mem = c.mem ∧ ((shift rd)^[n] c).bitctx = c.bitctx := by
  induction n generalizing c with
  | zero => exact ⟨rfl, rfl⟩
  | succ n ih =>
      have hone : (shift rd c).mem = c.mem ∧ (shift rd c).bitctx = c.bitctx := by
        rw [shift]
        split <;> exact ⟨rfl, rfl⟩
      rw [Function.iterate_succ_apply, (ih _).1, (ih _).2]
      exact hone

variable (rd) in
/-- Shifting a bit in doubles the interval. -/
theorem interval_shift (h : c.interval.Valid adaptation) (hn : c.isize.toNat < 0x8000) :
    (c.shift rd).interval = c.interval.double (c.nextBit rd) := by
  have hv : c.rvalue.toNat < c.isize.toNat := h.value_lt
  have hb : ((BitVec.ofBool (c.nextBit rd)).setWidth 32).toNat = (c.nextBit rd).toNat := by
    cases c.nextBit rd <;> rfl
  have hle := (c.nextBit rd).toNat_le
  simp only [interval, State.double, State.mk.injEq, shift_rvalue, shift_isize, BitVec.toNat_add,
    hb]
  omega

/-! ## Deciding -/

section decide

variable {slot : Word} {p : ℕ}

/-- The threshold in the register is the library's, and the product did not overflow. -/
theorem toNat_threshold (hp : (load16 rd slot).toNat = p) (hn : c.isize.toNat < 2 ^ 16) :
    (((load16 rd slot).setWidth 32 * c.isize) >>> 16).toNat =
      adaptation.threshold c.isize.toNat p := by
  have hprod : p * c.isize.toNat < 2 ^ 32 := by
    have hlt := (load16 rd slot).isLt
    rw [hp] at hlt
    calc p * c.isize.toNat < 2 ^ 16 * 2 ^ 16 := Nat.mul_lt_mul'' hlt hn
      _ = 2 ^ 32 := by norm_num
  have hsmall : p % 2 ^ 32 = p := Nat.mod_eq_of_lt (by have := (load16 rd slot).isLt; omega)
  rw [BitVec.toNat_ushiftRight, BitVec.toNat_mul, BitVec.toNat_setWidth, hp, hsmall,
    Nat.mod_eq_of_lt hprod, Nat.shiftRight_eq_div_pow, Adaptation.threshold, Nat.mul_comm]
  rfl

theorem toNat_adjusted (hp : (load16 rd slot).toNat = p) :
    ((load16 rd slot).setWidth 32 - (load16 rd slot).setWidth 32 >>> adjustShift).toNat =
      p - p / 16 := by
  have hlt := (load16 rd slot).isLt
  have hset : ((load16 rd slot).setWidth 32).toNat = p := by
    rw [BitVec.toNat_setWidth, hp]
    omega
  rw [BitVec.toNat_sub, BitVec.toNat_ushiftRight, hset, Nat.shiftRight_eq_div_pow,
    show 2 ^ adjustShift = 16 from rfl]
  omega

/-- Deciding leaves memory alone. -/
theorem decide_mem (c : Coder) (rd : Mem) (slot : Word) : (c.decide rd slot).2.mem = c.mem := by
  rw [Coder.decide]
  split <;> rfl

/-- Deciding leaves the reader alone. -/
theorem decide_reader (c : Coder) (rd : Mem) (slot : Word) :
    (c.decide rd slot).2.inp = c.inp ∧ (c.decide rd slot).2.bitbuf = c.bitbuf := by
  rw [Coder.decide]
  split <;> exact ⟨rfl, rfl⟩

/-- **Deciding is the library's**: the bit, the interval after it, and the probability after it. -/
theorem decide_narrow (h : c.interval.Valid adaptation) (hn : adaptation.half ≤ c.isize.toNat)
    (hp : (load16 rd slot).toNat = p) (hmem : p ∈ Set.Icc adaptation.lo adaptation.hi) :
    ∃ prob, (c.decide rd slot).1 = .store slot prob (c.interval.narrow adaptation p).1 ∧
      prob.toNat = adaptation.update (c.interval.narrow adaptation p).1 p ∧
      (c.decide rd slot).2.interval = (c.interval.narrow adaptation p).2 := by
  have hv : c.rvalue.toNat < c.isize.toNat := h.value_lt
  have hr : c.isize.toNat < 2 ^ 16 := h.range_lt
  have hthreshold := toNat_threshold (c := c) hp hr
  have hpos := adaptation.threshold_pos hn hmem.1
  have hlt := adaptation.threshold_lt (by omega : 0 < c.isize.toNat) hmem.2
  have hadjusted := toNat_adjusted hp
  have hhi : p ≤ 0xfff0 := hmem.2
  have hge : carrySub c.rvalue (((load16 rd slot).setWidth 32 * c.isize) >>> 16) =
      Decidable.decide (adaptation.threshold c.isize.toNat p ≤ c.rvalue.toNat) := by
    rw [carrySub, hthreshold]
  rw [Coder.decide]
  simp only [hge, decide_eq_true_eq]
  by_cases ht : adaptation.threshold c.isize.toNat p ≤ c.rvalue.toNat
  · have hnarrow : c.interval.narrow adaptation p = _ := State.narrow_of_le ht
    rw [hnarrow, if_pos ht]
    refine ⟨_, rfl, hadjusted, ?_⟩
    simp only [interval, State.mk.injEq]
    constructor <;> rw [BitVec.toNat_sub, hthreshold] <;> omega
  · have hnarrow : c.interval.narrow adaptation p = _ := State.narrow_of_lt (Nat.lt_of_not_le ht)
    rw [hnarrow, if_neg ht]
    refine ⟨_, rfl, ?_, ?_⟩
    · rw [BitVec.toNat_add, hadjusted]
      show (p - p / 16 + 4095) % 2 ^ 32 = p - p / 16 + 4095
      omega
    · simp only [interval, State.mk.injEq, hthreshold, and_true]
      rw [BitVec.sub_add_cancel]

end decide

end Coder

end ShrinklerGba.Shrinkler
