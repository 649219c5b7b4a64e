import ShrinklerGba.Shrinkler.CallStack
import ShrinklerGba.Shrinkler.Format

/-!
# What the depacker delivers

What the subroutines and the main loop decode, as it can be seen from outside: the bits that
`getbit` returns, the numbers that `getnumber` returns, and the bytes that the main loop puts
together.

* `delivery` is what the next instruction delivers, `Depacker.delivery` what the depacker does.
* **`Rel.delivery`**: the processor delivers what the depacker does.
-/

namespace ShrinklerGba.Shrinkler

open Thumb

/-! ## Deliveries -/

variable (ρ : Rom)

/-- What the next instruction delivers. Only literals are stored by the instruction after `getlit`,
and only `donedecompressing` writes to `sp`. -/
def delivery (s : Cpu) : Option Delivery :=
  match ρ.image.fetch s.pc with
  | some (.popPc rs) =>
      if rs ++ [.lr] = getbitPushList then some (.bit s.c)
      else (exec ρ.image s (.popPc rs)).map fun t =>
        .number (if t.pc = Number.ret ρ .offset then .offset else .length) t.r3
  | some (.strb rd _ _) =>
      if s.pc = ρ.addr .getlit 16 then some (.byte ((s.reg rd).setWidth 8)) else none
  | some (.movHigh .sp _) => some .finish
  | _ => none

/-- What `getbit` delivers next. -/
def Phase.delivery : Phase → Option Delivery
  | .pop bit => some (.bit bit)
  | _ => none

/-- What the depacker delivers next. -/
def Depacker.delivery (d : Depacker) : Option Delivery :=
  match d.ctl with
  | .getbit _ p => p.delivery
  | .storeLiteral => some (.byte (d.tmp0.setWidth 8))
  | .popNumber k => some (.number k d.tmp1)
  | .done => some .finish
  | _ => none

variable {ρ} {S : Word} {d : Depacker} {s : Cpu}

/-! ## The processor delivers what the depacker does -/

theorem AtQuiet.delivery (h : AtQuiet ρ s) : delivery ρ s = none := by
  obtain ⟨i, hf, hq⟩ := h
  rw [Shrinkler.delivery, hf]
  cases i with
  | movHigh rd rm => cases rd <;> first | rfl | cases hq
  | _ => first | rfl | cases hq

theorem InGetbit.delivery {W : Set Word} {s₀ : Cpu} {p : Phase} {c : Coder}
    (h : InGetbit ρ W s₀ (p, c) s) (hret : ∀ bit, p ≠ .ret bit) : delivery ρ s = p.delivery := by
  cases p with
  | call =>
      have hf := ρ.block_getbit.fetch.1
      rw [ρ.addr_zero, ← h.at_phase.1] at hf
      rw [Shrinkler.delivery, hf]
      rfl
  | loop => exact h.atQuiet_loop.delivery
  | load slot =>
      rw [Shrinkler.delivery, h.at_phase.1, ρ.block_load.fetch.1]
      rfl
  | store slot prob bit =>
      rw [Shrinkler.delivery, h.at_phase.1, ← ρ.addr_zero, ρ.block_done.fetch.1]
      rfl
  | pop bit =>
      obtain ⟨hpc, -, hbit⟩ := h.at_phase
      rw [Shrinkler.delivery, hpc, ρ.block_popGetbit.fetch.1, ← hbit]
      exact if_pos rfl
  | ret bit => exact absurd rfl (hret bit)

theorem InNumber.delivery {k : Number} (h : InNumber ρ S k (ρ.addr .bitsloop 14) d s)
    (hS : S.toNat % 4 = 0) : delivery ρ s = some (.number k d.tmp1) := by
  have hnot : ¬[Reg.r1] ++ [.lr] = getbitPushList := by decide
  have hk : (if k.ret ρ = Number.ret ρ .offset then Number.offset else .length) = k := by
    simp only [Number.ret_offset_iff]
    cases k <;> decide
  rw [Shrinkler.delivery, h.pc, ρ.block_popGetnumber.fetch.1]
  simp only [if_neg hnot, h.exec_pop hS, Option.map_some, hk, h.tmp1]

/-- **The processor delivers what the depacker does.** -/
theorem Rel.delivery (hS : S.toNat % 4 = 0) (h : Rel ρ S d s) : delivery ρ s = d.delivery := by
  have hquiet := h.atQuiet
  unfold Rel at h
  unfold Depacker.delivery
  unfold Depacker.quiet at hquiet
  cases hctl : d.ctl with
  | start =>
      simp only [hctl] at h ⊢
      rw [Shrinkler.delivery, h.1, ← ρ.addr_zero, ρ.fetch_codeStart]
  | init =>
      simp only [hctl] at h ⊢
      rw [Shrinkler.delivery, h.2.1, ← ρ.addr_zero, ρ.block_init.fetch.1]
  | storeLiteral =>
      simp only [hctl] at h ⊢
      rw [Shrinkler.delivery, h.pc, ρ.block_storeLiteral.fetch.1, ← h.tmp0]
      simp [Cpu.reg]
  | copyStore =>
      simp only [hctl] at h ⊢
      have hne : ρ.addr .copyloop 2 ≠ ρ.addr .getlit 16 :=
        ρ.addr_ne rfl rfl (by decide) (by decide) (by decide)
      rw [Shrinkler.delivery, h.pc, ρ.block_copyStore.fetch.1]
      exact if_neg hne
  | done =>
      simp only [hctl] at h ⊢
      rw [Shrinkler.delivery, h.pc, ρ.fetch_donedecompressing]
  | exit =>
      simp only [hctl] at h ⊢
      rw [Shrinkler.delivery, h.2.1, ρ.fetch_bx h.2.2.2.2]
  | getnumber k =>
      simp only [hctl] at h ⊢
      rw [Shrinkler.delivery, h.1.pc, ← ρ.addr_zero, ρ.block_getnumber.fetch.1]
  | popNumber k => simp only [hctl] at h ⊢; exact h.delivery hS
  | getbit σ p =>
      simp only [hctl] at h hquiet ⊢
      obtain ⟨s₀, -, hin, -⟩ := h
      cases p with
      | ret bit => exact (hquiet rfl).delivery
      | _ => exact hin.delivery (by simp)
  | _ => simp only [hctl] at hquiet ⊢; exact (hquiet trivial).delivery

end ShrinklerGba.Shrinkler
