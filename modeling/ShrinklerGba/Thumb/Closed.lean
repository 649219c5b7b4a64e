import ShrinklerGba.Thumb.Block

/-!
# Code that control does not leave

Code whose instructions keep the stack pointer, and whose branches lead back into it.

* `closed ls ss`: the code that `ss` starts with neither branches elsewhere than to the labels `ls`
  nor runs on into something that is not code.
* `Entries M ls areas`: after each of these labels there is such code, in one of the areas.
* `Enclosed M ls areas x s`: control is in such code, and the stack pointer is `x`.
* **`Enclosed.step`**: it stays so, up to a `bx`.
-/

namespace Thumb

open Transition

variable {ℓ : Type}

/-! ## Plain instructions -/

/-- Whether an instruction is a branch to a label. -/
def Instr.jumps : Instr ℓ → Bool
  | .b _ | .bc _ _ | .bl _ => true
  | _ => false

/-- Whether an instruction goes on with the next one, keeps `sp`, and neither accesses a halfword
nor stores a byte. -/
def Instr.plain (i : Instr ℓ) : Bool :=
  match i with
  | .str _ _ _ => true
  | .ldmia rb rs => rb ≠ .sp && .sp ∉ rs
  | .stmia rb _ => rb ≠ .sp
  | i => i.quiet && !i.jumps

variable {M : Image ℓ} {s t : Cpu}

theorem Cpu.loadRegs_sp {rs : List Reg} (h : .sp ∉ rs) (s : Cpu) (a : Word) :
    (s.loadRegs a rs).sp = s.sp := by
  induction rs generalizing s a with
  | nil => rfl
  | cons r rs ih =>
      rw [List.mem_cons, not_or] at h
      rw [loadRegs, ih h.2, set_sp (Ne.symm h.1)]

theorem Cpu.set_pc (s : Cpu) (r : Reg) (x : Word) : (s.set r x).pc = s.pc := by
  cases r <;> rfl

theorem Cpu.loadRegs_pc (s : Cpu) (a : Word) (rs : List Reg) : (s.loadRegs a rs).pc = s.pc := by
  induction rs generalizing s a with
  | nil => rfl
  | cons r rs ih => rw [loadRegs, ih, set_pc]

/-- A quiet instruction that is no branch goes on with the next one. -/
theorem exec_pc {i : Instr ℓ} (hi : i.quiet = true) (hj : i.jumps = false)
    (h : exec M s i = some t) : t.pc = s.pc + BitVec.ofNat 32 i.size := by
  cases i with
  | b | bc | bl => cases hj
  | cmpImm | cmpReg | cmpHigh => cases h; rfl
  | _ =>
      first
        | cases hi
        | (cases h
           simp [Cpu.next, Cpu.setNZ, Cpu.setFlags, Cpu.set_pc, Instr.size])

/-- A plain instruction. -/
theorem exec_plain {i : Instr ℓ} (hi : i.plain = true) (h : exec M s i = some t) :
    t.sp = s.sp ∧ t.thumb = s.thumb ∧ t.pc = s.pc + BitVec.ofNat 32 i.size := by
  have hquiet (hq : i.quiet = true) (hj : i.jumps = false) :
      t.sp = s.sp ∧ t.thumb = s.thumb ∧ t.pc = s.pc + BitVec.ofNat 32 i.size :=
    ⟨exec_sp hq h, exec_thumb (Instr.staysThumb_of_quiet hq) h, exec_pc hq hj h⟩
  cases i with
  | ldmia rb rs =>
      simp only [Instr.plain, Bool.and_eq_true, decide_eq_true_eq] at hi
      cases h
      refine ⟨(Cpu.loadRegs_sp hi.2 _ _).trans (Cpu.set_sp hi.1 _ _), ?_, ?_⟩
      · exact (Cpu.loadRegs_thumb _ _ _).trans (Cpu.set_thumb _ _ _)
      · simp [Cpu.next, Cpu.loadRegs_pc, Cpu.set_pc, Instr.size]
  | stmia rb rs =>
      simp only [Instr.plain, decide_eq_true_eq] at hi
      cases h
      refine ⟨Cpu.set_sp hi _ _, Cpu.set_thumb _ _ _, ?_⟩
      simp [Cpu.next, Cpu.set_pc, Instr.size]
  | str rd rb n => cases h; exact ⟨rfl, rfl, rfl⟩
  | _ =>
      simp only [Instr.plain, Bool.and_eq_true, Bool.not_eq_true'] at hi
      exact hquiet hi.1 hi.2

/-! ## Closed code -/

variable [DecidableEq ℓ]

/-- Whether control stays at the labels `ls` and in the instructions that statements start with, up
to a `bx`. A subroutine that is called is not expected to return. -/
def closed (ls : List ℓ) : List (Stmt ℓ) → Bool
  | .label _ :: ss | .assertLc _ _ :: ss => closed ls ss
  | .instr i :: ss =>
      match i with
      | .b l | .bl l => l ∈ ls
      | .bc _ l => l ∈ ls && closed ls ss
      | .bx _ => true
      | i => i.plain && closed ls ss
  | _ => false

/-- Closed code lies at an address, in one of the areas. -/
structure Encloses (M : Image ℓ) (ls : List ℓ) (areas : List (ℕ × ℕ)) (a : Word)
    (ss : List (Stmt ℓ)) : Prop where
  /-- The code. -/
  code : CodeAt M a ss
  /-- Control does not leave it. -/
  closed : closed ls ss = true
  /-- The area. -/
  area : ∃ p ∈ areas, p.1 ≤ a.toNat ∧ a.toNat + codeSize ss ≤ p.2

/-- After the labels, there is closed code in the areas. -/
structure Entries (M : Image ℓ) (ls : List ℓ) (areas : List (ℕ × ℕ)) : Prop where
  /-- The code. -/
  encloses : ∀ l ∈ ls, ∃ ss, Encloses M ls areas (M.sym l) ss
  /-- The areas are in the address space. -/
  lt : ∀ p ∈ areas, p.2 < 2 ^ 32

/-- Control is in closed code. -/
structure Enclosed (M : Image ℓ) (ls : List ℓ) (areas : List (ℕ × ℕ)) (x : Word) (s : Cpu) :
    Prop where
  /-- The stack pointer. -/
  sp : s.sp = x
  /-- Thumb state. -/
  thumb : s.thumb = true
  /-- The code. -/
  code : ∃ ss, Encloses M ls areas s.pc ss

variable {ls : List ℓ} {areas : List (ℕ × ℕ)} {a x : Word} {ss : List (Stmt ℓ)}

/-- There is an instruction. -/
theorem Encloses.head (h : Encloses M ls areas a ss) :
    ∃ i ss', M.fetch a = some i ∧ Encloses M ls areas a (.instr i :: ss') := by
  obtain ⟨hcode, hclosed, harea⟩ := h
  induction ss with
  | nil => cases hclosed
  | cons s ss ih =>
      cases s with
      | label l => exact ih hcode.2 hclosed harea
      | assertLc lc what => exact ih hcode hclosed harea
      | instr i => exact ⟨i, ss, hcode.1, hcode, hclosed, harea⟩
      | _ => cases hclosed

/-- The code after an instruction. -/
theorem Encloses.tail {i : Instr ℓ} (hlt : ∀ p ∈ areas, p.2 < 2 ^ 32)
    (h : Encloses M ls areas a (.instr i :: ss)) (hss : Thumb.closed ls ss = true) :
    Encloses M ls areas (a + BitVec.ofNat 32 i.size) ss := by
  obtain ⟨hcode, -, p, hp, hlo, hhi⟩ := h
  have hlt := hlt p hp
  simp only [codeSize] at hhi
  have hnat : (a + BitVec.ofNat 32 i.size).toNat = a.toNat + i.size := by
    rw [BitVec.toNat_add, BitVec.toNat_ofNat]
    omega
  exact ⟨hcode.2, hss, p, hp, by omega, by omega⟩

/-- Control is in an area. -/
theorem Enclosed.pc (h : Enclosed M ls areas x s) : ∃ p ∈ areas, p.1 ≤ s.pc.toNat ∧
    s.pc.toNat < p.2 := by
  obtain ⟨-, -, ss, hss⟩ := h
  obtain ⟨i, ss', -, -, -, p, hp, hlo, hhi⟩ := hss.head
  have hpos := i.size_pos
  simp only [codeSize] at hhi
  exact ⟨p, hp, hlo, by omega⟩

/-- The next instruction is one of those that closed code may have. -/
theorem Enclosed.fetch (h : Enclosed M ls areas x s) : ∃ i, M.fetch s.pc = some i ∧
    (i.plain = true ∨ i.quiet = true ∨ ∃ r, i = .bx r) := by
  obtain ⟨-, -, ss, hss⟩ := h
  obtain ⟨i, ss', hfetch, -, hclosed, -⟩ := hss.head
  refine ⟨i, hfetch, ?_⟩
  cases i with
  | b | bl | bc => exact .inr (.inl rfl)
  | bx r => exact .inr (.inr ⟨r, rfl⟩)
  | _ =>
      simp only [closed, Bool.and_eq_true] at hclosed
      exact .inl hclosed.1

/-- **Control stays in closed code.** -/
theorem Enclosed.step (hM : Entries M ls areas) (h : Enclosed M ls areas x s)
    (ht : stepToBx M s = some t) : Enclosed M ls areas x t := by
  obtain ⟨rfl, hthumb, ss, hss⟩ := h
  obtain ⟨i, ss', hfetch, hss⟩ := hss.head
  have hclosed := hss.closed
  have hstep (hi : i.staysThumb = true) : exec M s i = some t := by
    rw [← stepToBx_eq_exec hfetch hi hthumb, ht]
  have hentry {l : ℓ} (hl : l ∈ ls) := hM.encloses l hl
  have hplain (hi : i.plain = true ∧ closed ls ss' = true) (hstays : i.staysThumb = true) :
      Enclosed M ls areas s.sp t := by
    obtain ⟨hsp, hthumb', hpc⟩ := exec_plain hi.1 (hstep hstays)
    refine ⟨hsp, hthumb'.trans hthumb, ss', ?_⟩
    rw [hpc]
    exact hss.tail hM.lt hi.2
  cases i with
  | b l =>
      cases hstep rfl
      exact ⟨rfl, hthumb, hentry (by simpa [closed] using hclosed)⟩
  | bl l =>
      cases hstep rfl
      exact ⟨rfl, hthumb, hentry (by simpa [closed] using hclosed)⟩
  | bc c l =>
      simp only [closed, Bool.and_eq_true, decide_eq_true_eq] at hclosed
      cases hstep rfl
      refine ⟨rfl, hthumb, ?_⟩
      by_cases hc : s.holds c = true
      · simp only [hc, if_true]
        exact hentry hclosed.1
      · simp only [hc]
        exact ⟨ss', hss.tail hM.lt hclosed.2⟩
  | bx r =>
      rw [stepToBx, hfetch] at ht
      cases ht
  | _ =>
      simp only [closed, Bool.and_eq_true] at hclosed
      first
        | exact hplain hclosed rfl
        | cases hclosed.1

/-- It stays so for whole runs. -/
theorem Enclosed.iter {n : ℕ} (hM : Entries M ls areas) (h : Enclosed M ls areas x s)
    (ht : iter (stepToBx M) n s = some t) : Enclosed M ls areas x t := by
  induction n generalizing s with
  | zero =>
      cases ht
      exact h
  | succ n ih =>
      obtain ⟨u, hu, ht⟩ := (iter_succ_eq_some _).mp ht
      exact ih (h.step hM hu) ht

end Thumb
