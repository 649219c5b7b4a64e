import ShrinklerGba.Thumb.Assembler

/-!
# Blocks of code

A block is a list of instructions that are executed one after the other; only the last one may leave
the block. Executing a block at once (`execs`) gives the segment of the run from its first
instruction to the state after its last.

* `FetchAt M a is`: the instructions lie at `a`; `CodeAt.fetchAt` gets it from placed statements.
* `stepToBx` runs the machine up to a `bx`.
* `Quiet M x lo hi s`: control lies between `lo` and `hi` at an instruction that neither moves `sp`
  (which is `x`) nor stores nor leaves Thumb state.
* **`segment_execs`**: a block whose instructions after the first are quiet is a segment of the run,
  with quiet states inside.
* `fetch_straight`: where every instruction goes on with the next one, control stays in the block.
-/

namespace Thumb

open Transition

variable {ℓ : Type}

/-! ## Where the instructions lie -/

/-- The instructions a list of statements starts with. -/
def instrs : List (Stmt ℓ) → List (Instr ℓ)
  | .label _ :: ss => instrs ss
  | .assertLc _ _ :: ss => instrs ss
  | .instr i :: ss => i :: instrs ss
  | _ => []

/-- The instructions end where an alignment begins. -/
theorem instrs_append_align (n : ℕ) (ss ts : List (Stmt ℓ)) :
    instrs (ss ++ .align n :: ts) = instrs ss := by
  induction ss with
  | nil => rfl
  | cons s ss ih => cases s <;> simp [instrs, ih]

/-- The bytes of instructions. -/
def bytesOf (is : List (Instr ℓ)) : ℕ := (is.map Instr.size).sum

@[simp] theorem bytesOf_nil : bytesOf ([] : List (Instr ℓ)) = 0 := rfl

@[simp] theorem bytesOf_cons (i : Instr ℓ) (is : List (Instr ℓ)) :
    bytesOf (i :: is) = i.size + bytesOf is := by
  simp [bytesOf]

theorem bytesOf_take_le (n : ℕ) (is : List (Instr ℓ)) : bytesOf (is.take n) ≤ bytesOf is := by
  induction is generalizing n with
  | nil => simp
  | cons i is ih =>
      cases n with
      | zero => simp
      | succ n => simpa using ih n

/-- The instructions lie at `a`. -/
def FetchAt (M : Image ℓ) (a : Word) : List (Instr ℓ) → Prop
  | [] => True
  | i :: is => M.fetch a = some i ∧ FetchAt M (a + BitVec.ofNat 32 i.size) is

theorem CodeAt.fetchAt {M : Image ℓ} {a : Word} {ss : List (Stmt ℓ)} (h : CodeAt M a ss) :
    FetchAt M a (instrs ss) := by
  induction ss generalizing a with
  | nil => trivial
  | cons s ss ih =>
      cases s with
      | label l => exact ih h.2
      | assertLc lc what => exact ih h
      | instr i => exact ⟨h.1, ih h.2⟩
      | _ => trivial

/-- The instructions before a label end where the label lies. -/
theorem CodeAt.upTo {M : Image ℓ} {a : Word} {is : List (Instr ℓ)} {l : ℓ} {ss : List (Stmt ℓ)}
    (h : CodeAt M a (is.map .instr ++ .label l :: ss)) :
    FetchAt M a is ∧ M.sym l = a + BitVec.ofNat 32 (bytesOf is) ∧ CodeAt M (M.sym l) ss := by
  induction is generalizing a with
  | nil =>
      obtain ⟨rfl, h⟩ := h
      exact ⟨trivial, by simp, h⟩
  | cons i is ih =>
      obtain ⟨hfetch, hsym, hcode⟩ := ih h.2
      refine ⟨⟨h.1, hfetch⟩, ?_, hcode⟩
      rw [hsym, bytesOf_cons, BitVec.ofNat_add, BitVec.add_assoc]

variable {M : Image ℓ} {a : Word} {is : List (Instr ℓ)}

theorem FetchAt.take (h : FetchAt M a is) (n : ℕ) : FetchAt M a (is.take n) := by
  induction is generalizing a n with
  | nil => simpa using h
  | cons i is ih =>
      cases n with
      | zero => trivial
      | succ n => exact ⟨h.1, ih h.2 n⟩

theorem FetchAt.drop (h : FetchAt M a is) (n : ℕ) :
    FetchAt M (a + BitVec.ofNat 32 (bytesOf (is.take n))) (is.drop n) := by
  induction is generalizing a n with
  | nil => simp [FetchAt]
  | cons i is ih =>
      cases n with
      | zero => simpa [FetchAt] using h
      | succ n =>
          have := ih h.2 n
          simpa [BitVec.ofNat_add, BitVec.add_assoc] using this

/-! ## Quiet instructions -/

/-- Whether an instruction neither writes `sp`, nor stores, nor loads a halfword, nor leaves Thumb
state. -/
def Instr.quiet : Instr ℓ → Bool
  | .lsl rd _ _ | .lsr rd _ _ | .addReg rd _ _ | .subReg rd _ _ | .subImm3 rd _ _ | .movImm rd _
  | .addImm rd _ | .subImm rd _ | .and rd _ | .adc rd _ | .neg rd _ | .orr rd _ | .mul rd _
  | .movLow rd _ | .movHigh rd _ | .addHigh rd _ | .ldrLit rd _ | .adr rd _ | .ldrbReg rd _ _
  | .ldr rd _ _ | .ldrb rd _ _ => rd ≠ .sp
  | .cmpImm _ _ | .cmpReg _ _ | .cmpHigh _ _ | .b _ | .bc _ _ | .bl _ => true
  | _ => false

/-- Whether an instruction may write to memory. -/
def Instr.stores : Instr ℓ → Bool
  | .push _ | .str _ _ _ | .strb _ _ _ | .strh _ _ _ | .stmia _ _ | .swi _ => true
  | _ => false

/-- Whether an instruction stays in Thumb state. -/
def Instr.staysThumb : Instr ℓ → Bool
  | .bx _ | .armToThumb _ => false
  | _ => true

theorem Instr.isArm_of_staysThumb {i : Instr ℓ} (h : i.staysThumb = true) : i.isArm = false := by
  cases i <;> first | rfl | cases h

theorem Instr.staysThumb_of_quiet {i : Instr ℓ} (h : i.quiet = true) : i.staysThumb = true := by
  cases i <;> first | rfl | simp [quiet] at h

theorem Instr.stores_of_quiet {i : Instr ℓ} (h : i.quiet = true) : i.stores = false := by
  cases i <;> first | rfl | cases h

theorem Cpu.set_thumb (s : Cpu) (r : Reg) (x : Word) : (s.set r x).thumb = s.thumb := by
  cases r <;> rfl

theorem Cpu.set_sp {r : Reg} (h : r ≠ .sp) (s : Cpu) (x : Word) : (s.set r x).sp = s.sp := by
  cases r <;> first | rfl | exact absurd rfl h

theorem Cpu.loadRegs_thumb (s : Cpu) (a : Word) (rs : List Reg) :
    (s.loadRegs a rs).thumb = s.thumb := by
  induction rs generalizing s a with
  | nil => rfl
  | cons r rs ih => rw [loadRegs, ih, set_thumb]

theorem Cpu.set_mem (s : Cpu) (r : Reg) (x : Word) : (s.set r x).mem = s.mem := by
  cases r <;> rfl

theorem Cpu.loadRegs_mem (s : Cpu) (a : Word) (rs : List Reg) : (s.loadRegs a rs).mem = s.mem := by
  induction rs generalizing s a with
  | nil => rfl
  | cons r rs ih => rw [loadRegs, ih, set_mem]

theorem exec_thumb {s t : Cpu} {i : Instr ℓ} (hi : i.staysThumb = true) (h : exec M s i = some t) :
    t.thumb = s.thumb := by
  cases i with
  | ldrh rd rb n =>
      simp only [exec] at h
      split at h
      · cases h; exact Cpu.set_thumb _ _ _
      · cases h
  | strh rd rb n =>
      simp only [exec] at h
      split at h
      · cases h; rfl
      · cases h
  | popPc rs => cases h; exact Cpu.loadRegs_thumb _ _ _
  | ldmia rb rs =>
      cases h
      exact (Cpu.loadRegs_thumb _ _ _).trans (Cpu.set_thumb _ _ _)
  | bx rm => cases hi
  | armToThumb rd => cases hi
  | _ =>
      cases h
      first | rfl | exact Cpu.set_thumb _ _ _

theorem exec_sp {s t : Cpu} {i : Instr ℓ} (hi : i.quiet = true) (h : exec M s i = some t) :
    t.sp = s.sp := by
  cases i with
  | cmpImm rn n => cases h; rfl
  | cmpReg rn rm => cases h; rfl
  | cmpHigh rn rm => cases h; rfl
  | b l => cases h; rfl
  | bc c l => cases h; rfl
  | bl l => cases h; rfl
  | _ =>
      first
        | (cases h
           exact Cpu.set_sp (of_decide_eq_true hi) _ _)
        | cases hi

/-- An instruction that writes nothing. -/
theorem exec_mem {s t : Cpu} {i : Instr ℓ} (hi : i.stores = false) (h : exec M s i = some t) :
    t.mem = s.mem := by
  cases i with
  | ldrh rd rb n =>
      simp only [exec] at h
      split at h <;> cases h
      exact Cpu.set_mem ..
  | push | str | strb | strh | stmia | swi => cases hi
  | _ =>
      simp only [exec, Option.some.injEq] at h
      subst h
      simp [Cpu.set_mem, Cpu.loadRegs_mem, Cpu.setNZ, Cpu.setFlags, Cpu.next]

/-! ## Executing a block -/

/-- Run up to a `bx`. -/
def stepToBx (M : Image ℓ) (s : Cpu) : Option Cpu :=
  match M.fetch s.pc with
  | some (.bx _) => none
  | _ => step M s

theorem stepToBx_eq_exec {s : Cpu} {i : Instr ℓ} (hf : M.fetch s.pc = some i)
    (hi : i.staysThumb = true) (ht : s.thumb = true) : stepToBx M s = exec M s i := by
  rw [stepToBx, hf]
  cases i with
  | bx rm => cases hi
  | _ => exact step_of_fetch hf (Instr.isArm_of_staysThumb hi) ht

/-- Execute instructions one after the other. Every one but the last has to go on with the next. -/
def execs (M : Image ℓ) : List (Instr ℓ) → Cpu → Option Cpu
  | [], s => some s
  | [i], s => exec M s i
  | i :: j :: is, s =>
      (exec M s i).bind fun t =>
        if t.pc = s.pc + BitVec.ofNat 32 i.size then execs M (j :: is) t else none

theorem execs_sp {s t : Cpu} (hq : ∀ i ∈ is, i.quiet = true) (h : execs M is s = some t) :
    t.sp = s.sp := by
  induction is generalizing s with
  | nil => cases h; rfl
  | cons i is ih =>
      have hi := hq i List.mem_cons_self
      cases is with
      | nil => exact exec_sp hi h
      | cons j is =>
          obtain ⟨u, hu, h⟩ := Option.bind_eq_some_iff.mp h
          split at h
          · rw [ih (fun k hk => hq k (List.mem_cons_of_mem i hk)) h, exec_sp hi hu]
          · cases h

/-- A block is a segment of the run of any machine that executes its instructions, and what holds at
all instructions but the first holds inside. -/
theorem segment_of_execs {f : Cpu → Option Cpu} {P : Cpu → Prop} {i : Instr ℓ} {s t : Cpu}
    (hf : FetchAt M s.pc (i :: is)) (ht : s.thumb = true)
    (hstays : ∀ j ∈ i :: is, j.staysThumb = true)
    (hstep : ∀ j ∈ i :: is, ∀ u : Cpu, M.fetch u.pc = some j → u.thumb = true → f u = exec M u j)
    (hP : ∀ j ∈ is, ∀ u : Cpu, M.fetch u.pc = some j → P u)
    (h : execs M (i :: is) s = some t) : Segment f P is.length s t := by
  have hi := hstep i List.mem_cons_self s hf.1 ht
  induction is generalizing i s with
  | nil => exact .last (hi.trans h)
  | cons j is ih =>
      obtain ⟨u, hu, h⟩ := Option.bind_eq_some_iff.mp h
      split at h <;> rename_i hpc
      · have hthumb : u.thumb = true := (exec_thumb (hstays i List.mem_cons_self) hu).trans ht
        have hfu : FetchAt M u.pc (j :: is) := hpc ▸ hf.2
        have hrest {Q : Instr ℓ → Prop} (hQ : ∀ k ∈ i :: j :: is, Q k) : ∀ k ∈ j :: is, Q k :=
          fun k hk => hQ k (List.mem_cons_of_mem i hk)
        refine .cons (hi.trans hu) (hP j List.mem_cons_self u hfu.1) ?_
        exact ih hfu hthumb (hrest hstays) (hrest hstep)
          (fun k hk => hP k (List.mem_cons_of_mem j hk)) h
          (hstep j (List.mem_cons_of_mem i List.mem_cons_self) u hfu.1 hthumb)
      · cases h

/-- **The run goes through a block.** -/
theorem passes_execs {i : Instr ℓ} {P : Cpu → Prop} {s t : Cpu} (hf : FetchAt M s.pc (i :: is))
    (ht : s.thumb = true) (hstays : ∀ j ∈ i :: is, j.staysThumb = true)
    (hP : ∀ j ∈ i :: is, ∀ u : Cpu, M.fetch u.pc = some j → P u)
    (h : execs M (i :: is) s = some t) : Passes (step M) P s t :=
  .of_segment (segment_of_execs hf ht hstays
    (fun j hj _ hu hthumb => step_of_fetch hu (Instr.isArm_of_staysThumb (hstays j hj)) hthumb)
    (fun j hj => hP j (List.mem_cons_of_mem i hj)) h) (hP i List.mem_cons_self s hf.1)
    fun _ hv => hv

/-- Control lies between `lo` and `hi`, at a quiet instruction, with `sp` as given. -/
structure Quiet (M : Image ℓ) (x : Word) (lo hi : ℕ) (s : Cpu) : Prop where
  /-- The stack pointer. -/
  sp : s.sp = x
  /-- Thumb state. -/
  thumb : s.thumb = true
  /-- Not before `lo`. -/
  lo_le : lo ≤ s.pc.toNat
  /-- Before `hi`. -/
  lt_hi : s.pc.toNat < hi
  /-- A quiet instruction. -/
  instr : ∃ i, M.fetch s.pc = some i ∧ i.quiet = true

/-- **A block is a segment of the run.** -/
theorem segment_execs {i : Instr ℓ} {lo hi : ℕ} {s t : Cpu} (hf : FetchAt M s.pc (i :: is))
    (ht : s.thumb = true) (hfirst : i.staysThumb = true) (hq : ∀ j ∈ is, j.quiet = true)
    (hlo : lo ≤ s.pc.toNat + i.size) (hhi : s.pc.toNat + bytesOf (i :: is) ≤ hi)
    (hwrap : hi ≤ 2 ^ 32)
    (h : execs M (i :: is) s = some t) :
    Segment (stepToBx M) (Quiet M t.sp lo hi) is.length s t := by
  induction is generalizing i s with
  | nil => exact .last (by rw [stepToBx_eq_exec hf.1 hfirst ht]; exact h)
  | cons j is ih =>
      obtain ⟨u, hu, h⟩ := Option.bind_eq_some_iff.mp h
      split at h <;> rename_i hpc
      · have hj := hq j List.mem_cons_self
        have hthumb : u.thumb = true := (exec_thumb hfirst hu).trans ht
        have hfu : FetchAt M u.pc (j :: is) := hpc ▸ hf.2
        have hpos := j.size_pos
        simp only [bytesOf_cons] at hhi
        have hpcN : u.pc.toNat = s.pc.toNat + i.size := by
          rw [hpc, BitVec.toNat_add, BitVec.toNat_ofNat]
          omega
        have hquiet : Quiet M t.sp lo hi u :=
          ⟨(execs_sp hq h).symm, hthumb, by omega, by omega, j, hfu.1, hj⟩
        refine .cons (by rw [stepToBx_eq_exec hf.1 hfirst ht]; exact hu) hquiet ?_
        exact ih hfu hthumb (Instr.staysThumb_of_quiet hj)
          (fun k hk => hq k (List.mem_cons_of_mem j hk)) (by omega)
          (by simp only [bytesOf_cons]; omega) h
      · cases h

/-- **Straight-line code**: where every instruction but the last goes on with the next one, control
stays at the instructions. -/
theorem fetch_straight (is : List (Instr ℓ)) {r : Reg} {s t : Cpu} {n : ℕ}
    (hf : FetchAt M a (is ++ [.bx r]))
    (his : ∀ i ∈ is, ∀ u v, exec M u i = some v → v.pc = u.pc + BitVec.ofNat 32 i.size)
    (hs : s.pc = a) (ht : iter (stepToBx M) n s = some t) :
    ∃ js i ks, is ++ [.bx r] = js ++ i :: ks ∧ t.pc = a + BitVec.ofNat 32 (bytesOf js) ∧
      M.fetch t.pc = some i := by
  induction n generalizing is a s with
  | zero =>
      cases ht
      cases is with
      | nil => exact ⟨[], .bx r, [], rfl, by simp [hs], hs ▸ hf.1⟩
      | cons i is => exact ⟨[], i, is ++ [.bx r], rfl, by simp [hs], hs ▸ hf.1⟩
  | succ n ih =>
      obtain ⟨u, hu, ht⟩ := (iter_succ_eq_some _).mp ht
      subst hs
      cases is with
      | nil =>
          rw [stepToBx, show M.fetch s.pc = some (.bx r) from hf.1] at hu
          cases hu
      | cons i is =>
          have hexec : exec M s i = some u := by
            have hstep : step M s = some u := by
              rw [stepToBx, show M.fetch s.pc = some i from hf.1] at hu
              cases i with
              | bx rm => cases hu
              | _ => exact hu
            rw [step, show M.fetch s.pc = some i from hf.1, Option.bind_some] at hstep
            split at hstep
            · cases hstep
            · exact hstep
          have hpc := his i List.mem_cons_self s u hexec
          obtain ⟨js, j, ks, hsplit, hjs, hfetch⟩ :=
            ih is hf.2 (fun j hj => his j (List.mem_cons_of_mem i hj)) hpc ht
          refine ⟨i :: js, j, ks, by rw [List.cons_append, hsplit, List.cons_append], ?_, hfetch⟩
          rw [hjs, bytesOf_cons, BitVec.ofNat_add, BitVec.add_assoc]

end Thumb
