import ShrinklerGba.Shrinkler.DebugChecks

/-!
# The copy loop

A reference is copied byte by byte, from lower addresses to higher ones. Where it is longer than its
offset, the loop reads what it has written.

* `replicated m a d n` is memory when the `d` bytes before `a` are repeated in the `n` bytes from
  `a` on; **`store8_replicated`**: copying the next byte continues it.
* `Copied s d i t`: `i` bytes were copied between `s` and `t`.
* **`copyloop_replicates`**: the loop ends, and memory is as in the closed form.
-/

namespace ShrinklerGba.Shrinkler

open Thumb Transition

/-! ## Periodic memory -/

/-- Memory with the `d` bytes before `a` repeated in the `n` bytes from `a` on. -/
def replicated (m : Mem) (a : Word) (d n : ℕ) : Mem := fun x =>
  if (x - a).toNat < n then m (a - BitVec.ofNat 32 d + BitVec.ofNat 32 ((x - a).toNat % d)) else m x

variable (m : Mem) (a : Word) {d n : ℕ}

/-- The byte that is `d` bytes before the next one, whether it was written before or not. -/
theorem replicated_source (hd : 1 ≤ d) (hd' : d < 2 ^ 32) (hn : n < 2 ^ 32) :
    replicated m a d n (a + BitVec.ofNat 32 n - BitVec.ofNat 32 d) =
      m (a - BitVec.ofNat 32 d + BitVec.ofNat 32 (n % d)) := by
  rcases Nat.lt_or_ge n d with hlt | hge
  · -- It lies before `a`.
    have hout : ¬(a + BitVec.ofNat 32 n - BitVec.ofNat 32 d - a).toNat < n := by bv_omega
    rw [replicated, if_neg hout, Nat.mod_eq_of_lt hlt]
    congr 1
    bv_omega
  · have hin : (a + BitVec.ofNat 32 n - BitVec.ofNat 32 d - a).toNat = n - d := by bv_omega
    rw [replicated, hin, if_pos (by omega), Nat.mod_eq_sub_mod hge]

/-- **Copying the next byte continues the period.** -/
theorem store8_replicated (hd : 1 ≤ d) (hd' : d < 2 ^ 32) (hn : n < 2 ^ 32) :
    store8 (replicated m a d n) (a + BitVec.ofNat 32 n)
      (replicated m a d n (a + BitVec.ofNat 32 n - BitVec.ofNat 32 d)) =
      replicated m a d (n + 1) := by
  rw [replicated_source m a hd hd' hn]
  funext x
  by_cases hx : x = a + BitVec.ofNat 32 n
  · have hat : (x - a).toNat = n := by bv_omega
    rw [store8, hx, Function.update_self, ← hx, replicated, hat, if_pos (Nat.lt_succ_self n)]
  · have hne : (x - a).toNat ≠ n := fun hat => hx (by bv_omega)
    have hiff : (x - a).toNat < n + 1 ↔ (x - a).toNat < n := by omega
    rw [store8, Function.update_of_ne hx, replicated, replicated]
    simp only [hiff]

variable {m a}

/-- The bytes that are written. -/
theorem replicated_of_lt {i : ℕ} (hi : i < n) (hn : n ≤ 2 ^ 32) :
    replicated m a d n (a + BitVec.ofNat 32 i) =
      m (a - BitVec.ofNat 32 d + BitVec.ofNat 32 (i % d)) := by
  have hat : (a + BitVec.ofNat 32 i - a).toNat = i := by bv_omega
  rw [replicated, hat, if_pos hi]

/-- The rest of memory. -/
theorem replicated_eqOn : Set.EqOn (replicated m a d n) m (range a n)ᶜ := fun _ hx => if_neg hx

/-! ## Where the loop lies -/

/-- The code of a cartridge, with or without debug checks. -/
def codeImage (c : Config) (mulCarry : Word → Word → Bool) (swi : ℕ → Cpu → Cpu) : Image Label :=
  Thumb.image romStart (program c) mulCarry swi

variable (c : Config) (mulCarry : Word → Word → Bool) (swi : ℕ → Cpu → Cpu)

/-- The instructions of the loop. -/
def copyloopCode : List (Instr Label) :=
  [.ldrbReg bitctx outp tmp0, .strb bitctx outp 0, .addImm outp 1, .subImm tmp1 1,
   .bc .ne .copyloop]

/-- **The loop lies at its label.** -/
theorem fetchAt_copyloop : FetchAt (codeImage c mulCarry swi)
    ((codeImage c mulCarry swi).sym .copyloop) copyloopCode := by
  have h := (Rom.fetchAt ⟨c, mulCarry, swi⟩ (l := .copyloop) rfl).take 5
  have hcode : (Rom.code ⟨c, mulCarry, swi⟩ .copyloop).take 5 = copyloopCode := by
    rw [code_of_main _ (by decide)]
    rfl
  rwa [hcode] at h

/-! ## The loop -/

/-- `n` bytes were copied from `d` bytes before, and nothing else changed but `bitctx` and the
flags. -/
structure Copied (s : Cpu) (d n : ℕ) (t : Cpu) : Prop where
  /-- The output address. -/
  outp : t.r1 = s.r1 + BitVec.ofNat 32 n
  /-- The length that is left. -/
  tmp1 : t.r3 = s.r3 - BitVec.ofNat 32 n
  /-- Memory. -/
  mem : t.mem = replicated s.mem s.r1 d n
  /-- The other registers. -/
  others : { t with
    r1 := s.r1, r3 := s.r3, r7 := s.r7, pc := s.pc, mem := s.mem
    n := s.n, z := s.z, c := s.c, v := s.v } = s

variable {c mulCarry swi} {s t : Cpu}

theorem Copied.refl (s : Cpu) (d : ℕ) : Copied s d 0 s := ⟨by simp, by simp, rfl, rfl⟩

variable (c mulCarry swi) in
/-- One iteration: a byte is copied, and the loop goes on unless the length is used up. -/
theorem iter_copyloop (hpc : t.pc = (codeImage c mulCarry swi).sym .copyloop)
    (ht : t.thumb = true) :
    ∃ n z f v, iter (step (codeImage c mulCarry swi)) 5 t = some { t with
      r1 := t.r1 + 1
      r3 := t.r3 - 1
      r7 := (t.mem (t.r1 + t.r2)).setWidth 32
      mem := store8 t.mem t.r1 (t.mem (t.r1 + t.r2))
      pc := if t.r3 - 1 = 0 then (codeImage c mulCarry swi).sym .copyloop + 10
        else (codeImage c mulCarry swi).sym .copyloop
      n := n, z := z, c := f, v := v } := by
  have hf := fetchAt_copyloop c mulCarry swi
  rw [← hpc] at hf
  have hstays : ∀ j ∈ copyloopCode, j.staysThumb = true := by decide
  have hseg {u : Cpu} (hu : execs (codeImage c mulCarry swi) copyloopCode t = some u) :
      Segment (step (codeImage c mulCarry swi)) (fun _ => True) 4 t u :=
    segment_of_execs hf ht hstays
      (fun j hj _ hu hthumb => step_of_fetch hu (Instr.isArm_of_staysThumb (hstays j hj)) hthumb)
      (fun _ _ _ _ => trivial) hu
  refine ⟨(t.r3 - 1).msb, t.r3 - 1 == 0, carrySub t.r3 1, overflowSub t.r3 1, (hseg ?_).iter_eq⟩
  rw [copyloopCode]
  simp [execs, exec, Cpu.reg, Cpu.set, Cpu.setFlags, Cpu.next, Cpu.holds, Instr.size, hpc,
    BitVec.add_assoc]

/-- **An iteration copies the next byte.** -/
theorem Copied.iterate {d n : ℕ} (h : Copied s d n t) (ht : s.thumb = true)
    (hpc : t.pc = (codeImage c mulCarry swi).sym .copyloop) (htmp0 : s.r2 = -BitVec.ofNat 32 d)
    (hd : 1 ≤ d) (hd' : d < 2 ^ 32) (hn : n < 2 ^ 32) :
    ∃ u, iter (step (codeImage c mulCarry swi)) 5 t = some u ∧ Copied s d (n + 1) u ∧
      u.pc = if u.r3 = 0 then (codeImage c mulCarry swi).sym .copyloop + 10
        else (codeImage c mulCarry swi).sym .copyloop := by
  have hthumb : t.thumb = true := (congrArg Cpu.thumb h.others).trans ht
  have hr2 : t.r2 = -BitVec.ofNat 32 d := (congrArg Cpu.r2 h.others).trans htmp0
  obtain ⟨fn, fz, fc, fv, hiter⟩ := iter_copyloop c mulCarry swi hpc hthumb
  refine ⟨_, hiter, ⟨?_, ?_, ?_, h.others⟩, rfl⟩
  · show t.r1 + 1 = s.r1 + BitVec.ofNat 32 (n + 1)
    rw [h.outp, BitVec.ofNat_add, BitVec.add_assoc]
    rfl
  · show t.r3 - 1 = s.r3 - BitVec.ofNat 32 (n + 1)
    rw [h.tmp1]
    bv_omega
  · show store8 t.mem t.r1 (t.mem (t.r1 + t.r2)) = replicated s.mem s.r1 d (n + 1)
    rw [h.mem, h.outp, hr2, ← BitVec.sub_eq_add_neg]
    exact store8_replicated s.mem s.r1 hd hd' hn

/-- **As long as the length is not used up, the loop goes on.** -/
theorem copyloop_iterations {d l n : ℕ} (hpc : s.pc = (codeImage c mulCarry swi).sym .copyloop)
    (ht : s.thumb = true) (htmp0 : s.r2 = -BitVec.ofNat 32 d) (htmp1 : s.r3 = BitVec.ofNat 32 l)
    (hd : 1 ≤ d) (hd' : d < 2 ^ 32) (hl' : l < 2 ^ 32) (hn : n ≤ l) (hl : 1 ≤ l) :
    ∃ u, iter (step (codeImage c mulCarry swi)) (5 * n) s = some u ∧ Copied s d n u ∧
      u.pc = if n = l then (codeImage c mulCarry swi).sym .copyloop + 10
        else (codeImage c mulCarry swi).sym .copyloop := by
  induction n with
  | zero => exact ⟨s, rfl, .refl s d, by rw [if_neg (by omega), hpc]⟩
  | succ n ih =>
      obtain ⟨t, hiter, hcopied, htpc⟩ := ih (by omega)
      rw [if_neg (by omega)] at htpc
      obtain ⟨u, hnext, hu, hupc⟩ := hcopied.iterate ht htpc htmp0 hd hd' (by omega)
      have hleft : u.r3 = 0 ↔ n + 1 = l := by
        rw [hu.tmp1, htmp1]
        constructor <;> intro h <;> bv_omega
      refine ⟨u, iter_trans _ hiter hnext, hu, ?_⟩
      rw [hupc]
      simp only [hleft]

/-- **The copy loop replicates periodically**, also where a reference is longer than its offset: it
ends after as many iterations as there are bytes to copy, and writes the bytes before the output
address again and again. -/
theorem copyloop_replicates {d l : ℕ} (hpc : s.pc = (codeImage c mulCarry swi).sym .copyloop)
    (ht : s.thumb = true) (htmp0 : s.r2 = -BitVec.ofNat 32 d) (htmp1 : s.r3 = BitVec.ofNat 32 l)
    (hd : 1 ≤ d) (hd' : d < 2 ^ 32) (hl : 1 ≤ l) (hl' : l < 2 ^ 32) :
    (∀ n < l, ∃ u, iter (step (codeImage c mulCarry swi)) (5 * n) s = some u ∧
      u.pc = (codeImage c mulCarry swi).sym .copyloop ∧ Copied s d n u) ∧
    ∃ t, iter (step (codeImage c mulCarry swi)) (5 * l) s = some t ∧
      t.pc = (codeImage c mulCarry swi).sym .copyloop + 10 ∧
      t.r1 = s.r1 + BitVec.ofNat 32 l ∧ t.r3 = 0 ∧
      (∀ i < l, t.mem (s.r1 + BitVec.ofNat 32 i) =
        s.mem (s.r1 - BitVec.ofNat 32 d + BitVec.ofNat 32 (i % d))) ∧
      Set.EqOn t.mem s.mem (range s.r1 l)ᶜ ∧ Copied s d l t := by
  refine ⟨fun n hn => ?_, ?_⟩
  · obtain ⟨u, hiter, hu, hupc⟩ :=
      copyloop_iterations hpc ht htmp0 htmp1 hd hd' hl' (Nat.le_of_lt hn) hl
    exact ⟨u, hiter, by rw [hupc, if_neg (Nat.ne_of_lt hn)], hu⟩
  · obtain ⟨t, hiter, h, htpc⟩ :=
      copyloop_iterations hpc ht htmp0 htmp1 hd hd' hl' (Nat.le_refl l) hl
    refine ⟨t, hiter, by rw [htpc, if_pos rfl], h.outp, ?_, fun i hi => ?_, ?_, h⟩
    · rw [h.tmp1, htmp1, BitVec.sub_self]
      rfl
    · rw [h.mem]
      exact replicated_of_lt hi (Nat.le_of_lt hl')
    · rw [h.mem]
      exact replicated_eqOn

/-- At the loop, to copy five bytes from two bytes before, in a cartridge with debug checks. -/
def copying : Cpu where
  r0 := 0; r1 := 0x02000002; r2 := -2; r3 := 5; r4 := 0; r5 := 0; r6 := 0; r7 := 0; r8 := 0
  r9 := 0; r10 := 0; r11 := 0; r12 := 0; sp := 0x03006f00; lr := 0
  pc := (codeImage { debugChecks := true, loadAddress := 0x02000000, entry := 0x02000000 }
    (fun _ _ => false) fun _ s => s).sym .copyloop
  n := false; z := false; c := false; v := false; thumb := true
  mem := fun a => a.setWidth 8

/-- The two bytes are repeated two and a half times. -/
theorem copyloop_replicates_copying : ∃ t,
    iter (step (codeImage { debugChecks := true, loadAddress := 0x02000000, entry := 0x02000000 }
      (fun _ _ => false) fun _ s => s)) 25 copying = some t ∧
    t.mem 0x02000006 = 0 ∧ t.r3 = 0 := by
  obtain ⟨-, t, hiter, -, -, hr3, hbytes, -⟩ :=
    copyloop_replicates (s := copying) (d := 2) (l := 5) rfl rfl rfl rfl (by decide) (by decide)
      (by decide) (by decide)
  exact ⟨t, hiter, hbytes 4 (by decide), hr3⟩

end ShrinklerGba.Shrinkler
