import ShrinklerGba.Shrinkler.RangeDecoder

/-!
# A call of `getbit`

One call of `getbit` from its `push` to its return, whoever calls it, with any probability between
its bounds.

* `Returns ρ s t`: a call in `s` returns in `t`.
* `Stages.Course ρ s t g`: the states `g` that a call goes through, from `s` to `t`.
* `Ready ρ slot p s`: `getbit` may be called in `s`, with the probability `p` at `slot`.
* **`Ready.call`**: the call returns, and what it computes on its way is what a range decoder does.
-/

namespace ShrinklerGba.Shrinkler

open Thumb Transition RangeCoding

variable (ρ : Rom)

/-! ## What a call goes through -/

/-- The next instruction does not pop. -/
def NoPop (s : Cpu) : Prop := ∀ rs, ρ.image.fetch s.pc ≠ some (.popPc rs)

/-- A call in `s` returns in `t`: that is the state after the first `pop`. -/
def Returns (s t : Cpu) : Prop :=
  ∃ u, Passes (stepToBx ρ.image) (NoPop ρ) s u ∧ ¬NoPop ρ u ∧ stepToBx ρ.image u = some t

/-- Iterations of the normalisation loop. Each doubles the range. -/
inductive Doublings (x : Word) : ℕ → Cpu → Cpu → Prop
  /-- No iteration. -/
  | refl {s} : s.pc = ρ.sym .loopCondition → Doublings x 0 s s
  /-- One more iteration. -/
  | step {n s u t} : s.pc = ρ.sym .loopCondition → ρ.Leads .getbit x s u →
      u.r5.toNat = 2 * s.r5.toNat → Doublings x n u t → Doublings x (n + 1) s t

/-- States that a call goes through. -/
structure Stages where
  /-- The iterations of the normalisation loop. -/
  doublings : ℕ
  /-- Before and after the loop, before the probability is loaded, before the value is compared with
  the threshold, and before the new probability is stored. -/
  (enter normalised load compare done : Cpu)

/-- The call from `s` to `t` goes through these states. -/
structure Stages.Course (s t : Cpu) (g : Stages) : Prop where
  /-- Control is at `getbit`. -/
  call_pc : s.pc = ρ.sym .getbit
  /-- To the loop. -/
  leads_enter : ρ.Leads .getbit (s.sp - 16) s g.enter
  /-- Through the loop. -/
  leads_normalised : Doublings ρ (s.sp - 16) g.doublings g.enter g.normalised
  /-- The loop is left. -/
  normalised_pc : g.normalised.pc = ρ.sym .loopCondition
  /-- To the load. -/
  leads_load : ρ.Leads .getbit (s.sp - 16) g.normalised g.load
  /-- The probability is loaded next. -/
  load_pc : g.load.pc = ρ.loadAddr
  /-- To the comparison. -/
  leads_compare : ρ.Leads .getbit (s.sp - 16) g.load g.compare
  /-- The value is compared with the threshold next. -/
  within_compare : g.compare.pc = ρ.compareAddr ∧ ρ.Within .getbit (s.sp - 16) g.compare
  /-- To the store. -/
  leads_done : ρ.Leads .getbit (s.sp - 16) g.compare g.done
  /-- The new probability is stored next. -/
  done_pc : g.done.pc = ρ.sym .done
  /-- To the `pop`, and back. -/
  leads_return : ∃ u, ρ.Leads .getbit (s.sp - 16) g.done u ∧ u.pc = ρ.addr .done 2 ∧
    stepToBx ρ.image u = some t

/-- `getbit` is called in `s`, with the probability `p` at `slot`. -/
structure Ready (slot : Word) (p : ℕ) (s : Cpu) : Prop where
  /-- Thumb state. -/
  thumb : s.thumb = true
  /-- Control is at `getbit`. -/
  pc : s.pc = ρ.sym .getbit
  /-- The stack pointer is aligned. -/
  sp : s.sp.toNat % 4 = 0
  /-- The range is not empty. -/
  one_le_isize : 1 ≤ s.r5.toNat
  /-- The range has 16 bits. -/
  isize_le : s.r5.toNat ≤ 0xffff
  /-- The value lies in the range. -/
  rvalue_lt : s.r4.toNat < s.r5.toNat
  /-- The context in the register. -/
  context : Coder.slot s.sp s.r7 = slot
  /-- The probability of the context. -/
  probability : (load16 s.mem slot).toNat = p
  /-- The probability keeps its bounds. -/
  probability_mem : p ∈ Set.Icc 15 0xfff0
  /-- The frame lies elsewhere. -/
  frame : Disjoint (range (s.sp - 16) 16) (range slot 2)

/-- The call from `s` to `t` goes through these states. It decides with the coder `c`, and stores
the probability `prob`. -/
structure Stages.Decides (slot : Word) (p : ℕ) (s t : Cpu) (g : Stages) (c : Coder) (prob : Word) :
    Prop extends Stages.Course ρ s t g where
  /-- The loop shifts bits in. -/
  shifted : c = (Coder.shift g.enter.mem)^[g.doublings] (Coder.ofCpu s)
  /-- Only the frame was written before that. -/
  enter_mem : Set.EqOn g.enter.mem s.mem (range (s.sp - 16) 16)ᶜ
  /-- The interval is valid. -/
  valid : c.interval.Valid adaptation
  /-- The range is normalised. -/
  half_le : adaptation.half ≤ c.isize.toNat
  /-- Only the loop changed the range. -/
  isize_eq : c.isize.toNat = s.r5.toNat * 2 ^ g.doublings
  /-- The probability at the load. -/
  load_prob : (load16 g.load.mem slot).toNat = p
  /-- At the load. -/
  at_load : InGetbit ρ (range (s.sp - 16) 16) s (.load slot, c) g.load
  /-- At the comparison. -/
  at_compare : Comparing ρ (s.sp - 16) (((load16 g.load.mem slot).setWidth 32 * c.isize) >>> 16) c
    g.compare
  /-- The bit is the range decoder's, and the new probability is. -/
  update : prob.toNat = adaptation.update (c.interval.narrow adaptation p).1 p
  /-- At the store. -/
  at_done : InGetbit ρ (range (s.sp - 16) 16) s
    (.store slot prob (c.interval.narrow adaptation p).1, (c.decide g.load.mem slot).2) g.done
  /-- The interval is the range decoder's. -/
  interval : (c.decide g.load.mem slot).2.interval = (c.interval.narrow adaptation p).2
  /-- Back at the caller. -/
  at_return : InGetbit ρ (range (s.sp - 16) 16) s (.ret (c.interval.narrow adaptation p).1,
    { (c.decide g.load.mem slot).2 with mem := store16 s.mem slot (prob.setWidth 16) }) t

variable {ρ}

/-! ## Control passes no `pop` but the last -/

theorem Rom.Within.noPop {R : Region} {x : Word} {s : Cpu} (h : ρ.Within R x s) : NoPop ρ s := by
  obtain ⟨i, hi, hquiet⟩ := h.instr
  intro rs hrs
  rw [hi] at hrs
  cases hrs
  cases hquiet

theorem Rom.Leads.passes {R : Region} {x : Word} {s t : Cpu} (h : ρ.Leads R x s t)
    (hs : NoPop ρ s) : Passes (stepToBx ρ.image) (NoPop ρ) s t := by
  obtain ⟨n, h⟩ := h
  exact .of_segment h hs fun v hv => hv.noPop

theorem Rom.Block.noPop {R : Region} {a : Word} {i : Instr Label} {is : List (Instr Label)}
    (hb : ρ.Block R a (i :: is)) (hi : ∀ rs, i ≠ .popPc rs) {s : Cpu} (hpc : s.pc = a) :
    NoPop ρ s := by
  intro rs hrs
  rw [hpc, hb.fetch.1] at hrs
  exact hi rs (Option.some.inj hrs)

theorem noPop_loop {s : Cpu} (hpc : s.pc = ρ.sym .loopCondition) : NoPop ρ s := by
  have hb := ρ.block_loopCondition
  cases hc : ρ.config.codeInHeader <;> simp only [dummyGameVersion, hc] at hb
  · exact hb.noPop (by simp) (by simpa using hpc)
  · exact hb.noPop (by simp) (by simpa using hpc)

theorem Doublings.passes {x : Word} {n : ℕ} {s t : Cpu} (h : Doublings ρ x n s t) :
    Passes (stepToBx ρ.image) (NoPop ρ) s t := by
  induction h with
  | refl => exact .refl _
  | step hpc hleads _ _ ih => exact (hleads.passes (noPop_loop hpc)).trans ih

/-- A call returns in one state. -/
theorem Returns.unique {s t t' : Cpu} (h : Returns ρ s t) (h' : Returns ρ s t') : t = t' := by
  obtain ⟨u, hu, hpop, hstep⟩ := h
  obtain ⟨u', hu', hpop', hstep'⟩ := h'
  cases hu.unique hpop hu' hpop'
  exact Option.some.inj (hstep.symm.trans hstep')

/-! ## The loop ends -/

section loop

variable {W : Set Word} {s₀ : Cpu}

/-- With enough fuel, the range is normalised before the fuel is used up. -/
theorem InGetbit.loops {fuel : ℕ} {c : Coder} {s : Cpu} (h : InGetbit ρ W s₀ (.loop, c) s)
    (hv : c.interval.Valid adaptation) (hfuel : 0x8000 ≤ c.isize.toNat * 2 ^ fuel) :
    ∃ n t, Doublings ρ (s₀.sp - 16) n s t ∧ t.mem = s.mem ∧
      InGetbit ρ W s₀ (.loop, (Coder.shift s.mem)^[n] c) t ∧
      ((Coder.shift s.mem)^[n] c).interval.Valid adaptation ∧
      0x8000 ≤ ((Coder.shift s.mem)^[n] c).isize.toNat ∧
      ((Coder.shift s.mem)^[n] c).isize.toNat = c.isize.toNat * 2 ^ n := by
  induction fuel generalizing c s with
  | zero => exact ⟨0, s, .refl h.at_phase.1, rfl, h, hv, by simpa using hfuel, by simp⟩
  | succ fuel ih =>
      by_cases hn : 0x8000 ≤ c.isize.toNat
      · exact ⟨0, s, .refl h.at_phase.1, rfl, h, hv, hn, by simp⟩
      · -- One more bit is shifted in: the range doubles and stays valid.
        have hn' : c.isize.toNat < 0x8000 := Nat.lt_of_not_le hn
        have hbit : c.isize.getLsbD 15 = false := by
          rw [Coder.getLsbD_isize hv]
          exact decide_eq_false hn
        obtain ⟨u, hleads, hu, hmem⟩ := h.shift hbit
        have hinterval := Coder.interval_shift s.mem hv hn'
        have hdouble : (c.shift s.mem).isize.toNat = 2 * c.isize.toNat :=
          congrArg State.range hinterval
        have hvalid : (c.shift s.mem).interval.Valid adaptation := by
          rw [hinterval]
          exact hv.double hn' _
        obtain ⟨n, t, hloops, hmem', ht, hv', hhalf, hrange⟩ := ih hu hvalid (by
          rw [hdouble]
          calc 0x8000 ≤ c.isize.toNat * 2 ^ (fuel + 1) := hfuel
            _ = 2 * c.isize.toNat * 2 ^ fuel := by ring)
        rw [hmem] at hmem' ht hv' hhalf hrange
        refine ⟨n + 1, t, .step h.at_phase.1 hleads ?_ hloops, hmem', ht, hv', hhalf, ?_⟩
        · rw [hu.isize, h.isize]
          exact hdouble
        · rw [Function.iterate_succ_apply, hrange, hdouble]
          ring

end loop

/-! ## The call -/

section call

variable {slot : Word} {p : ℕ} {s : Cpu}

theorem InGetbit.ofCpu (hpc : s.pc = ρ.sym .getbit) (ht : s.thumb = true) (W : Set Word) :
    InGetbit ρ W s (.call, Coder.ofCpu s) s :=
  ⟨ht, rfl, rfl, rfl, rfl, rfl, rfl, rfl, ⟨rfl, rfl, rfl, rfl⟩, fun _ _ => rfl, fun _ _ => rfl, hpc,
    ⟨rfl, rfl, rfl, rfl⟩, rfl⟩

/-- A call returns where its course ends. -/
theorem Stages.Course.returns {t : Cpu} {g : Stages} (h : g.Course ρ s t) : Returns ρ s t := by
  obtain ⟨u, hlast, hpc, hstep⟩ := h.leads_return
  refine ⟨u, ?_, fun hno => hno _ (by rw [hpc]; exact ρ.block_popGetbit.fetch.1), hstep⟩
  have henter := h.leads_enter.passes (ρ.block_getbit.noPop (by simp) (by simp [h.call_pc]))
  have hload := h.leads_load.passes (noPop_loop h.normalised_pc)
  have hcompare := h.leads_compare.passes (ρ.block_load.noPop (by simp) h.load_pc)
  have hdone := h.leads_done.passes h.within_compare.2.noPop
  have hpop := hlast.passes (ρ.block_done.noPop (by simp) (by simp [h.done_pc]))
  exact henter.trans (h.leads_normalised.passes.trans
    (hload.trans (hcompare.trans (hdone.trans hpop))))

/-- **A call returns, and decides as a range decoder does.** -/
theorem Ready.call (h : Ready ρ slot p s) : ∃ t g c prob, Stages.Decides ρ slot p s t g c prob := by
  have hv₀ : (Coder.ofCpu s).interval.Valid adaptation :=
    ⟨h.rvalue_lt, Nat.lt_succ_of_le h.isize_le⟩
  have hfuel : 0x8000 ≤ (Coder.ofCpu s).isize.toNat * 2 ^ 15 :=
    Nat.le_mul_of_pos_left _ h.one_le_isize
  obtain ⟨enter, henter, hin⟩ := (InGetbit.ofCpu h.pc h.thumb _).call (Set.Subset.refl _) h.sp
  have hentered : Set.EqOn enter.mem s.mem (range (s.sp - 16) 16)ᶜ := hin.mem_out
  obtain ⟨n, normalised, hloops, hmem, hloop, hv, hhalf, hisize⟩ := hin.loops hv₀ hfuel
  obtain ⟨hmem₁, hctx⟩ := Coder.iterate_shift enter.mem n (Coder.ofCpu s)
  generalize hc : (Coder.shift enter.mem)^[n] (Coder.ofCpu s) = c at *
  obtain ⟨load, hload, hin⟩ := hloop.loop h.sp (by
    rw [Coder.getLsbD_isize hv]
    exact decide_eq_true hhalf)
  rw [hctx, show (Coder.ofCpu s).bitctx = s.r7 from rfl, h.context] at hin
  -- The probability that is loaded is the caller's: the frame lies elsewhere.
  have hslot : range slot 2 ⊆ (range (s.sp - 16) 16)ᶜ :=
    Set.subset_compl_iff_disjoint_left.mpr h.frame
  have hprob : (load16 load.mem slot).toNat = p := by
    have hsame : Set.EqOn load.mem s.mem (range (s.sp - 16) 16)ᶜ := by
      rw [show s.mem = c.mem from hmem₁.symm]
      exact hin.mem_out
    rw [load16_congr (hsame.mono hslot), h.probability]
  obtain ⟨compare, done, hcompare, hcmp, hdone, hin'⟩ := hin.decide
  obtain ⟨prob, hstore, hupdate, hinterval⟩ :=
    Coder.decide_narrow hv hhalf hprob h.probability_mem
  rw [show c.decide load.mem slot = (_, (c.decide load.mem slot).2) from
    Prod.ext hstore rfl] at hin'
  obtain ⟨last, hlast, hpop⟩ := hin'.store (Set.Subset.refl _) h.frame.symm
  obtain ⟨t, hstep, ht⟩ := hpop.pop h.sp
  rw [Coder.decide_mem, hmem₁] at ht
  exact ⟨t, ⟨n, enter, normalised, load, compare, done⟩, c, prob,
    { call_pc := h.pc
      leads_enter := henter
      leads_normalised := hloops
      normalised_pc := hloop.at_phase.1
      leads_load := hload
      load_pc := hin.at_phase.1
      leads_compare := hcompare
      within_compare := ⟨hcmp.pc, within_compare hcmp.pc hcmp.thumb hcmp.sp⟩
      leads_done := hdone
      done_pc := hin'.at_phase.1
      leads_return := ⟨last, hlast, hpop.at_phase.1, hstep⟩
      shifted := hc.symm
      enter_mem := hentered
      valid := hv
      half_le := hhalf
      isize_eq := hisize
      load_prob := hprob
      at_load := hin
      at_compare := hcmp
      update := hupdate
      at_done := hin'
      interval := hinterval
      at_return := ht }⟩

end call

/-- Control is at `getbit`, the decoder is in its initial state and every probability is 0x8000. -/
def firstCall : Cpu where
  r0 := 0; r1 := 0; r2 := 0; r3 := 0; r4 := 0; r5 := 1; r6 := 0x80000000; r7 := 0; r8 := 0; r9 := 0
  r10 := 0; r11 := 0; r12 := 0; sp := 0x03006f00; lr := 0; pc := ewramRom.sym .getbit
  n := false; z := false; c := false; v := false; thumb := true
  mem := fun x => if x.toNat % 2 = 0 then 0 else 0x80

end ShrinklerGba.Shrinkler
