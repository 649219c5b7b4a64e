import ShrinklerGba.Shrinkler.GetbitCall

/-!
# Calls of `getbit` keep the interval

What the processor goes through when `getbit` is called again and again, with any contexts, by any
callers, on any words.

* `Between T s` is what holds between two calls; the table of probabilities begins at `T`.
* `Caller ρ T k s s'`: after `s`, a caller calls `getbit` with the `k`-th context in `s'`.
* `Reached ρ T s`: calls lead from the decoder's initial state to `s`.
* `Stages.Run ρ T k s t g`: the call from `s` to `t` goes through the states `g`, and the numbers in
  them are right.
* **`getbit_keeps_interval`**: between calls the invariant holds, and every call returns after a
  proper run.
-/

namespace ShrinklerGba.Shrinkler

open Thumb Transition RangeCoding

variable (ρ : Rom) (T : Word)

/-! ## Calls -/

/-- The `k`-th probability. -/
def probability (m : Mem) (k : ℕ) : ℕ := (load16 m (T + BitVec.ofNat 32 (2 * k))).toNat

/-- What holds between two calls. -/
structure Between (s : Cpu) : Prop where
  /-- The range is not empty. -/
  one_le_isize : 1 ≤ s.r5.toNat
  /-- The range has 16 bits. -/
  isize_le : s.r5.toNat ≤ 0xffff
  /-- The value lies in the range. -/
  rvalue_lt : s.r4.toNat < s.r5.toNat
  /-- The probabilities keep their bounds. -/
  probability_mem : ∀ k < numContexts, probability T s.mem k ∈ Set.Icc 15 0xfff0

/-- A caller that found the processor in `s` calls `getbit` in `s'`, with the `k`-th context. It has
to leave the interval and the probabilities alone and to have its stack elsewhere. -/
structure Caller (k : ℕ) (s s' : Cpu) : Prop where
  /-- Thumb state. -/
  thumb : s'.thumb = true
  /-- Control is at `getbit`. -/
  pc : s'.pc = ρ.sym .getbit
  /-- The stack pointer is aligned. -/
  sp : s'.sp.toNat % 4 = 0
  /-- The value is left alone. -/
  rvalue : s'.r4 = s.r4
  /-- The range is left alone. -/
  isize : s'.r5 = s.r5
  /-- The probabilities are left alone. -/
  table : Set.EqOn s'.mem s.mem (range T (2 * numContexts))
  /-- The frame lies elsewhere. -/
  frame : Disjoint (range (s'.sp - 16) 16) (range T (2 * numContexts))
  /-- The context is one of the table. -/
  context_lt : k < numContexts
  /-- The context in the register. -/
  context : Coder.slot s'.sp s'.r7 = T + BitVec.ofNat 32 (2 * k)

/-- The states that calls lead to from the decoder's initial state. -/
inductive Reached : Cpu → Prop
  /-- The initial state. -/
  | start {s} (rvalue : s.r4 = 0) (isize : s.r5 = 1)
      (probability : ∀ k < numContexts, probability T s.mem k = initOneProb) : Reached s
  /-- One more call. -/
  | call {s s' t k} : Reached s → Caller ρ T k s s' → Returns ρ s' t → Reached t

/-! ## What a call goes through -/

/-- The call from `s` to `t` goes through these states, and the numbers in them are right. -/
structure Stages.Run (k : ℕ) (s t : Cpu) (g : Stages) : Prop extends Stages.Course ρ s t g where
  /-- The loop ends. -/
  doublings_le : g.doublings ≤ 15
  /-- Only the loop changed the range. -/
  load_isize : g.load.r5.toNat = s.r5.toNat * 2 ^ g.doublings
  /-- The range is normalised. -/
  normalised : g.load.r5.toNat ∈ Set.Icc 0x8000 0xffff
  /-- The value is in the range. -/
  load_rvalue : g.load.r4.toNat < g.load.r5.toNat
  /-- The product fits in a word. -/
  no_overflow : probability T s.mem k * g.load.r5.toNat < 2 ^ 32
  /-- The value and the range are still the same at the comparison. -/
  compare_interval : g.compare.r4 = g.load.r4 ∧ g.compare.r5 = g.load.r5
  /-- The threshold. -/
  threshold : g.compare.r1.toNat = probability T s.mem k * g.load.r5.toNat / 2 ^ 16
  /-- Both outcomes leave a non-empty interval. -/
  threshold_mem : 1 ≤ g.compare.r1.toNat ∧ g.compare.r1.toNat < g.compare.r5.toNat
  /-- A zero. -/
  zero : g.compare.r1.toNat ≤ g.compare.r4.toNat → g.done.c = false ∧
    g.done.r4 = g.compare.r4 - g.compare.r1 ∧ g.done.r5 = g.compare.r5 - g.compare.r1 ∧
    g.done.r3.toNat = adaptation.update false (probability T s.mem k)
  /-- A one: the value is restored. -/
  one : g.compare.r4.toNat < g.compare.r1.toNat → g.done.c = true ∧
    g.done.r4 = g.compare.r4 ∧ g.done.r5 = g.compare.r1 ∧
    g.done.r3.toNat = adaptation.update true (probability T s.mem k)
  /-- The new probability is not truncated. -/
  stored : probability T t.mem k = g.done.r3.toNat
  /-- The call returns the bit, the value and the range. -/
  returned : t.c = g.done.c ∧ t.r4 = g.done.r4 ∧ t.r5 = g.done.r5

variable {ρ T}

/-! ## A call -/

section call

variable {s s' : Cpu} {k : ℕ}

/-- Entries of the table do not overlap. -/
theorem disjoint_entries {j k : ℕ} (hj : j < numContexts) (hk : k < numContexts) (hjk : j ≠ k) :
    Disjoint (range (T + BitVec.ofNat 32 (2 * j)) 2) (range (T + BitVec.ofNat 32 (2 * k)) 2) := by
  simp only [numContexts] at hj hk
  exact disjoint_range (by bv_omega) (by bv_omega)

theorem entry_subset (hk : k < numContexts) :
    range (T + BitVec.ofNat 32 (2 * k)) 2 ⊆ range T (2 * numContexts) := by
  simp only [numContexts] at *
  exact range_subset (by bv_omega)

theorem probability_congr {m m' : Mem} (h : Set.EqOn m m' (range T (2 * numContexts)))
    (hk : k < numContexts) : probability T m k = probability T m' k := by
  rw [probability, load16_congr (h.mono (entry_subset hk)), probability]

/-- Storing a probability changes no other. -/
theorem probability_store16 {m : Mem} {j : ℕ} (hj : j < numContexts) (hk : k < numContexts)
    (x : Half) : probability T (store16 m (T + BitVec.ofNat 32 (2 * k)) x) j =
      if j = k then x.toNat else probability T m j := by
  split
  · subst j
    rw [probability, load16_store16]
  · have hd := disjoint_entries (T := T) hj hk ‹_›
    rw [probability, load16_congr ((store16_eqOn _ _ _).mono
      (Set.subset_compl_iff_disjoint_right.mpr hd)), probability]

/-- A caller keeps what holds between calls. -/
theorem Between.caller (h : Between T s) (hc : Caller ρ T k s s') : Between T s' := by
  refine ⟨by rw [hc.isize]; exact h.one_le_isize, by rw [hc.isize]; exact h.isize_le,
    by rw [hc.rvalue, hc.isize]; exact h.rvalue_lt, fun j hj => ?_⟩
  rw [probability_congr hc.table hj]
  exact h.probability_mem j hj

/-- A caller calls `getbit` with one of the probabilities. -/
theorem Between.ready (h : Between T s') (hc : Caller ρ T k s s') :
    Ready ρ (T + BitVec.ofNat 32 (2 * k)) (probability T s'.mem k) s' :=
  ⟨hc.thumb, hc.pc, hc.sp, h.one_le_isize, h.isize_le, h.rvalue_lt, hc.context, rfl,
    h.probability_mem k hc.context_lt, hc.frame.mono_right (entry_subset hc.context_lt)⟩

section decides

variable {slot prob : Word} {p : ℕ} {t : Cpu} {g : Stages} {c : Coder}

theorem Stages.Decides.load_interval (h : g.Decides ρ slot p s t c prob) :
    g.load.r4.toNat = c.interval.value ∧ g.load.r5.toNat = c.interval.range :=
  ⟨congrArg BitVec.toNat h.at_load.rvalue, congrArg BitVec.toNat h.at_load.isize⟩

theorem Stages.Decides.compare_interval (h : g.Decides ρ slot p s t c prob) :
    g.compare.r4.toNat = c.interval.value ∧ g.compare.r5.toNat = c.interval.range :=
  ⟨congrArg BitVec.toNat h.at_compare.rvalue, congrArg BitVec.toNat h.at_compare.isize⟩

theorem Stages.Decides.done_interval (h : g.Decides ρ slot p s t c prob) :
    g.done.r4.toNat = (c.interval.narrow adaptation p).2.value ∧
      g.done.r5.toNat = (c.interval.narrow adaptation p).2.range :=
  ⟨(congrArg BitVec.toNat h.at_done.rvalue).trans (congrArg State.value h.interval),
    (congrArg BitVec.toNat h.at_done.isize).trans (congrArg State.range h.interval)⟩

/-- The threshold in the register. -/
theorem Stages.Decides.threshold (h : g.Decides ρ slot p s t c prob) :
    g.compare.r1.toNat = adaptation.threshold c.interval.range p := by
  rw [h.at_compare.threshold]
  exact Coder.toNat_threshold h.load_prob h.valid.range_lt

theorem Stages.Decides.zero (h : g.Decides ρ slot p s t c prob)
    (hle : g.compare.r1.toNat ≤ g.compare.r4.toNat)
    (hle₅ : g.compare.r1.toNat ≤ g.compare.r5.toNat) :
    g.done.c = false ∧ g.done.r4 = g.compare.r4 - g.compare.r1 ∧
      g.done.r5 = g.compare.r5 - g.compare.r1 ∧ g.done.r3.toNat = adaptation.update false p := by
  obtain ⟨-, -, -, -, hr3, hcarry⟩ := h.at_done.at_phase
  obtain ⟨hvalue, hrange⟩ := h.done_interval
  have hupdate := h.update
  have hsub₄ : (g.compare.r4 - g.compare.r1).toNat = _ := BitVec.toNat_sub_of_le hle
  have hsub₅ : (g.compare.r5 - g.compare.r1).toNat = _ := BitVec.toNat_sub_of_le hle₅
  rw [h.threshold, h.compare_interval.1] at hle hsub₄
  rw [h.threshold, h.compare_interval.2] at hsub₅
  rw [State.narrow_of_le hle] at hcarry hupdate hvalue hrange
  exact ⟨hcarry, BitVec.eq_of_toNat_eq (hvalue.trans hsub₄.symm),
    BitVec.eq_of_toNat_eq (hrange.trans hsub₅.symm), hr3 ▸ hupdate⟩

theorem Stages.Decides.one (h : g.Decides ρ slot p s t c prob)
    (hlt : g.compare.r4.toNat < g.compare.r1.toNat) :
    g.done.c = true ∧ g.done.r4 = g.compare.r4 ∧ g.done.r5 = g.compare.r1 ∧
      g.done.r3.toNat = adaptation.update true p := by
  obtain ⟨-, -, -, -, hr3, hcarry⟩ := h.at_done.at_phase
  obtain ⟨hvalue, hrange⟩ := h.done_interval
  have hupdate := h.update
  rw [h.threshold, h.compare_interval.1] at hlt
  rw [State.narrow_of_lt hlt] at hcarry hupdate hvalue hrange
  exact ⟨hcarry, BitVec.eq_of_toNat_eq (hvalue.trans h.compare_interval.1.symm),
    BitVec.eq_of_toNat_eq (hrange.trans h.threshold.symm), hr3 ▸ hupdate⟩

/-- The caller's probability is replaced by the new one. -/
theorem Stages.Decides.stored (h : g.Decides ρ (T + BitVec.ofNat 32 (2 * k)) p s t c prob)
    (hk : k < numContexts) (hframe : Disjoint (range (s.sp - 16) 16) (range T (2 * numContexts)))
    (hprob : prob.toNat ≤ 0xfff0) {j : ℕ} (hj : j < numContexts) :
    probability T t.mem j = if j = k then prob.toNat else probability T s.mem j := by
  have htable : Set.EqOn t.mem (store16 s.mem (T + BitVec.ofNat 32 (2 * k)) (prob.setWidth 16))
      (range T (2 * numContexts)) := fun x hx =>
    h.at_return.mem_out (Set.disjoint_right.mp hframe hx)
  rw [probability_congr htable hj, probability_store16 hj hk, BitVec.toNat_setWidth,
    Nat.mod_eq_of_lt (Nat.lt_of_le_of_lt hprob (by decide))]

end decides

/-- **A call returns, after a proper run, and keeps what holds between calls.** -/
theorem Between.call (h : Between T s) (hc : Caller ρ T k s s') :
    ∃ t g, Returns ρ s' t ∧ Stages.Run ρ T k s' t g ∧ Between T t := by
  have h' := h.caller hc
  have hkmem := h'.probability_mem k hc.context_lt
  obtain ⟨t, g, c, prob, hg⟩ := (h'.ready hc).call
  have hpos := adaptation.threshold_pos hg.half_le hkmem.1
  have hlt := adaptation.threshold_lt (Nat.lt_of_lt_of_le (by decide) hg.half_le) hkmem.2
  have hnarrow := hg.valid.narrow hg.half_le hkmem
  have hprob_mem : prob.toNat ∈ Set.Icc 15 0xfff0 := by
    rw [hg.update]
    exact adaptation.update_mem _ _ hkmem
  have hstored {j : ℕ} (hj : j < numContexts) := hg.stored hc.context_lt hc.frame hprob_mem.2 hj
  obtain ⟨hload₄, hload₅⟩ := hg.load_interval
  obtain ⟨-, -, -, -, hr3, hcarry⟩ := hg.at_done.at_phase
  have hr₄ : t.r4 = g.done.r4 := hg.at_return.rvalue.trans hg.at_done.rvalue.symm
  have hr₅ : t.r5 = g.done.r5 := hg.at_return.isize.trans hg.at_done.isize.symm
  have hmem : g.compare.r1.toNat ∈ Set.Ico 1 g.compare.r5.toNat := by
    rw [hg.threshold, hg.compare_interval.2]
    exact ⟨hpos, hlt⟩
  refine ⟨t, g, hg.toCourse.returns,
    { hg.toCourse with
      doublings_le := ?_
      load_isize := hload₅.trans hg.isize_eq
      normalised := ?_
      load_rvalue := ?_
      no_overflow := ?_
      compare_interval := ⟨hg.at_compare.rvalue.trans hg.at_load.rvalue.symm,
        hg.at_compare.isize.trans hg.at_load.isize.symm⟩
      threshold := ?_
      threshold_mem := hmem
      zero := fun hle => hg.zero hle (Nat.le_of_lt hmem.2)
      one := hg.one
      stored := ?_
      returned := ⟨hg.at_return.at_phase.2.2.trans hcarry.symm, hr₄, hr₅⟩ }, ?_⟩
  · refine Nat.lt_succ_iff.mp (State.Valid.doublings_lt (A := adaptation) h'.one_le_isize ?_)
    rw [← hg.isize_eq]
    exact hg.valid.range_lt
  · rw [hload₅]
    exact ⟨hg.half_le, Nat.lt_succ_iff.mp hg.valid.range_lt⟩
  · rw [hload₄, hload₅]
    exact hg.valid.value_lt
  · rw [hload₅]
    calc probability T s'.mem k * c.isize.toNat < 2 ^ 16 * 2 ^ 16 :=
          Nat.mul_lt_mul'' (Nat.lt_of_le_of_lt hkmem.2 (by decide)) hg.valid.range_lt
      _ = 2 ^ 32 := by norm_num
  · rw [hg.threshold, hload₅, Adaptation.threshold, Nat.mul_comm]
    rfl
  · rw [hstored hc.context_lt, if_pos rfl, hr3]
  · obtain ⟨hvalue, hrange⟩ := hg.done_interval
    refine ⟨?_, ?_, ?_, fun j hj => ?_⟩
    · rw [hr₅, hrange]
      exact Nat.zero_lt_of_lt hnarrow.value_lt
    · rw [hr₅, hrange]
      exact Nat.lt_succ_iff.mp hnarrow.range_lt
    · rw [hr₄, hr₅, hvalue, hrange]
      exact hnarrow.value_lt
    · rw [hstored hj]
      split
      · exact hprob_mem
      · exact h'.probability_mem j hj

/-- What holds in the initial state. -/
theorem Between.start (hrvalue : s.r4 = 0) (hisize : s.r5 = 1)
    (hprob : ∀ k < numContexts, probability T s.mem k = initOneProb) : Between T s := by
  refine ⟨by simp [hisize], by simp [hisize], by simp [hrvalue, hisize], fun k hk => ?_⟩
  rw [hprob k hk]
  constructor <;> decide

/-- Calls keep what holds between them. -/
theorem Reached.between (h : Reached ρ T s) : Between T s := by
  induction h with
  | start hrvalue hisize hprob => exact .start hrvalue hisize hprob
  | call _ hc hreturns ih =>
      obtain ⟨t, g, hreturns', -, ht⟩ := ih.call hc
      rwa [hreturns.unique hreturns']

end call

/-- **`getbit` never gets stuck and never loses its interval**, whatever the words and the
contexts. -/
theorem getbit_keeps_interval {s : Cpu} (h : Reached ρ T s) :
    Between T s ∧ ∀ s' k, Caller ρ T k s s' →
      ∃ t g, Returns ρ s' t ∧ Stages.Run ρ T k s' t g := by
  refine ⟨h.between, fun s' k hc => ?_⟩
  obtain ⟨t, g, hreturns, hrun, -⟩ := h.between.call hc
  exact ⟨t, g, hreturns, hrun⟩

/-- Every probability of the first call is the initial one, wherever the table begins. -/
theorem probability_firstCall (hT : T.toNat % 4 = 0) (k : ℕ) :
    probability T firstCall.mem k = initOneProb := by
  have heven : (T + BitVec.ofNat 32 (2 * k) : Word).toNat % 2 = 0 := by bv_omega
  have hodd : ¬(T + BitVec.ofNat 32 (2 * k) + 1 : Word).toNat % 2 = 0 := by bv_omega
  simp only [probability, load16, firstCall, if_pos heven, if_neg hodd]
  rfl

/-- The first call has the sixth context of the table that begins at the stack pointer. -/
theorem getbit_keeps_interval_firstCall :
    ∃ t g, Returns ewramRom firstCall t ∧
      Stages.Run ewramRom 0x03006f00 5 firstCall t g := by
  refine (getbit_keeps_interval (.start rfl rfl fun k _ =>
      probability_firstCall (by decide) k)).2 firstCall 5
    ⟨rfl, rfl, by decide, rfl, rfl, fun _ _ => rfl, ?_, by decide, by decide⟩
  exact disjoint_range (by decide) (by decide)

end ShrinklerGba.Shrinkler
