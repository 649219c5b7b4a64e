import ShrinklerGba.Shrinkler.StackSafety
import ShrinklerGba.Shrinkler.Twin

/-!
# Two ROMs in step

Two processors that run the depackers of two ROMs.

* `Alike` relates them.
* `Alike.loops`: they read the same bits.
* **`Alike.lockstep`**: from one place to the next, they stay related.
-/

namespace ShrinklerGba.Shrinkler

open Thumb Transition

/-! ## Both processors -/

variable (ρ ρ' : Rom) (S : Word) (rom : Set Word) (words : ℕ)

/-- The processor neither enters `getbit` nor leaves it, and goes on. -/
def Silent (H : Set Word) (s : Cpu) : Prop :=
  getbitEvent ρ H s = none ∧ stepToBx ρ.image s ≠ none

/-- The processors are where twins are, and memory is the same but for the ROMs and return
addresses. -/
structure Alike (d d' : Depacker) (s s' : Cpu) : Prop where
  /-- The first processor. -/
  rel : Rel ρ S d s
  /-- The second processor. -/
  rel' : Rel ρ' S d' s'
  /-- The depackers. -/
  twin : Twin ρ ρ' rom words d d'
  /-- Memory. -/
  mem : Set.EqOn s.mem s'.mem (rom ∪ savedReturns S)ᶜ

variable {ρ ρ' S rom words} {d d' e e' : Depacker} {s s' t t' u : Cpu} {H : Set Word} {σ : Site}

theorem Rom.Inside.silent (h : ρ.Inside S s) : Silent ρ H s := by
  refine ⟨h.atQuiet.getbitEvent, ?_⟩
  obtain ⟨R, x, hquiet, -⟩ := h
  obtain ⟨i, hf, hi⟩ := hquiet.instr
  rw [stepToBx_eq_exec hf (Instr.staysThumb_of_quiet hi) hquiet.thumb]
  cases i <;> first | (cases hi; done) | simp [exec]

/-- The segment of a step shows what its first state shows. -/
theorem trace_of_segment {n : ℕ} (h : Segment (stepToBx ρ.image) (ρ.Inside S) n s t) :
    trace (stepToBx ρ.image) (getbitEvent ρ H) (n + 1) s = (getbitEvent ρ H s).toList :=
  h.trace_eq _ (fun _ hu => hu.silent.1) (Nat.le_refl n)

/-! ### Reading bits -/

theorem isize_shift (m : Mem) (c : Coder) : (c.shift m).isize = c.isize <<< 1 := by
  have hdouble : c.isize + c.isize = c.isize <<< 1 := by
    rw [BitVec.shiftLeft_eq_mul_twoPow]
    bv_omega
  unfold Coder.shift
  split <;> exact hdouble

theorem inp_shift (m : Mem) (c : Coder) :
    (c.shift m).inp = c.inp ∨ (c.shift m).inp = c.inp + 4 := by
  unfold Coder.shift
  split
  · exact .inr rfl
  · exact .inl rfl

/-- At the loop's condition, a step leads somewhere, and nothing is written. -/
theorem Rel.goes_loop (hS : S.toNat % 4 = 0) (h : Rel ρ S d s) (hctl : d.ctl = .getbit σ .loop)
    (hstep : Depacker.step (ρ.params S) s.mem d = some e) :
    ∃ n t, Segment (stepToBx ρ.image) (ρ.Inside S) n s t ∧ Rel ρ S e t ∧ t.mem = s.mem := by
  obtain ⟨t, ⟨n, hseg⟩, ht⟩ := h.simulate hS (by simp [Safe, hctl]) hstep
  obtain ⟨u, hu, hmem⟩ := mem_of_segment hseg
  refine ⟨n, t, hseg, ht, hmem.trans ?_⟩
  exact (h.atQuiet (by rw [Depacker.quiet, hctl])).mem_eq (h.thumb (by simp [hctl])) hu

/-- A bit is read, whatever the word is. -/
theorem Rel.goes_shift (hS : S.toNat % 4 = 0) (h : Rel ρ S d s) (hctl : d.ctl = .getbit σ .loop)
    (hlow : d.isize.getLsbD 15 = false) :
    ∃ n t, Segment (stepToBx ρ.image) (ρ.Inside S) n s t ∧
      Rel ρ S { d with toCoder := d.toCoder.shift s.mem } t ∧ t.mem = s.mem :=
  h.goes_loop hS hctl (by
    simp only [Depacker.step, hctl, Coder.step, hlow, Bool.false_eq_true, if_false,
      Option.map_some])

/-- The interval is large enough, and the probability is looked up. -/
theorem Rel.goes_load (hS : S.toNat % 4 = 0) (h : Rel ρ S d s) (hctl : d.ctl = .getbit σ .loop)
    (hhigh : d.isize.getLsbD 15 = true) :
    ∃ n t, Segment (stepToBx ρ.image) (ρ.Inside S) n s t ∧
      Rel ρ S { d with ctl := .getbit σ (.load (Coder.slot (σ.sp S) d.bitctx)) } t ∧
      t.mem = s.mem :=
  h.goes_loop hS hctl (by
    simp only [Depacker.step, hctl, Coder.step, hhigh, if_true, Option.map_some, Rom.params])

/-- At the loop's condition, nothing is shown, and control goes on. -/
theorem Rel.silent (hS : S.toNat % 4 = 0) (h : Rel ρ S d s) (hctl : d.ctl = .getbit σ .loop) :
    Silent ρ H s := by
  refine ⟨(h.atQuiet (by rw [Depacker.quiet, hctl])).getbitEvent, fun hnone => ?_⟩
  obtain ⟨n, t, hseg⟩ : ∃ n t, Segment (stepToBx ρ.image) (ρ.Inside S) n s t := by
    cases hbit : d.isize.getLsbD 15 with
    | false => obtain ⟨n, t, hseg, -⟩ := h.goes_shift hS hctl hbit; exact ⟨n, t, hseg⟩
    | true => obtain ⟨n, t, hseg, -⟩ := h.goes_load hS hctl hbit; exact ⟨n, t, hseg⟩
  have hiter := hseg.iter_eq
  rw [iter, hnone] at hiter
  cases hiter

/-- Where no bit would make the interval large enough, bits are read forever. -/
theorem Rel.silent_forever (hS : S.toNat % 4 = 0) (h : Rel ρ S d s) (hctl : d.ctl = .getbit σ .loop)
    (hlow : ∀ j : ℕ, (d.isize <<< j).getLsbD 15 = false) {k : ℕ}
    (hu : iter (stepToBx ρ.image) k s = some u) : Silent ρ H u := by
  induction k using Nat.strongRecOn generalizing d s with
  | _ k ih =>
  cases k with
  | zero =>
      cases hu
      exact h.silent hS hctl
  | succ k =>
      have hlow₀ : d.isize.getLsbD 15 = false := by simpa using hlow 0
      obtain ⟨n, t, hseg, ht, -⟩ := h.goes_shift hS hctl hlow₀
      by_cases hkn : k < n
      · exact (hseg.inner hkn hu).silent
      · obtain ⟨j, rfl⟩ := Nat.exists_eq_add_of_le (Nat.le_of_not_lt hkn)
        rw [show n + j + 1 = n + 1 + j by omega, iter_add, hseg.iter_eq] at hu
        refine ih j (by omega) ht hctl (fun i => ?_) hu
        show ((d.toCoder.shift s.mem).isize <<< i).getLsbD 15 = false
        rw [isize_shift, ← BitVec.shiftLeft_add]
        exact hlow (1 + i)

/-- **Bits are read by both processors**, unless the words are all read. -/
theorem Alike.loops (hp : Pair ρ ρ' S rom words) (h : Alike ρ ρ' S rom words d d' s s')
    (hctl : d.ctl = .getbit σ .loop) {j : ℕ} (hj : j ≤ 15)
    (hlow : ∀ i < j, (d.isize <<< i).getLsbD 15 = false) :
    ∃ n t c l, iter (stepToBx ρ.image) n s = some t ∧
      (∀ k ≤ n, ∀ u, iter (stepToBx ρ.image) k s = some u → Silent ρ H u) ∧
      Rel ρ S { d with toCoder := c } t ∧ t.mem = s.mem ∧ c.isize = d.isize <<< j ∧
      c.inp = d.inp + BitVec.ofNat 32 (4 * l) ∧ l ≤ j ∧
      ((c.inp - ρ.sym .packedIntro).toNat ≤ 4 * words → ∃ n' t' c',
        iter (stepToBx ρ'.image) n' s' = some t' ∧
        trace (stepToBx ρ'.image) (getbitEvent ρ' H) n' s' = [] ∧
        Alike ρ ρ' S rom words { d with toCoder := c } { d' with toCoder := c' } t t') := by
  have hS := hp.aligned
  induction j with
  | zero =>
      refine ⟨0, s, d.toCoder, 0, rfl, fun k hk u hu => ?_, h.rel, rfl, by simp, by simp,
        Nat.le_refl 0, fun _ => ⟨0, s', d'.toCoder, rfl, rfl, h⟩⟩
      obtain rfl : k = 0 := by omega
      cases hu
      exact h.rel.silent hS hctl
  | succ j ih =>
      obtain ⟨n, t, c, l, hn, hsilent, hrel, hmem, hisize, hinp, hl, hgood⟩ :=
        ih (by omega) fun i hi => hlow i (Nat.lt_succ_of_lt hi)
      have hlow₁ : c.isize.getLsbD 15 = false := hisize ▸ hlow j (Nat.lt_succ_self j)
      obtain ⟨m, t₁, hseg, hrel₁, hmem₁⟩ := hrel.goes_shift hS hctl hlow₁
      obtain ⟨l', hinp', hll, hl'⟩ : ∃ l', (c.shift t.mem).inp = d.inp + BitVec.ofNat 32 (4 * l') ∧
          l ≤ l' ∧ l' ≤ j + 1 := by
        rcases inp_shift t.mem c with h | h
        · exact ⟨l, h.trans hinp, Nat.le_refl l, by omega⟩
        · refine ⟨l + 1, ?_, by omega, by omega⟩
          rw [h, hinp]
          bv_omega
      refine ⟨n + (m + 1), t₁, c.shift t.mem, l', iter_trans _ hn hseg.iter_eq,
        fun k hk u hu => ?_, hrel₁, hmem₁.trans hmem, ?_, hinp', hl', fun hwords => ?_⟩
      · rcases Nat.lt_or_ge n k with hlt | hle
        · obtain ⟨i, rfl⟩ := Nat.exists_eq_add_of_lt hlt
          rw [Nat.add_assoc, iter_add, hn] at hu
          rcases Nat.lt_or_ge i m with him | him
          · exact (hseg.inner him hu).silent
          · obtain rfl : i = m := by omega
            obtain rfl := Option.some.inj (hseg.iter_eq.symm.trans hu)
            exact hrel₁.silent hS hctl
        · exact hsilent k hle u hu
      · rw [isize_shift, hisize, ← BitVec.shiftLeft_add]
      · -- No more words were read before.
        have hle := hp.words_le
        obtain ⟨i, hi, hd, -⟩ := h.twin.reads
        have hbefore : (c.inp - ρ.sym .packedIntro).toNat ≤ 4 * words := by
          rw [hinp', hd] at hwords
          rw [hinp, hd]
          bv_omega
        obtain ⟨n', t', c', hn', htrace', halike⟩ := hgood hbefore
        have hctl' : d'.ctl = .getbit σ .loop := h.twin.ctl.trans hctl
        have hsame : c'.isize = c.isize := congrArg (fun d => d.isize) halike.twin.same
        obtain ⟨m', t₁', hseg', hrel₁', hmem₁'⟩ :=
          halike.rel'.goes_shift hS hctl' (hsame ▸ hlow₁)
        refine ⟨n' + (m' + 1), t₁', c'.shift t'.mem, iter_trans _ hn' hseg'.iter_eq, ?_, hrel₁,
          hrel₁', halike.twin.shift hp hrel.mem_eqOn halike.rel'.mem_eqOn hwords, ?_⟩
        · rw [trace_add _ _ hn', htrace', trace_of_segment hseg',
            (halike.rel'.silent (H := H) hS hctl').1]
          rfl
        · rw [hmem₁, hmem₁']
          exact halike.mem

/-- Where a probability is looked up, the words that were read are those there are. -/
theorem Rel.words_le {slot : Word} (hS : S.toNat % 4 = 0) (h : Rel ρ S d s)
    (hctl : d.ctl = .getbit σ (.load slot)) (hapart : Apart ρ S rom words s) :
    (d.inp - ρ.sym .packedIntro).toNat ≤ 4 * words := by
  have hevent := h.event hS
  rw [Depacker.event, hctl] at hevent
  have hle := hapart.words slot hevent
  rw [Rel, hctl] at h
  obtain ⟨s₀, -, hin, -⟩ := h
  rwa [hin.inp] at hle

/-- Both processors read bits, until the interval is large enough. -/
theorem Alike.leave_loop (hp : Pair ρ ρ' S rom words) (h : Alike ρ ρ' S rom words d d' s s')
    (hctl : d.ctl = .getbit σ .loop) {j : ℕ} (hj : j ≤ 15)
    (hlow : ∀ i < j, (d.isize <<< i).getLsbD 15 = false)
    (hhigh : (d.isize <<< j).getLsbD 15 = true) :
    ∃ n t, iter (stepToBx ρ.image) (n + 1) s = some t ∧
      (∀ k < n, ∀ u, iter (stepToBx ρ.image) (k + 1) s = some u → Silent ρ H u) ∧
      (Apart ρ S rom words t → ∃ m t', iter (stepToBx ρ'.image) m s' = some t' ∧
        trace (stepToBx ρ'.image) (getbitEvent ρ' H) m s' = [] ∧
        ∃ e e', Alike ρ ρ' S rom words e e' t t') := by
  have hS := hp.aligned
  obtain ⟨n, t, c, l, hn, hsilent, hrel, -, hisize, -, -, hgood⟩ := h.loops (H := H) hp hctl hj hlow
  obtain ⟨m, t₁, hseg, hrel₁, hmem₁⟩ := hrel.goes_load hS hctl (hisize ▸ hhigh)
  have hiter : iter (stepToBx ρ.image) (n + m + 1) s = some t₁ := by
    rw [Nat.add_assoc]
    exact iter_trans _ hn hseg.iter_eq
  refine ⟨n + m, t₁, hiter, fun k hk u hu => ?_, fun hapart => ?_⟩
  · rcases Nat.lt_or_ge n (k + 1) with hlt | hle
    · obtain ⟨i, rfl⟩ := Nat.exists_eq_add_of_le (Nat.lt_succ_iff.mp hlt)
      rw [Nat.add_assoc, iter_add, hn] at hu
      exact (hseg.inner (by omega) hu).silent
    · exact hsilent (k + 1) hle u hu
  · obtain ⟨n', t', c', hn', htrace', halike⟩ := hgood (hrel₁.words_le hS rfl hapart)
    have hctl' : d'.ctl = .getbit σ .loop := h.twin.ctl.trans hctl
    have htwin := halike.twin
    have hisize' : c'.isize = c.isize := congrArg (fun d => d.isize) htwin.same
    have hbitctx : c'.bitctx = c.bitctx := congrArg (fun d => d.bitctx) htwin.same
    obtain ⟨m', t₁', hseg', hrel₁', hmem₁'⟩ :=
      halike.rel'.goes_load hS hctl' (hisize' ▸ hisize ▸ hhigh)
    refine ⟨n' + (m' + 1), t₁', iter_trans _ hn' hseg'.iter_eq, ?_, _, _, hrel₁, hrel₁', ?_, ?_⟩
    · rw [trace_add _ _ hn', htrace', trace_of_segment hseg',
        (halike.rel'.silent (H := H) hS hctl').1]
      rfl
    · refine htwin.pure ?_ rfl rfl rfl rfl
      rw [show Coder.slot (σ.sp S) c'.bitctx = Coder.slot (σ.sp S) c.bitctx by rw [hbitctx]]
      have hd := htwin.same
      generalize ({ d' with toCoder := c' } : Depacker) = x at hd ⊢
      rw [hd]
    · rw [hmem₁, hmem₁']
      exact halike.mem

/-! ### Steps -/

theorem Twin.getbitEvent (h : Twin ρ ρ' rom words d d') {m m' : Mem} {H : Set Word}
    (hm : Set.EqOn m m' H) : d.getbitEvent H S (ρ.sym .packedIntro) m =
      d'.getbitEvent H S (ρ'.sym .packedIntro) m' := by
  obtain ⟨j, -, hinp, hinp'⟩ := h.reads
  have hread : d.inp - ρ.sym .packedIntro = d'.inp - ρ'.sym .packedIntro := by
    rw [hinp, hinp']
    bv_omega
  have hmemory : (fun a : H => m a) = fun a : H => m' a := funext fun a => hm a.2
  have hstate (σ : Site) (carry : Bool) : d.decoderState H S (ρ.sym .packedIntro) m σ carry =
      d'.decoderState H S (ρ'.sym .packedIntro) m' σ carry := by
    unfold Depacker.decoderState
    rw [hread, hmemory, h.same]
  unfold Depacker.getbitEvent
  rw [h.ctl]
  simp only [hstate]

/-- The processors show the same. -/
theorem Alike.getbitEvent (hS : S.toNat % 4 = 0) (h : Alike ρ ρ' S rom words d d' s s') :
    getbitEvent ρ (rom ∪ savedReturns S)ᶜ s =
      Shrinkler.getbitEvent ρ' (rom ∪ savedReturns S)ᶜ s' := by
  rw [h.rel.getbitEvent hS, h.rel'.getbitEvent hS, h.twin.getbitEvent h.mem]

/-- **A step of both processors** from a place that is not the loop's condition. -/
theorem Alike.next (hp : Pair ρ ρ' S rom words) (h : Alike ρ ρ' S rom words d d' s s')
    (hk : d.Keeps S rom) (hloop : ∀ σ, d.ctl ≠ .getbit σ .loop)
    (hcopy : d.ctl = .copyloop → d.outp + d.tmp0 ∉ rom ∪ savedReturns S)
    (hstep : Depacker.step (ρ.params S) s.mem d = some e) {n : ℕ}
    (hseg : Segment (stepToBx ρ.image) (ρ.Inside S) n s t) (hrel : Rel ρ S e t) :
    ∃ m t' e', Segment (stepToBx ρ'.image) (ρ'.Inside S) m s' t' ∧
      Alike ρ ρ' S rom words e e' t t' := by
  have hS := hp.aligned
  have hk' := h.twin.keeps hk
  obtain ⟨e', hstep', htwin⟩ := h.twin.step hp hk hloop hcopy h.mem hstep
  obtain ⟨t', ⟨m, hseg'⟩, hrel'⟩ := h.rel'.simulate hS hk'.safe hstep'
  refine ⟨m, t', e', hseg', hrel, hrel', htwin, fun a ha => ?_⟩
  by_cases hstack : a ∈ stack S
  · -- On the stack, what was pushed.
    obtain ⟨u, hu, hmem⟩ := mem_of_segment hseg
    obtain ⟨u', hu', hmem'⟩ := mem_of_segment hseg'
    rw [hmem, hmem', h.rel.stack_mem hS hk hu hstack, h.rel'.stack_mem hS hk' hu' hstack]
    exact h.twin.pushed h.mem ha
  · rw [hrel.mem_eqOn hstack, hrel'.mem_eqOn hstack]
    exact htwin.mem fun hrom => ha (.inl hrom)

/-- Where a byte was copied from. -/
theorem Rel.copied (h : Rel ρ S e t) (hstep : Depacker.step (ρ.params S) s.mem d = some e)
    (hctl : d.ctl = .copyloop) (hcopy : CopiesRam ρ S rom t) :
    d.outp + d.tmp0 ∉ rom ∪ savedReturns S := by
  simp only [Depacker.step, hctl, Option.some.injEq] at hstep
  subst hstep
  have hin : InMain S (ρ.addr .copyloop 2) _ t := h
  have hf := ρ.block_copyStore.fetch.1
  rw [← hin.pc] at hf
  have hcopied := hcopy hf
  rwa [hin.outp, hin.tmp0] at hcopied

/-- Where control stays, the depacker is at its end. -/
theorem Rel.exit_of_stuck (hdebug : ρ.config.debugChecks = false) (hS : S.toNat % 4 = 0)
    (h : Rel ρ S d s) (hk : d.Keeps S rom) (hstuck : stepToBx ρ.image s = none) :
    d.ctl = .exit := by
  cases hstep : Depacker.step (ρ.params S) s.mem d with
  | none => exact Depacker.exit_of_step hdebug hstep
  | some e =>
      obtain ⟨t, ⟨n, hseg⟩, -⟩ := h.simulate hS hk.safe hstep
      have hiter := hseg.iter_eq
      rw [iter, hstuck] at hiter
      cases hiter

/-- **Both processors go on in step.** -/
theorem Alike.lockstep (hp : Pair ρ ρ' S rom words) (h : Alike ρ ρ' S rom words d d' s s')
    (hapart : Apart ρ S rom words s) :
    stepToBx ρ.image s = none ∨
      (∃ n t, iter (stepToBx ρ.image) (n + 1) s = some t ∧
        (∀ k < n, ∀ u, iter (stepToBx ρ.image) (k + 1) s = some u →
          Silent ρ (rom ∪ savedReturns S)ᶜ u) ∧
        (Apart ρ S rom words t → CopiesRam ρ S rom t → ∃ m t',
          iter (stepToBx ρ'.image) m s' = some t' ∧
          trace (stepToBx ρ'.image) (Shrinkler.getbitEvent ρ' (rom ∪ savedReturns S)ᶜ) m s' =
            (Shrinkler.getbitEvent ρ' (rom ∪ savedReturns S)ᶜ s').toList ∧
          ∃ e e', Alike ρ ρ' S rom words e e' t t')) ∨
      ∀ k u, iter (stepToBx ρ.image) (k + 1) s = some u →
        Silent ρ (rom ∪ savedReturns S)ᶜ u := by
  have hS := hp.aligned
  have hk := h.rel.keeps hS hapart
  by_cases hloop : ∃ σ, d.ctl = .getbit σ .loop
  · obtain ⟨σ, hctl⟩ := hloop
    by_cases hbit : ∃ j : ℕ, (d.isize <<< j).getLsbD 15 = true
    · -- The first bit that makes the interval large enough.
      have hj : Nat.find hbit ≤ 15 := by
        have hhigh := Nat.find_spec hbit
        by_contra hlt
        rw [BitVec.getLsbD_shiftLeft, decide_eq_true (show 15 < Nat.find hbit by omega)] at hhigh
        simp at hhigh
      obtain ⟨n, t, hiter, hsilent, hgood⟩ := h.leave_loop hp hctl hj
        (fun i hi => Bool.not_eq_true _ ▸ Nat.find_min hbit hi) (Nat.find_spec hbit)
      have hctl' : d'.ctl = .getbit σ .loop := h.twin.ctl.trans hctl
      refine .inr (.inl ⟨n, t, hiter, hsilent, fun hapart _ => ?_⟩)
      rw [(h.rel'.silent (H := (rom ∪ savedReturns S)ᶜ) hS hctl').1]
      exact hgood hapart
    · refine .inr (.inr fun k u hu => h.rel.silent_forever hS hctl (fun j => ?_) hu)
      exact Bool.eq_false_iff.mpr fun hj => hbit ⟨j, hj⟩
  · cases hstep : Depacker.step (ρ.params S) s.mem d with
    | none =>
        have hrel := h.rel
        rw [Rel, Depacker.exit_of_step hp.debug hstep] at hrel
        refine .inl ?_
        rw [stepToBx, hrel.2.1, ρ.fetch_bx hp.debug]
    | some e =>
        obtain ⟨t, ⟨n, hseg⟩, hrel⟩ := h.rel.simulate hS hk.safe hstep
        refine .inr (.inl ⟨n, t, hseg.iter_eq, fun k hk u hu => (hseg.inner hk hu).silent,
          fun _ hcopy => ?_⟩)
        obtain ⟨m, t', e', hseg', halike⟩ := h.next hp hk (fun σ hσ => hloop ⟨σ, hσ⟩)
          (fun hctl => hrel.copied hstep hctl hcopy) hstep hseg hrel
        exact ⟨m + 1, t', hseg'.iter_eq, trace_of_segment hseg', e, e', halike⟩

end ShrinklerGba.Shrinkler
