import ShrinklerGba.Shrinkler.ClosedRun
import ShrinklerGba.Shrinkler.GetbitEvent

/-!
# Output, stack area and ROM apart

What a run has to keep to so that what it does is independent of where the ROM's code lies, and what
it writes to the stack.

* `Apart` is what a state of a run has to keep to, `CopiesRam` what it must not copy;
  `Depacker.Keeps` is what the former means for the depacker.
* `Depacker.pushed` is memory after a subroutine has pushed what it saves; **`Rel.stack_mem`**: a
  step writes nothing else to the stack.
-/

namespace ShrinklerGba.Shrinkler

open Thumb Transition

/-! ## What a run has to keep to -/

variable (ρ : Rom) (S : Word) (rom : Set Word) (words : ℕ)

/-- Where return addresses are saved. -/
def savedReturns : Set Word := range (S - 12) 4 ∪ range (S - 4) 4

/-- The output, the stack area and the ROM lie apart, and no more words are read than there are. -/
structure Apart (s : Cpu) : Prop where
  /-- No byte is put out to the stack area or to the ROM. -/
  output : ∀ a, stackEvent ρ s = some (.store a) → a ∉ range (S - 24) 4120 ∪ rom
  /-- The probability that is accessed lies neither in the ROM nor in a frame. -/
  table : ∀ a, stackEvent ρ s = some (.access a) → Disjoint (range a 2) (rom ∪ stack S)
  /-- The words that were read are those of the compressed program. -/
  words : ∀ a, stackEvent ρ s = some (.access a) →
    (s.r0 - ρ.sym .packedIntro).toNat ≤ 4 * words

/-- The byte that was copied, and is about to be put out, is neither the ROM's nor a saved return
address's. -/
def CopiesRam (s : Cpu) : Prop :=
  ρ.image.fetch s.pc = some (.strb bitctx outp 0) → s.r1 + s.r2 ∉ rom ∪ savedReturns S

/-- What that means for the depacker. -/
def Depacker.Keeps (d : Depacker) : Prop :=
  match d.ctl with
  | .init => 1 ≤ d.rvalue.toNat ∧ d.rvalue.toNat ≤ 1024
  | .storeLiteral | .copyStore => d.outp ∉ range (S - 24) 4120 ∪ rom
  | .getbit _ (.load slot) | .getbit _ (.store slot _ _) => Disjoint (range slot 2) (rom ∪ stack S)
  | _ => True

variable {ρ S rom words} {d : Depacker} {s u : Cpu}

theorem Rel.keeps (hS : S.toNat % 4 = 0) (h : Rel ρ S d s) (hapart : Apart ρ S rom words s) :
    d.Keeps S rom := by
  have hevent := h.event hS
  unfold Depacker.event at hevent
  unfold Rel at h
  unfold Depacker.Keeps
  cases hctl : d.ctl with
  | init => simp only [hctl] at h; exact ⟨h.2.2.2.2.1, h.2.2.2.2.2⟩
  | storeLiteral | copyStore => simp only [hctl] at hevent; exact hapart.output _ hevent
  | getbit σ p =>
      cases p with
      | load slot | store slot prob bit => simp only [hctl] at hevent; exact hapart.table _ hevent
      | _ => trivial
  | _ => trivial

theorem savedReturns_subset : savedReturns S ⊆ stack S :=
  Set.union_subset (range_subset (by bv_omega)) (range_subset (by bv_omega))

theorem stack_subset_area : stack S ⊆ range (S - 24) 4120 := range_subset (by simp)

/-- The next store misses the frames. -/
theorem Depacker.Keeps.safe (h : d.Keeps S rom) : Safe S d := by
  unfold Depacker.Keeps at h
  unfold Safe
  cases hctl : d.ctl with
  | storeLiteral | copyStore =>
      simp only [hctl] at h
      exact fun ha => h (.inl (stack_subset_area ha))
  | getbit σ p =>
      cases p with
      | store slot prob bit =>
          simp only [hctl] at h
          exact h.mono_right Set.subset_union_right
      | _ => trivial
  | _ => trivial

/-! ## What is written to the stack -/

theorem AtQuiet.mem_eq (h : AtQuiet ρ s) (hthumb : s.thumb = true) {t : Cpu}
    (ht : stepToBx ρ.image s = some t) : t.mem = s.mem := by
  obtain ⟨i, hf, hi⟩ := h
  rw [stepToBx_eq_exec hf (Instr.staysThumb_of_quiet hi) hthumb] at ht
  exact exec_mem (Instr.stores_of_quiet hi) ht

theorem Rom.Inside.mem_eq (h : ρ.Inside S s) {t : Cpu} (ht : stepToBx ρ.image s = some t) :
    t.mem = s.mem := by
  have hquiet := h.atQuiet
  obtain ⟨R, x, hin, -⟩ := h
  exact hquiet.mem_eq hin.thumb ht

/-- Only the first instruction from one place to the next writes. -/
theorem mem_of_segment {n : ℕ} {t : Cpu} (h : Segment (stepToBx ρ.image) (ρ.Inside S) n s t) :
    ∃ u, stepToBx ρ.image s = some u ∧ t.mem = u.mem := by
  induction h with
  | last h => exact ⟨_, h, rfl⟩
  | cons h hp _ ih =>
      obtain ⟨u, hu, hmem⟩ := ih
      exact ⟨_, h, hmem.trans (hp.mem_eq hu)⟩

variable (ρ S) in
/-- Memory after a subroutine has pushed what it saves, if one does. -/
def Depacker.pushed (d : Depacker) (m : Mem) : Mem :=
  match d.event ρ S with
  | some (.push _ x) => storeWords m (x.sp - BitVec.ofNat 32 (4 * (x.regs.length + 1)))
      (x.regs ++ [x.ret ||| 1])
  | _ => m

theorem Rel.thumb (h : Rel ρ S d s) (hstart : d.ctl ≠ .start) : s.thumb = true := by
  unfold Rel at h
  cases hctl : d.ctl with
  | start => exact absurd hctl hstart
  | init => simp only [hctl] at h; exact h.1.thumb
  | exit => simp only [hctl] at h; exact h.1.thumb
  | getnumber k => simp only [hctl] at h; exact h.1.thumb
  | getbit σ p => simp only [hctl] at h; exact h.choose_spec.2.1.thumb
  | _ => simp only [hctl] at h; exact h.thumb

/-- What a subroutine pushes on being entered. -/
theorem mem_of_push (rs : List Reg) {i : Instr Label} (hi : i = .push (rs ++ [.lr]))
    (hrs : .lr ∉ rs) (hsp : s.sp.toNat % 4 = 0) (hf : ρ.image.fetch s.pc = some i)
    (hthumb : s.thumb = true) (hlr : s.lr = (s.lr &&& ~~~1) ||| 1)
    (hevent : stackEvent ρ s = d.event ρ S) (hu : stepToBx ρ.image s = some u) :
    u.mem = d.pushed ρ S s.mem := by
  subst hi
  have hpush : stackEvent ρ s =
      some (.push s.pc ⟨rs.map s.reg, s.lr &&& ~~~1, s.sp⟩) := by
    rw [stackEvent, hf]
    have hfilter : rs.filter (fun r => !decide (r = .lr)) = rs :=
      List.filter_eq_self.mpr fun r hr => by
        have hne : r ≠ .lr := fun heq => hrs (heq ▸ hr)
        simp [hne]
    simp [hfilter]
  rw [Depacker.pushed, ← hevent, hpush]
  rw [stepToBx_eq_exec hf rfl hthumb, exec] at hu
  cases hu
  have halign : align4 (s.sp - BitVec.ofNat 32 (4 * (rs ++ [Reg.lr]).length)) =
      s.sp - BitVec.ofNat 32 (4 * ((rs.map s.reg).length + 1)) := by
    rw [List.length_append, List.length_singleton, List.length_map]
    exact align4_of_aligned (by bv_omega)
  simp only [halign, List.map_append, List.map_cons, List.map_nil]
  rw [← hlr]
  rfl

/-- A byte is put out. -/
theorem eqOn_of_strb {A : Set Word} {rd rb : Reg} (hf : ρ.image.fetch s.pc = some (.strb rd rb 0))
    (hthumb : s.thumb = true) (hu : stepToBx ρ.image s = some u) (ha : s.reg rb ∉ A) :
    Set.EqOn u.mem s.mem A := by
  rw [stepToBx_eq_exec hf rfl hthumb, exec] at hu
  cases hu
  have hout : A ⊆ (range (s.reg rb + BitVec.ofNat 32 0) 1)ᶜ := fun a haA hmem => ha (by
    have heq : a = s.reg rb := by
      rw [mem_range] at hmem
      bv_omega
    exact heq ▸ haA)
  exact (store8_eqOn _ _ _).mono hout

/-- **Only what subroutines save is written to the stack.** -/
theorem Rel.stack_mem (hS : S.toNat % 4 = 0) (h : Rel ρ S d s) (hk : d.Keeps S rom)
    (hu : stepToBx ρ.image s = some u) : Set.EqOn u.mem (d.pushed ρ S s.mem) (stack S) := by
  have hevent := h.event hS
  have hquiet := h.atQuiet
  have hthumb := h.thumb
  -- Nothing is pushed, and memory is the same on the stack.
  have hnone (hne : ∀ pc x, d.event ρ S ≠ some (.push pc x))
      (hmem : Set.EqOn u.mem s.mem (stack S)) :
      Set.EqOn u.mem (d.pushed ρ S s.mem) (stack S) := by
    unfold Depacker.pushed
    split
    · exact absurd ‹_› (hne _ _)
    · exact hmem
  have hsame {i : Instr Label} (hf : ρ.image.fetch s.pc = some i) (hi : i.stores = false)
      (hstays : i.staysThumb = true) (hctl : d.ctl ≠ .start) : Set.EqOn u.mem s.mem (stack S) := by
    rw [stepToBx_eq_exec hf hstays (hthumb hctl)] at hu
    rw [exec_mem hi hu]
    exact fun _ _ => rfl
  unfold Depacker.Keeps at hk
  unfold Rel at h
  unfold Depacker.quiet at hquiet
  cases hctl : d.ctl with
  | start =>
      simp only [hctl] at h
      refine hnone (by simp [Depacker.event, hctl]) ?_
      rw [step_codeStart h.1 h.2.1] at hu
      cases hu
      exact fun _ _ => rfl
  | init =>
      simp only [hctl] at h hk
      refine hnone (by simp [Depacker.event, hctl]) ?_
      have hf := ρ.block_init.fetch.1
      rw [ρ.addr_zero, ← h.2.1] at hf
      rw [stepToBx_eq_exec hf rfl h.1.thumb, exec] at hu
      cases hu
      have hsp : s.sp - 4#32 = S + 4 * (d.rvalue - 1) := by
        rw [h.2.2.1]
        bv_omega
      have halign : align4 (s.sp - 4#32) = S + 4 * (d.rvalue - 1) := by
        rw [hsp]
        exact align4_of_aligned (by bv_omega)
      refine (store32_eqOn _ _ _).mono (Set.subset_compl_iff_disjoint_right.mpr ?_)
      show Disjoint _ (range (align4 (s.sp - 4#32)) 4)
      rw [halign]
      exact disjoint_range (by bv_omega) (by bv_omega)
  | exit =>
      simp only [hctl] at h
      rw [stepToBx, h.2.1, ρ.fetch_bx h.2.2.2.2] at hu
      cases hu
  | done =>
      simp only [hctl] at h
      have hf := ρ.fetch_donedecompressing
      rw [← h.pc] at hf
      exact hnone (by simp [Depacker.event, hctl]) (hsame hf rfl rfl (by simp [hctl]))
  | storeLiteral =>
      simp only [hctl] at h hk
      refine hnone (by simp [Depacker.event, hctl]) ?_
      have hf := ρ.block_storeLiteral.fetch.1
      rw [← h.pc] at hf
      exact eqOn_of_strb hf h.thumb hu fun ha => hk (.inl (stack_subset_area (h.outp ▸ ha)))
  | copyStore =>
      simp only [hctl] at h hk
      refine hnone (by simp [Depacker.event, hctl]) ?_
      have hf := ρ.block_copyStore.fetch.1
      rw [← h.pc] at hf
      exact eqOn_of_strb hf h.thumb hu fun ha => hk (.inl (stack_subset_area (h.outp ▸ ha)))
  | getnumber k =>
      simp only [hctl] at h
      have hf := ρ.block_getnumber.fetch.1
      rw [ρ.addr_zero, ← h.1.pc] at hf
      rw [mem_of_push [.r1] rfl (by simp) (by rw [h.1.sp]; exact hS) hf h.1.thumb
        (by rw [h.2]; exact congrArg (· ||| 1#32) k.ret_clear.symm) hevent hu]
      exact fun _ _ => rfl
  | popNumber k =>
      simp only [hctl] at h
      have hf := ρ.block_popGetnumber.fetch.1
      rw [← h.pc] at hf
      exact hnone (by simp [Depacker.event, hctl]) (hsame hf rfl rfl (by simp [hctl]))
  | getbit σ p =>
      simp only [hctl] at h hk hquiet
      obtain ⟨s₀, hcall, hin, -⟩ := h
      cases p with
      | call =>
          obtain ⟨hpc, hregs, hlr⟩ := hin.at_phase
          have hf := ρ.block_getbit.fetch.1
          rw [ρ.addr_zero, ← hpc] at hf
          rw [mem_of_push [outp, tmp0, tmp1] rfl (by simp)
            (by rw [hregs.sp]; exact hcall.aligned hS) hf hin.thumb
            (by rw [hlr, hcall.lr]; exact congrArg (· ||| 1#32) σ.ret_clear.symm) hevent hu]
          exact fun _ _ => rfl
      | load slot =>
          have hf := ρ.block_load.fetch.1
          rw [← hin.at_phase.1] at hf
          exact hnone (by simp [Depacker.event, hctl]) (hsame hf rfl rfl (by simp [hctl]))
      | store slot prob bit =>
          refine hnone (by simp [Depacker.event, hctl]) ?_
          obtain ⟨hpc, -, hslot, heven, -⟩ := hin.at_phase
          have hf := ρ.block_done.fetch.1
          rw [ρ.addr_zero, ← hpc] at hf
          rw [stepToBx_eq_exec hf rfl hin.thumb, exec] at hu
          have ha : s.reg tmp0 + BitVec.ofNat 32 ctxTableOffset = slot := hslot
          rw [ha] at hu
          simp only [heven, if_true] at hu
          cases hu
          exact (store16_eqOn _ _ _).mono
            (Set.subset_compl_iff_disjoint_left.mpr (hk.mono_right Set.subset_union_right))
      | pop bit =>
          have hf := ρ.block_popGetbit.fetch.1
          rw [← hin.at_phase.1] at hf
          exact hnone (by simp [Depacker.event, hctl]) (hsame hf rfl rfl (by simp [hctl]))
      | _ =>
          refine hnone (by simp [Depacker.event, hctl]) ?_
          rw [(hquiet rfl).mem_eq hin.thumb hu]
          exact fun _ _ => rfl
  | _ =>
      simp only [hctl] at hquiet
      refine hnone (by simp [Depacker.event, hctl]) ?_
      rw [(hquiet trivial).mem_eq (hthumb (by simp [hctl])) hu]
      exact fun _ _ => rfl

end ShrinklerGba.Shrinkler
