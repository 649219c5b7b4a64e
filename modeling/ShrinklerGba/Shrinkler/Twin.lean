import ShrinklerGba.Shrinkler.Apart

/-!
# Two ROMs with the same program

The depackers of two ROMs, which differ in where the compressed program lies and in what the ROMs
hold elsewhere.

* `Pair` are two ROMs and where they lie; `Twin` relates their depackers.
* **`Twin.step`**: a step of one is a step of the other; `Twin.shift` is the one that reads a bit.
* **`Twin.pushed`**: both push the same, but for return addresses.
-/

namespace ShrinklerGba.Shrinkler

open Thumb Transition

variable (ρ ρ' : Rom) (S : Word) (rom : Set Word) (words : ℕ)

/-! ## Two ROMs -/

/-- Two ROMs that load the same program, without debug checks, and where they lie. -/
structure Pair : Prop where
  /-- The first does not check what it has decompressed. -/
  debug : ρ.config.debugChecks = false
  /-- Nor does the second. -/
  debug' : ρ'.config.debugChecks = false
  /-- The load addresses are the same. -/
  load : ρ'.config.loadAddress = ρ.config.loadAddress
  /-- The entry points are the same. -/
  entry : ρ'.config.entry = ρ.config.entry
  /-- The table is aligned. -/
  aligned : S.toNat % 4 = 0
  /-- The stack area lies apart from the ROMs. -/
  area : Disjoint (range (S - 24) 4120) rom
  /-- The compressed program lies in the first ROM. -/
  within : ∀ j < words, range (ρ.sym .packedIntro + BitVec.ofNat 32 (4 * j)) 4 ⊆ rom
  /-- The compressed program lies in the second ROM. -/
  within' : ∀ j < words, range (ρ'.sym .packedIntro + BitVec.ofNat 32 (4 * j)) 4 ⊆ rom

/-- Two depackers that differ only in where they read the compressed program, and in what the ROMs
hold elsewhere. -/
structure Twin (d d' : Depacker) : Prop where
  /-- The rest is the same. -/
  same : d' = { d with inp := d'.inp, mem := d'.mem }
  /-- They have read as many words. -/
  reads : ∃ j ≤ words, d.inp = ρ.sym .packedIntro + BitVec.ofNat 32 (4 * j) ∧
    d'.inp = ρ'.sym .packedIntro + BitVec.ofNat 32 (4 * j)
  /-- Memory but for the ROMs. -/
  mem : Set.EqOn d.mem d'.mem romᶜ
  /-- The words. -/
  word : ∀ j < words, loadWord d.mem (ρ.sym .packedIntro + BitVec.ofNat 32 (4 * j)) =
    loadWord d'.mem (ρ'.sym .packedIntro + BitVec.ofNat 32 (4 * j))

variable {ρ ρ' S rom words} {d d' e e' : Depacker} {s s' : Cpu} {m m' : Mem}

theorem Pair.symm (hp : Pair ρ ρ' S rom words) : Pair ρ' ρ S rom words :=
  ⟨hp.debug', hp.debug, hp.load.symm, hp.entry.symm, hp.aligned, hp.area, hp.within', hp.within⟩

/-- The words do not fill all of memory. -/
theorem Pair.words_le (hp : Pair ρ ρ' S rom words) : words + 1024 ≤ 2 ^ 30 := by
  have hout {a : Word} (ha : a ∈ range (S - 24) 4120) :
      words ≤ (a - ρ.sym .packedIntro).toNat / 4 := by
    by_contra hlt
    have hword : a ∈ range (ρ.sym .packedIntro +
        BitVec.ofNat 32 (4 * ((a - ρ.sym .packedIntro).toNat / 4))) 4 := by
      rw [mem_range]
      bv_omega
    exact Set.disjoint_left.mp hp.area ha (hp.within _ (Nat.lt_of_not_le hlt) hword)
  have hfirst := hout (a := S - 24) (by simp [mem_range])
  have hnext := hout (a := S - 24 + 4096) (by rw [mem_range]; bv_omega)
  bv_omega

/-- A word of the compressed program is read where it lies. -/
theorem loadWord_congr_rom {j : ℕ} (h : Set.EqOn m m' rom)
    (hin : range (ρ.sym .packedIntro + BitVec.ofNat 32 (4 * j)) 4 ⊆ rom) :
    loadWord m (ρ.sym .packedIntro + BitVec.ofNat 32 (4 * j)) =
      loadWord m' (ρ.sym .packedIntro + BitVec.ofNat 32 (4 * j)) := by
  have haligned := ρ.packedIntro_aligned
  have hmod : (ρ.sym .packedIntro + BitVec.ofNat 32 (4 * j)).toNat % 4 = 0 := by bv_omega
  rw [loadWord_of_aligned _ hmod, loadWord_of_aligned _ hmod, load32_congr (h.mono hin)]

/-- No word lies in a frame. -/
theorem Pair.loadWord_eq (hp : Pair ρ ρ' S rom words) (hm : Set.EqOn m m' (stack S)ᶜ) {j : ℕ}
    (hj : j < words) : loadWord m (ρ.sym .packedIntro + BitVec.ofNat 32 (4 * j)) =
      loadWord m' (ρ.sym .packedIntro + BitVec.ofNat 32 (4 * j)) :=
  have hrom : Set.EqOn m m' rom :=
    hm.mono (Set.subset_compl_iff_disjoint_left.mpr (hp.area.mono_left stack_subset_area))
  loadWord_congr_rom hrom (hp.within j hj)

/-! ### Steps of both depackers -/

namespace Twin

/-- Both depackers are at the same place. -/
theorem ctl (h : Twin ρ ρ' rom words d d') : d'.ctl = d.ctl := by rw [h.same]

theorem keeps (h : Twin ρ ρ' rom words d d') (hk : d.Keeps S rom) : d'.Keeps S rom := by
  rw [h.same]
  exact hk

/-- Where nothing is written to the ROMs, the words stay. -/
theorem congr (hp : Pair ρ ρ' S rom words) (h : Twin ρ ρ' rom words d d')
    (hsame : e' = { e with inp := e'.inp, mem := e'.mem })
    (hinp : e.inp = d.inp) (hinp' : e'.inp = d'.inp) (hmem : Set.EqOn e.mem e'.mem romᶜ)
    (hrom : Set.EqOn e.mem d.mem rom) (hrom' : Set.EqOn e'.mem d'.mem rom) :
    Twin ρ ρ' rom words e e' := by
  refine ⟨hsame, ?_, hmem, fun j hj => ?_⟩
  · rw [hinp, hinp']
    exact h.reads
  · rw [loadWord_congr_rom hrom (hp.within j hj), loadWord_congr_rom hrom' (hp.within' j hj)]
    exact h.word j hj

/-- Nothing is written. -/
theorem pure (h : Twin ρ ρ' rom words d d')
    (hsame : e' = { e with inp := e'.inp, mem := e'.mem })
    (hinp : e.inp = d.inp) (hinp' : e'.inp = d'.inp) (hmem : e.mem = d.mem)
    (hmem' : e'.mem = d'.mem) : Twin ρ ρ' rom words e e' := by
  refine ⟨hsame, ?_, ?_, ?_⟩
  · rw [hinp, hinp']
    exact h.reads
  · rw [hmem, hmem']
    exact h.mem
  · rw [hmem, hmem']
    exact h.word

/-- A byte is put out. -/
theorem output (hp : Pair ρ ρ' S rom words) (h : Twin ρ ρ' rom words d d') {a : Word} {b : Byte}
    (ha : a ∉ rom) (hsame : e' = { e with inp := e'.inp, mem := e'.mem })
    (hinp : e.inp = d.inp) (hinp' : e'.inp = d'.inp) (hmem : e.mem = store8 d.mem a b)
    (hmem' : e'.mem = store8 d'.mem a b) : Twin ρ ρ' rom words e e' := by
  have hrom : rom ⊆ (range a 1)ᶜ := fun y hy hya => ha (by
    have hy' : y = a := by
      rw [mem_range] at hya
      bv_omega
    rwa [← hy'])
  refine h.congr hp hsame hinp hinp' ?_ ?_ ?_
  · rw [hmem, hmem']
    exact store8_congr _ h.mem _
  · rw [hmem]
    exact (store8_eqOn _ _ _).mono hrom
  · rw [hmem']
    exact (store8_eqOn _ _ _).mono hrom

end Twin

/-- What follows a call of `getbit` does not depend on memory. -/
theorem received_with (i : Word) (m : Mem) (bit : Bool) (σ : Site) :
    ({ d with inp := i, mem := m } : Depacker).received bit σ =
      { d.received bit σ with inp := i, mem := m } := by
  cases σ <;> simp only [Depacker.received] <;> (try split) <;> rfl

theorem received_inp (bit : Bool) (σ : Site) : (d.received bit σ).inp = d.inp := by
  cases σ <;> simp only [Depacker.received] <;> (try split) <;> rfl

theorem received_mem (bit : Bool) (σ : Site) : (d.received bit σ).mem = d.mem := by
  cases σ <;> simp only [Depacker.received] <;> (try split) <;> rfl

/-- **A step of both depackers**, but for a bit that is read. -/
theorem Twin.step (hp : Pair ρ ρ' S rom words) (h : Twin ρ ρ' rom words d d')
    (hk : d.Keeps S rom) (hloop : ∀ σ, d.ctl ≠ .getbit σ .loop)
    (hcopy : d.ctl = .copyloop → d.outp + d.tmp0 ∉ rom ∪ savedReturns S)
    (hm : Set.EqOn m m' (rom ∪ savedReturns S)ᶜ)
    (hstep : Depacker.step (ρ.params S) m d = some e) :
    ∃ e', Depacker.step (ρ'.params S) m' d' = some e' ∧ Twin ρ ρ' rom words e e' := by
  obtain ⟨i, mem, rfl⟩ : ∃ i mem, d' = { d with inp := i, mem := mem } := ⟨_, _, h.same⟩
  unfold Depacker.step at hstep ⊢
  unfold Depacker.Keeps at hk
  cases hctl : d.ctl with
  | start =>
      simp only [hctl, Option.some.injEq, exists_eq_left'] at hstep ⊢
      subst hstep
      refine ⟨?_, ⟨0, Nat.zero_le _, by simp [Rom.params], by simp [Rom.params]⟩, h.mem, h.word⟩
      simp only [Rom.params, hp.load]
  | init =>
      simp only [hctl, Option.some.injEq, exists_eq_left'] at hstep hk ⊢
      subst hstep
      have hrom : rom ⊆ (range (S + 4 * (d.rvalue - 1)) 4)ᶜ := by
        refine Set.subset_compl_iff_disjoint_left.mpr (hp.area.mono_left (range_subset ?_))
        bv_omega
      refine h.congr hp rfl rfl rfl ?_ ?_ ?_
      · exact store32_congr _ h.mem _
      · exact (store32_eqOn _ _ _).mono hrom
      · exact (store32_eqOn _ _ _).mono hrom
  | exit => simp only [hctl] at hstep; cases hstep
  | storeLiteral =>
      simp only [hctl, Option.some.injEq, exists_eq_left'] at hstep hk ⊢
      subst hstep
      exact h.output hp (fun ha => hk (.inr ha)) rfl rfl rfl rfl rfl
  | copyStore =>
      simp only [hctl, Option.some.injEq, exists_eq_left'] at hstep hk ⊢
      subst hstep
      by_cases h0 : d.tmp1 - 1 = 0
      · simp only [if_pos h0]
        exact h.output hp (fun ha => hk (.inr ha)) rfl rfl rfl rfl rfl
      · simp only [if_neg h0]
        exact h.output hp (fun ha => hk (.inr ha)) rfl rfl rfl rfl rfl
  | copyloop =>
      simp only [hctl, Option.some.injEq, exists_eq_left'] at hstep hk ⊢
      subst hstep
      rw [← hm (hcopy hctl)]
      exact h.pure rfl rfl rfl rfl rfl
  | gotNumber k =>
      cases k with
      | length | offset =>
          simp only [hctl, Option.some.injEq, exists_eq_left'] at hstep ⊢
          subst hstep
          exact h.pure rfl rfl rfl rfl rfl
  | done =>
      simp only [hctl, Rom.params_debugChecks, hp.debug, hp.debug', Bool.false_eq_true, if_false,
        Option.some.injEq, exists_eq_left'] at hstep ⊢
      subst hstep
      refine h.pure ?_ rfl rfl rfl rfl
      simp only [Rom.params, hp.entry]
  | getbit σ p =>
      cases p with
      | ret bit =>
          have hreceived := received_with (d := d) i mem bit σ
          simp only [hctl, Option.some.injEq, exists_eq_left'] at hstep hreceived ⊢
          subst hstep
          rw [hreceived]
          exact h.pure rfl (received_inp _ _) rfl (received_mem _ _) rfl
      | loop => exact absurd hctl (hloop σ)
      | call | pop bit =>
          simp only [hctl, Coder.step, Option.map_some, Option.some.injEq,
            exists_eq_left'] at hstep ⊢
          subst hstep
          exact h.pure rfl rfl rfl rfl rfl
      | load slot =>
          have hprob : load16 m slot = load16 m' slot := by
            simp only [hctl] at hk
            refine load16_congr (hm.mono (Set.subset_compl_iff_disjoint_right.mpr ?_))
            exact hk.mono_right (Set.union_subset_union_right _ savedReturns_subset)
          simp only [hctl, Coder.step, Coder.decide, Option.map_some, Option.some.injEq,
            exists_eq_left', ← hprob] at hstep ⊢
          subst hstep
          split <;> exact h.pure rfl rfl rfl rfl rfl
      | store slot prob bit =>
          simp only [hctl, Coder.step, Option.map_some, Option.some.injEq,
            exists_eq_left'] at hstep hk ⊢
          subst hstep
          have hrom : rom ⊆ (range slot 2)ᶜ :=
            Set.subset_compl_iff_disjoint_left.mpr (hk.mono_right Set.subset_union_left)
          refine h.congr hp rfl rfl rfl ?_ ?_ ?_
          · exact store16_congr _ h.mem _
          · exact (store16_eqOn _ _ _).mono hrom
          · exact (store16_eqOn _ _ _).mono hrom
  | _ =>
      simp only [hctl, Option.some.injEq, exists_eq_left'] at hstep ⊢
      subst hstep
      exact h.pure rfl rfl rfl rfl rfl

/-- **A bit is read by both depackers**, unless the words are all read. -/
theorem Twin.shift (hp : Pair ρ ρ' S rom words) (h : Twin ρ ρ' rom words d d')
    (hm : Set.EqOn m d.mem (stack S)ᶜ) (hm' : Set.EqOn m' d'.mem (stack S)ᶜ)
    (hwords : ((d.toCoder.shift m).inp - ρ.sym .packedIntro).toNat ≤ 4 * words) :
    Twin ρ ρ' rom words { d with toCoder := d.toCoder.shift m }
      { d' with toCoder := d'.toCoder.shift m' } := by
  have hle := hp.words_le
  obtain ⟨j, hj, hinp, hinp'⟩ := h.reads
  have hword := h.word
  have hmem := h.mem
  have hsame := h.same
  generalize d'.inp = i, d'.mem = mm at hsame hinp' hword hmem hm'
  subst hsame
  by_cases h0 : d.bitbuf <<< 1 = 0
  · simp only [Coder.shift, if_pos h0] at hwords ⊢
    have hj' : j < words := by
      rw [hinp] at hwords
      bv_omega
    have hsame : loadWord m d.inp = loadWord m' i := by
      rw [hinp, hinp', hp.loadWord_eq hm hj', hp.symm.loadWord_eq hm' hj', hword j hj']
    refine ⟨?_, ⟨j + 1, hj', ?_, ?_⟩, hmem, hword⟩
    · simp only [hsame]
    · show d.inp + 4 = _
      rw [hinp]
      bv_omega
    · show i + 4 = _
      rw [hinp']
      bv_omega
  · simp only [Coder.shift, if_neg h0]
    exact ⟨rfl, ⟨j, hj, hinp, hinp'⟩, hmem, hword⟩

/-! ### What both push -/

/-- Words are stored one after the other; the last ones may differ. -/
theorem storeWords_eqOn_last {A : Set Word} {a : Word} (ws : List Word) (hm : Set.EqOn m m' A)
    {x y : Word} (hA : Disjoint A (range (a + BitVec.ofNat 32 (4 * ws.length)) 4)) :
    Set.EqOn (storeWords m a (ws ++ [x])) (storeWords m' a (ws ++ [y])) A := by
  induction ws generalizing a m m' with
  | nil =>
      rw [List.length_nil, Nat.mul_zero, BitVec.add_zero] at hA
      have hout := Set.subset_compl_iff_disjoint_right.mpr hA
      exact ((store32_eqOn m a x).mono hout).trans
        (hm.trans ((store32_eqOn m' a y).mono hout).symm)
  | cons w ws ih =>
      refine ih (store32_congr a hm w) ?_
      rw [show a + 4 + BitVec.ofNat 32 (4 * ws.length) =
        a + BitVec.ofNat 32 (4 * (w :: ws).length) by rw [List.length_cons]; bv_omega]
      exact hA

/-- **Both push the same**, but for return addresses. -/
theorem Twin.pushed (h : Twin ρ ρ' rom words d d') (hm : Set.EqOn m m' (rom ∪ savedReturns S)ᶜ) :
    Set.EqOn (d.pushed ρ S m) (d'.pushed ρ' S m') (rom ∪ savedReturns S)ᶜ := by
  obtain ⟨i, mem, rfl⟩ : ∃ i mem, d' = { d with inp := i, mem := mem } := ⟨_, _, h.same⟩
  have hA {a : Word} (ha : range a 4 ⊆ savedReturns S) :
      Disjoint (rom ∪ savedReturns S)ᶜ (range a 4) :=
    Set.disjoint_compl_left_iff_subset.mpr (ha.trans Set.subset_union_right)
  unfold Depacker.pushed Depacker.event
  cases hctl : d.ctl with
  | getnumber k =>
      refine storeWords_eqOn_last [d.outp] hm (hA ?_)
      refine Set.subset_union_of_subset_right (range_subset ?_) _
      simp only [Number.saved, List.length_cons, List.length_nil]
      bv_omega
  | getbit σ p =>
      cases p with
      | call =>
          refine storeWords_eqOn_last
            [if σ.number.isSome then d.counter else d.outp, d.tmp0, d.tmp1] hm (hA ?_)
          simp only [Site.saved, Site.sp]
          split
          · refine Set.subset_union_of_subset_left (range_subset ?_) _
            simp only [List.length_cons, List.length_nil]
            bv_omega
          · refine Set.subset_union_of_subset_right (range_subset ?_) _
            simp only [List.length_cons, List.length_nil]
            bv_omega
      | _ => exact hm
  | _ => exact hm

end ShrinklerGba.Shrinkler
