import ShrinklerGba.Coding.Bitstream
import ShrinklerGba.Shrinkler.Context
import ShrinklerGba.Shrinkler.Delivery
import ShrinklerGba.Shrinkler.GetbitContract
import ShrinklerGba.Shrinkler.RangeInvariant

/-!
# The depacker on its own

The depacker with its own memory, in which no frames lie. The processor follows it as long as what
it reads and writes lies elsewhere.

* `closed π` is its step function; `Alone π d` says that its next step neither reads the stack nor
  writes to it.
* `Goes π l d d'`: it goes from one state to another, delivers `l`, and is alone in between.
* **`Goes.simulate`**: the processor goes there, too, and delivers the same.
* `Coder.Follows`: the coder is where a range decoder is.
* **`goes_getbit`**: a call of `getbit` leads to where the bit that the range decoder decodes is
  returned; `goes_outOfWords` says what happens when there is no word left.
-/

namespace ShrinklerGba.Shrinkler

open Thumb Transition RangeCoding Bitstream

/-! ## The closed machine -/

/-- The depacker reads its own memory. -/
def closed (π : Depacker.Params) (d : Depacker) : Option Depacker := Depacker.step π d.mem d

/-- The next step neither reads the stack nor writes to it. -/
structure Alone (π : Depacker.Params) (d : Depacker) : Prop where
  /-- It does not write to the stack. -/
  safe : Safe π.S d
  /-- It does not read the stack. -/
  reads : ∀ m, Set.EqOn m d.mem (stack π.S)ᶜ → Depacker.step π m d = closed π d

/-- The depacker goes from one state to another, delivers `l`, and is alone in all states that it
leaves. -/
def Goes (π : Depacker.Params) (l : List Delivery) (d d' : Depacker) : Prop :=
  Trail (closed π) Depacker.delivery (Alone π) l d d'

variable {π : Depacker.Params} {l l' : List Delivery} {d d' d'' : Depacker}

theorem Goes.refl (d : Depacker) : Goes π [] d d := Trail.refl d

theorem Goes.trans (h₁ : Goes π l d d') (h₂ : Goes π l' d' d'') : Goes π (l ++ l') d d'' :=
  Trail.trans h₁ h₂

/-- Nothing is delivered first. -/
theorem Goes.then (h₁ : Goes π [] d d') (h₂ : Goes π l d' d'') : Goes π l d d'' :=
  Trail.trans h₁ h₂

theorem Goes.of_alone (h : closed π d = some d') (ha : Alone π d) (hl : d.delivery.toList = l) :
    Goes π l d d' := hl ▸ Trail.of_step h ha

/-- Writing down where control is anyway. -/
theorem Goes.refl_ctl {p : Control} (h : d.ctl = p) : Goes π [] d { d with ctl := p } := by
  subst h
  exact .refl d

/-- A step that depends on no memory. -/
theorem Goes.of_step (h : ∀ m, Depacker.step π m d = some d') (hsafe : Safe π.S d)
    (hl : d.delivery.toList = l) : Goes π l d d' :=
  .of_alone (h _) ⟨hsafe, fun m _ => (h m).trans (h _).symm⟩ hl

/-! ## The processor follows -/

variable {ρ : Rom} {S : Word}

/-- Memory but for the stack is the depacker's. -/
theorem Rel.mem_eqOn {s : Cpu} (h : Rel ρ S d s) : Set.EqOn s.mem d.mem (stack S)ᶜ := by
  unfold Rel at h
  cases hctl : d.ctl with
  | start => simp only [hctl] at h; exact h.2.2.2.2.2.2
  | init => simp only [hctl] at h; exact h.1.mem
  | exit => simp only [hctl] at h; exact h.1.mem
  | getnumber k => simp only [hctl] at h; exact h.1.mem
  | getbit σ p =>
      simp only [hctl] at h
      obtain ⟨s₀, -, hin, -⟩ := h
      exact hin.mem_out
  | _ => simp only [hctl] at h; exact h.mem

/-- **The processor goes where the depacker goes**, and delivers the same. -/
theorem Goes.simulate (hS : S.toNat % 4 = 0) (h : Goes (ρ.params S) l d d') {s : Cpu}
    (hs : Rel ρ S d s) : ∃ n t, iter (stepToBx ρ.image) n s = some t ∧
      trace (stepToBx ρ.image) (delivery ρ) n s = l ∧ Rel ρ S d' t := by
  obtain ⟨m, hm, hl, halone⟩ := h
  have hforward := forward (f := stepToBx ρ.image) (g := closed (ρ.params S)) (R := Rel ρ S)
    (P := fun _ => ρ.Inside S) (I := Alone (ρ.params S)) (fun d s h => h.delivery hS)
    (fun _ u hu => hu.atQuiet.delivery) (fun a s b ha halone hb => ?_) hs hm halone
  · obtain ⟨n, t, -, ht, hrel, htrace⟩ := hforward
    exact ⟨n, t, ht, htrace.trans hl, hrel⟩
  · rw [← halone.reads _ ha.mem_eqOn] at hb
    obtain ⟨t, ⟨n, hseg⟩, ht⟩ := ha.simulate hS halone.safe hb
    exact ⟨n, t, hseg, ht⟩

/-! ## The table -/

/-- A word of the table holds two probabilities. -/
theorem probability_store32 {m : Mem} {n k : ℕ} {a : Word} (ha : a = S + BitVec.ofNat 32 (4 * n))
    (hn : n < 1024) (hk : k < numContexts) :
    probability S (store32 m a 0x80008000) k =
      if k / 2 = n then initOneProb else probability S m k := by
  subst ha
  obtain ⟨hlow, hhigh⟩ := load16_store32 m (S + BitVec.ofNat 32 (4 * n)) 0x80008000
  simp only [numContexts] at hk
  unfold probability
  by_cases h₀ : k = 2 * n
  · rw [if_pos (by omega), h₀, show 2 * (2 * n) = 4 * n by ring, hlow]
    rfl
  by_cases h₁ : k = 2 * n + 1
  · have ha : S + BitVec.ofNat 32 (2 * k) = S + BitVec.ofNat 32 (4 * n) + 2 := by bv_omega
    rw [if_pos (by omega), ha, hhigh]
    rfl
  · have hdisj : Disjoint (range (S + BitVec.ofNat 32 (2 * k)) 2)
        (range (S + BitVec.ofNat 32 (4 * n)) 4) := disjoint_range (by bv_omega) (by bv_omega)
    rw [if_neg (by omega), load16_congr ((store32_eqOn _ _ _).mono
      (Set.subset_compl_iff_disjoint_right.mpr hdisj))]

/-- **The table is filled** from the upper end. -/
theorem goes_init {n : ℕ} (hctl : d.ctl = .init) (hr : d.rvalue.toNat = n + 1) (hn : n < 1024)
    (hbitctx : d.bitctx = 0x80008000)
    (hprob : ∀ k < numContexts, n < k / 2 → probability π.S d.mem k = initOneProb) :
    ∃ m, Goes π [] d { d with ctl := .literal, rvalue := 0, mem := m } ∧
      Set.EqOn m d.mem (range π.S 4096)ᶜ ∧
      ∀ k < numContexts, probability π.S m k = initOneProb := by
  induction n generalizing d with
  | zero =>
      have h0 : d.rvalue - 1 = 0 := by bv_omega
      refine ⟨store32 d.mem (π.S + 4 * (d.rvalue - 1)) d.bitctx, ?_, ?_, fun k hk => ?_⟩
      · refine .of_step (fun m => ?_) (by simp [Safe, hctl]) (by simp [Depacker.delivery, hctl])
        simp only [Depacker.step, hctl, h0, if_true]
      · exact (store32_eqOn _ _ _).mono
          (Set.compl_subset_compl.mpr (range_subset (by rw [h0]; simp)))
      · rw [hbitctx, probability_store32 (n := 0) (by rw [h0]; simp) hn hk]
        split
        · rfl
        · exact hprob k hk (by omega)
  | succ n ih =>
      have h0 : ¬d.rvalue - 1 = 0 := by bv_omega
      have ha : π.S + 4 * (d.rvalue - 1) = π.S + BitVec.ofNat 32 (4 * (n + 1)) := by bv_omega
      have hstep : Goes π [] d { d with
          ctl := .init
          rvalue := d.rvalue - 1
          mem := store32 d.mem (π.S + 4 * (d.rvalue - 1)) d.bitctx } := by
        refine .of_step (fun m => ?_) (by simp [Safe, hctl]) (by simp [Depacker.delivery, hctl])
        simp only [Depacker.step, hctl, if_neg h0]
      obtain ⟨m, hm, hout, htable⟩ := ih (d := { d with
        ctl := .init
        rvalue := d.rvalue - 1
        mem := store32 d.mem (π.S + 4 * (d.rvalue - 1)) d.bitctx }) rfl
        (by show (d.rvalue - 1).toNat = n + 1; bv_omega) (by omega) hbitctx fun k hk hnk => by
          show probability π.S (store32 d.mem (π.S + 4 * (d.rvalue - 1)) d.bitctx) k = _
          rw [hbitctx, probability_store32 ha hn hk]
          split
          · rfl
          · exact hprob k hk (by omega)
      refine ⟨m, hstep.then hm, hout.trans ?_, htable⟩
      exact (store32_eqOn _ _ _).mono
        (Set.compl_subset_compl.mpr (range_subset (by rw [ha]; bv_omega)))

/-! ## A call of `getbit` -/

/-- The coder is where a range decoder is, with the probabilities in the table. -/
structure Coder.Follows (S intro : Word) (word : ℕ → Word) (c : Coder) (x : Decoder Context) :
    Prop where
  /-- The interval and the bits that were read. -/
  reads : c.Reads word intro 0 x
  /-- The decoder's invariant. -/
  valid : x.Valid adaptation
  /-- The probabilities. -/
  probability : ∀ k : Context, k.Valid → (load16 c.mem (k.address S)).toNat = x.prob k

/-- A word of the compressed program is in memory, and not on the stack. -/
def Held (S intro : Word) (word : ℕ → Word) (m : Mem) (j : ℕ) : Prop :=
  loadWord m (intro + BitVec.ofNat 32 (4 * j)) = word j ∧
    Disjoint (range (align4 (intro + BitVec.ofNat 32 (4 * j))) 4) (stack S)

section getbit

variable {σ : Site} {intro : Word} {word : ℕ → Word} {x : Decoder Context} {k : Context}

/-- A bit that is shifted in depends only on the word that is loaded. -/
theorem Coder.shift_congr {m m' : Mem} {c : Coder}
    (h : c.bitbuf <<< 1 = 0 → Set.EqOn m m' (range (align4 c.inp) 4)) :
    c.shift m = c.shift m' := by
  unfold Coder.shift
  split
  · rw [loadWord, load32_congr (h ‹_›), loadWord]
  · rfl

/-- Deciding depends only on the probability. -/
theorem Coder.decide_congr {m m' : Mem} {slot : Word} (h : Set.EqOn m m' (range slot 2))
    (c : Coder) : c.decide m slot = c.decide m' slot := by
  rw [Coder.decide, load16_congr h, Coder.decide]

/-- The loop is entered. -/
theorem goes_call (hctl : d.ctl = .getbit σ .call) :
    Goes π [] d { d with ctl := .getbit σ .loop } :=
  .of_step (fun m => by simp only [Depacker.step, hctl, Coder.step, Option.map_some])
    (by simp [Safe, hctl]) (by simp [Depacker.delivery, hctl, Phase.delivery])

/-- One more bit is shifted in. -/
theorem goes_shift (hctl : d.ctl = .getbit σ .loop) (hn : d.isize.getLsbD 15 = false)
    (hword : d.bitbuf <<< 1 = 0 → Disjoint (range (align4 d.inp) 4) (stack π.S)) :
    Goes π [] d { d with toCoder := d.toCoder.shift d.mem, ctl := .getbit σ .loop } := by
  have hstep (m : Mem) : Depacker.step π m d =
      some { d with toCoder := d.toCoder.shift m, ctl := .getbit σ .loop } := by
    simp only [Depacker.step, hctl, Coder.step, hn, Bool.false_eq_true, if_false, Option.map_some]
  refine .of_alone (hstep _) ⟨by simp [Safe, hctl], fun m hm => ?_⟩ (by
    simp [Depacker.delivery, hctl, Phase.delivery])
  rw [closed, hstep, hstep]
  rw [Coder.shift_congr fun h0 => hm.mono (Set.subset_compl_iff_disjoint_right.mpr (hword h0))]

theorem Coder.Reads.inp_of_mod {c : Coder} (h : c.Reads word intro 0 x) (hmod : x.pos % 32 = 0) :
    c.inp = intro + BitVec.ofNat 32 (4 * (x.pos / 32)) := by
  rw [h.inp_eq, loaded_of_mod_eq_zero (by decide) hmod]
  rfl

theorem Coder.Follows.isize_low {c : Coder} (h : c.Follows S intro word x)
    (hn : x.range < adaptation.half) : c.isize.getLsbD 15 = false := by
  rw [Coder.getLsbD_isize (h.reads.interval ▸ h.valid.state), h.reads.interval]
  exact decide_eq_false (Nat.not_le.mpr hn)

/-- One more bit is shifted in, as by the range decoder. -/
theorem Coder.Follows.shift {c : Coder} (h : c.Follows S intro word x) (rd : Mem)
    (hn : x.range < adaptation.half)
    (hword : x.pos % 32 = 0 → loadWord rd c.inp = word (x.pos / 32)) :
    (c.shift rd).Follows S intro word (x.shift (bitAt word)) := by
  have hisize : c.isize.toNat < 0x8000 := by
    rw [show c.isize.toNat = x.range from congrArg State.range h.reads.interval]
    exact hn
  have hmem : (c.shift rd).mem = c.mem := (Coder.iterate_shift rd 1 c).1
  exact ⟨h.reads.shift rd (h.reads.interval ▸ h.valid.state) hisize hword, h.valid.shift hn,
    fun k hk => hmem ▸ h.probability k hk⟩

/-- The loop goes on. -/
theorem goes_shift_follows (hctl : d.ctl = .getbit σ .loop)
    (h : d.toCoder.Follows π.S intro word x) (hn : x.range < adaptation.half)
    (hheld : x.pos % 32 = 0 → Held π.S intro word d.mem (x.pos / 32)) :
    Goes π [] d { d with toCoder := d.toCoder.shift d.mem, ctl := .getbit σ .loop } ∧
      (d.toCoder.shift d.mem).Follows π.S intro word (x.shift (bitAt word)) ∧
      (d.toCoder.shift d.mem).mem = d.mem ∧ (d.toCoder.shift d.mem).bitctx = d.bitctx := by
  refine ⟨goes_shift hctl (h.isize_low hn) fun h0 => ?_, h.shift d.mem hn fun hmod => ?_,
    Coder.iterate_shift d.mem 1 d.toCoder⟩
  · rw [h.reads.bitbuf, shl_bufferAt_eq_zero_iff _ (by decide)] at h0
    rw [h.reads.inp_of_mod h0]
    exact (hheld h0).2
  · rw [h.reads.inp_of_mod hmod]
    exact (hheld hmod).1

/-- The loop shifts in as many bits as the range decoder does. -/
theorem goes_loop (fuel : ℕ) (hctl : d.ctl = .getbit σ .loop)
    (h : d.toCoder.Follows π.S intro word x)
    (hwords : ∀ j, loaded 32 x.pos ≤ j →
      j < loaded 32 (x.normalise adaptation (bitAt word) fuel).pos → Held π.S intro word d.mem j) :
    ∃ c : Coder, Goes π [] d { d with toCoder := c, ctl := .getbit σ .loop } ∧
      c.Follows π.S intro word (x.normalise adaptation (bitAt word) fuel) ∧
      c.mem = d.mem ∧ c.bitctx = d.bitctx := by
  induction fuel generalizing d x with
  | zero => exact ⟨d.toCoder, .refl_ctl hctl, h, rfl, rfl⟩
  | succ fuel ih =>
      rw [Decoder.normalise] at hwords ⊢
      by_cases hn : x.range < adaptation.half
      · rw [if_pos hn] at hwords ⊢
        have hloaded := loaded_succ (w := 32) (k := x.pos) (by decide)
        have hmono : loaded 32 (x.pos + 1) ≤
            loaded 32 ((x.shift (bitAt word)).normalise adaptation (bitAt word) fuel).pos :=
          loaded_mono (Decoder.le_pos_normalise (d := x.shift (bitAt word)) _ _ fuel)
        -- A word is loaded only where the next one is.
        obtain ⟨hgoes, hshift, hmem, hbitctx⟩ := goes_shift_follows hctl h hn fun hmod => by
          rw [if_pos hmod, loaded_of_mod_eq_zero (by decide) hmod] at hloaded
          exact hwords _ (loaded_of_mod_eq_zero (by decide) hmod).le (by omega)
        obtain ⟨c, hc, hfollows, hcmem, hcbitctx⟩ :=
          ih (d := { d with toCoder := d.toCoder.shift d.mem, ctl := .getbit σ .loop }) rfl hshift
            fun j hj hj' => by
              rw [hmem]
              exact hwords j ((loaded_mono (Nat.le_succ _)).trans hj) hj'
        exact ⟨c, hgoes.then hc, hfollows, hcmem.trans hmem, hcbitctx.trans hbitctx⟩
      · rw [if_neg hn]
        exact ⟨d.toCoder, .refl_ctl hctl, h, rfl, rfl⟩

/-- Where the range decoder reads more than some words, the loop gets to where it loads the word
after them. -/
theorem goes_outOfWords {words fuel : ℕ} (hctl : d.ctl = .getbit σ .loop)
    (h : d.toCoder.Follows π.S intro word x)
    (hwords : ∀ j < words, Held π.S intro word d.mem j) (hle : loaded 32 x.pos ≤ words)
    (hlt : words < loaded 32 (x.normalise adaptation (bitAt word) fuel).pos) :
    ∃ (c : Coder) (y : Decoder Context),
      Goes π [] d { d with toCoder := c, ctl := .getbit σ .loop } ∧
      c.Follows π.S intro word y ∧ c.bitctx = d.bitctx ∧ y.range < adaptation.half ∧
      y.pos % 32 = 0 ∧ loaded 32 y.pos = words := by
  induction fuel generalizing d x with
  | zero => exact absurd hle (Nat.not_le.mpr hlt)
  | succ fuel ih =>
      rw [Decoder.normalise] at hlt
      by_cases hn : x.range < adaptation.half
      · rw [if_pos hn] at hlt
        have hloaded := loaded_succ (w := 32) (k := x.pos) (by decide)
        by_cases hmod : x.pos % 32 = 0 ∧ loaded 32 x.pos = words
        · -- The next bit is the first one after the words.
          exact ⟨d.toCoder, x, .refl_ctl hctl, h, rfl, hn, hmod⟩
        · obtain ⟨hgoes, hshift, hmem, hbitctx⟩ := goes_shift_follows hctl h hn fun hmod' => by
            rw [loaded_of_mod_eq_zero (by decide) hmod'] at hmod hle
            exact hwords _ (by omega)
          have hnext : loaded 32 (x.shift (bitAt word)).pos ≤ words := by
            show loaded 32 (x.pos + 1) ≤ words
            rw [hloaded]
            split
            · exact Nat.lt_of_le_of_ne hle fun heq => hmod ⟨‹_›, heq⟩
            · exact hle
          obtain ⟨c, y, hc, hfollows, hcbitctx, hrest⟩ :=
            ih (d := { d with toCoder := d.toCoder.shift d.mem, ctl := .getbit σ .loop }) rfl hshift
              (by rw [hmem]; exact hwords) hnext hlt
          exact ⟨c, y, hgoes.then hc, hfollows, hcbitctx.trans hbitctx, hrest⟩
      · rw [if_neg hn] at hlt
        exact absurd hle (Nat.not_le.mpr hlt)

/-- Deciding does not depend on the stack. -/
theorem decide_congr {m m' : Mem} (h : Set.EqOn m m' (stack S)ᶜ) (hk : k.Valid) (c : Coder) :
    c.decide m (k.address S) = c.decide m' (k.address S) := by
  have hdisj : Disjoint (range (k.address S) 2) (stack S) :=
    (disjoint_range (by simp) (by simp)).mono_left (Context.address_subset hk)
  exact Coder.decide_congr (h.mono (Set.subset_compl_iff_disjoint_right.mpr hdisj)) c

/-- The loop is left, and the bit is decided and stored. -/
theorem goes_decide (hctl : d.ctl = .getbit σ .loop) (hn : d.isize.getLsbD 15 = true)
    (hk : k.Valid) (hslot : Coder.slot (σ.sp π.S) d.bitctx = k.address π.S) {prob : Word}
    {bit : Bool} (hdecide : (d.toCoder.decide d.mem (k.address π.S)).1 =
      .store (k.address π.S) prob bit) :
    Goes π [] d
      { d with
        toCoder := { (d.toCoder.decide d.mem (k.address π.S)).2 with
                     mem := store16 d.mem (k.address π.S) (prob.setWidth 16) }
        ctl := .getbit σ (.pop bit) } := by
  generalize hc : (d.toCoder.decide d.mem (k.address π.S)).2 = c
  have hmem : c.mem = d.mem := hc ▸ Coder.decide_mem _ _ _
  have hdisj : Disjoint (range (k.address π.S) 2) (stack π.S) :=
    (disjoint_range (by simp) (by simp)).mono_left (Context.address_subset hk)
  have hload : Goes π [] d { d with ctl := .getbit σ (.load (k.address π.S)) } := by
    refine .of_step (fun m => ?_) (by simp [Safe, hctl]) (by
      simp [Depacker.delivery, hctl, Phase.delivery])
    simp only [Depacker.step, hctl, Coder.step, hn, if_true, Option.map_some, hslot]
  have hstore : Goes π [] { d with ctl := .getbit σ (.load (k.address π.S)) }
      { d with toCoder := c, ctl := .getbit σ (.store (k.address π.S) prob bit) } := by
    have hstep : closed π { d with ctl := .getbit σ (.load (k.address π.S)) } =
        some { d with toCoder := c, ctl := .getbit σ (.store (k.address π.S) prob bit) } := by
      simp only [closed, Depacker.step, Coder.step, Option.map_some, hdecide, hc]
    refine .of_alone hstep ⟨trivial, fun m hm => ?_⟩ rfl
    simp only [closed, Depacker.step, Coder.step, decide_congr hm hk]
  have hpop : Goes π [] { d with toCoder := c, ctl := .getbit σ (.store (k.address π.S) prob bit) }
      { d with
        toCoder := { c with mem := store16 d.mem (k.address π.S) (prob.setWidth 16) }
        ctl := .getbit σ (.pop bit) } := by
    refine .of_step (fun m => ?_) hdisj rfl
    simp only [Depacker.step, Coder.step, Option.map_some, hmem]
  exact (hload.then hstore).then hpop

/-- The bit is returned. -/
theorem goes_return {bit : Bool} (hctl : d.ctl = .getbit σ (.pop bit)) :
    Goes π [.bit bit] d { d with ctl := .getbit σ (.ret bit) } :=
  .of_step (fun m => by simp only [Depacker.step, hctl, Coder.step, Option.map_some])
    (by simp [Safe, hctl]) (by simp [Depacker.delivery, hctl, Phase.delivery])

/-- The loop leads to where the bit that the range decoder decodes is returned. -/
theorem goes_decode (hctl : d.ctl = .getbit σ .loop) (hk : k.Valid)
    (hslot : Coder.slot (σ.sp π.S) d.bitctx = k.address π.S)
    (h : d.toCoder.Follows π.S intro word x)
    (hwords : ∀ j, loaded 32 x.pos ≤ j →
      j < loaded 32 (x.decode adaptation (bitAt word) k).2.pos → Held π.S intro word d.mem j) :
    ∃ c : Coder, Goes π [] d
        { d with
          toCoder := c
          ctl := .getbit σ (.pop (x.decode adaptation (bitAt word) k).1) } ∧
      c.Follows π.S intro word (x.decode adaptation (bitAt word) k).2 ∧
      Set.EqOn c.mem d.mem (range π.S 4096)ᶜ := by
  obtain ⟨c, hloop, hfollows, hcmem, hcbitctx⟩ := goes_loop adaptation.width hctl h hwords
  have hhalf : adaptation.half ≤ (x.normalise adaptation (bitAt word) adaptation.width).range :=
    h.valid.half_le_normalise
  generalize hy : x.normalise adaptation (bitAt word) adaptation.width = y at hfollows hhalf
  have hreads := hfollows.reads
  have hinterval : c.interval.Valid adaptation := hreads.interval ▸ hfollows.valid.state
  have hisize : adaptation.half ≤ c.isize.toNat := by
    rw [show c.isize.toNat = y.range from congrArg State.range hreads.interval]
    exact hhalf
  have hyprob : y.prob = x.prob := by rw [← hy, Decoder.normalise_prob]
  have hprob : (load16 c.mem (k.address π.S)).toNat = x.prob k := by
    rw [hfollows.probability k hk, hyprob]
  obtain ⟨prob, hphase, hupdate, hnarrow⟩ :=
    Coder.decide_narrow hinterval hisize hprob (h.valid.prob_mem k)
  have hdecode : x.decode adaptation (bitAt word) k =
      ((c.interval.narrow adaptation (x.prob k)).1,
        ⟨(c.interval.narrow adaptation (x.prob k)).2, y.pos, Function.update x.prob k
          (adaptation.update (c.interval.narrow adaptation (x.prob k)).1 (x.prob k))⟩) := by
    rw [hreads.interval, ← hy, Decoder.decode, Decoder.normalise_prob]
  obtain ⟨hinp, hbitbuf⟩ := c.decide_reader c.mem (k.address π.S)
  have hvalid : (x.decode adaptation (bitAt word) k).2.Valid adaptation := h.valid.decode k
  have hset : Set.EqOn (store16 c.mem (k.address π.S) (prob.setWidth 16)) d.mem
      (range π.S 4096)ᶜ := by
    have hout := Set.compl_subset_compl.mpr (Context.address_subset (S := π.S) hk)
    rw [hcmem]
    exact (store16_eqOn d.mem _ _).mono hout
  rw [hdecode] at hvalid ⊢
  generalize hb : (c.interval.narrow adaptation (x.prob k)).1 = bit at *
  have hdecided := goes_decide (π := π) (d := { d with toCoder := c, ctl := .getbit σ .loop })
    (k := k) rfl (by rw [Coder.getLsbD_isize hinterval]; exact decide_eq_true hisize) hk
    (by rw [← hslot, ← hcbitctx]) hphase
  refine ⟨_, hloop.then hdecided, ⟨⟨?_, ?_, Nat.zero_le _, ?_⟩, hvalid, ?_⟩, hset⟩
  · exact hnarrow
  · exact hbitbuf.trans hreads.bitbuf
  · exact hinp.trans hreads.inp_eq
  · intro j hj
    have hle : prob.toNat ≤ 0xfff0 := by
      rw [hupdate]
      exact (adaptation.update_mem _ _ (h.valid.prob_mem k)).2
    show (load16 (store16 c.mem (k.address π.S) (prob.setWidth 16)) (j.address π.S)).toNat =
      Function.update x.prob k _ j
    by_cases hjk : j = k
    · subst hjk
      rw [load16_store16, BitVec.toNat_setWidth,
        Nat.mod_eq_of_lt (Nat.lt_of_le_of_lt hle (by decide)), hupdate, Function.update_self]
    · have hsame := (store16_eqOn c.mem (k.address π.S) (prob.setWidth 16)).mono
        (Set.subset_compl_iff_disjoint_right.mpr (Context.address_disjoint hj hk hjk))
      rw [load16_congr hsame, Function.update_of_ne hjk, hfollows.probability j hj, hyprob]

/-- **A call of `getbit` leads to where the bit that the range decoder decodes is returned.** -/
theorem goes_getbit (hctl : d.ctl = .getbit σ .call) (hk : k.Valid)
    (hslot : Coder.slot (σ.sp π.S) d.bitctx = k.address π.S)
    (h : d.toCoder.Follows π.S intro word x)
    (hwords : ∀ j < loaded 32 (x.decode adaptation (bitAt word) k).2.pos,
      Held π.S intro word d.mem j) :
    ∃ c : Coder, Goes π [] d
        { d with
          toCoder := c
          ctl := .getbit σ (.pop (x.decode adaptation (bitAt word) k).1) } ∧
      c.Follows π.S intro word (x.decode adaptation (bitAt word) k).2 ∧
      Set.EqOn c.mem d.mem (range π.S 4096)ᶜ := by
  obtain ⟨c, hgoes, hrest⟩ := goes_decode (π := π) (d := { d with ctl := .getbit σ .loop }) rfl hk
    hslot h fun j _ hj => hwords j hj
  exact ⟨c, (goes_call hctl).then hgoes, hrest⟩

end getbit

end ShrinklerGba.Shrinkler
