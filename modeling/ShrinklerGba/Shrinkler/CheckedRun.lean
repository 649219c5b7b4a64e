import ShrinklerGba.Shrinkler.Apart

/-!
# Runs that are checked

Whether the processor keeps to what a run has to keep to, read off the depacker on its own.

* `Depacker.clear` decides it for one state, for a ROM of `n` bytes at `a`.
* `Shows` says that the same is seen of the processor as of the depacker. **`run_of_clear`**: where
  the depacker goes through states that are clear, the processor goes, too, and keeps to it.
* `trail_start` leads from the entry point to the first symbol, when the table is filled already.
* `sampleRom` are cartridges that are run; `checked` decides what is seen of one.
-/

namespace ShrinklerGba.Shrinkler

open Thumb Transition

variable {ρ : Rom} {S a x : Word} {n words : ℕ} {ram : Bool} {d e : Depacker} {s t : Cpu}

/-! ## A check -/

/-- Whether the output, the stack area and the ROM lie apart at the next step, which does not read
the stack, and the words that were read are those there are; with `ram`, also whether the byte that
is put out was copied from RAM. -/
def Depacker.clear (S intro a : Word) (n words : ℕ) (ram : Bool) (d : Depacker) : Bool :=
  match d.ctl with
  | .storeLiteral => decide (4120 ≤ (d.outp - (S - 24)).toNat ∧ n ≤ (d.outp - a).toNat)
  | .copyloop => decide (24 ≤ (d.outp + d.tmp0 - (S - 24)).toNat)
  | .copyStore =>
      decide (4120 ≤ (d.outp - (S - 24)).toNat ∧ n ≤ (d.outp - a).toNat) &&
        (!ram || decide (24 ≤ (d.outp + d.tmp0 - (S - 24)).toNat ∧
          n ≤ (d.outp + d.tmp0 - a).toNat))
  | .getbit _ .loop =>
      decide (4 ≤ (S - 24 - align4 d.inp).toNat ∧ 24 ≤ (align4 d.inp - (S - 24)).toNat)
  | .getbit _ (.load slot) | .getbit _ (.store slot _ _) =>
      decide ((slot - S).toNat < 4095 ∧ (d.inp - intro).toNat ≤ 4 * words)
  | _ => true

/-- The step reads what the depacker holds. -/
theorem closed_of_clear (h : d.clear S (ρ.sym .packedIntro) a n words ram = true) {m : Mem}
    (hm : Set.EqOn m d.mem (stack S)ᶜ) :
    Depacker.step (ρ.params S) m d = closed (ρ.params S) d := by
  unfold Depacker.clear at h
  unfold closed Depacker.step
  cases hctl : d.ctl with
  | copyloop =>
      simp only [hctl, decide_eq_true_eq] at h ⊢
      rw [hm fun hstack => absurd hstack (Nat.not_lt.mpr h)]
  | getbit σ p =>
      cases p with
      | loop =>
          simp only [hctl, decide_eq_true_eq, Coder.step] at h ⊢
          rw [Coder.shift_congr fun _ => hm.mono (Set.subset_compl_iff_disjoint_right.mpr
            (disjoint_range h.1 h.2))]
      | load slot =>
          simp only [hctl, decide_eq_true_eq, Coder.step] at h ⊢
          have hdisj : Disjoint (range slot 2) (stack S) :=
            disjoint_range (by bv_omega) (by bv_omega)
          rw [Coder.decide_congr (hm.mono (Set.subset_compl_iff_disjoint_right.mpr hdisj))]
      | _ => rfl
  | gotNumber k => cases k <;> rfl
  | _ => rfl

/-- What the next instruction stores and accesses. -/
theorem Apart.of_event {rom : Set Word} {event : Option StackEvent} (h : stackEvent ρ s = event)
    (hstore : ∀ y, event = some (.store y) → y ∉ range (S - 24) 4120 ∪ rom)
    (haccess : ∀ y, event = some (.access y) → Disjoint (range y 2) (rom ∪ stack S) ∧
      (s.r0 - ρ.sym .packedIntro).toNat ≤ 4 * words) : Apart ρ S rom words s where
  output y hy := hstore y (h.symm.trans hy)
  table y hy := (haccess y (h.symm.trans hy)).1
  words y hy := (haccess y (h.symm.trans hy)).2

section processor

variable (hS : S.toNat % 4 = 0) (harea : Disjoint (range (S - 24) 4120) (range a n))
  (h : Rel ρ S d s) (hd : d.clear S (ρ.sym .packedIntro) a n words ram = true)
include hS h hd

include harea in
theorem apart_of_clear : Apart ρ S (range a n) words s := by
  have hevent := h.event hS
  unfold Depacker.event at hevent
  unfold Rel at h
  unfold Depacker.clear at hd
  have hout {y : Word} (hy : 4120 ≤ (y - (S - 24)).toNat ∧ n ≤ (y - a).toNat) :
      y ∉ range (S - 24) 4120 ∪ range a n := by
    rintro (hmem | hmem) <;> rw [mem_range] at hmem <;> omega
  have htable {y : Word} (hy : (y - S).toNat < 4095) :
      Disjoint (range y 2) (range a n ∪ stack S) := by
    have hsub : range y 2 ⊆ range (S - 24) 4120 := range_subset (by bv_omega)
    exact Disjoint.union_right (harea.mono_left hsub) (disjoint_range (by bv_omega) (by bv_omega))
  cases hctl : d.ctl with
  | storeLiteral =>
      simp only [hctl, decide_eq_true_eq] at hevent hd
      exact .of_event hevent (fun y hy => by cases hy; exact hout hd) (fun y hy => by cases hy)
  | copyStore =>
      simp only [hctl, Bool.and_eq_true, decide_eq_true_eq] at hevent hd
      exact .of_event hevent (fun y hy => by cases hy; exact hout hd.1) (fun y hy => by cases hy)
  | getbit σ p =>
      cases p with
      | load slot | store slot prob bit =>
          simp only [hctl, decide_eq_true_eq] at hevent hd h
          obtain ⟨s₀, -, hin, -⟩ := h
          refine .of_event hevent (fun y hy => by cases hy) fun y hy => ?_
          cases hy
          exact ⟨htable hd.1, hin.inp ▸ hd.2⟩
      | _ =>
          simp only [hctl] at hevent
          exact .of_event hevent (fun y hy => by cases hy) (fun y hy => by cases hy)
  | _ =>
      simp only [hctl] at hevent
      exact .of_event hevent (fun y hy => by cases hy) (fun y hy => by cases hy)

theorem copiesRam_of_clear (hram : ram = true) : CopiesRam ρ S (range a n) s := by
  intro hf
  have hevent := h.event hS
  rw [stackEvent, hf] at hevent
  unfold Depacker.event at hevent
  unfold Rel at h
  unfold Depacker.clear at hd
  cases hctl : d.ctl with
  | storeLiteral =>
      -- Another register is stored there.
      simp only [hctl] at h
      rw [h.pc, ρ.block_storeLiteral.fetch.1] at hf
      cases hf
  | copyStore =>
      simp only [hctl, hram, Bool.and_eq_true, decide_eq_true_eq, Bool.not_true,
        Bool.false_or] at h hd
      rw [h.outp, h.tmp0]
      rintro (hmem | hmem)
      · rw [mem_range] at hmem
        omega
      · have hstack := savedReturns_subset hmem
        rw [stack, mem_range] at hstack
        omega
  | getbit σ p => cases p <;> simp only [hctl] at hevent <;> cases hevent
  | _ => simp only [hctl] at hevent; cases hevent

end processor

/-! ## Runs -/

variable {β : Type*} {o : Cpu → Option β} {oa : Depacker → Option β}

variable (ρ S) in
/-- What is seen of the processor is what is seen of the depacker, and nothing is seen inside. -/
structure Shows (o : Cpu → Option β) (oa : Depacker → Option β) : Prop where
  /-- At the depacker's places. -/
  rel : ∀ d s, Rel ρ S d s → o s = oa d
  /-- Between them. -/
  inside : ∀ s, ρ.Inside S s → o s = none

/-- **The processor follows, and keeps to what a run has to keep to.** -/
theorem run_of_clear (hS : S.toNat % 4 = 0) (harea : Disjoint (range (S - 24) 4120) (range a n))
    (hshows : Shows ρ S o oa) {l : List β}
    (h : Trail (closed (ρ.params S)) oa
      (fun d => d.clear S (ρ.sym .packedIntro) a n words ram = true) l d e)
    (he : e.clear S (ρ.sym .packedIntro) a n words ram = true) (hs : Rel ρ S d s) :
    ∃ k t, iter (stepToBx ρ.image) k s = some t ∧ Rel ρ S e t ∧
      trace (stepToBx ρ.image) o k s = l ∧
      ∀ j ≤ k, ∀ u, iter (stepToBx ρ.image) j s = some u →
        Apart ρ S (range a n) words u ∧ (ram = true → CopiesRam ρ S (range a n) u) := by
  have hgood {b : Depacker} {u : Cpu} (hu : Rel ρ S b u)
      (hb : b.clear S (ρ.sym .packedIntro) a n words ram = true) :
      Apart ρ S (range a n) words u ∧ (ram = true → CopiesRam ρ S (range a n) u) :=
    ⟨apart_of_clear hS harea hu hb, copiesRam_of_clear hS hu hb⟩
  have htrail := Trail.simulate (f := stepToBx ρ.image) (o := o) (R := Rel ρ S)
    (I := fun b => b.clear S (ρ.sym .packedIntro) a n words ram = true) (Q := ρ.Inside S)
    (fun b u hu hb => ⟨hshows.rel b u hu, hgood hu hb⟩) (fun u hu => ?_)
    (fun b u c hu hb hc => ?_) h hs
  · obtain ⟨t, ⟨k, hk, htrace, hpasses⟩, ht⟩ := htrail
    refine ⟨k, t, hk, ht, htrace, fun j hj u hu => ?_⟩
    rcases Nat.lt_or_eq_of_le hj with hlt | rfl
    · exact hpasses j hlt u hu
    · obtain rfl := Option.some.inj (hk.symm.trans hu)
      exact hgood ht he
  · have hquiet := hu.atQuiet
    refine ⟨hshows.inside u hu,
      .of_event hquiet.event (fun y hy => by cases hy) (fun y hy => by cases hy), fun _ hf => ?_⟩
    obtain ⟨i, hi, hq⟩ := hquiet
    rw [hf] at hi
    cases hi
    cases hq
  · rw [← closed_of_clear hb hu.mem_eqOn] at hc
    obtain ⟨v, ⟨m, hseg⟩, hv⟩ :=
      hu.simulate hS (hu.keeps hS (apart_of_clear hS harea hu hb)).safe hc
    exact ⟨m, v, hseg, hv⟩

variable (hquiet : ∀ d : Depacker, d.ctl = .start ∨ d.ctl = .init → oa d = none)
include hquiet

/-- The table is filled with what it holds. -/
theorem trail_init {π : Depacker.Params} (hctl : d.ctl = .init) {k : ℕ}
    (hr : d.rvalue.toNat = k + 1) (hk : k < 1024)
    (hmem : ∀ j < 1024, store32 d.mem (π.S + BitVec.ofNat 32 (4 * j)) d.bitctx = d.mem) :
    Trail (closed π) oa (fun d => d.clear π.S π.intro a n words ram = true) [] d
      { d with ctl := .literal, rvalue := 0 } := by
  have hnone : oa d = none := hquiet d (.inr hctl)
  induction k generalizing d with
  | zero =>
      have h0 : d.rvalue - 1 = 0 := by bv_omega
      have hstep : closed π d = some { d with ctl := .literal, rvalue := 0 } := by
        have hsame := hmem 0 (by decide)
        simp only [closed, Depacker.step, hctl, h0, if_true]
        simpa using hsame
      have htrail := Trail.of_step (o := oa)
        (P := fun d => d.clear π.S π.intro a n words ram = true) hstep
        (by simp only [Depacker.clear, hctl])
      rwa [hnone] at htrail
  | succ k ih =>
      have h0 : ¬d.rvalue - 1 = 0 := by bv_omega
      have hstep : closed π d = some { d with rvalue := d.rvalue - 1 } := by
        have hsame := hmem (k + 1) hk
        rw [show π.S + BitVec.ofNat 32 (4 * (k + 1)) = π.S + 4 * (d.rvalue - 1) by bv_omega]
          at hsame
        simp only [closed, Depacker.step, hctl, if_neg h0, hsame]
      have htrail := Trail.of_step (o := oa)
        (P := fun d => d.clear π.S π.intro a n words ram = true) hstep
        (by simp only [Depacker.clear, hctl])
      rw [hnone] at htrail
      exact htrail.trans (ih (d := { d with rvalue := d.rvalue - 1 }) hctl
        (by show (d.rvalue - 1).toNat = k + 1; bv_omega) (by omega) hmem (hquiet _ (.inr hctl)))

/-- From the entry point to the first symbol, when the table holds what it is filled with. -/
theorem trail_start (words : ℕ) (ram : Bool)
    (hmem : ∀ j < 1024, store32 s.mem (S + BitVec.ofNat 32 (4 * j)) 0x80008000 = s.mem) :
    Trail (closed (ρ.params S)) oa
      (fun d => d.clear S (ρ.sym .packedIntro) a n words ram = true) [] (.ofCpu s)
      { Depacker.ofCpu s with
        ctl := .literal
        inp := ρ.sym .packedIntro
        outp := ρ.config.loadAddress
        isize := 1
        bitbuf := 0x80000000
        rvalue := 0
        bitctx := 0x80008000 } := by
  have hstart : closed (ρ.params S) (.ofCpu s) = some { Depacker.ofCpu s with
      ctl := .init
      inp := ρ.sym .packedIntro
      outp := ρ.config.loadAddress
      isize := 1
      bitbuf := 0x80000000
      rvalue := 1024
      bitctx := 0x80008000 } := rfl
  have htrail := Trail.of_step (o := oa)
    (P := fun d => d.clear S (ρ.sym .packedIntro) a n words ram = true) hstart rfl
  rw [hquiet _ (.inl rfl)] at htrail
  exact htrail.trans (trail_init hquiet (π := ρ.params S) rfl (k := 1023) rfl (by decide) hmem)

omit hquiet

/-! ## Cartridges that are run -/

/-- Control is at the entry point, with the stack in IWRAM. -/
def started (ρ : Rom) : Cpu where
  r0 := 0; r1 := 0; r2 := 0; r3 := 0; r4 := 0; r5 := 0; r6 := 0; r7 := 0; r8 := 0; r9 := 0
  r10 := 0; r11 := 0; r12 := 0; sp := 0x03007f00; lr := 0; pc := ρ.sym .codeStart
  n := false; z := false; c := false; v := false; thumb := false
  mem := fun _ => 0

/-- A ROM whose program is decompressed to the beginning of EWRAM, with the game version that the
constructor writes. -/
def sampleRom (ws : List Word) (codeInHeader : Bool) : Rom where
  config := { codeInHeader := codeInHeader
              gameVersion := 0x1b
              loadAddress := 0x02000000
              entry := 0x02000000
              compressedProgram := ws.flatMap wordBytes }
  mulCarry _ _ := false
  swi _ s := s

/-- The cartridge in the ROM, and RAM that holds probabilities of one half. -/
def cartridgeMemory (ρ : Rom) (a : Word) : Byte :=
  if (a - 0x08000000).toNat < 0x200 then (link (program ρ.config)).getD (a - 0x08000000).toNat 0
  else if a.getLsbD 0 then 0x80 else 0

/-- The processor at the entry point. -/
def boot (ρ : Rom) : Cpu := { started ρ with mem := cartridgeMemory ρ }

theorem boot_sp (ρ : Rom) : (boot ρ).sp = 0x03007f00 := by
  unfold boot started
  rfl

/-- The main loop's stack pointer. -/
theorem boot_sp_sub (ρ : Rom) : (boot ρ).sp - 4096 = 0x03006f00 := by
  rw [boot_sp]
  rfl

theorem boot_started (ρ : Rom) : Started (ρ := ρ) (boot ρ) :=
  ⟨rfl, rfl, by rw [boot_sp]; decide⟩

/-- A program of one byte and a copy of two bytes, compressed. -/
def byteAndCopy : List Word := [0xa56d9880]

/-- The cartridge with that program. -/
def packedRom : Rom := sampleRom byteAndCopy false

/-- The processor at its entry point. -/
def packedStart : Cpu := boot packedRom

theorem packedStart_started : Started (ρ := packedRom) packedStart := boot_started packedRom

theorem packedStart_sp : packedStart.sp = 0x03007f00 := boot_sp packedRom

/-- The addresses of cartridges. -/
def gamePak : Set Word := range 0x08000000 0x02000000

theorem store32_cartridgeMemory (ρ : Rom) {j : ℕ} (hj : j < 1024) :
    store32 (cartridgeMemory ρ) (0x03006f00 + BitVec.ofNat 32 (4 * j)) 0x80008000 =
      cartridgeMemory ρ := by
  have hram {y : Word} (hy : (y - 0x03006f00).toNat < 4096) :
      cartridgeMemory ρ y = if (y - 0x03006f00).toNat % 2 = 1 then 0x80 else 0 := by
    have hlow : y.getLsbD 0 = decide ((y - 0x03006f00).toNat % 2 = 1) := by
      rw [BitVec.getLsbD, Nat.testBit_zero]
      exact decide_eq_decide.mpr (by bv_omega)
    rw [cartridgeMemory, if_neg (by bv_omega), hlow]
    simp
  refine store32_eq_self ?_ ?_ ?_ ?_
  · rw [hram (by bv_omega), if_neg (by bv_omega)]
    rfl
  · rw [hram (by bv_omega), if_pos (by bv_omega)]
    rfl
  · rw [hram (by bv_omega), if_neg (by bv_omega)]
    rfl
  · rw [hram (by bv_omega), if_pos (by bv_omega)]
    rfl

/-- The depacker at the first symbol. -/
def firstSymbol (ρ : Rom) : Depacker :=
  { Depacker.ofCpu (boot ρ) with
    ctl := .literal
    inp := ρ.sym .packedIntro
    outp := ρ.config.loadAddress
    isize := 1
    bitbuf := 0x80000000
    rvalue := 0
    bitctx := 0x80008000 }

/-- What is seen of the depacker, when it is checked for `n` steps, and whether control is at the
branch to the program then. -/
def checked (ρ : Rom) (oa : Depacker → Option β) (words : ℕ) (ram : Bool) (k : ℕ) :
    Option (List β × Bool) :=
  (observe (closed (ρ.params 0x03006f00)) oa
    (Depacker.clear 0x03006f00 (ρ.sym .packedIntro) 0x08000000 0x02000000 words ram) k
    (firstSymbol ρ)).map (Prod.map id fun d => match d.ctl with | .exit => true | _ => false)

/-- **The processor runs the cartridge**, and keeps to what a run has to keep to. -/
theorem run_of_checked (hshows : Shows ρ 0x03006f00 o oa)
    (hquiet : ∀ d : Depacker, d.ctl = .start ∨ d.ctl = .init → oa d = none) {l : List β} {k : ℕ}
    {done : Bool} (h : checked ρ oa words ram k = some (l, done)) :
    ∃ n t, iter (stepToBx ρ.image) n (boot ρ) = some t ∧
      (done = true → ρ.image.fetch t.pc = some (.bx outp)) ∧
      trace (stepToBx ρ.image) o n (boot ρ) = l ∧
      ∀ j ≤ n, ∀ u, iter (stepToBx ρ.image) j (boot ρ) = some u →
        Apart ρ 0x03006f00 gamePak words u ∧ (ram = true → CopiesRam ρ 0x03006f00 gamePak u) := by
  obtain ⟨⟨_, e⟩, hobserve, heq⟩ := Option.map_eq_some_iff.mp h
  cases heq
  obtain ⟨htrail, he⟩ := Trail.of_observe hobserve
  have hrel := (boot_started ρ).rel
  rw [boot_sp_sub] at hrel
  have hfirst := trail_start (ρ := ρ) (S := 0x03006f00) (s := boot ρ) (a := 0x08000000)
    (n := 0x02000000) hquiet words ram fun j hj => store32_cartridgeMemory ρ hj
  obtain ⟨n, t, hn, ht, htrace, hgood⟩ := run_of_clear (by decide)
    (disjoint_range (by decide) (by decide)) hshows (hfirst.trans htrail) he hrel
  refine ⟨n, t, hn, fun hdone => ?_, htrace, hgood⟩
  cases hctl : e.ctl with
  | exit =>
      rw [Rel, hctl] at ht
      rw [ht.2.1]
      exact ρ.fetch_bx ht.2.2.2.2
  | _ => simp [hctl] at hdone

end ShrinklerGba.Shrinkler
