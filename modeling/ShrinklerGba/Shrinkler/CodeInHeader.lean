import ShrinklerGba.Cartridge
import ShrinklerGba.Shrinkler.CheckedRun
import ShrinklerGba.Shrinkler.Lockstep

/-!
# Code in the header

A depacker in the header does what one behind the header does, whatever the game version is.

* `SameStart` is how two depackers are started.
* `shown` is a byte of memory; `run_of_shown` runs a cartridge and shows it.
* **`codeInHeader_unnoticed`**: the depackers call `getbit` and return from it in the same states,
  and enter the program with the same RAM.
* **`cartridge_copied`**: one that copies a byte of the cartridge puts out another byte in the
  header than behind it.
-/

namespace ShrinklerGba.Shrinkler

open Thumb Transition

/-! ## How they are started -/

variable (ρ ρ' : Rom) (rom : Set Word) (words : ℕ)

/-- Two cartridges with the same program, without debug checks, are started, in the same state but
for what lies in the ROM. -/
structure SameStart (s s' : Cpu) : Prop where
  /-- The first does not check what it has decompressed. -/
  debug : ρ.config.debugChecks = false
  /-- Nor does the second. -/
  debug' : ρ'.config.debugChecks = false
  /-- The load addresses are the same. -/
  load : ρ'.config.loadAddress = ρ.config.loadAddress
  /-- The entry points are the same. -/
  entry : ρ'.config.entry = ρ.config.entry
  /-- Control is at the first depacker's entry point. -/
  started : Started (ρ := ρ) s
  /-- Or at the second's, and the registers hold the same. -/
  same : s' = { s with pc := ρ'.sym .codeStart, mem := s'.mem }
  /-- RAM holds the same. -/
  ram : Set.EqOn s.mem s'.mem romᶜ
  /-- The stack area lies apart from the ROM. -/
  area : Disjoint (range (s.sp - 4120) 4120) rom
  /-- The words of the compressed program lie in the first ROM. -/
  within : ∀ j < words, range (ρ.sym .packedIntro + BitVec.ofNat 32 (4 * j)) 4 ⊆ rom
  /-- And in the second. -/
  within' : ∀ j < words, range (ρ'.sym .packedIntro + BitVec.ofNat 32 (4 * j)) 4 ⊆ rom
  /-- They are the same. -/
  word : ∀ j < words, load32 s.mem (ρ.sym .packedIntro + BitVec.ofNat 32 (4 * j)) =
    load32 s'.mem (ρ'.sym .packedIntro + BitVec.ofNat 32 (4 * j))

variable {ρ ρ' rom words} {s s' t : Cpu} {n : ℕ}

theorem SameStart.pair (h : SameStart ρ ρ' rom words s s') : Pair ρ ρ' (s.sp - 4096) rom words where
  debug := h.debug
  debug' := h.debug'
  load := h.load
  entry := h.entry
  aligned := by
    have hsp := h.started.sp
    bv_omega
  area := by
    rw [show s.sp - 4096 - 24 = s.sp - 4120 by bv_omega]
    exact h.area
  within := h.within
  within' := h.within'

/-- At the entry points, the depackers are twins. -/
theorem SameStart.alike (h : SameStart ρ ρ' rom words s s') :
    Alike ρ ρ' (s.sp - 4096) rom words { Depacker.ofCpu s with inp := ρ.sym .packedIntro }
      { Depacker.ofCpu s' with inp := ρ'.sym .packedIntro } s s' := by
  have hsame := h.same
  have hword := h.word
  have hram := h.ram
  have haligned := ρ.packedIntro_aligned
  have haligned' := ρ'.packedIntro_aligned
  have hstack : Set.EqOn s.mem s'.mem (rom ∪ savedReturns (s.sp - 4096))ᶜ :=
    hram.mono (Set.compl_subset_compl.mpr Set.subset_union_left)
  generalize s'.mem = m at hsame hword hram hstack
  subst hsame
  refine ⟨?_, ?_, ⟨rfl, ⟨0, Nat.zero_le _, by simp, by simp⟩, hram, fun j hj => ?_⟩, hstack⟩
  · exact ⟨h.started.pc, h.started.thumb, by simp, rfl, rfl, rfl, fun _ _ => rfl⟩
  · exact ⟨rfl, h.started.thumb, by simp, rfl, rfl, rfl, fun _ _ => rfl⟩
  · rw [loadWord_of_aligned _ (by bv_omega), loadWord_of_aligned _ (by bv_omega)]
    exact hword j hj

/-! ## Cartridges that are run -/

variable {ws : List Word}

theorem sameStart_boot (hintro : ∀ b, (sampleRom ws b).sym .packedIntro =
      if b then 0x08000188 else 0x080001a4) (hwords : words ≤ 16)
    (hword : ∀ j < words,
      load32 (cartridgeMemory (sampleRom ws true)) (0x08000188 + BitVec.ofNat 32 (4 * j)) =
        load32 (cartridgeMemory (sampleRom ws false)) (0x080001a4 + BitVec.ofNat 32 (4 * j))) :
    SameStart (sampleRom ws true) (sampleRom ws false) gamePak words (boot (sampleRom ws true))
      (boot (sampleRom ws false)) where
  debug := rfl
  debug' := rfl
  load := rfl
  entry := rfl
  started := boot_started (sampleRom ws true)
  same := rfl
  ram a ha := by
    have hout : ¬(a - 0x08000000).toNat < 0x200 := fun hlt => ha (by
      rw [gamePak, mem_range]
      omega)
    show cartridgeMemory _ a = cartridgeMemory _ a
    rw [cartridgeMemory, if_neg hout, cartridgeMemory, if_neg hout]
  area := by
    rw [boot_sp]
    exact disjoint_range (by decide) (by decide)
  within j hj := by
    rw [hintro, if_pos rfl]
    exact range_subset (by bv_omega)
  within' j hj := by
    rw [hintro, if_neg (by decide)]
    exact range_subset (by bv_omega)
  word j hj := by
    rw [hintro, hintro, if_pos rfl, if_neg (by decide)]
    exact hword j hj

/-- The decoder's state. -/
def GetbitEvent.state {H : Set Word} : GetbitEvent H → DecoderState H
  | .call y | .ret y => y

/-- A byte of memory, where `getbit` is called and where it returns. -/
def shown (ρ : Rom) (H : Set Word) (x : H) (s : Cpu) : Option Byte :=
  (getbitEvent ρ H s).map fun y => y.state.memory x

/-- The same byte, of the depacker's memory. -/
def Depacker.shown (x : Word) (d : Depacker) : Option Byte :=
  match d.ctl with
  | .getbit _ .call | .getbit _ (.pop _) => some (d.mem x)
  | _ => none

theorem shows_shown (ρ : Rom) {S : Word} (hS : S.toNat % 4 = 0) {H : Set Word} (x : H)
    (hstack : (x : Word) ∉ stack S) : Shows ρ S (shown ρ H x) (Depacker.shown x) where
  rel d s h := by
    rw [shown, h.getbitEvent hS]
    unfold Depacker.getbitEvent Depacker.shown
    rw [← h.mem_eqOn hstack]
    cases d.ctl with
    | getbit σ p => cases p <;> rfl
    | _ => rfl
  inside s h := by rw [shown, h.atQuiet.getbitEvent, Option.map_none]

/-- What is shown of a byte in a run. -/
theorem run_of_shown {ρ : Rom} {H : Set Word} {x : Word} (hx : x ∈ H) (words : ℕ) (ram : Bool)
    (hstack : x ∉ stack 0x03006f00) {l : List Byte} {k : ℕ} {done : Bool}
    (h : checked ρ (Depacker.shown x) words ram k = some (l, done)) :
    ∃ n t, iter (stepToBx ρ.image) n (boot ρ) = some t ∧
      (done = true → ρ.image.fetch t.pc = some (.bx outp)) ∧
      (trace (stepToBx ρ.image) (getbitEvent ρ H) n (boot ρ)).map
        (fun y => y.state.memory ⟨x, hx⟩) = l ∧
      ∀ j ≤ n, ∀ u, iter (stepToBx ρ.image) j (boot ρ) = some u →
        Apart ρ 0x03006f00 gamePak words u ∧
          (ram = true → CopiesRam ρ 0x03006f00 gamePak u) := by
  obtain ⟨n, t, hn, hdone, htrace, hgood⟩ := run_of_checked
    (shows_shown ρ (by decide) ⟨x, hx⟩ hstack)
    (fun d hctl => by rcases hctl with hctl | hctl <;> simp [Depacker.shown, hctl]) h
  exact ⟨n, t, hn, hdone, (map_trace _ _ _ n _).trans htrace, hgood⟩

/-! ## Runs -/

/-- **Code in the header is not noticed.** Two cartridges with the same compressed program, in the
header or behind it, without debug checks, with any immediate value at the game version: while the
output, the stack area and the ROM stay apart and no byte is copied from the ROM or from a saved
return address, they call `getbit` and return from it in the same states. Where one of them is about
to enter the program, so is the other, with the same `sp`, the same branch target and the same RAM,
but for saved return addresses. -/
theorem codeInHeader_unnoticed (h : SameStart ρ ρ' rom words s s')
    (ht : iter (stepToBx ρ.image) n s = some t)
    (hkeeps : ∀ k ≤ n, ∀ u, iter (stepToBx ρ.image) k s = some u →
      Apart ρ (s.sp - 4096) rom words u ∧ CopiesRam ρ (s.sp - 4096) rom u) :
    ∃ n', trace (stepToBx ρ'.image) (getbitEvent ρ' (rom ∪ savedReturns (s.sp - 4096))ᶜ) n' s' =
        trace (stepToBx ρ.image) (getbitEvent ρ (rom ∪ savedReturns (s.sp - 4096))ᶜ) n s ∧
      ∀ r, ρ.image.fetch t.pc = some (.bx r) → ∃ t',
        iter (stepToBx ρ'.image) n' s' = some t' ∧ ρ'.image.fetch t'.pc = some (.bx r) ∧
        t'.reg r = t.reg r ∧ t'.sp = t.sp ∧
        Set.EqOn t'.mem t.mem (rom ∪ savedReturns (s.sp - 4096))ᶜ := by
  have hp := h.pair
  have hS := hp.aligned
  obtain ⟨m, htrace, hend⟩ := Transition.lockstep (f := stepToBx ρ.image) (g := stepToBx ρ'.image)
    (o := getbitEvent ρ (rom ∪ savedReturns (s.sp - 4096))ᶜ)
    (p := getbitEvent ρ' (rom ∪ savedReturns (s.sp - 4096))ᶜ)
    (Q := fun u u' => ∃ d d', Alike ρ ρ' (s.sp - 4096) rom words d d' u u')
    (P := Silent ρ (rom ∪ savedReturns (s.sp - 4096))ᶜ)
    (C := fun u => Apart ρ (s.sp - 4096) rom words u ∧ CopiesRam ρ (s.sp - 4096) rom u)
    (fun u u' ⟨d, d', hu⟩ => hu.getbitEvent hS) (fun u hu => hu)
    (fun u u' ⟨d, d', hu⟩ hC => by
      refine (hu.lockstep hp hC.1).imp_right (Or.imp_left ?_)
      rintro ⟨k, v, hiter, hsilent, hgood⟩
      exact ⟨k, v, hiter, hsilent, fun hC => hgood hC.1 hC.2⟩)
    ⟨_, _, h.alike⟩ ht hkeeps
  refine ⟨m, htrace, fun r hr => ?_⟩
  have hstuck : stepToBx ρ.image t = none := by rw [stepToBx, hr]
  obtain ⟨t', ht', d, d', halike⟩ := hend hstuck
  have hkeep := hkeeps n (Nat.le_refl n) t ht
  have hctl := halike.rel.exit_of_stuck h.debug hS (halike.rel.keeps hS hkeep.1) hstuck
  have hctl' : d'.ctl = .exit := halike.twin.ctl.trans hctl
  have hrel := halike.rel
  have hrel' := halike.rel'
  simp only [Rel, hctl] at hrel
  simp only [Rel, hctl'] at hrel'
  obtain ⟨-, hpc, hsp, houtp, -⟩ := hrel
  obtain ⟨-, hpc', hsp', houtp', -⟩ := hrel'
  have hr' : r = outp := by
    rw [hpc, ρ.fetch_bx h.debug] at hr
    cases hr
    rfl
  subst hr'
  refine ⟨t', ht', by rw [hpc', ρ'.fetch_bx h.debug'], ?_, hsp'.trans hsp.symm, halike.mem.symm⟩
  show t'.r1 = t.r1
  rw [houtp, houtp', halike.twin.same]

/-- A byte and a copy. -/
theorem codeInHeader_unnoticed_byteAndCopy : ∃ n t n' t',
    iter (stepToBx (sampleRom byteAndCopy true).image) n (boot (sampleRom byteAndCopy true)) =
        some t ∧
      iter (stepToBx (sampleRom byteAndCopy false).image) n'
        (boot (sampleRom byteAndCopy false)) = some t' ∧
      (sampleRom byteAndCopy true).image.fetch t.pc = some (.bx outp) ∧
      (sampleRom byteAndCopy false).image.fetch t'.pc = some (.bx outp) ∧
      t'.reg outp = t.reg outp ∧ t'.sp = t.sp ∧
      Set.EqOn t'.mem t.mem (gamePak ∪ savedReturns 0x03006f00)ᶜ := by
  have hstart :
      SameStart (sampleRom byteAndCopy true) (sampleRom byteAndCopy false) gamePak 1 _ _ :=
    sameStart_boot (by decide +kernel) (by decide) (by decide +kernel)
  obtain ⟨n, t, hn, hdone, -, hgood⟩ := run_of_shown (ρ := sampleRom byteAndCopy true)
    (x := 0x02000001) (H := Set.univ) (k := 167) (Set.mem_univ _) 1 true
    (by rw [stack, mem_range]; decide)
    (show _ = some (List.replicate 28 0x80 ++ List.replicate 6 0x5a, true) by decide +kernel)
  obtain ⟨n', -, hend⟩ := codeInHeader_unnoticed hstart hn (by
    rw [boot_sp_sub]
    exact fun k hk u hu => ⟨(hgood k hk u hu).1, (hgood k hk u hu).2 rfl⟩)
  obtain ⟨t', ht', hpc', hreg, hsp, hmem⟩ := hend outp (hdone rfl)
  rw [boot_sp_sub] at hmem
  exact ⟨n, t, n', t', hn, ht', hdone rfl, hpc', hreg, hsp, hmem⟩

/-- A program of one byte, and a copy of two bytes from where the cartridge begins. -/
def cartridgeCopy : List Word := [0xa5400000, 0x0085ffff, 0xfcc00000]

/-- **A cartridge that copies a byte of itself** puts out the first byte of the branch to its
depacker, which is not the same in the header and behind it. -/
theorem cartridge_copied : ∃ n t,
    SameStart (sampleRom cartridgeCopy true) (sampleRom cartridgeCopy false) gamePak 3
      (boot (sampleRom cartridgeCopy true)) (boot (sampleRom cartridgeCopy false)) ∧
    iter (stepToBx (sampleRom cartridgeCopy true).image) n
      (boot (sampleRom cartridgeCopy true)) = some t ∧
    (∀ k ≤ n, ∀ u, iter (stepToBx (sampleRom cartridgeCopy true).image) k
        (boot (sampleRom cartridgeCopy true)) = some u →
      Apart (sampleRom cartridgeCopy true) 0x03006f00 gamePak 3 u) ∧
    ∀ n', trace (stepToBx (sampleRom cartridgeCopy false).image)
        (getbitEvent (sampleRom cartridgeCopy false) (gamePak ∪ savedReturns 0x03006f00)ᶜ) n'
        (boot (sampleRom cartridgeCopy false)) ≠
      trace (stepToBx (sampleRom cartridgeCopy true).image)
        (getbitEvent (sampleRom cartridgeCopy true) (gamePak ∪ savedReturns 0x03006f00)ᶜ) n
        (boot (sampleRom cartridgeCopy true)) := by
  have hx : (0x02000001 : Word) ∈ (gamePak ∪ savedReturns 0x03006f00)ᶜ := by
    rintro (h | h | h) <;> revert h <;> simp only [gamePak, mem_range] <;> decide
  have hstack : (0x02000001 : Word) ∉ stack 0x03006f00 := by
    rw [stack, mem_range]
    decide
  obtain ⟨n, t, hn, -, htrace, hgood⟩ := run_of_shown (ρ := sampleRom cartridgeCopy true)
    (k := 620) hx 3 false hstack
    (show _ = some (List.replicate 148 0x80 ++ [0x38], false) by decide +kernel)
  obtain ⟨m, t', hm, -, htrace', -⟩ := run_of_shown (ρ := sampleRom cartridgeCopy false)
    (k := 620) hx 3 false hstack
    (show _ = some (List.replicate 148 0x80 ++ [0x3f], false) by decide +kernel)
  refine ⟨n, t, sameStart_boot (by decide +kernel) (by decide) (by decide +kernel), hn,
    fun k hk u hu => (hgood k hk u hu).1, fun n' heq => ?_⟩
  have hprefix {j k : ℕ} {u : Cpu} (hjk : j ≤ k)
      (hu : iter (stepToBx (sampleRom cartridgeCopy false).image) j
        (boot (sampleRom cartridgeCopy false)) = some u) :=
    (trace_initial _ (getbitEvent (sampleRom cartridgeCopy false)
      (gamePak ∪ savedReturns 0x03006f00)ᶜ) hu hjk).map fun y => y.state.memory ⟨_, hx⟩
  -- What was shown up to the copy is shown first, whichever run is the longer one.
  rcases Nat.le_total n' m with hle | hle
  · obtain ⟨u, hu, -⟩ := iter_split _ hle hm
    have hshown := hprefix hle hu
    rw [heq, htrace, htrace'] at hshown
    exact absurd (hshown.eq_of_length (by simp)) (by decide)
  · have hshown := hprefix hle hm
    rw [heq, htrace, htrace'] at hshown
    exact absurd (hshown.eq_of_length (by simp)) (by decide)

end ShrinklerGba.Shrinkler
