import ShrinklerGba.Shrinkler.Parse
import ShrinklerGba.Shrinkler.Refinement

/-!
# The format is complete

Whatever a program is, and in whatever way it is put together from symbols, there are words that the
depacker unpacks to it.

* **`format_complete`**: there are words for every parse, at every load address.
* `wordsStart` is a processor with these words in memory.
-/

namespace ShrinklerGba.Shrinkler

open Thumb Transition

/-- **There are words for every parse**: the processor decodes these symbols and no others, and
comes to the end of the main loop, with debug checks or without. It does not matter which words
follow, nor where the program is loaded. Without debug checks, it enters the program next. -/
theorem format_complete {symbols : List LzSymbol} {out : List Byte} {offset : Option ℕ}
    {afterLiteral : Bool} (h : Parses symbols out offset afterLiteral) :
    ∃ ws : List Word, ws.length ≤ 63 * symbols.length + 32 ∧ ∀ (ρ : Rom) (s : Cpu),
      Prepared ρ s (fun j => ws.getD j 0) ws.length out.length →
        ∃ k t, iter (stepToBx ρ.image) k s = some t ∧
          completed (trace (stepToBx ρ.image) (delivery ρ) k s) =
            symbols.flatMap LzSymbol.deliveries ++ [.number .offset 2] ∧
          Decompressed ρ s out t ∧
          (ρ.config.debugChecks = false → ∃ k' t', iter (stepToBx ρ.image) k' t = some t' ∧
            completed (trace (stepToBx ρ.image) (delivery ρ) k' t) = [.finish] ∧
            Unpacked ρ s out t') := by
  obtain ⟨u, hu, hplace, rfl, -, rfl⟩ := h.reads
  obtain ⟨ws, hlength, hws⟩ := Reads.exists_words (hu.trans (Unpacker.reads_end hplace))
  refine ⟨ws, by omega, fun ρ s hs => ?_⟩
  obtain ⟨n, x, hrun, hloaded⟩ := hws ρ.config.loadAddress _ fun _ _ => rfl
  obtain ⟨d, k, t, hk, htrace, hrel, hd, -⟩ := hs.run hrun (Nat.le_refl _) hloaded
  refine ⟨k, t, hk, ?_, (hs.decompressed hrel hd rfl (Nat.le_refl _)).1, fun hdebug => ?_⟩
  · have hdelivered := (Reference.unpacks hrun).delivered_eq (.of_place (by simp [Reference.start,
      Unpacker.start]))
    simp only [Unpacker.delivered, Unpacker.pending, Reference.start, Unpacker.start,
      List.flatMap_nil, List.nil_append] at hdelivered
    rw [htrace]
    exact hdelivered.symm
  · obtain ⟨k', t', hk', hfinish, hunpacked, -⟩ :=
      hs.finish hrel hd rfl (Nat.le_refl _) hdebug
    exact ⟨k', t', hk', by rw [hfinish]; rfl, hunpacked⟩

/-! ## A cartridge with these words -/

/-- Memory with words from an address on. -/
def memoryOf (a : Word) (ws : List Word) (x : Word) : Byte :=
  (ws.getD ((x - a).toNat / 4) 0).extractLsb' (8 * ((x - a).toNat % 4)) 8

theorem load32_memoryOf (a : Word) (ws : List Word) {j : ℕ} (hj : j < 2 ^ 30) :
    load32 (memoryOf a ws) (a + BitVec.ofNat 32 (4 * j)) = ws.getD j 0 := by
  have hbyte (i : ℕ) (hi : i < 4) :
      memoryOf a ws (a + BitVec.ofNat 32 (4 * j) + BitVec.ofNat 32 i) =
        (ws.getD j 0).extractLsb' (8 * i) 8 := by
    have hoffset : (a + BitVec.ofNat 32 (4 * j) + BitVec.ofNat 32 i - a).toNat = 4 * j + i := by
      bv_omega
    rw [memoryOf, hoffset, show (4 * j + i) / 4 = j by omega, show (4 * j + i) % 4 = i by omega]
  have h₀ := hbyte 0 (by decide)
  rw [BitVec.ofNat_eq_ofNat, BitVec.add_zero] at h₀
  rw [load32, h₀]
  refine (congrArg₂ (fun x y => x ++ y ++ _ ++ _) (hbyte 3 (by decide)) (hbyte 2 (by decide))).trans
    ?_
  refine (congrArg (fun x => _ ++ x ++ _) (hbyte 1 (by decide))).trans ?_
  exact word_bytes _

/-- The processor at the entry point, with these words behind the depacker. -/
def wordsStart (ws : List Word) : Cpu :=
  { started ewramRom with mem := memoryOf (ewramRom.sym .packedIntro) ws }

theorem wordsStart_prepared {ws : List Word} (h : ws.length < 2 ^ 24) :
    Prepared ewramRom (wordsStart ws) (fun j => ws.getD j 0) ws.length 4 := by
  have hintro : ewramRom.sym .packedIntro = 0x08000188 := by decide +kernel
  have hload : ewramRom.config.loadAddress = 0x02000000 := rfl
  have hsp : (wordsStart ws).sp - 4120 = 0x03006ee8 := by
    have htop : (wordsStart ws).sp = 0x03007f00 := rfl
    rw [htop]
    rfl
  refine ⟨⟨rfl, rfl, (by decide : (0x03007f00 : Word).toNat % 4 = 0)⟩, ?_, fun j hj => ?_,
    fun j hj => ?_⟩
  · rw [hsp]
    exact disjoint_range (by decide) (by decide)
  · exact load32_memoryOf _ ws (by omega)
  · rw [hsp, hintro, hload, Set.disjoint_union_right]
    exact ⟨disjoint_range (by bv_omega) (by bv_omega), disjoint_range (by bv_omega) (by bv_omega)⟩

/-- A byte, and three copies of it. -/
theorem format_complete_copies : ∃ (ws : List Word) (k k' : ℕ) (t t' : Cpu),
    iter (stepToBx ewramRom.image) k (wordsStart ws) = some t ∧
      completed (trace (stepToBx ewramRom.image) (delivery ewramRom) k (wordsStart ws)) =
        [.byte 7, .number .offset 3, .number .length 3, .number .offset 2] ∧
      Decompressed ewramRom (wordsStart ws) [7, 7, 7, 7] t ∧
      iter (stepToBx ewramRom.image) k' t = some t' ∧
      Unpacked ewramRom (wordsStart ws) [7, 7, 7, 7] t' := by
  obtain ⟨ws, hlength, hws⟩ := format_complete (Parses.reference (d := 1) (l := 3) (.first 7)
    (by decide) (by decide) (by decide) (by decide) (by decide))
  have hlt : ws.length < 2 ^ 24 := by
    simp only [List.length_append, List.length_singleton] at hlength
    omega
  obtain ⟨k, t, hk, hcompleted, hdone, hfinish⟩ := hws ewramRom _ (wordsStart_prepared hlt)
  obtain ⟨k', t', hk', -, hunpacked⟩ := hfinish rfl
  exact ⟨ws, k, k', t, t', hk, hcompleted, hdone, hk', hunpacked⟩

end ShrinklerGba.Shrinkler
