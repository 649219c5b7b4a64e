import ShrinklerGba.Coding.Bitstream
import ShrinklerGba.Shrinkler.GetbitCall

/-!
# What callers of `getbit` rely on

The contract of `getbit` with its callers, whoever they are: the bit in the carry is the one that a
plain range decoder decodes, and little else changes.

* `Pending rom word k s`: in `s`, the bits of the sequence `word` from the `k`-th on are still to be
  read, from `bitbuf` and from the words at `inp`, as far as these lie in `rom`.
* `plainDecode` is a range decoder, with the interval in the registers and one probability.
* `Kept s t`: the registers that a call leaves alone.
* **`getbit_contract`**: a call returns to its caller with what the plain decoder decodes.
-/

namespace ShrinklerGba.Shrinkler

open Thumb Transition RangeCoding Bitstream

/-! ## The contract -/

/-- What is still to be read when `k` bits of a sequence of words were read. -/
structure Pending (rom : Set Word) (word : ℕ → Word) (k : ℕ) (s : Cpu) : Prop where
  /-- The bits that are left of the current word, and the sentinel. -/
  bitbuf : s.r6 = bufferAt word k
  /-- The words that follow. -/
  words : ∀ j, range (align4 (s.r0 + BitVec.ofNat 32 (4 * j))) 4 ⊆ rom →
    loadWord s.mem (s.r0 + BitVec.ofNat 32 (4 * j)) = word (loaded 32 k + j)

/-- A range decoder that has read `k` bits, with the interval in the registers and one
probability. -/
def plainDecoder (k p : ℕ) (s : Cpu) : Decoder Unit := ⟨⟨s.r4.toNat, s.r5.toNat⟩, k, fun _ => p⟩

/-- What the plain decoder decodes next, from a sequence of words. -/
def plainDecode (word : ℕ → Word) (k p : ℕ) (s : Cpu) : Bool × Decoder Unit :=
  (plainDecoder k p s).decode adaptation (bitAt word) ()

/-- The registers that a call of `getbit` leaves alone. -/
structure Kept (s t : Cpu) : Prop where
  /-- The register of this name. -/
  outp : t.r1 = s.r1
  /-- The register of this name. -/
  tmp0 : t.r2 = s.r2
  /-- The register of this name. -/
  tmp1 : t.r3 = s.r3
  /-- The register of this name. -/
  offset : t.r8 = s.r8
  /-- The register of this name. -/
  savedSp : t.r9 = s.r9
  /-- The registers that no code names. -/
  others : t.r10 = s.r10 ∧ t.r11 = s.r11 ∧ t.r12 = s.r12
  /-- The stack pointer. -/
  sp : t.sp = s.sp
  /-- The return address. -/
  lr : t.lr = s.lr
  /-- Thumb state. -/
  thumb : t.thumb = s.thumb

/-- Decoding took the interval, the probability and the position in the sequence to those of `d`,
and decoded `bit`. -/
structure Decoded (slot : Word) (bit : Bool) (d : Decoder Unit) (t : Cpu) : Prop where
  /-- The bit is in the carry. -/
  carry : t.c = bit
  /-- The value. -/
  rvalue : t.r4.toNat = d.value
  /-- The range. -/
  isize : t.r5.toNat = d.range
  /-- The probability. -/
  probability : (load16 t.mem slot).toNat = d.prob ()

/-! ## Shifting bits in -/

/-- The coder is where the decoder is. The reader began at `inp`, when `k` bits were read. -/
structure Coder.Reads {κ : Type*} (word : ℕ → Word) (inp : Word) (k : ℕ) (c : Coder)
    (d : Decoder κ) : Prop where
  /-- The interval. -/
  interval : c.interval = d.toState
  /-- The bits that are left of the current word. -/
  bitbuf : c.bitbuf = bufferAt word d.pos
  /-- Bits were read. -/
  le_pos : k ≤ d.pos
  /-- Where the next word is. -/
  inp_eq : c.inp = inp + BitVec.ofNat 32 (4 * (loaded 32 d.pos - loaded 32 k))

section shift

variable {κ : Type*} {word : ℕ → Word} {inp : Word} {k : ℕ} {c : Coder} {d : Decoder κ} {rd : Mem}

variable (rd) in
theorem Coder.Reads.shift (h : c.Reads word inp k d) (hv : c.interval.Valid adaptation)
    (hn : c.isize.toNat < 0x8000)
    (hword : d.pos % 32 = 0 → loadWord rd c.inp = word (d.pos / 32)) :
    (c.shift rd).Reads word inp k (d.shift (bitAt word)) := by
  have hempty := shl_bufferAt_eq_zero_iff (w := 32) (k := d.pos) word (by decide)
  have hloaded := loaded_succ (w := 32) (k := d.pos) (by decide)
  have hmono : loaded 32 k ≤ loaded 32 d.pos := loaded_mono h.le_pos
  have hinterval := Coder.interval_shift rd hv hn
  rw [← h.bitbuf] at hempty
  by_cases hmod : d.pos % 32 = 0
  · obtain ⟨hbit, hbuf⟩ := reload word (by decide) hmod (hword hmod).symm
    rw [if_pos hmod] at hloaded
    refine ⟨?_, ?_, Nat.le_succ_of_le h.le_pos, ?_⟩
    · rw [hinterval, Coder.nextBit, if_pos (hempty.mpr hmod), hbit, h.interval]
      rfl
    · rw [Coder.shift, if_pos (hempty.mpr hmod)]
      exact hbuf
    · rw [Coder.shift, if_pos (hempty.mpr hmod)]
      show c.inp + 4 = inp + BitVec.ofNat 32 (4 * (loaded 32 (d.pos + 1) - loaded 32 k))
      rw [h.inp_eq, hloaded, Nat.sub_add_comm hmono, Nat.mul_add, BitVec.ofNat_add,
        BitVec.add_assoc]
      rfl
  · obtain ⟨hbit, hbuf⟩ := shl_bufferAt word (by decide) hmod
    rw [if_neg hmod] at hloaded
    have hmore : ¬c.bitbuf <<< 1 = 0 := fun h0 => hmod (hempty.mp h0)
    refine ⟨?_, ?_, Nat.le_succ_of_le h.le_pos, ?_⟩
    · rw [hinterval, Coder.nextBit, if_neg hmore, h.bitbuf, hbit, h.interval]
      rfl
    · rw [Coder.shift, if_neg hmore]
      show c.bitbuf <<< 1 = bufferAt word (d.pos + 1)
      rw [h.bitbuf, hbuf]
    · rw [Coder.shift, if_neg hmore]
      show c.inp = inp + BitVec.ofNat 32 (4 * (loaded 32 (d.pos + 1) - loaded 32 k))
      rw [h.inp_eq, hloaded]

/-- As many bits as it takes. -/
theorem Coder.Reads.iterate (h : c.Reads word inp k d) (hv : c.interval.Valid adaptation) {n : ℕ}
    (hn : c.isize.toNat * 2 ^ n < 2 ^ 16)
    (hword : ∀ j, loaded 32 k + j < loaded 32 (d.pos + n) →
      loadWord rd (inp + BitVec.ofNat 32 (4 * j)) = word (loaded 32 k + j)) :
    ((Coder.shift rd)^[n] c).Reads word inp k ((Decoder.shift (bitAt word))^[n] d) := by
  induction n generalizing c d with
  | zero => exact h
  | succ n ih =>
      have hpow : c.isize.toNat * 2 ^ (n + 1) = 2 * c.isize.toNat * 2 ^ n := by ring
      have hle : 2 * c.isize.toNat ≤ 2 * c.isize.toNat * 2 ^ n :=
        Nat.le_mul_of_pos_right _ (Nat.two_pow_pos n)
      have hsmall : c.isize.toNat < 0x8000 := by omega
      have hinterval := Coder.interval_shift rd hv hsmall
      have hrange : (c.shift rd).isize.toNat = 2 * c.isize.toNat := congrArg State.range hinterval
      have hvalid : (c.shift rd).interval.Valid adaptation := by
        rw [hinterval]
        exact hv.double hsmall _
      -- A word is loaded only where the next one is.
      have hshift := h.shift rd hv hsmall fun hmod => by
        have hloaded := loaded_succ (w := 32) (k := d.pos) (by decide)
        have hmono : loaded 32 k ≤ loaded 32 d.pos := loaded_mono h.le_pos
        have hlater : loaded 32 (d.pos + 1) ≤ loaded 32 (d.pos + (n + 1)) := loaded_mono (by omega)
        rw [if_pos hmod] at hloaded
        rw [h.inp_eq, hword _ (by omega), Nat.add_sub_cancel' hmono,
          loaded_of_mod_eq_zero (by decide) hmod]
      rw [Function.iterate_succ_apply, Function.iterate_succ_apply]
      refine ih hshift hvalid (by rw [hrange, ← hpow]; exact hn) fun j hj => hword j ?_
      rw [show d.pos + (n + 1) = d.pos + 1 + n by omega]
      exact hj

end shift

/-! ## A call -/

section call

variable {ρ : Rom} {rom : Set Word} {word : ℕ → Word} {slot prob : Word} {k p : ℕ} {s t : Cpu}
  {g : Stages} {c : Coder} {κ : Type*} {d : Decoder κ}

/-- The loop shifts in as many bits as a decoder with the same interval does. -/
theorem Stages.Decides.normalise_eq (h : g.Decides ρ slot p s t c prob) (hready : Ready ρ slot p s)
    (hd : d.toState = ⟨s.r4.toNat, s.r5.toNat⟩) (bits : ℕ → Bool) :
    g.doublings < 16 ∧
      d.normalise adaptation bits 16 = (Decoder.shift bits)^[g.doublings] d := by
  have hrange : d.range = s.r5.toNat := congrArg State.range hd
  have hisize : c.isize.toNat = d.range * 2 ^ g.doublings := by rw [hrange, h.isize_eq]
  have hlt : d.range * 2 ^ g.doublings < 2 ^ 16 := hisize ▸ h.valid.range_lt
  have hpos : 1 ≤ d.range := hrange ▸ hready.one_le_isize
  have hn : g.doublings < 16 := State.Valid.doublings_lt (A := adaptation) hpos hlt
  exact ⟨hn, Decoder.normalise_eq_iterate (hisize ▸ h.half_le) hlt (Nat.le_of_lt hn)⟩

/-- The coder decides where a decoder with the same interval does, if the words that it needs are
at `inp`, and not in the frame. -/
theorem Stages.Decides.reads (h : g.Decides ρ slot p s t c prob) (hready : Ready ρ slot p s)
    (hd : d.toState = ⟨s.r4.toNat, s.r5.toNat⟩) (hbitbuf : s.r6 = bufferAt word d.pos)
    (hwords : ∀ j, loaded 32 d.pos + j <
        loaded 32 (d.normalise adaptation (bitAt word) 16).pos →
      loadWord s.mem (s.r0 + BitVec.ofNat 32 (4 * j)) = word (loaded 32 d.pos + j) ∧
        Disjoint (range (align4 (s.r0 + BitVec.ofNat 32 (4 * j))) 4) (range (s.sp - 16) 16)) :
    c.Reads word s.r0 d.pos (d.normalise adaptation (bitAt word) 16) := by
  have hnormalise := (h.normalise_eq hready hd (bitAt word)).2
  have hstart : (Coder.ofCpu s).Reads word s.r0 d.pos d :=
    ⟨hd.symm, hbitbuf, Nat.le_refl d.pos, by simp [Coder.ofCpu]⟩
  have hlt : s.r5.toNat * 2 ^ g.doublings < 2 ^ 16 := h.isize_eq ▸ h.valid.range_lt
  rw [hnormalise, Decoder.iterate_shift_pos] at hwords
  rw [hnormalise, h.shifted]
  refine hstart.iterate ⟨hready.rvalue_lt, Nat.lt_succ_of_le hready.isize_le⟩ hlt fun j hj => ?_
  obtain ⟨hword, hdisj⟩ := hwords j hj
  -- Only the frame was written so far.
  have hsame : Set.EqOn g.enter.mem s.mem (range (align4 (s.r0 + BitVec.ofNat 32 (4 * j))) 4) :=
    h.enter_mem.mono (Set.subset_compl_iff_disjoint_right.mpr hdisj)
  rw [← hword, loadWord, load32_congr hsame, loadWord]

/-- The call decodes what a decoder with the same interval and probability does. -/
theorem Stages.Decides.decodes [DecidableEq κ] (h : g.Decides ρ slot p s t c prob) {i : κ}
    (hp : d.prob i = p) {bits : ℕ → Bool}
    (hc : c.interval = (d.normalise adaptation bits 16).toState) :
    t.c = (d.decode adaptation bits i).1 ∧ t.r4.toNat = (d.decode adaptation bits i).2.value ∧
      t.r5.toNat = (d.decode adaptation bits i).2.range ∧
      prob.toNat = adaptation.update (d.decode adaptation bits i).1 p := by
  have hnarrow : (c.interval.narrow adaptation p).2 =
      (d.decode adaptation bits i).2.toState := by
    rw [hc, ← hp, Decoder.decode, Decoder.normalise_prob]
    rfl
  have hbit : (c.interval.narrow adaptation p).1 = (d.decode adaptation bits i).1 := by
    rw [hc, ← hp, Decoder.decode, Decoder.normalise_prob]
    rfl
  have hinterval := h.interval
  have hupdate := h.update
  rw [hnarrow] at hinterval
  rw [hbit] at hupdate
  exact ⟨h.at_return.at_phase.2.2.trans hbit,
    (congrArg BitVec.toNat h.at_return.rvalue).trans (congrArg State.value hinterval),
    (congrArg BitVec.toNat h.at_return.isize).trans (congrArg State.range hinterval), hupdate⟩

theorem Stages.Decides.kept (h : g.Decides ρ slot p s t c prob) (ht : s.thumb = true) :
    Kept s t := by
  obtain ⟨-, hregs, -⟩ := h.at_return.at_phase
  obtain ⟨hr10, hr11, hr12, hlr⟩ := h.at_return.others
  exact ⟨hregs.outp, hregs.tmp0, hregs.tmp1, h.at_return.offset, h.at_return.savedSp,
    ⟨hr10, hr11, hr12⟩, hregs.sp, hlr, h.at_return.thumb.trans ht.symm⟩

/-- Only the probability and the frame are written. -/
theorem Stages.Decides.mem_eqOn (h : g.Decides ρ slot p s t c prob) :
    Set.EqOn t.mem s.mem (range slot 2 ∪ range (s.sp - 16) 16)ᶜ := by
  intro x hx
  rw [Set.compl_union] at hx
  exact (h.at_return.mem_out hx.2).trans (store16_eqOn _ _ _ hx.1)

theorem Stages.Decides.decoded (h : g.Decides ρ slot p s t c prob) (hready : Ready ρ slot p s)
    (hc : c.interval = ((plainDecoder k p s).normalise adaptation (bitAt word) 16).toState) :
    Decoded slot (plainDecode word k p s).1 (plainDecode word k p s).2 t := by
  obtain ⟨hcarry, hrvalue, hisize, hupdate⟩ := h.decodes (d := plainDecoder k p s) (i := ()) rfl hc
  have hprob : (plainDecode word k p s).2.prob () =
      adaptation.update (plainDecode word k p s).1 p := by
    simp [plainDecode, Decoder.decode, plainDecoder]
  have hle : prob.toNat ≤ 0xfff0 := by
    rw [hupdate]
    exact (adaptation.update_mem _ _ hready.probability_mem).2
  have hslot : Set.EqOn t.mem (store16 s.mem slot (prob.setWidth 16)) (range slot 2) :=
    h.at_return.mem_out.mono (Set.subset_compl_iff_disjoint_left.mpr hready.frame)
  refine ⟨hcarry, hrvalue, hisize, ?_⟩
  rw [load16_congr hslot, load16_store16, BitVec.toNat_setWidth,
    Nat.mod_eq_of_lt (Nat.lt_of_le_of_lt hle (by decide)), hupdate, hprob]
  rfl

/-- What was not read yet is still there. -/
theorem Pending.of_reads (hpending : Pending rom word k s)
    (hreads : c.Reads word s.r0 k d) (hinp : t.r0 = c.inp) (hbitbuf : t.r6 = c.bitbuf)
    (hrom : Set.EqOn t.mem s.mem rom) : Pending rom word d.pos t := by
  have hmono : loaded 32 k ≤ loaded 32 d.pos := loaded_mono hreads.le_pos
  refine ⟨hbitbuf.trans hreads.bitbuf, fun j hj => ?_⟩
  have hat : t.r0 + BitVec.ofNat 32 (4 * j) =
      s.r0 + BitVec.ofNat 32 (4 * (loaded 32 d.pos - loaded 32 k + j)) := by
    rw [hinp, hreads.inp_eq, Nat.mul_add, BitVec.ofNat_add, BitVec.add_assoc]
  rw [hat] at hj ⊢
  have hword := hpending.words _ hj
  rw [← Nat.add_assoc, Nat.add_sub_cancel' hmono] at hword
  rw [← hword, loadWord, load32_congr (hrom.mono hj), loadWord]

/-- **The contract of `getbit`**: the call returns, the plain decoder's bit is in the carry, the
interval, the probability and what is still to be read are the plain decoder's, and nothing else
changes but `bitctx`, the flags and the frame. -/
theorem getbit_contract (hready : Ready ρ slot p s) (hpending : Pending rom word k s)
    (hframe : Disjoint rom (range (s.sp - 16) 16)) (hslot : Disjoint rom (range slot 2))
    (hwords : ∀ j, loaded 32 k + j < loaded 32 (plainDecode word k p s).2.pos →
      range (align4 (s.r0 + BitVec.ofNat 32 (4 * j))) 4 ⊆ rom) :
    ∃ t, Returns ρ s t ∧ t.pc = s.lr &&& ~~~1 ∧
      Decoded slot (plainDecode word k p s).1 (plainDecode word k p s).2 t ∧
      Pending rom word (plainDecode word k p s).2.pos t ∧
      t.r0 = s.r0 +
        BitVec.ofNat 32 (4 * (loaded 32 (plainDecode word k p s).2.pos - loaded 32 k)) ∧
      Kept s t ∧ Set.EqOn t.mem s.mem (range slot 2 ∪ range (s.sp - 16) 16)ᶜ := by
  obtain ⟨t, g, c, prob, hg⟩ := hready.call
  have hreads := hg.reads (d := plainDecoder k p s) hready rfl hpending.bitbuf fun j hj =>
    have hin := hwords j hj
    ⟨hpending.words j hin, hframe.mono_left hin⟩
  obtain ⟨hinp, hbitbuf⟩ := c.decide_reader g.load.mem slot
  have hinp' : t.r0 = c.inp := hg.at_return.inp.trans hinp
  have hrom : Set.EqOn t.mem s.mem rom := hg.mem_eqOn.mono
    (Set.subset_compl_iff_disjoint_right.mpr (Set.disjoint_union_right.mpr ⟨hslot, hframe⟩))
  have hpending' := hpending.of_reads hreads hinp' (hg.at_return.bitbuf.trans hbitbuf) hrom
  exact ⟨t, hg.toCourse.returns, hg.at_return.at_phase.1, hg.decoded hready hreads.interval,
    hpending', hinp'.trans hreads.inp_eq, hg.kept hready.thumb, hg.mem_eqOn⟩

end call

/-- The first call, with the words in the ROM. -/
def contractCall : Cpu := { firstCall with r0 := 0x08000200 }

/-- The words of the first call. -/
def contractWord : ℕ → Word := fun _ => 0x80008000

/-- The first call shifts 15 bits in, from the first word. -/
theorem getbit_contract_contractCall : ∃ t, Returns ewramRom contractCall t ∧
    t.pc = contractCall.lr &&& ~~~1 ∧
    Decoded 0x03006f0a (plainDecode contractWord 0 0x8000 contractCall).1
      (plainDecode contractWord 0 0x8000 contractCall).2 t ∧
    Pending (range 0x08000000 0x02000000) contractWord
      (plainDecode contractWord 0 0x8000 contractCall).2.pos t ∧
    t.r0 = contractCall.r0 + BitVec.ofNat 32
      (4 * (loaded 32 (plainDecode contractWord 0 0x8000 contractCall).2.pos - loaded 32 0)) ∧
    Kept contractCall t ∧
    Set.EqOn t.mem contractCall.mem
      (range 0x03006f0a 2 ∪ range (contractCall.sp - 16) 16)ᶜ := by
  have hpos : (plainDecode contractWord 0 0x8000 contractCall).2.pos = 15 := rfl
  refine getbit_contract ⟨rfl, rfl, by decide, by decide, by decide, by decide, by decide,
    by decide, ⟨by decide, by decide⟩, disjoint_range (by decide) (by decide)⟩
    ⟨by decide, fun j _ => ?_⟩ (disjoint_range (by decide) (by decide))
    (disjoint_range (by decide) (by decide)) fun j hj => ?_
  · have ha : (contractCall.r0 + BitVec.ofNat 32 (4 * j)).toNat % 4 = 0 := by
      show (0x08000200 + BitVec.ofNat 32 (4 * j) : Word).toNat % 4 = 0
      bv_omega
    generalize contractCall.r0 + BitVec.ofNat 32 (4 * j) = a at *
    have h₁ : (a + 1).toNat % 2 ≠ 0 := by bv_omega
    have h₂ : (a + 2).toNat % 2 = 0 := by bv_omega
    have h₃ : (a + 3).toNat % 2 ≠ 0 := by bv_omega
    rw [loadWord_of_aligned _ ha]
    simp only [load32, contractCall, firstCall, if_pos (show a.toNat % 2 = 0 by omega), if_neg h₁,
      if_pos h₂, if_neg h₃]
    rfl
  · rw [hpos] at hj
    have h0 : loaded 32 0 = 0 := rfl
    have h15 : loaded 32 15 = 1 := rfl
    obtain rfl : j = 0 := by omega
    exact range_subset (by decide)

end ShrinklerGba.Shrinkler
