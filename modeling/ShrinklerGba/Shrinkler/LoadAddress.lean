import ShrinklerGba.Shrinkler.Parse
import ShrinklerGba.Shrinkler.Refinement

/-!
# Unpacking anywhere

Where a compressed program is loaded does not matter, nor does the parity of the address: if the
processor unpacks it at one address, it unpacks it at any other.

* **`Prepared.reads_more`**: where the plain decoder reads more than the words, so does the
  processor.
* **`Prepared.run_back`**: when the processor is done, so is the plain decoder, whose run is
  recovered from the processor's.
* **`unpacks_anywhere`**: the processor delivers, reads and puts out the same at another address.
-/

namespace ShrinklerGba.Shrinkler

open Thumb Transition RangeCoding Bitstream

/-! ## The bits that are delivered -/

namespace Unpacker

variable {u v : Unpacker} {bit : Bool} {bits : List Bool} {l : List Delivery}

/-- The end is not among what the bits complete. -/
theorem finish_notMem_delivers (u : Unpacker) (bit : Bool) : .finish ∉ u.delivers bit := by
  unfold delivers
  cases u.place with
  | literal seen => simp only; split <;> simp
  | digit k i n => simp only; split <;> simp
  | _ => simp

theorem Unpacks.finish_notMem (h : Unpacks u l v) : .finish ∉ l := by
  induction h with
  | refl => exact List.not_mem_nil
  | step _ _ ih => exact List.mem_append.not.mpr (not_or.mpr ⟨finish_notMem_delivers _ _, ih⟩)

theorem advances_cons (u : Unpacker) (bit : Bool) (bits : List Bool) :
    u.advances (bit :: bits) = (u.advance bit).bind fun v => v.advances bits := by
  rw [advances, List.foldlM_cons]
  rfl

theorem Unpacks.advances (h : Unpacks u l v) : u.advances (decodedBits l) = some v := by
  induction h with
  | refl => rfl
  | step hadvance _ ih =>
      rw [decodedBits_append, decodedBits_delivers, List.singleton_append, advances_cons, hadvance]
      exact ih

theorem advances_out_le (h : u.advances bits = some v) : u.out.length ≤ v.out.length := by
  induction bits generalizing u with
  | nil =>
      cases h
      exact Nat.le_refl _
  | cons bit bits ih =>
      rw [advances_cons, Option.bind_eq_some_iff] at h
      obtain ⟨w, hw, h⟩ := h
      exact (advance_out_le hw).trans (ih h)

/-- At the end, no bit can be read. -/
theorem advances_done (hu : u.place = .done) (h : u.advances bits = some v) : v = u := by
  cases bits with
  | nil =>
      cases h
      rfl
  | cons bit bits =>
      rw [advances_cons, Option.bind_eq_some_iff] at h
      obtain ⟨w, hw, -⟩ := h
      simp [advance, hu] at hw

end Unpacker

/-! ## Reading more than the words -/

variable {ρ : Rom} {s t t₀ : Cpu} {word : ℕ → Word} {words size k n : ℕ} {u v : Unpacker}
  {x y : Decoder Context} {d : Depacker}

theorem ReadsWithin.drop (h : ReadsWithin ρ words n s)
    (ht : iter (stepToBx ρ.image) k s = some t) : ReadsWithin ρ words (n - k) t :=
  fun j hj u b hu => h (k + j) (by omega) u b (iter_trans _ ht hu)

/-- At the end of the words, the next one is loaded, whatever it is. From there on, the coder
follows a range decoder that has read one bit of it. -/
theorem Coder.Follows.next_word {S intro : Word} {c : Coder} (h : c.Follows S intro word y)
    (hn : y.range < adaptation.half) (hmod : y.pos % 32 = 0) (rd : Mem) :
    ∃ (word' : ℕ → Word) (z : Decoder Context), (c.shift rd).Follows S c.inp word' z ∧
      z.pos = 1 := by
  have hfresh : c.Follows S c.inp (fun _ => loadWord rd c.inp) { y with pos := 0 } := by
    refine ⟨⟨h.reads.interval, ?_, Nat.le_refl 0, by simp⟩, ⟨h.valid.state, h.valid.prob_mem⟩,
      h.probability⟩
    rw [h.reads.bitbuf, bufferAt, bufferAt, if_pos hmod, if_pos (Nat.zero_mod 32)]
  exact ⟨_, _, hfresh.shift rd hn fun _ => rfl, rfl⟩

/-- The loop goes on, whatever word is loaded. -/
theorem Rel.shift {S : Word} {σ : Site} (hS : S.toNat % 4 = 0) (h : Rel ρ S d t)
    (hctl : d.ctl = .getbit σ .loop) (hlow : d.isize.getLsbD 15 = false) :
    ∃ k t', iter (stepToBx ρ.image) k t = some t' ∧
      trace (stepToBx ρ.image) (Shrinkler.delivery ρ) k t = [] ∧
      Rel ρ S { d with toCoder := d.toCoder.shift t.mem, ctl := .getbit σ .loop } t' := by
  have hstep : Depacker.step (ρ.params S) t.mem d =
      some { d with toCoder := d.toCoder.shift t.mem, ctl := .getbit σ .loop } := by
    simp only [Depacker.step, hctl, Coder.step, hlow, Bool.false_eq_true, if_false, Option.map_some]
  obtain ⟨t', ⟨m, hseg⟩, ht'⟩ := h.simulate hS (by simp [Safe, hctl]) hstep
  refine ⟨m + 1, t', hseg.iter_eq, ?_, ht'⟩
  rw [hseg.trace_eq _ (fun _ hu => hu.atQuiet.delivery) (Nat.le_refl m), h.delivery hS,
    Depacker.delivery, hctl]
  rfl

/-- Where the plain decoder reads more than the words, so does the processor. -/
theorem Prepared.reads_more (h : Prepared ρ s word words size) (hrel : Rel ρ (s.sp - 4096) d t₀)
    (hd : Tracks h.setting u x d) (hu : u.place ≠ .done) (hout : u.out.length ≤ size)
    (hle : loaded 32 x.pos ≤ words)
    (hlt : words <
      loaded 32 (x.decode adaptation (bitAt word) (u.context ρ.config.loadAddress)).2.pos) :
    ∃ k t b, iter (stepToBx ρ.image) k t₀ = some t ∧
      trace (stepToBx ρ.image) (delivery ρ) k t₀ = [] ∧ delivery ρ t = some (.bit b) ∧
      t.r0 = ρ.sym .packedIntro + BitVec.ofNat 32 (4 * (words + 1)) := by
  have haligned := h.setting.aligned
  obtain ⟨σ, hctl, hvalid, hslot⟩ := hd.call hu
  rw [Decoder.decode_pos] at hlt
  obtain ⟨c, y, hloop, hc, hbitctx, hn, hmod, hloaded⟩ :=
    goes_outOfWords (π := ρ.params (s.sp - 4096)) (d := { d with ctl := .getbit σ .loop }) rfl
      hd.coder (fun j hj => hd.held hout hj) hle hlt
  obtain ⟨k, t, hk, htrace, ht⟩ := ((goes_call hctl).then hloop).simulate haligned hrel
  -- The next word is loaded, and has enough bits for the rest of the call.
  obtain ⟨k₁, t₁, hk₁, htrace₁, ht₁⟩ := ht.shift haligned rfl (hc.isize_low hn)
  obtain ⟨word', z, hz, hpos⟩ := hc.next_word hn hmod t.mem
  have hloaded' :
      loaded 32 (z.decode adaptation (bitAt word') (u.context h.setting.load)).2.pos = 1 := by
    have hle := Decoder.le_pos_normalise (d := z) adaptation (bitAt word') adaptation.width
    have hle' := Decoder.normalise_pos_le (d := z) adaptation (bitAt word') adaptation.width
    rw [hpos] at hle hle'
    rw [Decoder.decode_pos]
    exact Nat.le_antisymm (loaded_mono (w := 32) hle') (loaded_mono (w := 32) hle)
  have hshift : (c.shift t.mem).bitctx = d.bitctx :=
    (Coder.iterate_shift t.mem 1 c).2.trans hbitctx
  obtain ⟨c₂, hdecode, hc₂, -⟩ := goes_decode (π := ρ.params (s.sp - 4096))
    (d := { d with toCoder := c.shift t.mem, ctl := .getbit σ .loop }) rfl hvalid
    ((congrArg _ hshift).trans hslot) hz fun j hj hj' => by
      rw [hpos] at hj
      rw [hloaded'] at hj'
      exact absurd hj (Nat.not_le.mpr hj')
  obtain ⟨k₂, t₂, hk₂, htrace₂, ht₂⟩ := hdecode.simulate haligned ht₁
  have hbit := ht₂.delivery haligned
  obtain ⟨s₀, -, hin, -⟩ := ht₂
  have hk' := iter_trans _ hk hk₁
  refine ⟨k + k₁ + k₂, t₂, _, iter_trans _ hk' hk₂, ?_, hbit, ?_⟩
  · rw [trace_add _ _ hk', trace_add _ _ hk, htrace, htrace₁, htrace₂]
    rfl
  · rw [hin.inp]
    refine hc₂.reads.inp_eq.trans ?_
    rw [hc.reads.inp_eq, hloaded', hloaded]
    show ρ.sym .packedIntro + BitVec.ofNat 32 (4 * (words - loaded 32 0)) +
      BitVec.ofNat 32 (4 * (1 - loaded 32 0)) = _
    rw [show loaded 32 0 = 0 from rfl]
    bv_omega

/-! ## Back from the processor -/

section back

variable (ρ) in
/-- At the end of the main loop, the end is delivered. -/
theorem delivery_done (hpc : t.pc = ρ.sym .donedecompressing) : delivery ρ t = some .finish := by
  rw [delivery, hpc, ρ.fetch_donedecompressing]

variable (h : Prepared ρ s word words size) (hrel : Rel ρ (s.sp - 4096) d t₀)
  (hd : Tracks h.setting u x d) (hu : u.place ≠ .done) (hout : u.out.length ≤ size)
  (hrun : iter (stepToBx ρ.image) n t₀ = some t) (hdone : t.pc = ρ.sym .donedecompressing)
include hrel hd hu hout hrun hdone

/-- Before the processor is done, no more than the words is read. -/
theorem Prepared.decode_reads (hle : loaded 32 x.pos ≤ words)
    (hreads : ReadsWithin ρ words n t₀) :
    loaded 32 (x.decode adaptation (bitAt word) (u.context ρ.config.loadAddress)).2.pos ≤
      words := by
  by_contra hlt
  obtain ⟨k, w, b, hk, htrace, hbit, hr0⟩ :=
    h.reads_more hrel hd hu hout hle (Nat.lt_of_not_le hlt)
  have hkn : k + 1 ≤ n := by
    refine le_of_notMem_trace hrun (delivery_done ρ hdone) ?_
    rw [trace_add _ _ hk, htrace, trace_one, hbit]
    simp
  have hbound := hreads k hkn w b hk hbit
  have hwords := h.words_lt
  rw [hr0] at hbound
  bv_omega

/-- The first bit that is delivered is the one that the plain decoder decodes. -/
theorem Prepared.first_bit (hwords : loaded 32
      (x.decode adaptation (bitAt word) (u.context ρ.config.loadAddress)).2.pos ≤ words) :
    ∃ l, decodedBits (trace (stepToBx ρ.image) (delivery ρ) n t₀) =
      Reference.bit ρ.config.loadAddress (bitAt word) ⟨u, x⟩ :: l := by
  obtain ⟨σ, hctl, hvalid, hslot⟩ := hd.call hu
  obtain ⟨c, hgetbit, -, -⟩ := goes_getbit (π := ρ.params (s.sp - 4096))
    (k := u.context ρ.config.loadAddress) hctl hvalid hslot hd.coder
    fun j hj => hd.held hout (hj.trans_le hwords)
  obtain ⟨k, w, hk, htrace, -⟩ := (hgetbit.then (goes_return rfl)).simulate h.setting.aligned hrel
  have hkn : k ≤ n := le_of_notMem_trace hrun (delivery_done ρ hdone) (by simp [htrace])
  obtain ⟨j, rfl⟩ := Nat.exists_eq_add_of_le hkn
  rw [trace_add _ _ hk, htrace]
  exact ⟨_, rfl⟩

end back

/-- **When the processor is done, so is the plain decoder.** Its run is recovered from the
processor's, bit by bit. -/
theorem Prepared.run_back (h : Prepared ρ s word words size) (hrel : Rel ρ (s.sp - 4096) d t₀)
    (hd : Tracks h.setting u x d) (hle : loaded 32 x.pos ≤ words)
    (hrun : iter (stepToBx ρ.image) n t₀ = some t) (hdone : t.pc = ρ.sym .donedecompressing)
    (hreads : ReadsWithin ρ words n t₀)
    (hbits : u.advances (decodedBits (trace (stepToBx ρ.image) (delivery ρ) n t₀)) = some v)
    (hlen : v.out.length ≤ size) :
    ∃ m y, iter (Reference.step ρ.config.loadAddress (bitAt word)) m ⟨u, x⟩ = some ⟨v, y⟩ ∧
      v.place = .done ∧ loaded 32 y.pos ≤ words := by
  -- Every bit takes some steps: the induction is on how many steps are left.
  induction n using Nat.strongRecOn generalizing t₀ u x d with
  | _ n ih =>
  by_cases hu : u.place = .done
  · obtain rfl := Unpacker.advances_done hu hbits
    exact ⟨0, x, rfl, hu, hle⟩
  have hout : u.out.length ≤ size := (Unpacker.advances_out_le hbits).trans hlen
  have hwords := h.decode_reads hrel hd hu hout hrun hdone hle hreads
  obtain ⟨l, hl⟩ := h.first_bit hrel hd hu hout hrun hdone hwords
  rw [hl, Unpacker.advances_cons, Option.bind_eq_some_iff] at hbits
  obtain ⟨w, hadvance, hrest⟩ := hbits
  have hstep : Reference.step ρ.config.loadAddress (bitAt word) ⟨u, x⟩ =
      some ⟨w, (x.decode adaptation (bitAt word) (u.context ρ.config.loadAddress)).2⟩ :=
    Reference.step_eq_some.mpr ⟨hu, hadvance, rfl⟩
  obtain ⟨d', k, t₁, hk, htrace, hrel', hd', -⟩ :=
    h.step hrel hd hstep ((Unpacker.advances_out_le hrest).trans hlen) hwords
  have hkn : k ≤ n := le_of_notMem_trace hrun (delivery_done ρ hdone)
    (htrace ▸ Unpacker.finish_notMem_delivers _ _)
  have hpos : 0 < k := by
    refine Nat.pos_of_ne_zero fun hzero => ?_
    rw [hzero, trace_zero, Unpacker.delivers] at htrace
    cases htrace
  obtain ⟨j, rfl⟩ := Nat.exists_eq_add_of_le hkn
  rw [iter_add, hk, Option.bind_some] at hrun
  rw [trace_add _ _ hk, htrace, decodedBits_append, Unpacker.decodedBits_delivers,
    List.singleton_append, List.cons.injEq] at hl
  have hreads' := hreads.drop hk
  rw [Nat.add_sub_cancel_left] at hreads'
  obtain ⟨m, y, hm, hend, hle'⟩ := ih j (by omega) hrel' hd' hwords hrun hreads' (hl.2 ▸ hrest)
  exact ⟨m + 1, y, (iter_succ_of_step hstep m).trans hm, hend, hle'⟩

/-- The processor is done only once. -/
theorem Prepared.done_unique (h : Prepared ρ s word words size) (hfits : ρ.Fits) {t₁ : Cpu}
    {l : List Delivery} (hk : iter (stepToBx ρ.image) k s = some t₁)
    (hrel : Rel ρ (s.sp - 4096) d t₁)
    (hd : Tracks h.setting u x d) (hu : u.place = .done) (hlen : u.out.length ≤ size)
    (htrace : trace (stepToBx ρ.image) (delivery ρ) k s = l) (hl : .finish ∉ l)
    (hrun : iter (stepToBx ρ.image) n s = some t) (hdone : t.pc = ρ.sym .donedecompressing) :
    n = k := by
  have hpc := (h.decompressed hrel hd hu hlen).1.pc
  cases hdebug : ρ.config.debugChecks with
  | true =>
      -- The debug checks do not come back.
      obtain ⟨j, rfl⟩ := Nat.exists_eq_add_of_le
        (le_of_notMem_trace hrun (delivery_done ρ hdone) (htrace ▸ hl))
      cases j with
      | zero => rfl
      | succ j =>
          have hctl : d.ctl = .done := by rw [hd.control, hu, Place.control]
          rw [Rel, hctl] at hrel
          rw [iter_add, hk, Option.bind_some] at hrun
          exact absurd hdone
            (Rom.enclosed_pc_ne (ρ.enclosed hfits hdebug hpc hrel.thumb hrun))
  | false =>
      obtain ⟨k', t₂, hk', hfinish, ht₂, -⟩ := h.finish hrel hd hu hlen hdebug
      have hend := iter_trans _ hk hk'
      have htrace' : trace (stepToBx ρ.image) (delivery ρ) (k + k') s = l ++ [.finish] := by
        rw [trace_add _ _ hk, htrace, hfinish]
      have hpos : 0 < k' := by
        refine Nat.pos_of_ne_zero fun hzero => ?_
        rw [hzero] at hfinish
        cases hfinish
      refine eq_of_last htrace' hl hrun (delivery_done ρ hdone) ?_ hk (delivery_done ρ hpc)
        (by omega)
      -- After the jump was reached, there are no more steps.
      by_contra hle
      obtain ⟨w, hw, hrest⟩ := iter_split _ (Nat.le_of_not_lt hle) hrun
      obtain rfl : w = t₂ := Option.some.inj (hw.symm.trans hend)
      cases hj : n - (k + k') with
      | zero =>
          rw [hj] at hrest
          cases hrest
          have hdelivery := delivery_done ρ hdone
          rw [delivery, ht₂.fetch] at hdelivery
          cases hdelivery
      | succ j =>
          rw [hj] at hrest
          obtain ⟨w', hw', -⟩ := (iter_succ_eq_some _).mp hrest
          rw [stepToBx, ht₂.fetch] at hw'
          cases hw'

/-! ## Another address -/

/-- The bytes that were put out, from an address up to the output address. -/
def outputFrom (load : Word) (t : Cpu) : List Byte :=
  (List.range (t.r1 - load).toNat).map fun i => t.mem (load + BitVec.ofNat 32 i)

/-- At the end of the main loop, the output is what was unpacked. -/
theorem Decompressed.outputFrom_eq {out : List Byte} (h : Decompressed ρ s out t)
    (hlt : out.length < 2 ^ 32) : outputFrom ρ.config.loadAddress t = out := by
  have hr1 : (t.r1 - ρ.config.loadAddress).toNat = out.length := by
    rw [h.outp]
    bv_omega
  rw [outputFrom, hr1]
  refine List.ext_getElem (by simp) fun i hi hi' => ?_
  rw [List.getElem_map, List.getElem_range, ← List.getD_eq_getElem _ 0 hi', ← h.bytes i hi']

theorem Prepared.output_done (h : Prepared ρ s word words size)
    (hrel : Rel ρ (s.sp - 4096) d t) (hd : Tracks h.setting u x d) (hu : u.place = .done)
    (hlen : u.out.length ≤ size) :
    t.pc = ρ.sym .donedecompressing ∧
      t.r0 = ρ.sym .packedIntro + BitVec.ofNat 32 (4 * loaded 32 x.pos) ∧
      outputFrom ρ.config.loadAddress t = u.out := by
  obtain ⟨hdone, hr0⟩ := h.decompressed hrel hd hu hlen
  exact ⟨hdone.pc, hr0, hdone.outputFrom_eq (Nat.lt_of_le_of_lt hlen h.setting.size_lt)⟩

/-- **When the processor is done, it is where the plain decoder is**, and has delivered the same. -/
theorem Prepared.done_back (h : Prepared ρ s word words size) (hfits : ρ.Fits)
    (hrun : iter (stepToBx ρ.image) n s = some t) (hdone : t.pc = ρ.sym .donedecompressing)
    (hreads : ReadsWithin ρ words n s)
    (hbits : Unpacker.start.advances
      (decodedBits (trace (stepToBx ρ.image) (delivery ρ) n s)) = some u)
    (hlen : u.out.length ≤ size) :
    ∃ m y d, iter (Reference.step ρ.config.loadAddress (bitAt word)) m .start = some ⟨u, y⟩ ∧
      u.place = .done ∧ loaded 32 y.pos ≤ words ∧
      trace (stepToBx ρ.image) (delivery ρ) n s =
        Reference.deliveries ρ.config.loadAddress (bitAt word) m .start ∧
      Rel ρ (s.sp - 4096) d t ∧ Tracks h.setting u y d := by
  obtain ⟨d₀, k₀, t₀, hk₀, htrace₀, hrel₀, hd₀⟩ := h.start
  have hkn : k₀ ≤ n :=
    le_of_notMem_trace hrun (delivery_done ρ hdone) (htrace₀ ▸ List.not_mem_nil)
  have hrest : iter (stepToBx ρ.image) (n - k₀) t₀ = some t := by
    rw [← Nat.add_sub_cancel' hkn, iter_add, hk₀] at hrun
    exact hrun
  have hbits' : Unpacker.start.advances
      (decodedBits (trace (stepToBx ρ.image) (delivery ρ) (n - k₀) t₀)) = some u := by
    rw [← Nat.add_sub_cancel' hkn, trace_add _ _ hk₀, htrace₀] at hbits
    exact hbits
  obtain ⟨m, y, hm, hu, hle⟩ :=
    h.run_back hrel₀ hd₀ (Nat.zero_le _) hrest hdone (hreads.drop hk₀) hbits' hlen
  obtain ⟨d, k, t₁, hk, htrace, hrel, hd, -⟩ := h.run hm hlen hle
  obtain rfl := h.done_unique hfits hk hrel hd hu hlen htrace (Reference.unpacks hm).finish_notMem
    hrun hdone
  obtain rfl : t = t₁ := Option.some.inj (hrun.symm.trans hk)
  exact ⟨m, y, d, hm, hu, hle, htrace, hrel, hd⟩

/-- **A program can be unpacked anywhere.** If the processor gets to the end of the main loop, and
what it decodes can be unpacked, then it gets there at any other address as well, whatever its
parity, with debug checks or without. It delivers the same bits, bytes and numbers, reads as many
words, and puts out the same. -/
theorem unpacks_anywhere (hfits : ρ.Fits) {ρ' : Rom} {s' : Cpu}
    (hrun : iter (stepToBx ρ.image) n s = some t) (hdone : t.pc = ρ.sym .donedecompressing)
    (hreads : ReadsWithin ρ words n s)
    (hbits : Unpacker.start.advances
      (decodedBits (trace (stepToBx ρ.image) (delivery ρ) n s)) = some u)
    (h : Prepared ρ s word words u.out.length) (h' : Prepared ρ' s' word words u.out.length) :
    ∃ n' t', iter (stepToBx ρ'.image) n' s' = some t' ∧ t'.pc = ρ'.sym .donedecompressing ∧
      trace (stepToBx ρ'.image) (delivery ρ') n' s' = trace (stepToBx ρ.image) (delivery ρ) n s ∧
      t'.r0 - ρ'.sym .packedIntro = t.r0 - ρ.sym .packedIntro ∧
      outputFrom ρ'.config.loadAddress t' = outputFrom ρ.config.loadAddress t := by
  obtain ⟨m, y, d, hm, hu, hle, htrace, hrel, hd⟩ :=
    h.done_back hfits hrun hdone hreads hbits (Nat.le_refl _)
  -- The plain decoder runs alike at both addresses.
  obtain ⟨hm', hsame⟩ := Reference.iter_load hm ρ'.config.loadAddress
  obtain ⟨d', n', t', hn', htrace', hrel', hd', -⟩ := h'.run hm' (Nat.le_refl _) hle
  obtain ⟨-, hr0, hout⟩ := h.output_done hrel hd hu (Nat.le_refl _)
  obtain ⟨hpc', hr0', hout'⟩ := h'.output_done hrel' hd' hu (Nat.le_refl _)
  refine ⟨n', t', hn', hpc', ?_, ?_, hout'.trans hout.symm⟩
  · rw [htrace', hsame, htrace]
  · rw [hr0, hr0']
    show ρ'.sym .packedIntro + BitVec.ofNat 32 (4 * loaded 32 y.pos) - ρ'.sym .packedIntro =
      ρ.sym .packedIntro + BitVec.ofNat 32 (4 * loaded 32 y.pos) - ρ.sym .packedIntro
    bv_omega

/-- The cartridge that loads the same program to an odd address. -/
def oddRom : Rom :=
  { packedRom with config := { packedRom.config with
      loadAddress := 0x02000001, entry := 0x02000001 } }

/-- The processor at its entry point. -/
def oddStart : Cpu := boot oddRom

/-- There is room for the output. -/
theorem oddStart_prepared : Prepared oddRom oddStart (fun j => byteAndCopy.getD j 0) 1 3 := by
  have hsp : oddStart.sp - 4120 = 0x03006ee8 := by
    rw [oddStart, boot_sp]
    rfl
  have hintro : oddRom.sym .packedIntro = 0x080001a4 := by decide +kernel
  have hload : oddRom.config.loadAddress = 0x02000001 := rfl
  refine ⟨boot_started oddRom, ?_, fun j hj => ?_, fun j hj => ?_⟩
  · rw [hsp]
    exact disjoint_range (by decide) (by decide)
  · obtain rfl : j = 0 := by omega
    decide +kernel
  · obtain rfl : j = 0 := by omega
    rw [hsp, hintro, hload, Set.disjoint_union_right]
    exact ⟨disjoint_range (by decide) (by decide), disjoint_range (by decide) (by decide)⟩

/-- A byte and a copy, at an even and at an odd address. -/
theorem unpacks_anywhere_oddRom : ∃ n t n' t',
    iter (stepToBx packedRom.image) n packedStart = some t ∧
      t.pc = packedRom.sym .donedecompressing ∧ outputFrom 0x02000000 t = [0x5a, 0x5a, 0x5a] ∧
      iter (stepToBx oddRom.image) n' oddStart = some t' ∧
      t'.pc = oddRom.sym .donedecompressing ∧ outputFrom 0x02000001 t' = [0x5a, 0x5a, 0x5a] ∧
      trace (stepToBx oddRom.image) (delivery oddRom) n' oddStart =
        trace (stepToBx packedRom.image) (delivery packedRom) n packedStart := by
  obtain ⟨x, hrun, hdone, hout, hloaded⟩ :=
    packed_reference packedRom.config.loadAddress (.inl rfl)
  have h : Prepared packedRom packedStart (fun j => byteAndCopy.getD j 0) 1
      x.unpacker.out.length := by
    rw [hout]
    exact packedStart_prepared
  have h' : Prepared oddRom oddStart (fun j => byteAndCopy.getD j 0) 1
      x.unpacker.out.length := by
    rw [hout]
    exact oddStart_prepared
  obtain ⟨d, n, t, hn, htrace, hrel, hd, hreads⟩ := h.run hrun (Nat.le_refl _) hloaded.le
  obtain ⟨hpc, -, houtput⟩ := h.output_done hrel hd hdone (Nat.le_refl _)
  obtain ⟨n', t', hn', hpc', htrace', -, hsame⟩ :=
    unpacks_anywhere (fun hdebug => absurd hdebug (by decide)) hn hpc hreads
      (by rw [htrace]; exact (Reference.unpacks hrun).advances) h h'
  have hbytes : outputFrom 0x02000000 t = [0x5a, 0x5a, 0x5a] := houtput.trans hout
  exact ⟨n, t, n', t', hn, hpc, hbytes, hn', hpc', hsame.trans hbytes, htrace'⟩

end ShrinklerGba.Shrinkler
