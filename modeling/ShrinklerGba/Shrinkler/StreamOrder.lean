import ShrinklerGba.Coding.StreamCells
import ShrinklerGba.Shrinkler.GetbitContract
import ShrinklerGba.Shrinkler.RangeInvariant

/-!
# What the order of the input says about the bits

Calls of `getbit` from the decoder's initial state, on an infinite stream of bits, with any rule
that chooses the next context from the bits decoded so far.

* `StreamRun ρ T rule A bits j s`: calls on the stream `A` decode `bits` and lead to `s`; the table
  of probabilities begins at `T`, and `j` words of the stream were loaded.
* `Decodes ρ T rule A bits`: there are such calls.
* **`decodes_iff`**: that is decided by the library's decoder.
* **`getbit_orderReversing`**: every sequence is decoded, from an interval of streams, and where the
  bits of two streams part, the lesser stream decodes to a one.
-/

namespace ShrinklerGba.Shrinkler

open Thumb Transition RangeCoding Bitstream

variable (ρ : Rom) (T : Word) (rule : List Bool → Fin numContexts)

/-! ## Calls on a stream -/

/-- A caller that found the processor in `s` calls `getbit` in `s'`. It leaves the bit buffer alone,
and the next word of the stream is where `inp` points. -/
structure Feeds (A : ℕ → Bool) (j : ℕ) (s s' : Cpu) : Prop where
  /-- The bit buffer is left alone. -/
  bitbuf : s'.r6 = s.r6
  /-- The next word. -/
  word : loadWord s'.mem s'.r0 = ofBits A j
  /-- The frame lies elsewhere. -/
  frame : Disjoint (range (align4 s'.r0) 4) (range (s'.sp - 16) 16)

/-- Calls on a stream, from the decoder's initial state. -/
inductive StreamRun (A : ℕ → Bool) : List Bool → ℕ → Cpu → Prop
  /-- The initial state. -/
  | start {s} (rvalue : s.r4 = 0) (isize : s.r5 = 1) (bitbuf : s.r6 = 0x80000000)
      (probability : ∀ k < numContexts, probability T s.mem k = initOneProb) : StreamRun A [] 0 s
  /-- One more call. -/
  | call {bits j s s' t} : StreamRun A bits j s → Caller ρ T (rule bits) s s' → Feeds A j s s' →
      Returns ρ s' t → StreamRun A (bits ++ [t.c]) (if t.r0 = s'.r0 then j else j + 1) t

/-- Calls on a stream decode bits. -/
def Decodes (A : ℕ → Bool) (bits : List Bool) : Prop := ∃ j s, StreamRun ρ T rule A bits j s

/-! ## The decoder of a stream -/

/-- All streams, in the initial state. -/
def initialCell : Cell (Fin numContexts) := ⟨0, 0, 1, fun _ => initOneProb⟩

theorem initialCell_valid : initialCell.Valid adaptation :=
  ⟨by decide, by decide, by decide,
    fun _ => ⟨show 15 ≤ 0x8000 by decide, show 0x8000 ≤ 0xfff0 by decide⟩⟩

theorem initialCell_holds (A : ℕ → Bool) : initialCell.Holds A :=
  ⟨Nat.zero_le _, show (0 : ℕ) < 0 + 1 by decide⟩

/-- The first bits that the library's decoder decodes, and the decoder after them. -/
def streamDecoded (A : ℕ → Bool) (n : ℕ) : List Bool × Decoder (Fin numContexts) :=
  decoded adaptation rule (initialCell.decoder A) A n

/-- The processor is where the library's decoder is, after `j` words were loaded. -/
structure Follows (A : ℕ → Bool) (d : Decoder (Fin numContexts)) (j : ℕ) (s : Cpu) : Prop where
  /-- The interval. -/
  interval : d.toState = ⟨s.r4.toNat, s.r5.toNat⟩
  /-- The bits that are left of the current word. -/
  bitbuf : s.r6 = bufferAt (ofBits A) d.pos
  /-- The words that were loaded. -/
  loaded_eq : j = loaded 32 d.pos
  /-- The probabilities. -/
  probability : ∀ k : Fin numContexts, d.prob k = probability T s.mem k

variable {ρ T rule} {A : ℕ → Bool} {bits : List Bool} {j : ℕ} {s s' t : Cpu}

theorem StreamRun.reached (h : StreamRun ρ T rule A bits j s) : Reached ρ T s := by
  induction h with
  | start hrvalue hisize _ hprob => exact .start hrvalue hisize hprob
  | call _ hc _ hreturns ih => exact .call ih hc hreturns

/-- A call of `getbit` does what a call of the library's decoder does. -/
theorem Follows.call {d : Decoder (Fin numContexts)} {k : Fin numContexts} (h : Follows T A d j s)
    (hbetween : Between T s) (hc : Caller ρ T k s s') (hfeeds : Feeds A j s s')
    (hreturns : Returns ρ s' t) :
    t.c = (d.decode adaptation A k).1 ∧
      Follows T A (d.decode adaptation A k).2 (if t.r0 = s'.r0 then j else j + 1) t := by
  have hbetween' := hbetween.caller hc
  have hready := hbetween'.ready hc
  obtain ⟨t', g, c, prob, hg⟩ := hready.call
  obtain rfl : t = t' := hreturns.unique hg.toCourse.returns
  have hbits : bitAt (ofBits (w := 32) A) = A := funext fun i => bitAt_ofBits (by decide) A i
  have hd : d.toState = ⟨s'.r4.toNat, s'.r5.toNat⟩ := by
    rw [h.interval, hc.rvalue, hc.isize]
  obtain ⟨hn, hnormalise⟩ := hg.normalise_eq hready hd A
  have hpos : (d.normalise adaptation A 16).pos = d.pos + g.doublings := by
    rw [hnormalise, Decoder.iterate_shift_pos]
  -- At most one word is loaded, and it is the next of the stream.
  have hone : loaded 32 (d.pos + g.doublings) ≤ loaded 32 d.pos + 1 := by
    simp only [loaded]
    omega
  have hmono : loaded 32 d.pos ≤ loaded 32 (d.pos + g.doublings) :=
    loaded_mono (Nat.le_add_right _ _)
  have hreads : c.Reads (ofBits A) s'.r0 d.pos
      (d.normalise adaptation (bitAt (ofBits (w := 32) A)) 16) := by
    refine hg.reads hready hd (hfeeds.bitbuf.trans h.bitbuf) fun i hi => ?_
    rw [hbits, hpos] at hi
    obtain rfl : i = 0 := by omega
    simpa [← h.loaded_eq] using ⟨hfeeds.word, hfeeds.frame⟩
  rw [hbits] at hreads
  have hp : d.prob k = Shrinkler.probability T s'.mem k := by
    rw [h.probability, probability_congr hc.table k.isLt]
  obtain ⟨hcarry, hrvalue, hisize, hprob⟩ := hg.decodes (d := d) (i := k) hp hreads.interval
  have hprob_mem : prob.toNat ≤ 0xfff0 := by
    rw [hprob]
    exact (adaptation.update_mem _ _ hready.probability_mem).2
  obtain ⟨hinp, hbitbuf⟩ := c.decide_reader g.load.mem (T + BitVec.ofNat 32 (2 * k))
  have hr0 : t.r0 = s'.r0 +
      BitVec.ofNat 32 (4 * (loaded 32 (d.pos + g.doublings) - loaded 32 d.pos)) := by
    rw [hg.at_return.inp, hinp, hreads.inp_eq, hpos]
  refine ⟨hcarry, ⟨?_, ?_, ?_, fun i => ?_⟩⟩
  · rw [hrvalue, hisize]
  · rw [hg.at_return.bitbuf, hbitbuf, hreads.bitbuf]
    rfl
  · rw [Decoder.decode_pos, show adaptation.width = 16 from rfl, hpos]
    have hloaded := h.loaded_eq
    obtain hsame | hnext : loaded 32 (d.pos + g.doublings) = loaded 32 d.pos ∨
        loaded 32 (d.pos + g.doublings) = loaded 32 d.pos + 1 := by omega
    · rw [if_pos (by simp [hr0, hsame]), hsame, hloaded]
    · rw [if_neg (by simp [hr0, hnext]), hnext, hloaded]
  · rw [hg.stored hc.context_lt hc.frame hprob_mem i.isLt, hprob, Decoder.decode_prob, hp,
      Function.update_apply, h.probability, probability_congr hc.table i.isLt]
    simp only [Fin.ext_iff]

/-- What holds in the initial state. -/
theorem Follows.start (hrvalue : s.r4 = 0) (hisize : s.r5 = 1) (hbitbuf : s.r6 = 0x80000000)
    (hprob : ∀ k < numContexts, Shrinkler.probability T s.mem k = initOneProb) :
    Follows T A (initialCell.decoder A) 0 s := by
  refine ⟨?_, hbitbuf, show 0 = loaded 32 0 from rfl, fun k => (hprob k k.isLt).symm⟩
  rw [hrvalue, hisize]
  rfl

variable (rule A) in
theorem streamDecoded_succ (n : ℕ) : streamDecoded rule A (n + 1) =
    ((streamDecoded rule A n).1 ++ [((streamDecoded rule A n).2.decode adaptation A
        (rule (streamDecoded rule A n).1)).1],
      ((streamDecoded rule A n).2.decode adaptation A (rule (streamDecoded rule A n).1)).2) := rfl

/-- Calls on a stream decode what the library's decoder does. -/
theorem StreamRun.follows (h : StreamRun ρ T rule A bits j s) :
    bits = (streamDecoded rule A bits.length).1 ∧
      Follows T A (streamDecoded rule A bits.length).2 j s := by
  induction h with
  | start hrvalue hisize hbitbuf hprob => exact ⟨rfl, .start hrvalue hisize hbitbuf hprob⟩
  | call hrun hc hfeeds hreturns ih =>
      obtain ⟨hbits, hfollows⟩ := ih
      obtain ⟨hcarry, hfollows'⟩ := hfollows.call hrun.reached.between hc hfeeds hreturns
      rw [List.length_append, List.length_singleton, streamDecoded_succ, ← hbits, ← hcarry]
      exact ⟨rfl, hfollows'⟩

/-! ## There are calls -/

variable (ρ T A j) in
/-- A caller that has its stack below the table, and the next word above it. -/
def feed (k : ℕ) (s : Cpu) : Cpu :=
  { s with
    r0 := T + 4096
    r7 := BitVec.ofNat 32 k - 5
    sp := T
    pc := ρ.sym .getbit
    thumb := true
    mem := store32 s.mem (T + 4096) (ofBits A j) }

theorem feed_caller (hT : T.toNat % 4 = 0) (k : Fin numContexts) :
    Caller ρ T k s (feed ρ T A j k s) := by
  have hk := k.isLt
  have habove : Disjoint (range T (2 * numContexts)) (range (T + 4096) 4) :=
    disjoint_range (by simp [numContexts]) (by simp)
  have hbelow : Disjoint (range (T - 16) 16) (range T (2 * numContexts)) :=
    disjoint_range (by simp) (by simp [numContexts])
  have hmem : Set.EqOn (store32 s.mem (T + 4096) (ofBits A j)) s.mem (range (T + 4096) 4)ᶜ :=
    store32_eqOn s.mem _ _
  have htable := hmem.mono (Set.subset_compl_iff_disjoint_right.mpr habove)
  constructor
  case thumb => rfl
  case pc => rfl
  case sp => simpa only [feed] using hT
  case rvalue => simp only [feed]
  case isize => simp only [feed]
  case table => simpa only [feed] using htable
  case frame => simpa only [feed] using hbelow
  case context_lt => exact hk
  case context =>
    rw [Coder.slot_eq]
    simp only [feed]
    bv_omega

theorem feed_feeds (hT : T.toNat % 4 = 0) (k : ℕ) : Feeds A j s (feed ρ T A j k s) := by
  have ha : (T + 4096).toNat % 4 = 0 := by bv_omega
  have hword : loadWord (store32 s.mem (T + 4096) (ofBits A j)) (T + 4096) = ofBits A j := by
    rw [loadWord_of_aligned _ ha, load32_store32]
  have hframe : Disjoint (range (align4 (T + 4096)) 4) (range (T - 16) 16) := by
    rw [align4_of_aligned ha]
    exact disjoint_range (by bv_omega) (by bv_omega)
  constructor
  case bitbuf => simp only [feed]
  case word => simpa only [feed] using hword
  case frame => simpa only [feed] using hframe

variable (ρ rule) in
/-- From the initial state, as many calls as one likes. -/
theorem exists_streamRun (hT : T.toNat % 4 = 0) (A : ℕ → Bool) (n : ℕ) :
    ∃ bits j s, bits.length = n ∧ StreamRun ρ T rule A bits j s := by
  induction n with
  | zero => exact ⟨[], 0, firstCall, rfl, .start rfl rfl rfl fun k _ => probability_firstCall hT k⟩
  | succ n ih =>
      obtain ⟨bits, j, s, hlength, hrun⟩ := ih
      have hc := feed_caller (ρ := ρ) (A := A) (j := j) (s := s) hT (rule bits)
      obtain ⟨t, -, hreturns, -⟩ := hrun.reached.between.call hc
      exact ⟨_, _, t, by simp [hlength], hrun.call hc (feed_feeds hT _) hreturns⟩

/-- **What calls decode is what the library's decoder does.** -/
theorem decodes_iff (hT : T.toNat % 4 = 0) :
    Decodes ρ T rule A bits ↔ (cell adaptation rule initialCell bits).Holds A := by
  rw [← decoded_eq_iff initialCell_valid (initialCell_holds A)]
  refine ⟨fun ⟨j, s, hrun⟩ => hrun.follows.1.symm, fun heq => ?_⟩
  obtain ⟨bits', j, s, hlength, hrun⟩ := exists_streamRun ρ rule hT A bits.length
  have hbits := hrun.follows.1
  rw [hlength, streamDecoded, heq] at hbits
  exact ⟨j, s, hbits ▸ hrun⟩

variable (ρ rule) in
/-- **`getbit` is an order-reversing, exhaustive decoder**: a stream decodes to one sequence of each
length, every sequence has a stream, all streams between two of a sequence are streams of that
sequence, and where what two streams decode to parts, the lesser stream decodes to a one. -/
theorem getbit_orderReversing (hT : T.toNat % 4 = 0) :
    (∀ A n, ∃! bits, bits.length = n ∧ Decodes ρ T rule A bits) ∧
      (∀ bits, {A : Lex (ℕ → Bool) | Decodes ρ T rule (ofLex A) bits}.Nonempty ∧
        {A : Lex (ℕ → Bool) | Decodes ρ T rule (ofLex A) bits}.OrdConnected) ∧
      ∀ (A B : Lex (ℕ → Bool)) (bits : List Bool) (bit bit' : Bool), A < B →
        Decodes ρ T rule (ofLex A) (bits ++ [bit]) → Decodes ρ T rule (ofLex B) (bits ++ [bit']) →
          bit ≠ bit' → bit = true ∧ bit' = false := by
  refine ⟨fun A n => ?_, fun bits => ?_, fun A B bits bit bit' hlt hA hB hne => ?_⟩
  · obtain ⟨bits, j, s, hlength, hrun⟩ := exists_streamRun ρ rule hT A n
    refine ⟨bits, ⟨hlength, j, s, hrun⟩, fun bits' ⟨hlength', j', s', hrun'⟩ => ?_⟩
    rw [hrun'.follows.1, hrun.follows.1, hlength, hlength']
  · simp only [decodes_iff hT]
    obtain ⟨A, hA⟩ := cell_nonempty rule initialCell_valid bits
    exact ⟨⟨toLex A, hA⟩, cell_ordConnected _⟩
  · rw [decodes_iff hT] at hA hB
    exact order_reversing hlt hA hB hne

/-- The table may begin at the stack pointer of the first call. -/
theorem getbit_orderReversing_firstCall :
    (∀ A n, ∃! bits, bits.length = n ∧ Decodes ewramRom 0x03006f00 (fun _ => 5) A bits) ∧
      (∀ bits,
        {A : Lex (ℕ → Bool) |
          Decodes ewramRom 0x03006f00 (fun _ => 5) (ofLex A) bits}.Nonempty ∧
        {A : Lex (ℕ → Bool) |
          Decodes ewramRom 0x03006f00 (fun _ => 5) (ofLex A) bits}.OrdConnected) ∧
      ∀ (A B : Lex (ℕ → Bool)) (bits : List Bool) (bit bit' : Bool), A < B →
        Decodes ewramRom 0x03006f00 (fun _ => 5) (ofLex A) (bits ++ [bit]) →
          Decodes ewramRom 0x03006f00 (fun _ => 5) (ofLex B) (bits ++ [bit']) →
            bit ≠ bit' → bit = true ∧ bit' = false :=
  getbit_orderReversing ewramRom (fun _ => 5) (by decide)

end ShrinklerGba.Shrinkler
