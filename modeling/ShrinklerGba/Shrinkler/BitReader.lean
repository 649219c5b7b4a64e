import ShrinklerGba.Coding.Bitstream
import ShrinklerGba.Shrinkler.Getbit

/-!
# The bit reader

How `getbit` reads the compressed program: the code at `readbit`, `newword` and `nonewword`, over
any run of calls by any callers.

* `readerEvent` is what the reader does next: shift `bitbuf`, load a word, shift a bit into
  `rvalue`.
* `ReaderRun ρ words l s`: calls lead to `s`, and the reader did `l`.
* `eventsUpTo ρ words k` is what reading `k` bits of the words should be.
* **`reader_inOrder`**: that is what it is.
-/

namespace ShrinklerGba.Shrinkler

open Thumb Transition Bitstream

/-! ## Runs -/

/-- What the reader does. -/
inductive ReaderEvent
  /-- The buffer is shifted; `inp` is where the next word is. -/
  | shift (bitbuf inp : Word)
  /-- A word is loaded from an address. -/
  | load (address : Word)
  /-- A bit is shifted into `rvalue`. -/
  | bit (b : Bool)

variable (ρ : Rom)

/-- What the next instruction does for the reader. -/
def readerEvent (s : Cpu) : Option ReaderEvent :=
  match ρ.image.fetch s.pc with
  | some (.lsl .r6 .r6 1) => some (.shift s.r6 s.r0)
  | some (.ldr .r6 .r0 0) => some (.load s.r0)
  | some (.adc .r4 .r4) => some (.bit s.c)
  | _ => none

/-- A caller that found the processor in `s` calls `getbit` in `s'`. It has to leave the reader's
registers and the words alone and to have its stack elsewhere. -/
structure ReaderCaller (words : List Word) (s s' : Cpu) : Prop where
  /-- Thumb state. -/
  thumb : s'.thumb = true
  /-- Control is at `getbit`. -/
  pc : s'.pc = ρ.sym .getbit
  /-- The stack pointer is aligned. -/
  sp : s'.sp.toNat % 4 = 0
  /-- Where the next word is. -/
  inp : s'.r0 = s.r0
  /-- The buffer. -/
  bitbuf : s'.r6 = s.r6
  /-- The words are where they should be. -/
  loaded : loadWords s'.mem (ρ.sym .packedIntro) words.length = words
  /-- The frame lies elsewhere. -/
  frame : Disjoint (range (s'.sp - 16) 16) (range (ρ.sym .packedIntro) (4 * words.length))

/-- Calls lead from the reader's initial state to a state between calls; the list is what the reader
did. -/
inductive ReaderRun (words : List Word) : List ReaderEvent → Cpu → Prop
  /-- The initial state. -/
  | start {s} (inp : s.r0 = ρ.sym .packedIntro) (bitbuf : s.r6 = 0x80000000) : ReaderRun words [] s
  /-- One more call: it lasts until a `pop`. -/
  | call {l s s' n u t} : ReaderRun words l s → ReaderCaller ρ words s s' →
      iter (stepInCall ρ) n s' = some u → stepInCall ρ u = none → step ρ.image u = some t →
      ReaderRun words (l ++ trace (stepInCall ρ) (readerEvent ρ) n s') t

/-! ## What reading should be -/

variable (words : List Word)

/-- The words as a sequence. -/
def wordAt (i : ℕ) : Word := words.getD i 0

/-- Where the next word is when `k` bits were read: as few words as possible were loaded. -/
def addressAt (k : ℕ) : Word := ρ.sym .packedIntro + BitVec.ofNat 32 (4 * ((k + 31) / 32))

/-- Reading a bit: the buffer is shifted, a word is loaded if the bit is its first, and the bit is
shifted into `rvalue`. -/
def bitEvents (k : ℕ) : List ReaderEvent :=
  .shift (bufferAt (wordAt words) k) (addressAt ρ k) ::
    ((if k % 32 = 0 then [.load (ρ.sym .packedIntro + BitVec.ofNat 32 (4 * (k / 32)))] else []) ++
      [.bit ((wordAt words (k / 32)).getLsbD (31 - k % 32))])

/-- Reading the first `k` bits. -/
def eventsUpTo (k : ℕ) : List ReaderEvent := (List.range k).flatMap (bitEvents ρ words)

/-- How many words were loaded. -/
def loads (l : List ReaderEvent) : ℕ :=
  l.countP fun
    | .load _ => true
    | _ => false

/-! ## Stages of a call -/

/-- Where control is in a call, at the places where the reader does something. -/
inductive Stage
  /-- At `getbit`. -/
  | call
  /-- At `loop_condition`. -/
  | condition
  /-- At `readbit`. -/
  | shift
  /-- At `newword`. -/
  | load
  /-- At `nonewword`. -/
  | carry
  /-- At the `pop`. -/
  | pop

/-- What the reader does next, when `k` bits were read. -/
def stageEvent : Stage × ℕ → Option ReaderEvent
  | (.shift, k) => some (.shift (bufferAt (wordAt words) k) (addressAt ρ k))
  | (.load, k) => some (.load (ρ.sym .packedIntro + BitVec.ofNat 32 (4 * (k / 32))))
  | (.carry, k) => some (.bit ((wordAt words (k / 32)).getLsbD (31 - k % 32)))
  | _ => none

/-- What the reader did before. -/
def seen : Stage × ℕ → List ReaderEvent
  | (.load, k) =>
      eventsUpTo ρ words k ++ [.shift (bufferAt (wordAt words) k) (addressAt ρ k)]
  | (.carry, k) =>
      eventsUpTo ρ words k ++ .shift (bufferAt (wordAt words) k) (addressAt ρ k) ::
        if k % 32 = 0 then [.load (ρ.sym .packedIntro + BitVec.ofNat 32 (4 * (k / 32)))] else []
  | (_, k) => eventsUpTo ρ words k

/-- From one stage to the next. -/
inductive Next : Stage × ℕ → Stage × ℕ → Prop
  | enter {k} : Next (.call, k) (.condition, k)
  | again {k} : Next (.condition, k) (.shift, k)
  | leave {k} : Next (.condition, k) (.pop, k)
  | empty {k} : k % 32 = 0 → Next (.shift, k) (.load, k)
  | more {k} : k % 32 ≠ 0 → Next (.shift, k) (.carry, k)
  | reload {k} : k % 32 = 0 → Next (.load, k) (.carry, k)
  | next {k} : Next (.carry, k) (.condition, k + 1)

variable {ρ words}

theorem eventsUpTo_succ (k : ℕ) :
    eventsUpTo ρ words (k + 1) = eventsUpTo ρ words k ++ bitEvents ρ words k := by
  simp [eventsUpTo, List.range_succ]

theorem Next.seen_eq {a b : Stage × ℕ} (h : Next a b) :
    seen ρ words b = seen ρ words a ++ (stageEvent ρ words a).toList := by
  cases h with
  | enter => simp [seen, stageEvent]
  | again => simp [seen, stageEvent]
  | leave => simp [seen, stageEvent]
  | empty h => simp [seen, stageEvent]
  | more h => simp [seen, stageEvent, h]
  | reload h => simp [seen, stageEvent, h]
  | next => simp [seen, stageEvent, eventsUpTo_succ, bitEvents]

theorem seen_of_absRun {a b : Stage × ℕ} {l : List ReaderEvent}
    (h : AbsRun Next (stageEvent ρ words) a l b) : seen ρ words b = seen ρ words a ++ l := by
  induction h with
  | refl => simp
  | step _ hnext ih => rw [hnext.seen_eq, ih, List.append_assoc]

theorem loads_append (l l' : List ReaderEvent) : loads (l ++ l') = loads l + loads l' :=
  List.countP_append

/-- As few words as possible are loaded. -/
theorem loads_eventsUpTo (k : ℕ) : loads (eventsUpTo ρ words k) = (k + 31) / 32 := by
  induction k with
  | zero => rfl
  | succ k ih =>
      rw [eventsUpTo_succ, loads_append, ih]
      by_cases h : k % 32 = 0
      · simp [bitEvents, loads, h]
        omega
      · simp [bitEvents, loads, h]
        omega

variable (ρ words) in
/-- What was seen at a stage lies between two full bits. -/
theorem seen_between {x : Stage × ℕ} (h : x.1 = .load → x.2 % 32 = 0) :
    eventsUpTo ρ words x.2 <+: seen ρ words x ∧
      seen ρ words x ++ (stageEvent ρ words x).toList <+: eventsUpTo ρ words (x.2 + 1) := by
  obtain ⟨stage, k⟩ := x
  rw [eventsUpTo_succ]
  cases stage with
  | load => simp [seen, stageEvent, bitEvents, h rfl]
  | _ => simp [seen, stageEvent, bitEvents]

/-! ## The processor at a stage -/

variable (ρ words)

/-- The reader's state when words were loaded for `k` bits. -/
structure Loaded (k : ℕ) (s : Cpu) : Prop where
  /-- Thumb state. -/
  thumb : s.thumb = true
  /-- The stack pointer is aligned. -/
  sp : s.sp.toNat % 4 = 0
  /-- The words. -/
  loaded : loadWords s.mem (ρ.sym .packedIntro) words.length = words
  /-- Where the next word is. -/
  inp : s.r0 = addressAt ρ k

/-- The processor at a stage. -/
def AtStage : Stage × ℕ → Cpu → Prop
  | (.call, k), s =>
      Loaded ρ words k s ∧ s.pc = ρ.sym .getbit ∧ s.r6 = bufferAt (wordAt words) k ∧
        Disjoint (range (s.sp - 16) 16) (range (ρ.sym .packedIntro) (4 * words.length))
  | (.condition, k), s =>
      Loaded ρ words k s ∧ s.pc = ρ.sym .loopCondition ∧ s.r6 = bufferAt (wordAt words) k
  | (.shift, k), s =>
      Loaded ρ words k s ∧ s.pc = ρ.sym .readbit ∧ s.r6 = bufferAt (wordAt words) k
  | (.load, k), s => Loaded ρ words k s ∧ s.pc = ρ.sym .newword ∧ k % 32 = 0
  | (.carry, k), s =>
      Loaded ρ words (k + 1) s ∧ s.pc = ρ.sym .nonewword ∧
        s.r6 = bufferAt (wordAt words) (k + 1) ∧
        s.c = (wordAt words (k / 32)).getLsbD (31 - k % 32)
  | (.pop, k), s =>
      s.thumb = true ∧ s.pc = ρ.addr .done 2 ∧ s.r0 = addressAt ρ k ∧
        s.r6 = bufferAt (wordAt words) k

/-- Whether the reader does something at an instruction, or the call ends there. -/
def isReader : Instr Label → Bool
  | .lsl .r6 .r6 1 | .ldr .r6 .r0 0 | .adc .r4 .r4 | .popPc _ => true
  | _ => false

/-- The reader does nothing next, and the call does not end. -/
def Calm (s : Cpu) : Prop := ∃ i, ρ.image.fetch s.pc = some i ∧ isReader i = false

variable {ρ words} {s t u : Cpu} {k : ℕ}

theorem Calm.event (h : Calm ρ s) : readerEvent ρ s = none := by
  obtain ⟨i, hi, hcalm⟩ := h
  unfold readerEvent
  rw [hi]
  split <;> first | rfl | (rename_i heq; cases heq; cases hcalm)

/-- A block that ends the call nowhere is a segment of it. -/
theorem Rom.Executes.inCall {R : Region} {is : List (Instr Label)} (h : ρ.Executes R is s t)
    (hpop : ∀ i ∈ is.head?, ∀ rs, i ≠ .popPc rs) (hcalm : ∀ j ∈ is.tail, isReader j = false) :
    ∃ n, Segment (stepInCall ρ) (Calm ρ) n s t := by
  refine h.segment (fun j hj u hu hexec => ?_) fun j hj u hu => ⟨j, hu, hcalm j hj⟩
  have hnot : ∀ rs, j ≠ .popPc rs := by
    rintro rs rfl
    obtain ⟨i, is, rfl⟩ := List.exists_cons_of_ne_nil h.nonempty
    rcases List.mem_cons.mp hj with rfl | hj
    · exact hpop _ rfl rs rfl
    · cases hcalm _ hj
  rw [stepInCall_of_fetch hu hnot, hexec]

/-! ## From one stage to the next -/

/-- A segment of a call. -/
def Rom.Reads (ρ : Rom) (s t : Cpu) : Prop := ∃ n, Segment (stepInCall ρ) (Calm ρ) n s t

theorem Rom.Reads.trans (h₁ : ρ.Reads s u) (hu : Calm ρ u) (h₂ : ρ.Reads u t) : ρ.Reads s t := by
  obtain ⟨_, h₁⟩ := h₁
  obtain ⟨_, h₂⟩ := h₂
  exact ⟨_, h₁.trans hu h₂⟩

theorem Rom.Block.calm {R : Region} {a : Word} {i : Instr Label} {is : List (Instr Label)}
    (hb : ρ.Block R a (i :: is)) (hi : isReader i = false) (hpc : s.pc = a) : Calm ρ s :=
  ⟨i, hpc ▸ hb.fetch.1, hi⟩

theorem Rom.Executes.calm {R : Region} {i : Instr Label} {is : List (Instr Label)}
    (h : ρ.Executes R (i :: is) s t) (hi : isReader i = false) : Calm ρ s := h.block.calm hi rfl

/-- The carry after a bit is shifted out. -/
theorem bitAt_wordAt (k : ℕ) :
    bitAt (wordAt words) k = (wordAt words (k / 32)).getLsbD (31 - k % 32) := by
  have hlt : k % 32 < 32 := Nat.mod_lt k (by decide)
  simp [bitAt, BitVec.getMsbD, hlt]

theorem AtStage.call (h : AtStage ρ words (.call, k) s) :
    ∃ t, ρ.Reads s t ∧ AtStage ρ words (.condition, k) t := by
  obtain ⟨⟨ht, hsp, hloaded, hinp⟩, hpc, hbuf, hframe⟩ := h
  have halign : align4 (s.sp - 16) = s.sp - 16 := align4_of_aligned (by bv_omega)
  have hexec := executes_call ht hpc
  rw [halign] at hexec
  refine ⟨_, hexec.inCall (by simp) (by simp [isReader]), ⟨ht, ?_, ?_, hinp⟩, rfl, hbuf⟩
  · show (s.sp - 16).toNat % 4 = 0
    bv_omega
  · show loadWords (storeWords s.mem (s.sp - 16) [s.r1, s.r2, s.r3, s.lr]) _ _ = words
    rw [loadWords_congr ((storeWords_eqOn s.mem (s.sp - 16) (by simp)).mono
      (Set.subset_compl_iff_disjoint_left.mpr hframe)), hloaded]

/-- The loop goes on. -/
theorem AtStage.again (h : AtStage ρ words (.condition, k) s) (hn : s.r5.getLsbD 15 = false) :
    ∃ t, ρ.Reads s t ∧ AtStage ρ words (.shift, k) t := by
  obtain ⟨⟨ht, hsp, hloaded, hinp⟩, hpc, hbuf⟩ := h
  obtain ⟨x, n, z, v, hexec⟩ := executes_again ht hpc hn
  exact ⟨_, hexec.inCall (by cases hc : ρ.config.codeInHeader <;> simp [dummyGameVersion, hc])
    (by cases hc : ρ.config.codeInHeader <;> simp [dummyGameVersion, hc, isReader]),
    ⟨ht, hsp, hloaded, hinp⟩, rfl, hbuf⟩

/-- The probability is loaded, and the bit is decided. -/
theorem reads_decide (ht : s.thumb = true) (hpc : s.pc = ρ.loadAddr)
    (heven : (s.r2 + BitVec.ofNat 32 ctxTableOffset).toNat % 2 = 0) :
    ∃ t, ρ.Reads s t ∧ t.thumb = true ∧ t.pc = ρ.sym .done ∧ t.r0 = s.r0 ∧ t.r2 = s.r2 ∧
      t.r6 = s.r6 := by
  obtain ⟨n, z, c, v, hload⟩ := executes_threshold ht hpc rfl heven rfl
  generalize hs : ({ s with
    r1 := ((load16 s.mem (s.r2 + BitVec.ofNat 32 ctxTableOffset)).setWidth 32 * s.r5) >>> 16
    r3 := (load16 s.mem (s.r2 + BitVec.ofNat 32 ctxTableOffset)).setWidth 32 -
      (load16 s.mem (s.r2 + BitVec.ofNat 32 ctxTableOffset)).setWidth 32 >>> adjustShift
    r7 := (load16 s.mem (s.r2 + BitVec.ofNat 32 ctxTableOffset)).setWidth 32 >>> adjustShift
    pc := ρ.compareAddr, n := n, z := z, c := c, v := v } : Cpu) = u at hload
  have hu : u.thumb = true ∧ u.pc = ρ.compareAddr ∧ u.r0 = s.r0 ∧ u.r2 = s.r2 ∧ u.r6 = s.r6 := by
    subst hs
    exact ⟨ht, rfl, rfl, rfl, rfl⟩
  obtain ⟨hut, hupc, hu0, hu2, hu6⟩ := hu
  have hreads : ρ.Reads s u := hload.inCall (by simp) (by simp [isReader])
  cases hcmp : carrySub u.r4 u.r1 with
  | true =>
      obtain ⟨n', z', v', hzero⟩ := executes_zero hut hupc hcmp
      exact ⟨_, hreads.trans (hzero.calm rfl) (hzero.inCall (by simp) (by simp [isReader])), hut,
        rfl, hu0, hu2, hu6⟩
  | false =>
      obtain ⟨n', z', v', hbelow⟩ := executes_below hut hupc hcmp
      obtain ⟨n'', z'', v'', hrestore⟩ := executes_restore (ρ := ρ) (s := { u with
        r4 := u.r4 - u.r1, pc := ρ.sym .one, n := n', z := z', c := false, v := v' }) hut rfl
      have hone := hreads.trans (hbelow.calm rfl) (hbelow.inCall (by simp) (by simp [isReader]))
      exact ⟨_, hone.trans (hrestore.calm rfl) (hrestore.inCall (by simp) (by simp [isReader])),
        hut, rfl, hu0, hu2, hu6⟩

/-- The loop is left: nothing is read until the call ends. -/
theorem AtStage.leave (h : AtStage ρ words (.condition, k) s) (hn : s.r5.getLsbD 15 = true) :
    ∃ t, ρ.Reads s t ∧ AtStage ρ words (.pop, k) t := by
  obtain ⟨⟨ht, hsp, -, hinp⟩, hpc, hbuf⟩ := h
  obtain ⟨n, z, c, v, hload⟩ := executes_load ht hpc hn
  have heven : (s.r7 + s.r7 + s.sp + BitVec.ofNat 32 ctxTableOffset).toNat % 2 = 0 := by
    simp only [ctxTableOffset, singleBitContexts, List.length_cons, List.length_nil]
    bv_omega
  obtain ⟨u, hdecide, hut, hupc, hu0, hu2, hu6⟩ := reads_decide (ρ := ρ) (s := { s with
    r2 := s.r7 + s.r7 + s.sp, pc := ρ.loadAddr, n := n, z := z, c := c, v := v }) ht rfl heven
  have hslot : u.r2 + BitVec.ofNat 32 ctxTableOffset =
      s.r7 + s.r7 + s.sp + BitVec.ofNat 32 ctxTableOffset := by rw [hu2]
  have hstore := executes_store hut hupc hslot heven
  have hreads : ρ.Reads s _ := hload.inCall
    (by cases hc : ρ.config.codeInHeader <;> simp [dummyGameVersion, hc])
    (by cases hc : ρ.config.codeInHeader <;> simp [dummyGameVersion, hc, isReader])
  have hdone := (hreads.trans (ρ.block_load.calm rfl rfl) hdecide).trans (hstore.calm rfl)
    (hstore.inCall (by simp) (by simp))
  exact ⟨_, hdone, hut, rfl, hu0.trans hinp, hu6.trans hbuf⟩

/-- The buffer is shifted: the next bit is in the carry, or the buffer is empty. -/
theorem AtStage.shift (h : AtStage ρ words (.shift, k) s) :
    ∃ t, ρ.Reads s t ∧ AtStage ρ words (if k % 32 = 0 then .load else .carry, k) t := by
  obtain ⟨⟨ht, hsp, hloaded, hinp⟩, hpc, hbuf⟩ := h
  obtain ⟨n, z, v, hexec⟩ := executes_readbit ht hpc
  refine ⟨_, hexec.inCall (by simp) (by simp [isReader]), ?_⟩
  rw [hbuf]
  by_cases hk : k % 32 = 0
  · have hempty := (shl_bufferAt_eq_zero_iff (wordAt words) (by decide : 0 < 32)).mpr hk
    rw [if_pos hk, if_pos hempty]
    exact ⟨⟨ht, hsp, hloaded, hinp⟩, rfl, hk⟩
  · have hmore := mt (shl_bufferAt_eq_zero_iff (wordAt words) (by decide : 0 < 32)).mp hk
    obtain ⟨hbit, hshift⟩ := shl_bufferAt (wordAt words) (by decide : 0 < 32) hk
    rw [if_neg hk, if_neg hmore]
    refine ⟨⟨ht, hsp, hloaded, ?_⟩, rfl, hshift, ?_⟩
    · rw [addressAt, show (k + 1 + 31) / 32 = (k + 31) / 32 by omega]
      exact hinp
    · rw [BitVec.msb_eq_getLsbD_last, bitAt_wordAt] at hbit
      exact hbit

/-- The next word is loaded. If it is one of the list, its first bit is in the carry. -/
theorem AtStage.load (h : AtStage ρ words (.load, k) s) :
    ∃ t, ρ.Reads s t ∧ (k / 32 < words.length → AtStage ρ words (.carry, k) t) := by
  obtain ⟨⟨ht, hsp, hloaded, hinp⟩, hpc, hmod⟩ := h
  have haddr : s.r0 = ρ.sym .packedIntro + BitVec.ofNat 32 (4 * (k / 32)) := by
    rw [hinp, addressAt, show (k + 31) / 32 = k / 32 by omega]
  obtain ⟨n, z, v, hexec⟩ := executes_newword ht hpc rfl
  refine ⟨_, hexec.inCall (by cases hc : ρ.config.codeInHeader <;> simp [dummyFixedByte, hc])
    (by cases hc : ρ.config.codeInHeader <;> simp [dummyFixedByte, hc, isReader]), fun hk => ?_⟩
  have hword : loadWord s.mem s.r0 = wordAt words (k / 32) := by
    have haligned := ρ.packedIntro_aligned
    rw [loadWord_of_aligned _ (by rw [haddr]; bv_omega), haddr]
    exact load32_of_loadWords hloaded hk
  obtain ⟨hbit, hreload⟩ := reload (wordAt words) (by decide : 0 < 32) hmod hword.symm
  refine ⟨⟨ht, hsp, hloaded, ?_⟩, rfl, hreload, ?_⟩
  · show s.r0 + 4 = _
    rw [haddr, addressAt, show (k + 1 + 31) / 32 = k / 32 + 1 by omega, Nat.mul_add,
      BitVec.ofNat_add, BitVec.add_assoc]
    rfl
  · show carryAdd _ _ false = _
    rw [carryAdd_self, hbit, bitAt_wordAt]

/-- The bit is shifted into the value. -/
theorem AtStage.carry (h : AtStage ρ words (.carry, k) s) :
    ∃ t, ρ.Reads s t ∧ AtStage ρ words (.condition, k + 1) t := by
  obtain ⟨⟨ht, hsp, hloaded, hinp⟩, hpc, hbuf, -⟩ := h
  obtain ⟨n, z, c, v, hexec⟩ := executes_nonewword ht hpc
  exact ⟨_, hexec.inCall (by simp) (by simp [isReader]), ⟨ht, hsp, hloaded, hinp⟩, rfl, hbuf⟩

/-- **From one stage to the next**: as the reader should, as long as only words of the list are
loaded. -/
theorem AtStage.next {x : Stage × ℕ} (h : AtStage ρ words x s) :
    x.1 = .pop ∧ stepInCall ρ s = none ∨ ∃ y n t, Next x y ∧ Segment (stepInCall ρ) (Calm ρ) n s t ∧
      (loads (seen ρ words y) ≤ words.length → AtStage ρ words y t) := by
  obtain ⟨stage, k⟩ := x
  cases stage with
  | call =>
      obtain ⟨t, ⟨n, hseg⟩, ht⟩ := h.call
      exact .inr ⟨_, n, t, .enter, hseg, fun _ => ht⟩
  | condition =>
      cases hn : s.r5.getLsbD 15 with
      | false =>
          obtain ⟨t, ⟨n, hseg⟩, ht⟩ := h.again hn
          exact .inr ⟨_, n, t, .again, hseg, fun _ => ht⟩
      | true =>
          obtain ⟨t, ⟨n, hseg⟩, ht⟩ := h.leave hn
          exact .inr ⟨_, n, t, .leave, hseg, fun _ => ht⟩
  | shift =>
      obtain ⟨t, ⟨n, hseg⟩, ht⟩ := h.shift
      by_cases hk : k % 32 = 0
      · rw [if_pos hk] at ht
        exact .inr ⟨_, n, t, .empty hk, hseg, fun _ => ht⟩
      · rw [if_neg hk] at ht
        exact .inr ⟨_, n, t, .more hk, hseg, fun _ => ht⟩
  | load =>
      have hk : k % 32 = 0 := h.2.2
      obtain ⟨t, ⟨n, hseg⟩, ht⟩ := h.load
      refine .inr ⟨_, n, t, .reload hk, hseg, fun hloads => ht ?_⟩
      rw [(Next.reload hk).seen_eq, (Next.empty hk).seen_eq] at hloads
      simp only [loads_append, seen, loads_eventsUpTo, stageEvent] at hloads
      have hone : loads (Option.toList (some (ReaderEvent.load
          (ρ.sym .packedIntro + BitVec.ofNat 32 (4 * (k / 32)))))) = 1 := rfl
      omega
  | carry =>
      obtain ⟨t, ⟨n, hseg⟩, ht⟩ := h.carry
      exact .inr ⟨_, n, t, .next, hseg, fun _ => ht⟩
  | pop =>
      refine .inl ⟨rfl, ?_⟩
      rw [stepInCall, h.2.1, ρ.block_popGetbit.fetch.1]

theorem AtStage.load_mod {x : Stage × ℕ} (h : AtStage ρ words x s) :
    x.1 = .load → x.2 % 32 = 0 := by
  obtain ⟨stage, k⟩ := x
  rintro rfl
  exact h.2.2

/-- What is observed at a stage. -/
theorem AtStage.event {x : Stage × ℕ} (h : AtStage ρ words x s) :
    readerEvent ρ s = stageEvent ρ words x := by
  obtain ⟨stage, k⟩ := x
  cases stage with
  | call => exact (ρ.block_getbit.calm rfl (by simpa using h.2.1)).event
  | condition =>
      have hb := ρ.block_loopCondition
      cases hc : ρ.config.codeInHeader <;> simp only [dummyGameVersion, hc] at hb
      · exact (hb.calm rfl (by simpa using h.2.1)).event
      · exact (hb.calm rfl (by simpa using h.2.1)).event
  | shift =>
      have hf := ρ.block_readbit.fetch.1
      rw [ρ.addr_zero, ← h.2.1] at hf
      rw [readerEvent, hf, stageEvent, ← h.2.2, ← h.1.inp]
      rfl
  | load =>
      have hf := ρ.block_newword.fetch.1
      have hk : k % 32 = 0 := h.2.2
      have hinp := h.1.inp
      rw [addressAt, show (k + 31) / 32 = k / 32 by omega] at hinp
      rw [ρ.addr_zero, ← h.2.1] at hf
      rw [readerEvent, hf, stageEvent, ← hinp]
      rfl
  | carry =>
      have hf := ρ.block_nonewword.fetch.1
      rw [ρ.addr_zero, ← h.2.1] at hf
      rw [readerEvent, hf, stageEvent, ← h.2.2.2]
  | pop =>
      rw [readerEvent, h.2.1, ρ.block_popGetbit.fetch.1]
      rfl

/-! ## The reader in order -/

/-- **What a call does, step by step**: every state is at a stage or past one, and what the reader
did is what was to be seen there. -/
theorem AtStage.run {k₀ n : ℕ} (h : AtStage ρ words (.call, k₀) s)
    (hu : iter (stepInCall ρ) n s = some u) {l : List ReaderEvent}
    (hl : eventsUpTo ρ words k₀ ++ trace (stepInCall ρ) (readerEvent ρ) n s = l)
    (hloads : loads l ≤ words.length) :
    ∃ x v, AtStage ρ words x v ∧ (v = u ∧ l = seen ρ words x ∨
      Calm ρ u ∧ l = seen ρ words x ++ (stageEvent ρ words x).toList) := by
  subst hl
  have hreach := reach (f := stepInCall ρ) (R := AtStage ρ words) (A := Next)
    (P := fun _ v => Calm ρ v) (C := fun l _ => loads (eventsUpTo ρ words k₀ ++ l) ≤ words.length)
    (fun _ _ hx => hx.event) (fun _ _ hv => hv.event)
    (fun x l v hl hx _ => ?_) h hu fun j hj v hv => ?_
  · obtain ⟨x, l, hl, hx⟩ := hreach
    have hseen := seen_of_absRun hl
    rcases hx with ⟨hx, htrace⟩ | ⟨v, hv, hcalm, htrace⟩
    · exact ⟨x, u, hx, .inl ⟨rfl, by rw [htrace, hseen]; rfl⟩⟩
    · refine ⟨x, v, hv, .inr ⟨hcalm, ?_⟩⟩
      rw [htrace, hseen, List.append_assoc]
      rfl
  · rcases hx.next with ⟨-, hnone⟩ | ⟨y, m, t, hy, hseg, ht⟩
    · exact .inl hnone
    · refine .inr ⟨y, m, t, hy, hseg, fun hC => ht ?_⟩
      rw [hy.seen_eq, seen_of_absRun hl, List.append_assoc]
      exact hC
  · -- The promise was kept all along: words are only ever added.
    obtain ⟨i, rfl⟩ := Nat.exists_eq_add_of_le hj
    rw [trace_add _ _ hv, ← List.append_assoc, loads_append] at hloads
    exact Nat.le_trans (Nat.le_add_right _ _) hloads

/-- A call ends at the `pop`, after whole bits. -/
theorem AtStage.returns {k₀ n : ℕ} (h : AtStage ρ words (.call, k₀) s)
    (hu : iter (stepInCall ρ) n s = some u) (hend : stepInCall ρ u = none)
    (ht : step ρ.image u = some t) {l : List ReaderEvent}
    (hl : eventsUpTo ρ words k₀ ++ trace (stepInCall ρ) (readerEvent ρ) n s = l)
    (hloads : loads l ≤ words.length) :
    ∃ k, l = eventsUpTo ρ words k ∧ t.r0 = addressAt ρ k ∧ t.r6 = bufferAt (wordAt words) k := by
  obtain ⟨⟨stage, k⟩, v, hx, ⟨rfl, hseen⟩ | ⟨⟨i, hi, hcalm⟩, -⟩⟩ := h.run hu hl hloads
  · rcases hx.next with ⟨hstage, -⟩ | ⟨y, m, w, -, hseg, -⟩
    · obtain rfl : stage = .pop := hstage
      obtain ⟨hthumb, hpc, hinp, hbuf⟩ := hx
      have hf := ρ.block_popGetbit.fetch.1
      rw [← hpc] at hf
      rw [step_of_fetch hf rfl hthumb] at ht
      cases ht
      exact ⟨k, hseen, hinp, hbuf⟩
    · obtain ⟨w', hw', -⟩ := (iter_succ_eq_some _).mp hseg.iter_eq
      rw [hend] at hw'
      cases hw'
  · -- Past a stage, the call does not end.
    have hne : ∀ rs, i ≠ .popPc rs := by
      rintro rs rfl
      cases hcalm
    rw [stepInCall_of_fetch hi hne, ht] at hend
    cases hend

/-- A caller finds the reader as the last call left it. -/
theorem ReaderCaller.atStage {s' : Cpu} (hc : ReaderCaller ρ words s s')
    (hinp : s.r0 = addressAt ρ k) (hbuf : s.r6 = bufferAt (wordAt words) k) :
    AtStage ρ words (.call, k) s' :=
  ⟨⟨hc.thumb, hc.sp, hc.loaded, hc.inp.trans hinp⟩, hc.pc, hc.bitbuf.trans hbuf, hc.frame⟩

/-- Between calls, whole bits were read. -/
theorem ReaderRun.between {l : List ReaderEvent} (h : ReaderRun ρ words l s)
    (hloads : loads l ≤ words.length) :
    ∃ k, l = eventsUpTo ρ words k ∧ s.r0 = addressAt ρ k ∧ s.r6 = bufferAt (wordAt words) k := by
  induction h with
  | start hinp hbuf => exact ⟨0, rfl, by simpa [addressAt] using hinp, hbuf⟩
  | call _ hc hu hend ht ih =>
      rw [loads_append] at hloads
      obtain ⟨k, rfl, hinp, hbuf⟩ := ih (by omega)
      exact (hc.atStage hinp hbuf).returns hu hend ht rfl (by rwa [loads_append])

/-- **The reader delivers the bits of the words once and in order**, over any run of calls. Between
calls, whole bits were read, and the registers are those for that many bits. Within a call, what the
reader did ends within a bit. What is shifted is never zero. -/
theorem reader_inOrder {l : List ReaderEvent} (h : ReaderRun ρ words l s) :
    (loads l ≤ words.length → ∃ k, l = eventsUpTo ρ words k ∧ s.r0 = addressAt ρ k ∧
      s.r6 = bufferAt (wordAt words) k) ∧
    (∀ s' n u, ReaderCaller ρ words s s' → iter (stepInCall ρ) n s' = some u →
      loads (l ++ trace (stepInCall ρ) (readerEvent ρ) n s') ≤ words.length →
      ∃ k, eventsUpTo ρ words k <+: l ++ trace (stepInCall ρ) (readerEvent ρ) n s' ∧
        l ++ trace (stepInCall ρ) (readerEvent ρ) n s' <+: eventsUpTo ρ words (k + 1)) ∧
    ∀ k, bufferAt (wordAt words) k ≠ 0 := by
  refine ⟨h.between, fun s' n u hc hu hloads => ?_, fun k => bufferAt_ne_zero _ (by decide)⟩
  have hbefore := hloads
  rw [loads_append] at hbefore
  obtain ⟨k₀, rfl, hinp, hbuf⟩ := h.between (by omega)
  obtain ⟨x, v, hx, hseen⟩ := (hc.atStage hinp hbuf).run hu rfl hloads
  obtain ⟨hle, hlt⟩ := seen_between ρ words hx.load_mod
  refine ⟨x.2, ?_⟩
  rcases hseen with ⟨-, hseen⟩ | ⟨-, hseen⟩
  · rw [hseen]
    exact ⟨hle, (List.prefix_append _ _).trans hlt⟩
  · rw [hseen]
    exact ⟨hle.trans (List.prefix_append _ _), hlt⟩

/-- A zero word and another. -/
def readerWords : List Word := [0, 0xdeadbeef]

/-- The words are behind the depacker, and all probabilities are 0x8000. -/
def readerMemory : Mem := fun a =>
  let k := (a - ewramRom.sym .packedIntro).toNat
  if k < 4 then 0
  else if k < 8 then (0xdeadbeef : Word).extractLsb' (8 * (k - 4)) 8
  else if k % 2 = 0 then 0 else 0x80

/-- The reader is in its initial state. -/
def readerStart : Cpu where
  r0 := ewramRom.sym .packedIntro
  r1 := 0; r2 := 0; r3 := 0; r4 := 0; r5 := 0; r6 := 0x80000000; r7 := 0; r8 := 0; r9 := 0
  r10 := 0; r11 := 0; r12 := 0; sp := 0x03006000; lr := 0x08000100; pc := 0x08000100
  n := false; z := false; c := false; v := false; thumb := true
  mem := readerMemory

/-- A caller with an interval of one, which `getbit` shifts 15 bits in for. -/
def callReader (s : Cpu) : Cpu := { s with pc := ewramRom.sym .getbit, r5 := 1 }

/-- Calls that take so many steps, and what the reader does in them. -/
def readerCalls : List ℕ → Cpu → Option (List ReaderEvent × Cpu)
  | [], s => some ([], s)
  | n :: ns, s => do
      guard (s.thumb = true ∧ s.sp = 0x03006000 ∧
        loadWords s.mem (ewramRom.sym .packedIntro) readerWords.length = readerWords)
      let u ← iter (stepInCall ewramRom) n (callReader s)
      guard (stepInCall ewramRom u).isNone
      let t ← step ewramRom.image u
      let (l, v) ← readerCalls ns t
      return (trace (stepInCall ewramRom) (readerEvent ewramRom) n (callReader s) ++ l, v)

theorem readerRun_of_calls {ns : List ℕ} {l l' : List ReaderEvent} {s t : Cpu}
    (h : ReaderRun ewramRom readerWords l s) (hcalls : readerCalls ns s = some (l', t)) :
    ReaderRun ewramRom readerWords (l ++ l') t := by
  induction ns generalizing l l' s with
  | nil =>
      cases hcalls
      rwa [List.append_nil]
  | cons n ns ih =>
      simp only [readerCalls, Option.bind_eq_bind, Option.bind_eq_some_iff, Option.guard_eq_some',
        Option.pure_def, Option.some.injEq] at hcalls
      obtain ⟨-, ⟨hthumb, hsp, hloaded⟩, u, hu, -, hend, v, hv, ⟨l'', w⟩, hrest, heq⟩ := hcalls
      cases heq
      have hcaller : ReaderCaller ewramRom readerWords s (callReader s) := by
        refine ⟨hthumb, rfl, ?_, rfl, rfl, hloaded, ?_⟩
        · show s.sp.toNat % 4 = 0
          rw [hsp]
          decide
        · show Disjoint (range (s.sp - 16) 16) _
          rw [hsp]
          exact disjoint_range (by decide +kernel) (by decide +kernel)
      rw [← List.append_assoc]
      exact ih (h.call hcaller hu (Option.isNone_iff_eq_none.mp hend) hv) hrest

/-- Three calls read 45 bits: a zero word, and part of the next one. -/
theorem reader_inOrder_threeCalls : ∃ l s, ReaderRun ewramRom readerWords l s ∧
    loads l = 2 ∧ s.r0 = ewramRom.sym .packedIntro + 8 ∧
    ∃ k, 32 < k ∧ l = eventsUpTo ewramRom readerWords k ∧ s.r0 = addressAt ewramRom k ∧
      s.r6 = bufferAt (wordAt readerWords) k := by
  have hsome : (readerCalls [131, 125, 131] readerStart).map (fun p => (loads p.1, p.2.r0)) =
      some (2, ewramRom.sym .packedIntro + 8) := by decide +kernel
  obtain ⟨⟨l, s⟩, hcalls, heq⟩ := Option.map_eq_some_iff.mp hsome
  obtain ⟨hloads, hinp⟩ := Prod.mk.inj heq
  have hstart : ReaderRun ewramRom readerWords [] readerStart := .start rfl rfl
  have hrun := readerRun_of_calls hstart hcalls
  rw [List.nil_append] at hrun
  obtain ⟨k, hl, haddress, hbuffer⟩ := (reader_inOrder hrun).1 (by rw [hloads]; decide)
  have hk : loads l = (k + 31) / 32 := by rw [hl, loads_eventsUpTo]
  have hloads : loads l = 2 := hloads
  exact ⟨l, s, hrun, hloads, hinp, k, by omega, hl, haddress, hbuffer⟩

end ShrinklerGba.Shrinkler
