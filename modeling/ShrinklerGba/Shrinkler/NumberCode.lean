import ShrinklerGba.Coding.GammaCode
import ShrinklerGba.Shrinkler.GetbitContract
import ShrinklerGba.Shrinkler.Getnumber

/-!
# The code that `getnumber` decodes

`getnumber` with its calls of `getbit` answered from a list of bits, whatever else `getbit` does
within its contract.

* `Yields b s t`: a call of `getbit` in `s` yields `b` and returns in `t`.
* `GetsNumber ρ getbit s calls t`: `getnumber`, called in `s`, makes these calls, and no others, and
  returns in `t`. The list holds the context and the bit of each.
* `numberCalls base n` are the calls that should read `n`: the bits are those of `GammaCode.word n`.
* **`getnumber_code`**: they do, and nothing else with at most 31 unary bits reads it.
-/

namespace ShrinklerGba.Shrinkler

open Thumb Transition

/-! ## Calls -/

/-- A call of `getbit` in `s` yields `bit` and returns in `t`, within the contract. -/
structure Yields (bit : Bool) (s t : Cpu) : Prop extends Kept s t where
  /-- Back at the caller. -/
  pc : t.pc = s.lr &&& ~~~1
  /-- The bit is in the carry. -/
  carry : t.c = bit
  /-- Only the probability and the frame are written. -/
  mem : Set.EqOn t.mem s.mem (range (Coder.slot s.sp s.r7) 2 ∪ range (s.sp - 16) 16)ᶜ

/-- Calls of `getbit` do yield bits. -/
theorem Ready.yields {ρ : Rom} {slot : Word} {p : ℕ} {s : Cpu} (h : Ready ρ slot p s) :
    ∃ b t, Returns ρ s t ∧ Yields b s t := by
  obtain ⟨t, g, c, prob, hg⟩ := h.call
  refine ⟨_, t, hg.toCourse.returns, hg.kept h.thumb, hg.at_return.at_phase.1,
    hg.at_return.at_phase.2.2, ?_⟩
  rw [h.context]
  exact hg.mem_eqOn

variable (ρ : Rom) (getbit : Bool → Cpu → Cpu)

/-- Run to the end of a call, with the calls of `getbit` answered from a list. -/
def stepCalls (x : Cpu × List Bool) : Option (Cpu × List Bool) :=
  if x.1.pc = ρ.sym .getbit then
    match x.2 with
    | [] => none
    | b :: bs => some (getbit b x.1, bs)
  else (stepInCall ρ x.1).map fun t => (t, x.2)

/-- The context and the bit of a call of `getbit`. -/
def callOf (x : Cpu × List Bool) : Option (Word × Bool) :=
  if x.1.pc = ρ.sym .getbit then x.2.head?.map fun b => (x.1.r7, b) else none

/-- `getnumber`, called in `s`, makes these calls of `getbit` and returns in `t`. -/
def GetsNumber (s : Cpu) (calls : List (Word × Bool)) (t : Cpu) : Prop :=
  ∃ n u, iter (stepCalls ρ getbit) n (s, calls.map Prod.snd) = some (u, []) ∧
    trace (stepCalls ρ getbit) (callOf ρ) n (s, calls.map Prod.snd) = calls ∧
    ¬NoPop ρ u ∧ step ρ.image u = some t

/-! ## The calls that read a number -/

section contexts

variable (base : Word)

/-- The contexts of the unary bits: up by two. -/
def unaryContexts (k : ℕ) : List Word :=
  (List.range k).map fun i => base + BitVec.ofNat 32 (2 * (i + 1))

/-- The contexts of the digits: down by two. -/
def digitContexts (k : ℕ) : List Word :=
  (List.range k).reverse.map fun i => base + BitVec.ofNat 32 (2 * i + 1)

/-- The calls that read `k` unary bits and the digits. -/
def callsOf (k : ℕ) (bits : List Bool) : List (Word × Bool) :=
  (unaryContexts base k ++ digitContexts base k).zip bits

/-- The calls that read a number. -/
def numberCalls (n : ℕ) : List (Word × Bool) := callsOf base n.log2 (GammaCode.word n)

end contexts

/-- How many unary bits a sequence begins with: ones and a zero. -/
def unaryBits (bs : List Bool) : ℕ := (bs.takeWhile id).length + 1

/-- The bits of a number with these digits. -/
def bitsOf (ds : List Bool) : List Bool := List.replicate (ds.length - 1) true ++ false :: ds

theorem numberCalls_value (base : Word) (ds : List Bool) :
    numberCalls base (GammaCode.value ds) = callsOf base ds.length (bitsOf ds) := by
  rw [numberCalls, GammaCode.log2_value, GammaCode.word_value, bitsOf]

theorem unaryBits_bitsOf {ds : List Bool} (h : ds ≠ []) : unaryBits (bitsOf ds) = ds.length := by
  have hlen : 0 < ds.length := List.length_pos_iff.mpr h
  rw [unaryBits, bitsOf, List.takeWhile_append_of_pos (by simp)]
  simp
  omega

/-! ## Stages -/

/-- Where control is, at the places where `getbit` is called. -/
inductive NumberStage
  /-- At `getnumber`. -/
  | enter
  /-- In the first loop, after some ones. -/
  | unary (i : ℕ)
  /-- In the second loop, after some of `k` digits. -/
  | digit (k : ℕ) (ds : List Bool)
  /-- At the `pop`. -/
  | pop (ds : List Bool)

namespace NumberStage

/-- From one call to the next. -/
def next : NumberStage × List Bool → Option (NumberStage × List Bool)
  | (.enter, bs) => some (.unary 0, bs)
  | (.unary i, true :: bs) => some (.unary (i + 1), bs)
  | (.unary i, false :: bs) => some (.digit (i + 1) [], bs)
  | (.digit k ds, b :: bs) =>
      some (if ds.length + 1 < k then .digit k (ds ++ [b]) else .pop (ds ++ [b]), bs)
  | _ => none

variable (base : Word)

/-- The call that is made at a stage. -/
def call : NumberStage × List Bool → Option (Word × Bool)
  | (.unary i, b :: _) => some (base + BitVec.ofNat 32 (2 * (i + 1)), b)
  | (.digit k ds, b :: _) => some (base + BitVec.ofNat 32 (2 * (k - ds.length) - 1), b)
  | _ => none

/-- The calls that were made before. -/
def seen : NumberStage → List (Word × Bool)
  | .enter => []
  | .unary i => (unaryContexts base i).zip (List.replicate i true)
  | .digit k ds => callsOf base k (List.replicate (k - 1) true ++ false :: ds)
  | .pop ds => callsOf base ds.length (bitsOf ds)

/-- There are few unary bits, and not too many digits. -/
def Bounded : NumberStage × List Bool → Prop
  | (.enter, bs) => (bs.takeWhile id).length < 64
  | (.unary i, bs) => i + (bs.takeWhile id).length < 64
  | (.digit k ds, _) => ds.length < k ∧ k ≤ 64
  | (.pop ds, _) => 1 ≤ ds.length ∧ ds.length ≤ 64

theorem Bounded.next {x y : NumberStage × List Bool} (h : Bounded x) (hxy : next x = some y) :
    Bounded y := by
  obtain ⟨stage, bs⟩ := x
  cases stage with
  | enter =>
      cases hxy
      simpa [Bounded] using h
  | unary i =>
      obtain _ | ⟨b, bs⟩ := bs
      · cases hxy
      · cases b <;> cases hxy <;> simp [Bounded] at h ⊢ <;> omega
  | digit k ds =>
      obtain _ | ⟨b, bs⟩ := bs
      · cases hxy
      · cases hxy
        split <;> simp [Bounded] at h ⊢ <;> omega
  | pop ds => cases hxy

/-! ### What was seen -/

section seen

variable {base}

theorem length_contexts (k : ℕ) :
    (unaryContexts base k ++ digitContexts base k).length = 2 * k := by
  simp [unaryContexts, digitContexts]
  omega

theorem unaryContexts_succ (k : ℕ) :
    unaryContexts base (k + 1) =
      unaryContexts base k ++ [base + BitVec.ofNat 32 (2 * (k + 1))] := by
  simp [unaryContexts, List.range_succ]

/-- The context of a digit. -/
theorem contexts_getElem {k j : ℕ} (hj : j < k)
    (h : k + j < (unaryContexts base k ++ digitContexts base k).length) :
    (unaryContexts base k ++ digitContexts base k)[k + j] =
      base + BitVec.ofNat 32 (2 * (k - j) - 1) := by
  have hlen : (unaryContexts base k).length = k := by simp [unaryContexts]
  rw [List.getElem_append_right (by omega)]
  simp only [digitContexts, List.getElem_map, List.getElem_reverse, List.getElem_range, hlen,
    List.length_range]
  congr 2
  omega

theorem zip_concat {α β : Type*} {l : List α} {l' : List β} (b : β) (h : l'.length < l.length) :
    l.zip (l' ++ [b]) = l.zip l' ++ [(l[l'.length], b)] := by
  induction l generalizing l' with
  | nil => cases h
  | cons a l ih =>
      cases l' with
      | nil => simp
      | cons b' l' => simpa using ih (Nat.lt_of_succ_lt_succ h)

variable (base) in
/-- A digit more. -/
theorem callsOf_concat {k : ℕ} {ds : List Bool} (hk : ds.length < k) (b : Bool) :
    callsOf base k (List.replicate (k - 1) true ++ false :: (ds ++ [b])) =
      callsOf base k (List.replicate (k - 1) true ++ false :: ds) ++
        [(base + BitVec.ofNat 32 (2 * (k - ds.length) - 1), b)] := by
  have hlen : (List.replicate (k - 1) true ++ false :: ds).length = k + ds.length := by
    simp
    omega
  rw [callsOf, ← List.cons_append, ← List.append_assoc,
    zip_concat b (by rw [hlen, length_contexts]; omega), callsOf]
  simp only [hlen, contexts_getElem hk]

/-- What was seen grows by the call that is made. -/
theorem seen_next {x y : NumberStage × List Bool} (h : Bounded x) (hxy : next x = some y) :
    seen base y.1 = seen base x.1 ++ (call base x).toList := by
  obtain ⟨stage, bs⟩ := x
  cases stage with
  | enter => cases hxy; rfl
  | unary i =>
      obtain _ | ⟨b, bs⟩ := bs
      · cases hxy
      · have hlen : (unaryContexts base i).length = (List.replicate i true).length := by
          simp [unaryContexts]
        cases b <;> cases hxy
        · simp only [seen, callsOf, call, unaryContexts_succ, Nat.add_sub_cancel, List.append_assoc,
            Option.toList_some]
          rw [List.zip_append hlen]
          simp
        · simp only [seen, call, unaryContexts_succ, List.replicate_succ', Option.toList_some]
          rw [List.zip_append hlen]
          rfl
  | digit k ds =>
      obtain ⟨hlt, -⟩ := h
      obtain _ | ⟨b, bs⟩ := bs
      · cases hxy
      · cases hxy
        by_cases hk : ds.length + 1 < k
        · simp only [if_pos hk, seen, call, Option.toList_some, callsOf_concat base hlt]
        · obtain rfl : k = ds.length + 1 := by omega
          have hconcat := callsOf_concat base hlt b
          simp only [if_neg hk, seen, call, Option.toList_some, bitsOf, List.length_append,
            List.length_singleton]
          exact hconcat
  | pop ds => cases hxy

/-- A call takes its bit from the list. -/
theorem bits_next {x y : NumberStage × List Bool} (hxy : next x = some y) :
    x.2 = ((call base x).toList.map Prod.snd) ++ y.2 := by
  obtain ⟨stage, bs⟩ := x
  cases stage with
  | enter => cases hxy; rfl
  | unary i => obtain _ | ⟨_ | _, bs⟩ := bs <;> cases hxy <;> rfl
  | digit k ds => obtain _ | ⟨b, bs⟩ := bs <;> cases hxy; rfl
  | pop ds => cases hxy

/-- **The calls of a run are those that are to be seen where it leads**, and their bits are those
that were taken from the list. -/
theorem seen_of_absRun {bs : List Bool} {x : NumberStage × List Bool} {l : List (Word × Bool)}
    (h : AbsRun (fun x y => next x = some y) (call base) (.enter, bs) l x)
    (hbs : (bs.takeWhile id).length < 64) :
    Bounded x ∧ l = seen base x.1 ∧ bs = l.map Prod.snd ++ x.2 := by
  induction h with
  | refl => exact ⟨hbs, rfl, rfl⟩
  | step _ hA ih =>
      obtain ⟨hbounded, rfl, hbits⟩ := ih
      refine ⟨hbounded.next hA, (seen_next hbounded hA).symm, ?_⟩
      rw [List.map_append, List.append_assoc, ← bits_next hA, ← hbits]

end seen

/-! ### Runs to the end -/

theorem iter_unary (i j : ℕ) (bs : List Bool) :
    iter next j (.unary i, List.replicate j true ++ bs) = some (.unary (i + j), bs) := by
  induction j generalizing i with
  | zero => rfl
  | succ j ih =>
      rw [List.replicate_succ, List.cons_append,
        iter_succ_of_step (f := next) (t := (unary (i + 1), List.replicate j true ++ bs)) rfl, ih,
        Nat.add_right_comm, Nat.add_assoc]

theorem iter_digit {k : ℕ} {ds ds' : List Bool} (h : ds' ≠ []) (hk : ds.length + ds'.length = k) :
    iter next ds'.length (.digit k ds, ds') = some (.pop (ds ++ ds'), []) := by
  induction ds' generalizing ds with
  | nil => exact absurd rfl h
  | cons b ds' ih =>
      rw [List.length_cons] at hk ⊢
      obtain _ | ⟨b', ds''⟩ := ds'
      · have hlast : ¬ds.length + 1 < k := by simp at hk; omega
        rw [iter_succ_of_step (f := next) (t := (pop (ds ++ [b]), [])) (by simp [next, hlast])]
        rfl
      · have hmore : ds.length + 1 < k := by simp at hk; omega
        rw [iter_succ_of_step (f := next) (t := (digit k (ds ++ [b]), b' :: ds''))
          (by simp [next, hmore]), ih (by simp) (by simp at hk ⊢; omega), List.append_assoc]
        rfl

/-- The bits of a number lead to the `pop`. -/
theorem iter_bitsOf {ds : List Bool} (h : ds ≠ []) :
    ∃ n, iter next n (.enter, bitsOf ds) = some (.pop ds, []) := by
  have hlen : 0 < ds.length := List.length_pos_iff.mpr h
  have hunary := iter_unary 0 (ds.length - 1) (false :: ds)
  rw [Nat.zero_add] at hunary
  have hzero : iter next 1 (.unary (ds.length - 1), false :: ds) =
      some (.digit (ds.length - 1 + 1) [], ds) := rfl
  have hdigits : iter next ds.length (.digit (ds.length - 1 + 1) [], ds) = some (.pop ds, []) :=
    iter_digit h (by simp; omega)
  exact ⟨_, iter_trans next (m := 1) rfl
    (iter_trans next hunary (iter_trans next hzero hdigits))⟩

end NumberStage

/-! ## The processor -/

/-- The processor is in the call of `getnumber` that began in `s₀`. -/
structure Counting (s₀ s : Cpu) : Prop where
  /-- Thumb state. -/
  thumb : s.thumb = true
  /-- Two words were pushed. -/
  sp : s.sp = s₀.sp - 8
  /-- The base context. -/
  tmp0 : s.r2 = s₀.r2 <<< 8
  /-- The caller's register and the return address. -/
  frame : loadWords s.mem (s₀.sp - 8) 2 = [s₀.r1, s₀.lr]

/-- The processor is about to call `getbit`, which is to return to `ret`. -/
structure NumberCall (s₀ : Cpu) (counter : ℕ) (ret : Word) (s : Cpu) : Prop
    extends Counting s₀ s where
  /-- Control is at `getbit`. -/
  pc : s.pc = ρ.sym .getbit
  /-- The counter. -/
  outp : s.r1 = BitVec.ofNat 32 counter
  /-- The context. -/
  bitctx : s.r7 = s₀.r2 <<< 8 + BitVec.ofNat 32 counter
  /-- The return address. -/
  lr : s.lr = ret ||| 1

/-- Where the processor is at a stage. -/
def AtNumber (s₀ : Cpu) (x : NumberStage × List Bool) (y : Cpu × List Bool) : Prop :=
  x.2 = y.2 ∧ NumberStage.Bounded x ∧
    match x.1 with
    | .enter => y.1 = s₀
    | .unary i => NumberCall ρ s₀ (2 * (i + 1)) (ρ.addr .numberloop 10) y.1
    | .digit k ds =>
        NumberCall ρ s₀ (2 * (k - ds.length) - 1) (ρ.addr .bitsloop 8) y.1 ∧
          y.1.r3 = BitVec.ofNat 32 (GammaCode.value ds)
    | .pop ds =>
        Counting s₀ y.1 ∧ y.1.pc = ρ.addr .bitsloop 14 ∧
          y.1.r3 = BitVec.ofNat 32 (GammaCode.value ds)

/-- Control is at no call of `getbit` and not at the end. -/
def Aside (x : Cpu × List Bool) : Prop := x.1.pc ≠ ρ.sym .getbit ∧ NoPop ρ x.1

/-- Whether an instruction neither begins `getbit` nor ends a call. -/
def isAside : Instr Label → Bool
  | .popPc _ => false
  | .push rs => rs ≠ getbitPushList
  | _ => true

variable {ρ getbit} {s₀ s t : Cpu} {bs : List Bool}

theorem aside_of_fetch {i : Instr Label} (hi : ρ.image.fetch s.pc = some i)
    (h : isAside i = true) (bs : List Bool) : Aside ρ (s, bs) := by
  refine ⟨fun hpc => ?_, fun rs hrs => ?_⟩
  · have hgetbit := ρ.block_getbit.fetch.1
    rw [ρ.addr_zero, ← show s.pc = ρ.sym .getbit from hpc, hi] at hgetbit
    cases hgetbit
    cases h
  · rw [hi] at hrs
    cases hrs
    cases h

theorem stepCalls_of_ne (h : s.pc ≠ ρ.sym .getbit) (hst : stepInCall ρ s = some t) :
    stepCalls ρ getbit (s, bs) = some (t, bs) := by
  rw [stepCalls, if_neg h, hst]
  rfl

/-- A block of `getnumber` takes no bits. -/
theorem Rom.Executes.calls {R : Region} {is : List (Instr Label)} (h : ρ.Executes R is s t)
    (his : ∀ i ∈ is, isAside i = true) (bs : List Bool) :
    ∃ n, Segment (stepCalls ρ getbit) (Aside ρ) n (s, bs) (t, bs) := by
  obtain ⟨n, hseg⟩ := h.segment
    (f := fun u => if u.pc = ρ.sym .getbit then none else stepInCall ρ u)
    (P := fun u => Aside ρ (u, bs)) (fun j hj u hu hstep => by
      have haside := aside_of_fetch hu (his j hj) bs
      rw [if_neg haside.1, stepInCall_of_fetch hu (fun rs hrs => haside.2 rs (hrs ▸ hu)), hstep])
    fun j hj u hu => aside_of_fetch hu (his j (List.mem_of_mem_tail hj)) bs
  refine ⟨n, hseg.map (fun u => (u, bs)) (fun u v huv => ?_) fun _ hu => hu⟩
  split at huv
  · cases huv
  · exact stepCalls_of_ne ‹_› huv

/-! ### The blocks -/

/-- The base context and a counter do not overlap. -/
theorem base_or_counter (x : Word) {c : ℕ} (hc : c < 256) :
    x <<< 8 ||| BitVec.ofNat 32 c = x <<< 8 + BitVec.ofNat 32 c := by
  refine (BitVec.add_eq_or_of_and_eq_zero _ _ (BitVec.eq_of_getLsbD_eq fun i hi => ?_)).symm
  by_cases h8 : i < 8
  · simp [h8]
  · have hlow : c < 2 ^ i := calc
      c < 2 ^ 8 := hc
      _ ≤ 2 ^ i := Nat.pow_le_pow_right (by decide) (Nat.le_of_not_lt h8)
    simp [BitVec.getLsbD_ofNat, Nat.testBit_lt_two_pow hlow]

/-- The context of a call lies elsewhere than the frame. -/
theorem frame_disjoint_slot (S x : Word) {c : ℕ} (hc : 1 ≤ c ∧ c ≤ 128) :
    Disjoint (range (S - 8) 8)
      (range (Coder.slot (S - 8) (x <<< 8 + BitVec.ofNat 32 c)) 2 ∪ range (S - 8 - 16) 16) := by
  have hbase : (x <<< 8).toNat % 256 = 0 := by
    rw [BitVec.toNat_shiftLeft, Nat.shiftLeft_eq]
    omega
  generalize x <<< 8 = y at *
  have hslot : Coder.slot (S - 8) (y + BitVec.ofNat 32 c) - (S - 8) =
      y + BitVec.ofNat 32 c + (y + BitVec.ofNat 32 c) + 10 := by
    simp only [Coder.slot, ctxTableOffset, singleBitContexts, List.length_cons, List.length_nil]
    bv_omega
  rw [Set.disjoint_union_right]
  constructor
  · generalize Coder.slot (S - 8) (y + BitVec.ofNat 32 c) = slot at *
    refine disjoint_range ?_ ?_ <;> bv_omega
  · exact disjoint_range (by bv_omega) (by bv_omega)

/-- After a call, the loop's registers are still there, and the carry is the bit. -/
theorem NumberCall.returned {c : ℕ} {ret : Word} {bit : Bool} (h : NumberCall ρ s₀ c ret s)
    (hc : 1 ≤ c ∧ c ≤ 128) (hret : (ret ||| 1#32) &&& ~~~1#32 = ret) (hy : Yields bit s t) :
    Counting s₀ t ∧ t.pc = ret ∧ t.c = bit ∧ t.r1 = BitVec.ofNat 32 c ∧ t.r3 = s.r3 := by
  have hmem : Set.EqOn t.mem s.mem (range (s₀.sp - 8) (4 * 2)) := by
    refine hy.mem.mono (Set.subset_compl_iff_disjoint_right.mpr ?_)
    rw [h.sp, h.bitctx]
    exact frame_disjoint_slot _ _ hc
  refine ⟨⟨hy.thumb.trans h.thumb, hy.sp.trans h.sp, hy.tmp0.trans h.tmp0, ?_⟩, ?_, hy.carry,
    hy.outp.trans h.outp, hy.tmp1⟩
  · rw [loadWords_congr hmem, h.frame]
  · rw [hy.pc, h.lr]
    exact hret

/-- A step of the processor and the rest of the bits. -/
def Rom.Calls (ρ : Rom) (getbit : Bool → Cpu → Cpu) (x y : Cpu × List Bool) : Prop :=
  ∃ n, Segment (stepCalls ρ getbit) (Aside ρ) n x y

theorem Rom.Calls.trans {x y z : Cpu × List Bool} (h₁ : ρ.Calls getbit x y) (hy : Aside ρ y)
    (h₂ : ρ.Calls getbit y z) : ρ.Calls getbit x z := by
  obtain ⟨_, h₁⟩ := h₁
  obtain ⟨_, h₂⟩ := h₂
  exact ⟨_, h₁.trans hy h₂⟩

variable (getbit) in
/-- To the call in the first loop. -/
theorem Counting.numberloop (h : Counting s₀ s) (hpc : s.pc = ρ.sym .numberloop) {i : ℕ}
    (hr1 : s.r1 = BitVec.ofNat 32 (2 * i)) (hi : i < 64) (bs : List Bool) :
    Aside ρ (s, bs) ∧ ∃ t, ρ.Calls getbit (s, bs) (t, bs) ∧
      NumberCall ρ s₀ (2 * (i + 1)) (ρ.addr .numberloop 10) t := by
  have hexec := executes_numberloop h.thumb hpc
  have hcounter : s.r1 + 2 = BitVec.ofNat 32 (2 * (i + 1)) := by
    rw [hr1, Nat.mul_add, BitVec.ofNat_add]
    rfl
  rw [hcounter, h.tmp0, base_or_counter _ (by omega)] at hexec
  exact ⟨aside_of_fetch hexec.block.fetch.1 rfl bs, _, hexec.calls (by simp [isAside]) bs,
    ⟨h.thumb, h.sp, rfl, h.frame⟩, rfl, rfl, rfl, rfl⟩

variable (getbit) in
/-- To the call in the second loop. -/
theorem Counting.bitsloop (h : Counting s₀ s) (hpc : s.pc = ρ.sym .bitsloop) {c : ℕ}
    (hr1 : s.r1 = BitVec.ofNat 32 c) (hc : c < 256) (bs : List Bool) :
    Aside ρ (s, bs) ∧ ∃ t, ρ.Calls getbit (s, bs) (t, bs) ∧
      NumberCall ρ s₀ c (ρ.addr .bitsloop 8) t ∧ t.r3 = s.r3 := by
  have hexec := executes_bitsloop h.thumb hpc
  rw [hr1, h.tmp0, base_or_counter _ hc] at hexec
  exact ⟨aside_of_fetch hexec.block.fetch.1 rfl bs, _, hexec.calls (by simp [isAside]) bs,
    ⟨⟨h.thumb, h.sp, rfl, h.frame⟩, rfl, rfl, rfl, rfl⟩, rfl⟩

/-- The call of `getbit` itself, and the block that it returns to. -/
theorem Rom.Calls.of_call {bit : Bool} (hpc : s.pc = ρ.sym .getbit) {is : List (Instr Label)}
    {i : Instr Label} {R : Region} (h : ρ.Executes R (i :: is) (getbit bit s) t)
    (his : ∀ j ∈ i :: is, isAside j = true) (bs : List Bool) :
    ρ.Calls getbit (s, bit :: bs) (t, bs) := by
  obtain ⟨n, hseg⟩ := h.calls his bs
  have hstep : stepCalls ρ getbit (s, bit :: bs) = some (getbit bit s, bs) := if_pos hpc
  exact ⟨_, .cons hstep (aside_of_fetch h.block.fetch.1 (his i List.mem_cons_self) bs) hseg⟩

/-- From a call in the first loop to the next call. -/
theorem NumberCall.unary (hgetbit : ∀ b s, Yields b s (getbit b s)) {i : ℕ} (hi : i + 1 < 64)
    (h : NumberCall ρ s₀ (2 * (i + 1)) (ρ.addr .numberloop 10) s) (bs : List Bool) :
    ∃ t, ρ.Calls getbit (s, true :: bs) (t, bs) ∧
      NumberCall ρ s₀ (2 * (i + 2)) (ρ.addr .numberloop 10) t := by
  have hret := ρ.addr_clear (l := .numberloop) (k := 10) rfl (by decide)
    (by decide)
  obtain ⟨hcount, hpc, hcarry, hr1, -⟩ := h.returned (by omega) hret (hgetbit true s)
  obtain ⟨u, hcall, hu, hupc, hur1⟩ : ∃ u, ρ.Calls getbit (s, true :: bs) (u, bs) ∧
      Counting s₀ u ∧ u.pc = ρ.sym .numberloop ∧ u.r1 = BitVec.ofNat 32 (2 * (i + 1)) :=
    ⟨_, .of_call h.pc (executes_unaryOne hcount.thumb hpc hcarry) (by simp [isAside]) bs,
      ⟨hcount.thumb, hcount.sp, hcount.tmp0, hcount.frame⟩, rfl, hr1⟩
  obtain ⟨haside, t, hcalls, ht⟩ := hu.numberloop getbit hupc hur1 hi bs
  exact ⟨t, hcall.trans haside hcalls, ht⟩

/-- From the last call in the first loop to the first in the second. -/
theorem NumberCall.unaryEnd (hgetbit : ∀ b s, Yields b s (getbit b s)) {i : ℕ} (hi : i < 64)
    (h : NumberCall ρ s₀ (2 * (i + 1)) (ρ.addr .numberloop 10) s) (bs : List Bool) :
    ∃ t, ρ.Calls getbit (s, false :: bs) (t, bs) ∧
      NumberCall ρ s₀ (2 * (i + 1) - 1) (ρ.addr .bitsloop 8) t ∧ t.r3 = 1 := by
  have hret := ρ.addr_clear (l := .numberloop) (k := 10) rfl (by decide)
    (by decide)
  obtain ⟨hcount, hpc, hcarry, hr1, -⟩ := h.returned (by omega) hret (hgetbit false s)
  have hcounter : (getbit false s).r1 - 1 = BitVec.ofNat 32 (2 * (i + 1) - 1) := by
    rw [hr1]
    bv_omega
  obtain ⟨u, hcall, hu, hupc, hur1, hur3⟩ : ∃ u, ρ.Calls getbit (s, false :: bs) (u, bs) ∧
      Counting s₀ u ∧ u.pc = ρ.sym .bitsloop ∧ u.r1 = BitVec.ofNat 32 (2 * (i + 1) - 1) ∧
      u.r3 = 1 :=
    ⟨_, .of_call h.pc (executes_unaryZero hcount.thumb hpc hcarry) (by simp [isAside]) bs,
      ⟨hcount.thumb, hcount.sp, hcount.tmp0, hcount.frame⟩, rfl, hcounter, rfl⟩
  obtain ⟨haside, t, hcalls, ht, hr3⟩ := hu.bitsloop getbit hupc hur1 (by omega) bs
  exact ⟨t, hcall.trans haside hcalls, ht, hr3.trans hur3⟩

/-- From a call in the second loop to the end of the loop. -/
theorem NumberCall.digit (hgetbit : ∀ b s, Yields b s (getbit b s)) {c : ℕ} (hc : 1 ≤ c ∧ c ≤ 128)
    (h : NumberCall ρ s₀ c (ρ.addr .bitsloop 8) s) (bit : Bool) (bs : List Bool) :
    ∃ t, ρ.Calls getbit (s, bit :: bs) (t, bs) ∧ Counting s₀ t ∧
      t.pc = (if 2 ≤ c then ρ.sym .bitsloop else ρ.addr .bitsloop 14) ∧
      (2 ≤ c → t.r1 = BitVec.ofNat 32 (c - 2)) ∧
      t.r3 = s.r3 + s.r3 + (BitVec.ofBool bit).setWidth 32 := by
  have hret := ρ.addr_clear (l := .bitsloop) (k := 8) rfl (by decide)
    (by decide)
  obtain ⟨hcount, hpc, hcarry, hr1, hr3⟩ := h.returned hc hret (hgetbit bit s)
  have hexec := executes_digit hcount.thumb hpc
  have hborrow : carrySub (getbit bit s).r1 2 = decide (2 ≤ c) := by
    rw [carrySub, hr1]
    simp
    omega
  refine ⟨_, Rom.Calls.of_call h.pc hexec (by simp [isAside]) bs,
    ⟨hcount.thumb, hcount.sp, hcount.tmp0, hcount.frame⟩, ?_, fun hc2 => ?_, ?_⟩
  · simp only [hborrow, decide_eq_true_eq]
  · show (getbit bit s).r1 - 2 = _
    rw [hr1]
    bv_omega
  · show (getbit bit s).r3 + (getbit bit s).r3 + _ = _
    rw [hr3, hcarry]

theorem ofNat_append (ds : List Bool) (b : Bool) :
    BitVec.ofNat 32 (GammaCode.value ds) + BitVec.ofNat 32 (GammaCode.value ds) +
      (BitVec.ofBool b).setWidth 32 = BitVec.ofNat 32 (GammaCode.value (ds ++ [b])) := by
  rw [GammaCode.value, GammaCode.value, GammaCode.append_concat, Nat.two_mul, BitVec.ofNat_add,
    BitVec.ofNat_add]
  cases b <;> rfl

/-! ### From stage to stage -/

section stages

variable (hgetbit : ∀ b s, Yields b s (getbit b s)) (hthumb : s₀.thumb = true)
  (hpc : s₀.pc = ρ.sym .getnumber) (hsp : s₀.sp.toNat % 4 = 0) {x : NumberStage × List Bool}
  {y : Cpu × List Bool}

include hpc in
theorem AtNumber.callOf_eq (h : AtNumber ρ s₀ x y) :
    callOf ρ y = NumberStage.call (s₀.r2 <<< 8) x := by
  obtain ⟨stage, bs⟩ := x
  obtain ⟨s, bs'⟩ := y
  obtain ⟨rfl, hbounded, h⟩ := h
  cases stage with
  | enter =>
      obtain rfl : s = s₀ := h
      have hne : s.pc ≠ ρ.sym .getbit :=
        (aside_of_fetch (i := .push getnumberPushList)
          (by simpa [hpc] using ρ.block_getnumber.fetch.1) rfl bs).1
      rw [callOf, if_neg hne]
      rfl
  | unary i =>
      have hcall : NumberCall ρ s₀ (2 * (i + 1)) (ρ.addr .numberloop 10) s := h
      rw [callOf, if_pos hcall.pc, hcall.bitctx]
      cases bs <;> rfl
  | digit k ds =>
      obtain ⟨hcall, -⟩ := h
      rw [callOf, if_pos hcall.pc, hcall.bitctx]
      cases bs <;> rfl
  | pop ds =>
      obtain ⟨-, hat, -⟩ := h
      have hne : s.pc ≠ ρ.sym .getbit := by
        intro heq
        have hgetbit := ρ.block_getbit.fetch.1
        rw [ρ.addr_zero, ← heq, hat, ρ.block_popGetnumber.fetch.1] at hgetbit
        cases hgetbit
      rw [callOf, if_neg hne]
      rfl

variable (getbit) in
include hthumb hpc hsp in
theorem enter_number (bs : List Bool) :
    ∃ t, ρ.Calls getbit (s₀, bs) (t, bs) ∧ NumberCall ρ s₀ 2 (ρ.addr .numberloop 10) t := by
  have halign : align4 (s₀.sp - 8) = s₀.sp - 8 := align4_of_aligned (by bv_omega)
  have hexec := executes_getnumber hthumb hpc
  rw [halign] at hexec
  obtain ⟨u, hcalls, hu, hupc, hur1⟩ : ∃ u, ρ.Calls getbit (s₀, bs) (u, bs) ∧
      Counting s₀ u ∧ u.pc = ρ.sym .numberloop ∧ u.r1 = 0 :=
    ⟨_, hexec.calls (by simp [isAside]) bs,
      ⟨hthumb, rfl, rfl, loadWords_storeWords _ _ (by simp)⟩, rfl, rfl⟩
  obtain ⟨haside, t, hnext, ht⟩ := hu.numberloop getbit hupc (i := 0) hur1 (by decide) bs
  exact ⟨t, hcalls.trans haside hnext, ht⟩

include hgetbit hthumb hpc hsp

/-- **The processor goes from stage to stage.** -/
theorem AtNumber.next {x' : NumberStage × List Bool} (h : AtNumber ρ s₀ x y)
    (hx : NumberStage.next x = some x') : ∃ y', ρ.Calls getbit y y' ∧ AtNumber ρ s₀ x' y' := by
  obtain ⟨stage, bs⟩ := x
  obtain ⟨s, bs'⟩ := y
  obtain ⟨rfl, hbounded, h⟩ := h
  have hbounded' := NumberStage.Bounded.next hbounded hx
  cases stage with
  | enter =>
      cases hx
      obtain rfl : s = s₀ := h
      obtain ⟨t, hcalls, ht⟩ := enter_number getbit hthumb hpc hsp bs
      exact ⟨(t, bs), hcalls, rfl, hbounded', ht⟩
  | unary i =>
      have hcall : NumberCall ρ s₀ (2 * (i + 1)) (ρ.addr .numberloop 10) s := h
      obtain _ | ⟨b, bs⟩ := bs
      · cases hx
      · have hi : i < 64 := Nat.lt_of_le_of_lt (Nat.le_add_right _ _) hbounded
        cases b <;> cases hx
        · obtain ⟨t, hcalls, ht, hr3⟩ := hcall.unaryEnd hgetbit hi bs
          exact ⟨(t, bs), hcalls, rfl, hbounded', ht, hr3⟩
        · have hi' : i + 1 < 64 := Nat.lt_of_le_of_lt (Nat.le_add_right _ _) hbounded'
          obtain ⟨t, hcalls, ht⟩ := hcall.unary hgetbit hi' bs
          exact ⟨(t, bs), hcalls, rfl, hbounded', ht⟩
  | digit k ds =>
      obtain ⟨hlt, hk⟩ := hbounded
      obtain ⟨hcall, hr3⟩ := h
      obtain _ | ⟨b, bs⟩ := bs
      · cases hx
      · cases hx
        obtain ⟨u, hcalls, hu, hupc, hur1, hur3⟩ := hcall.digit hgetbit (by omega) b bs
        rw [hr3, ofNat_append] at hur3
        by_cases hmore : ds.length + 1 < k
        · rw [if_pos (by omega)] at hupc
          have hur1 := hur1 (by omega)
          obtain ⟨haside, t, hnext, ht, htr3⟩ := hu.bitsloop getbit hupc hur1 (by omega) bs
          simp only [if_pos hmore] at hbounded' ⊢
          refine ⟨(t, bs), hcalls.trans haside hnext, rfl, hbounded', ?_, htr3.trans hur3⟩
          have hcounter : 2 * (k - ds.length) - 1 - 2 = 2 * (k - (ds ++ [b]).length) - 1 := by
            simp
            omega
          rwa [hcounter] at ht
        · rw [if_neg (by omega)] at hupc
          simp only [if_neg hmore] at hbounded' ⊢
          exact ⟨(u, bs), hcalls, rfl, hbounded', hu, hupc, hur3⟩
  | pop ds => cases hx

omit hgetbit hthumb hpc hsp in
/-- Where no stage follows, the run ends. -/
theorem AtNumber.stuck (h : AtNumber ρ s₀ x y) (hx : NumberStage.next x = none) :
    stepCalls ρ getbit y = none := by
  obtain ⟨stage, bs⟩ := x
  obtain ⟨s, bs'⟩ := y
  obtain ⟨rfl, -, h⟩ := h
  cases stage with
  | enter => cases hx
  | unary i =>
      have hcall : NumberCall ρ s₀ (2 * (i + 1)) (ρ.addr .numberloop 10) s := h
      obtain _ | ⟨_ | _, bs⟩ := bs
      · exact if_pos hcall.pc
      · cases hx
      · cases hx
  | digit k ds =>
      obtain _ | ⟨b, bs⟩ := bs
      · exact if_pos h.1.pc
      · cases hx
  | pop ds =>
      obtain ⟨-, hat, -⟩ := h
      have hnone : stepInCall ρ s = none := by
        rw [stepInCall, hat, ρ.block_popGetnumber.fetch.1]
      rw [stepCalls]
      split
      · -- At `getbit` there is no `pop`.
        have heq : s.pc = ρ.sym .getbit := ‹_›
        have hgetbit := ρ.block_getbit.fetch.1
        rw [ρ.addr_zero, ← heq, hat, ρ.block_popGetnumber.fetch.1] at hgetbit
        cases hgetbit
      · rw [hnone]
        rfl

/-- What the caller gets. -/
structure Got (s₀ t : Cpu) (ds : List Bool) : Prop where
  /-- The number. -/
  tmp1 : t.r3 = BitVec.ofNat 32 (GammaCode.value ds)
  /-- The caller's register. -/
  outp : t.r1 = s₀.r1
  /-- Back at the caller. -/
  pc : t.pc = s₀.lr &&& ~~~1
  /-- The stack pointer. -/
  sp : t.sp = s₀.sp

omit hgetbit hthumb hpc in
/-- The `pop` returns to the caller. -/
theorem Counting.pop {s : Cpu} (h : Counting s₀ s) (hat : s.pc = ρ.addr .bitsloop 14)
    {ds : List Bool} (hr3 : s.r3 = BitVec.ofNat 32 (GammaCode.value ds)) :
    ¬NoPop ρ s ∧ ∃ t, step ρ.image s = some t ∧ Got s₀ t ds := by
  have hfetch := ρ.block_popGetnumber.fetch.1
  rw [← hat] at hfetch
  have halign : align4 s.sp = s₀.sp - 8 := by
    rw [h.sp]
    exact align4_of_aligned (by bv_omega)
  have hframe := h.frame
  simp only [loadWords, List.cons.injEq, and_true] at hframe
  have hstep := step_of_fetch hfetch rfl h.thumb
  rw [exec_popNumber, halign, hframe.1, hframe.2, h.sp] at hstep
  exact ⟨fun hno => hno _ hfetch, _, hstep, hr3, rfl, rfl, by simp⟩

omit hgetbit hthumb hpc hsp in
theorem map_snd_callsOf (base : Word) {ds : List Bool} (h : ds ≠ []) :
    (callsOf base ds.length (bitsOf ds)).map Prod.snd = bitsOf ds := by
  have hlen : 0 < ds.length := List.length_pos_iff.mpr h
  refine List.map_snd_zip ?_
  rw [NumberStage.length_contexts, bitsOf]
  simp
  omega

/-- **The calls that should read a number read it.** -/
theorem getsNumber_callsOf {ds : List Bool} (hds : ds ≠ []) (hlen : ds.length ≤ 64) :
    ∃ t, GetsNumber ρ getbit s₀ (callsOf (s₀.r2 <<< 8) ds.length (bitsOf ds)) t ∧
      Got s₀ t ds := by
  have hunary := unaryBits_bitsOf hds
  have hbits : ((bitsOf ds).takeWhile id).length < 64 := by
    rw [unaryBits] at hunary
    omega
  obtain ⟨m, hm⟩ := NumberStage.iter_bitsOf hds
  have hstart : AtNumber ρ s₀ (.enter, bitsOf ds) (s₀, bitsOf ds) := ⟨rfl, hbits, rfl⟩
  obtain ⟨n, ⟨u, bs⟩, -, hn, hu, htrace⟩ := forward (f := stepCalls ρ getbit)
    (R := AtNumber ρ s₀) (P := fun _ => Aside ρ) (o := callOf ρ)
    (I := fun _ => True)
    (fun _ _ ha => ha.callOf_eq hpc) (fun _ _ hv => if_neg hv.1)
    (fun a y b ha _ hb => by
      obtain ⟨y', ⟨n, hseg⟩, hy'⟩ := ha.next hgetbit hthumb hpc hsp hb
      exact ⟨n, y', hseg, hy'⟩) hstart hm fun _ _ _ _ => trivial
  obtain ⟨rfl, -, hcount, hat, hr3⟩ := hu
  obtain ⟨hpop, t, ht, hgot⟩ := hcount.pop hsp hat hr3
  obtain ⟨-, hseen, -⟩ := NumberStage.seen_of_absRun (.of_iter hm) hbits
  refine ⟨t, ⟨n, u, ?_, ?_, hpop, ht⟩, hgot⟩
  · rw [map_snd_callsOf _ hds]
    exact hn
  · rw [map_snd_callsOf _ hds, htrace, hseen]
    rfl

/-- **No other calls with few unary bits make `getnumber` return.** -/
theorem GetsNumber.eq_callsOf {calls : List (Word × Bool)} {t : Cpu}
    (h : GetsNumber ρ getbit s₀ calls t) (hunary : unaryBits (calls.map Prod.snd) ≤ 64) :
    ∃ ds, ds ≠ [] ∧ calls = callsOf (s₀.r2 <<< 8) ds.length (bitsOf ds) ∧ Got s₀ t ds := by
  obtain ⟨n, u, hn, htrace, hpop, ht⟩ := h
  have hstart : AtNumber ρ s₀ (.enter, calls.map Prod.snd) (s₀, calls.map Prod.snd) :=
    ⟨rfl, Nat.lt_of_succ_le hunary, rfl⟩
  obtain ⟨⟨stage, bs⟩, l, hl, hend⟩ := reach (f := stepCalls ρ getbit) (R := AtNumber ρ s₀)
    (A := fun x y => NumberStage.next x = some y) (P := fun _ => Aside ρ) (o := callOf ρ)
    (C := fun _ _ => True)
    (fun _ _ ha => ha.callOf_eq hpc) (fun _ _ hv => if_neg hv.1)
    (fun a l y _ ha _ => by
      cases hx : NumberStage.next a with
      | none => exact .inl (ha.stuck hx)
      | some b =>
          obtain ⟨y', ⟨n, hseg⟩, hy'⟩ := ha.next hgetbit hthumb hpc hsp hx
          exact .inr ⟨b, n, y', rfl, hseg, fun _ => hy'⟩) hstart hn fun _ _ _ _ => trivial
  obtain ⟨hbounded, hseen, -⟩ :=
    NumberStage.seen_of_absRun hl (Nat.lt_of_succ_le hunary)
  rcases hend with ⟨⟨hbs, -, hat⟩, htr⟩ | ⟨-, -, haside, -⟩
  · have hgetbit_noPop (hu : u.pc = ρ.sym .getbit) : False :=
      hpop (ρ.block_getbit.noPop (by simp) (by simp [hu]))
    cases stage with
    | enter =>
        obtain rfl : u = s₀ := hat
        exact absurd (ρ.block_getnumber.noPop (by simp) (by simp [hpc])) hpop
    | unary i => exact (hgetbit_noPop (show NumberCall _ _ _ _ _ from hat).pc).elim
    | digit k ds => exact (hgetbit_noPop hat.1.pc).elim
    | pop ds =>
        obtain ⟨hcount, hat, hr3⟩ := hat
        obtain ⟨-, t', ht', hgot⟩ := hcount.pop hsp hat hr3
        cases ht.symm.trans ht'
        refine ⟨ds, List.length_pos_iff.mp hbounded.1, ?_, hgot⟩
        rw [← htrace, htr, hseen]
        rfl
  · exact absurd haside.2 hpop

/-- The bits of a number that fits in a word read it. -/
theorem getsNumber_numberCalls {n : ℕ} (hn : 2 ≤ n) (hlt : n < 2 ^ 32) :
    ∃ t, GetsNumber ρ getbit s₀ (numberCalls (s₀.r2 <<< 8) n) t ∧ t.r3.toNat = n := by
  have hlog := GammaCode.log2_pos hn
  have hlog' : n.log2 < 32 := (Nat.log2_lt (by omega)).mpr hlt
  have hlen : (GammaCode.digits n.log2 n).length = n.log2 := GammaCode.length_digits _ _
  have hds : GammaCode.digits n.log2 n ≠ [] := List.length_pos_iff.mp (by omega)
  obtain ⟨t, ht, hgot⟩ := getsNumber_callsOf hgetbit hthumb hpc hsp hds (by omega)
  rw [← numberCalls_value, GammaCode.value_digits (by omega)] at ht
  refine ⟨t, ht, ?_⟩
  rw [hgot.tmp1, GammaCode.value_digits (by omega), BitVec.toNat_ofNat, Nat.mod_eq_of_lt hlt]

/-- Calls with at most 31 unary bits read a number that fits in a word. -/
theorem GetsNumber.eq_numberCalls {calls : List (Word × Bool)} {t : Cpu}
    (h : GetsNumber ρ getbit s₀ calls t) (hunary : unaryBits (calls.map Prod.snd) ≤ 31) :
    2 ≤ t.r3.toNat ∧ calls = numberCalls (s₀.r2 <<< 8) t.r3.toNat ∧ t.r1 = s₀.r1 ∧
      t.pc = s₀.lr &&& ~~~1 ∧ t.sp = s₀.sp := by
  obtain ⟨ds, hds, rfl, hgot⟩ := h.eq_callsOf hgetbit hthumb hpc hsp (by omega)
  rw [map_snd_callsOf _ hds, unaryBits_bitsOf hds] at hunary
  have hvalue : t.r3.toNat = GammaCode.value ds := by
    have hlt : GammaCode.value ds < 2 ^ 32 := calc
      GammaCode.value ds < 2 ^ (ds.length + 1) := GammaCode.value_lt_two_pow ds
      _ ≤ 2 ^ 32 := Nat.pow_le_pow_right (by decide) (by omega)
    rw [hgot.tmp1, BitVec.toNat_ofNat, Nat.mod_eq_of_lt hlt]
  rw [hvalue, numberCalls_value]
  exact ⟨GammaCode.two_le_value hds, rfl, hgot.outp, hgot.pc, hgot.sp⟩

/-- **`getnumber` decodes a prefix-free code of the numbers from 2 on.** Every number that fits in a
word has exactly one code word with at most 31 unary bits. Every such sequence of bits makes both
loops end, no number below 2 comes out, and the caller's register and return address are
restored. -/
theorem getnumber_code :
    (∀ n, 2 ≤ n → n < 2 ^ 32 →
      (∃ t, GetsNumber ρ getbit s₀ (numberCalls (s₀.r2 <<< 8) n) t ∧ t.r3.toNat = n) ∧
      ∀ calls t, GetsNumber ρ getbit s₀ calls t → unaryBits (calls.map Prod.snd) ≤ 31 →
        t.r3.toNat = n → calls = numberCalls (s₀.r2 <<< 8) n) ∧
    (∀ ds, ds ≠ [] → ds.length ≤ 31 →
      ∃ calls t, calls.map Prod.snd = bitsOf ds ∧ GetsNumber ρ getbit s₀ calls t) ∧
    (∀ calls t, GetsNumber ρ getbit s₀ calls t → unaryBits (calls.map Prod.snd) ≤ 31 →
      2 ≤ t.r3.toNat ∧ t.r1 = s₀.r1 ∧ t.pc = s₀.lr &&& ~~~1 ∧ t.sp = s₀.sp) ∧
    ∀ m n, 2 ≤ m → 2 ≤ n → GammaCode.word m <+: GammaCode.word n → m = n := by
  refine ⟨fun n hn hlt => ⟨?_, fun calls t ht hunary heq => ?_⟩, fun ds hds hlen => ?_,
    fun calls t ht hunary => ?_, fun m n => GammaCode.word_prefixFree⟩
  · exact getsNumber_numberCalls hgetbit hthumb hpc hsp hn hlt
  · obtain ⟨-, hcalls, -⟩ := ht.eq_numberCalls hgetbit hthumb hpc hsp hunary
    rwa [heq] at hcalls
  · obtain ⟨t, ht, -⟩ := getsNumber_callsOf hgetbit hthumb hpc hsp hds (by omega)
    exact ⟨_, t, map_snd_callsOf _ hds, ht⟩
  · obtain ⟨htwo, -, hrest⟩ := ht.eq_numberCalls hgetbit hthumb hpc hsp hunary
    exact ⟨htwo, hrest⟩

end stages

/-- A `getbit` that only returns. -/
def answer (b : Bool) (s : Cpu) : Cpu := { s with pc := s.lr &&& ~~~1, c := b }

theorem answer_yields (b : Bool) (s : Cpu) : Yields b s (answer b s) :=
  ⟨⟨rfl, rfl, rfl, rfl, rfl, ⟨rfl, rfl, rfl⟩, rfl, rfl, rfl⟩, rfl, rfl, fun _ _ => rfl⟩

/-- **The calls of `getbit` are answers that numbers can be read from**: there are answers that are
what the calls return wherever they are within their contract, and with which every number is
read. -/
theorem getnumber_reads_calls {ρ : Rom} {s₀ : Cpu} (hthumb : s₀.thumb = true)
    (hpc : s₀.pc = ρ.sym .getnumber) (hsp : s₀.sp.toNat % 4 = 0) :
    ∃ getbit : Bool → Cpu → Cpu,
      (∀ slot p s, Ready ρ slot p s → ∃ b, Returns ρ s (getbit b s) ∧ Yields b s (getbit b s)) ∧
      ∀ n, 2 ≤ n → n < 2 ^ 32 →
        ∃ t, GetsNumber ρ getbit s₀ (numberCalls (s₀.r2 <<< 8) n) t ∧ t.r3.toNat = n := by
  classical
  have hanswer (b : Bool) (s : Cpu) :
      ∃ t, Yields b s t ∧ ((∃ u, Returns ρ s u ∧ Yields b s u) → Returns ρ s t) := by
    by_cases h : ∃ u, Returns ρ s u ∧ Yields b s u
    · obtain ⟨u, hu, hyields⟩ := h
      exact ⟨u, hyields, fun _ => hu⟩
    · exact ⟨_, answer_yields b s, fun h' => absurd h' h⟩
  choose getbit hyields hreturns using hanswer
  refine ⟨getbit, fun slot p s h => ?_, fun n => getsNumber_numberCalls hyields hthumb hpc hsp⟩
  obtain ⟨b, t, ht⟩ := h.yields
  exact ⟨b, hreturns b s ⟨t, ht⟩, hyields b s⟩

/-- Control is at `getnumber`, for an offset. -/
def numberCall : Cpu where
  r0 := 0; r1 := 0; r2 := 3; r3 := 0; r4 := 0; r5 := 1; r6 := 0; r7 := 0; r8 := 0; r9 := 0
  r10 := 0; r11 := 0; r12 := 0; sp := 0x03006f00; lr := 0; pc := ewramRom.sym .getnumber
  n := false; z := false; c := false; v := false; thumb := true
  mem := fun _ => 0

/-- The calls that read five. -/
theorem getnumber_code_five : ∃ t, GetsNumber ewramRom answer numberCall
    [(0x302, true), (0x304, false), (0x303, false), (0x301, true)] t ∧ t.r3.toNat = 5 := by
  have hcalls : numberCalls (numberCall.r2 <<< 8) 5 =
      [(0x302, true), (0x304, false), (0x303, false), (0x301, true)] := by decide
  rw [← hcalls]
  exact ((getnumber_code answer_yields rfl rfl (by decide)).1 5 (by decide) (by decide)).1

/-- Two sequences of bits read two: with 32 unary bits, the leading one is lost. -/
theorem getnumber_two_words : ¬∃! bits, ∃ calls t, calls.map Prod.snd = bits ∧
    GetsNumber ewramRom answer numberCall calls t ∧ t.r3.toNat = 2 := by
  have hreads (ds : List Bool) (hds : ds ≠ []) (hlen : ds.length ≤ 64)
      (hvalue : BitVec.ofNat 32 (GammaCode.value ds) = 2) : ∃ calls t,
      calls.map Prod.snd = bitsOf ds ∧ GetsNumber ewramRom answer numberCall calls t ∧
        t.r3.toNat = 2 := by
    have hthumb : numberCall.thumb = true := rfl
    obtain ⟨t, ht, hgot⟩ := getsNumber_callsOf answer_yields hthumb rfl (by decide) hds hlen
    exact ⟨_, t, map_snd_callsOf _ hds, ht, by rw [hgot.tmp1, hvalue]; rfl⟩
  intro h
  have heq := h.unique (hreads [false] (by simp) (by decide) (by decide))
    (hreads (List.replicate 30 false ++ [true, false]) (by simp) (by decide) (by decide))
  exact absurd heq (by decide)

end ShrinklerGba.Shrinkler
