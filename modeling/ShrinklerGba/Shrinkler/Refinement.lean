import Mathlib.Data.List.GetD
import ShrinklerGba.Shrinkler.ClosedRun
import ShrinklerGba.Shrinkler.StackSafety

/-!
# The depacker refines the plain decoder

* `Setting` is what a compressed program is unpacked in: where its words and its output lie.
* `Carries E out offset x d`: the depacker has put out `out`, and is where the range decoder `x` is.
* `Tracks E u x d`: and it is at the place of the unpacker `u`.
* **`Tracks.step`**: the depacker goes where the plain decoder goes.
* **`depacker_refines_reference`**: when the plain decoder is done, the processor is about to enter
  the program, which lies where it should.
-/

namespace ShrinklerGba.Shrinkler

open Thumb Transition RangeCoding Bitstream

/-! ## Settings -/

/-- Where a compressed program lies, and where it is unpacked. -/
structure Setting where
  /-- The output address, the address of the words, and the address of the table. -/
  (load intro S : Word)
  /-- The words. -/
  word : ℕ → Word
  /-- How many words there are. -/
  words : ℕ
  /-- How many bytes there is room for. -/
  size : ℕ
  /-- Memory before. -/
  mem : Mem
  /-- The table is aligned. -/
  aligned : S.toNat % 4 = 0
  /-- The output lies apart from the stack and the table. -/
  output : Disjoint (range load size) (range (S - 24) 4120)
  /-- The words are in memory. -/
  held : ∀ j < words, loadWord mem (intro + BitVec.ofNat 32 (4 * j)) = word j
  /-- They lie apart from the stack, the table and the output. -/
  apart : ∀ j < words, Disjoint (range (align4 (intro + BitVec.ofNat 32 (4 * j))) 4)
    (range (S - 24) 4120 ∪ range load size)

namespace Setting

variable (E : Setting)

theorem stack_subset : stack E.S ⊆ range (E.S - 24) 4120 := range_subset (by simp)

theorem table_subset : range E.S 4096 ⊆ range (E.S - 24) 4120 := range_subset (by bv_omega)

theorem size_lt : E.size < 2 ^ 32 := by
  have hmem : E.S - 24 ∈ range (E.S - 24) 4120 := by simp [mem_range]
  have hnot : E.S - 24 ∉ range E.load E.size := Set.disjoint_right.mp E.output hmem
  rw [mem_range, Nat.not_lt] at hnot
  exact Nat.lt_of_le_of_lt hnot (E.S - 24 - E.load).isLt

/-- An address of the output. -/
theorem mem_output {i : ℕ} (hi : i < E.size) :
    E.load + BitVec.ofNat 32 i ∈ range E.load E.size := by
  have hlt := E.size_lt
  rw [mem_range]
  bv_omega

/-- The output lies apart from the stack. -/
theorem output_notMem_stack {i : ℕ} (hi : i < E.size) : E.load + BitVec.ofNat 32 i ∉ stack E.S :=
  fun hmem => Set.disjoint_left.mp E.output (E.mem_output hi) (E.stack_subset hmem)

end Setting

/-! ## What was put out -/

/-- The depacker has put out `out`, and is where the range decoder is. -/
structure Carries (E : Setting) (out : List Byte) (offset : Option ℕ) (x : Decoder Context)
    (d : Depacker) : Prop where
  /-- The output address. -/
  outp : d.outp = E.load + BitVec.ofNat 32 out.length
  /-- The bytes. -/
  bytes : ∀ i < out.length, d.mem (E.load + BitVec.ofNat 32 i) = out.getD i 0
  /-- The rest of memory. -/
  rest : Set.EqOn d.mem E.mem (range E.load out.length ∪ range E.S 4096)ᶜ
  /-- The last offset. -/
  offset : ∀ o ∈ offset, d.offset.toNat = o ∧ 1 ≤ o
  /-- The range decoder. -/
  coder : d.toCoder.Follows E.S E.intro E.word x

namespace Carries

variable {E : Setting} {out : List Byte} {offset : Option ℕ} {x x' : Decoder Context}
  {d e : Depacker}

/-- Neither the context nor the scratch registers matter. -/
theorem congr (h : Carries E out offset x d) (houtp : e.outp = d.outp)
    (hoffset : e.offset = d.offset) (hcoder : { e.toCoder with bitctx := d.bitctx } = d.toCoder) :
    Carries E out offset x e := by
  obtain ⟨hinp, hrvalue, hisize, hbitbuf, -, hmem⟩ := Coder.mk.inj hcoder
  obtain ⟨⟨hinterval, hbuf, hle, hat⟩, hvalid, hprob⟩ := h.coder
  refine ⟨houtp.trans h.outp, hmem ▸ h.bytes, hmem ▸ h.rest, hoffset ▸ h.offset,
    ⟨⟨?_, hbitbuf.trans hbuf, hle, hinp.trans hat⟩, hvalid, hmem ▸ hprob⟩⟩
  rw [← hinterval, Coder.interval, hrvalue, hisize, Coder.interval]

/-- The words are still there. -/
theorem held (h : Carries E out offset x d) (hout : out.length ≤ E.size) {j : ℕ}
    (hj : j < E.words) : Held E.S E.intro E.word d.mem j := by
  have hapart := Set.disjoint_union_right.mp (E.apart j hj)
  refine ⟨?_, hapart.1.mono_right E.stack_subset⟩
  have hsame := h.rest.mono (Set.subset_compl_iff_disjoint_right.mpr (Set.disjoint_union_right.mpr
    ⟨hapart.2.mono_right (range_subset (by simpa using hout)), hapart.1.mono_right E.table_subset⟩))
  rw [← E.held j hj, loadWord, load32_congr hsame, loadWord]

/-- A call of `getbit`. -/
theorem coded (h : Carries E out offset x d) (hout : out.length ≤ E.size) {c : Coder}
    (hc : c.Follows E.S E.intro E.word x') (hmem : Set.EqOn c.mem d.mem (range E.S 4096)ᶜ)
    (hcoder : e.toCoder = c) (houtp : e.outp = d.outp) (hoffset : e.offset = d.offset) :
    Carries E out offset x' e := by
  subst hcoder
  have hlt := E.size_lt
  refine ⟨houtp.trans h.outp, fun i hi => ?_, fun y hy => ?_, hoffset ▸ h.offset, hc⟩
  · have hin := E.mem_output (Nat.lt_of_lt_of_le hi hout)
    rw [← h.bytes i hi]
    exact hmem fun htable => Set.disjoint_left.mp E.output hin (E.table_subset htable)
  · rw [hmem fun htable => hy (.inr htable), h.rest hy]

/-- One more byte. -/
theorem push (h : Carries E out offset x d) (hout : out.length < E.size) (b : Byte)
    (houtp : e.outp = d.outp + 1) (hoffset : e.offset = d.offset)
    (hcoder : { e.toCoder with bitctx := d.bitctx } =
      { d.toCoder with mem := store8 d.mem d.outp b }) :
    Carries E (out ++ [b]) offset x e := by
  obtain ⟨hinp, hrvalue, hisize, hbitbuf, -, hmem⟩ := Coder.mk.inj hcoder
  obtain ⟨⟨hinterval, hbuf, hle, hat⟩, hvalid, hprob⟩ := h.coder
  have hlt := E.size_lt
  have hin := E.mem_output hout
  rw [← h.outp] at hin
  have htable : d.outp ∉ range E.S 4096 := fun hmem =>
    Set.disjoint_left.mp E.output hin (E.table_subset hmem)
  refine ⟨?_, fun i hi => ?_, fun y hy => ?_, hoffset ▸ h.offset,
    ⟨⟨?_, hbitbuf.trans hbuf, hle, hinp.trans hat⟩, hvalid, fun k hk => ?_⟩⟩
  · rw [houtp, h.outp, List.length_append, List.length_singleton, BitVec.ofNat_add,
      BitVec.add_assoc]
    rfl
  · rw [List.length_append, List.length_singleton] at hi
    rw [hmem, store8]
    by_cases hlast : i = out.length
    · rw [hlast, ← h.outp, Function.update_self, List.getD_append_right _ _ _ _ (Nat.le_refl _)]
      simp
    · have hne : E.load + BitVec.ofNat 32 i ≠ d.outp := by
        rw [h.outp]
        bv_omega
      rw [Function.update_of_ne hne, h.bytes i (by omega), List.getD_append _ _ _ _ (by omega)]
  · rw [List.length_append, List.length_singleton] at hy
    have hne : y ≠ d.outp := by
      rintro rfl
      refine hy (.inl ?_)
      rw [h.outp, mem_range]
      bv_omega
    rw [hmem, store8, Function.update_of_ne hne]
    exact h.rest fun hmem => hy (hmem.imp_left fun hm => range_subset (by simp) hm)
  · rw [← hinterval, Coder.interval, hrvalue, hisize, Coder.interval]
  · have hdisj : Disjoint (range (k.address E.S) 2) (range d.outp 1) := by
      rw [Set.disjoint_left]
      intro y hy hya
      have hya' : y = d.outp := by
        rw [mem_range] at hya
        bv_omega
      exact htable (hya' ▸ Context.address_subset hk hy)
    rw [← hprob k hk, hmem, load16_congr ((store8_eqOn _ _ _).mono
      (Set.subset_compl_iff_disjoint_right.mpr hdisj))]

end Carries

/-! ## Places -/

/-- Where control is at a place. -/
def Place.control : Place → Control
  | .literal _ => .getbit .literal .call
  | .kind true => .getbit .kindAfterLiteral .call
  | .kind false => .getbit .kindAfterReference .call
  | .repeated => .getbit .repeated .call
  | .unary k _ => .getbit (.unary k) .call
  | .digit k _ _ => .getbit (.digit k) .call
  | .done => .done

/-- What the scratch registers hold at a place. -/
def Place.Holds (d : Depacker) : Place → Prop
  | .literal seen => d.tmp0.toNat = seen ∧ seen ∈ Set.Icc 1 255
  | .unary k i => d.tmp0 = k.base <<< 8 ∧ d.counter.toNat = 2 * i ∧ i ∈ Set.Icc 1 31
  | .digit k i n => d.tmp0 = k.base <<< 8 ∧ d.counter.toNat = 2 * i - 1 ∧ i ∈ Set.Icc 1 31 ∧
      d.tmp1.toNat = n ∧ 1 ≤ n ∧ (n + 1) * 2 ^ i ≤ 2 ^ 32
  | _ => True

theorem Place.Holds.congr {p : Place} {d d' : Depacker} (h : p.Holds d) (htmp0 : d'.tmp0 = d.tmp0)
    (htmp1 : d'.tmp1 = d.tmp1) (hcounter : d'.counter = d.counter) : p.Holds d' := by
  cases p with
  | literal seen => simpa only [Place.Holds, htmp0] using h
  | unary k i => simpa only [Place.Holds, htmp0, hcounter] using h
  | digit k i n => simpa only [Place.Holds, htmp0, htmp1, hcounter] using h
  | _ => trivial

/-- The depacker is where an unpacker and a range decoder are. -/
structure Tracks (E : Setting) (u : Unpacker) (x : Decoder Context) (d : Depacker) : Prop extends
    Carries E u.out u.offset x d where
  /-- Where control is. -/
  control : d.ctl = u.place.control
  /-- The context. -/
  bitctx : ∀ σ, d.ctl = .getbit σ .call → d.bitctx = σ.bitctx d
  /-- The scratch registers. -/
  holds : u.place.Holds d

section places

variable {E : Setting} {π : Depacker.Params} {u v : Unpacker} {x : Decoder Context} {d : Depacker}

/-- At a place, `getbit` is called for the place's context. -/
theorem Tracks.call (h : Tracks E u x d) (hu : u.place ≠ .done) :
    ∃ σ : Site, d.ctl = .getbit σ .call ∧ (u.context E.load).Valid ∧
      Coder.slot (σ.sp E.S) d.bitctx = (u.context E.load).address E.S := by
  have hodd : u.odd E.load = d.outp.getLsbD 0 := by rw [h.outp, Unpacker.odd]
  obtain ⟨σ, n, hctl, hcontext, hholds, hn⟩ : ∃ (σ : Site) (n : ℕ), d.ctl = .getbit σ .call ∧
      σ.context d = u.context E.load ∧ σ.Holds n d ∧ n ≤ 127 := by
    have hcontrol := h.control
    have hholds := h.holds
    rw [Unpacker.context, hodd]
    cases hplace : u.place with
    | literal seen =>
        rw [hplace] at hcontrol hholds
        obtain ⟨rfl, hseen⟩ := hholds
        exact ⟨.literal, 0, hcontrol, rfl, hseen, by omega⟩
    | kind afterLiteral =>
        rw [hplace] at hcontrol
        cases afterLiteral with
        | false => exact ⟨.kindAfterReference, 0, hcontrol, rfl, trivial, by omega⟩
        | true => exact ⟨.kindAfterLiteral, 0, hcontrol, rfl, trivial, by omega⟩
    | repeated =>
        rw [hplace] at hcontrol
        exact ⟨.repeated, 0, hcontrol, rfl, trivial, by omega⟩
    | unary k i =>
        rw [hplace] at hcontrol hholds
        obtain ⟨htmp0, hcounter, hlo, hhi⟩ := hholds
        exact ⟨.unary k, i, hcontrol, by rw [Site.context, hcounter, Place.context],
          ⟨htmp0, hcounter, hlo⟩, by omega⟩
    | digit k i n =>
        rw [hplace] at hcontrol hholds
        obtain ⟨htmp0, hcounter, ⟨hlo, hhi⟩, -⟩ := hholds
        exact ⟨.digit k, 0, hcontrol, by rw [Site.context, hcounter, Place.context],
          ⟨htmp0, by omega, by omega⟩, by omega⟩
    | done => exact absurd hplace hu
  obtain ⟨hvalid, hword⟩ := hholds.context hn
  rw [hcontext] at hvalid hword
  refine ⟨σ, hctl, hvalid, ?_⟩
  rw [h.bitctx σ hctl, hword, ← hcontext]
  exact σ.slot_eq E.S d

/-- A literal begins. -/
theorem Carries.goes_literal (h : Carries E u.out u.offset x d) (hctl : d.ctl = .literal) :
    ∃ d', Goes π [] d d' ∧ Tracks E { u with place := .literal 1 } x d' := by
  have hbegin : Goes π [] d { d with ctl := .getlit, tmp0 := 1 } :=
    .of_step (fun m => by simp only [Depacker.step, hctl]) (by simp [Safe, hctl])
      (by simp [Depacker.delivery, hctl])
  refine ⟨_, hbegin.then (.of_step (fun _ => rfl) trivial rfl), h.congr rfl rfl rfl, rfl, ?_, ?_⟩
  · rintro σ hσ
    cases hσ
    rfl
  · exact ⟨rfl, by decide⟩

/-- A kind after a literal. -/
theorem Carries.goes_kind (h : Carries E u.out u.offset x d) (hctl : d.ctl = .switch) :
    ∃ d', Goes π [] d d' ∧ Tracks E { u with place := .kind true } x d' := by
  refine ⟨d.call .kindAfterLiteral (Depacker.kindContext d.outp),
    .of_step (fun m => by simp only [Depacker.step, hctl]) (by simp [Safe, hctl])
      (by simp [Depacker.delivery, hctl]), h.congr rfl rfl rfl, rfl, ?_, trivial⟩
  rintro σ hσ
  cases hσ
  rfl

/-- Where a number is read. -/
def Number.read : Number → Control
  | .offset => .readoffset
  | .length => .readlength

/-- A number begins. -/
theorem Carries.goes_number (h : Carries E u.out u.offset x d) {k : Number}
    (hctl : d.ctl = k.read) :
    ∃ d', Goes π [] d d' ∧ Tracks E { u with place := .unary k 1 } x d' := by
  have hread : Goes π [] d { d with ctl := .getnumber k, tmp0 := k.base } := by
    refine .of_step (fun m => ?_) ?_ ?_ <;> cases k <;>
      simp [Depacker.step, Safe, Depacker.delivery, hctl, Number.read]
  have hbegin : Goes π [] { d with ctl := .getnumber k, tmp0 := k.base }
      { d with ctl := .numberloop k, tmp0 := k.base <<< 8, counter := 0 } :=
    .of_step (fun _ => rfl) trivial rfl
  refine ⟨_, (hread.then hbegin).then (.of_step (fun _ => rfl) trivial rfl),
    h.congr rfl rfl rfl, rfl, ?_, rfl, show (0 + 2 : Word).toNat = 2 * 1 by decide, by decide⟩
  rintro σ hσ
  cases hσ
  rfl

/-- A byte is copied. -/
theorem Carries.goes_copyByte {out : List Byte} {o : ℕ} (hS : π.S = E.S)
    (h : Carries E out (some o) x d) (hctl : d.ctl = .copyloop) (htmp0 : d.tmp0 = 0 - d.offset)
    (ho : o ≤ out.length) (hout : out.length < E.size) :
    ∃ d', Goes π [] d (if d.tmp1 - 1 = 0 then d'.call .kindAfterReference
        (Depacker.kindContext d'.outp) else { d' with ctl := .copyloop }) ∧
      Carries E (out ++ [out.getD (out.length - o) 0]) (some o) x d' ∧
      d'.tmp0 = d.tmp0 ∧ d'.tmp1 = d.tmp1 - 1 ∧ d'.offset = d.offset := by
  obtain ⟨hoffset, hpos⟩ := h.offset o rfl
  have hlt := E.size_lt
  have hsource : d.outp + d.tmp0 = E.load + BitVec.ofNat 32 (out.length - o) := by
    rw [h.outp, htmp0]
    bv_omega
  have hload (m : Mem) (hm : Set.EqOn m d.mem (stack π.S)ᶜ) :
      m (d.outp + d.tmp0) = out.getD (out.length - o) 0 := by
    rw [← h.bytes _ (by omega), hsource]
    exact hm (by rw [hS]; exact E.output_notMem_stack (by omega))
  generalize hb : out.getD (out.length - o) 0 = b at hload
  have hread : Goes π [] d { d with ctl := .copyStore, bitctx := b.setWidth 32 } := by
    have hstep (m : Mem) (hm : Set.EqOn m d.mem (stack π.S)ᶜ) : Depacker.step π m d =
        some { d with ctl := .copyStore, bitctx := b.setWidth 32 } := by
      simp only [Depacker.step, hctl, hload m hm]
    exact .of_alone (hstep _ fun _ _ => rfl) ⟨by simp [Safe, hctl], fun m hm =>
      (hstep m hm).trans (hstep _ fun _ _ => rfl).symm⟩ (by simp [Depacker.delivery, hctl])
  have hwrite : Goes π [] { d with ctl := .copyStore, bitctx := b.setWidth 32 }
      (if d.tmp1 - 1 = 0 then Depacker.call { d with
          ctl := .copyStore, bitctx := b.setWidth 32, outp := d.outp + 1, tmp1 := d.tmp1 - 1
          mem := store8 d.mem d.outp b } .kindAfterReference (Depacker.kindContext (d.outp + 1))
        else { d with
          ctl := .copyloop, bitctx := b.setWidth 32, outp := d.outp + 1, tmp1 := d.tmp1 - 1
          mem := store8 d.mem d.outp b }) := by
    refine .of_step (fun m => ?_) ?_ rfl
    · simp [Depacker.step]
    · show d.outp ∉ stack π.S
      rw [hS, h.outp]
      exact E.output_notMem_stack hout
  refine ⟨{ d with
    ctl := .copyStore, bitctx := b.setWidth 32, outp := d.outp + 1, tmp1 := d.tmp1 - 1
    mem := store8 d.mem d.outp b }, hread.then hwrite, ?_, rfl, rfl, rfl⟩
  exact h.push hout b rfl rfl rfl

/-- **The copy loop** copies as the format does. -/
theorem Carries.goes_copy {out : List Byte} {o n : ℕ} (hS : π.S = E.S)
    (h : Carries E out (some o) x d) (hctl : d.ctl = .copyloop) (htmp0 : d.tmp0 = 0 - d.offset)
    (htmp1 : d.tmp1.toNat = n + 1) (ho : o ≤ out.length) (hsize : out.length + (n + 1) ≤ E.size) :
    ∃ d', Goes π [] d (d'.call .kindAfterReference (Depacker.kindContext d'.outp)) ∧
      Carries E (copy out o (n + 1)) (some o) x d' := by
  induction n generalizing out d with
  | zero =>
      obtain ⟨d', hgoes, hd', -⟩ := h.goes_copyByte hS hctl htmp0 ho (by omega)
      rw [if_pos (by bv_omega)] at hgoes
      exact ⟨d', hgoes, hd'⟩
  | succ n ih =>
      obtain ⟨d', hgoes, hd', htmp0', htmp1', hoffset'⟩ :=
        h.goes_copyByte hS hctl htmp0 ho (by omega)
      rw [if_neg (by bv_omega)] at hgoes
      obtain ⟨d'', hgoes', hd''⟩ := ih (hd'.congr (e := { d' with ctl := .copyloop }) rfl rfl rfl)
        rfl (by rw [htmp0', htmp0, hoffset']) (by rw [htmp1']; bv_omega)
        (by simp; omega) (by simp; omega)
      exact ⟨d'', hgoes.then hgoes', hd''⟩

/-! ## Bits -/

variable {σ : Site} {bit : Bool}

theorem toNat_bitWord (bit : Bool) : (Depacker.bitWord bit).toNat = bit.toNat := by
  cases bit <;> decide

/-- `getbit` returns. -/
theorem goes_received (hctl : d.ctl = .getbit σ (.ret bit)) : Goes π [] d (d.received bit σ) :=
  .of_step (fun m => by simp only [Depacker.step, hctl]) (by simp [Safe, hctl])
    (by simp [Depacker.delivery, hctl, Phase.delivery])

/-- A bit of a byte. -/
theorem Carries.received_literal {seen : ℕ} (hS : π.S = E.S) (h : Carries E u.out u.offset x d)
    (hctl : d.ctl = .getbit .literal (.ret bit)) (hplace : u.place = .literal seen)
    (hholds : u.place.Holds d) (hv : u.advance bit = some v) (hlen : v.out.length ≤ E.size) :
    ∃ d' l, u.delivers bit = .bit bit :: l ∧ Goes π l d d' ∧ Tracks E v x d' := by
  rw [hplace] at hholds
  obtain ⟨hseen, hlo, hhi⟩ := hholds
  have hword : (d.tmp0 + d.tmp0 + Depacker.bitWord bit).toNat = 2 * seen + bit.toNat := by
    have hbit := toNat_bitWord bit
    have hle := bit.toNat_le
    bv_omega
  have hstep := goes_received (π := π) hctl
  simp only [Unpacker.advance, hplace] at hv
  simp only [Unpacker.delivers, hplace]
  simp only [Depacker.received, hword] at hstep
  by_cases hx : 2 * seen + bit.toNat ≤ 255
  · -- There are more bits in the byte.
    rw [if_pos hx] at hv hstep ⊢
    cases hv
    refine ⟨_, [], rfl, hstep.then (.of_step (fun _ => rfl) trivial rfl), h.congr rfl rfl rfl, rfl,
      ?_, hword, ?_, hx⟩
    · rintro σ hσ
      cases hσ
      rfl
    · have hle := bit.toNat_le
      omega
  · -- The byte is put out.
    rw [if_neg hx] at hv hstep ⊢
    cases hv
    have hlt : u.out.length < E.size := by
      simp only [List.length_append, List.length_singleton] at hlen
      exact hlen
    generalize hb : (d.tmp0 + d.tmp0 + Depacker.bitWord bit).setWidth 8 = b
    have hbyte : BitVec.ofNat 8 (2 * seen + bit.toNat) = b := by
      rw [← hb, ← hword, BitVec.ofNat_toNat]
    generalize hy : d.tmp0 + d.tmp0 + Depacker.bitWord bit = y at hb hstep
    have hstore : Goes π [.byte b] { d with tmp0 := y, ctl := .storeLiteral }
        { d with tmp0 := y, ctl := .switch, outp := d.outp + 1, mem := store8 d.mem d.outp b } := by
      refine .of_step (fun m => by simp only [Depacker.step, hb]) ?_ (by
        simp [Depacker.delivery, hb])
      show d.outp ∉ stack π.S
      rw [hS, h.outp]
      exact E.output_notMem_stack hlt
    have hpush : Carries E (u.out ++ [b]) u.offset x
        { d with tmp0 := y, ctl := .switch, outp := d.outp + 1, mem := store8 d.mem d.outp b } :=
      h.push hlt b rfl rfl rfl
    rw [hbyte]
    obtain ⟨d', hkind, hd'⟩ := hpush.goes_kind (π := π) (u := { u with
      out := u.out ++ [b], symbols := u.symbols ++ [.literal b] }) rfl
    exact ⟨d', [.byte b], rfl, (hstep.then hstore).trans hkind, hd'⟩

/-- The kind of a symbol, after a literal. -/
theorem Carries.received_kindAfterLiteral (h : Carries E u.out u.offset x d)
    (hctl : d.ctl = .getbit .kindAfterLiteral (.ret bit)) (hplace : u.place = .kind true)
    (hv : u.advance bit = some v) : ∃ d', Goes π [] d d' ∧ Tracks E v x d' := by
  have hstep := goes_received (π := π) hctl
  simp only [Unpacker.advance, hplace] at hv
  cases hv
  cases bit with
  | true =>
      refine ⟨_, hstep, h.congr rfl rfl rfl, rfl, ?_, trivial⟩
      rintro σ hσ
      cases hσ
      rfl
  | false =>
      obtain ⟨d', hgoes, hd'⟩ :=
        (h.congr (e := d.received false .kindAfterLiteral) rfl rfl rfl).goes_literal (π := π) rfl
      exact ⟨d', hstep.then hgoes, hd'⟩

/-- The kind of a symbol, after a reference. -/
theorem Carries.received_kindAfterReference (h : Carries E u.out u.offset x d)
    (hctl : d.ctl = .getbit .kindAfterReference (.ret bit)) (hplace : u.place = .kind false)
    (hv : u.advance bit = some v) : ∃ d', Goes π [] d d' ∧ Tracks E v x d' := by
  have hstep := goes_received (π := π) hctl
  have hcarries : Carries E u.out u.offset x (d.received bit .kindAfterReference) :=
    h.congr rfl rfl rfl
  simp only [Unpacker.advance, hplace] at hv
  cases hv
  cases bit with
  | true =>
      obtain ⟨d', hgoes, hd'⟩ := hcarries.goes_number (π := π) (k := .offset) rfl
      exact ⟨d', hstep.then hgoes, hd'⟩
  | false =>
      obtain ⟨d', hgoes, hd'⟩ := hcarries.goes_literal (π := π) rfl
      exact ⟨d', hstep.then hgoes, hd'⟩

/-- Whether the offset is repeated. -/
theorem Carries.received_repeated (h : Carries E u.out u.offset x d)
    (hctl : d.ctl = .getbit .repeated (.ret bit)) (hplace : u.place = .repeated)
    (hv : u.advance bit = some v) : ∃ d', Goes π [] d d' ∧ Tracks E v x d' := by
  have hstep := goes_received (π := π) hctl
  have hcarries : Carries E u.out u.offset x (d.received bit .repeated) := h.congr rfl rfl rfl
  simp only [Unpacker.advance, hplace] at hv
  cases bit with
  | true =>
      obtain ⟨o, ho, rfl⟩ := Option.map_eq_some_iff.mp hv
      rw [ho] at hcarries
      obtain ⟨d', hgoes, hd'⟩ := hcarries.goes_number (π := π) (k := .length)
        (u := { u with offset := some o, isNew := false }) rfl
      exact ⟨d', hstep.then hgoes, hd'⟩
  | false =>
      cases hv
      obtain ⟨d', hgoes, hd'⟩ := hcarries.goes_number (π := π) (k := .offset) rfl
      exact ⟨d', hstep.then hgoes, hd'⟩

/-- A unary bit of a number. -/
theorem Carries.received_unary {k : Number} {i : ℕ} (h : Carries E u.out u.offset x d)
    (hctl : d.ctl = .getbit (.unary k) (.ret bit)) (hplace : u.place = .unary k i)
    (hholds : u.place.Holds d) (hv : u.advance bit = some v) :
    ∃ d', Goes π [] d d' ∧ Tracks E v x d' := by
  rw [hplace] at hholds
  obtain ⟨htmp0, hcounter, hlo, hhi⟩ := hholds
  have hstep := goes_received (π := π) hctl
  simp only [Unpacker.advance, hplace] at hv
  cases bit with
  | true =>
      rw [if_pos rfl, Option.ite_none_right_eq_some] at hv
      obtain ⟨hi, hv⟩ := hv
      cases hv
      refine ⟨_, hstep.then (.of_step (fun _ => rfl) trivial rfl), h.congr rfl rfl rfl, rfl, ?_,
        htmp0, ?_, by omega, by omega⟩
      · rintro σ hσ
        cases hσ
        rfl
      · show (d.counter + 2).toNat = 2 * (i + 1)
        bv_omega
  | false =>
      cases hv
      refine ⟨_, hstep.then (.of_step (fun _ => rfl) trivial rfl), h.congr rfl rfl rfl, rfl, ?_,
        htmp0, ?_, ⟨hlo, hhi⟩, rfl, by omega, ?_⟩
      · rintro σ hσ
        cases hσ
        rfl
      · show (d.counter - 1).toNat = 2 * i - 1
        bv_omega
      · calc (1 + 1) * 2 ^ i = 2 ^ (i + 1) := by ring
          _ ≤ 2 ^ 32 := Nat.pow_le_pow_right (by decide) (by omega)

/-- A number was read. -/
theorem Carries.goes_gotNumber {k : Number} {n : ℕ} (hS : π.S = E.S)
    (h : Carries E u.out u.offset x d) (hctl : d.ctl = .gotNumber k) (htmp1 : d.tmp1.toNat = n)
    (hn : 2 ≤ n) (hv : u.gotNumber n k = some v) (hlen : v.out.length ≤ E.size) :
    ∃ d', Goes π [] d d' ∧ Tracks E v x d' := by
  cases k with
  | offset =>
      have hoffset : (d.tmp1 - 2).toNat = n - 2 := by bv_omega
      have hstep : Goes π [] d { d with
          ctl := if d.tmp1 - 2 = 0 then .done else .readlength
          tmp1 := d.tmp1 - 2
          offset := d.tmp1 - 2 } :=
        .of_step (fun m => by simp only [Depacker.step, hctl]) (by simp [Safe, hctl])
          (by simp [Depacker.delivery, hctl])
      rw [Unpacker.gotNumber] at hv
      by_cases hzero : n - 2 = 0
      · -- The end.
        rw [if_pos hzero] at hv
        cases hv
        rw [if_pos (by bv_omega)] at hstep
        have hcarries : Carries E u.out none x { d with
            ctl := .done, tmp1 := d.tmp1 - 2, offset := d.tmp1 - 2 } :=
          ⟨h.outp, h.bytes, h.rest, by simp, h.coder⟩
        exact ⟨_, hstep, hcarries, rfl, fun σ hσ => (by cases hσ), trivial⟩
      · rw [if_neg hzero] at hv
        cases hv
        rw [if_neg (by bv_omega)] at hstep
        have hcarries : Carries E u.out (some (n - 2)) x { d with
            ctl := .readlength, tmp1 := d.tmp1 - 2, offset := d.tmp1 - 2 } :=
          ⟨h.outp, h.bytes, h.rest, by rintro o ⟨⟩; exact ⟨hoffset, by omega⟩, h.coder⟩
        obtain ⟨d', hgoes, hd'⟩ := hcarries.goes_number (π := π) (k := .length)
          (u := { u with offset := some (n - 2), isNew := true }) rfl
        exact ⟨d', hstep.then hgoes, hd'⟩
  | length =>
      rw [Unpacker.gotNumber, Option.bind_eq_some_iff] at hv
      obtain ⟨o, ho, hv⟩ := hv
      rw [Option.ite_none_right_eq_some] at hv
      obtain ⟨hle, hv⟩ := hv
      cases hv
      rw [ho] at h
      have hstep : Goes π [] d { d with ctl := .copyloop, tmp0 := 0 - d.offset } :=
        .of_step (fun m => by simp only [Depacker.step, hctl]) (by simp [Safe, hctl])
          (by simp [Depacker.delivery, hctl])
      obtain ⟨n, rfl⟩ : ∃ m, n = m + 1 := ⟨n - 1, by omega⟩
      rw [length_copy] at hlen
      obtain ⟨d', hgoes, hd'⟩ := (h.congr (e := { d with ctl := .copyloop, tmp0 := 0 - d.offset })
        rfl rfl rfl).goes_copy hS rfl rfl htmp1 hle hlen
      refine ⟨_, hstep.then hgoes, ?_, rfl, ?_, trivial⟩
      · rw [ho]
        exact hd'.congr rfl rfl rfl
      · rintro σ hσ
        cases hσ
        rfl

/-- A digit of a number. -/
theorem Carries.received_digit {k : Number} {i n : ℕ} (hS : π.S = E.S)
    (h : Carries E u.out u.offset x d) (hctl : d.ctl = .getbit (.digit k) (.ret bit))
    (hplace : u.place = .digit k i n) (hholds : u.place.Holds d) (hv : u.advance bit = some v)
    (hlen : v.out.length ≤ E.size) :
    ∃ d' l, u.delivers bit = .bit bit :: l ∧ Goes π l d d' ∧ Tracks E v x d' := by
  rw [hplace] at hholds
  obtain ⟨htmp0, hcounter, ⟨hlo, hhi⟩, htmp1, hn, hfits⟩ := hholds
  have hstep := goes_received (π := π) hctl
  have hbit := bit.toNat_le
  -- The number so far stays below `2 ^ 32`.
  have hnext : (2 * n + bit.toNat + 1) * 2 ^ (i - 1) ≤ 2 ^ 32 := by
    calc (2 * n + bit.toNat + 1) * 2 ^ (i - 1) ≤ (2 * n + 1 + 1) * 2 ^ (i - 1) := by gcongr
      _ = (n + 1) * 2 ^ (i - 1 + 1) := by ring
      _ ≤ 2 ^ 32 := by rwa [Nat.sub_add_cancel hlo]
  have hlt : 2 * n + bit.toNat < 2 ^ 32 :=
    Nat.lt_of_lt_of_le (Nat.lt_succ_self _)
      ((Nat.le_mul_of_pos_right _ (Nat.two_pow_pos _)).trans hnext)
  have hword : (d.tmp1 + d.tmp1 + Depacker.bitWord bit).toNat = 2 * n + bit.toNat := by
    have hbits := toNat_bitWord bit
    bv_omega
  simp only [Unpacker.advance, hplace] at hv
  simp only [Unpacker.delivers, hplace]
  simp only [Depacker.received, hcounter] at hstep
  by_cases hi : 2 ≤ i
  · -- There are more digits.
    rw [if_pos hi] at hv ⊢
    rw [if_pos (by omega)] at hstep
    cases hv
    refine ⟨_, [], rfl, hstep.then (.of_step (fun _ => rfl) trivial rfl), h.congr rfl rfl rfl, rfl,
      ?_, htmp0, ?_, ⟨by omega, by omega⟩, hword, by omega, hnext⟩
    · rintro σ hσ
      cases hσ
      rfl
    · show (d.counter - 2).toNat = 2 * (i - 1) - 1
      bv_omega
  · -- The number is complete.
    rw [if_neg hi] at hv ⊢
    rw [if_neg (by omega)] at hstep
    generalize hy : d.tmp1 + d.tmp1 + Depacker.bitWord bit = y at hword hstep
    have hdelivery : BitVec.ofNat 32 (2 * n + bit.toNat) = y := by
      rw [← hword, BitVec.ofNat_toNat, BitVec.setWidth_eq]
    have hpop : Goes π [.number k y]
        { d with ctl := .popNumber k, tmp1 := y, counter := d.counter - 2 }
        { d with ctl := .gotNumber k, tmp1 := y, counter := d.counter - 2 } :=
      .of_step (fun _ => rfl) trivial rfl
    obtain ⟨d', hgoes, hd'⟩ := (h.congr
      (e := { d with ctl := .gotNumber k, tmp1 := y, counter := d.counter - 2 })
      rfl rfl rfl).goes_gotNumber (π := π) hS rfl hword (by omega) hv hlen
    rw [hdelivery]
    exact ⟨d', [.number k y], rfl, (hstep.then hpop).trans hgoes, hd'⟩

/-- **A bit takes the depacker to the next place.** -/
theorem Carries.received (hS : π.S = E.S) (h : Carries E u.out u.offset x d)
    (hctl : d.ctl = .getbit σ (.ret bit)) (hcontrol : u.place.control = .getbit σ .call)
    (hholds : u.place.Holds d) (hv : u.advance bit = some v) (hlen : v.out.length ≤ E.size) :
    ∃ d' l, u.delivers bit = .bit bit :: l ∧ Goes π l d d' ∧ Tracks E v x d' := by
  cases hplace : u.place with
  | literal seen =>
      rw [hplace] at hcontrol
      cases hcontrol
      exact h.received_literal hS hctl hplace hholds hv hlen
  | kind afterLiteral =>
      have hl : u.delivers bit = [.bit bit] := by rw [Unpacker.delivers, hplace]
      rw [hplace] at hcontrol
      cases afterLiteral with
      | false =>
          cases hcontrol
          obtain ⟨d', hgoes, hd'⟩ := h.received_kindAfterReference hctl hplace hv
          exact ⟨d', [], hl, hgoes, hd'⟩
      | true =>
          cases hcontrol
          obtain ⟨d', hgoes, hd'⟩ := h.received_kindAfterLiteral hctl hplace hv
          exact ⟨d', [], hl, hgoes, hd'⟩
  | repeated =>
      have hl : u.delivers bit = [.bit bit] := by rw [Unpacker.delivers, hplace]
      rw [hplace] at hcontrol
      cases hcontrol
      obtain ⟨d', hgoes, hd'⟩ := h.received_repeated hctl hplace hv
      exact ⟨d', [], hl, hgoes, hd'⟩
  | unary k i =>
      have hl : u.delivers bit = [.bit bit] := by rw [Unpacker.delivers, hplace]
      rw [hplace] at hcontrol
      cases hcontrol
      obtain ⟨d', hgoes, hd'⟩ := h.received_unary hctl hplace hholds hv
      exact ⟨d', [], hl, hgoes, hd'⟩
  | digit k i n =>
      rw [hplace] at hcontrol
      cases hcontrol
      exact h.received_digit hS hctl hplace hholds hv hlen
  | done => rw [hplace] at hcontrol; cases hcontrol

variable {y : Decoder Context}

/-- **The depacker goes where the plain decoder goes**, from one place to the next. On the way, it
returns from `getbit` with the words read that the plain decoder has read. -/
theorem Tracks.step (hS : π.S = E.S) (h : Tracks E u x d)
    (hstep : Reference.step E.load (bitAt E.word) ⟨u, x⟩ = some ⟨v, y⟩)
    (hlen : v.out.length ≤ E.size) (hwords : loaded 32 y.pos ≤ E.words) :
    ∃ d₁ d', Goes π [] d d₁ ∧ (∃ σ bit, d₁.ctl = .getbit σ (.pop bit)) ∧
      d₁.inp = E.intro + BitVec.ofNat 32 (4 * loaded 32 y.pos) ∧
      Goes π (u.delivers (Reference.bit E.load (bitAt E.word) ⟨u, x⟩)) d₁ d' ∧
      Tracks E v y d' := by
  obtain ⟨hu, hadvance, hdecode⟩ := Reference.step_eq_some.mp hstep
  simp only at hu hadvance hdecode
  obtain ⟨σ, hctl, hvalid, hslot⟩ := h.call hu
  have hout : u.out.length ≤ E.size := (Unpacker.advance_out_le hadvance).trans hlen
  obtain ⟨c, hgetbit, hc, hcmem⟩ := goes_getbit (π := π) (k := u.context E.load) hctl hvalid
    (by rw [hS]; exact hslot) (by rw [hS]; exact h.coder) (fun j hj => by
      rw [hS]
      rw [hdecode] at hj
      exact h.held hout (hj.trans_le hwords))
  rw [Reference.bit]
  generalize (x.decode adaptation (bitAt E.word) (u.context E.load)).1 = bit at *
  rw [hdecode] at hc
  rw [hS] at hc hcmem
  have hcarries := h.coded (e := { d with toCoder := c, ctl := .getbit σ (.ret bit) }) hout hc hcmem
    rfl rfl rfl
  obtain ⟨d', l, hl, hgoes, hd'⟩ := hcarries.received hS rfl (h.control ▸ hctl)
    (h.holds.congr rfl rfl rfl) hadvance hlen
  refine ⟨_, d', hgetbit, ⟨σ, bit, rfl⟩, hc.reads.inp_eq, ?_, hd'⟩
  rw [hl]
  exact (goes_return rfl).trans hgoes

/-- The depacker starts where the plain decoder does. -/
theorem goes_start (hS : π.S = E.S) (hload : π.load = E.load) (hintro : π.intro = E.intro)
    (hctl : d.ctl = .start) (hmem : d.mem = E.mem) :
    ∃ d', Goes π [] d d' ∧ Tracks E .start Reference.start.decoder d' := by
  have hsetup : Goes π [] d { d with
      ctl := .init, inp := π.intro, outp := π.load, isize := 1, bitbuf := 0x80000000
      rvalue := 1024, bitctx := 0x80008000 } :=
    .of_step (fun m => by simp only [Depacker.step, hctl]) (by simp [Safe, hctl])
      (by simp [Depacker.delivery, hctl])
  obtain ⟨m, hinit, hout, htable⟩ := goes_init (π := π) (n := 1023) (d := { d with
    ctl := .init, inp := π.intro, outp := π.load, isize := 1, bitbuf := 0x80000000
    rvalue := 1024, bitctx := 0x80008000 }) rfl rfl (by decide) rfl fun k hk hlt => by
      rw [numContexts] at hk
      omega
  rw [hS] at hout htable
  have hcarries : Carries E Unpacker.start.out Unpacker.start.offset Reference.start.decoder
      { d with
        ctl := .literal, inp := π.intro, outp := π.load, isize := 1, bitbuf := 0x80000000
        rvalue := 0, bitctx := 0x80008000, mem := m } := by
    refine ⟨?_, fun i hi => absurd hi (Nat.not_lt_zero i), fun a ha => ?_,
      fun o ho => (by cases ho),
      ⟨⟨rfl, ?_, Nat.le_refl 0, ?_⟩, ⟨⟨?_, ?_⟩, fun k => ?_⟩, fun k hk => ?_⟩⟩
    · show π.load = E.load + BitVec.ofNat 32 0
      rw [hload, BitVec.add_zero]
    · rw [← hmem]
      exact hout fun htable => ha (.inr htable)
    · rfl
    · show π.intro = E.intro + BitVec.ofNat 32 (4 * (loaded 32 0 - loaded 32 0))
      rw [hintro, Nat.sub_self, BitVec.add_zero]
    · decide
    · decide
    · exact show initOneProb ∈ Set.Icc adaptation.lo adaptation.hi by decide
    · exact htable k.entry (k.entry_lt hk)
  obtain ⟨d', hgoes, hd'⟩ := hcarries.goes_literal (π := π) rfl
  exact ⟨d', (hsetup.then hinit).then hgoes, hd'⟩

end places

/-! ## The processor -/

variable {ρ : Rom} {s : Cpu} {word : ℕ → Word} {words size : ℕ}

variable (ρ) in
/-- The processor is at the entry point, some words of the compressed program are in memory, and
there is room for the output. -/
structure Prepared (s : Cpu) (word : ℕ → Word) (words size : ℕ) : Prop extends
    Started (ρ := ρ) s where
  /-- The output lies apart from the stack and the table. -/
  output : Disjoint (range ρ.config.loadAddress size) (range (s.sp - 4120) 4120)
  /-- The words are in memory. -/
  held : ∀ j < words, load32 s.mem (ρ.sym .packedIntro + BitVec.ofNat 32 (4 * j)) = word j
  /-- They lie apart from the stack, the table and the output. -/
  apart : ∀ j < words, Disjoint (range (ρ.sym .packedIntro + BitVec.ofNat 32 (4 * j)) 4)
    (range (s.sp - 4120) 4120 ∪ range ρ.config.loadAddress size)

variable (ρ) in
/-- The compressed program was unpacked, and control is at the end of the main loop. -/
structure Decompressed (s : Cpu) (out : List Byte) (t : Cpu) : Prop where
  /-- At the end of the main loop. -/
  pc : t.pc = ρ.sym .donedecompressing
  /-- The output address is where the output ends. -/
  outp : t.r1 = ρ.config.loadAddress + BitVec.ofNat 32 out.length
  /-- The stack pointer is where the table begins. -/
  sp : t.sp = s.sp - 4096
  /-- The output is where it belongs. -/
  bytes : ∀ i < out.length, t.mem (ρ.config.loadAddress + BitVec.ofNat 32 i) = out.getD i 0
  /-- The rest of memory is what it was, but for the stack and the table. -/
  rest : Set.EqOn t.mem s.mem
    (range ρ.config.loadAddress out.length ∪ range (s.sp - 4120) 4120)ᶜ

variable (ρ) in
/-- The compressed program was unpacked, and the processor is about to enter it. -/
structure Unpacked (s : Cpu) (out : List Byte) (t : Cpu) : Prop where
  /-- The next instruction is the jump. -/
  fetch : ρ.image.fetch t.pc = some (.bx outp)
  /-- It goes to the entry point of the program. -/
  entry : t.r1 = ρ.config.entry
  /-- The stack pointer is what it was. -/
  sp : t.sp = s.sp
  /-- The output is where it belongs. -/
  bytes : ∀ i < out.length, t.mem (ρ.config.loadAddress + BitVec.ofNat 32 i) = out.getD i 0
  /-- The rest of memory is what it was, but for the stack and the table. -/
  rest : Set.EqOn t.mem s.mem
    (range ρ.config.loadAddress out.length ∪ range (s.sp - 4120) 4120)ᶜ

/-- An address of a word is aligned. -/
theorem align4_packedIntro (j : ℕ) : align4 (ρ.sym .packedIntro + BitVec.ofNat 32 (4 * j)) =
    ρ.sym .packedIntro + BitVec.ofNat 32 (4 * j) := by
  have h := ρ.packedIntro_aligned
  exact align4_of_aligned (by bv_omega)

/-- The setting. -/
def Prepared.setting (h : Prepared ρ s word words size) : Setting where
  load := ρ.config.loadAddress
  intro := ρ.sym .packedIntro
  S := s.sp - 4096
  word := word
  words := words
  size := size
  mem := s.mem
  aligned := by
    have hsp := h.sp
    bv_omega
  output := by
    rw [show s.sp - 4096 - 24 = s.sp - 4120 by bv_omega]
    exact h.output
  held := fun j hj => by
    have haligned := ρ.packedIntro_aligned
    rw [loadWord_of_aligned _ (by bv_omega)]
    exact h.held j hj
  apart := fun j hj => by
    rw [show s.sp - 4096 - 24 = s.sp - 4120 by bv_omega, align4_packedIntro]
    exact h.apart j hj

/-- The processor gets to where the plain decoder starts. -/
theorem Prepared.start (h : Prepared ρ s word words size) : ∃ d k t,
    iter (stepToBx ρ.image) k s = some t ∧ trace (stepToBx ρ.image) (delivery ρ) k s = [] ∧
      Rel ρ (s.sp - 4096) d t ∧ Tracks h.setting .start Reference.start.decoder d := by
  obtain ⟨d, hgoes, hd⟩ := goes_start (E := h.setting) (π := ρ.params (s.sp - 4096))
    (d := .ofCpu s) rfl rfl rfl rfl rfl
  obtain ⟨k, t, hk, htrace, ht⟩ := hgoes.simulate h.setting.aligned h.toStarted.related.1
  exact ⟨d, k, t, hk, htrace, ht, hd⟩

/-! ## The words that are read -/

/-- When a bit is delivered in the first `n` steps, no more than some words were read. -/
def ReadsWithin (ρ : Rom) (words n : ℕ) (s : Cpu) : Prop :=
  ∀ k < n, ∀ t b, iter (stepToBx ρ.image) k s = some t → delivery ρ t = some (.bit b) →
    (t.r0 - ρ.sym .packedIntro).toNat ≤ 4 * words

variable {t t₀ : Cpu} {k n : ℕ} {u v : Unpacker} {x y : Decoder Context} {d : Depacker}

theorem ReadsWithin.append (h₁ : ReadsWithin ρ words k s)
    (ht : iter (stepToBx ρ.image) k s = some t) (h₂ : ReadsWithin ρ words n t) :
    ReadsWithin ρ words (k + n) s := by
  intro j hj u b hu hb
  rcases Nat.lt_or_ge j k with hjk | hjk
  · exact h₁ j hjk u b hu hb
  · obtain ⟨i, rfl⟩ := Nat.exists_eq_add_of_le hjk
    rw [iter_add, ht] at hu
    exact h₂ i (by omega) u b hu hb

/-- Nothing has to be read where no bit is delivered. -/
theorem ReadsWithin.of_trace
    (h : decodedBits (trace (stepToBx ρ.image) (delivery ρ) n s) = []) :
    ReadsWithin ρ words n s := by
  intro k hk t b ht hb
  obtain ⟨r, hr⟩ := trace_eq_append_cons ht hb hk
  rw [hr, decodedBits_append] at h
  simp [decodedBits, Delivery.bit?] at h

/-- There are not so many words that they fill all of memory. -/
theorem Prepared.words_lt (h : Prepared ρ s word words size) : words + 1 < 2 ^ 30 := by
  have hout {a : Word} (ha : a ∈ range (s.sp - 4120) 4120) :
      words ≤ (a - ρ.sym .packedIntro).toNat / 4 := by
    by_contra hlt
    have hword : a ∈ range (ρ.sym .packedIntro +
        BitVec.ofNat 32 (4 * ((a - ρ.sym .packedIntro).toNat / 4))) 4 := by
      rw [mem_range]
      bv_omega
    exact Set.disjoint_left.mp (h.apart _ (Nat.lt_of_not_le hlt)) hword (.inl ha)
  have hfirst := hout (a := s.sp - 4120) (by simp [mem_range])
  have hnext := hout (a := s.sp - 4116) (by rw [mem_range]; bv_omega)
  bv_omega

/-- **The processor goes where the plain decoder goes**, and reads no more words. -/
theorem Prepared.step (h : Prepared ρ s word words size) (hrel : Rel ρ (s.sp - 4096) d t₀)
    (hd : Tracks h.setting u x d)
    (hstep : Reference.step ρ.config.loadAddress (bitAt word) ⟨u, x⟩ = some ⟨v, y⟩)
    (hlen : v.out.length ≤ size) (hwords : loaded 32 y.pos ≤ words) :
    ∃ d' k t, iter (stepToBx ρ.image) k t₀ = some t ∧
      trace (stepToBx ρ.image) (delivery ρ) k t₀ =
        u.delivers (Reference.bit ρ.config.loadAddress (bitAt word) ⟨u, x⟩) ∧
      Rel ρ (s.sp - 4096) d' t ∧ Tracks h.setting v y d' ∧ ReadsWithin ρ words k t₀ := by
  obtain ⟨d₁, d', hgetbit, ⟨σ, bit, hctl⟩, hinp, hgoes, hd'⟩ :=
    hd.step (π := ρ.params (s.sp - 4096)) rfl hstep hlen hwords
  obtain ⟨k₁, t₁, hk₁, htrace₁, hrel₁⟩ := hgetbit.simulate h.setting.aligned hrel
  obtain ⟨k₂, t₂, hk₂, htrace₂, hrel₂⟩ := hgoes.simulate h.setting.aligned hrel₁
  refine ⟨d', k₁ + k₂, t₂, iter_trans _ hk₁ hk₂, ?_, hrel₂, hd', ?_⟩
  · rw [trace_add _ _ hk₁, htrace₁, htrace₂]
    rfl
  -- The bit is delivered first, where the words are read that the plain decoder has read.
  have hr0 : t₁.r0 = ρ.sym .packedIntro + BitVec.ofNat 32 (4 * loaded 32 y.pos) := by
    rw [Rel, hctl] at hrel₁
    obtain ⟨s₀, -, hin, -⟩ := hrel₁
    exact hin.inp.trans hinp
  refine ReadsWithin.append (.of_trace (by rw [htrace₁]; rfl)) hk₁ fun j hj w b hw hb => ?_
  cases j with
  | zero =>
      cases hw
      have hlt := h.words_lt
      rw [hr0]
      bv_omega
  | succ j =>
      obtain ⟨r, hr⟩ := trace_eq_append_cons hw hb hj
      obtain ⟨w', hw', -⟩ := (iter_succ_eq_some _).mp hw
      have hbits : decodedBits (trace (stepToBx ρ.image) (delivery ρ) k₂ t₁) = [_] :=
        (congrArg decodedBits htrace₂).trans (Unpacker.decodedBits_delivers _ _)
      rw [hr, trace_succ_of_step _ hw'] at hbits
      have hfirst : delivery ρ t₁ = some (.bit bit) := by
        rw [hrel₁.delivery h.setting.aligned, Depacker.delivery, hctl]
        rfl
      rw [hfirst] at hbits
      simp [decodedBits, Delivery.bit?] at hbits

/-- **The processor follows runs of the plain decoder.** -/
theorem Prepared.follows (h : Prepared ρ s word words size) (hrel : Rel ρ (s.sp - 4096) d t₀)
    (hd : Tracks h.setting u x d)
    (hrun : iter (Reference.step ρ.config.loadAddress (bitAt word)) n ⟨u, x⟩ = some ⟨v, y⟩)
    (hlen : v.out.length ≤ size) (hwords : loaded 32 y.pos ≤ words) :
    ∃ d' k t, iter (stepToBx ρ.image) k t₀ = some t ∧
      trace (stepToBx ρ.image) (delivery ρ) k t₀ =
        Reference.deliveries ρ.config.loadAddress (bitAt word) n ⟨u, x⟩ ∧
      Rel ρ (s.sp - 4096) d' t ∧ Tracks h.setting v y d' ∧ ReadsWithin ρ words k t₀ := by
  induction n generalizing t₀ u x d with
  | zero =>
      cases hrun
      exact ⟨d, 0, t₀, rfl, rfl, hrel, hd, fun j hj => absurd hj (Nat.not_lt_zero j)⟩
  | succ n ih =>
      obtain ⟨⟨w, z⟩, hstep, hrun⟩ := (iter_succ_eq_some _).mp hrun
      obtain ⟨hout, hpos⟩ := Reference.iter_mono hrun
      obtain ⟨d₁, k₁, t₁, hk₁, htrace₁, hrel₁, hd₁, hreads₁⟩ :=
        h.step hrel hd hstep (hout.trans hlen) ((loaded_mono hpos).trans hwords)
      obtain ⟨d₂, k₂, t₂, hk₂, htrace₂, hrel₂, hd₂, hreads₂⟩ := ih hrel₁ hd₁ hrun
      refine ⟨d₂, k₁ + k₂, t₂, iter_trans _ hk₁ hk₂, ?_, hrel₂, hd₂, hreads₁.append hk₁ hreads₂⟩
      rw [trace_add _ _ hk₁, htrace₁, htrace₂, Reference.deliveries_succ hstep]

/-- **The processor unpacks what the plain decoder unpacks**: it delivers what the unpacker does,
reads no more words, and gets to the end of the main loop. -/
theorem Prepared.run (h : Prepared ρ s word words size) {x : Reference}
    (hrun : iter (Reference.step ρ.config.loadAddress (bitAt word)) n .start = some x)
    (hlen : x.unpacker.out.length ≤ size) (hwords : loaded 32 x.decoder.pos ≤ words) :
    ∃ d k t, iter (stepToBx ρ.image) k s = some t ∧
      trace (stepToBx ρ.image) (delivery ρ) k s =
        Reference.deliveries ρ.config.loadAddress (bitAt word) n .start ∧
      Rel ρ (s.sp - 4096) d t ∧ Tracks h.setting x.unpacker x.decoder d ∧
      ReadsWithin ρ words k s := by
  obtain ⟨d, k, t, hk, htrace, hrel, hd⟩ := h.start
  obtain ⟨d', k', t', hk', htrace', hrel', hd', hreads⟩ :=
    h.follows (v := x.unpacker) (y := x.decoder) hrel hd hrun hlen hwords
  refine ⟨d', k + k', t', iter_trans _ hk hk', ?_, hrel', hd',
    ReadsWithin.append (.of_trace (by rw [htrace]; rfl)) hk hreads⟩
  rw [trace_add _ _ hk, htrace, htrace', List.nil_append]
  rfl

/-! ## The end -/

/-- What memory holds but for the stack: the output, and what it was elsewhere. -/
theorem Prepared.memory (h : Prepared ρ s word words size) (hd : Tracks h.setting u x d)
    (hlen : u.out.length ≤ size) (hmem : Set.EqOn t.mem d.mem (stack (s.sp - 4096))ᶜ) :
    (∀ i < u.out.length, t.mem (ρ.config.loadAddress + BitVec.ofNat 32 i) = u.out.getD i 0) ∧
      Set.EqOn t.mem s.mem
        (range ρ.config.loadAddress u.out.length ∪ range (s.sp - 4120) 4120)ᶜ := by
  have htop : s.sp - 4120 = s.sp - 4096 - 24 := by bv_omega
  refine ⟨fun i hi => ?_, fun a ha => ?_⟩
  · rw [← hd.bytes i hi]
    exact hmem (h.setting.output_notMem_stack (Nat.lt_of_lt_of_le hi hlen))
  · have hrange : a ∉ range (s.sp - 4096 - 24) 4120 := fun hin => ha (.inr (by rwa [htop]))
    rw [hmem fun hin => hrange (h.setting.stack_subset hin)]
    exact hd.rest fun hin => ha (hin.imp_right fun hin => by
      rw [htop]
      exact h.setting.table_subset hin)

section done

variable (h : Prepared ρ s word words size) (ht : Rel ρ (s.sp - 4096) d t)
  (hd : Tracks h.setting u x d) (hdone : u.place = .done) (hlen : u.out.length ≤ size)
include ht hd hdone hlen

/-- **When the plain decoder is done, the program is decompressed.** -/
theorem Prepared.decompressed : Decompressed ρ s u.out t ∧
    t.r0 = ρ.sym .packedIntro + BitVec.ofNat 32 (4 * loaded 32 x.pos) := by
  have hctl : d.ctl = .done := by rw [hd.control, hdone, Place.control]
  obtain ⟨hbytes, hrest⟩ := h.memory hd hlen ht.mem_eqOn
  rw [Rel, hctl] at ht
  exact ⟨⟨ht.pc, ht.outp.trans hd.outp, ht.sp, hbytes, hrest⟩,
    ht.inp.trans hd.coder.reads.inp_eq⟩

/-- At the end of the main loop, all that is left is to jump to the program. -/
theorem Prepared.finish (hdebug : ρ.config.debugChecks = false) :
    ∃ k t', iter (stepToBx ρ.image) k t = some t' ∧
      trace (stepToBx ρ.image) (delivery ρ) k t = [.finish] ∧ Unpacked ρ s u.out t' ∧
      t'.r0 = ρ.sym .packedIntro + BitVec.ofNat 32 (4 * loaded 32 x.pos) := by
  have hctl : d.ctl = .done := by rw [hd.control, hdone, Place.control]
  have hfinish : Goes (ρ.params (s.sp - 4096)) [.finish] d
      { d with ctl := .exit, outp := ρ.config.entry } :=
    .of_step (fun m => by simp [Depacker.step, hctl, Rom.params, hdebug]) (by simp [Safe, hctl])
      (by simp [Depacker.delivery, hctl])
  obtain ⟨k, t', hk, htrace, ht'⟩ := hfinish.simulate h.setting.aligned ht
  obtain ⟨hbytes, hrest⟩ := h.memory hd hlen ht'.mem_eqOn
  obtain ⟨hregs, hpc, hsp, hr1, -⟩ := ht'
  refine ⟨k, t', hk, htrace, ⟨?_, hr1, ?_, hbytes, hrest⟩, ?_⟩
  · rw [hpc, ρ.fetch_bx hdebug]
  · rw [hsp]
    exact BitVec.sub_add_cancel s.sp 4096
  · rw [hregs.inp]
    exact hd.coder.reads.inp_eq

end done

/-- The processor is done when the plain decoder is. -/
theorem Prepared.unpacks (h : Prepared ρ s word words size)
    (hdebug : ρ.config.debugChecks = false) {n : ℕ} {x : Reference}
    (hrun : iter (Reference.step ρ.config.loadAddress (bitAt word)) n .start = some x)
    (hdone : x.unpacker.place = .done) (hlen : x.unpacker.out.length ≤ size)
    (hwords : loaded 32 x.decoder.pos ≤ words) :
    ∃ k t l, iter (stepToBx ρ.image) k s = some t ∧ Unpacker.Unpacks .start l x.unpacker ∧
      trace (stepToBx ρ.image) (delivery ρ) k s = l ++ [.finish] ∧
      Unpacked ρ s x.unpacker.out t ∧
      t.r0 = ρ.sym .packedIntro + BitVec.ofNat 32 (4 * loaded 32 x.decoder.pos) := by
  obtain ⟨d, k, t, hk, htrace, ht, hd, -⟩ := h.run hrun hlen hwords
  obtain ⟨k', t', hk', htrace', hunpacked, hr0⟩ := h.finish ht hd hdone hlen hdebug
  refine ⟨k + k', t', _, iter_trans _ hk hk', Reference.unpacks hrun, ?_, hunpacked, hr0⟩
  rw [trace_add _ _ hk, htrace, htrace']

/-- **The depacker refines the plain decoder.** Without debug checks, when the plain decoder is
done, the processor has delivered the same bits, bytes and numbers, has read the same words, and is
about to enter the program, which lies at its load address. Memory elsewhere is what it was, but for
the stack. -/
theorem depacker_refines_reference (hdebug : ρ.config.debugChecks = false) {n : ℕ} {x : Reference}
    (hrun : iter (Reference.step ρ.config.loadAddress (bitAt word)) n .start = some x)
    (hdone : x.unpacker.place = .done)
    (h : Prepared ρ s word (loaded 32 x.decoder.pos) x.unpacker.out.length) :
    ∃ k t l, iter (stepToBx ρ.image) k s = some t ∧ Unpacker.Unpacks .start l x.unpacker ∧
      trace (stepToBx ρ.image) (delivery ρ) k s = l ++ [.finish] ∧
      Unpacked ρ s x.unpacker.out t ∧
      t.r0 = ρ.sym .packedIntro + BitVec.ofNat 32 (4 * loaded 32 x.decoder.pos) :=
  h.unpacks hdebug hrun hdone (Nat.le_refl _) (Nat.le_refl _)

/-- The plain decoder puts out three bytes, the last two of which are copied. -/
theorem packed_reference (load : Word) (h : load = 0x02000000 ∨ load = 0x02000001) :
    ∃ x, iter (Reference.step load (bitAt (fun j => byteAndCopy.getD j 0))) 17 .start = some x ∧
      x.unpacker.place = .done ∧ x.unpacker.out = [0x5a, 0x5a, 0x5a] ∧
      loaded 32 x.decoder.pos = 1 := by
  obtain ⟨x, hrun, hx⟩ :
      ∃ x, iter (Reference.step load (bitAt (fun j => byteAndCopy.getD j 0))) 17 .start = some x ∧
        (x.unpacker.place, x.unpacker.out, x.decoder.pos) = (.done, [0x5a, 0x5a, 0x5a], 31) := by
    refine Option.map_eq_some_iff.mp ?_
    rcases h with rfl | rfl <;> decide +kernel
  simp only [Prod.mk.injEq] at hx
  obtain ⟨hdone, hout, hpos⟩ := hx
  exact ⟨x, hrun, hdone, hout, by rw [hpos]; rfl⟩

/-- There is room for these bytes. -/
theorem packedStart_prepared :
    Prepared packedRom packedStart (fun j => byteAndCopy.getD j 0) 1 3 := by
  have hsp : packedStart.sp - 4120 = 0x03006ee8 := by
    rw [packedStart_sp]
    rfl
  have hintro : packedRom.sym .packedIntro = 0x080001a4 := by decide +kernel
  refine ⟨packedStart_started, ?_, fun j hj => ?_, fun j hj => ?_⟩
  · rw [hsp]
    exact disjoint_range (by decide) (by decide)
  · obtain rfl : j = 0 := by omega
    decide +kernel
  · obtain rfl : j = 0 := by omega
    rw [hsp, hintro, Set.disjoint_union_right]
    exact ⟨disjoint_range (by decide) (by decide), disjoint_range (by decide) (by decide)⟩

/-- The cartridge with a program of one byte and a copy. -/
theorem depacker_refines_reference_packedStart : ∃ k t l,
    iter (stepToBx packedRom.image) k packedStart = some t ∧
      trace (stepToBx packedRom.image) (delivery packedRom) k packedStart = l ++ [.finish] ∧
      Unpacked packedRom packedStart [0x5a, 0x5a, 0x5a] t ∧
      t.r0 = packedRom.sym .packedIntro + 4 := by
  obtain ⟨x, hrun, hdone, hout, hloaded⟩ := packed_reference packedRom.config.loadAddress (.inl rfl)
  have hprepared : Prepared packedRom packedStart (fun j => byteAndCopy.getD j 0)
      (loaded 32 x.decoder.pos) x.unpacker.out.length := by
    rw [hloaded, hout]
    exact packedStart_prepared
  obtain ⟨k, t, l, hk, -, htrace, ht, hr0⟩ := depacker_refines_reference rfl hrun hdone hprepared
  rw [hout] at ht
  rw [hloaded] at hr0
  exact ⟨k, t, l, hk, htrace, ht, hr0⟩

end ShrinklerGba.Shrinkler
