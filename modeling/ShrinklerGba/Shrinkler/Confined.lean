import ShrinklerGba.Shrinkler.Apart
import ShrinklerGba.Shrinkler.Refinement

/-!
# Where and when the depacker writes

While a compressed program is unpacked, nothing is written but the output, the stack and the table,
and the output is written in ascending order, each byte once.

* `Depacker.writes` is where the next step writes; `Depacker.step_mem`: nothing else changes.
* `Progress` counts the bytes that were put out; **`Progress.step`**: a step writes the next byte or
  none. `Keeps` is a run of such steps.
* `call_unique`: `getbit` is called once from one place to the next, so that all probabilities that
  are written are the table's.
* **`unpacks_inOrder`**: in every state of the run, memory holds the beginning of the program at the
  load address, and is unchanged elsewhere.
-/

namespace ShrinklerGba.Shrinkler

open Thumb Transition RangeCoding Bitstream

/-! ## What a step writes -/

/-- Where the next step writes. -/
def Depacker.writes (S : Word) (d : Depacker) : Set Word :=
  match d.ctl with
  | .init => range (S + 4 * (d.rvalue - 1)) 4
  | .storeLiteral | .copyStore => range d.outp 1
  | .getbit _ (.store slot _ _) => range slot 2
  | _ => ∅

variable {π : Depacker.Params} {d d' e : Depacker} {m n k : ℕ}

theorem mem_received (bit : Bool) (σ : Site) : (d.received bit σ).mem = d.mem := by
  cases σ <;> cases bit <;> rfl

theorem mem_shift (rd : Mem) (c : Coder) : (c.shift rd).mem = c.mem := by
  unfold Coder.shift
  split <;> rfl

theorem mem_decide (rd : Mem) (slot : Word) (c : Coder) : (c.decide rd slot).2.mem = c.mem := by
  unfold Coder.decide
  dsimp only
  split <;> rfl

/-- **A step writes nowhere else.** -/
theorem Depacker.step_mem {rd : Mem} (h : Depacker.step π rd d = some e) :
    Set.EqOn e.mem d.mem (d.writes π.S)ᶜ := by
  have hsame {A : Set Word} {m : Mem} (hmem : m = d.mem) : Set.EqOn m d.mem A :=
    fun a _ => congrFun hmem a
  unfold Depacker.step at h
  unfold Depacker.writes
  cases hctl : d.ctl with
  | exit => simp only [hctl] at h; cases h
  | init => simp only [hctl] at h; cases h; exact store32_eqOn _ _ _
  | storeLiteral => simp only [hctl] at h; cases h; exact store8_eqOn _ _ _
  | copyStore =>
      simp only [hctl, Option.some.injEq] at h
      subst h
      split <;> exact store8_eqOn _ _ _
  | done =>
      simp only [hctl] at h
      split at h <;> cases h
      exact hsame rfl
  | gotNumber k => cases k <;> simp only [hctl] at h <;> cases h <;> exact hsame rfl
  | getbit σ p =>
      cases p with
      | loop =>
          simp only [hctl, Coder.step] at h
          split at h
          · cases h; exact hsame rfl
          · cases h; exact hsame (mem_shift rd _)
      | load slot => simp only [hctl, Coder.step] at h; cases h; exact hsame (mem_decide rd slot _)
      | store slot prob bit =>
          simp only [hctl, Coder.step] at h
          cases h
          exact store16_eqOn _ _ _
      | ret bit => simp only [hctl] at h; cases h; exact hsame (mem_received bit σ)
      | _ => simp only [hctl, Coder.step] at h; cases h; exact hsame rfl
  | _ => simp only [hctl] at h; cases h; exact hsame rfl

/-! ## Calls of `getbit` -/

/-- Inside a call of `getbit`, until the bit is returned. -/
def Depacker.inside (d : Depacker) : Prop :=
  match d.ctl with
  | .getbit _ .loop | .getbit _ (.load _) | .getbit _ (.store _ _ _) | .getbit _ (.pop _) => True
  | _ => False

/-- Control stays inside until the bit is delivered. -/
theorem inside_step (h : d.inside) (hbit : decodedBits d.delivery.toList = [])
    (hstep : closed π d = some e) : e.inside := by
  unfold closed Depacker.step at hstep
  unfold Depacker.inside at h
  unfold Depacker.delivery at hbit
  cases hctl : d.ctl with
  | getbit σ p =>
      cases p with
      | pop bit => simp only [hctl] at hbit; cases hbit
      | loop =>
          simp only [hctl, Coder.step] at hstep
          split at hstep <;> cases hstep <;> trivial
      | load slot =>
          simp only [hctl, Coder.step, Coder.decide] at hstep
          split at hstep <;> cases hstep <;> trivial
      | store slot prob bit => simp only [hctl, Coder.step] at hstep; cases hstep; trivial
      | _ => simp only [hctl] at h
  | _ => simp only [hctl] at h

theorem inside_of_call {σ : Site} (h : d.ctl = .getbit σ .call) (hstep : closed π d = some e) :
    e.inside := by
  simp only [closed, Depacker.step, h, Coder.step] at hstep
  cases hstep
  trivial

/-- A run inside a call that delivers no bit stays inside. -/
theorem inside_run (h : d.inside) (hrun : iter (closed π) n d = some d')
    (hbits : decodedBits (trace (closed π) Depacker.delivery n d) = []) : d'.inside := by
  induction n generalizing d with
  | zero =>
      cases hrun
      exact h
  | succ n ih =>
      obtain ⟨e, hstep, hrun⟩ := (iter_succ_eq_some _).mp hrun
      rw [trace_succ_of_step _ hstep, decodedBits_append, List.append_eq_nil_iff] at hbits
      exact ih (inside_step h hbits.1 hstep) hrun hbits.2

/-- A run that leaves a call of `getbit` delivers a bit. -/
theorem decodedBits_of_call {σ : Site} (h : d.ctl = .getbit σ .call) (hn : 0 < n)
    (hrun : iter (closed π) n d = some d') (hout : ¬d'.inside) :
    decodedBits (trace (closed π) Depacker.delivery n d) ≠ [] := by
  intro hbits
  obtain ⟨n, rfl⟩ := Nat.exists_eq_succ_of_ne_zero hn.ne'
  obtain ⟨e, hstep, hrun⟩ := (iter_succ_eq_some _).mp hrun
  rw [trace_succ_of_step _ hstep, decodedBits_append, List.append_eq_nil_iff] at hbits
  exact hout (inside_run (inside_of_call h hstep) hrun hbits.2)

/-! ## How much was put out -/

/-- Whether a probability is one of the table's. -/
def InTable (S slot : Word) : Prop := range slot 2 ⊆ range S 4096

/-- Where control may be, and what it holds there. -/
def Depacker.Ready (S : Word) (d : Depacker) : Prop :=
  match d.ctl with
  | .start | .exit => False
  | .init => 1 ≤ d.rvalue.toNat ∧ d.rvalue.toNat ≤ 1024
  | .getbit σ .loop => InTable S (Coder.slot (σ.sp S) d.bitctx)
  | .getbit _ (.load slot) | .getbit _ (.store slot _ _) => InTable S slot
  | _ => True

/-- `k` bytes were put out. -/
structure Progress (π : Depacker.Params) (k : ℕ) (d : Depacker) : Prop where
  /-- The output address. -/
  outp : d.outp = π.load + BitVec.ofNat 32 k
  /-- The output does not reach the stack. -/
  room : k ≤ (π.S - 24 - π.load).toNat
  /-- Where control is. -/
  ready : d.Ready π.S

/-- Nothing has to be held where the main loop and `getnumber` are. -/
def Control.free : Control → Bool
  | .start | .exit | .init => false
  | .getbit _ .loop | .getbit _ (.load _) | .getbit _ (.store _ _ _) => false
  | _ => true

theorem ready_of_free {S : Word} (h : d.ctl.free = true) : d.Ready S := by
  unfold Depacker.Ready
  unfold Control.free at h
  cases hctl : d.ctl with
  | getbit σ p => cases p <;> simp [hctl] at h ⊢
  | _ => simp [hctl] at h ⊢

theorem ready_received (S : Word) (bit : Bool) (σ : Site) : (d.received bit σ).Ready S := by
  refine ready_of_free ?_
  cases σ with
  | literal =>
      show (if _ then Control.getlit else Control.storeLiteral).free = true
      split <;> rfl
  | digit k =>
      show (if _ then Control.bitsloop k else Control.popNumber k).free = true
      split <;> rfl
  | _ => cases bit <;> rfl

theorem outp_received (bit : Bool) (σ : Site) : (d.received bit σ).outp = d.outp := by
  cases σ <;> cases bit <;> rfl

/-- A byte is put out. -/
theorem Progress.put (h : Progress π k d) (hsafe : d.outp ∉ stack π.S) (houtp : e.outp = d.outp + 1)
    (hready : e.Ready π.S) : Progress π (k + 1) e := by
  have hk := h.room
  have hd := h.outp
  -- The byte after the output is not the stack's first.
  have hne : k ≠ (π.S - 24 - π.load).toNat := fun heq => hsafe (by
    rw [hd, stack, mem_range]
    bv_omega)
  exact ⟨by rw [houtp, hd]; bv_omega, by omega, hready⟩

/-- **What a step puts out, and where it writes.** -/
theorem Progress.step (h : Progress π k d) (hsafe : Safe π.S d) (hdone : d.ctl ≠ .done)
    (hcall : ∀ σ, d.ctl = .getbit σ .call → InTable π.S (Coder.slot (σ.sp π.S) d.bitctx))
    (hstep : closed π d = some e) : ∃ k', k ≤ k' ∧ Progress π k' e ∧
      d.writes π.S ⊆ range d.outp (k' - k) ∪ range (π.S - 24) 4120 := by
  have hready := h.ready
  have htable : range π.S 4096 ⊆ range (π.S - 24) 4120 := range_subset (by bv_omega)
  -- Nothing is put out.
  have hsame (houtp : e.outp = d.outp) (hready : e.Ready π.S)
      (hwrites : d.writes π.S ⊆ range π.S 4096) : ∃ k', k ≤ k' ∧ Progress π k' e ∧
      d.writes π.S ⊆ range d.outp (k' - k) ∪ range (π.S - 24) 4120 :=
    ⟨k, Nat.le_refl k, ⟨houtp.trans h.outp, h.room, hready⟩,
      (hwrites.trans htable).trans Set.subset_union_right⟩
  -- A byte is put out.
  have hput (hctl : d.outp ∉ stack π.S) (houtp : e.outp = d.outp + 1) (hready : e.Ready π.S)
      (hwrites : d.writes π.S = range d.outp 1) : ∃ k', k ≤ k' ∧ Progress π k' e ∧
      d.writes π.S ⊆ range d.outp (k' - k) ∪ range (π.S - 24) 4120 := by
    refine ⟨k + 1, Nat.le_succ k, h.put hctl houtp hready, ?_⟩
    rw [hwrites, Nat.add_sub_cancel_left]
    exact Set.subset_union_left
  unfold closed Depacker.step at hstep
  unfold Depacker.Ready at hready
  unfold Safe at hsafe
  cases hctl : d.ctl with
  | start => simp only [hctl] at hready
  | exit => simp only [hctl] at hready
  | done => exact absurd hctl hdone
  | init =>
      simp only [hctl] at hready hstep
      cases hstep
      refine hsame rfl ?_ ?_
      · by_cases h0 : d.rvalue - 1 = 0
        · exact ready_of_free (by simp only [h0, if_true]; rfl)
        · simp only [Depacker.Ready, h0, if_false]
          exact ⟨by bv_omega, by bv_omega⟩
      · rw [Depacker.writes, hctl]
        exact range_subset (by bv_omega)
  | storeLiteral =>
      simp only [hctl] at hsafe hstep
      cases hstep
      exact hput hsafe rfl trivial (by rw [Depacker.writes, hctl])
  | copyStore =>
      simp only [hctl, Option.some.injEq] at hsafe hstep
      subst hstep
      refine hput hsafe ?_ ?_ (by rw [Depacker.writes, hctl])
      · split <;> rfl
      · split <;> trivial
  | gotNumber k =>
      have hwrites : d.writes π.S = ∅ := by rw [Depacker.writes, hctl]
      cases k with
      | length =>
          simp only [hctl] at hstep
          cases hstep
          exact hsame rfl trivial (hwrites ▸ Set.empty_subset _)
      | offset =>
          simp only [hctl, Option.some.injEq] at hstep
          subst hstep
          refine hsame rfl (ready_of_free ?_) (hwrites ▸ Set.empty_subset _)
          show (if _ then Control.done else Control.readlength).free = true
          split <;> rfl
  | getbit σ p =>
      cases p with
      | call =>
          simp only [hctl, Coder.step] at hstep
          cases hstep
          exact hsame rfl (hcall σ hctl) (by rw [Depacker.writes, hctl]; exact Set.empty_subset _)
      | loop =>
          simp only [hctl, Coder.step] at hready hstep
          have hwrites : d.writes π.S ⊆ range π.S 4096 := by
            rw [Depacker.writes, hctl]
            exact Set.empty_subset _
          split at hstep <;> cases hstep
          · exact hsame rfl hready hwrites
          · refine hsame rfl ?_ hwrites
            show InTable π.S (Coder.slot (σ.sp π.S) (d.toCoder.shift d.mem).bitctx)
            rw [show (d.toCoder.shift d.mem).bitctx = d.bitctx by unfold Coder.shift; split <;> rfl]
            exact hready
      | load slot =>
          simp only [hctl, Coder.step, Coder.decide] at hready hstep
          have hwrites : d.writes π.S ⊆ range π.S 4096 := by
            rw [Depacker.writes, hctl]
            exact Set.empty_subset _
          split at hstep <;> cases hstep <;> exact hsame rfl hready hwrites
      | store slot prob bit =>
          simp only [hctl, Coder.step] at hready hstep
          cases hstep
          exact hsame rfl trivial (by rw [Depacker.writes, hctl]; exact hready)
      | pop bit =>
          simp only [hctl, Coder.step] at hstep
          cases hstep
          exact hsame rfl trivial (by rw [Depacker.writes, hctl]; exact Set.empty_subset _)
      | ret bit =>
          simp only [hctl] at hstep
          cases hstep
          exact hsame (outp_received bit σ) (ready_received π.S bit σ)
            (by rw [Depacker.writes, hctl]; exact Set.empty_subset _)
  | _ =>
      simp only [hctl] at hstep
      cases hstep
      exact hsame rfl trivial (by rw [Depacker.writes, hctl]; exact Set.empty_subset _)

/-- Where the next step may write, and what must hold for it. -/
structure Depacker.Allowed (π : Depacker.Params) (d : Depacker) : Prop where
  /-- It does not write to the stack. -/
  safe : Safe π.S d
  /-- The depacker is not done. -/
  done : d.ctl ≠ .done
  /-- `getbit` is called for a probability in the table. -/
  call : ∀ σ, d.ctl = .getbit σ .call → InTable π.S (Coder.slot (σ.sp π.S) d.bitctx)

/-- **Where a run writes**: to the next byte of the output, to the stack and to the table. -/
theorem Progress.run (h : Progress π k d) (hrun : iter (closed π) n d = some d')
    (hallowed : ∀ j < n, ∀ e, iter (closed π) j d = some e → e.Allowed π) :
    ∃ k', k ≤ k' ∧ Progress π k' d' ∧ ∀ j < n, ∀ e, iter (closed π) j d = some e →
      ∀ e', closed π e = some e' → ∃ p q, Progress π p e ∧ Progress π q e' ∧ p ≤ q ∧ q ≤ k' ∧
        e.writes π.S ⊆ range e.outp (q - p) ∪ range (π.S - 24) 4120 := by
  induction n generalizing d k with
  | zero =>
      cases hrun
      exact ⟨k, Nat.le_refl k, h, fun j hj => absurd hj (Nat.not_lt_zero j)⟩
  | succ n ih =>
      obtain ⟨e, hstep, hrun⟩ := (iter_succ_eq_some _).mp hrun
      have hd := hallowed 0 (Nat.succ_pos n) d rfl
      obtain ⟨i, hki, he, hwrites⟩ := h.step hd.safe hd.done hd.call hstep
      obtain ⟨k', hik, hd', hrest⟩ := ih he hrun fun j hj a ha =>
        hallowed (j + 1) (Nat.succ_lt_succ hj) a (by rw [iter_succ_of_step hstep, ha])
      refine ⟨k', hki.trans hik, hd', fun j hj a ha b hb => ?_⟩
      cases j with
      | zero =>
          cases ha
          obtain rfl := Option.some.inj (hstep.symm.trans hb)
          exact ⟨k, i, h, he, hki, hik, hwrites⟩
      | succ j =>
          rw [iter_succ_of_step hstep] at ha
          exact hrest j (Nat.lt_of_succ_lt_succ hj) a ha b hb

/-! ## From one place to the next -/

/-- How many bytes were put out. -/
def Depacker.count (load : Word) (d : Depacker) : ℕ := (d.outp - load).toNat

/-- The next step puts out the next byte or none, and writes to the stack and the table besides. -/
def Orderly (E : Setting) (π : Depacker.Params) (e : Depacker) : Prop :=
  ∀ e', closed π e = some e' → e.count E.load ≤ e'.count E.load ∧ e'.count E.load ≤ E.size ∧
    e.writes E.S ⊆ range e.outp (e'.count E.load - e.count E.load) ∪ range (E.S - 24) 4120

/-- The depacker goes from one state to another, delivers `l`, and writes in order. -/
def Keeps (E : Setting) (π : Depacker.Params) (l : List Delivery) (d d' : Depacker) : Prop :=
  Trail (closed π) Depacker.delivery (fun e => Alone π e ∧ Orderly E π e) l d d'

section places

variable {E : Setting} {u v : Unpacker} {x y : Decoder Context} {l : List Delivery}

theorem Setting.size_le : E.size ≤ (E.S - 24 - E.load).toNat := by
  have hmem : E.S - 24 ∈ range (E.S - 24) 4120 := by simp [mem_range]
  have hnot : E.S - 24 ∉ range E.load E.size := Set.disjoint_right.mp E.output hmem
  rwa [mem_range, Nat.not_lt] at hnot

theorem Tracks.free (h : Tracks E u x d) : d.ctl.free = true := by
  rw [h.control]
  cases u.place with
  | kind afterLiteral => cases afterLiteral <;> rfl
  | _ => rfl

theorem Tracks.not_inside (h : Tracks E u x d) : ¬d.inside := by
  rw [Depacker.inside, h.control]
  cases u.place with
  | kind afterLiteral => cases afterLiteral <;> exact id
  | _ => exact id

theorem Progress.count_eq (hload : π.load = E.load) (h : Progress π k d) :
    d.count E.load = k := by
  have hroom := h.room
  rw [Depacker.count, h.outp, hload]
  bv_omega

theorem Tracks.progress (hS : π.S = E.S) (hload : π.load = E.load) (h : Tracks E u x d)
    (hlen : u.out.length ≤ E.size) : Progress π u.out.length d where
  outp := by rw [h.outp, hload]
  room := by
    rw [hS, hload]
    exact hlen.trans E.size_le
  ready := ready_of_free h.free

/-- Where control is not at the end of the main loop any more, it does not get to a place. -/
theorem not_done_of_tracks (hd' : Tracks E v y d') {j : ℕ} (hj : j < n)
    (he : iter (closed π) j d = some e) (hrun : iter (closed π) n d = some d') : e.ctl ≠ .done := by
  intro hctl
  obtain ⟨i, rfl⟩ := Nat.exists_eq_add_of_lt hj
  rw [show j + i + 1 = j + (i + 1) by omega, iter_add, he, Option.bind_some] at hrun
  obtain ⟨a, ha, hrun⟩ := (iter_succ_eq_some _).mp hrun
  have hexit : a.ctl = .exit := by
    simp only [closed, Depacker.step, hctl] at ha
    split at ha <;> cases ha
    rfl
  have hfree := hd'.free
  cases i with
  | zero =>
      cases hrun
      rw [hexit] at hfree
      cases hfree
  | succ i =>
      obtain ⟨b, hb, -⟩ := (iter_succ_eq_some _).mp hrun
      simp only [closed, Depacker.step, hexit] at hb
      cases hb

/-- **A run to a place writes in order.** -/
theorem Goes.keeps (hS : π.S = E.S) (hload : π.load = E.load) (h : Goes π l d d')
    (hd : Progress π k d) (hd' : Tracks E v y d') (hlen : v.out.length ≤ E.size)
    (hcall : ∀ n j, iter (closed π) n d = some d' →
      trace (closed π) Depacker.delivery n d = l → j < n → ∀ e, iter (closed π) j d = some e →
      ∀ σ, e.ctl = .getbit σ .call → InTable π.S (Coder.slot (σ.sp π.S) e.bitctx)) :
    Keeps E π l d d' := by
  obtain ⟨n, hrun, htrace, halone⟩ := h
  obtain ⟨k', -, hk', hwrites⟩ := hd.run hrun fun j hj e he =>
    ⟨(halone j hj e he).safe, not_done_of_tracks hd' hj he hrun,
      hcall n j hrun htrace hj e he⟩
  have hlt := E.size_lt
  -- What was put out is what the plain decoder has put out.
  have heq : k' = v.out.length := by
    rw [← hk'.count_eq hload, Depacker.count, hd'.outp]
    bv_omega
  refine ⟨n, hrun, htrace, fun j hj e he => ⟨halone j hj e he, fun e' he' => ?_⟩⟩
  obtain ⟨p, q, hp, hq, hpq, hqk, hsub⟩ := hwrites j hj e he e' he'
  rw [hp.count_eq hload, hq.count_eq hload]
  rw [hS] at hsub
  exact ⟨hpq, hqk.trans (heq.le.trans hlen), hsub⟩

/-- `getbit` is called once from one place to the next. -/
theorem call_unique {σ τ : Site} {bit : Bool} {j : ℕ} (hctl : d.ctl = .getbit σ .call)
    (hd' : ¬d'.inside) (hrun : iter (closed π) n d = some d')
    (hbits : decodedBits (trace (closed π) Depacker.delivery n d) = [bit]) (hj : j < n)
    (he : iter (closed π) j d = some e) (hectl : e.ctl = .getbit τ .call) : j = 0 := by
  by_contra hne
  obtain ⟨i, rfl⟩ := Nat.exists_eq_add_of_lt hj
  rw [show j + i + 1 = j + (i + 1) by omega] at hrun hbits
  have hrest : iter (closed π) (i + 1) e = some d' := by
    rw [iter_add, he] at hrun
    exact hrun
  have hfirst := decodedBits_of_call hctl (Nat.pos_of_ne_zero hne) he (by
    rw [Depacker.inside, hectl]
    exact id)
  have hsecond : decodedBits (trace (closed π) Depacker.delivery (i + 1) e) ≠ [] :=
    decodedBits_of_call hectl (Nat.succ_pos i) hrest hd'
  rw [trace_add _ _ he, decodedBits_append] at hbits
  have hlen := congrArg List.length hbits
  have h₁ := List.length_pos_of_ne_nil hfirst
  have h₂ := List.length_pos_of_ne_nil hsecond
  simp only [List.length_append, List.length_singleton] at hlen
  omega

/-- **The depacker writes in order**, from one place to the next. -/
theorem Tracks.keeps (hS : π.S = E.S) (hload : π.load = E.load) (h : Tracks E u x d)
    (hstep : Reference.step E.load (bitAt E.word) ⟨u, x⟩ = some ⟨v, y⟩)
    (hlen : v.out.length ≤ E.size) (hwords : loaded 32 y.pos ≤ E.words) :
    ∃ d', Keeps E π (u.delivers (Reference.bit E.load (bitAt E.word) ⟨u, x⟩)) d d' ∧
      Tracks E v y d' := by
  obtain ⟨hu, hadvance, -⟩ := Reference.step_eq_some.mp hstep
  obtain ⟨d₁, d', hgetbit, -, -, hgoes, hd'⟩ := h.step hS hstep hlen hwords
  obtain ⟨σ, hctl, hvalid, hslot⟩ := h.call hu
  have hprogress := h.progress hS hload ((Unpacker.advance_out_le hadvance).trans hlen)
  refine ⟨d', (hgetbit.then hgoes).keeps hS hload hprogress hd' hlen
    fun n j hrun htrace hj e he τ hectl => ?_, hd'⟩
  have hbits := (congrArg decodedBits htrace).trans (Unpacker.decodedBits_delivers u _)
  obtain rfl := call_unique hctl hd'.not_inside hrun hbits hj he hectl
  cases he
  obtain rfl : σ = τ := by
    rw [hctl] at hectl
    cases hectl
    rfl
  rw [hS, hslot]
  exact Context.address_subset hvalid

/-- And from the beginning of the table's initialisation to the first place. -/
theorem keeps_start (hS : π.S = E.S) (hload : π.load = E.load) (hintro : π.intro = E.intro)
    (hctl : d.ctl = .start) (hmem : d.mem = E.mem) : ∃ e d', closed π d = some e ∧
      e.count E.load = 0 ∧ Keeps E π [] e d' ∧ Tracks E .start Reference.start.decoder d' := by
  obtain ⟨d', ⟨n, hrun, htrace, halone⟩, hd'⟩ := goes_start hS hload hintro hctl hmem
  have hstep : closed π d = some { d with
      ctl := .init, inp := π.intro, outp := π.load, isize := 1, bitbuf := 0x80000000
      rvalue := 1024, bitctx := 0x80008000 } := by
    simp only [closed, Depacker.step, hctl]
  cases n with
  | zero =>
      cases hrun
      have hfree := hd'.free
      rw [hctl] at hfree
      cases hfree
  | succ n =>
      rw [iter_succ_of_step hstep] at hrun
      rw [trace_succ_of_step _ hstep] at htrace
      have hrest : Goes π [] _ d' := ⟨n, hrun, (List.append_eq_nil_iff.mp htrace).2,
        fun j hj e he => halone (j + 1) (Nat.succ_lt_succ hj) e (by
          rw [iter_succ_of_step hstep, he])⟩
      refine ⟨_, d', hstep, by simp [Depacker.count, hload], hrest.keeps hS hload (k := 0)
        ⟨by simp, Nat.zero_le _, by simp [Depacker.Ready]⟩ hd' (Nat.zero_le _)
        fun m j hm hnone hj e he σ hectl => ?_, hd'⟩
      -- No bit is delivered, so that `getbit` is not called.
      obtain ⟨i, rfl⟩ := Nat.exists_eq_add_of_lt hj
      rw [show j + i + 1 = j + (i + 1) by omega] at hm hnone
      have hcalled : iter (closed π) (i + 1) e = some d' := by
        rw [iter_add, he] at hm
        exact hm
      rw [trace_add _ _ he, List.append_eq_nil_iff] at hnone
      exact absurd (congrArg decodedBits hnone.2)
        (decodedBits_of_call hectl (Nat.succ_pos i) hcalled hd'.not_inside)

/-- The depacker follows the plain decoder, and writes in order. -/
theorem Tracks.keeps_run (hS : π.S = E.S) (hload : π.load = E.load) (h : Tracks E u x d)
    (hrun : iter (Reference.step E.load (bitAt E.word)) n ⟨u, x⟩ = some ⟨v, y⟩)
    (hlen : v.out.length ≤ E.size) (hwords : loaded 32 y.pos ≤ E.words) :
    ∃ l d', Keeps E π l d d' ∧ Tracks E v y d' := by
  induction n generalizing u x d with
  | zero =>
      cases hrun
      exact ⟨[], d, Trail.refl d, h⟩
  | succ n ih =>
      obtain ⟨⟨w, z⟩, hstep, hrun⟩ := (iter_succ_eq_some _).mp hrun
      obtain ⟨hout, hpos⟩ := Reference.iter_mono hrun
      obtain ⟨e, hkeeps, he⟩ :=
        h.keeps hS hload hstep (hout.trans hlen) ((loaded_mono hpos).trans hwords)
      obtain ⟨l, d', hrest, hd'⟩ := ih he hrun
      exact ⟨_, d', hkeeps.trans hrest, hd'⟩

end places

/-! ## The processor -/

variable {ρ : Rom} {S : Word} {s t : Cpu}

/-- Memory does not change inside a segment. -/
theorem segment_mem (h : Segment (stepToBx ρ.image) (ρ.Inside S) n s t) :
    Segment (stepToBx ρ.image) (fun u => ρ.Inside S u ∧ u.mem = t.mem) n s t := by
  induction h with
  | last h => exact .last h
  | cons h hp hseg ih =>
      obtain ⟨v, hv, hmem⟩ := mem_of_segment hseg
      exact .cons h ⟨hp, (hp.mem_eq hv).symm.trans hmem.symm⟩ ih

/-- The memory that is neither output, of which there are `n` bytes from a `p`-th one on, nor stack
nor table. -/
def Setting.others (E : Setting) (p n : ℕ) : Set Word :=
  (range (E.load + BitVec.ofNat 32 p) n ∪ range (E.S - 24) 4120)ᶜ

theorem others_subset_stack (E : Setting) (p n : ℕ) : E.others p n ⊆ (stack E.S)ᶜ :=
  Set.compl_subset_compl.mpr (stack_subset_area.trans Set.subset_union_right)

theorem others_anti {E : Setting} {p q m n : ℕ} (hqp : q ≤ p) (hlen : p + m ≤ q + n) :
    E.others q n ⊆ E.others p m := by
  refine Set.compl_subset_compl.mpr (Set.union_subset_union_left _ (range_subset ?_))
  bv_omega

/-- **The processor writes where the depacker writes.** In every state on the way, memory holds what
it held, but for the bytes that were put out, and these it keeps. -/
theorem Keeps.simulate {E : Setting} {l : List Delivery} (hS : S.toNat % 4 = 0) (hE : E.S = S)
    (h : Keeps E (ρ.params S) l d d') (hs : Rel ρ S d s) (hd : d.outp = E.load + BitVec.ofNat 32 m)
    (hd' : d'.outp = E.load + BitVec.ofNat 32 k) (hmk : m ≤ E.size ∧ k ≤ E.size) :
    ∃ i t, iter (stepToBx ρ.image) i s = some t ∧ Rel ρ S d' t ∧ m ≤ k ∧
      Set.EqOn t.mem s.mem (E.others m (k - m)) ∧
      ∀ j < i, ∀ u, iter (stepToBx ρ.image) j s = some u → ∃ p, m ≤ p ∧ p ≤ k ∧
        Set.EqOn u.mem s.mem (E.others m (p - m)) ∧
        Set.EqOn t.mem u.mem (E.others p (k - p)) := by
  subst hE
  have hlt := E.size_lt
  obtain ⟨n, hrun, -, hkeeps⟩ := h
  induction n generalizing d s m with
  | zero =>
      cases hrun
      obtain rfl : m = k := by
        rw [hd] at hd'
        bv_omega
      exact ⟨0, s, rfl, hs, Nat.le_refl m, fun _ _ => rfl,
        fun j hj => absurd hj (Nat.not_lt_zero j)⟩
  | succ n ih =>
      obtain ⟨e, hstep, hrun⟩ := (iter_succ_eq_some _).mp hrun
      obtain ⟨halone, horderly⟩ := hkeeps 0 (Nat.succ_pos n) d rfl
      obtain ⟨hle, hsize, hwrites⟩ := horderly e hstep
      have hm : d.count E.load = m := by
        rw [Depacker.count, hd]
        bv_omega
      have he : e.outp = E.load + BitVec.ofNat 32 (e.count E.load) := by
        rw [Depacker.count]
        bv_omega
      rw [hm] at hle hwrites
      rw [hd] at hwrites
      have hrest := fun u hu => ih (s := u) (m := e.count E.load) he ⟨hsize, hmk.2⟩ hu hrun
        fun j hj a ha => hkeeps (j + 1) (Nat.succ_lt_succ hj) a (by
          rw [iter_succ_of_step hstep, ha])
      generalize e.count E.load = q at *
      rw [← halone.reads _ hs.mem_eqOn] at hstep
      obtain ⟨u, ⟨i, hseg⟩, hu⟩ := hs.simulate hS halone.safe hstep
      obtain ⟨k', t, hk', ht, hqk, hlast, hbetween⟩ := hrest u hu
      have hmem : Set.EqOn u.mem s.mem (E.others m (q - m)) := by
        intro a ha
        have hstack := others_subset_stack E _ _ ha
        rw [hu.mem_eqOn hstack, hs.mem_eqOn hstack]
        exact Depacker.step_mem hstep fun hw => ha (hwrites hw)
      have hfirst : Set.EqOn t.mem s.mem (E.others m (k - m)) :=
        (hlast.mono (others_anti hle (by omega))).trans
          (hmem.mono (others_anti (Nat.le_refl m) (by omega)))
      refine ⟨i + 1 + k', t, iter_trans _ hseg.iter_eq hk', ht, hle.trans hqk, hfirst,
        fun j hj v hv => ?_⟩
      rcases Nat.lt_or_ge j (i + 1) with hji | hji
      · cases j with
        | zero =>
            cases hv
            exact ⟨m, Nat.le_refl m, hle.trans hqk, fun _ _ => rfl, hfirst⟩
        | succ j =>
            rw [((segment_mem hseg).inner (Nat.lt_of_succ_lt_succ hji) hv).2]
            exact ⟨q, hle, hqk, hmem, hlast⟩
      · obtain ⟨j, rfl⟩ := Nat.exists_eq_add_of_le hji
        rw [iter_add, hseg.iter_eq, Option.bind_some] at hv
        obtain ⟨p, hqp, hpk, hbefore, hafter⟩ := hbetween j (by omega) v hv
        refine ⟨p, hle.trans hqp, hpk, ?_, hafter⟩
        exact (hbefore.mono (others_anti hle (by omega))).trans
          (hmem.mono (others_anti (Nat.le_refl m) (by omega)))

/-- A step that neither reads nor writes memory. -/
theorem Rel.goes_quietly (hS : S.toNat % 4 = 0) (h : Rel ρ S d s) (hsafe : Safe S d)
    (hstep : Depacker.step (ρ.params S) s.mem d = some e) (hmem : e.mem = d.mem) :
    ∃ n t, iter (stepToBx ρ.image) n s = some t ∧ Rel ρ S e t ∧
      ∀ j ≤ n, ∀ u, iter (stepToBx ρ.image) j s = some u → Set.EqOn u.mem s.mem (stack S)ᶜ := by
  obtain ⟨t, ⟨n, hseg⟩, ht⟩ := h.simulate hS hsafe hstep
  have hsame : Set.EqOn t.mem s.mem (stack S)ᶜ := fun a ha => by
    rw [ht.mem_eqOn ha, h.mem_eqOn ha, hmem]
  refine ⟨n + 1, t, hseg.iter_eq, ht, fun j hj u hu => ?_⟩
  cases j with
  | zero => cases hu; exact fun _ _ => rfl
  | succ j =>
      rcases Nat.lt_or_eq_of_le (Nat.le_of_succ_le_succ hj) with hlt | rfl
      · rw [((segment_mem hseg).inner hlt hu).2]
        exact hsame
      · obtain rfl := Option.some.inj (hseg.iter_eq.symm.trans hu)
        exact hsame

variable {word : ℕ → Word} {words size : ℕ} {x : Reference}

/-- What was put out so far lies where it belongs, and the rest of memory is what it was, but for
the stack and the table. -/
def PartlyUnpacked (ρ : Rom) (s : Cpu) (out : List Byte) (u : Cpu) : Prop :=
  ∃ p ≤ out.length, (∀ i < p, u.mem (ρ.config.loadAddress + BitVec.ofNat 32 i) = out.getD i 0) ∧
    Set.EqOn u.mem s.mem (range ρ.config.loadAddress p ∪ range (s.sp - 4120) 4120)ᶜ

/-- In every state of a run that unpacks a program, memory holds the beginning of the program at the
load address, and is unchanged elsewhere. -/
theorem Prepared.partlyUnpacked (h : Prepared ρ s word words size)
    (hdebug : ρ.config.debugChecks = false)
    (hrun : iter (Reference.step ρ.config.loadAddress (bitAt word)) n .start = some x)
    (hdone : x.unpacker.place = .done) (hlen : x.unpacker.out.length ≤ size)
    (hwords : loaded 32 x.decoder.pos ≤ words) :
    ∃ k t, iter (stepToBx ρ.image) k s = some t ∧ Unpacked ρ s x.unpacker.out t ∧
      t.thumb = true ∧ ∀ j ≤ k, ∀ u, iter (stepToBx ρ.image) j s = some u →
        PartlyUnpacked ρ s x.unpacker.out u := by
  have hS := h.setting.aligned
  have hsize := h.setting.size_lt
  have hrel := h.toStarted.rel
  have htop : h.setting.S - 24 = s.sp - 4120 := by
    show s.sp - 4096 - 24 = _
    bv_omega
  -- The entry point, the run, and the end of the main loop.
  obtain ⟨e, d, hstart, hcount, hfirst, hd⟩ := keeps_start (E := h.setting)
    (π := ρ.params (s.sp - 4096)) (d := .ofCpu s) rfl rfl rfl rfl rfl
  obtain ⟨l, d', hrest, hd'⟩ := hd.keeps_run (π := ρ.params (s.sp - 4096)) (v := x.unpacker)
    (y := x.decoder) rfl rfl hrun hlen hwords
  have hall : Keeps h.setting (ρ.params (s.sp - 4096)) _ _ _ := hfirst.trans hrest
  obtain ⟨k₁, s₁, hk₁, hs₁, hmem₁⟩ := hrel.goes_quietly hS trivial hstart (by cases hstart; rfl)
  have houtp : e.outp = h.setting.load + BitVec.ofNat 32 0 := by
    rw [Depacker.count] at hcount
    bv_omega
  obtain ⟨k₂, s₂, hk₂, hs₂, -, hkept, hbetween⟩ := hall.simulate hS rfl hs₁ houtp hd'.outp
    ⟨Nat.zero_le _, hlen⟩
  have hctl : d'.ctl = .done := by rw [hd'.control, hdone, Place.control]
  obtain ⟨k₃, t, hk₃, ht, hmem₃⟩ := hs₂.goes_quietly
    (e := { d' with ctl := .exit, outp := ρ.config.entry }) hS (by simp [Safe, hctl])
    (by simp [Depacker.step, hctl, Rom.params, hdebug]) rfl
  have hk : iter (stepToBx ρ.image) (k₁ + k₂ + k₃) s = some t :=
    iter_trans _ (iter_trans _ hk₁ hk₂) hk₃
  obtain ⟨k', t', -, hk', -, -, hunpacked, -⟩ := h.unpacks hdebug hrun hdone hlen hwords
  have hstuck : stepToBx ρ.image t = none := by
    rw [stepToBx, ht.2.1, ρ.fetch_bx hdebug]
  obtain rfl := eq_of_stuck hk hstuck hk' (by rw [stepToBx, hunpacked.fetch])
  refine ⟨_, t, hk, hunpacked, ht.1.thumb, fun j hj u hu => ?_⟩
  have hothers {p : ℕ} : (range ρ.config.loadAddress p ∪ range (s.sp - 4120) 4120)ᶜ =
      h.setting.others 0 p := by
    rw [Setting.others, htop, BitVec.ofNat_eq_ofNat, BitVec.add_zero]
    rfl
  have hstack {p : ℕ} : h.setting.others 0 p ⊆ (stack h.setting.S)ᶜ := others_subset_stack _ _ _
  have hbyte {i : ℕ} (hi : i < x.unpacker.out.length) :
      ρ.config.loadAddress + BitVec.ofNat 32 i ∈ (stack h.setting.S)ᶜ :=
    h.setting.output_notMem_stack (Nat.lt_of_lt_of_le hi hlen)
  rcases Nat.lt_or_ge j k₁ with hj₁ | hj₁
  · -- Nothing was put out.
    refine ⟨0, Nat.zero_le _, fun i hi => absurd hi (Nat.not_lt_zero i), ?_⟩
    rw [hothers]
    exact (hmem₁ j hj₁.le u hu).mono hstack
  obtain ⟨j, rfl⟩ := Nat.exists_eq_add_of_le hj₁
  rw [iter_add, hk₁, Option.bind_some] at hu
  have hmem₁' {p : ℕ} : Set.EqOn s₁.mem s.mem (h.setting.others 0 p) :=
    (hmem₁ k₁ (Nat.le_refl k₁) s₁ hk₁).mono hstack
  rcases Nat.lt_or_ge j k₂ with hj₂ | hj₂
  · -- A part was put out.
    obtain ⟨p, -, hp, hbefore, hafter⟩ := hbetween j hj₂ u hu
    refine ⟨p, hp, fun i hi => ?_, ?_⟩
    · have hi' := Nat.lt_of_lt_of_le hi hp
      have hin : ρ.config.loadAddress + BitVec.ofNat 32 i ∈
          h.setting.others p (x.unpacker.out.length - p) := by
        rintro (hmem | hmem)
        · rw [mem_range] at hmem
          change (ρ.config.loadAddress + BitVec.ofNat 32 i -
            (ρ.config.loadAddress + BitVec.ofNat 32 p)).toNat < _ at hmem
          have hsize' : size < 2 ^ 32 := hsize
          bv_omega
        · exact Set.disjoint_left.mp h.setting.output
            (h.setting.mem_output (Nat.lt_of_lt_of_le hi' hlen)) hmem
      rw [← hunpacked.bytes i hi', hmem₃ k₃ (Nat.le_refl k₃) t hk₃ (hbyte hi')]
      exact (hafter hin).symm
    · rw [hothers]
      exact hbefore.trans hmem₁'
  · -- All was put out.
    obtain ⟨j, rfl⟩ := Nat.exists_eq_add_of_le hj₂
    rw [iter_add, hk₂, Option.bind_some] at hu
    have hsame := hmem₃ j (by omega) u hu
    refine ⟨_, Nat.le_refl _, fun i hi => ?_, ?_⟩
    · rw [← hunpacked.bytes i hi, hsame (hbyte hi), hmem₃ k₃ (Nat.le_refl k₃) t hk₃ (hbyte hi)]
    · rw [hothers]
      exact (hsame.mono hstack).trans (hkept.trans hmem₁')

/-- **The output is written in order**, each byte once, and nothing else is written but the stack
and the table, without debug checks. -/
theorem unpacks_inOrder (hdebug : ρ.config.debugChecks = false)
    (hrun : iter (Reference.step ρ.config.loadAddress (bitAt word)) n .start = some x)
    (hdone : x.unpacker.place = .done)
    (h : Prepared ρ s word (loaded 32 x.decoder.pos) x.unpacker.out.length) :
    ∃ k t, iter (stepToBx ρ.image) k s = some t ∧ Unpacked ρ s x.unpacker.out t ∧
      ∀ j ≤ k, ∀ u, iter (stepToBx ρ.image) j s = some u →
        PartlyUnpacked ρ s x.unpacker.out u := by
  obtain ⟨k, t, hk, hunpacked, -, hbetween⟩ :=
    h.partlyUnpacked hdebug hrun hdone (Nat.le_refl _) (Nat.le_refl _)
  exact ⟨k, t, hk, hunpacked, hbetween⟩

/-- A byte and a copy. -/
theorem unpacks_inOrder_packedStart : ∃ k t,
    iter (stepToBx packedRom.image) k packedStart = some t ∧
      Unpacked packedRom packedStart [0x5a, 0x5a, 0x5a] t ∧
      ∀ j ≤ k, ∀ u, iter (stepToBx packedRom.image) j packedStart = some u →
        PartlyUnpacked packedRom packedStart [0x5a, 0x5a, 0x5a] u := by
  obtain ⟨x, hrun, hdone, hout, hloaded⟩ :=
    packed_reference packedRom.config.loadAddress (.inl rfl)
  have hprepared : Prepared packedRom packedStart (fun j => byteAndCopy.getD j 0)
      (loaded 32 x.decoder.pos) x.unpacker.out.length := by
    rw [hloaded, hout]
    exact packedStart_prepared
  obtain ⟨k, t, hk, hunpacked, hbetween⟩ := unpacks_inOrder rfl hrun hdone hprepared
  rw [hout] at hunpacked hbetween
  exact ⟨k, t, hk, hunpacked, hbetween⟩

end ShrinklerGba.Shrinkler
