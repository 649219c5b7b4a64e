import ShrinklerGba.Shrinkler.CheckedRun
import ShrinklerGba.Shrinkler.ExitCode

/-!
# The stack and the context table

Runs of the depacker from its entry point, on any compressed program, as long as no number has more
than 127 unary bits and the output stays away from the stack.

* `Promised` is what a run has to keep to. The debug checks are on or off.
* `contextOf` is the context that a call of `getbit` is for, as the call stack says.
* `Inv` is what the depacker's registers hold; **`Inv.step`** says that steps keep it.
* `StackSafe` is what holds at a state of a run; **`stack_safe`** says that it does.
-/

namespace ShrinklerGba.Shrinkler

open Thumb Transition

variable (ρ : Rom) (S : Word)

/-! ## Runs -/

/-- One more event: a call of `getnumber` begins, or a call of `getbit` for a unary bit. -/
def tally (n : ℕ) : StackEvent → ℕ
  | .push pc x =>
      if pc = ρ.sym .getnumber then 0 else if x.ret = ρ.addr .numberloop 10 then n + 1 else n
  | _ => n

/-- The unary bits of the last number. -/
def unaryCalls (l : List StackEvent) : ℕ := l.foldl (tally ρ) 0

theorem unaryCalls_append (l : List StackEvent) (e : Option StackEvent) :
    unaryCalls ρ (l ++ e.toList) = e.elim (unaryCalls ρ l) (tally ρ (unaryCalls ρ l)) := by
  rw [unaryCalls, List.foldl_append]
  cases e <;> rfl

/-- What a run has to keep to: the numbers are not too long, and the output stays away from the
stack and the table. -/
structure Promised (l : List StackEvent) (s : Cpu) : Prop where
  /-- The numbers are not too long. -/
  unary : unaryCalls ρ l ≤ 127
  /-- No byte is written to the stack or the table. -/
  output : ∀ a, stackEvent ρ s = some (.store a) → a ∉ range (S - 24) 4120

/-- The context that the call of `getbit` on top of the call stack is for: where it was called from,
and what its caller has in the registers. -/
def contextOf : List Saved → Option Context
  | ⟨[outp, tmp0, _], ret, _⟩ :: xs =>
      if ret = Site.ret ρ .literal then some (.literal (outp.getLsbD 0) tmp0.toNat)
      else if ret = Site.ret ρ .kindAfterLiteral ∨ ret = Site.ret ρ .kindAfterReference then
        some (.kind (outp.getLsbD 0))
      else if ret = Site.ret ρ .repeated then some .repeated
      else xs.head?.map fun x =>
        .number (if x.ret = Number.ret ρ .offset then .offset else .length) outp.toNat
  | _ => none

/-- An address is in a region. -/
def Rom.In (R : Region) (a : Word) : Prop :=
  romStart + R.lo ρ.config.toOptions ≤ a.toNat ∧
    a.toNat < romStart + R.hi ρ.config.toOptions

/-- What holds at a state of a run, after events. -/
structure StackSafe (l : List StackEvent) (s : Cpu) : Prop where
  /-- In each region, the stack pointer has its position. -/
  sp : ∀ R, ρ.In R s.pc → R.spOk S s.sp
  /-- Whatever was popped is what had been pushed. -/
  balanced : (replay l).isSome
  /-- Halfwords are accessed in the table, each at the entry of the call's context. -/
  access : ∀ a, stackEvent ρ s = some (.access a) → ∃ xs c, replay l = some xs ∧
    contextOf ρ xs = some c ∧ c.Valid ∧ a = c.address S ∧
    a = s.sp + BitVec.ofNat 32 ctxTableOffset + 2 * c.word ∧ a.toNat % 2 = 0 ∧
    range a 2 ⊆ range S 4096 ∧ Disjoint (range a 2) (range (S - 24) 24)

/-! ## Who calls -/

variable {ρ S} {d d' : Depacker} {u u' : ℕ}

/-- Where `getbit` is called from, after the entry point of the ROM's code. -/
def Site.retOffset (o : Options) : Site → ℕ
  | .literal => symOffset o .getlit + 10
  | .kindAfterLiteral => symOffset o .switch + 4
  | .repeated => symOffset o .switch + 14
  | .kindAfterReference => symOffset o .copyloop + 14
  | .unary _ => symOffset o .numberloop + 10
  | .digit _ => symOffset o .bitsloop + 8

theorem Site.ret_toNat (σ : Site) :
    (σ.ret ρ).toNat = romStart + σ.retOffset ρ.config.toOptions := by
  cases σ <;> exact ρ.addr_toNat rfl (by decide)

theorem Site.ret_ne {σ τ : Site} (h : ∀ o, σ.retOffset o ≠ τ.retOffset o) :
    σ.ret ρ ≠ τ.ret ρ := by
  intro heq
  have hnat := congrArg BitVec.toNat heq
  rw [σ.ret_toNat, τ.ret_toNat] at hnat
  exact h _ (Nat.add_left_cancel hnat)

/-- Calls from `getnumber` return elsewhere than those from the main loop. -/
theorem Site.ret_ne_of_number {σ τ : Site} {k : Number} (hσ : σ.number = some k)
    (hτ : τ.number = none) : σ.ret ρ ≠ τ.ret ρ := by
  refine Site.ret_ne ?_
  rcases σ with _ | _ | _ | _ | (_ | _) | (_ | _) <;> cases hσ <;>
    cases τ <;> cases hτ <;> decide

theorem contextOf_saved_number {σ : Site} {k : Number} (hσ : σ.number = some k) :
    contextOf ρ [σ.saved ρ S d, k.saved ρ S d] = some (.number k d.counter.toNat) := by
  have hne {τ : Site} (hτ : τ.number = none) : σ.ret ρ ≠ τ.ret ρ := Site.ret_ne_of_number hσ hτ
  have h₁ := hne (τ := .literal) rfl
  have h₂ := hne (τ := .kindAfterLiteral) rfl
  have h₃ := hne (τ := .kindAfterReference) rfl
  have h₄ := hne (τ := .repeated) rfl
  cases k <;> simp [contextOf, Site.saved, Number.saved, hσ, h₁, h₂, h₃, h₄, Number.ret_offset_iff]

/-- The call stack says which context a call of `getbit` is for. -/
theorem contextOf_saved (σ : Site) : contextOf ρ
    (σ.saved ρ S d :: (σ.number.map fun k => k.saved ρ S d).toList) = some (σ.context d) := by
  cases σ with
  | literal => simp [contextOf, Site.saved, Site.context, Site.number]
  | kindAfterLiteral =>
      have h₁ : Site.ret ρ .kindAfterLiteral ≠ Site.ret ρ .literal := Site.ret_ne (by decide)
      simp [contextOf, Site.saved, Site.context, Site.number, h₁]
  | repeated =>
      have h₁ : Site.ret ρ .repeated ≠ Site.ret ρ .literal := Site.ret_ne (by decide)
      have h₂ : Site.ret ρ .repeated ≠ Site.ret ρ .kindAfterLiteral := Site.ret_ne (by decide)
      have h₃ : Site.ret ρ .repeated ≠ Site.ret ρ .kindAfterReference := Site.ret_ne (by decide)
      simp [contextOf, Site.saved, Site.context, Site.number, h₁, h₂, h₃]
  | kindAfterReference =>
      have h₁ : Site.ret ρ .kindAfterReference ≠ Site.ret ρ .literal := Site.ret_ne (by decide)
      simp [contextOf, Site.saved, Site.context, Site.number, h₁]
  | unary k => exact contextOf_saved_number rfl
  | digit k => exact contextOf_saved_number rfl

/-! ## What the registers hold -/

/-- What the registers hold in a call of `getbit`, when `u` unary bits were called for. -/
def Site.Holds (u : ℕ) (d : Depacker) : Site → Prop
  | .literal => d.tmp0.toNat ∈ Set.Icc 1 255
  | .unary k => d.tmp0 = k.base <<< 8 ∧ d.counter.toNat = 2 * u ∧ 1 ≤ u
  | .digit k => d.tmp0 = k.base <<< 8 ∧ d.counter.toNat % 2 = 1 ∧ d.counter.toNat ≤ 253
  | _ => True

/-- One more call of `getbit`. -/
def Site.tally (u : ℕ) : Site → ℕ
  | .unary _ => u + 1
  | _ => u

variable (S) in
/-- What the depacker's registers hold, when `u` unary bits were called for. -/
def Inv (u : ℕ) (d : Depacker) : Prop :=
  match d.ctl with
  | .getlit => d.tmp0.toNat ∈ Set.Icc 1 255
  | .getnumber k => d.tmp0 = k.base
  | .numberloop k => d.tmp0 = k.base <<< 8 ∧ d.counter.toNat = 2 * u
  | .bitsloop k => d.tmp0 = k.base <<< 8 ∧ d.counter.toNat % 2 = 1 ∧ d.counter.toNat ≤ 253
  | .getbit σ .call => σ.Holds (σ.tally u) d ∧ d.bitctx = σ.bitctx d
  | .getbit σ .loop => σ.Holds u d ∧ d.bitctx = (σ.context d).word
  | .getbit σ (.load slot) | .getbit σ (.store slot _ _) =>
      σ.Holds u d ∧ slot = (σ.context d).address S
  | .getbit σ _ => σ.Holds u d
  | _ => True

/-- The context of a call is valid, and the code computes it. -/
theorem Site.Holds.context {σ : Site} (h : σ.Holds u d) (hu : u ≤ 127) :
    (σ.context d).Valid ∧ σ.bitctx d = (σ.context d).word := by
  cases σ with
  | literal =>
      obtain ⟨hlo, hhi⟩ := h
      exact ⟨⟨hlo, hhi⟩, Context.word_literal _ _ (by omega)⟩
  | kindAfterLiteral => exact ⟨trivial, Context.word_kind _⟩
  | repeated => exact ⟨trivial, rfl⟩
  | kindAfterReference => exact ⟨trivial, Context.word_kind _⟩
  | unary k =>
      obtain ⟨htmp0, hcounter, hpos⟩ := h
      refine ⟨⟨by omega, by omega⟩, ?_⟩
      rw [Site.bitctx, htmp0]
      exact Context.word_number k _ (by omega)
  | digit k =>
      obtain ⟨htmp0, hodd, hle⟩ := h
      refine ⟨⟨by omega, by omega⟩, ?_⟩
      rw [Site.bitctx, htmp0]
      exact Context.word_number k _ (by omega)

/-- What follows a call of `getbit`. -/
theorem Inv.received {σ : Site} (h : σ.Holds u d) (hu : u ≤ 127) (bit : Bool) :
    Inv S u (d.received bit σ) := by
  cases σ with
  | literal =>
      have hbit : (Depacker.bitWord bit).toNat ≤ 1 := by cases bit <;> decide
      obtain ⟨hlo, hhi⟩ := h
      rw [Depacker.received]
      by_cases hle : (d.tmp0 + d.tmp0 + Depacker.bitWord bit).toNat ≤ 255
      · simp only [if_pos hle, Inv]
        exact ⟨by bv_omega, hle⟩
      · simp only [if_neg hle, Inv]
  | kindAfterLiteral =>
      cases bit with
      | false => trivial
      | true => exact ⟨trivial, rfl⟩
  | repeated => cases bit <;> trivial
  | kindAfterReference => cases bit <;> trivial
  | unary k =>
      obtain ⟨htmp0, hcounter, hpos⟩ := h
      cases bit with
      | true => exact ⟨htmp0, hcounter⟩
      | false =>
          have hpred : (d.counter - 1).toNat = 2 * u - 1 := by bv_omega
          refine ⟨htmp0, ?_, ?_⟩
          · show (d.counter - 1).toNat % 2 = 1
            omega
          · show (d.counter - 1).toNat ≤ 253
            omega
  | digit k =>
      obtain ⟨htmp0, hodd, hle⟩ := h
      rw [Depacker.received]
      by_cases h2 : 2 ≤ d.counter.toNat
      · have hpred : (d.counter - 2).toNat = d.counter.toNat - 2 := by bv_omega
        simp only [if_pos h2, Inv]
        exact ⟨htmp0, by omega, by omega⟩
      · simp only [if_neg h2, Inv]

theorem tally_getnumber (x : Saved) : tally ρ u (.push (ρ.sym .getnumber) x) = 0 := if_pos rfl

theorem tally_getbit (σ : Site) :
    tally ρ u (.push (ρ.sym .getbit) (σ.saved ρ S d)) = σ.tally u := by
  have hne : ρ.sym .getbit ≠ ρ.sym .getnumber := by
    rw [← ρ.addr_zero, ← ρ.addr_zero]
    exact ρ.addr_ne rfl rfl (by decide) (by decide) (by decide)
  have hother (hσ : ∀ o, σ.retOffset o ≠ Site.retOffset o (.unary .offset)) :
      σ.ret ρ ≠ ρ.addr .numberloop 10 := Site.ret_ne (τ := .unary .offset) hσ
  rw [tally, if_neg hne]
  rcases σ with _ | _ | _ | _ | k | (_ | _)
  case unary => exact if_pos rfl
  all_goals exact if_neg (hother (by decide))

/-- **Steps keep what the registers hold**, while the numbers are not too long. -/
theorem Inv.step {π : Depacker.Params} {rd : Mem} (h : Inv π.S u d) (hu : u ≤ 127)
    (hd' : Depacker.step π rd d = some d')
    (hu' : u' = (d.event ρ π.S).elim u (tally ρ u)) (hle : u' ≤ 127) : Inv π.S u' d' := by
  unfold Depacker.step at hd'
  unfold Depacker.event at hu'
  unfold Inv at h
  cases hctl : d.ctl with
  | exit => simp only [hctl] at hd'; cases hd'
  | done =>
      simp only [hctl] at hd'
      split at hd' <;> cases hd'
      trivial
  | init =>
      simp only [hctl] at hd'
      cases hd'
      by_cases h0 : d.rvalue - 1 = 0
      · simp only [if_pos h0, Inv]
      · simp only [if_neg h0, Inv]
  | literal =>
      simp only [hctl] at hd'
      cases hd'
      exact show (1 : Word).toNat ∈ Set.Icc 1 255 from ⟨by decide, by decide⟩
  | getlit => simp only [hctl] at h hd' hu'; cases hd'; subst hu'; exact ⟨h, rfl⟩
  | switch => simp only [hctl] at hd'; cases hd'; exact ⟨trivial, rfl⟩
  | readlength => simp only [hctl] at hd'; cases hd'; exact (rfl : Number.base .length = _)
  | readoffset => simp only [hctl] at hd'; cases hd'; exact (rfl : Number.base .offset = _)
  | copyStore =>
      simp only [hctl] at hd'
      cases hd'
      by_cases h0 : d.tmp1 - 1 = 0
      · simp only [if_pos h0]
        exact ⟨trivial, rfl⟩
      · simp only [if_neg h0]
        trivial
  | getnumber k =>
      simp only [hctl] at h hd' hu'
      cases hd'
      rw [Option.elim_some, tally_getnumber] at hu'
      subst hu'
      refine ⟨?_, rfl⟩
      show d.tmp0 <<< 8 = k.base <<< 8
      rw [h]
  | numberloop k =>
      simp only [hctl] at h hd' hu'
      cases hd'
      obtain ⟨htmp0, hcounter⟩ := h
      have hnext : (d.counter + 2).toNat = 2 * (u + 1) := by bv_omega
      subst hu'
      exact ⟨⟨htmp0, hnext, Nat.succ_pos _⟩, rfl⟩
  | bitsloop k => simp only [hctl] at h hd'; cases hd'; exact ⟨h, rfl⟩
  | gotNumber k =>
      cases k with
      | length => simp only [hctl] at hd'; cases hd'; trivial
      | offset =>
          simp only [hctl] at hd'
          cases hd'
          by_cases h0 : d.tmp1 - 2 = 0
          · simp only [if_pos h0, Inv]
          · simp only [if_neg h0, Inv]
  | getbit σ p =>
      cases p with
      | ret bit =>
          simp only [hctl] at h hd' hu'
          cases hd'
          subst hu'
          exact Inv.received h hu bit
      | call =>
          simp only [hctl, Coder.step, Option.map_some] at h hd' hu'
          cases hd'
          obtain ⟨hholds, hbitctx⟩ := h
          rw [Option.elim_some, tally_getbit] at hu'
          subst hu'
          exact ⟨hholds, hbitctx.trans (hholds.context hle).2⟩
      | loop =>
          simp only [hctl, Coder.step] at h hd' hu'
          subst hu'
          obtain ⟨hholds, hbitctx⟩ := h
          split at hd' <;> cases hd'
          · refine ⟨hholds, ?_⟩
            rw [hbitctx]
            exact σ.slot_eq π.S d
          · refine ⟨hholds, ?_⟩
            have hshift : (d.toCoder.shift rd).bitctx = d.bitctx := by
              rw [Coder.shift]
              split <;> rfl
            exact hshift.trans hbitctx
      | load slot =>
          simp only [hctl, Coder.step, Coder.decide] at h hd' hu'
          subst hu'
          split at hd' <;> cases hd' <;> exact h
      | store slot prob bit =>
          simp only [hctl, Coder.step, Option.map_some] at h hd' hu'
          cases hd'
          subst hu'
          exact h.1
      | pop bit =>
          simp only [hctl, Coder.step, Option.map_some] at h hd' hu'
          cases hd'
          subst hu'
          exact h
  | _ => simp only [hctl] at hd'; cases hd'; trivial

/-! ## The stack pointer in the regions -/

/-- Regions do not overlap. -/
theorem Region.unique {o : Options} {n : ℕ} {R R' : Region} (h : R.lo o ≤ n ∧ n < R.hi o)
    (h' : R'.lo o ≤ n ∧ n < R'.hi o) : R = R' := by
  obtain ⟨hlo, hhi⟩ := h
  obtain ⟨hlo', hhi'⟩ := h'
  have h₁ : R.lo o < R'.hi o := by omega
  have h₂ : R'.lo o < R.hi o := by omega
  clear hlo hhi hlo' hhi'
  revert o
  cases R <;> cases R' <;> decide

theorem Rom.In.unique {R R' : Region} {a : Word} (h : ρ.In R a) (h' : ρ.In R' a) : R = R' := by
  obtain ⟨hlo, hhi⟩ := h
  obtain ⟨hlo', hhi'⟩ := h'
  exact Region.unique (o := ρ.config.toOptions) (n := a.toNat - romStart)
    ⟨by omega, by omega⟩ ⟨by omega, by omega⟩

variable {s : Cpu}

/-- In the region that control is in, the stack pointer has its position. -/
theorem spOk_of_in {R : Region} (hR : ρ.In R s.pc) (hsp : R.spOk S s.sp) :
    ∀ R', ρ.In R' s.pc → R'.spOk S s.sp := fun _ hR' => hR.unique hR' ▸ hsp

theorem spOk_of_inside (h : ρ.Inside S s) : ∀ R, ρ.In R s.pc → R.spOk S s.sp := by
  obtain ⟨R, x, hquiet, hsp⟩ := h
  exact spOk_of_in ⟨hquiet.lo_le, hquiet.lt_hi⟩ (hquiet.sp ▸ hsp)

/-- A place after a label is in a region. -/
theorem Rom.in_addr {R : Region} {l : Label} {k : ℕ} (hl : isCodeLabel l = true) (hk : k < 0x400)
    (h : ∀ o, R.lo o ≤ symOffset o l + k ∧ symOffset o l + k < R.hi o) : ρ.In R (ρ.addr l k) := by
  have ho := h ρ.config.toOptions
  rw [Rom.In, ρ.addr_toNat hl hk]
  omega

/-- The beginning of a subroutine that pushes is in no region. -/
theorem Rom.not_in_sym {R : Region} {l : Label} (hl : isCodeLabel l = true)
    (h : ∀ o, ¬(R.lo o ≤ symOffset o l ∧ symOffset o l < R.hi o)) : ¬ρ.In R (ρ.sym l) := by
  have ho := h ρ.config.toOptions
  rw [Rom.In, ρ.sym_toNat hl]
  omega

theorem Rom.in_sym {R : Region} {l : Label} (hl : isCodeLabel l = true)
    (h : ∀ o, R.lo o ≤ symOffset o l ∧ symOffset o l < R.hi o) : ρ.In R (ρ.sym l) := by
  rw [← ρ.addr_zero]
  exact Rom.in_addr hl (by decide) h

theorem InMain.spOk {pc : Word} (h : InMain S pc d s) (hin : ρ.In .main pc) :
    ∀ R, ρ.In R s.pc → R.spOk S s.sp :=
  spOk_of_in (h.pc ▸ hin) (show Region.spOk S .main s.sp from h.sp)

theorem InNumber.spOk {pc : Word} {k : Number} (h : InNumber ρ S k pc d s)
    (hin : ρ.In .getnumber pc) : ∀ R, ρ.In R s.pc → R.spOk S s.sp :=
  spOk_of_in (h.pc ▸ hin) (show Region.spOk S .getnumber s.sp from h.sp)

theorem Rom.loadAddr_in : ρ.In .getbit ρ.loadAddr := by
  have hin : ∀ o : Options,
      Region.lo o .getbit ≤ symOffset o .loopCondition + ((if o.codeInHeader then 2 else 0) + 8) ∧
        symOffset o .loopCondition + ((if o.codeInHeader then 2 else 0) + 8) <
          Region.hi o .getbit := by decide
  obtain ⟨hlo, hhi⟩ := hin ρ.config.toOptions
  rw [Rom.In, Rom.loadAddr, bytesOf_dummyGameVersion, ρ.addr_toNat rfl (by split <;> decide)]
  omega

/-- Where calls of `getbit` return to. -/
theorem Site.in_ret (σ : Site) :
    ρ.In (if σ.number.isSome then .getnumber else .main) (σ.ret ρ) := by
  rcases σ with _ | _ | _ | _ | (_ | _) | (_ | _) <;>
    exact Rom.in_addr rfl (by decide) (by decide)

theorem Number.in_ret (k : Number) : ρ.In .main (k.ret ρ) := by
  cases k <;> exact Rom.in_addr rfl (by decide) (by decide)

/-- In a call of `getbit`. -/
theorem InGetbit.spOk {σ : Site} {s₀ : Cpu} {p : Phase} (hsp : s₀.sp = σ.sp S)
    (hlr : s₀.lr = σ.ret ρ ||| 1) (h : InGetbit ρ (stack S) s₀ (p, d.toCoder) s) :
    ∀ R, ρ.In R s.pc → R.spOk S s.sp := by
  have hframe (hs : s.sp = s₀.sp - 16) : Region.spOk S .getbit s.sp := by
    rw [hs, hsp, Site.sp]
    split
    · exact .inr (by bv_omega)
    · exact .inl rfl
  cases p with
  | call =>
      intro R hR
      rw [h.at_phase.1] at hR
      exact absurd hR (Rom.not_in_sym rfl (by cases R <;> decide))
  | loop =>
      exact spOk_of_in (h.at_phase.1 ▸ Rom.in_sym rfl (by decide)) (hframe h.at_phase.2.sp)
  | load slot => exact spOk_of_in (h.at_phase.1 ▸ Rom.loadAddr_in) (hframe h.at_phase.2.1.sp)
  | store slot prob bit =>
      exact spOk_of_in (h.at_phase.1 ▸ Rom.in_sym rfl (by decide)) (hframe h.at_phase.2.1.sp)
  | pop bit =>
      exact spOk_of_in (h.at_phase.1 ▸ Rom.in_addr rfl (by decide) (by decide))
        (hframe h.at_phase.2.1.sp)
  | ret bit =>
      obtain ⟨hpc, hregs, -⟩ := h.at_phase
      have hret : s.pc = σ.ret ρ := hpc.trans (hlr ▸ σ.ret_clear)
      refine spOk_of_in (hret ▸ σ.in_ret) ?_
      rw [hregs.sp, hsp, Site.sp]
      split <;> rfl

/-- **At the depacker's places, the stack pointer has its position.** -/
theorem Rel.spOk (h : Rel ρ S d s) : ∀ R, ρ.In R s.pc → R.spOk S s.sp := by
  unfold Rel at h
  cases hctl : d.ctl with
  | start =>
      simp only [hctl] at h
      exact spOk_of_in (R := .start) (h.1 ▸ Rom.in_sym rfl (by decide)) trivial
  | init =>
      simp only [hctl] at h
      exact spOk_of_in (R := .start) (h.2.1 ▸ Rom.in_sym rfl (by decide)) trivial
  | exit =>
      simp only [hctl] at h
      exact spOk_of_in (R := .exit) (h.2.1 ▸ Rom.in_addr rfl (by decide) (by decide)) h.2.2.1
  | getnumber k =>
      simp only [hctl] at h
      intro R hR
      rw [h.1.pc] at hR
      exact absurd hR (Rom.not_in_sym rfl (by cases R <;> decide))
  | storeLiteral | copyStore =>
      simp only [hctl] at h
      exact h.spOk (Rom.in_addr rfl (by decide) (by decide))
  | numberloop k | bitsloop k =>
      simp only [hctl] at h
      exact h.spOk (Rom.in_sym rfl (by decide))
  | popNumber k =>
      simp only [hctl] at h
      exact h.spOk (Rom.in_addr rfl (by decide) (by decide))
  | gotNumber k =>
      simp only [hctl] at h
      exact h.spOk k.in_ret
  | getbit σ p =>
      simp only [hctl] at h
      obtain ⟨s₀, hcall, hin, -⟩ := h
      exact hin.spOk hcall.sp hcall.lr
  | _ =>
      simp only [hctl] at h
      exact h.spOk (Rom.in_sym rfl (by decide))

/-! ## Runs keep to it -/

/-- The depacker is stuck only when it is done. -/
theorem Depacker.step_eq_none {π : Depacker.Params} {rd : Mem} (h : Depacker.step π rd d = none) :
    d.ctl = .exit ∨ d.ctl = .done ∧ π.debugChecks = true := by
  unfold Depacker.step at h
  cases hctl : d.ctl with
  | exit => exact .inl rfl
  | done =>
      simp only [hctl] at h
      split at h
      · rename_i hdebug
        exact .inr ⟨rfl, hdebug⟩
      · cases h
  | gotNumber k => cases k <;> simp only [hctl] at h <;> cases h
  | getbit σ p =>
      cases p with
      | loop =>
          simp only [hctl, Coder.step] at h
          split at h <;> cases h
      | _ => simp only [hctl, Coder.step] at h; cases h
  | _ => simp only [hctl] at h; cases h

/-- Without debug checks, it is at the branch to the program then. -/
theorem Depacker.exit_of_step {rd : Mem} (hdebug : ρ.config.debugChecks = false)
    (h : Depacker.step (ρ.params S) rd d = none) : d.ctl = .exit :=
  (Depacker.step_eq_none h).resolve_right fun hdone =>
    absurd hdone.2 (by simp [hdebug])

variable (ρ S) in
/-- The processor is where the depacker is, and the registers hold what they should. -/
def Related (x : Depacker × ℕ) (s : Cpu) : Prop :=
  Rel ρ S x.1 s ∧ x.2 ≤ 127 ∧ Inv S x.2 x.1

variable (ρ S) in
/-- One step of the depacker. Where the debug checks begin, it is left. -/
inductive Steps : Option (Depacker × ℕ) → Option (Depacker × ℕ) → Prop
  | step {d d' : Depacker} {u : ℕ} (rd : Mem)
      (h : Depacker.step (ρ.params S) rd d = some d') :
      Steps (some (d, u)) (some (d', (d.event ρ S).elim u (tally ρ u)))
  | leave {d : Depacker} {u : ℕ} (hctl : d.ctl = .done) : Steps (some (d, u)) none
  | stay : Steps none none

variable (ρ S) in
/-- What the depacker does next, until it is left. -/
def eventOf (x : Option (Depacker × ℕ)) : Option StackEvent := x.bind fun x => x.1.event ρ S

variable (ρ S) in
/-- What the subroutines that control is in have pushed. -/
def framesOf (x : Option (Depacker × ℕ)) : List Saved := x.elim [] fun x => x.1.frames ρ S

/-- What runs of the depacker did. -/
theorem replay_of_absRun {x : Option (Depacker × ℕ)} {l : List StackEvent} (hd : d.ctl = .start)
    (h : AbsRun (Steps ρ S) (eventOf ρ S) (some (d, 0)) l x) :
    replay l = some (framesOf ρ S x) ∧ ∀ y ∈ x, unaryCalls ρ l = y.2 := by
  induction h with
  | refl =>
      refine ⟨?_, fun y hy => by cases hy; rfl⟩
      rw [framesOf, Option.elim_some, Depacker.frames, hd]
      rfl
  | step _ hstep ih =>
      obtain ⟨hreplay, hunary⟩ := ih
      cases hstep with
      | step rd hstep =>
          refine ⟨(replay_append hreplay _).trans (frames_step hstep), fun y hy => ?_⟩
          cases hy
          rw [unaryCalls_append, hunary _ rfl]
          rfl
      | @leave e u hctl =>
          have hnone : eventOf ρ S (some (e, u)) = none := by
            rw [eventOf, Option.bind_some, Depacker.event, hctl]
          rw [hnone, Option.toList_none, List.append_nil, hreplay]
          refine ⟨?_, fun y hy => by cases hy⟩
          rw [framesOf, Option.elim_some, Depacker.frames, hctl]
          rfl
      | stay => exact ⟨by rwa [eventOf, Option.bind_none, Option.toList_none, List.append_nil],
          fun y hy => by cases hy⟩

/-- What is promised keeps the depacker safe. -/
theorem Related.safe {x : Depacker × ℕ} {l : List StackEvent} (hS : S.toNat % 4 = 0)
    (h : Related ρ S x s) (hC : Promised ρ S l s) : Safe S x.1 := by
  obtain ⟨hrel, hu, hinv⟩ := h
  have hevent := hrel.event hS
  have hstack : stack S ⊆ range (S - 24) 4120 := range_subset (by simp)
  unfold Depacker.event at hevent
  unfold Inv at hinv
  unfold Safe
  cases hctl : x.1.ctl with
  | storeLiteral | copyStore =>
      simp only [hctl] at hevent ⊢
      exact fun hmem => hC.output _ hevent (hstack hmem)
  | getbit σ p =>
      cases p with
      | store slot prob bit =>
          simp only [hctl] at hinv ⊢
          obtain ⟨hholds, rfl⟩ := hinv
          have hvalid := (hholds.context hu).1
          exact (disjoint_range (by simp) (by simp)).mono_left (Context.address_subset hvalid)
      | _ => trivial
  | _ => trivial

/-- Where halfwords are accessed. -/
theorem Related.access {x : Depacker × ℕ} {l : List StackEvent} {a : Word} (hS : S.toNat % 4 = 0)
    (h : Related ρ S x s) (hl : replay l = some (x.1.frames ρ S))
    (ha : stackEvent ρ s = some (.access a)) : ∃ xs c, replay l = some xs ∧
      contextOf ρ xs = some c ∧ c.Valid ∧ a = c.address S ∧
      a = s.sp + BitVec.ofNat 32 ctxTableOffset + 2 * c.word ∧ a.toNat % 2 = 0 ∧
      range a 2 ⊆ range S 4096 ∧ Disjoint (range a 2) (range (S - 24) 24) := by
  obtain ⟨hrel, hu, hinv⟩ := h
  rw [hrel.event hS] at ha
  obtain ⟨σ, hframes, hholds, hslot, hsp⟩ : ∃ σ : Site,
      x.1.frames ρ S = σ.saved ρ S x.1 :: (σ.number.map fun k => k.saved ρ S x.1).toList ∧
        σ.Holds x.2 x.1 ∧ a = (σ.context x.1).address S ∧ s.sp = σ.sp S - 16 := by
    unfold Depacker.event at ha
    unfold Inv at hinv
    unfold Rel at hrel
    cases hctl : x.1.ctl with
    | getbit σ p =>
        cases p with
        | load slot | store slot prob bit =>
            simp only [hctl, Option.some.injEq, StackEvent.access.injEq] at ha hinv hrel
            obtain ⟨s₀, hcall, hin, -⟩ := hrel
            refine ⟨σ, by rw [Depacker.frames, hctl], hinv.1, ha ▸ hinv.2, ?_⟩
            rw [← hcall.sp]
            exact hin.at_phase.2.1.sp
        | _ => simp [hctl] at ha
    | _ => simp [hctl] at ha
  obtain ⟨hvalid, -⟩ := hholds.context hu
  have hsub := Context.address_subset (S := S) hvalid
  refine ⟨_, _, hl, hframes ▸ contextOf_saved σ, hvalid, hslot, ?_, ?_, hslot ▸ hsub, ?_⟩
  · rw [hslot, ← σ.slot_eq, Coder.slot, hsp]
    generalize σ.sp S = sp
    generalize (σ.context x.1).word = w
    generalize BitVec.ofNat 32 ctxTableOffset = ofs
    bv_omega
  · rw [hslot]
    exact Context.address_aligned hS
  · rw [hslot]
    exact (disjoint_range (by simp) (by simp)).mono_left hsub

theorem Started.related (h : Started (ρ := ρ) s) : Related ρ (s.sp - 4096) (.ofCpu s, 0) s :=
  ⟨h.rel, Nat.zero_le _, trivial⟩

variable (ρ S) in
/-- The processor is where the depacker is, or in the code of the debug checks. -/
def Located : Option (Depacker × ℕ) → Cpu → Prop
  | some x, s => Related ρ S x s
  | none, s => ρ.config.debugChecks = true ∧
      Enclosed ρ.image checkLabels ρ.checkAreas (S + 4096) s

/-- The checks and the panic routine are in no other region than the exit. -/
theorem spOk_of_enclosed (h : Enclosed ρ.image checkLabels ρ.checkAreas (S + 4096) s) :
    ∀ R, ρ.In R s.pc → R.spOk S s.sp := by
  obtain ⟨p, hp, hlo, hhi⟩ := h.pc
  simp only [Rom.checkAreas, List.mem_cons, List.not_mem_nil, or_false] at hp
  rcases hp with rfl | rfl
  · exact spOk_of_in (R := .exit) ⟨hlo, hhi⟩ h.sp
  · intro R hR
    have hle : ∀ o : Options, R.hi o ≤ Region.hi o .getnumber := by cases R <;> decide
    have hle := hle ρ.config.toOptions
    have hlt := hR.2
    omega

theorem Located.event {x : Option (Depacker × ℕ)} (hS : S.toNat % 4 = 0) (h : Located ρ S x s) :
    stackEvent ρ s = eventOf ρ S x := by
  cases x with
  | some x => exact h.1.event hS
  | none => exact event_of_enclosed h.2

/-- Whatever has been reached, is stuck or goes on to what comes next. -/
theorem Located.next {x : Option (Depacker × ℕ)} {l : List StackEvent} (hfits : ρ.Fits)
    (hS : S.toNat % 4 = 0) (hd : d.ctl = .start)
    (hl : AbsRun (Steps ρ S) (eventOf ρ S) (some (d, 0)) l x) (hx : Located ρ S x s)
    (hC : Promised ρ S l s) : stepToBx ρ.image s = none ∨ ∃ y n t, Steps ρ S x y ∧
      Segment (stepToBx ρ.image) (fun v => ρ.Inside S v ∧ ∃ z, Steps ρ S x z) n s t ∧
        (Promised ρ S (l ++ (eventOf ρ S x).toList) t → Located ρ S y t) := by
  cases x with
  | none =>
      cases ht : stepToBx ρ.image s with
      | none => exact .inl rfl
      | some t =>
          exact .inr ⟨none, 0, t, .stay, .last ht,
            fun _ => ⟨hx.1, hx.2.step (ρ.entries hfits hx.1) ht⟩⟩
  | some x =>
      obtain ⟨e, u⟩ := x
      cases hstep : Depacker.step (ρ.params S) s.mem e with
      | some d' =>
          obtain ⟨t, ⟨n, hseg⟩, ht⟩ := hx.1.simulate hS (hx.safe hS hC) hstep
          refine .inr ⟨_, n, t, .step _ hstep, hseg.mono fun w hw => ⟨hw, _, .step _ hstep⟩,
            fun hC' => ?_⟩
          obtain ⟨-, hunary⟩ := replay_of_absRun hd (hl.step (.step _ hstep))
          have hle := hC'.unary
          rw [hunary _ rfl] at hle
          exact ⟨ht, hle, hx.2.2.step hx.2.1 hstep rfl hle⟩
      | none =>
          have hrel := hx.1
          rcases Depacker.step_eq_none hstep with hctl | ⟨hctl, hdebug⟩
          · rw [Rel, hctl] at hrel
            refine .inl ?_
            rw [stepToBx, hrel.2.1, ρ.fetch_bx hrel.2.2.2.2]
          · -- The debug checks begin.
            rw [Rel, hctl] at hrel
            cases ht : stepToBx ρ.image s with
            | none => exact .inl rfl
            | some t =>
                refine .inr ⟨none, 0, t, .leave hctl, .last ht, fun _ => ?_⟩
                have henclosed := ρ.enclosed (n := 0) hfits hdebug hrel.pc hrel.thumb
                  (by rw [iter_succ_of_step ht]; rfl)
                rw [hrel.savedSp] at henclosed
                exact ⟨hdebug, henclosed⟩

/-- **The stack and the table are safe.** In every state of a run, with debug checks or without, the
stack pointer has its position, whatever was popped is what had been pushed, and halfwords are
accessed in the table, at the entries of their contexts. Entries of different contexts do not
overlap. -/
theorem stack_safe (hfits : ρ.Fits) (hs : Started (ρ := ρ) s) {n : ℕ} {t : Cpu}
    (hrun : iter (stepToBx ρ.image) n s = some t)
    (hC : ∀ k ≤ n, ∀ u, iter (stepToBx ρ.image) k s = some u →
      Promised ρ (s.sp - 4096) (trace (stepToBx ρ.image) (stackEvent ρ) k s) u) :
    StackSafe ρ (s.sp - 4096) (trace (stepToBx ρ.image) (stackEvent ρ) n s) t ∧
      ∀ c c' : Context, c.Valid → c'.Valid → c ≠ c' →
        Disjoint (range (c.address (s.sp - 4096)) 2) (range (c'.address (s.sp - 4096)) 2) := by
  refine ⟨?_, fun c c' => Context.address_disjoint⟩
  have hS : (s.sp - 4096).toNat % 4 = 0 := by
    have hsp := hs.sp
    bv_omega
  have hstart : Located ρ (s.sp - 4096) (some (.ofCpu s, 0)) s := hs.related
  generalize s.sp - 4096 = S at hstart hS hC ⊢
  obtain ⟨x, l, hl, hx⟩ := reach (f := stepToBx ρ.image) (o := stackEvent ρ) (R := Located ρ S)
    (A := Steps ρ S) (C := Promised ρ S) (P := fun x v => ρ.Inside S v ∧ ∃ y, Steps ρ S x y)
    (fun x v hx => (hx.event hS : stackEvent ρ v = eventOf ρ S x))
    (fun x v hv => hv.1.atQuiet.event)
    (fun x l v hl hx hC => Located.next hfits hS rfl hl hx hC) hstart hrun hC
  obtain ⟨hreplay, -⟩ := replay_of_absRun rfl hl
  rcases hx with ⟨hx, htrace⟩ | ⟨v, hv, ⟨hinside, y, hy⟩, htrace⟩
  · rw [htrace]
    refine ⟨?_, by rw [hreplay]; rfl, fun a ha => ?_⟩
    · cases x with
      | some x => exact hx.1.spOk
      | none => exact spOk_of_enclosed hx.2
    · cases x with
      | some x => exact Related.access hS hx hreplay ha
      | none =>
          rw [event_of_enclosed hx.2] at ha
          cases ha
  · obtain ⟨hreplay', -⟩ := replay_of_absRun rfl (hl.step hy)
    rw [htrace]
    refine ⟨spOk_of_inside hinside, by rw [hreplay']; rfl, fun a ha => ?_⟩
    rw [hinside.atQuiet.event] at ha
    cases ha

/-! ### A cartridge that is run -/

variable (ρ) in
/-- Something is pushed, popped, accessed or put out. -/
def touches (s : Cpu) : Option Unit := (stackEvent ρ s).map fun _ => ()

theorem shows_touches (hS : S.toNat % 4 = 0) :
    Shows ρ S (touches ρ) fun d => (d.event ρ S).map fun _ => () where
  rel d s h := by rw [touches, h.event hS]
  inside s h := by rw [touches, h.atQuiet.event, Option.map_none]

theorem tally_le (e : StackEvent) : tally ρ u e ≤ u + 1 := by
  unfold tally
  split
  · split
    · omega
    · split <;> omega
  · omega

theorem unaryCalls_le_length (l : List StackEvent) : unaryCalls ρ l ≤ l.length := by
  induction l using List.reverseRecOn with
  | nil => exact Nat.le_refl 0
  | append_singleton l e ih =>
      have happend := unaryCalls_append ρ l (some e)
      rw [Option.toList_some, Option.elim_some] at happend
      have hle := tally_le (ρ := ρ) (u := unaryCalls ρ l) e
      rw [happend, List.length_append, List.length_singleton]
      omega

/-- In every state of its run, up to the branch to the program. -/
theorem stack_safe_packedStart : ∃ n t,
    iter (stepToBx packedRom.image) n packedStart = some t ∧
    packedRom.image.fetch t.pc = some (.bx outp) ∧
    (trace (stepToBx packedRom.image) (stackEvent packedRom) n packedStart).length = 77 ∧
    ∀ k ≤ n, ∀ u, iter (stepToBx packedRom.image) k packedStart = some u →
      StackSafe packedRom 0x03006f00
          (trace (stepToBx packedRom.image) (stackEvent packedRom) k packedStart) u ∧
        ∀ c c' : Context, c.Valid → c'.Valid → c ≠ c' →
          Disjoint (range (c.address 0x03006f00) 2) (range (c'.address 0x03006f00) 2) := by
  obtain ⟨n, t, hn, hdone, htouches, hgood⟩ := run_of_checked (shows_touches (by decide))
    (fun d hctl => by rcases hctl with hctl | hctl <;> simp [Depacker.event, hctl])
    (show checked packedRom _ 1 false 167 = some (List.replicate 77 (), true) by decide +kernel)
  have hlength :
      (trace (stepToBx packedRom.image) (stackEvent packedRom) n packedStart).length = 77 := by
    rw [← List.length_map (fun _ => ()), map_trace]
    exact (congrArg List.length htouches).trans List.length_replicate
  refine ⟨n, t, hn, hdone rfl, hlength, fun k hk u hu => ?_⟩
  have hsafe := stack_safe (fun hdebug => absurd hdebug (by decide)) packedStart_started hu ?_
  · rw [packedStart_sp] at hsafe
    exact hsafe
  · rw [packedStart_sp]
    intro j hj v hv
    refine ⟨?_, fun a ha hmem => (hgood j (hj.trans hk) v hv).1.output a ha (.inl hmem)⟩
    have hprefix := (trace_initial _ (stackEvent packedRom) hv (hj.trans hk)).length_le
    have hle := unaryCalls_le_length (ρ := packedRom)
      (trace (stepToBx packedRom.image) (stackEvent packedRom) j packedStart)
    omega

end ShrinklerGba.Shrinkler
