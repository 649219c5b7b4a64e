import ShrinklerGba.Thumb.Block
import ShrinklerGba.Thumb.Decode

/-!
# The processor and its memory

A processor that fetches its instructions, ARM and Thumb, from the memory it works on.

* `ArmInstr` are the instructions in ARM state that are modelled; `decodeArm` decodes them.
* `Board.step` fetches, decodes and executes.
* `Image.InMemory` says that memory holds the instructions of an image.
* **`Board.follows`**: where memory keeps holding them, the processor goes where the image goes.
-/

namespace Thumb

open Transition

variable {ℓ : Type}

/-! ## ARM state -/

/-- Instructions in ARM state. -/
inductive ArmInstr
  /-- `b target` -/
  | b (target : Word)
  /-- `add rd, pc, #n` -/
  | addPc (rd : Reg) (n : ℕ)
  /-- `bx rm` -/
  | bx (rm : Reg)

/-- What a branch at `a` goes to whose signed field is `f`. -/
def armTarget (a : Word) (f : ℕ) : Word :=
  if f < 2 ^ 23 then a + 8 + BitVec.ofNat 32 (4 * f) else a + 8 - BitVec.ofNat 32 (4 * (2 ^ 24 - f))

/-- The ARM instruction at `a` with the word `w`, where it is one of the three. -/
def decodeArm (a : Word) (w : ℕ) : Option ArmInstr :=
  if w / 2 ^ 24 = 0xea then some (.b (armTarget a (w % 2 ^ 24)))
  else if w / 2 ^ 16 = 0xe28f ∧ w / 2 ^ 12 % 16 ≠ 15 ∧ w / 2 ^ 8 % 16 = 0 then
    some (.addPc (.ofNumber (w / 2 ^ 12 % 16)) (w % 2 ^ 8))
  else if w / 16 = 0xe12fff1 ∧ w % 16 ≠ 15 then some (.bx (.ofNumber (w % 16)))
  else none

/-- The effect of an instruction in ARM state. -/
def execArm (s : Cpu) : ArmInstr → Cpu
  | .b target => { s with pc := target }
  | .addPc rd n => { s.set rd (s.pc + 8 + BitVec.ofNat 32 n) with pc := s.pc + 4 }
  | .bx rm => { s with pc := s.reg rm &&& ~~~1, thumb := (s.reg rm).getLsbD 0 }

/-- What surrounds a processor: the carry that `mul` leaves and the supervisor calls. -/
structure Board where
  /-- The carry after `mul`, from its operands. -/
  mulCarry : Word → Word → Bool
  /-- The effect of `swi n` on everything but `pc`. -/
  swi : ℕ → Cpu → Cpu

namespace Board

variable (B : Board)

/-- The Thumb code in memory. -/
def image (m : Mem) : Image Word where
  fetch := decodeAt m
  sym := id
  mulCarry := B.mulCarry
  swi := B.swi

/-- Fetch an instruction from memory, decode and execute it. -/
def step (s : Cpu) : Option Cpu :=
  if s.thumb then (decodeAt s.mem s.pc).bind (exec (B.image s.mem) s)
  else (decodeArm s.pc (load32 s.mem s.pc).toNat).map (execArm s)

end Board

/-! ## An image in memory -/

/-- What lies in memory at an address is an instruction of the image. -/
def Image.Lies (M : Image ℓ) (m : Mem) (base : ℕ) (a : Word) (i : Instr ℓ) : Prop :=
  ∃ (sym : ℓ → ℕ) (lc lit : ℕ), a = BitVec.ofNat 32 (base + lc) ∧ base + lc + 4 < 2 ^ 32 ∧
    lc < 2 ^ 31 ∧ (∀ l, M.sym l = BitVec.ofNat 32 (base + sym l)) ∧ i.Lies m base lc sym lit

/-- Memory holds the instructions of an image. -/
def Image.InMemory (M : Image ℓ) (base : ℕ) (m : Mem) : Prop :=
  ∀ a i, M.fetch a = some i → M.Lies m base a i

/-- The words of `add rd, pc, #1` and `bx rd`. -/
theorem decodeArm_armToThumb (a : Word) (rd : Reg) :
    decodeArm a (BitVec.ofNat 32 (0xe28f0001 + rd.number * 4096)).toNat = some (.addPc rd 1) ∧
      decodeArm a (BitVec.ofNat 32 (0xe12fff10 + rd.number)).toNat = some (.bx rd) := by
  cases rd <;> exact ⟨rfl, rfl⟩

/-- The word of a branch ahead. -/
theorem decodeArm_branch {base lc target : ℕ} (hlo : lc + 8 ≤ target)
    (hhi : target < lc + 8 + 2 ^ 25) (hmod : (target - lc) % 4 = 0) :
    decodeArm (BitVec.ofNat 32 (base + lc)) (BitVec.ofNat 32
      (0xea000000 + ((offsetFrom lc 8 target).extractLsb' 2 24).toNat)).toNat =
      some (.b (BitVec.ofNat 32 (base + target))) := by
  obtain ⟨f, hf⟩ : ∃ f, target = lc + 8 + 4 * f := ⟨(target - lc - 8) / 4, by omega⟩
  have hfield : ((offsetFrom lc 8 target).extractLsb' 2 24).toNat = f := by
    rw [BitVec.extractLsb'_toNat, offsetFrom, BitVec.toNat_sub, BitVec.toNat_ofNat,
      BitVec.toNat_ofNat, Nat.shiftRight_eq_div_pow]
    omega
  have hlt : f < 2 ^ 23 := by omega
  rw [hfield, BitVec.toNat_ofNat, Nat.mod_eq_of_lt (by omega), decodeArm, if_pos (by omega),
    show (0xea000000 + f) % 2 ^ 24 = f by omega, armTarget, if_pos hlt, hf,
    show base + (lc + 8 + 4 * f) = base + lc + 8 + 4 * f by omega, BitVec.ofNat_add (base + lc + 8),
    BitVec.ofNat_add (base + lc) 8]
  rfl

/-- Adding one to an even address sets the low bit. -/
theorem add_one_eq_or {x : Word} (h : x.toNat % 2 = 0) : x + 1#32 = x ||| 1#32 := by
  refine BitVec.add_eq_or_of_and_eq_zero x 1#32 (BitVec.eq_of_toNat_eq ?_)
  rw [BitVec.toNat_and, show (1#32).toNat = 2 ^ 1 - 1 by rfl, Nat.and_two_pow_sub_one_eq_mod, h]
  rfl

/-- The two instructions that enter Thumb state. -/
theorem execArm_armToThumb {s : Cpu} (hpc : s.pc.toNat % 4 = 0) (rd : Reg) :
    execArm (execArm s (.addPc rd 1)) (.bx rd) =
      { s.set rd (s.pc + 9) with pc := s.pc + 8, thumb := true } := by
  have hnine : s.pc + 8 + 1#32 = s.pc + 9 := BitVec.add_assoc ..
  have hreg : (execArm s (.addPc rd 1)).reg rd = s.pc + 9 := by
    rw [← hnine]
    cases rd <;> rfl
  have heven : (s.pc + 8).toNat % 2 = 0 := by bv_omega
  have hor : s.pc + 9 = (s.pc + 8) ||| 1#32 := by rw [← hnine, add_one_eq_or heven]
  have hclear : (s.pc + 9) &&& ~~~1#32 = s.pc + 8 := by rw [hor, clear_low_bit heven]
  have hbit : (s.pc + 9).getLsbD 0 = true := by rw [hor]; simp
  have hbx (u : Cpu) : execArm u (.bx rd) =
      { u with pc := u.reg rd &&& ~~~1#32, thumb := (u.reg rd).getLsbD 0 } := rfl
  rw [hbx, hreg, hclear, hbit, ← hnine]
  rfl

variable {B : Board} {M : Image ℓ} {base : ℕ} {s t : Cpu}

/-- A Thumb instruction of the image is executed as it lies in memory. -/
theorem Board.step_of_thumb {i : Instr ℓ} (hbase : base % 4 = 0) (hmul : B.mulCarry = M.mulCarry)
    (hswi : B.swi = M.swi) (hlies : M.Lies s.mem base s.pc i) (harm : i.isArm = false)
    (hthumb : s.thumb = true) : B.step s = exec M s i := by
  obtain ⟨sym, lc, lit, hpc, hlc, hlc', hsym, hlies⟩ := hlies
  rw [Board.step, if_pos hthumb, hpc, hlies.decodeAt hbase hlc hlc' harm, Option.bind_some,
    exec_map (M := M) (fun l => (hsym l).symm) hmul hswi]

/-- **An instruction of the image is executed as it lies in memory.** -/
theorem Board.step_of_lies {i : Instr ℓ} (hbase : base % 4 = 0) (hmul : B.mulCarry = M.mulCarry)
    (hswi : B.swi = M.swi) (hlies : M.Lies s.mem base s.pc i) (hfetch : M.fetch s.pc = some i)
    (hstep : Thumb.step M s = some t) : ∃ n, Segment B.step (fun u => u.mem = s.mem) n s t := by
  rw [Thumb.step, hfetch, Option.bind_some] at hstep
  split at hstep
  · cases hstep
  rename_i hthumb
  cases harm : i.isArm with
  | false =>
      rw [harm, eq_comm, Bool.not_eq_false] at hthumb
      exact ⟨0, .last ((Board.step_of_thumb hbase hmul hswi hlies harm hthumb).trans hstep)⟩
  | true =>
      rw [harm, eq_comm, Bool.not_eq_true] at hthumb
      obtain ⟨sym, lc, lit, hpc, -, -, -, hlies⟩ := hlies
      cases i with
      | armToThumb rd =>
          -- Two ARM instructions.
          have hbytes := hlies.bytes
          have haligned : (BitVec.ofNat 32 (base + lc)).toNat % 4 = 0 := by
            have hlc4 : lc % 4 = 0 := of_decide_eq_true hlies.encodable
            rw [BitVec.toNat_ofNat]
            omega
          rw [← hpc] at hbytes haligned
          change loadBytes s.mem s.pc (4 + 4) = _ at hbytes
          rw [loadBytes_add] at hbytes
          have hfirst := load32_of_loadBytes (List.append_inj_left hbytes (loadBytes_length _ _ 4))
          have hsecond :=
            load32_of_loadBytes (List.append_inj_right hbytes (loadBytes_length _ _ 4))
          obtain ⟨hadd, -⟩ := decodeArm_armToThumb s.pc rd
          obtain ⟨-, hbx⟩ := decodeArm_armToThumb (s.pc + 4) rd
          obtain ⟨u, hu⟩ : ∃ u, u = execArm s (.addPc rd 1) := ⟨_, rfl⟩
          have hmem : u.mem = s.mem := by rw [hu]; exact Cpu.set_mem ..
          have hthumb' : u.thumb = false := by rw [hu, ← hthumb]; exact Cpu.set_thumb ..
          have hpc' : u.pc = s.pc + 4 := by rw [hu]; rfl
          have hstep₁ : B.step s = some u := by
            rw [Board.step, if_neg (by rw [hthumb]; decide), hfirst, hadd, hu]
            rfl
          have hstep₂ : B.step u = some t := by
            change load32 s.mem (s.pc + 4) = _ at hsecond
            rw [Board.step, if_neg (by rw [hthumb']; decide), hmem, hpc', hsecond, hbx, hu,
              Option.map_some, execArm_armToThumb haligned, ← hstep]
            rfl
          exact ⟨1, .cons hstep₁ hmem (.last hstep₂)⟩
      | _ => cases harm

/-- **Where memory holds an image, the processor goes where the image goes.** What holds of memory
all along the way of the image does so on the processor's way, too. -/
theorem Board.follows (hbase : base % 4 = 0) (hmul : B.mulCarry = M.mulCarry)
    (hswi : B.swi = M.swi) {f : Cpu → Option Cpu}
    (hf : ∀ s t, f s = some t → Thumb.step M s = some t) {P : Mem → Prop}
    (h : Passes f (fun u => M.InMemory base u.mem ∧ P u.mem) s t) :
    Passes B.step (fun u => P u.mem) s t := by
  obtain ⟨k, hrun, hmem⟩ := h
  induction k generalizing s with
  | zero =>
      cases hrun
      exact .refl _
  | succ k ih =>
      obtain ⟨u, hu, hrun⟩ := (iter_succ_eq_some f).mp hrun
      have hstep := hf s u hu
      obtain ⟨i, hfetch, -⟩ := Option.bind_eq_some_iff.mp hstep
      obtain ⟨himage, hP⟩ := hmem 0 (Nat.succ_pos k) s rfl
      obtain ⟨n, hseg⟩ := Board.step_of_lies hbase hmul hswi (himage s.pc i hfetch) hfetch hstep
      refine (Passes.of_segment hseg hP fun v hv => ?_).trans (ih hrun fun j hj v hv =>
        hmem (j + 1) (Nat.succ_lt_succ hj) v (by rw [iter_succ_of_step hu, hv]))
      rw [hv]
      exact hP

/-- **A block that writes nothing before its last instruction** is executed as it lies in memory. -/
theorem Board.passes_block (hbase : base % 4 = 0) (hmul : B.mulCarry = M.mulCarry)
    (hswi : B.swi = M.swi) {P : Mem → Prop} {is : List (Instr ℓ)} {i : Instr ℓ}
    (hfetch : FetchAt M s.pc (is ++ [i])) (hthumb : s.thumb = true)
    (his : ∀ j ∈ is, j.staysThumb = true ∧ j.stores = false) (hi : i.isArm = false)
    (himage : M.InMemory base s.mem) (hP : P s.mem) (h : execs M (is ++ [i]) s = some t) :
    Passes B.step (fun u => P u.mem) s t := by
  induction is generalizing s with
  | nil =>
      refine .of_step ?_ hP
      rw [Board.step_of_thumb hbase hmul hswi (himage s.pc i hfetch.1) hi hthumb]
      exact h
  | cons j is ih =>
      obtain ⟨hstays, hstores⟩ := his j List.mem_cons_self
      obtain ⟨k, ks, hks⟩ : ∃ k ks, is ++ [i] = k :: ks := by
        cases is with
        | nil => exact ⟨_, _, rfl⟩
        | cons k ks => exact ⟨_, _, rfl⟩
      have hnext : FetchAt M (s.pc + BitVec.ofNat 32 j.size) (is ++ [i]) := hfetch.2
      rw [List.cons_append, hks, execs] at h
      obtain ⟨u, hu, h⟩ := Option.bind_eq_some_iff.mp h
      split at h
      · rename_i hpc
        have hmem := exec_mem hstores hu
        have hstep : B.step s = some u := by
          rw [Board.step_of_thumb hbase hmul hswi (himage s.pc j hfetch.1)
            (Instr.isArm_of_staysThumb hstays) hthumb, hu]
        refine (Passes.of_step hstep hP).trans (ih (hpc ▸ hnext)
          ((exec_thumb hstays hu).trans hthumb) (fun l hl => his l (List.mem_cons_of_mem j hl))
          (hmem ▸ himage) (hmem ▸ hP) ?_)
        rw [hks]
        exact h
      · cases h

theorem FetchAt.left {a : Word} {is js : List (Instr ℓ)} (h : FetchAt M a (is ++ js)) :
    FetchAt M a is := by
  simpa using h.take is.length

theorem FetchAt.right {a : Word} {is js : List (Instr ℓ)} (h : FetchAt M a (is ++ js)) :
    FetchAt M (a + BitVec.ofNat 32 (bytesOf is)) js := by
  simpa using h.drop is.length

theorem step_of_stepToBx (h : stepToBx M s = some t) : Thumb.step M s = some t := by
  rw [stepToBx] at h
  split at h
  · cases h
  · exact h

/-! ## A linked program in memory -/

/-- Whether an instruction can be encoded where it was placed, with its literal at `lit`, and does
without the byte at `k`. -/
def fitsAt (sym : ℓ → ℕ) (lit k : ℕ) : ℕ × Stmt ℓ → Bool
  | (lc, .instr i) => i.encodable lc sym lit && (lc + i.size ≤ k || k < lc)
  | _ => true

/-- An address is known, or it is known to be a word's between two. -/
def Bracketed (lo hi a : ℕ) : Prop := a = lo ∨ lo ≤ a ∧ a ≤ hi ∧ a % 4 = 0

theorem inPool_of_bracketed {lc lo hi a : ℕ} (hlo : inPool lc lo = true) (hhi : inPool lc hi = true)
    (h : Bracketed lo hi a) : inPool lc a = true := by
  rcases h with rfl | h
  · exact hlo
  · simp only [inPool, Bool.and_eq_true, decide_eq_true_eq] at *
    omega

theorem inReach_of_bracketed {lc n lo hi a : ℕ} (hlo : inReach lc n lo = true)
    (hhi : inReach lc n hi = true) (h : Bracketed lo hi a) : inReach lc n a = true := by
  rcases h with rfl | h
  · exact hlo
  · simp only [inReach, Bool.and_eq_true, decide_eq_true_eq] at *
    omega

/-- What can be encoded with the lowest and the highest addresses can be encoded with those between
them. -/
theorem fitsAt_of_bracketed {sym symLo symHi : ℓ → ℕ} {lo hi lit k : ℕ} {p : ℕ × Stmt ℓ}
    (hlo : fitsAt symLo lo k p = true) (hhi : fitsAt symHi hi k p = true)
    (hsym : ∀ l, Bracketed (symLo l) (symHi l) (sym l)) (hlit : Bracketed lo hi lit) :
    fitsAt sym lit k p = true := by
  obtain ⟨lc, s⟩ := p
  cases s with
  | instr i =>
      rw [fitsAt, Bool.and_eq_true] at *
      refine ⟨?_, hlo.2⟩
      have hlo := hlo.1
      have hhi := hhi.1
      cases i with
      | ldrLit rd x =>
          rw [Instr.encodable, Bool.and_eq_true] at *
          exact ⟨hlo.1, inPool_of_bracketed hlo.2 hhi.2 hlit⟩
      | adr rd l =>
          rw [Instr.encodable, Bool.and_eq_true] at *
          exact ⟨hlo.1, inPool_of_bracketed hlo.2 hhi.2 (hsym l)⟩
      | b l => exact inReach_of_bracketed hlo hhi (hsym l)
      | bc c l => exact inReach_of_bracketed hlo hhi (hsym l)
      | bl l => exact inReach_of_bracketed hlo hhi (hsym l)
      | _ => exact hlo
  | _ => rfl

/-- An instruction without the values that do not matter to where it lies and how far it reaches. -/
def Instr.blank : Instr ℓ → Instr ℓ
  | .movImm rd _ => .movImm rd 0
  | .ldrLit rd _ => .ldrLit rd 0
  | i => i

/-- A statement without these values. -/
def Stmt.blank : Stmt ℓ → Stmt ℓ
  | .instr i => .instr i.blank
  | s => s

theorem fitsAt_blank (sym : ℓ → ℕ) (lit k lc : ℕ) (s : Stmt ℓ) :
    fitsAt sym lit k (lc, s.blank) = fitsAt sym lit k (lc, s) := by
  cases s with
  | instr i => cases i <;> rfl
  | _ => rfl

/-- Before the first pool, the values do not matter. -/
theorem fits_of_blank {sym : ℓ → ℕ} {lit k lc : ℕ} {lits lits' : List Word} {ss : List (Stmt ℓ)}
    (hpool : ∀ s ∈ ss, s ≠ .pool)
    (h : ∀ p ∈ place lc lits' (ss.map Stmt.blank), fitsAt sym lit k p = true) :
    ∀ p ∈ place lc lits ss, fitsAt sym lit k p = true := by
  induction ss generalizing lc lits lits' with
  | nil => exact fun p hp => absurd hp List.not_mem_nil
  | cons s ss ih =>
      have hsize : s.blank.size lc lits' = s.size lc lits := by
        cases s with
        | instr i => cases i <;> rfl
        | pool => exact absurd rfl (hpool _ List.mem_cons_self)
        | _ => rfl
      rw [List.map_cons, place, List.forall_mem_cons, fitsAt_blank, hsize] at h
      rw [place, List.forall_mem_cons]
      exact ⟨h.1, ih (fun t ht => hpool t (List.mem_cons_of_mem s ht)) h.2⟩

/-- Whether a statement is a literal pool. -/
def Stmt.isPool : Stmt ℓ → Bool
  | .pool => true
  | _ => false

theorem ne_pool_of_all {ss : List (Stmt ℓ)} (h : ss.all (fun s => !s.isPool) = true) :
    ∀ s ∈ ss, s ≠ .pool := by
  rintro s hs rfl
  cases List.all_eq_true.mp h _ hs

/-- An instruction is found where it was placed. -/
theorem exists_of_fetchPlaced {lc a : ℕ} {lits : List Word} {ss : List (Stmt ℓ)} {i : Instr ℓ}
    (h : fetchPlaced a (place lc lits ss) = some i) :
    ∃ pre post, ss = pre ++ .instr i :: post ∧ locate lc lits pre = a := by
  induction ss generalizing lc lits with
  | nil => cases h
  | cons s ss ih =>
      have hrest (h : fetchPlaced a (place (lc + s.size lc lits) (s.pending lits) ss) = some i) :
          ∃ pre post, s :: ss = pre ++ .instr i :: post ∧ locate lc lits pre = a := by
        obtain ⟨pre, post, rfl, ha⟩ := ih h
        exact ⟨s :: pre, post, rfl, ha⟩
      cases s with
      | instr j =>
          rw [place, fetchPlaced] at h
          split at h
          · cases h
            exact ⟨[], ss, rfl, by assumption⟩
          · exact hrest h
      | _ => exact hrest h

variable [DecidableEq ℓ]

/-- Where the literals of a pool start. -/
def poolStart (lc : ℕ) : ℕ := lc + Stmt.padding 2 lc

theorem poolStart_mod (lc : ℕ) : poolStart lc % 4 = 0 := by
  simp only [poolStart, Stmt.padding]
  omega

/-- A program whose instructions all come before its literal pool and can be encoded. The byte at
`k` belongs to none of them, nor to their literals. -/
structure Linkable (code rest : List (Stmt ℓ)) (k : ℕ) : Prop where
  /-- The pool is the first one. -/
  noPool : ∀ s ∈ code, s ≠ .pool
  /-- No instruction comes after it. -/
  noCode : ∀ s ∈ rest, ∀ i, s ≠ .instr i
  /-- The instructions can be encoded. -/
  fits : ∀ lit, Bracketed (poolStart (locate 0 [] code))
      (poolStart (locate 0 [] code) + 4 * code.length) lit → ∀ p ∈ place 0 [] code,
    fitsAt (fun l => labelPlaced l (place 0 [] (code ++ .pool :: rest))) lit k p = true
  /-- The byte comes before the literals. -/
  unused : k < poolStart (locate 0 [] code)

variable {code rest : List (Stmt ℓ)} {k : ℕ} {m : Mem}

/-- A linked program is in memory, but for the byte at `k`. -/
def LinkedAt (base : ℕ) (ss : List (Stmt ℓ)) (k : ℕ) (m : Mem) : Prop :=
  ∀ j < (link ss).length, j ≠ k → m (BitVec.ofNat 32 (base + j)) = (link ss).getD j 0

/-- A part of the program that is without the byte at `k` is in memory. -/
theorem LinkedAt.loadBytes {bs : List Byte} {lc : ℕ} {ss : List (Stmt ℓ)}
    (hm : LinkedAt base ss k m) (hbs : ((link ss).drop lc).take bs.length = bs)
    (hk : lc + bs.length ≤ k ∨ k < lc) :
    Thumb.loadBytes m (BitVec.ofNat 32 (base + lc)) bs.length = bs := by
  refine loadBytes_eq fun j hj => ?_
  have hlen : bs.length ≤ (link ss).length - lc := by
    have hle := congrArg List.length hbs
    rw [List.length_take, List.length_drop] at hle
    omega
  have hbyte : bs.getD j 0 = (link ss).getD (lc + j) 0 := by
    conv_lhs => rw [← hbs]
    rw [List.getD_eq_getElem?_getD, List.getElem?_take_of_lt hj, List.getElem?_drop,
      ← List.getD_eq_getElem?_getD]
  rw [← BitVec.ofNat_add, Nat.add_assoc, hm _ (by omega) (by omega), hbyte]

/-- The program is in memory as long as its range does not change. -/
theorem LinkedAt.congr {m' : Mem} {ss : List (Stmt ℓ)} (h : LinkedAt base ss k m)
    (hm : Set.EqOn m' m (range (BitVec.ofNat 32 base) (link ss).length)) :
    LinkedAt base ss k m' := by
  intro j hj hk
  rw [hm, h j hj hk]
  rw [mem_range, BitVec.ofNat_add, BitVec.add_comm, BitVec.add_sub_cancel, BitVec.toNat_ofNat]
  exact Nat.lt_of_le_of_lt (Nat.mod_le _ _) hj

/-- **A linked program in memory holds its instructions.** -/
theorem Linkable.inMemory (h : Linkable code rest k) (mulCarry : Word → Word → Bool)
    (swi : ℕ → Cpu → Cpu) (hsize : base + locate 0 [] code + 4 < 2 ^ 32)
    (hsize' : locate 0 [] code < 2 ^ 31)
    (hm : LinkedAt base (code ++ .pool :: rest) k m) :
    (image base (code ++ .pool :: rest) mulCarry swi).InMemory base m := by
  intro a i hfetch
  obtain ⟨ss, hss⟩ : ∃ ss, ss = code ++ .pool :: rest := ⟨_, rfl⟩
  rw [← hss] at hm hfetch ⊢
  have hfits := h.fits
  rw [← hss] at hfits
  simp only [image] at hfetch
  split at hfetch
  case isFalse => cases hfetch
  rename_i hbase
  obtain ⟨lc, hlc⟩ := Nat.exists_eq_add_of_le hbase
  rw [hlc, Nat.add_sub_cancel_left] at hfetch
  have ha : a = BitVec.ofNat 32 (base + lc) := by
    rw [← hlc, BitVec.ofNat_toNat, BitVec.setWidth_eq]
  obtain ⟨pre, post, hsplit, rfl⟩ := exists_of_fetchPlaced hfetch
  -- The instruction comes before the pool.
  obtain ⟨mid, rfl, hcode⟩ :
      ∃ mid, post = mid ++ .pool :: rest ∧ code = pre ++ .instr i :: mid := by
    rcases List.append_eq_append_iff.mp (hss.symm.trans hsplit) with
      ⟨xs, hpre, hxs⟩ | ⟨xs, hcode, hxs⟩
    · cases xs with
      | nil => cases hxs
      | cons x xs =>
          obtain ⟨-, hrest⟩ := List.cons.inj hxs
          exact absurd rfl (h.noCode _ (hrest ▸ List.mem_append_right _ List.mem_cons_self) i)
    · cases xs with
      | nil => cases hxs
      | cons x xs =>
          obtain ⟨rfl, hpost⟩ := List.cons.inj hxs
          exact ⟨xs, hpost, hcode⟩
  have hmid : ∀ s ∈ mid, s ≠ .pool := fun s hs =>
    h.noPool s (hcode ▸ List.mem_append_right _ (List.mem_cons_of_mem _ hs))
  obtain ⟨lits, hlits⟩ : ∃ lits, lits = Stmt.pending (pendingAfter [] pre) (.instr i) := ⟨_, rfl⟩
  have hpool : locate (locate 0 [] pre + i.size) lits mid = locate 0 [] code := by
    rw [hcode, locate_append, hlits]
    rfl
  have hle : locate 0 [] pre + i.size ≤ locate 0 [] code := hpool ▸ le_locate _ _ _
  have hpos := i.size_pos
  -- Its literal lies in the pool.
  have hliteral (x : Word) : literalAt (locate 0 [] pre + i.size) lits (mid ++ .pool :: rest) x =
      poolStart (locate 0 [] code) + 4 * (pendingAfter lits mid).idxOf x := by
    rw [literalAt, nextPool_append hmid, hpool, poolStart]
  have hidx (x : Word) : (pendingAfter lits mid).idxOf x ≤ code.length := by
    have hlen := length_pendingAfter_le [] code
    rw [hcode, pendingAfter_append, pendingAfter, ← hlits, ← hcode] at hlen
    exact List.idxOf_le_length.trans (by simpa using hlen)
  have hmem : (locate 0 [] pre, Stmt.instr i) ∈ place 0 [] code := by
    rw [hcode, place_append]
    exact List.mem_append_right _ List.mem_cons_self
  have haligned := poolStart_mod (locate 0 [] code)
  have hx := hidx i.literal
  have hfit := hfits (poolStart (locate 0 [] code) + 4 * (pendingAfter lits mid).idxOf i.literal)
    (.inr ⟨Nat.le_add_right _ _, by omega, by omega⟩) _ hmem
  simp only [fitsAt, Bool.and_eq_true, Bool.or_eq_true, decide_eq_true_eq] at hfit
  obtain ⟨hencodable, hk⟩ := hfit
  have hbytes := link_instr hsplit
  rw [← hlits, hliteral] at hbytes
  refine ⟨_, locate 0 [] pre, _, ha, by omega, by omega, fun l => rfl, hencodable, ?_, ?_⟩
  · have hlen := encode_length (locate 0 [] pre) (fun l => labelPlaced l (place 0 [] ss))
      (poolStart (locate 0 [] code) + 4 * (pendingAfter lits mid).idxOf i.literal) i
    rw [← hlen] at hbytes hk
    rw [← hlen]
    exact hm.loadBytes hbytes hk
  · rintro rd x rfl
    have hword := link_literal hsplit hmid
    rw [← hlits] at hword
    change List.take (wordBytes x).length (List.drop (literalAt
      (locate 0 [] pre + (Instr.ldrLit (ℓ := ℓ) rd x).size) lits (mid ++ .pool :: rest) x)
      (link ss)) = wordBytes x at hword
    rw [hliteral] at hword
    have hunused := h.unused
    exact load32_of_loadBytes (hm.loadBytes hword (.inr (by omega)))

section label

variable {ss pre post : List (Stmt ℓ)} {l : ℓ} {bs : List Byte}

/-- A label lies at the end of what comes before it. -/
theorem labelPlaced_of_split (hd : labelsDistinct ss = true) (hss : ss = pre ++ .label l :: post) :
    labelPlaced l (place 0 [] ss) = locate 0 [] pre := by
  subst hss
  rw [place_append, labelPlaced_append (labelsDistinct_append hd (by simp [defines]))]
  simp [place, labelPlaced]

/-- Where a program ends whose last statement is bytes. -/
theorem link_length_of_split (hd : labelsDistinct ss = true)
    (hss : ss = pre ++ [.label l, .bytes bs]) :
    (link ss).length = labelPlaced l (place 0 [] ss) + bs.length := by
  rw [labelPlaced_of_split hd hss, link_length, hss, locate_append]
  simp [locate, Stmt.size]

/-- The bytes after a label are in memory. -/
theorem LinkedAt.bytes (h : LinkedAt base ss k m) (hd : labelsDistinct ss = true)
    (hss : ss = pre ++ [.label l, .bytes bs]) (hk : k < labelPlaced l (place 0 [] ss)) {i : ℕ}
    (hi : i < bs.length) :
    m (BitVec.ofNat 32 (base + labelPlaced l (place 0 [] ss)) + BitVec.ofNat 32 i) =
      bs.getD i 0 := by
  have hlength := link_length_of_split hd hss
  have hplaced := labelPlaced_of_split hd hss
  have hss' : ss = (pre ++ [.label l]) ++ .bytes bs :: [] := by rw [hss, List.append_assoc]; rfl
  have hlocate : locate 0 [] (pre ++ [.label l]) = labelPlaced l (place 0 [] ss) := by
    rw [hplaced, locate_append]
    rfl
  rw [← BitVec.ofNat_add, Nat.add_assoc, h _ (by omega) (by omega), ← hlocate,
    List.getD_eq_getElem?_getD, link_getElem? _ hss' hi, emit, ← List.getD_eq_getElem?_getD]

end label

/-- **A program that starts with a branch ahead** starts at its target. -/
theorem decodeArm_link {ss post : List (Stmt ℓ)} {l : ℓ} (hss : ss = .armBranch l :: post)
    (hlo : 8 ≤ labelPlaced l (place 0 [] ss)) (hhi : labelPlaced l (place 0 [] ss) < 2 ^ 25)
    (hmod : labelPlaced l (place 0 [] ss) % 4 = 0)
    (hm : ∀ j < 4, m (BitVec.ofNat 32 (base + j)) = (link ss).getD j 0) :
    decodeArm (BitVec.ofNat 32 base) (load32 m (BitVec.ofNat 32 base)).toNat =
      some (.b (BitVec.ofNat 32 (base + labelPlaced l (place 0 [] ss)))) := by
  obtain ⟨target, htarget⟩ : ∃ target, target = labelPlaced l (place 0 [] ss) := ⟨_, rfl⟩
  obtain ⟨w, hw⟩ : ∃ w, w = BitVec.ofNat 32
    (0xea000000 + ((offsetFrom 0 8 target).extractLsb' 2 24).toNat) := ⟨_, rfl⟩
  have hword : ((link ss).drop 0).take 4 = wordBytes w := by
    have hsplit : ss = [] ++ .armBranch l :: post := hss
    have hdrop := drop_link hsplit
    rw [locate] at hdrop
    rw [hdrop, emitAll, List.take_left' (by rw [emit_length]; rfl), hw, htarget]
    rfl
  have hbytes : loadBytes m (BitVec.ofNat 32 (base + 0)) (wordBytes w).length = wordBytes w :=
    loadBytes_eq fun j hj => by
      have hj : j < 4 := hj
      rw [← hword, List.getD_eq_getElem?_getD, List.getElem?_take_of_lt hj, List.getElem?_drop,
        Nat.zero_add, ← List.getD_eq_getElem?_getD, ← BitVec.ofNat_add, Nat.add_zero, hm j hj]
  rw [← htarget] at hlo hhi hmod ⊢
  have h : decodeArm (BitVec.ofNat 32 (base + 0)) w.toNat =
      some (.b (BitVec.ofNat 32 (base + target))) := by
    rw [hw]
    exact decodeArm_branch hlo (by omega) (by omega)
  rwa [← load32_of_loadBytes hbytes, Nat.add_zero] at h

end Thumb
