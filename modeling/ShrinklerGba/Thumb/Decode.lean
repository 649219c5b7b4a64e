import ShrinklerGba.Thumb.Link

/-!
# Decoding

Instructions from their bytes in memory, with the addresses they refer to in place of labels.

* `decode` is the Thumb instruction at an address, from its halfwords; `decodeAt` reads them.
* `Instr.encodable` says that an instruction can be encoded where it lies: its registers and
  immediate values fit, and what it refers to is not too far away.
* **`decode_encodeThumb`**: what was encoded is decoded; **`Instr.Lies.decodeAt`** for bytes in
  memory.
-/

namespace Thumb

variable {ℓ ℓ' : Type}

/-! ## Instructions with other labels -/

/-- An instruction with its labels replaced. -/
def Instr.map (f : ℓ → ℓ') : Instr ℓ → Instr ℓ'
  | .lsl rd rm n => .lsl rd rm n
  | .lsr rd rm n => .lsr rd rm n
  | .addReg rd rn rm => .addReg rd rn rm
  | .subReg rd rn rm => .subReg rd rn rm
  | .subImm3 rd rn n => .subImm3 rd rn n
  | .movImm rd n => .movImm rd n
  | .cmpImm rn n => .cmpImm rn n
  | .addImm rd n => .addImm rd n
  | .subImm rd n => .subImm rd n
  | .and rd rm => .and rd rm
  | .adc rd rm => .adc rd rm
  | .neg rd rm => .neg rd rm
  | .cmpReg rn rm => .cmpReg rn rm
  | .orr rd rm => .orr rd rm
  | .mul rd rm => .mul rd rm
  | .movLow rd rm => .movLow rd rm
  | .movHigh rd rm => .movHigh rd rm
  | .addHigh rd rm => .addHigh rd rm
  | .cmpHigh rn rm => .cmpHigh rn rm
  | .bx rm => .bx rm
  | .ldrLit rd x => .ldrLit rd x
  | .adr rd l => .adr rd (f l)
  | .ldrbReg rd rb ro => .ldrbReg rd rb ro
  | .ldr rd rb n => .ldr rd rb n
  | .str rd rb n => .str rd rb n
  | .ldrb rd rb n => .ldrb rd rb n
  | .strb rd rb n => .strb rd rb n
  | .ldrh rd rb n => .ldrh rd rb n
  | .strh rd rb n => .strh rd rb n
  | .push rs => .push rs
  | .popPc rs => .popPc rs
  | .ldmia rb rs => .ldmia rb rs
  | .stmia rb rs => .stmia rb rs
  | .b l => .b (f l)
  | .bc c l => .bc c (f l)
  | .bl l => .bl (f l)
  | .swi n => .swi n
  | .armToThumb rd => .armToThumb rd

/-- **An instruction does the same in every image in which its labels lie at the same
addresses.** -/
theorem exec_map {M : Image ℓ} {M' : Image ℓ'} {f : ℓ → ℓ'} (hsym : ∀ l, M'.sym (f l) = M.sym l)
    (hmul : M'.mulCarry = M.mulCarry) (hswi : M'.swi = M.swi) (s : Cpu) (i : Instr ℓ) :
    exec M' s (i.map f) = exec M s i := by
  cases i <;> simp only [Instr.map, exec, hsym, hmul, hswi]

/-! ## Decoding -/

/-- The register with a number. The program counter, which has the number 15, is not among them. -/
def Reg.ofNumber : ℕ → Reg
  | 0 => .r0 | 1 => .r1 | 2 => .r2 | 3 => .r3 | 4 => .r4 | 5 => .r5 | 6 => .r6 | 7 => .r7
  | 8 => .r8 | 9 => .r9 | 10 => .r10 | 11 => .r11 | 12 => .r12 | 13 => .sp | _ => .lr

/-- The condition with a number. -/
def Cond.ofNumber : ℕ → Option Cond
  | 0 => some .eq | 1 => some .ne | 2 => some .cs | 3 => some .cc | 9 => some .ls | _ => none

/-- The low registers that a bit mask stands for. -/
def lowRegs (n : ℕ) : List Reg :=
  [Reg.r0, .r1, .r2, .r3, .r4, .r5, .r6, .r7].filter fun r => n.testBit r.number

/-- What a branch at `a` goes to whose signed field of `n` bits is `f`. -/
def branchTarget (a : Word) (n f : ℕ) : Word :=
  if f < 2 ^ (n - 1) then a + 4 + BitVec.ofNat 32 (2 * f)
  else a + 4 - BitVec.ofNat 32 (2 * (2 ^ n - f))

/-- What an instruction at `a` refers to that is `n` words ahead of it. -/
def poolTarget (a : Word) (n : ℕ) : Word := align4 (a + 4) + BitVec.ofNat 32 (4 * n)

/-- The Thumb instruction at `a` with the halfwords `h` and, if it is a long one, `h'`; `load` loads
a literal. -/
def decode (load : Word → Word) (a : Word) (h h' : ℕ) : Option (Instr Word) :=
  let reg (k : ℕ) : Reg := .ofNumber (h / 2 ^ k % 8)
  let high := h / 128 % 2 * 8 + h % 8
  let rm := h / 8 % 16
  let imm5 := h / 64 % 32
  let imm8 := h % 256
  match h / 2048 with
  | 0 => some (.lsl (reg 0) (reg 3) imm5)
  | 1 => some (.lsr (reg 0) (reg 3) (if imm5 = 0 then 32 else imm5))
  | 3 =>
      match h / 512 % 4 with
      | 0 => some (.addReg (reg 0) (reg 3) (reg 6))
      | 1 => some (.subReg (reg 0) (reg 3) (reg 6))
      | 2 => if h / 64 % 8 = 0 then some (.movLow (reg 0) (reg 3)) else none
      | _ => some (.subImm3 (reg 0) (reg 3) (h / 64 % 8))
  | 4 => some (.movImm (reg 8) (BitVec.ofNat 8 imm8))
  | 5 => some (.cmpImm (reg 8) (BitVec.ofNat 8 imm8))
  | 6 => some (.addImm (reg 8) (BitVec.ofNat 8 imm8))
  | 7 => some (.subImm (reg 8) (BitVec.ofNat 8 imm8))
  | 8 =>
      match h / 256 % 8 with
      | 4 => if high = 15 ∨ rm = 15 then none else some (.addHigh (.ofNumber high) (.ofNumber rm))
      | 5 => if high = 15 ∨ rm = 15 then none else some (.cmpHigh (.ofNumber high) (.ofNumber rm))
      | 6 => if high = 15 ∨ rm = 15 then none else some (.movHigh (.ofNumber high) (.ofNumber rm))
      | 7 => if high = 0 ∧ rm ≠ 15 then some (.bx (.ofNumber rm)) else none
      | _ =>
          match h / 64 % 32 with
          | 0 => some (.and (reg 0) (reg 3))
          | 5 => some (.adc (reg 0) (reg 3))
          | 9 => some (.neg (reg 0) (reg 3))
          | 10 => some (.cmpReg (reg 0) (reg 3))
          | 12 => some (.orr (reg 0) (reg 3))
          | 13 => some (.mul (reg 0) (reg 3))
          | _ => none
  | 9 => some (.ldrLit (reg 8) (load (poolTarget a imm8)))
  | 11 => if h / 512 % 4 = 2 then some (.ldrbReg (reg 0) (reg 3) (reg 6)) else none
  | 12 => some (.str (reg 0) (reg 3) (4 * imm5))
  | 13 => some (.ldr (reg 0) (reg 3) (4 * imm5))
  | 14 => some (.strb (reg 0) (reg 3) imm5)
  | 15 => some (.ldrb (reg 0) (reg 3) imm5)
  | 16 => some (.strh (reg 0) (reg 3) (2 * imm5))
  | 17 => some (.ldrh (reg 0) (reg 3) (2 * imm5))
  | 20 => some (.adr (reg 8) (poolTarget a imm8))
  | 22 =>
      match h / 256 % 8 with
      | 4 => some (.push (lowRegs imm8))
      | 5 => some (.push (lowRegs imm8 ++ [.lr]))
      | _ => none
  | 23 => if h / 256 % 8 = 5 then some (.popPc (lowRegs imm8)) else none
  | 24 => some (.stmia (reg 8) (lowRegs imm8))
  | 25 => some (.ldmia (reg 8) (lowRegs imm8))
  | 26 | 27 =>
      if h / 256 % 16 = 15 then some (.swi imm8)
      else (Cond.ofNumber (h / 256 % 16)).map fun c => .bc c (branchTarget a 8 imm8)
  | 28 => some (.b (branchTarget a 11 (h % 2048)))
  | 30 =>
      if h' / 2048 = 31 then some (.bl (branchTarget a 22 (h % 2048 * 2048 + h' % 2048))) else none
  | _ => none

/-- The Thumb instruction at an address. -/
def decodeAt (m : Mem) (a : Word) : Option (Instr Word) :=
  decode (load32 m) a (load16 m a).toNat (load16 m (a + 2)).toNat

/-! ## What can be encoded -/

/-- Whether what lies at `target` is a multiple of four bytes ahead of `lc`, at most 255. -/
def inPool (lc target : ℕ) : Bool :=
  target % 4 = 0 && (lc + 4) / 4 * 4 ≤ target && target < (lc + 4) / 4 * 4 + 1024

/-- Whether a branch at `lc` with a signed field of `n` bits goes as far as `target`. -/
def inReach (lc n target : ℕ) : Bool :=
  lc % 2 = 0 && target % 2 = 0 && lc + 4 ≤ target + 2 ^ n && target < lc + 4 + 2 ^ n

/-- Whether a register list is the one that its bit mask stands for. -/
def isLowList (rs : List Reg) : Bool := rs = lowRegs (lowList rs)

/-- Whether an instruction can be encoded at `lc`, with its literal at `lit`. -/
def Instr.encodable (lc : ℕ) (sym : ℓ → ℕ) (lit : ℕ) : Instr ℓ → Bool
  | .lsl rd rm n => rd.isLow && rm.isLow && n < 32
  | .lsr rd rm n => rd.isLow && rm.isLow && 0 < n && n ≤ 32
  | .addReg rd rn rm | .subReg rd rn rm | .ldrbReg rd rn rm => rd.isLow && rn.isLow && rm.isLow
  | .subImm3 rd rn n => rd.isLow && rn.isLow && n < 8
  | .movImm rd _ | .cmpImm rd _ | .addImm rd _ | .subImm rd _ => rd.isLow
  | .and rd rm | .adc rd rm | .neg rd rm | .cmpReg rd rm | .orr rd rm | .mul rd rm
  | .movLow rd rm => rd.isLow && rm.isLow
  | .movHigh _ _ | .addHigh _ _ | .cmpHigh _ _ | .bx _ => true
  | .ldrLit rd _ => rd.isLow && inPool lc lit
  | .adr rd l => rd.isLow && inPool lc (sym l)
  | .ldr rd rb n | .str rd rb n => rd.isLow && rb.isLow && n % 4 = 0 && n < 128
  | .ldrb rd rb n | .strb rd rb n => rd.isLow && rb.isLow && n < 32
  | .ldrh rd rb n | .strh rd rb n => rd.isLow && rb.isLow && n % 2 = 0 && n < 64
  | .push rs => isLowList rs || rs = lowRegs (lowList rs) ++ [.lr]
  | .popPc rs => isLowList rs
  | .ldmia rb rs | .stmia rb rs => rb.isLow && isLowList rs
  | .b l => inReach lc 11 (sym l)
  | .bc _ l => inReach lc 8 (sym l)
  | .bl l => inReach lc 22 (sym l)
  | .swi n => n < 256
  | .armToThumb _ => lc % 4 = 0

/-! ## What was encoded is decoded -/

@[simp] theorem Reg.ofNumber_number (r : Reg) : Reg.ofNumber r.number = r := by
  cases r <;> rfl

theorem Reg.number_lt (r : Reg) : r.number < 15 := by
  cases r <;> decide

@[simp] theorem Cond.ofNumber_number (c : Cond) : Cond.ofNumber c.number = some c := by
  cases c <;> rfl

theorem Cond.number_lt (c : Cond) : c.number < 14 := by
  cases c <;> decide

/-- A part of a register list has a part of its bits. -/
theorem lowList_le {rs rs' : List Reg} (h : rs.Sublist rs') : lowList rs ≤ lowList rs' := by
  induction h with
  | slnil => exact Nat.le_refl _
  | cons r _ ih => exact Nat.le_trans ih (by cases hr : r.isLow <;> simp [lowList, hr])
  | cons_cons r _ ih => cases hr : r.isLow <;> simpa [lowList, hr] using ih

theorem lowList_lowRegs_lt (n : ℕ) : lowList (lowRegs n) < 256 :=
  Nat.lt_of_le_of_lt (lowList_le List.filter_sublist) (by decide)

theorem lowList_lt {rs : List Reg} (h : isLowList rs = true) : lowList rs < 256 := by
  have hrs : rs = lowRegs (lowList rs) := of_decide_eq_true h
  rw [hrs]
  exact lowList_lowRegs_lt _

theorem lr_notMem_lowRegs (n : ℕ) : Reg.lr ∉ lowRegs n := fun h => by
  simp [lowRegs] at h

/-- The bits of a register list with `lr`. -/
theorem lowList_lt_of_lr {rs : List Reg} (h : rs = lowRegs (lowList rs) ++ [.lr]) :
    lowList rs < 256 := by
  have hlow : lowList rs = lowList (lowRegs (lowList rs)) := by
    conv_lhs => rw [h]
    simp [lowList, Reg.isLow, Reg.number]
  rw [hlow]
  exact lowList_lowRegs_lt _

section target

variable {base lc target : ℕ}

theorem poolOffset_lt (h : inPool lc target = true) : poolOffset lc target < 256 := by
  simp only [inPool, Bool.and_eq_true, decide_eq_true_eq] at h
  rw [poolOffset]
  omega

theorem poolTarget_eq (hbase : base % 4 = 0) (hlc : base + lc + 4 < 2 ^ 32)
    (h : inPool lc target = true) :
    poolTarget (BitVec.ofNat 32 (base + lc)) (poolOffset lc target) =
      BitVec.ofNat 32 (base + target) := by
  simp only [inPool, Bool.and_eq_true, decide_eq_true_eq] at h
  obtain ⟨⟨hmod, hlo⟩, hhi⟩ := h
  have halign : align4 (BitVec.ofNat 32 (base + lc) + 4) =
      BitVec.ofNat 32 (base + (lc + 4) / 4 * 4) := by
    apply BitVec.eq_of_toNat_eq
    simp only [align4_toNat, BitVec.toNat_add, BitVec.ofNat_eq_ofNat, BitVec.toNat_ofNat]
    omega
  rw [poolTarget, halign, ← BitVec.ofNat_add, poolOffset]
  congr 1
  omega

/-- The field of a branch that goes far enough. -/
theorem branchTarget_eq {n f : ℕ} (hn : 1 ≤ n) (hn' : n ≤ 22) (hlc : lc < 2 ^ 31)
    (h : inReach lc n target = true) (hf : f = (offsetFrom lc 4 target).toNat / 2 % 2 ^ n) :
    branchTarget (BitVec.ofNat 32 (base + lc)) n f = BitVec.ofNat 32 (base + target) := by
  simp only [inReach, Bool.and_eq_true, decide_eq_true_eq] at h
  obtain ⟨⟨⟨hlc2, htarget⟩, hlo⟩, hhi⟩ := h
  have hmul : 2 ^ n * 2 ^ (31 - n) = 2 ^ 31 := by
    rw [← pow_add, Nat.add_sub_cancel' (by omega)]
  have hle : 2 ^ n ≤ 2 ^ 22 := Nat.pow_le_pow_right (by omega) hn'
  have hhalf : 2 ^ n = 2 * 2 ^ (n - 1) := by rw [← pow_succ', Nat.sub_add_cancel hn]
  have hpos : 0 < 2 ^ (31 - n) := Nat.two_pow_pos _
  have hoffset : (offsetFrom lc 4 target).toNat = (target + 2 ^ 32 - (lc + 4)) % 2 ^ 32 := by
    rw [offsetFrom, BitVec.toNat_sub, BitVec.toNat_ofNat, BitVec.toNat_ofNat]
    omega
  rw [hoffset] at hf
  rw [branchTarget]
  generalize 2 ^ n = m at *
  generalize 2 ^ (n - 1) = p at *
  generalize 2 ^ (31 - n) = q at *
  rcases Nat.lt_or_ge target (lc + 4) with hback | hfore
  · -- The branch goes back.
    have hfield : f = m - (lc + 4 - target) / 2 := by
      have hmul' : m * (q - 1) = 2 ^ 31 - m := by rw [Nat.mul_sub, hmul, Nat.mul_one]
      rw [hf, show (target + 2 ^ 32 - (lc + 4)) % 2 ^ 32 / 2 =
        m - (lc + 4 - target) / 2 + m * (q - 1) by rw [hmul']; omega, Nat.add_mul_mod_self_left,
        Nat.mod_eq_of_lt (by omega)]
    have hback' : base + lc + 4 = base + target + 2 * (m - f) := by omega
    rw [if_neg (by omega), BitVec.ofNat_eq_ofNat, ← BitVec.ofNat_add, hback', BitVec.ofNat_add]
    exact BitVec.add_sub_cancel _ _
  · have hfield : f = (target - (lc + 4)) / 2 := by
      rw [hf, show (target + 2 ^ 32 - (lc + 4)) % 2 ^ 32 = target - (lc + 4) by omega]
      exact Nat.mod_eq_of_lt (by omega)
    have hfore' : base + target = base + lc + 4 + 2 * f := by omega
    rw [if_pos (by omega), BitVec.ofNat_eq_ofNat, hfore', ← BitVec.ofNat_add, ← BitVec.ofNat_add]

end target

section fields

variable {h o k a b c n r : ℕ}

/-- The fields of an instruction with an immediate value of five bits and two registers. -/
theorem fields_imm5 (hh : h = o * 2048 + a * 64 + b * 8 + c) (ha : a < 32) (hb : b < 8)
    (hc : c < 8) : h / 2048 = o ∧ h / 64 % 32 = a ∧ h / 8 % 8 = b ∧ h % 8 = c := by
  omega

/-- The fields of an instruction with three registers or an immediate value of three bits. -/
theorem fields_imm3 (hh : h = o * 2048 + k * 512 + a * 64 + b * 8 + c) (hk : k < 4) (ha : a < 8)
    (hb : b < 8) (hc : c < 8) :
    h / 2048 = o ∧ h / 512 % 4 = k ∧ h / 64 % 8 = a ∧ h / 8 % 8 = b ∧ h % 8 = c := by
  omega

/-- The fields of an arithmetic instruction. -/
theorem fields_alu (hh : h = 0x4000 + a * 64 + b * 8 + c) (ha : a < 16) (hb : b < 8)
    (hc : c < 8) : h / 2048 = 8 ∧ h / 256 % 8 = a / 4 ∧ h / 64 % 32 = a ∧ h / 8 % 8 = b ∧
      h % 8 = c := by
  omega

/-- The fields of an instruction with two registers, high or low. -/
theorem fields_high (hh : h = 0x4000 + k * 256 + a / 8 * 128 + b * 8 + a % 8) (hk : k < 8)
    (ha : a < 15) (hb : b < 15) : h / 2048 = 8 ∧ h / 256 % 8 = k ∧
      h / 128 % 2 * 8 + h % 8 = a ∧ h / 8 % 16 = b := by
  obtain ha | ha : a / 8 = 0 ∨ a / 8 = 1 := by omega
  all_goals
    rw [ha] at hh
    omega

/-- The fields of an instruction with a register and an immediate value of eight bits. -/
theorem fields_imm8 (hh : h = o * 2048 + r * 256 + n) (hr : r < 8) (hn : n < 256) :
    h / 2048 = o ∧ h / 256 % 8 = r ∧ h % 256 = n := by
  omega

end fields

/-- **What was encoded is decoded.** -/
theorem decode_encodeThumb {base lc lit : ℕ} {sym : ℓ → ℕ} {load : Word → Word} {i : Instr ℓ}
    {h' : ℕ} (hbase : base % 4 = 0) (hlc : base + lc + 4 < 2 ^ 32) (hlc' : lc < 2 ^ 31)
    (harm : i.isArm = false) (hi : i.encodable lc sym lit = true)
    (hlit : ∀ rd x, i = .ldrLit rd x → load (BitVec.ofNat 32 (base + lit)) = x)
    (hh' : ∀ n, (encodeThumb lc sym lit i)[1]? = some n → h' = n) :
    decode load (BitVec.ofNat 32 (base + lc)) ((encodeThumb lc sym lit i).getD 0 0) h' =
      some (i.map fun l => BitVec.ofNat 32 (base + sym l)) := by
  obtain ⟨h, hh⟩ : ∃ h, h = (encodeThumb lc sym lit i).getD 0 0 := ⟨_, rfl⟩
  rw [← hh]
  cases i <;> simp only [Instr.encodable, Bool.and_eq_true, decide_eq_true_eq, Reg.isLow] at hi <;>
    simp only [encodeThumb, List.getD_cons_zero] at hh
  case lsl rd rm n =>
    obtain ⟨e₁, e₂, e₃, e₄⟩ := fields_imm5 (h := h) (o := 0) (by simpa using hh) hi.2 hi.1.2
      hi.1.1
    simp [decode, Instr.map, e₁, e₂, e₃, e₄]
  case lsr rd rm n =>
    have hn : (if n % 32 = 0 then 32 else n % 32) = n := by
      split <;> omega
    have hlt : n % 32 < 32 := Nat.mod_lt n (by decide)
    obtain ⟨e₁, e₂, e₃, e₄⟩ := fields_imm5 (o := 1) hh hlt hi.1.1.2 hi.1.1.1
    simp [decode, Instr.map, e₁, e₂, e₃, e₄, hn]
  case addReg rd rn rm =>
    obtain ⟨e₁, e₂, e₃, e₄, e₅⟩ := fields_imm3 (k := 0) (o := 3) hh (by omega) hi.2 hi.1.2 hi.1.1
    simp [decode, Instr.map, e₁, e₂, e₃, e₄, e₅]
  case subReg rd rn rm =>
    obtain ⟨e₁, e₂, e₃, e₄, e₅⟩ := fields_imm3 (k := 1) (o := 3) hh (by omega) hi.2 hi.1.2 hi.1.1
    simp [decode, Instr.map, e₁, e₂, e₃, e₄, e₅]
  case movLow rd rm =>
    obtain ⟨e₁, e₂, e₃, e₄, e₅⟩ := fields_imm3 (h := h) (k := 2) (o := 3) (a := 0) (by omega)
      (by omega) (by omega) hi.2 hi.1
    simp [decode, Instr.map, e₁, e₂, e₃, e₄, e₅]
  case subImm3 rd rn n =>
    obtain ⟨e₁, e₂, e₃, e₄, e₅⟩ := fields_imm3 (k := 3) (o := 3) hh (by omega) hi.2 hi.1.2 hi.1.1
    simp [decode, Instr.map, e₁, e₂, e₃, e₄, e₅]
  case ldrbReg rd rb ro =>
    obtain ⟨e₁, e₂, e₃, e₄, e₅⟩ := fields_imm3 (k := 2) (o := 11) hh (by omega) hi.2 hi.1.2 hi.1.1
    simp [decode, Instr.map, e₁, e₂, e₃, e₄, e₅]
  case movImm rd n =>
    obtain ⟨e₁, e₂, e₃⟩ := fields_imm8 (o := 4) hh hi n.isLt
    simp [decode, Instr.map, e₁, e₂, e₃]
  case cmpImm rn n =>
    obtain ⟨e₁, e₂, e₃⟩ := fields_imm8 (o := 5) hh hi n.isLt
    simp [decode, Instr.map, e₁, e₂, e₃]
  case addImm rd n =>
    obtain ⟨e₁, e₂, e₃⟩ := fields_imm8 (o := 6) hh hi n.isLt
    simp [decode, Instr.map, e₁, e₂, e₃]
  case subImm rd n =>
    obtain ⟨e₁, e₂, e₃⟩ := fields_imm8 (o := 7) hh hi n.isLt
    simp [decode, Instr.map, e₁, e₂, e₃]
  case and rd rm =>
    obtain ⟨e₁, e₂, e₃, e₄, e₅⟩ := fields_alu (h := h) (a := 0) (by omega) (by omega) hi.2 hi.1
    simp [decode, Instr.map, e₁, e₂, e₃, e₄, e₅]
  case adc rd rm =>
    obtain ⟨e₁, e₂, e₃, e₄, e₅⟩ := fields_alu (a := 5) hh (by omega) hi.2 hi.1
    simp [decode, Instr.map, e₁, e₂, e₃, e₄, e₅]
  case neg rd rm =>
    obtain ⟨e₁, e₂, e₃, e₄, e₅⟩ := fields_alu (a := 9) hh (by omega) hi.2 hi.1
    simp [decode, Instr.map, e₁, e₂, e₃, e₄, e₅]
  case cmpReg rn rm =>
    obtain ⟨e₁, e₂, e₃, e₄, e₅⟩ := fields_alu (a := 10) hh (by omega) hi.2 hi.1
    simp [decode, Instr.map, e₁, e₂, e₃, e₄, e₅]
  case orr rd rm =>
    obtain ⟨e₁, e₂, e₃, e₄, e₅⟩ := fields_alu (a := 12) hh (by omega) hi.2 hi.1
    simp [decode, Instr.map, e₁, e₂, e₃, e₄, e₅]
  case mul rd rm =>
    obtain ⟨e₁, e₂, e₃, e₄, e₅⟩ := fields_alu (a := 13) hh (by omega) hi.2 hi.1
    simp [decode, Instr.map, e₁, e₂, e₃, e₄, e₅]
  case addHigh rd rm =>
    have hd := rd.number_lt
    have hm := rm.number_lt
    obtain ⟨e₁, e₂, e₃, e₄⟩ := fields_high (k := 4) hh (by omega) hd hm
    simp [decode, Instr.map, e₁, e₂, e₃, e₄, hd.ne, hm.ne]
  case cmpHigh rn rm =>
    have hd := rn.number_lt
    have hm := rm.number_lt
    obtain ⟨e₁, e₂, e₃, e₄⟩ := fields_high (k := 5) hh (by omega) hd hm
    simp [decode, Instr.map, e₁, e₂, e₃, e₄, hd.ne, hm.ne]
  case movHigh rd rm =>
    have hd := rd.number_lt
    have hm := rm.number_lt
    obtain ⟨e₁, e₂, e₃, e₄⟩ := fields_high (k := 6) hh (by omega) hd hm
    simp [decode, Instr.map, e₁, e₂, e₃, e₄, hd.ne, hm.ne]
  case bx rm =>
    have hm := rm.number_lt
    obtain ⟨e₁, e₂, e₃, e₄⟩ := fields_high (h := h) (a := 0) (k := 7) (by omega) (by omega)
      (by omega) hm
    simp [decode, Instr.map, e₁, e₂, e₃, e₄, hm.ne]
  case str rd rb n =>
    obtain ⟨e₁, e₂, e₃, e₄⟩ := fields_imm5 (o := 12) hh (by omega) hi.1.1.2 hi.1.1.1
    have hn : 4 * (n / 4) = n := by omega
    simp [decode, Instr.map, e₁, e₂, e₃, e₄, hn]
  case ldr rd rb n =>
    obtain ⟨e₁, e₂, e₃, e₄⟩ := fields_imm5 (o := 13) hh (by omega) hi.1.1.2 hi.1.1.1
    have hn : 4 * (n / 4) = n := by omega
    simp [decode, Instr.map, e₁, e₂, e₃, e₄, hn]
  case strb rd rb n =>
    obtain ⟨e₁, e₂, e₃, e₄⟩ := fields_imm5 (o := 14) hh hi.2 hi.1.2 hi.1.1
    simp [decode, Instr.map, e₁, e₂, e₃, e₄]
  case ldrb rd rb n =>
    obtain ⟨e₁, e₂, e₃, e₄⟩ := fields_imm5 (o := 15) hh hi.2 hi.1.2 hi.1.1
    simp [decode, Instr.map, e₁, e₂, e₃, e₄]
  case strh rd rb n =>
    obtain ⟨e₁, e₂, e₃, e₄⟩ := fields_imm5 (o := 16) hh (by omega) hi.1.1.2 hi.1.1.1
    have hn : 2 * (n / 2) = n := by omega
    simp [decode, Instr.map, e₁, e₂, e₃, e₄, hn]
  case ldrh rd rb n =>
    obtain ⟨e₁, e₂, e₃, e₄⟩ := fields_imm5 (o := 17) hh (by omega) hi.1.1.2 hi.1.1.1
    have hn : 2 * (n / 2) = n := by omega
    simp [decode, Instr.map, e₁, e₂, e₃, e₄, hn]
  case ldrLit rd x =>
    have htarget := poolTarget_eq hbase hlc hi.2
    obtain ⟨e₁, e₂, e₃⟩ := fields_imm8 (o := 9) hh hi.1 (poolOffset_lt hi.2)
    simp [decode, Instr.map, e₁, e₂, e₃, htarget, hlit rd x rfl]
  case adr rd l =>
    have htarget := poolTarget_eq hbase hlc hi.2
    obtain ⟨e₁, e₂, e₃⟩ := fields_imm8 (o := 20) hh hi.1 (poolOffset_lt hi.2)
    simp [decode, Instr.map, e₁, e₂, e₃, htarget]
  case popPc rs =>
    obtain ⟨e₁, e₂, e₃⟩ := fields_imm8 (h := h) (o := 23) (r := 5) (by omega) (by omega)
      (lowList_lt hi)
    simp [decode, Instr.map, e₁, e₂, e₃, ← of_decide_eq_true hi]
  case swi n =>
    obtain ⟨e₁, e₂, e₃⟩ := fields_imm8 (h := h) (o := 27) (r := 7) (by omega) (by omega) hi
    have e₄ : h / 256 % 16 = 15 := by omega
    simp [decode, Instr.map, e₁, e₃, e₄]
  case push rs =>
    rw [Bool.or_eq_true] at hi
    rcases hi with hi | hi
    · have hrs : rs = lowRegs (lowList rs) := of_decide_eq_true hi
      have hlr : Reg.lr ∉ rs := hrs ▸ lr_notMem_lowRegs _
      rw [if_neg hlr] at hh
      obtain ⟨e₁, e₂, e₃⟩ := fields_imm8 (h := h) (o := 22) (r := 4) (by omega) (by omega)
        (lowList_lt hi)
      simp [decode, Instr.map, e₁, e₂, e₃, ← hrs]
    · have hrs : rs = lowRegs (lowList rs) ++ [.lr] := of_decide_eq_true hi
      have hlr : Reg.lr ∈ rs := by
        rw [hrs]
        exact List.mem_append_right _ (List.mem_singleton_self _)
      rw [if_pos hlr] at hh
      obtain ⟨e₁, e₂, e₃⟩ := fields_imm8 (h := h) (o := 22) (r := 5) (by omega) (by omega)
        (lowList_lt_of_lr hrs)
      simp [decode, Instr.map, e₁, e₂, e₃, ← hrs]
  case ldmia rb rs =>
    obtain ⟨e₁, e₂, e₃⟩ := fields_imm8 (o := 25) hh hi.1 (lowList_lt hi.2)
    simp [decode, Instr.map, e₁, e₂, e₃, ← of_decide_eq_true hi.2]
  case stmia rb rs =>
    obtain ⟨e₁, e₂, e₃⟩ := fields_imm8 (o := 24) hh hi.1 (lowList_lt hi.2)
    simp [decode, Instr.map, e₁, e₂, e₃, ← of_decide_eq_true hi.2]
  case b l =>
    rw [BitVec.extractLsb'_toNat, Nat.shiftRight_eq_div_pow, pow_one] at hh
    have e₁ : h / 2048 = 28 := by omega
    have e₂ : h % 2048 = (offsetFrom lc 4 (sym l)).toNat / 2 % 2 ^ 11 := by omega
    simp [decode, Instr.map, e₁, branchTarget_eq (by omega) (by omega) hlc' hi e₂]
  case bc c l =>
    rw [BitVec.extractLsb'_toNat, Nat.shiftRight_eq_div_pow, pow_one] at hh
    have hc := c.number_lt
    have e₁ : h / 2048 = 26 ∨ h / 2048 = 27 := by omega
    have e₂ : h / 256 % 16 = c.number := by omega
    have e₃ : h % 256 = (offsetFrom lc 4 (sym l)).toNat / 2 % 2 ^ 8 := by omega
    have e₄ : c.number ≠ 15 := by omega
    obtain e₁ | e₁ := e₁ <;>
      simp [decode, Instr.map, e₁, e₂, e₄, branchTarget_eq (by omega) (by omega) hlc' hi e₃]
  case bl l =>
    have hh' := hh' _ rfl
    rw [BitVec.extractLsb'_toNat, Nat.shiftRight_eq_div_pow] at hh hh'
    have e₁ : h / 2048 = 30 := by omega
    have e₂ : h' / 2048 = 31 := by omega
    have e₃ : h % 2048 * 2048 + h' % 2048 =
        (offsetFrom lc 4 (sym l)).toNat / 2 % 2 ^ 22 := by omega
    simp [decode, Instr.map, e₁, e₂, branchTarget_eq (by omega) (by omega) hlc' hi e₃]
  case armToThumb rd => cases harm

/-- The halfwords of an instruction. -/
theorem encodeThumb_lt {lc lit : ℕ} {sym : ℓ → ℕ} {i : Instr ℓ}
    (hi : i.encodable lc sym lit = true) : ∀ n ∈ encodeThumb lc sym lit i, n < 2 ^ 16 := by
  cases i <;>
    simp only [Instr.encodable, Bool.and_eq_true, decide_eq_true_eq, Reg.isLow] at hi <;>
    simp only [encodeThumb, List.forall_mem_cons, List.not_mem_nil, false_imp_iff, implies_true,
      and_true]
  case movImm rd n | cmpImm rd n | addImm rd n | subImm rd n =>
    have hn := n.isLt
    omega
  case movHigh rd rm | addHigh rd rm | cmpHigh rd rm =>
    have hd := rd.number_lt
    have hm := rm.number_lt
    omega
  case bx rm =>
    have hm := rm.number_lt
    omega
  case ldrLit rd x =>
    have hlt := poolOffset_lt hi.2
    omega
  case adr rd l =>
    have hlt := poolOffset_lt hi.2
    omega
  case push rs =>
    have hlt : lowList rs < 256 := by
      rw [Bool.or_eq_true] at hi
      exact hi.elim lowList_lt fun h => lowList_lt_of_lr (of_decide_eq_true h)
    split <;> omega
  case popPc rs =>
    have hlt := lowList_lt hi
    omega
  case ldmia rb rs | stmia rb rs =>
    have hlt := lowList_lt hi.2
    omega
  case b l | bl l =>
    simp only [BitVec.extractLsb'_toNat]
    omega
  case bc c l =>
    have hc := c.number_lt
    rw [BitVec.extractLsb'_toNat]
    omega
  all_goals omega

/-! ## In memory -/

/-- The bytes of a list in memory. -/
theorem loadBytes_eq {m : Mem} {a : Word} {bs : List Byte}
    (h : ∀ i < bs.length, m (a + BitVec.ofNat 32 i) = bs.getD i 0) :
    loadBytes m a bs.length = bs := by
  induction bs generalizing a with
  | nil => rfl
  | cons b bs ih =>
      have hb : m a = b := by simpa using h 0 (Nat.succ_pos _)
      have hbs := ih (a := a + 1) fun i hi => by
        have hsucc := h (i + 1) (Nat.succ_lt_succ hi)
        rw [Nat.add_comm i 1, BitVec.ofNat_add, ← BitVec.add_assoc] at hsucc
        simpa [Nat.add_comm 1 i] using hsucc
      rw [List.length_cons, loadBytes, hb, hbs]

theorem load16_of_loadBytes {m : Mem} {a : Word} {h : Half} {bs : List Byte}
    (hm : loadBytes m a (2 + bs.length) = halfBytes h ++ bs) : load16 m a = h := by
  rw [Nat.add_comm, loadBytes, loadBytes, halfBytes] at hm
  obtain ⟨h₀, hm⟩ := List.cons.inj hm
  obtain ⟨h₁, -⟩ := List.cons.inj hm
  rw [load16, h₀, h₁, half_bytes]

theorem loadBytes_add (m : Mem) (a : Word) (k n : ℕ) :
    loadBytes m a (k + n) = loadBytes m a k ++ loadBytes m (a + BitVec.ofNat 32 k) n := by
  induction k generalizing a with
  | zero => simp [loadBytes]
  | succ k ih =>
      rw [Nat.add_right_comm, loadBytes, loadBytes, ih, List.cons_append, BitVec.add_assoc,
        Nat.add_comm k 1, BitVec.ofNat_add]
      rfl

theorem loadBytes_length (m : Mem) (a : Word) (n : ℕ) : (loadBytes m a n).length = n := by
  induction n generalizing a with
  | zero => rfl
  | succ n ih => rw [loadBytes, List.length_cons, ih]

theorem load32_of_loadBytes {m : Mem} {a w : Word} (hm : loadBytes m a 4 = wordBytes w) :
    load32 m a = w := by
  simp only [loadBytes, wordBytes, List.cons.injEq, and_true] at hm
  obtain ⟨h₀, h₁, h₂, h₃⟩ := hm
  rw [BitVec.add_assoc a 1 1] at h₂ h₃
  rw [BitVec.add_assoc a (1 + 1) 1] at h₃
  rw [load32, h₀, h₁]
  exact (congrArg₂ (fun x y => y ++ x ++ _ ++ _) h₂ h₃).trans (word_bytes w)

/-- An instruction lies in memory at `base + lc`, and the literal it loads at `base + lit`. -/
structure Instr.Lies (m : Mem) (base lc : ℕ) (sym : ℓ → ℕ) (lit : ℕ) (i : Instr ℓ) : Prop where
  /-- It can be encoded. -/
  encodable : i.encodable lc sym lit = true
  /-- Its bytes. -/
  bytes : loadBytes m (BitVec.ofNat 32 (base + lc)) i.size = encode lc sym lit i
  /-- Its literal. -/
  literal : ∀ rd x, i = .ldrLit rd x → load32 m (BitVec.ofNat 32 (base + lit)) = x

theorem encode_of_not_isArm {i : Instr ℓ} (hi : i.isArm = false) (lc : ℕ) (sym : ℓ → ℕ)
    (lit : ℕ) : encode lc sym lit i =
      (encodeThumb lc sym lit i).flatMap fun n => halfBytes (BitVec.ofNat 16 n) := by
  cases i <;> first | rfl | cases hi

/-- **An instruction that lies in memory is found there.** -/
theorem Instr.Lies.decodeAt {m : Mem} {base lc lit : ℕ} {sym : ℓ → ℕ} {i : Instr ℓ}
    (h : i.Lies m base lc sym lit) (hbase : base % 4 = 0) (hlc : base + lc + 4 < 2 ^ 32)
    (hlc' : lc < 2 ^ 31) (harm : i.isArm = false) :
    decodeAt m (BitVec.ofNat 32 (base + lc)) =
      some (i.map fun l => BitVec.ofNat 32 (base + sym l)) := by
  have hlt := encodeThumb_lt h.encodable
  have hbytes := h.bytes
  obtain ⟨n, ns, hns⟩ : ∃ n ns, encodeThumb lc sym lit i = n :: ns := by
    cases i <;> first | exact ⟨_, _, rfl⟩ | cases harm
  have hsize := encode_length lc sym lit i
  rw [encode_of_not_isArm harm, hns, List.flatMap_cons] at hbytes hsize
  rw [List.length_append, halfBytes_length] at hsize
  rw [← hsize] at hbytes
  rw [hns, List.forall_mem_cons] at hlt
  have hfirst : (load16 m (BitVec.ofNat 32 (base + lc))).toNat =
      (encodeThumb lc sym lit i).getD 0 0 := by
    rw [load16_of_loadBytes hbytes, hns, BitVec.toNat_ofNat, Nat.mod_eq_of_lt hlt.1]
    rfl
  rw [Thumb.decodeAt, hfirst]
  refine decode_encodeThumb hbase hlc hlc' harm h.encodable h.literal fun n' hn' => ?_
  -- The second halfword follows the first.
  rw [hns, List.getElem?_cons_succ] at hn'
  obtain ⟨ns', rfl⟩ : ∃ ns', ns = n' :: ns' := by
    cases ns with
    | nil => cases hn'
    | cons a as => exact ⟨as, by simpa using hn'⟩
  rw [loadBytes_add] at hbytes
  have hsecond := List.append_inj_right hbytes (loadBytes_length m _ 2)
  rw [List.flatMap_cons, List.length_append, halfBytes_length] at hsecond
  have hload : load16 m (BitVec.ofNat 32 (base + lc) + 2) = BitVec.ofNat 16 n' :=
    load16_of_loadBytes hsecond
  rw [hload, BitVec.toNat_ofNat, Nat.mod_eq_of_lt (hlt.2 _ List.mem_cons_self)]

end Thumb
