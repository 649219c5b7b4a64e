import ShrinklerGba.Thumb.Memory
import ShrinklerGba.Transition.Run

/-!
# The ARMv4T Thumb instructions

An instruction set with 32-bit registers, the flags N, Z, C, V and byte memory, over an arbitrary
type `ℓ` of labels.

* `Cpu` is the machine state, `Instr ℓ` an instruction as an assembler names it: branches, `adr` and
  literal loads carry their label or value, not the offset they are encoded with.
* `exec M i s` is the effect of one instruction, `step M s` fetches and executes. `none` means that
  the architecture calls the result UNPREDICTABLE (a misaligned halfword access) or that there is no
  instruction to fetch.
* `Image ℓ` is what surrounds the machine: the code, the addresses of the labels, the supervisor
  calls, and the carry `mul` leaves, which ARMv4T does not specify.
* `step_of_fetch`: in Thumb state, a step executes the instruction at `pc`.
-/

namespace Thumb

/-- The general registers. `pc` is not among them: it is a field of its own. -/
inductive Reg
  | r0 | r1 | r2 | r3 | r4 | r5 | r6 | r7 | r8 | r9 | r10 | r11 | r12 | sp | lr
  deriving DecidableEq, Repr

/-- The number a register is encoded with. -/
def Reg.number : Reg → ℕ
  | .r0 => 0 | .r1 => 1 | .r2 => 2 | .r3 => 3 | .r4 => 4 | .r5 => 5 | .r6 => 6 | .r7 => 7
  | .r8 => 8 | .r9 => 9 | .r10 => 10 | .r11 => 11 | .r12 => 12 | .sp => 13 | .lr => 14

/-- The registers most Thumb instructions can name. -/
def Reg.isLow (r : Reg) : Bool := r.number < 8

/-- The branch conditions. -/
inductive Cond
  | eq | ne | cs | cc | ls
  deriving DecidableEq, Repr

/-- Thumb instructions, and the two ARM instructions that enter Thumb state. -/
inductive Instr (ℓ : Type)
  /-- `lsl rd, rm, #n` -/
  | lsl (rd rm : Reg) (n : ℕ)
  /-- `lsr rd, rm, #n` -/
  | lsr (rd rm : Reg) (n : ℕ)
  /-- `add rd, rn, rm` -/
  | addReg (rd rn rm : Reg)
  /-- `sub rd, rn, rm` -/
  | subReg (rd rn rm : Reg)
  /-- `sub rd, rn, #n` -/
  | subImm3 (rd rn : Reg) (n : ℕ)
  /-- `mov rd, #n` -/
  | movImm (rd : Reg) (n : Byte)
  /-- `cmp rn, #n` -/
  | cmpImm (rn : Reg) (n : Byte)
  /-- `add rd, #n` -/
  | addImm (rd : Reg) (n : Byte)
  /-- `sub rd, #n` -/
  | subImm (rd : Reg) (n : Byte)
  /-- `and rd, rm` -/
  | and (rd rm : Reg)
  /-- `adc rd, rm` -/
  | adc (rd rm : Reg)
  /-- `neg rd, rm` -/
  | neg (rd rm : Reg)
  /-- `cmp rn, rm` -/
  | cmpReg (rn rm : Reg)
  /-- `orr rd, rm` -/
  | orr (rd rm : Reg)
  /-- `mul rd, rm` -/
  | mul (rd rm : Reg)
  /-- `mov rd, rm` between low registers, which is `add rd, rm, #0` -/
  | movLow (rd rm : Reg)
  /-- `mov rd, rm` with a high register -/
  | movHigh (rd rm : Reg)
  /-- `add rd, rm` with a high register -/
  | addHigh (rd rm : Reg)
  /-- `cmp rn, rm` with a high register -/
  | cmpHigh (rn rm : Reg)
  /-- `bx rm` -/
  | bx (rm : Reg)
  /-- `ldr rd, =x`, from a literal pool -/
  | ldrLit (rd : Reg) (x : Word)
  /-- `adr rd, l` -/
  | adr (rd : Reg) (l : ℓ)
  /-- `ldrb rd, [rb, ro]` -/
  | ldrbReg (rd rb ro : Reg)
  /-- `ldr rd, [rb, #n]` -/
  | ldr (rd rb : Reg) (n : ℕ)
  /-- `str rd, [rb, #n]` -/
  | str (rd rb : Reg) (n : ℕ)
  /-- `ldrb rd, [rb, #n]` -/
  | ldrb (rd rb : Reg) (n : ℕ)
  /-- `strb rd, [rb, #n]` -/
  | strb (rd rb : Reg) (n : ℕ)
  /-- `ldrh rd, [rb, #n]` -/
  | ldrh (rd rb : Reg) (n : ℕ)
  /-- `strh rd, [rb, #n]` -/
  | strh (rd rb : Reg) (n : ℕ)
  /-- `push {rs}`, in ascending order -/
  | push (rs : List Reg)
  /-- `pop {rs, pc}`, in ascending order -/
  | popPc (rs : List Reg)
  /-- `ldmia rb!, {rs}` -/
  | ldmia (rb : Reg) (rs : List Reg)
  /-- `stmia rb!, {rs}` -/
  | stmia (rb : Reg) (rs : List Reg)
  /-- `b l` -/
  | b (l : ℓ)
  /-- `b<c> l` -/
  | bc (c : Cond) (l : ℓ)
  /-- `bl l` -/
  | bl (l : ℓ)
  /-- `swi n` -/
  | swi (n : ℕ)
  /-- `add rd, pc, #1; bx rd` in ARM state -/
  | armToThumb (rd : Reg)
  deriving DecidableEq

variable {ℓ : Type}

/-- The bytes an instruction takes. -/
def Instr.size : Instr ℓ → ℕ
  | .bl _ => 4
  | .armToThumb _ => 8
  | _ => 2

/-! ## The machine state -/

/-- Registers, flags, instruction set state and memory. -/
structure Cpu where
  /-- The general registers and the address of the current instruction. -/
  (r0 r1 r2 r3 r4 r5 r6 r7 r8 r9 r10 r11 r12 sp lr pc : Word)
  /-- The flags, and whether the processor is in Thumb state. -/
  (n z c v thumb : Bool)
  /-- Memory. -/
  mem : Mem

namespace Cpu

/-- The value of a register. -/
def reg (s : Cpu) : Reg → Word
  | .r0 => s.r0 | .r1 => s.r1 | .r2 => s.r2 | .r3 => s.r3 | .r4 => s.r4 | .r5 => s.r5
  | .r6 => s.r6 | .r7 => s.r7 | .r8 => s.r8 | .r9 => s.r9 | .r10 => s.r10 | .r11 => s.r11
  | .r12 => s.r12 | .sp => s.sp | .lr => s.lr

/-- Write a register. -/
def set (s : Cpu) (r : Reg) (x : Word) : Cpu :=
  match r with
  | .r0 => { s with r0 := x }
  | .r1 => { s with r1 := x }
  | .r2 => { s with r2 := x }
  | .r3 => { s with r3 := x }
  | .r4 => { s with r4 := x }
  | .r5 => { s with r5 := x }
  | .r6 => { s with r6 := x }
  | .r7 => { s with r7 := x }
  | .r8 => { s with r8 := x }
  | .r9 => { s with r9 := x }
  | .r10 => { s with r10 := x }
  | .r11 => { s with r11 := x }
  | .r12 => { s with r12 := x }
  | .sp => { s with sp := x }
  | .lr => { s with lr := x }

/-- Set N and Z from a result. -/
def setNZ (s : Cpu) (x : Word) : Cpu := { s with n := x.msb, z := x == 0 }

/-- Set all four flags: N and Z from a result, C and V as given. -/
def setFlags (s : Cpu) (x : Word) (c v : Bool) : Cpu :=
  { s with n := x.msb, z := x == 0, c := c, v := v }

/-- Go on with the next halfword. -/
def next (s : Cpu) : Cpu := { s with pc := s.pc + 2 }

/-- Whether a condition holds of the flags. -/
def holds (s : Cpu) : Cond → Bool
  | .eq => s.z
  | .ne => !s.z
  | .cs => s.c
  | .cc => !s.c
  | .ls => !s.c || s.z

/-- Load registers from ascending word addresses. -/
def loadRegs (s : Cpu) (a : Word) : List Reg → Cpu
  | [] => s
  | r :: rs => loadRegs (s.set r (load32 s.mem a)) (a + 4) rs

end Cpu

/-! ## Arithmetic with flags -/

/-- The carry out of `x + y + c`. -/
def carryAdd (x y : Word) (c : Bool) : Bool := 2 ^ 32 ≤ x.toNat + y.toNat + c.toNat

/-- The signed overflow of `x + y + c`. -/
def overflowAdd (x y : Word) (c : Bool) : Bool :=
  x.msb == y.msb && (x + y + (BitVec.ofBool c).setWidth 32).msb != x.msb

/-- The carry out of `x - y`: there was no borrow. -/
def carrySub (x y : Word) : Bool := y.toNat ≤ x.toNat

/-- The signed overflow of `x - y`. -/
def overflowSub (x y : Word) : Bool := x.msb != y.msb && (x - y).msb != x.msb

@[simp] theorem carryAdd_zero (x : Word) : carryAdd x 0#32 false = false := by
  simp [carryAdd, x.isLt]

/-- The carry of a doubling is the highest bit. -/
theorem carryAdd_self (x : Word) : carryAdd x x false = x.msb := by
  simp only [carryAdd, BitVec.msb_eq_decide, Bool.toNat_false, decide_eq_decide]
  omega

/-- Adding what was subtracted with a borrow carries. -/
theorem carryAdd_sub {x y : Word} (h : carrySub x y = false) : carryAdd (x - y) y false = true := by
  simp only [carryAdd, carrySub, decide_eq_false_iff_not, decide_eq_true_eq, Bool.toNat_false] at *
  bv_omega

/-! ## Executing one instruction -/

/-- What surrounds the machine: its code, the addresses of the labels, the carry that `mul` leaves
(ARMv4T does not say which) and the supervisor calls. -/
structure Image (ℓ : Type) where
  /-- The instruction at an address. -/
  fetch : Word → Option (Instr ℓ)
  /-- The address of a label. -/
  sym : ℓ → Word
  /-- The carry after `mul`, from its operands. -/
  mulCarry : Word → Word → Bool
  /-- The effect of `swi n` on everything but `pc`. -/
  swi : ℕ → Cpu → Cpu

/-- The effect of an instruction at `s.pc`. -/
def exec (M : Image ℓ) (s : Cpu) : Instr ℓ → Option Cpu
  | .lsl rd rm n =>
      let x := s.reg rm
      let y := x <<< n
      some { (s.set rd y).setNZ y with
             pc := s.pc + 2, c := if n = 0 then s.c else x.getLsbD (32 - n) }
  | .lsr rd rm n =>
      let x := s.reg rm
      let y := x >>> n
      some { (s.set rd y).setNZ y with pc := s.pc + 2, c := x.getLsbD (n - 1) }
  | .addReg rd rn rm =>
      let x := s.reg rn
      let y := s.reg rm
      some ((s.set rd (x + y)).setFlags (x + y) (carryAdd x y false) (overflowAdd x y false)).next
  | .subReg rd rn rm =>
      let x := s.reg rn
      let y := s.reg rm
      some ((s.set rd (x - y)).setFlags (x - y) (carrySub x y) (overflowSub x y)).next
  | .subImm3 rd rn n =>
      let x := s.reg rn
      let y := BitVec.ofNat 32 n
      some ((s.set rd (x - y)).setFlags (x - y) (carrySub x y) (overflowSub x y)).next
  | .movImm rd n =>
      let y := n.setWidth 32
      some ((s.set rd y).setNZ y).next
  | .cmpImm rn n =>
      let x := s.reg rn
      let y := n.setWidth 32
      some (s.setFlags (x - y) (carrySub x y) (overflowSub x y)).next
  | .addImm rd n =>
      let x := s.reg rd
      let y := n.setWidth 32
      some ((s.set rd (x + y)).setFlags (x + y) (carryAdd x y false) (overflowAdd x y false)).next
  | .subImm rd n =>
      let x := s.reg rd
      let y := n.setWidth 32
      some ((s.set rd (x - y)).setFlags (x - y) (carrySub x y) (overflowSub x y)).next
  | .and rd rm =>
      let y := s.reg rd &&& s.reg rm
      some ((s.set rd y).setNZ y).next
  | .adc rd rm =>
      let x := s.reg rd
      let y := s.reg rm
      let r := x + y + (BitVec.ofBool s.c).setWidth 32
      some ((s.set rd r).setFlags r (carryAdd x y s.c) (overflowAdd x y s.c)).next
  | .neg rd rm =>
      let y := s.reg rm
      some ((s.set rd (0 - y)).setFlags (0 - y) (carrySub 0 y) (overflowSub 0 y)).next
  | .cmpReg rn rm =>
      let x := s.reg rn
      let y := s.reg rm
      some (s.setFlags (x - y) (carrySub x y) (overflowSub x y)).next
  | .orr rd rm =>
      let y := s.reg rd ||| s.reg rm
      some ((s.set rd y).setNZ y).next
  | .mul rd rm =>
      let y := s.reg rd * s.reg rm
      some { (s.set rd y).setNZ y with pc := s.pc + 2, c := M.mulCarry (s.reg rd) (s.reg rm) }
  | .movLow rd rm =>
      let y := s.reg rm
      some ((s.set rd y).setFlags y false false).next
  | .movHigh rd rm => some (s.set rd (s.reg rm)).next
  | .addHigh rd rm => some (s.set rd (s.reg rd + s.reg rm)).next
  | .cmpHigh rn rm =>
      let x := s.reg rn
      let y := s.reg rm
      some (s.setFlags (x - y) (carrySub x y) (overflowSub x y)).next
  | .bx rm => some { s with pc := s.reg rm &&& ~~~1, thumb := (s.reg rm).getLsbD 0 }
  | .ldrLit rd x => some (s.set rd x).next
  | .adr rd l => some (s.set rd (M.sym l)).next
  | .ldrbReg rd rb ro => some (s.set rd ((s.mem (s.reg rb + s.reg ro)).setWidth 32)).next
  | .ldr rd rb n => some (s.set rd (loadWord s.mem (s.reg rb + BitVec.ofNat 32 n))).next
  | .str rd rb n =>
      some { s.next with
             mem := store32 s.mem (align4 (s.reg rb + BitVec.ofNat 32 n)) (s.reg rd) }
  | .ldrb rd rb n => some (s.set rd ((s.mem (s.reg rb + BitVec.ofNat 32 n)).setWidth 32)).next
  | .strb rd rb n =>
      some { s.next with
             mem := store8 s.mem (s.reg rb + BitVec.ofNat 32 n) ((s.reg rd).setWidth 8) }
  | .ldrh rd rb n =>
      let a := s.reg rb + BitVec.ofNat 32 n
      if a.toNat % 2 = 0 then some (s.set rd ((load16 s.mem a).setWidth 32)).next else none
  | .strh rd rb n =>
      let a := s.reg rb + BitVec.ofNat 32 n
      if a.toNat % 2 = 0 then
        some { s.next with mem := store16 s.mem a ((s.reg rd).setWidth 16) }
      else none
  | .push rs =>
      let a := s.sp - BitVec.ofNat 32 (4 * rs.length)
      some { s.next with sp := a, mem := storeWords s.mem (align4 a) (rs.map s.reg) }
  | .popPc rs =>
      let a := align4 s.sp
      some { s.loadRegs a rs with
             sp := s.sp + BitVec.ofNat 32 (4 * rs.length + 4)
             pc := load32 s.mem (a + BitVec.ofNat 32 (4 * rs.length)) &&& ~~~1 }
  | .ldmia rb rs =>
      let a := s.reg rb
      some ((s.set rb (a + BitVec.ofNat 32 (4 * rs.length))).loadRegs (align4 a) rs).next
  | .stmia rb rs =>
      let a := s.reg rb
      some { (s.set rb (a + BitVec.ofNat 32 (4 * rs.length))).next with
             mem := storeWords s.mem (align4 a) (rs.map s.reg) }
  | .b l => some { s with pc := M.sym l }
  | .bc c l => some { s with pc := if s.holds c then M.sym l else s.pc + 2 }
  | .bl l => some { s with lr := (s.pc + 4) ||| 1, pc := M.sym l }
  | .swi n => some { M.swi n s with pc := s.pc + 2, thumb := s.thumb }
  | .armToThumb rd => some { s.set rd (s.pc + 9) with pc := s.pc + 8, thumb := true }

/-- Whether an instruction is an ARM one. -/
def Instr.isArm : Instr ℓ → Bool
  | .armToThumb _ => true
  | _ => false

/-- Fetch and execute one instruction, in the instruction set state it belongs to. -/
def step (M : Image ℓ) (s : Cpu) : Option Cpu :=
  (M.fetch s.pc).bind fun i => if i.isArm = s.thumb then none else exec M s i

theorem step_of_fetch {M : Image ℓ} {s : Cpu} {i : Instr ℓ} (hf : M.fetch s.pc = some i)
    (hi : i.isArm = false) (ht : s.thumb = true) : step M s = exec M s i := by
  simp [step, hf, hi, ht]

end Thumb
