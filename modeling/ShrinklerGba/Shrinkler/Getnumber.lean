import ShrinklerGba.Shrinkler.Blocks

/-!
# The blocks of `getnumber`

What the processor does in `getnumber`, from one place to the next: `getnumber` itself, the two
loops up to their calls of `getbit`, what follows these calls, and the `pop`.
-/

namespace ShrinklerGba.Shrinkler

open Thumb Transition

attribute [local simp] execs exec Cpu.reg Cpu.set Cpu.setNZ Cpu.setFlags Cpu.next Cpu.holds
  Cpu.loadRegs Instr.size Rom.addr_add Rom.sym_add Rom.image_sym Rom.addr_getnumber_end
  Rom.addr_numberloop_end

variable {ρ : Rom} {s : Cpu}

theorem executes_getnumber (ht : s.thumb = true) (hpc : s.pc = ρ.sym .getnumber) :
    ρ.Executes .getnumber [.push getnumberPushList, .lsl tmp0 tmp0 8, .movImm outp 0] s
      { s with r1 := 0, r2 := s.r2 <<< 8, sp := s.sp - 8, pc := ρ.sym .numberloop
               n := false, z := true, c := s.r2.getLsbD 24
               mem := storeWords s.mem (align4 (s.sp - 8)) [s.r1, s.lr] } :=
  ρ.block_getnumber.executes (by simp [hpc]) ht (by simp) (by simp [hpc])

/-- The counter goes up by two and selects the context. -/
theorem executes_numberloop (ht : s.thumb = true) (hpc : s.pc = ρ.sym .numberloop) :
    ρ.Executes .getnumber
      [.addImm outp 2, .movLow bitctx tmp0, .orr bitctx outp, .bl .getbit] s
      { s with r1 := s.r1 + 2, r7 := s.r2 ||| (s.r1 + 2), pc := ρ.sym .getbit
               lr := ρ.addr .numberloop 10 ||| 1, n := (s.r2 ||| (s.r1 + 2)).msb
               z := s.r2 ||| (s.r1 + 2) == 0, c := false, v := false } :=
  ρ.block_numberloop.executes (by simp [hpc]) ht (by simp) (by simp [hpc])

/-- After a one, the first loop goes on. -/
theorem executes_unaryOne (ht : s.thumb = true) (hpc : s.pc = ρ.addr .numberloop 10)
    (hc : s.c = true) :
    ρ.Executes .getnumber [.bc .cs .numberloop] s { s with pc := ρ.sym .numberloop } :=
  (ρ.block_unary.take 0).executes hpc ht (by simp) (by simp [hc])

/-- After a zero, the counter is that of the first digit. -/
theorem executes_unaryZero (ht : s.thumb = true) (hpc : s.pc = ρ.addr .numberloop 10)
    (hc : s.c = false) :
    ρ.Executes .getnumber [.bc .cs .numberloop, .movImm tmp1 1, .subImm outp 1] s
      { s with r1 := s.r1 - 1, r3 := 1, pc := ρ.sym .bitsloop, n := (s.r1 - 1).msb
               z := s.r1 - 1 == 0, c := carrySub s.r1 1, v := overflowSub s.r1 1 } :=
  ρ.block_unary.executes hpc ht (by simp) (by simp [hpc, hc])

theorem executes_bitsloop (ht : s.thumb = true) (hpc : s.pc = ρ.sym .bitsloop) :
    ρ.Executes .getnumber [.movLow bitctx tmp0, .orr bitctx outp, .bl .getbit] s
      { s with r7 := s.r2 ||| s.r1, pc := ρ.sym .getbit, lr := ρ.addr .bitsloop 8 ||| 1
               n := (s.r2 ||| s.r1).msb, z := s.r2 ||| s.r1 == 0, c := false, v := false } :=
  ρ.block_bitsloop.executes (by simp [hpc]) ht (by simp) (by simp [hpc])

/-- The digit is written behind the number, and the counter goes down by two. -/
theorem executes_digit (ht : s.thumb = true) (hpc : s.pc = ρ.addr .bitsloop 8) :
    ρ.Executes .getnumber [.adc tmp1 tmp1, .subImm outp 2, .bc .cs .bitsloop] s
      { s with r1 := s.r1 - 2, r3 := s.r3 + s.r3 + (BitVec.ofBool s.c).setWidth 32
               pc := if carrySub s.r1 2 then ρ.sym .bitsloop else ρ.addr .bitsloop 14
               n := (s.r1 - 2).msb, z := s.r1 - 2 == 0, c := carrySub s.r1 2
               v := overflowSub s.r1 2 } :=
  ρ.block_digit.executes hpc ht (by simp) (by simp [hpc])

theorem exec_popNumber (s : Cpu) :
    exec ρ.image s (.popPc [outp]) = some
      { s with r1 := load32 s.mem (align4 s.sp), sp := s.sp + 8
               pc := load32 s.mem (align4 s.sp + 4) &&& ~~~1#32 } := by
  simp

end ShrinklerGba.Shrinkler
