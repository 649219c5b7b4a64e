import ShrinklerGba.Shrinkler.Getbit

/-!
# The depacker, place by place

The depacker as a machine of its own, from one place where it touches memory, calls, returns or
loops to the next. It has no program counter and no stack: `Control` says where it is, and what a
subroutine saves is kept in fields.

* `Depacker` is its state, `Depacker.step` its step function.
* `Site` are the places `getbit` is called from, `Number` those of `getnumber`.
-/

namespace ShrinklerGba.Shrinkler

open Thumb

/-! ## Places -/

/-- The calls of `getnumber`. -/
inductive Number
  | offset | length
  deriving DecidableEq

/-- The base context of a number, as the main loop passes it. -/
def Number.base : Number → Word
  | .offset => 3
  | .length => 4

/-- The calls of `getbit`. -/
inductive Site
  /-- In `getlit`. -/
  | literal
  /-- In `switch`. -/
  | kindAfterLiteral
  /-- In `switch`, for a repeated offset. -/
  | repeated
  /-- After `copyloop`. -/
  | kindAfterReference
  /-- In `numberloop`. -/
  | unary (k : Number)
  /-- In `bitsloop`. -/
  | digit (k : Number)
  deriving DecidableEq

/-- The call of `getnumber` that a call of `getbit` is nested in. -/
def Site.number : Site → Option Number
  | .unary k | .digit k => some k
  | _ => none

/-- The stack pointer of the caller; `S` is that of the main loop. -/
def Site.sp (S : Word) (σ : Site) : Word := if σ.number.isSome then S - 8 else S

/-- Where control is. -/
inductive Control
  /-- At `code_start`, in ARM state. -/
  | start
  /-- At `init`. -/
  | init
  /-- At `literal`. -/
  | literal
  /-- At `getlit`. -/
  | getlit
  /-- About to store a literal. -/
  | storeLiteral
  /-- At `switch`. -/
  | switch
  /-- At `readlength`. -/
  | readlength
  /-- At `copyloop`. -/
  | copyloop
  /-- About to store a copied byte. -/
  | copyStore
  /-- At `readoffset`. -/
  | readoffset
  /-- At `donedecompressing`. -/
  | done
  /-- At the `bx` to the entry point. -/
  | exit
  /-- At `getnumber`, about to push. -/
  | getnumber (k : Number)
  /-- At `numberloop`. -/
  | numberloop (k : Number)
  /-- At `bitsloop`. -/
  | bitsloop (k : Number)
  /-- About to pop in `getnumber`. -/
  | popNumber (k : Number)
  /-- Back from `getnumber`. -/
  | gotNumber (k : Number)
  /-- In `getbit`. -/
  | getbit (σ : Site) (p : Phase)

/-- The depacker's state. `counter` is what `getnumber` keeps in the register of `outp`. -/
structure Depacker extends Coder where
  /-- Where control is. -/
  ctl : Control
  /-- The registers of these names, and the counter of `getnumber`. -/
  (outp tmp0 tmp1 offset counter : Word)

namespace Depacker

/-- The context of a kind bit, from the parity of the output address.
Source: `shrinkler_packer.cpp`, `getkind`. -/
def kindContext (outp : Word) : Word := outp <<< 31 >>> 23

/-- A bit as a word. -/
def bitWord (bit : Bool) : Word := (BitVec.ofBool bit).setWidth 32

/-- Call `getbit`. -/
def call (d : Depacker) (σ : Site) (bitctx : Word) : Depacker :=
  { d with ctl := .getbit σ .call, bitctx := bitctx }

/-- What follows a call of `getbit` that returned `bit`. -/
def received (d : Depacker) (bit : Bool) : Site → Depacker
  | .literal =>
      let x := d.tmp0 + d.tmp0 + bitWord bit
      { d with tmp0 := x, ctl := if x.toNat ≤ 255 then .getlit else .storeLiteral }
  | .kindAfterLiteral =>
      if bit then d.call .repeated (-1) else { d with ctl := .literal }
  | .repeated => { d with ctl := if bit then .readlength else .readoffset }
  | .kindAfterReference => { d with ctl := if bit then .readoffset else .literal }
  | .unary k =>
      if bit then { d with ctl := .numberloop k }
      else { d with ctl := .bitsloop k, tmp1 := 1, counter := d.counter - 1 }
  | .digit k =>
      { d with
        ctl := if 2 ≤ d.counter.toNat then .bitsloop k else .popNumber k
        tmp1 := d.tmp1 + d.tmp1 + bitWord bit
        counter := d.counter - 2 }

/-- What the depacker is built with and started in: whether it checks what it has decompressed, the
load and entry addresses, where the compressed program lies, and the main loop's stack pointer. -/
structure Params where
  /-- Whether there are debug checks. -/
  debugChecks : Bool
  /-- The load address. -/
  load : Word
  /-- The entry point. -/
  entry : Word
  /-- The address of the compressed program. -/
  intro : Word
  /-- The main loop's stack pointer, where the context table begins. -/
  S : Word

/-- One step. Words, probabilities and the bytes that are copied are read from `rd`. Where the debug
checks begin, the depacker is done. -/
def step (π : Params) (rd : Mem) (d : Depacker) : Option Depacker :=
  match d.ctl with
  | .start =>
      some { d with
             ctl := .init
             inp := π.intro
             outp := π.load
             isize := 1
             bitbuf := 0x80000000
             rvalue := 1024
             bitctx := 0x80008000 }
  | .init =>
      some { d with
             ctl := if d.rvalue - 1 = 0 then .literal else .init
             rvalue := d.rvalue - 1
             mem := store32 d.mem (π.S + 4 * (d.rvalue - 1)) d.bitctx }
  | .literal => some { d with ctl := .getlit, tmp0 := 1 }
  | .getlit => some (d.call .literal (kindContext d.outp ||| d.tmp0))
  | .storeLiteral =>
      some { d with
             ctl := .switch
             outp := d.outp + 1
             mem := store8 d.mem d.outp (d.tmp0.setWidth 8) }
  | .switch => some (d.call .kindAfterLiteral (kindContext d.outp))
  | .readlength => some { d with ctl := .getnumber .length, tmp0 := Number.length.base }
  | .readoffset => some { d with ctl := .getnumber .offset, tmp0 := Number.offset.base }
  | .copyloop => some { d with ctl := .copyStore, bitctx := (rd (d.outp + d.tmp0)).setWidth 32 }
  | .copyStore =>
      let d' : Depacker :=
        { d with
          outp := d.outp + 1
          tmp1 := d.tmp1 - 1
          mem := store8 d.mem d.outp (d.bitctx.setWidth 8) }
      some (if d'.tmp1 = 0 then d'.call .kindAfterReference (kindContext d'.outp)
        else { d' with ctl := .copyloop })
  | .done => if π.debugChecks then none else some { d with ctl := .exit, outp := π.entry }
  | .exit => none
  | .getnumber k => some { d with ctl := .numberloop k, tmp0 := d.tmp0 <<< 8, counter := 0 }
  | .numberloop k =>
      let counter := d.counter + 2
      some { d.call (.unary k) (d.tmp0 ||| counter) with counter := counter }
  | .bitsloop k => some (d.call (.digit k) (d.tmp0 ||| d.counter))
  | .popNumber k => some { d with ctl := .gotNumber k }
  | .gotNumber .length => some { d with ctl := .copyloop, tmp0 := 0 - d.offset }
  | .gotNumber .offset =>
      let offset := d.tmp1 - 2
      some { d with
             ctl := if offset = 0 then .done else .readlength
             tmp1 := offset
             offset := offset }
  | .getbit σ (.ret bit) => some (d.received bit σ)
  | .getbit σ p =>
      (Coder.step rd (σ.sp π.S) (p, d.toCoder)).map fun x =>
        { d with toCoder := x.2, ctl := .getbit σ x.1 }

end Depacker

end ShrinklerGba.Shrinkler
