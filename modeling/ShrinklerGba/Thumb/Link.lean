import ShrinklerGba.Thumb.Assembler

/-!
# Encoding and linking

The bytes of an assembled program. Every statement becomes the bytes `place` reserves for it:
Thumb instructions are one little-endian halfword (`bl` two), ARM instructions a word, labels are
resolved relative to the first statement.

* `encode lc sym lit i` is an instruction at `lc`, its literal at `lit`.
* `link ss` is the program; `link_getElem?` finds the bytes of a statement in it.
* `failedAssertion` runs the assertions; **`link_getElem?_of_assertLc`**: what follows an assertion
  lies where it says.
* `link_instr` are the bytes of an instruction; **`link_literal`**: a literal lies where the
  instruction that loads it says.
* **`link_movImm`**: the byte of an immediate value can be changed in the linked program.
-/

namespace Thumb

variable {ℓ : Type}

/-! ## Instructions -/

/-- A halfword, little endian. -/
def halfBytes (h : Half) : List Byte := [h.extractLsb' 0 8, h.extractLsb' 8 8]

/-- A word, little endian. -/
def wordBytes (w : Word) : List Byte :=
  [w.extractLsb' 0 8, w.extractLsb' 8 8, w.extractLsb' 16 8, w.extractLsb' 24 8]

@[simp] theorem halfBytes_length (h : Half) : (halfBytes h).length = 2 := rfl

@[simp] theorem wordBytes_length (w : Word) : (wordBytes w).length = 4 := rfl

/-- The bits of a register list that stand for low registers. -/
def lowList (rs : List Reg) : ℕ := ((rs.filter Reg.isLow).map fun r => 2 ^ r.number).sum

/-- The encoding of a condition. -/
def Cond.number : Cond → ℕ
  | .eq => 0 | .ne => 1 | .cs => 2 | .cc => 3 | .ls => 9

/-- The distance from `pc`, which reads as the instruction's address plus `ahead`. -/
def offsetFrom (lc ahead target : ℕ) : Word := BitVec.ofNat 32 target - BitVec.ofNat 32 (lc + ahead)

/-- The word offset of `adr` and `ldr rd, =x`, from the aligned `pc`. -/
def poolOffset (lc target : ℕ) : ℕ := (target - (lc + 4) / 4 * 4) / 4

/-- The Thumb halfwords of an instruction at `lc` whose literal lies at `lit`. -/
def encodeThumb (lc : ℕ) (sym : ℓ → ℕ) (lit : ℕ) : Instr ℓ → List ℕ
  | .lsl rd rm n => [n * 64 + rm.number * 8 + rd.number]
  | .lsr rd rm n => [0x0800 + n % 32 * 64 + rm.number * 8 + rd.number]
  | .addReg rd rn rm => [0x1800 + rm.number * 64 + rn.number * 8 + rd.number]
  | .subReg rd rn rm => [0x1a00 + rm.number * 64 + rn.number * 8 + rd.number]
  | .movLow rd rm => [0x1c00 + rm.number * 8 + rd.number]
  | .subImm3 rd rn n => [0x1e00 + n * 64 + rn.number * 8 + rd.number]
  | .movImm rd n => [0x2000 + rd.number * 256 + n.toNat]
  | .cmpImm rn n => [0x2800 + rn.number * 256 + n.toNat]
  | .addImm rd n => [0x3000 + rd.number * 256 + n.toNat]
  | .subImm rd n => [0x3800 + rd.number * 256 + n.toNat]
  | .and rd rm => [0x4000 + rm.number * 8 + rd.number]
  | .adc rd rm => [0x4140 + rm.number * 8 + rd.number]
  | .neg rd rm => [0x4240 + rm.number * 8 + rd.number]
  | .cmpReg rn rm => [0x4280 + rm.number * 8 + rn.number]
  | .orr rd rm => [0x4300 + rm.number * 8 + rd.number]
  | .mul rd rm => [0x4340 + rm.number * 8 + rd.number]
  | .addHigh rd rm => [0x4400 + rd.number / 8 * 128 + rm.number * 8 + rd.number % 8]
  | .cmpHigh rn rm => [0x4500 + rn.number / 8 * 128 + rm.number * 8 + rn.number % 8]
  | .movHigh rd rm => [0x4600 + rd.number / 8 * 128 + rm.number * 8 + rd.number % 8]
  | .bx rm => [0x4700 + rm.number * 8]
  | .ldrLit rd _ => [0x4800 + rd.number * 256 + poolOffset lc lit]
  | .ldrbReg rd rb ro => [0x5c00 + ro.number * 64 + rb.number * 8 + rd.number]
  | .str rd rb n => [0x6000 + n / 4 * 64 + rb.number * 8 + rd.number]
  | .ldr rd rb n => [0x6800 + n / 4 * 64 + rb.number * 8 + rd.number]
  | .strb rd rb n => [0x7000 + n * 64 + rb.number * 8 + rd.number]
  | .ldrb rd rb n => [0x7800 + n * 64 + rb.number * 8 + rd.number]
  | .strh rd rb n => [0x8000 + n / 2 * 64 + rb.number * 8 + rd.number]
  | .ldrh rd rb n => [0x8800 + n / 2 * 64 + rb.number * 8 + rd.number]
  | .adr rd l => [0xa000 + rd.number * 256 + poolOffset lc (sym l)]
  | .push rs => [0xb400 + (if Reg.lr ∈ rs then 256 else 0) + lowList rs]
  | .popPc rs => [0xbd00 + lowList rs]
  | .stmia rb rs => [0xc000 + rb.number * 256 + lowList rs]
  | .ldmia rb rs => [0xc800 + rb.number * 256 + lowList rs]
  | .bc c l => [0xd000 + c.number * 256 + ((offsetFrom lc 4 (sym l)).extractLsb' 1 8).toNat]
  | .swi n => [0xdf00 + n]
  | .b l => [0xe000 + ((offsetFrom lc 4 (sym l)).extractLsb' 1 11).toNat]
  | .bl l =>
      [0xf000 + ((offsetFrom lc 4 (sym l)).extractLsb' 12 11).toNat,
       0xf800 + ((offsetFrom lc 4 (sym l)).extractLsb' 1 11).toNat]
  | .armToThumb _ => []

/-- The bytes of an instruction. -/
def encode (lc : ℕ) (sym : ℓ → ℕ) (lit : ℕ) : Instr ℓ → List Byte
  -- add rd, pc, #1; bx rd
  | .armToThumb rd =>
      wordBytes (BitVec.ofNat 32 (0xe28f0001 + rd.number * 4096)) ++
        wordBytes (BitVec.ofNat 32 (0xe12fff10 + rd.number))
  | i => (encodeThumb lc sym lit i).flatMap fun n => halfBytes (BitVec.ofNat 16 n)

theorem encode_length (lc : ℕ) (sym : ℓ → ℕ) (lit : ℕ) (i : Instr ℓ) :
    (encode lc sym lit i).length = i.size := by
  cases i <;> rfl

/-! ## Programs -/

/-- Where the next literal pool starts, and what it holds. -/
def nextPool (lc : ℕ) (lits : List Word) : List (Stmt ℓ) → ℕ × List Word
  | [] => (lc, lits)
  | .pool :: _ => (lc + Stmt.padding 2 lc, lits)
  | s :: ss => nextPool (lc + s.size lc lits) (s.pending lits) ss

/-- The location of a literal used at `lc`, from the statements that follow. -/
def literalAt (lc : ℕ) (lits : List Word) (ss : List (Stmt ℓ)) (x : Word) : ℕ :=
  (nextPool lc lits ss).1 + 4 * (nextPool lc lits ss).2.idxOf x

/-- The literal an instruction loads. -/
def Instr.literal : Instr ℓ → Word
  | .ldrLit _ x => x
  | _ => 0

/-- The bytes of a statement at `lc`, with the statements that follow it. -/
def emit (sym : ℓ → ℕ) (lc : ℕ) (lits : List Word) (ss : List (Stmt ℓ)) : Stmt ℓ → List Byte
  | .label _ => []
  | .align k => List.replicate (Stmt.padding k lc) 0
  | .instr i =>
      encode lc sym
        (literalAt (lc + i.size) (Stmt.pending lits (.instr i)) ss i.literal) i
  | .armBranch l =>
      wordBytes (BitVec.ofNat 32 (0xea000000 + ((offsetFrom lc 8 (sym l)).extractLsb' 2 24).toNat))
  | .bytes bs => bs
  | .hword h => halfBytes h
  | .pool => List.replicate (Stmt.padding 2 lc) 0 ++ lits.flatMap wordBytes
  | .assertLc _ _ => []
  | .assertAligned _ => []

theorem emit_length (sym : ℓ → ℕ) (lc : ℕ) (lits : List Word) (ss : List (Stmt ℓ)) (s : Stmt ℓ) :
    (emit sym lc lits ss s).length = s.size lc lits := by
  cases s with
  | instr i => exact encode_length _ _ _ i
  | pool =>
      simp only [emit, Stmt.size, List.length_append, List.length_replicate, List.length_flatMap,
        wordBytes_length, List.map_const', List.sum_replicate_nat, Nat.mul_comm]
  | align k => exact List.length_replicate
  | _ => rfl

/-- The bytes of the statements from `lc` on. -/
def emitAll (sym : ℓ → ℕ) (lc : ℕ) (lits : List Word) : List (Stmt ℓ) → List Byte
  | [] => []
  | s :: ss =>
      emit sym lc lits ss s ++ emitAll sym (lc + s.size lc lits) (s.pending lits) ss

theorem emitAll_length (sym : ℓ → ℕ) (lc : ℕ) (lits : List Word) (ss : List (Stmt ℓ)) :
    lc + (emitAll sym lc lits ss).length = locate lc lits ss := by
  induction ss generalizing lc lits with
  | nil => rfl
  | cons s ss ih =>
      rw [emitAll, List.length_append, emit_length, ← Nat.add_assoc, ih]
      rfl

/-- The linked program.
The labels are relative to the first byte: moving a program by a multiple of four changes none of
its bytes. -/
def link [DecidableEq ℓ] (ss : List (Stmt ℓ)) : List Byte :=
  emitAll (fun l => labelPlaced l (place 0 [] ss)) 0 [] ss

/-! ## Assertions on the location counter -/

/-- The first assertion that fails, with the location counter there. -/
def failedAssertion (lc : ℕ) (lits : List Word) : List (Stmt ℓ) → Option (ℕ × Stmt ℓ)
  | [] => none
  | s :: ss =>
      match s with
      | .assertLc n _ =>
          if lc = n then failedAssertion (lc + s.size lc lits) (s.pending lits) ss
          else some (lc, s)
      | .assertAligned k =>
          if lc % 2 ^ k = 0 then failedAssertion (lc + s.size lc lits) (s.pending lits) ss
          else some (lc, s)
      | _ => failedAssertion (lc + s.size lc lits) (s.pending lits) ss

/-! ## Where the bytes lie -/

theorem emitAll_append (sym : ℓ → ℕ) (lc : ℕ) (lits : List Word) (ss ts : List (Stmt ℓ)) :
    ∃ bs, bs.length = locate lc lits ss - lc ∧
      emitAll sym lc lits (ss ++ ts) =
        bs ++ emitAll sym (locate lc lits ss) (pendingAfter lits ss) ts := by
  induction ss generalizing lc lits with
  | nil => exact ⟨[], by simp [locate], rfl⟩
  | cons s ss ih =>
      obtain ⟨bs, hlen, hbs⟩ := ih (lc + s.size lc lits) (s.pending lits)
      refine ⟨emit sym lc lits (ss ++ ts) s ++ bs, ?_, ?_⟩
      · have := le_locate (lc + s.size lc lits) (s.pending lits) ss
        rw [List.length_append, emit_length, hlen, locate]
        omega
      · rw [List.cons_append, emitAll, hbs, List.append_assoc]
        rfl

theorem failedAssertion_append {lc : ℕ} {lits : List Word} {pre post : List (Stmt ℓ)}
    (h : failedAssertion lc lits (pre ++ post) = none) :
    failedAssertion (locate lc lits pre) (pendingAfter lits pre) post = none := by
  induction pre generalizing lc lits with
  | nil => exact h
  | cons s pre ih =>
      refine ih ?_
      cases s with
      | assertLc n what =>
          simp only [List.cons_append, failedAssertion] at h
          split at h
          · exact h
          · cases h
      | assertAligned k =>
          simp only [List.cons_append, failedAssertion] at h
          split at h
          · exact h
          · cases h
      | _ => simpa only [List.cons_append, failedAssertion] using h

/-- A literal stays pending until the next pool. -/
theorem mem_pendingAfter {x : Word} {lits : List Word} {ss : List (Stmt ℓ)} (hx : x ∈ lits)
    (hss : ∀ s ∈ ss, s ≠ .pool) : x ∈ pendingAfter lits ss := by
  induction ss generalizing lits with
  | nil => exact hx
  | cons s ss ih =>
      refine ih ?_ fun t ht => hss t (List.mem_cons_of_mem s ht)
      cases s with
      | pool => exact absurd rfl (hss _ List.mem_cons_self)
      | instr i =>
          cases i with
          | ldrLit rd y =>
              simp only [Stmt.pending]
              split
              · exact hx
              · exact List.mem_append_left _ hx
          | _ => exact hx
      | _ => exact hx

/-- The first byte of `mov rd, #n` is `n`. -/
theorem emit_movImm (sym : ℓ → ℕ) (lc : ℕ) (lits : List Word) (ss : List (Stmt ℓ)) (rd : Reg)
    (n : Byte) : (emit sym lc lits ss (.instr (.movImm rd n)))[0]? = some n := by
  have hn := n.isLt
  have : (BitVec.ofNat 16 (0x2000 + rd.number * 256 + n.toNat)).extractLsb' 0 8 = n := by
    apply BitVec.eq_of_toNat_eq
    simp only [BitVec.extractLsb'_toNat, BitVec.toNat_ofNat, Nat.shiftRight_zero]
    omega
  simp [emit, encode, encodeThumb, halfBytes, this]

/-- The first byte of `ldr rd, =x` is the distance to the literal. -/
theorem encode_ldrLit (lc : ℕ) (sym : ℓ → ℕ) (lit : ℕ) (rd : Reg) (x : Word) :
    encode lc sym lit (.ldrLit rd x) = [BitVec.ofNat 8 (poolOffset lc lit),
      (BitVec.ofNat 16 (0x4800 + rd.number * 256 + poolOffset lc lit)).extractLsb' 8 8] := by
  have hlow : (BitVec.ofNat 16 (0x4800 + rd.number * 256 + poolOffset lc lit)).extractLsb' 0 8 =
      BitVec.ofNat 8 (poolOffset lc lit) := by
    apply BitVec.eq_of_toNat_eq
    simp only [BitVec.extractLsb'_toNat, BitVec.toNat_ofNat, Nat.shiftRight_zero]
    omega
  simp [encode, encodeThumb, halfBytes, hlow]

/-- No other instruction depends on where a literal lies. -/
theorem encode_eq_of_ne {i : Instr ℓ} (hi : ∀ rd x, i ≠ .ldrLit rd x) (lc : ℕ) (sym : ℓ → ℕ)
    (lit lit' : ℕ) : encode lc sym lit i = encode lc sym lit' i := by
  cases i with
  | ldrLit rd x => exact absurd rfl (hi rd x)
  | _ => rfl

/-- Where the next pool starts, and what it holds. -/
theorem nextPool_append {lc : ℕ} {lits : List Word} {mid : List (Stmt ℓ)}
    (hmid : ∀ s ∈ mid, s ≠ .pool) (post : List (Stmt ℓ)) :
    nextPool lc lits (mid ++ .pool :: post) =
      (locate lc lits mid + Stmt.padding 2 (locate lc lits mid), pendingAfter lits mid) := by
  induction mid generalizing lc lits with
  | nil => rfl
  | cons s mid ih =>
      have hmid' := fun t ht => hmid t (List.mem_cons_of_mem s ht)
      cases s with
      | pool => exact absurd rfl (hmid _ List.mem_cons_self)
      | _ => exact ih hmid'

/-- A word among others. -/
theorem take_drop_flatMap_wordBytes {x : Word} {lits : List Word} (hx : x ∈ lits)
    (bs : List Byte) :
    ((lits.flatMap wordBytes ++ bs).drop (4 * lits.idxOf x)).take 4 = wordBytes x := by
  induction lits with
  | nil => cases hx
  | cons y lits ih =>
      by_cases hxy : y = x
      · subst hxy
        simp [wordBytes]
      · have hx' : x ∈ lits := (List.mem_cons.mp hx).resolve_left fun h => hxy h.symm
        rw [List.idxOf_cons_ne _ hxy, List.flatMap_cons, List.append_assoc,
          show 4 * (lits.idxOf x + 1) = 4 + 4 * lits.idxOf x by omega, ← List.drop_drop,
          List.drop_left' (wordBytes_length y)]
        exact ih hx'

theorem length_pendingAfter_le (lits : List Word) (ss : List (Stmt ℓ)) :
    (pendingAfter lits ss).length ≤ lits.length + ss.length := by
  induction ss generalizing lits with
  | nil => simp [pendingAfter]
  | cons s ss ih =>
      have hs : (s.pending lits).length ≤ lits.length + 1 := by
        unfold Stmt.pending
        split <;> (try split) <;> simp
      have hss := ih (s.pending lits)
      rw [pendingAfter, List.length_cons]
      omega

variable [DecidableEq ℓ]

theorem link_length (ss : List (Stmt ℓ)) : (link ss).length = locate 0 [] ss := by
  rw [link, ← Nat.zero_add (List.length _), emitAll_length]

/-- The bytes of a statement lie where it is placed. -/
theorem link_getElem? {ss post : List (Stmt ℓ)} {s : Stmt ℓ} (pre : List (Stmt ℓ))
    (hss : ss = pre ++ s :: post) {i : ℕ}
    (hi : i < s.size (locate 0 [] pre) (pendingAfter [] pre)) :
    (link ss)[locate 0 [] pre + i]? =
      (emit (fun l => labelPlaced l (place 0 [] ss)) (locate 0 [] pre) (pendingAfter [] pre)
        post s)[i]? := by
  obtain ⟨bs, hlen, hbs⟩ := emitAll_append (fun l => labelPlaced l (place 0 [] ss)) 0 [] pre
    (s :: post)
  rw [link, congrArg (emitAll _ 0 []) hss, hbs, List.getElem?_append_right (by omega), hlen,
    emitAll, List.getElem?_append_left (by rw [emit_length]; omega)]
  congr 1
  omega

/-- **What follows an assertion lies where it says.** -/
theorem link_getElem?_of_assertLc {ss pre post : List (Stmt ℓ)} {n : ℕ} {what : String} {s : Stmt ℓ}
    (hok : failedAssertion 0 [] ss = none) (hss : ss = pre ++ .assertLc n what :: s :: post) {i : ℕ}
    (hi : i < s.size n (pendingAfter [] pre)) :
    (link ss)[n + i]? =
      (emit (fun l => labelPlaced l (place 0 [] ss)) n (pendingAfter [] pre) post s)[i]? := by
  have hn : locate 0 [] pre = n := by
    have h := failedAssertion_append (hss ▸ hok)
    simp only [failedAssertion] at h
    split at h
    · assumption
    · cases h
  have hpre : locate 0 [] (pre ++ [.assertLc n what]) = n := by
    rw [locate_append, hn]
    rfl
  have hlits : pendingAfter [] (pre ++ [.assertLc n what]) = pendingAfter [] pre := by
    rw [pendingAfter_append]
    rfl
  have h := link_getElem? (pre ++ [.assertLc n what]) (by simpa using hss) (i := i)
    (by rwa [hpre, hlits])
  rwa [hpre, hlits] at h

section instr

variable {ss pre mid post : List (Stmt ℓ)} {i : Instr ℓ}

/-- The bytes from a statement on. -/
theorem drop_link (hss : ss = pre ++ post) : (link ss).drop (locate 0 [] pre) =
    emitAll (fun l => labelPlaced l (place 0 [] ss)) (locate 0 [] pre) (pendingAfter [] pre)
      post := by
  obtain ⟨bs, hlen, hbs⟩ := emitAll_append (fun l => labelPlaced l (place 0 [] ss)) 0 [] pre post
  rw [link, congrArg (emitAll _ 0 []) hss, hbs, List.drop_left' (by omega)]

/-- The bytes of an instruction. -/
theorem link_instr (hss : ss = pre ++ .instr i :: post) :
    ((link ss).drop (locate 0 [] pre)).take i.size =
      encode (locate 0 [] pre) (fun l => labelPlaced l (place 0 [] ss))
        (literalAt (locate 0 [] pre + i.size) (Stmt.pending (pendingAfter [] pre) (.instr i)) post
          i.literal) i := by
  rw [drop_link hss, emitAll, List.take_left' (by rw [emit_length]; rfl)]
  rfl

/-- **A literal lies where the instruction that loads it says.** -/
theorem link_literal {rd : Reg} {x : Word}
    (hss : ss = pre ++ .instr (.ldrLit rd x) :: (mid ++ .pool :: post))
    (hmid : ∀ s ∈ mid, s ≠ .pool) :
    ((link ss).drop (literalAt (locate 0 [] pre + 2)
      (Stmt.pending (ℓ := ℓ) (pendingAfter [] pre) (.instr (.ldrLit rd x)))
      (mid ++ .pool :: post) x)).take 4 = wordBytes x := by
  have hx : x ∈ Stmt.pending (ℓ := ℓ) (pendingAfter [] pre) (.instr (.ldrLit rd x)) := by
    simp only [Stmt.pending]
    split
    · assumption
    · exact List.mem_append_right _ (List.mem_singleton_self x)
  have hx' := mem_pendingAfter hx hmid
  have hpre : ss = (pre ++ .instr (.ldrLit rd x) :: mid) ++ .pool :: post := by rw [hss]; simp
  have hlocate : locate 0 [] (pre ++ .instr (.ldrLit rd x) :: mid) =
      locate (locate 0 [] pre + 2)
        (Stmt.pending (ℓ := ℓ) (pendingAfter [] pre) (.instr (.ldrLit rd x))) mid := by
    rw [locate_append]
    rfl
  have hpending : pendingAfter [] (pre ++ .instr (.ldrLit rd x) :: mid) =
      pendingAfter (Stmt.pending (ℓ := ℓ) (pendingAfter [] pre) (.instr (.ldrLit rd x))) mid := by
    rw [pendingAfter_append]
    rfl
  rw [literalAt, nextPool_append hmid]
  generalize hlc : locate (locate 0 [] pre + 2)
    (Stmt.pending (ℓ := ℓ) (pendingAfter [] pre) (.instr (.ldrLit rd x))) mid = lc at *
  generalize hlits : pendingAfter (Stmt.pending (ℓ := ℓ) (pendingAfter [] pre)
    (.instr (.ldrLit rd x))) mid = lits at *
  rw [Nat.add_assoc, ← hlocate, ← List.drop_drop, drop_link hpre, hpending, hlocate, emitAll, emit,
    List.append_assoc, ← List.drop_drop, List.drop_left' (List.length_replicate)]
  exact take_drop_flatMap_wordBytes hx' _

end instr

/-! ## Other immediate values -/

section movImm

omit [DecidableEq ℓ]

theorem encode_movImm (lc : ℕ) (sym : ℓ → ℕ) (lit : ℕ) (rd : Reg) (n : Byte) :
    encode lc sym lit (.movImm rd n) = [n, BitVec.ofNat 8 (0x20 + rd.number)] := by
  have hn := n.isLt
  have hlow : (BitVec.ofNat 16 (0x2000 + rd.number * 256 + n.toNat)).extractLsb' 0 8 = n := by
    apply BitVec.eq_of_toNat_eq
    simp only [BitVec.extractLsb'_toNat, BitVec.toNat_ofNat, Nat.shiftRight_zero]
    omega
  have hhigh : (BitVec.ofNat 16 (0x2000 + rd.number * 256 + n.toNat)).extractLsb' 8 8 =
      BitVec.ofNat 8 (0x20 + rd.number) := by
    apply BitVec.eq_of_toNat_eq
    simp only [BitVec.extractLsb'_toNat, BitVec.toNat_ofNat, Nat.shiftRight_eq_div_pow]
    omega
  simp [encode, encodeThumb, halfBytes, hlow, hhigh]

variable (pre post : List (Stmt ℓ)) (rd : Reg) (n n' : Byte)

/-- Where a pool lies does not depend on an immediate value. -/
theorem nextPool_movImm (lc : ℕ) (lits : List Word) :
    nextPool lc lits (pre ++ .instr (.movImm rd n) :: post) =
      nextPool lc lits (pre ++ .instr (.movImm rd n') :: post) := by
  induction pre generalizing lc lits with
  | nil => rfl
  | cons s pre ih =>
      cases s with
      | pool => rfl
      | _ => exact ih _ _

theorem labelPlaced_movImm [DecidableEq ℓ] (l : ℓ) (lc : ℕ) (lits : List Word) :
    labelPlaced l (place lc lits (pre ++ .instr (.movImm rd n) :: post)) =
      labelPlaced l (place lc lits (pre ++ .instr (.movImm rd n') :: post)) := by
  induction pre generalizing lc lits with
  | nil => rfl
  | cons s pre ih =>
      cases s with
      | label l' => simp only [List.cons_append, place, labelPlaced, ih]
      | _ => exact ih _ _

/-- The bytes around an immediate value do not depend on it. -/
theorem emitAll_movImm (sym : ℓ → ℕ) (lc : ℕ) (lits : List Word) :
    ∃ as bs, as.length = locate lc lits pre - lc ∧
      ∀ n, emitAll sym lc lits (pre ++ .instr (.movImm rd n) :: post) = as ++ n :: bs := by
  induction pre generalizing lc lits with
  | nil =>
      refine ⟨[], BitVec.ofNat 8 (0x20 + rd.number) :: emitAll sym (lc + 2) lits post,
        (Nat.sub_self lc).symm, fun n => ?_⟩
      rw [List.nil_append, emitAll, emit, encode_movImm]
      rfl
  | cons s pre ih =>
      obtain ⟨as, bs, hlen, hbs⟩ := ih (lc + s.size lc lits) (s.pending lits)
      have hemit (n : Byte) : emit sym lc lits (pre ++ .instr (.movImm rd n) :: post) s =
          emit sym lc lits (pre ++ .instr (.movImm rd 0) :: post) s := by
        cases s with
        | instr i => simp only [emit, literalAt, nextPool_movImm pre post rd n 0]
        | _ => rfl
      refine ⟨emit sym lc lits (pre ++ .instr (.movImm rd 0) :: post) s ++ as, bs, ?_, fun n => ?_⟩
      · have := le_locate (lc + s.size lc lits) (s.pending lits) pre
        rw [List.length_append, emit_length, hlen, locate]
        omega
      · rw [List.cons_append, emitAll, hemit, hbs, List.append_assoc]

/-- **Changing the byte of an immediate value in a linked program** is linking the program with that
value. -/
theorem link_movImm [DecidableEq ℓ] :
    link (pre ++ .instr (.movImm rd n') :: post) =
      (link (pre ++ .instr (.movImm rd n) :: post)).set (locate 0 [] pre) n' := by
  obtain ⟨as, bs, hlen, hbs⟩ := emitAll_movImm pre post rd (fun l => labelPlaced l
    (place 0 [] (pre ++ .instr (.movImm rd n) :: post))) 0 []
  rw [link, link, funext fun l => labelPlaced_movImm pre post rd n' n l 0 [], hbs, hbs,
    List.set_append_right _ _ (by omega), hlen, Nat.sub_zero, Nat.sub_self, List.set_cons_zero]

end movImm

end Thumb
