import ShrinklerGba.Cartridge
import ShrinklerGba.Lzss.Packer
import ShrinklerGba.Thumb.Block
import ShrinklerGba.Thumb.Link

/-!
# The byte of the header that is adjusted

The LZSS depacker in the header, and the byte at `ofs_complement_if_code_in_header`.

* `HoldsInstr` says that an instruction lies in the cartridge's data, with the literal it loads.
* `headerCode` are the depacker's instructions; `executed` says that control stays there.
* **`headerByte_unused`**: none of them, and none of their literals, depends on that byte.
-/

namespace ShrinklerGba.Lzss

open Thumb Transition

/-! ## What the data of a cartridge holds -/

/-- Where the instruction at an offset loads its literal from, by the byte that encodes it. -/
def literalOffset (data : Bytevector) (ofs : ℕ) : ℕ :=
  (ofs + 4) / 4 * 4 + 4 * (data.getD ofs 0).toNat

/-- An instruction lies at an offset, and if it loads a literal, that lies where the instruction
loads it from. -/
structure HoldsInstr (c : Config) (data : Bytevector) (ofs : ℕ) (i : Instr Label) : Prop where
  /-- The instruction. -/
  code : (data.drop ofs).take i.size =
    encode ofs (fun l => labelPlaced l (place 0 [] (program c))) (literalOffset data ofs) i
  /-- The literal. -/
  literal : ∀ rd x, i = .ldrLit rd x →
    (data.drop (literalOffset data ofs)).take 4 = wordBytes x

variable {c : Config} {data : Bytevector} {ofs k : ℕ} {i : Instr Label} {b : Byte}

theorem getD_of_take {x : Byte} {xs : List Byte} {n : ℕ}
    (h : (data.drop ofs).take n = x :: xs) : data.getD ofs 0 = x := by
  have h0 : ((data.drop ofs).take n)[0]? = some x := by rw [h]; rfl
  cases n with
  | zero => simp at h
  | succ n =>
      rw [List.getElem?_take_of_lt (Nat.succ_pos n), List.getElem?_drop, Nat.add_zero] at h0
      rw [List.getD_eq_getElem?_getD, h0]
      rfl

/-- A byte that is neither the instruction's nor the literal's does not matter. -/
theorem HoldsInstr.set (h : HoldsInstr c data ofs i) (hofs : ofs + i.size ≤ k)
    (hlit : ∀ rd x, i = .ldrLit rd x → k < literalOffset data ofs) :
    HoldsInstr c (data.set k b) ofs i := by
  have hcode : ((data.set k b).drop ofs).take i.size = (data.drop ofs).take i.size := by
    rw [List.drop_set, if_neg (by omega), List.take_set_of_le (by omega)]
  have hpos := i.size_pos
  have hsame : literalOffset (data.set k b) ofs = literalOffset data ofs := by
    rw [literalOffset, List.getD_eq_getElem?_getD, List.getElem?_set_ne (by omega),
      ← List.getD_eq_getElem?_getD, literalOffset]
  refine ⟨by rw [hcode, hsame, h.code], fun rd x hi => ?_⟩
  rw [hsame, List.drop_set_of_lt (hlit rd x hi)]
  exact h.literal rd x hi

/-! ## The depacker's instructions -/

section split

variable {pre mid post : List (Stmt Label)} {rd : Reg} {x : Word}

/-- An instruction that loads no literal. -/
theorem holdsInstr_of_split (hss : program c = pre ++ .instr i :: post)
    (hi : ∀ rd x, i ≠ .ldrLit rd x) : HoldsInstr c (link (program c)) (locate 0 [] pre) i :=
  ⟨(link_instr hss).trans (encode_eq_of_ne hi _ _ _ _), fun rd x hix => absurd hix (hi rd x)⟩

/-- An instruction that loads a literal from the next pool, when that is not too far. -/
theorem holdsInstr_ldrLit (hss : program c = pre ++ .instr (.ldrLit rd x) :: (mid ++ .pool :: post))
    (hmid : ∀ s ∈ mid, s ≠ .pool) {lc : ℕ}
    (hlc : locate 0 [] (pre ++ .instr (.ldrLit rd x) :: mid) = lc) (hmod : lc % 4 = 0)
    (hlo : (locate 0 [] pre + 4) / 4 * 4 ≤ lc)
    (hhi : lc + 4 * (pre.length + 1 + mid.length) < locate 0 [] pre + 1024) :
    HoldsInstr c (link (program c)) (locate 0 [] pre) (.ldrLit rd x) ∧
      lc ≤ literalOffset (link (program c)) (locate 0 [] pre) := by
  have hcode := link_instr hss
  have hliteral := link_literal hss hmid
  have hlocate : locate (locate 0 [] pre + 2)
      (Stmt.pending (pendingAfter [] pre) (.instr (.ldrLit rd x) : Stmt Label)) mid = lc := by
    rw [← hlc, locate_append]
    rfl
  have hpadding : Stmt.padding 2 lc = 0 := by
    simp only [Stmt.padding]
    omega
  rw [literalAt, nextPool_append hmid, hlocate, hpadding, Nat.add_zero] at hliteral
  generalize hlits : pendingAfter (Stmt.pending (pendingAfter [] pre)
    (.instr (.ldrLit rd x) : Stmt Label)) mid = lits at hliteral
  have hidx : lits.idxOf x ≤ pre.length + 1 + mid.length := by
    have hlen := length_pendingAfter_le [] (pre ++ .instr (.ldrLit rd x) :: mid)
    rw [pendingAfter_append, pendingAfter, hlits, List.length_append, List.length_cons] at hlen
    have hle := lits.idxOf_le_length (a := x)
    simp only [List.length_nil] at hlen
    omega
  -- The first byte of the instruction is the distance to the literal.
  rw [literalAt, Instr.literal, nextPool_append hmid, show (Instr.ldrLit rd x).size = 2 from rfl,
    hlocate, hpadding, Nat.add_zero, hlits] at hcode
  dsimp only at hcode
  have hlit : literalOffset (link (program c)) (locate 0 [] pre) = lc + 4 * lits.idxOf x := by
    rw [literalOffset, getD_of_take (hcode.trans (encode_ldrLit _ _ _ _ _)), BitVec.toNat_ofNat,
      poolOffset]
    omega
  refine ⟨⟨by rw [hlit]; exact hcode, fun rd' x' hx => ?_⟩, by omega⟩
  cases hx
  rw [hlit]
  exact hliteral

end split

/-- The instructions of the depacker, with their offsets, when it lies in the header. -/
def headerCode (c : Config) : List (ℕ × Instr Label) :=
  [(0xa0, .armToThumb .r0), (0xa8, .adr .r0 .packedIntro), (0xaa, .ldrLit .r1 c.lzssDepackBuffer),
   (0xac, .swi swiHuffUncomp), (0xae, .ldrLit .r0 c.lzssDepackBuffer),
   (0xb0, .ldrLit .r1 c.loadAddress), (0xb2, .movImm .r2 fixedByteValue),
   (0xb4, .swi swiLz77UncompWram), (0xb6, .ldrLit .r0 c.entry), (0xb8, .bx .r0)]

/-- The statement at an index. -/
theorem split_at {ss : List (Stmt Label)} {k : ℕ} {s : Stmt Label} (h : ss[k]? = some s) :
    ss = ss.take k ++ s :: ss.drop (k + 1) := by
  obtain ⟨hk, rfl⟩ := List.getElem?_eq_some_iff.mp h
  rw [← List.drop_eq_getElem_cons hk, List.take_append_drop]

section header

variable {c : Config} (hc : c.codeInHeader = true)
include hc

attribute [local simp] emitNintendoLogo nintendoLogo_length Stmt.size Instr.size Stmt.padding
  ofsFixedByte ofsGameVersion ofsComplementIfCodeInHeader locate

set_option maxRecDepth 2000 in
/-- The depacker's data hold all of its instructions. -/
theorem holdsInstr_headerCode : ∀ p ∈ headerCode c, HoldsInstr c (link (program c)) p.1 p.2 ∧
    (∀ rd x, p.2 = .ldrLit rd x → 0xbc ≤ literalOffset (link (program c)) p.1) := by
  have hcode (k : ℕ) {ofs : ℕ} {i : Instr Label} (hk : (program c)[k]? = some (.instr i))
      (hofs : locate 0 [] ((program c).take k) = ofs) (hi : ∀ rd x, i ≠ .ldrLit rd x) :
      HoldsInstr c (link (program c)) ofs i ∧
        (∀ rd x, i = .ldrLit rd x → 0xbc ≤ literalOffset (link (program c)) ofs) := by
    refine ⟨?_, fun rd x hix => absurd hix (hi rd x)⟩
    rw [← hofs]
    exact holdsInstr_of_split (split_at hk) hi
  have hliteral (k m : ℕ) {ofs : ℕ} {rd : Reg} {x : Word} {post : List (Stmt Label)}
      (hss : program c = (program c).take k ++ .instr (.ldrLit rd x) ::
        (((program c).drop (k + 1)).take m ++ .pool :: post))
      (hmid : ∀ s ∈ ((program c).drop (k + 1)).take m, s ≠ .pool)
      (hofs : locate 0 [] ((program c).take k) = ofs)
      (hlc : locate 0 [] ((program c).take k ++ .instr (.ldrLit rd x) ::
        ((program c).drop (k + 1)).take m) = 0xbc) (hlo : ofs ≤ 0xb8) (hkm : k + 1 + m < 100)
      (hhi : 0x60 ≤ ofs) :
      HoldsInstr c (link (program c)) ofs (.ldrLit rd x) ∧
        (∀ rd' x', Instr.ldrLit (ℓ := Label) rd x = .ldrLit rd' x' →
          0xbc ≤ literalOffset (link (program c)) ofs) := by
    subst hofs
    have hlen : ((program c).take k).length ≤ k := List.length_take_le k _
    have hlen' : (((program c).drop (k + 1)).take m).length ≤ m := List.length_take_le m _
    obtain ⟨h, hle⟩ := holdsInstr_ldrLit hss hmid hlc (by decide) (by omega) (by omega)
    exact ⟨h, fun _ _ _ => hle⟩
  obtain ⟨⟨codeInHeader⟩, buffer, load, entry, compressed⟩ := c
  cases hc
  simp only [headerCode, List.forall_mem_cons, List.not_mem_nil, false_imp_iff, implies_true,
    and_true]
  refine ⟨hcode 5 rfl (by simp [program, depacker]) (by simp),
    hcode 6 rfl (by simp [program, depacker]) (by simp),
    hliteral 7 12 rfl (by simp [program, depacker]) (by simp [program, depacker])
      (by simp [program, depacker]) (by decide) (by decide) (by decide),
    hcode 8 rfl (by simp [program, depacker]) (by simp),
    hliteral 9 10 rfl (by simp [program, depacker]) (by simp [program, depacker])
      (by simp [program, depacker]) (by decide) (by decide) (by decide),
    hliteral 10 9 rfl (by simp [program, depacker]) (by simp [program, depacker])
      (by simp [program, depacker]) (by decide) (by decide) (by decide),
    hcode 12 rfl (by simp [program, depacker]) (by simp),
    hcode 13 rfl (by simp [program, depacker]) (by simp),
    hliteral 14 5 rfl (by simp [program, depacker]) (by simp [program, depacker])
      (by simp [program, depacker]) (by decide) (by decide) (by decide),
    hcode 15 rfl (by simp [program, depacker]) (by simp)⟩

variable {mulCarry : Word → Word → Bool} {swi : ℕ → Cpu → Cpu}

/-- Control stays at the depacker's instructions. -/
theorem executed {s t : Cpu} {n : ℕ}
    (hs : s.pc = (image romStart (program c) mulCarry swi).sym .codeStart)
    (ht : iter (stepToBx (image romStart (program c) mulCarry swi)) n s = some t) :
    ∃ p ∈ headerCode c, t.pc.toNat = romStart + p.1 ∧
      (image romStart (program c) mulCarry swi).fetch t.pc = some p.2 := by
  have hsym : (image romStart (program c) mulCarry swi).sym .codeStart = 0x080000a0 := by
    obtain ⟨⟨codeInHeader⟩, buffer, load, entry, compressed⟩ := c
    cases hc
    simp [image, program, depacker, place, labelPlaced, romStart]
  have hfetch : FetchAt (image romStart (program c) mulCarry swi) 0x080000a0
      ((headerCode c).map Prod.snd) := by
    obtain ⟨⟨codeInHeader⟩, buffer, load, entry, compressed⟩ := c
    cases hc
    rw [← hsym]
    refine (codeAt_from romStart mulCarry swi rfl rfl ?_).fetchAt
    simp [program, depacker, place, labelPlaced, romStart, codeFrom, codeSize]
  obtain ⟨js, i, ks, hsplit, hpc, hi⟩ := fetch_straight (((headerCode c).take 9).map Prod.snd)
    (r := .r0) hfetch (by
      intro i hi u v huv
      simp only [headerCode, List.take_succ_cons, List.take_zero, List.map_cons, List.map_nil,
        List.mem_cons, List.not_mem_nil, or_false] at hi
      rcases hi with rfl | rfl | rfl | rfl | rfl | rfl | rfl | rfl | rfl <;> cases huv <;> rfl)
    (hs.trans hsym) ht
  have hcode : (headerCode c).map Prod.snd = js ++ i :: ks := hsplit
  have hk : js.length < 10 := by
    have hlen := congrArg List.length hcode
    simp only [headerCode, List.map_cons, List.map_nil, List.length_cons, List.length_nil,
      List.length_append] at hlen
    omega
  have hofs : (headerCode c).map Prod.fst = (List.range 10).map fun k =>
      0xa0 + bytesOf (((headerCode c).map Prod.snd).take k) := rfl
  -- The instruction and its offset are in the same place of the list.
  have hsnd : ((headerCode c).map Prod.snd)[js.length]? = some i := by
    rw [hcode]
    simp
  have hfst : ((headerCode c).map Prod.fst)[js.length]? = some (0xa0 + bytesOf js) := by
    rw [hofs, List.getElem?_map, List.getElem?_range hk, Option.map_some, hcode,
      List.take_left' rfl]
  rw [List.getElem?_map, Option.map_eq_some_iff] at hsnd hfst
  obtain ⟨p, hp, rfl⟩ := hsnd
  obtain ⟨q, hq, hofs⟩ := hfst
  obtain rfl := Option.some.inj (hp.symm.trans hq)
  have hlt : bytesOf js ≤ bytesOf ((headerCode c).map Prod.snd) := by
    rw [hcode]
    simp [bytesOf]
  have hbytes : bytesOf ((headerCode c).map Prod.snd) = 26 := rfl
  refine ⟨p, List.mem_of_getElem? hp, ?_, hi⟩
  rw [hpc, hofs, romStart]
  bv_omega

/-- **The byte that is adjusted is not used.** Every instruction that is executed lies in the data,
and the literals lie where the instructions load them from, whatever that byte is; the branch to
the depacker is the same, too. -/
theorem headerByte_unused (mulCarry : Word → Word → Bool) (swi : ℕ → Cpu → Cpu) (b : Byte)
    {s t : Cpu} {n : ℕ}
    (hs : s.pc = (image romStart (program c) mulCarry swi).sym .codeStart)
    (ht : iter (stepToBx (image romStart (program c) mulCarry swi)) n s = some t) :
    ((link (program c)).set ofsComplementIfCodeInHeader b).take 4 = (link (program c)).take 4 ∧
      ∃ ofs i, t.pc.toNat = romStart + ofs ∧
        (image romStart (program c) mulCarry swi).fetch t.pc = some i ∧
        HoldsInstr c (link (program c)) ofs i ∧
        HoldsInstr c ((link (program c)).set ofsComplementIfCodeInHeader b) ofs i := by
  obtain ⟨p, hp, hpc, hi⟩ := executed hc hs ht
  obtain ⟨hholds, hlit⟩ := holdsInstr_headerCode hc p hp
  have hbefore : ∀ q ∈ headerCode c, q.1 + q.2.size ≤ ofsComplementIfCodeInHeader := by
    simp [headerCode]
  exact ⟨List.take_set_of_le (by decide), p.1, p.2, hpc, hi, hholds, hholds.set (hbefore p hp)
    fun rd x hx => Nat.lt_of_lt_of_le (by decide) (hlit rd x hx)⟩

end header

/-- A cartridge with its code in the header. -/
def sampleHeader : Config where
  lzssDepackBuffer := 0x02010000
  loadAddress := 0x02000000
  entry := 0x02000001
  compressedBinary := [0x24, 0x08, 0x00, 0x00]

/-- The processor at its entry point. -/
def sampleEntry : Cpu where
  r0 := 0; r1 := 0; r2 := 0; r3 := 0; r4 := 0; r5 := 0; r6 := 0; r7 := 0; r8 := 0; r9 := 0
  r10 := 0; r11 := 0; r12 := 0; sp := 0x03007f00; lr := 0; pc := 0x080000a0
  n := false; z := false; c := false; v := false; thumb := false
  mem := fun _ => 0

/-- A console that executes it, whose BIOS functions do nothing. -/
def sampleImage : Image Label :=
  image romStart (program sampleHeader) (fun _ _ => false) fun _ s => s

/-- The run to the `bx`: at each of the ten instructions, it and its literal are in the data, also
when the byte that is adjusted is another. -/
theorem headerByte_unused_sample :
    ((iter (stepToBx sampleImage) 9 sampleEntry).bind fun t => sampleImage.fetch t.pc) =
        some (.bx .r0) ∧
      (link (program sampleHeader)).getD ofsComplementIfCodeInHeader 0 ≠ 0x42 ∧
      ∀ n < 10, ∃ t ofs i, iter (stepToBx sampleImage) n sampleEntry = some t ∧
        t.pc.toNat = romStart + ofs ∧ sampleImage.fetch t.pc = some i ∧
        HoldsInstr sampleHeader (link (program sampleHeader)) ofs i ∧
        HoldsInstr sampleHeader
          ((link (program sampleHeader)).set ofsComplementIfCodeInHeader 0x42) ofs i := by
  have hrun : ∀ n < 10, (iter (stepToBx sampleImage) n sampleEntry).isSome := by decide +kernel
  have hentry : sampleEntry.pc = sampleImage.sym .codeStart := by decide +kernel
  refine ⟨by decide +kernel, by decide +kernel, fun n hn => ?_⟩
  obtain ⟨t, ht⟩ := Option.isSome_iff_exists.mp (hrun n hn)
  obtain ⟨-, ofs, i, hpc, hi, hholds, hset⟩ :=
    headerByte_unused rfl (fun _ _ => false) (fun _ s => s) 0x42 hentry ht
  exact ⟨t, ofs, i, ht, hpc, hi, hholds, hset⟩

end ShrinklerGba.Lzss
