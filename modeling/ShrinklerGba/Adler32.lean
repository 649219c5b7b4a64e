import Mathlib.Algebra.Field.ZMod
import Mathlib.Data.List.GetD
import Mathlib.Data.Nat.Dist
import Mathlib.Data.ZMod.Basic
import Mathlib.Tactic.NormNum.Prime
import ShrinklerGba.Checksum.Fletcher
import ShrinklerGba.Utility

/-!
# The checksum `adler32`

The loop of `adler32` keeps two running sums modulo 65521, in 32-bit variables.

* `adler32Step` is one iteration. `Reduced` is the loop invariant, that both variables are below
  65521; `Reduced.run`: they are the library's sums modulo 65521.
* **`adler32_eq`**: the closed form, for data of every length; no value wraps; the checksum of
  concatenated data follows from those of its parts.
* **`adler32_detects`**: a changed byte changes the checksum, and so does exchanging two bytes that
  differ and are near enough.
-/

namespace ShrinklerGba

/-! ## The loop -/

/-- Source: `utility.cpp`, `base`. -/
abbrev adlerBase : ℕ := 65521

/-- One iteration of the loop.
Source: `utility.cpp`, `adler32`. -/
def adler32Step (s : BitVec 32 × BitVec 32) (byte : BitVec 8) : BitVec 32 × BitVec 32 :=
  let s1 := (s.1 + byte.setWidth 32) % 65521
  (s1, (s.2 + s1) % 65521)

/-- The variables `s1` and `s2` after the loop. -/
def adler32Sums (data : Bytevector) : BitVec 32 × BitVec 32 := data.foldl adler32Step (1, 0)

theorem adler32_eq_sums (data : Bytevector) :
    adler32 data = (adler32Sums data).2 <<< 16 ||| (adler32Sums data).1 := rfl

/-- Both variables are reduced. -/
structure Reduced (s : BitVec 32 × BitVec 32) : Prop where
  /-- The first sum is reduced. -/
  fst_lt : s.1.toNat < adlerBase
  /-- The second sum is reduced. -/
  snd_lt : s.2.toNat < adlerBase

/-- The variables as numbers modulo 65521. -/
def residues (s : BitVec 32 × BitVec 32) : ZMod adlerBase × ZMod adlerBase :=
  (s.1.toNat, s.2.toNat)

variable {s : BitVec 32 × BitVec 32}

/-- In one iteration, nothing wraps: the sums are those of the numbers. -/
theorem Reduced.step (h : Reduced s) (byte : BitVec 8) :
    (adler32Step s byte).1.toNat = (s.1.toNat + byte.toNat) % adlerBase ∧
      (adler32Step s byte).2.toNat =
        (s.2.toNat + (s.1.toNat + byte.toNat) % adlerBase) % adlerBase := by
  have h₁ : s.1.toNat < 65521 := h.fst_lt
  have h₂ : s.2.toNat < 65521 := h.snd_lt
  have hbase : (65521 : BitVec 32).toNat = 65521 := rfl
  have hbyte := byte.isLt
  have hfst : (adler32Step s byte).1.toNat = (s.1.toNat + byte.toNat) % 65521 := by
    simp only [adler32Step, BitVec.toNat_umod, BitVec.toNat_add, BitVec.toNat_setWidth, hbase]
    omega
  refine ⟨hfst, ?_⟩
  show ((s.2 + (adler32Step s byte).1) % 65521).toNat = (_ + _ % 65521) % 65521
  rw [BitVec.toNat_umod, BitVec.toNat_add, hfst, hbase]
  omega

theorem Reduced.next (h : Reduced s) (byte : BitVec 8) : Reduced (adler32Step s byte) := by
  have hpos : 0 < adlerBase := by decide
  constructor
  · rw [(h.step byte).1]
    exact Nat.mod_lt _ hpos
  · rw [(h.step byte).2]
    exact Nat.mod_lt _ hpos

theorem residues_step (h : Reduced s) (byte : BitVec 8) :
    residues (adler32Step s byte) = Fletcher.step (residues s) (byte.toNat : ZMod adlerBase) := by
  simp only [residues, Fletcher.step, (h.step byte).1, (h.step byte).2, ZMod.natCast_mod,
    Nat.cast_add]

/-- **The loop computes the two sums** modulo 65521. -/
theorem Reduced.run (h : Reduced s) (data : Bytevector) :
    Reduced (data.foldl adler32Step s) ∧ residues (data.foldl adler32Step s) =
      Fletcher.sums (residues s) (data.map fun byte => (byte.toNat : ZMod adlerBase)) := by
  induction data generalizing s with
  | nil => exact ⟨h, rfl⟩
  | cons byte data ih =>
      obtain ⟨hred, hres⟩ := ih (h.next byte)
      refine ⟨hred, ?_⟩
      rw [List.foldl_cons, hres, residues_step h]
      rfl

theorem reduced_adler32Sums (data : Bytevector) : Reduced (adler32Sums data) :=
  (Reduced.run ⟨by decide, by decide⟩ data).1

/-! ## The closed form -/

/-- The residues of the bytes. -/
def byteResidues (data : Bytevector) : List (ZMod adlerBase) :=
  data.map fun byte => (byte.toNat : ZMod adlerBase)

/-- **The sums in closed form.** -/
theorem residues_adler32Sums (data : Bytevector) : residues (adler32Sums data) =
    (1 + (byteResidues data).sum, data.length + Fletcher.weighted (byteResidues data)) := by
  rw [adler32Sums, (Reduced.run ⟨by decide, by decide⟩ data).2, ← byteResidues, Fletcher.sums_eq]
  simp [residues, byteResidues]

/-- The checksum is the two sums, one above the other. -/
theorem toNat_adler32 (data : Bytevector) :
    (adler32 data).toNat = (adler32Sums data).1.toNat + 65536 * (adler32Sums data).2.toNat := by
  have h := reduced_adler32Sums data
  have h₁ : (adler32Sums data).1.toNat < 2 ^ 16 := h.fst_lt.trans (by decide)
  have h₂ : (adler32Sums data).2.toNat < 2 ^ 16 := h.snd_lt.trans (by decide)
  have hshift : (adler32Sums data).2.toNat <<< 16 < 2 ^ 32 := by
    rw [Nat.shiftLeft_eq]
    omega
  rw [adler32_eq_sums, BitVec.toNat_or, BitVec.toNat_shiftLeft, Nat.mod_eq_of_lt hshift,
    ← Nat.shiftLeft_add_eq_or_of_lt h₁, Nat.shiftLeft_eq]
  omega

/-- The sum of the bytes. -/
def byteSum (data : Bytevector) : ℕ := ∑ i ∈ Finset.range data.length, (data.getD i 0).toNat

/-- The sum of the bytes, each as often as there are bytes from it on. -/
def weightedByteSum (data : Bytevector) : ℕ :=
  ∑ i ∈ Finset.range data.length, (data.length - i) * (data.getD i 0).toNat

theorem sum_byteResidues (data : Bytevector) :
    (byteResidues data).sum = (byteSum data : ZMod adlerBase) := by
  induction data with
  | nil => rfl
  | cons byte data ih =>
      rw [byteSum, List.length_cons, Finset.sum_range_succ', Nat.cast_add]
      simp only [List.getD_cons_succ, List.getD_cons_zero]
      rw [← byteSum, ← ih, add_comm]
      rfl

theorem weighted_byteResidues (data : Bytevector) :
    Fletcher.weighted (byteResidues data) = (weightedByteSum data : ZMod adlerBase) := by
  induction data with
  | nil => rfl
  | cons byte data ih =>
      rw [weightedByteSum, List.length_cons, Finset.sum_range_succ', Nat.cast_add]
      simp only [List.getD_cons_succ, List.getD_cons_zero, Nat.add_sub_add_right, Nat.sub_zero]
      rw [← weightedByteSum, ← ih, add_comm]
      simp [byteResidues, Fletcher.weighted]

/-- The first sum in closed form. -/
theorem adler32Sums_fst (data : Bytevector) :
    (adler32Sums data).1.toNat = (1 + byteSum data) % adlerBase := by
  have h : ((adler32Sums data).1.toNat : ZMod adlerBase) = ((1 + byteSum data : ℕ) : ZMod _) := by
    rw [Nat.cast_add, ← sum_byteResidues, Nat.cast_one]
    exact congrArg Prod.fst (residues_adler32Sums data)
  rw [ZMod.natCast_eq_natCast_iff', Nat.mod_eq_of_lt (reduced_adler32Sums data).fst_lt] at h
  exact h

/-- The second sum in closed form. -/
theorem adler32Sums_snd (data : Bytevector) :
    (adler32Sums data).2.toNat = (data.length + weightedByteSum data) % adlerBase := by
  have h : ((adler32Sums data).2.toNat : ZMod adlerBase) =
      ((data.length + weightedByteSum data : ℕ) : ZMod _) := by
    rw [Nat.cast_add, ← weighted_byteResidues]
    exact congrArg Prod.snd (residues_adler32Sums data)
  rw [ZMod.natCast_eq_natCast_iff', Nat.mod_eq_of_lt (reduced_adler32Sums data).snd_lt] at h
  exact h

/-! ## The checksum -/

/-- The lower half of a checksum. -/
def adlerA (checksum : BitVec 32) : ℕ := checksum.toNat % 65536

/-- The upper half of a checksum. -/
def adlerB (checksum : BitVec 32) : ℕ := checksum.toNat / 65536

theorem adlerA_adler32 (data : Bytevector) :
    adlerA (adler32 data) = (adler32Sums data).1.toNat := by
  have h : (adler32Sums data).1.toNat < 65521 := (reduced_adler32Sums data).fst_lt
  rw [adlerA, toNat_adler32]
  omega

theorem adlerB_adler32 (data : Bytevector) :
    adlerB (adler32 data) = (adler32Sums data).2.toNat := by
  have h : (adler32Sums data).1.toNat < 65521 := (reduced_adler32Sums data).fst_lt
  rw [adlerB, toNat_adler32]
  omega

theorem byteResidues_append (x y : Bytevector) :
    byteResidues (x ++ y) = byteResidues x ++ byteResidues y := List.map_append

/-- The first sum of concatenated data. -/
theorem adlerA_append (x y : Bytevector) : (adlerA (adler32 (x ++ y)) : ℤ) =
    ((adlerA (adler32 x) : ℤ) + adlerA (adler32 y) - 1) % adlerBase := by
  have hfst (data : Bytevector) := congrArg Prod.fst (residues_adler32Sums data)
  have hlt : ((adler32Sums (x ++ y)).1.toNat : ℤ) < adlerBase :=
    Int.ofNat_lt.mpr (reduced_adler32Sums (x ++ y)).fst_lt
  simp only [residues] at hfst
  have h : (((adler32Sums (x ++ y)).1.toNat : ℤ) : ZMod adlerBase) =
      (((adler32Sums x).1.toNat : ℤ) + (adler32Sums y).1.toNat - 1 : ℤ) := by
    push_cast
    rw [hfst, hfst, hfst, byteResidues_append, List.sum_append]
    ring
  rw [ZMod.intCast_eq_intCast_iff', Int.emod_eq_of_lt (Int.natCast_nonneg _) hlt] at h
  simp only [adlerA_adler32, h]

/-- The second sum of concatenated data. -/
theorem adlerB_append (x y : Bytevector) : (adlerB (adler32 (x ++ y)) : ℤ) =
    ((adlerB (adler32 x) : ℤ) + adlerB (adler32 y) + y.length * (adlerA (adler32 x) - 1)) %
      adlerBase := by
  have hfst (data : Bytevector) := congrArg Prod.fst (residues_adler32Sums data)
  have hsnd (data : Bytevector) := congrArg Prod.snd (residues_adler32Sums data)
  have hlt : ((adler32Sums (x ++ y)).2.toNat : ℤ) < adlerBase :=
    Int.ofNat_lt.mpr (reduced_adler32Sums (x ++ y)).snd_lt
  simp only [residues] at hfst hsnd
  have hlen : (byteResidues y).length = y.length := List.length_map _
  have h : (((adler32Sums (x ++ y)).2.toNat : ℤ) : ZMod adlerBase) =
      (((adler32Sums x).2.toNat : ℤ) + (adler32Sums y).2.toNat +
        y.length * ((adler32Sums x).1.toNat - 1) : ℤ) := by
    push_cast
    rw [hsnd, hsnd, hsnd, hfst, byteResidues_append, Fletcher.weighted_append, hlen,
      List.length_append]
    push_cast
    ring
  rw [ZMod.intCast_eq_intCast_iff', Int.emod_eq_of_lt (Int.natCast_nonneg _) hlt] at h
  simp only [adlerA_adler32, adlerB_adler32, h]

/-- What the loop computes before a byte, and at it, fits in 32 bits. -/
structure FitsWord (s : BitVec 32 × BitVec 32) (byte : BitVec 8) : Prop where
  /-- The first addition. -/
  fst : s.1.toNat + byte.toNat < 2 ^ 32
  /-- The second addition. -/
  snd : s.2.toNat + (s.1.toNat + byte.toNat) % adlerBase < 2 ^ 32
  /-- The variables after it are those of the exact sums. -/
  step : (adler32Step s byte).1.toNat = (s.1.toNat + byte.toNat) % adlerBase ∧
    (adler32Step s byte).2.toNat = (s.2.toNat + (s.1.toNat + byte.toNat) % adlerBase) % adlerBase

theorem Reduced.fitsWord (h : Reduced s) (byte : BitVec 8) : FitsWord s byte := by
  have h₁ : s.1.toNat < 65521 := h.fst_lt
  have h₂ : s.2.toNat < 65521 := h.snd_lt
  have hbyte := byte.isLt
  refine ⟨by omega, ?_, h.step byte⟩
  show s.2.toNat + _ % 65521 < 2 ^ 32
  omega

/-- **`adler32` is the Adler-32 checksum**, for data of every length: its closed form, that nothing
wraps before and at any byte, and the checksum of concatenated data. -/
theorem adler32_eq (data x y : Bytevector) (byte : BitVec 8) :
    (adler32 data).toNat = (1 + byteSum data) % adlerBase +
      65536 * ((data.length + weightedByteSum data) % adlerBase) ∧
    FitsWord (adler32Sums x) byte ∧ (adler32Sums data).2.toNat * 2 ^ 16 < 2 ^ 32 ∧
    (adlerA (adler32 (x ++ y)) : ℤ) =
      ((adlerA (adler32 x) : ℤ) + adlerA (adler32 y) - 1) % adlerBase ∧
    (adlerB (adler32 (x ++ y)) : ℤ) =
      ((adlerB (adler32 x) : ℤ) + adlerB (adler32 y) + y.length * (adlerA (adler32 x) - 1)) %
        adlerBase := by
  refine ⟨?_, (reduced_adler32Sums x).fitsWord byte, ?_, adlerA_append x y, adlerB_append x y⟩
  · rw [toNat_adler32, adler32Sums_fst, adler32Sums_snd]
  · have h : (adler32Sums data).2.toNat < 65521 := (reduced_adler32Sums data).snd_lt
    omega

/-! ## What the checksum detects -/

/-- The data with the bytes at two positions exchanged. -/
def exchange (data : Bytevector) (i j : ℕ) : Bytevector :=
  (data.set i (data.getD j 0)).set j (data.getD i 0)

theorem residues_eq_of_adler32_eq {x y : Bytevector} (h : adler32 x = adler32 y) :
    residues (adler32Sums x) = residues (adler32Sums y) := by
  have hA := congrArg adlerA h
  have hB := congrArg adlerB h
  rw [adlerA_adler32, adlerA_adler32] at hA
  rw [adlerB_adler32, adlerB_adler32] at hB
  rw [residues, residues, hA, hB]

/-- Different bytes have different residues. -/
theorem residue_ne {b c : BitVec 8} (h : b ≠ c) :
    (b.toNat : ZMod adlerBase) ≠ (c.toNat : ZMod adlerBase) := by
  have hb := b.isLt
  have hc := c.isLt
  intro heq
  rw [ZMod.natCast_eq_natCast_iff', Nat.mod_eq_of_lt (by show _ < 65521; omega),
    Nat.mod_eq_of_lt (by show _ < 65521; omega)] at heq
  exact h (BitVec.eq_of_toNat_eq heq)

theorem getElem_byteResidues {data : Bytevector} {i : ℕ} (hi : i < (byteResidues data).length) :
    (byteResidues data)[i] = ((data.getD i 0).toNat : ZMod adlerBase) := by
  have hi' : i < data.length := by rwa [byteResidues, List.length_map] at hi
  simp [byteResidues, hi']

/-- Data that differ at one position only. -/
theorem eq_set_of_unique {x y : Bytevector} {i : ℕ} (hlength : x.length = y.length)
    (hi : i < x.length) (hother : ∀ j, x[j]? ≠ y[j]? → j = i) : y = x.set i (y.getD i 0) := by
  refine List.ext_getElem? fun j => ?_
  by_cases hij : j = i
  · subst hij
    rw [List.getElem?_set_self hi, List.getD_eq_getElem?_getD,
      List.getElem?_eq_getElem (hlength ▸ hi)]
    rfl
  · rw [List.getElem?_set_ne fun h => hij h.symm]
    by_contra hne
    exact hij (hother j fun h => hne h.symm)

/-- **A changed byte changes the checksum**: it changes the first sum. -/
theorem adler32_set_ne {data : Bytevector} {i : ℕ} (hi : i < data.length) {b : BitVec 8}
    (hb : b ≠ data.getD i 0) : adler32 (data.set i b) ≠ adler32 data := by
  intro heq
  have hsums := residues_eq_of_adler32_eq heq
  have hi' : i < (byteResidues data).length := by rwa [byteResidues, List.length_map]
  have hset : byteResidues (data.set i b) = (byteResidues data).set i (b.toNat : ZMod adlerBase) :=
    List.map_set
  rw [residues_adler32Sums, residues_adler32Sums, hset, Prod.mk.injEq, List.sum_set', dif_pos hi',
    getElem_byteResidues] at hsums
  have hzero : -((data.getD i 0).toNat : ZMod adlerBase) + b.toNat = 0 :=
    add_eq_left.mp (add_left_cancel hsums.1)
  exact residue_ne hb (neg_add_eq_zero.mp hzero).symm

/-- **Exchanging two bytes changes the checksum** if they differ and the distance is no multiple of
the modulus, which is prime: it changes the second sum. -/
theorem adler32_exchange_ne {data : Bytevector} {i j : ℕ} (hi : i < data.length)
    (hj : j < data.length) (hne : data.getD i 0 ≠ data.getD j 0)
    (hdist : Nat.dist i j < adlerBase) :
    adler32 (exchange data i j) ≠ adler32 data := by
  have hprime : Fact (Nat.Prime adlerBase) := ⟨by norm_num⟩
  intro heq
  have hsums := residues_eq_of_adler32_eq heq
  have hi' : i < (byteResidues data).length := by rwa [byteResidues, List.length_map]
  have hj' : j < (byteResidues data).length := by rwa [byteResidues, List.length_map]
  have hset : byteResidues (exchange data i j) =
      ((byteResidues data).set i (byteResidues data)[j]).set j (byteResidues data)[i] := by
    rw [getElem_byteResidues, getElem_byteResidues]
    simp [byteResidues, exchange, List.map_set]
  have hlength : (exchange data i j).length = data.length := by simp [exchange]
  rw [residues_adler32Sums, residues_adler32Sums, hset, hlength, Prod.mk.injEq,
    Fletcher.weighted_exchange hi' hj'] at hsums
  have hzero := add_eq_left.mp (add_left_cancel hsums.2)
  rcases mul_eq_zero.mp hzero with hij | hbytes
  · -- The distance is less than the modulus.
    have hcast : (j : ZMod adlerBase) = (i : ZMod adlerBase) := sub_eq_zero.mp hij
    have hmod : (j : ℤ) ≡ i [ZMOD adlerBase] := by
      rw [← ZMod.intCast_eq_intCast_iff]
      push_cast
      exact hcast
    have hdvd := hmod.dvd
    have hsmall : ((i : ℤ) - j).natAbs < adlerBase := by
      rw [Nat.dist] at hdist
      omega
    have hsame : (i : ℤ) - j = 0 := Int.eq_zero_of_dvd_of_natAbs_lt_natAbs hdvd hsmall
    exact hne (by rw [show i = j by omega])
  · rw [getElem_byteResidues, getElem_byteResidues] at hbytes
    exact residue_ne hne (sub_eq_zero.mp hbytes).symm

/-- **The checksum detects small faults**: of two lists of one length that differ at one position,
the checksums differ; and exchanging two bytes that differ changes the checksum, if their distance
is less than the modulus. -/
theorem adler32_detects :
    (∀ x y : Bytevector, x.length = y.length → (∃! i : ℕ, x[i]? ≠ y[i]?) → adler32 x ≠ adler32 y) ∧
      ∀ (data : Bytevector) (i j : ℕ), i < data.length → j < data.length →
        data.getD i 0 ≠ data.getD j 0 → Nat.dist i j < 65521 →
          adler32 (exchange data i j) ≠ adler32 data := by
  refine ⟨fun x y hlength => ?_, fun data i j hi hj hne hdist =>
    adler32_exchange_ne hi hj hne hdist⟩
  rintro ⟨i, (hi : x[i]? ≠ y[i]?), hother⟩
  have hlt : i < x.length := by
    by_contra hge
    exact hi (by rw [List.getElem?_eq_none (Nat.not_lt.mp hge),
      List.getElem?_eq_none (hlength ▸ Nat.not_lt.mp hge)])
  have hset := eq_set_of_unique hlength hlt hother
  have hne : y.getD i 0 ≠ x.getD i 0 := by
    intro h
    rw [List.getElem?_eq_getElem hlt, List.getElem?_eq_getElem (hlength ▸ hlt)] at hi
    rw [List.getD_eq_getElem _ _ hlt, List.getD_eq_getElem _ _ (hlength ▸ hlt)] at h
    exact hi (congrArg some h.symm)
  rw [hset]
  exact (adler32_set_ne hlt hne).symm

/-- Three bytes, with the second one changed, and with the outer ones exchanged. -/
theorem adler32_detects_three : adler32 [1, 2, 3] ≠ adler32 [1, 7, 3] ∧
    adler32 (exchange [1, 2, 3] 0 2) ≠ adler32 [1, 2, 3] := by
  refine ⟨adler32_detects.1 [1, 2, 3] [1, 7, 3] rfl ⟨1, by decide, fun i hi => ?_⟩,
    adler32_detects.2 [1, 2, 3] 0 2 (by decide) (by decide) (by decide) (by decide)⟩
  match i with
  | 0 => exact absurd rfl hi
  | 1 => rfl
  | 2 => exact absurd rfl hi
  | n + 3 => exact absurd rfl hi

end ShrinklerGba
