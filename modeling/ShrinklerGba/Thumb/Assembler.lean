import ShrinklerGba.Thumb.Isa

/-!
# A two-pass Thumb assembler

The statements an assembly program is written in, where they are placed, and the `Image` the machine
runs. Labels, alignment and literal pools behave as in the divided-syntax assemblers: a literal pool
holds each pending literal once, in the order of first use, at a word-aligned address.

* `place lc lits ss` is the location counter of every statement; `lits` are the literals pending for
  the next pool.
* `image base ss` fetches instructions and resolves labels at `base` and above.
* `CodeAt M a ss` says that the labels and instructions `ss` starts with lie at `a` in `M`;
  **`codeAt_from`**: after a label, the image holds the statements that follow it in the program.
-/

namespace Thumb

variable {ℓ : Type}

/-- One call of an emitter. -/
inductive Stmt (ℓ : Type)
  /-- Define a label at the location counter. -/
  | label (l : ℓ)
  /-- Pad with zeros to a multiple of `2 ^ k` bytes. -/
  | align (k : ℕ)
  /-- An instruction. -/
  | instr (i : Instr ℓ)
  /-- The ARM instruction `b l`. -/
  | armBranch (l : ℓ)
  /-- Literal bytes. -/
  | bytes (bs : List Byte)
  /-- A literal halfword. -/
  | hword (h : Half)
  /-- The pending literals. -/
  | pool
  /-- Assert what the location counter is; the text names what is expected there. -/
  | assertLc (lc : ℕ) (what : String)
  /-- Assert that the location counter is a multiple of `2 ^ k`. -/
  | assertAligned (k : ℕ)

namespace Stmt

/-- The zeros needed at `lc` to reach a multiple of `2 ^ k`. -/
def padding (k lc : ℕ) : ℕ := (2 ^ k - lc % 2 ^ k) % 2 ^ k

/-- The bytes a statement takes at `lc`, with `lits` pending. -/
def size (lc : ℕ) (lits : List Word) : Stmt ℓ → ℕ
  | label _ => 0
  | align k => padding k lc
  | instr i => i.size
  | armBranch _ => 4
  | bytes bs => bs.length
  | hword _ => 2
  | pool => padding 2 lc + 4 * lits.length
  | assertLc _ _ => 0
  | assertAligned _ => 0

/-- The literals pending after a statement. -/
def pending (lits : List Word) : Stmt ℓ → List Word
  | instr (.ldrLit _ x) => if x ∈ lits then lits else lits ++ [x]
  | pool => []
  | _ => lits

end Stmt

/-! ## Placing statements -/

/-- The statements with their location counters, from `lc` on with `lits` pending. -/
def place (lc : ℕ) (lits : List Word) : List (Stmt ℓ) → List (ℕ × Stmt ℓ)
  | [] => []
  | s :: ss => (lc, s) :: place (lc + s.size lc lits) (s.pending lits) ss

/-- The location counter after the statements. -/
def locate (lc : ℕ) (lits : List Word) : List (Stmt ℓ) → ℕ
  | [] => lc
  | s :: ss => locate (lc + s.size lc lits) (s.pending lits) ss

/-- The literals pending after the statements. -/
def pendingAfter (lits : List Word) : List (Stmt ℓ) → List Word
  | [] => lits
  | s :: ss => pendingAfter (s.pending lits) ss

/-- The instruction placed at `lc`. -/
def fetchPlaced (lc : ℕ) : List (ℕ × Stmt ℓ) → Option (Instr ℓ)
  | [] => none
  | (a, .instr i) :: ps => if a = lc then some i else fetchPlaced lc ps
  | _ :: ps => fetchPlaced lc ps

/-- The location of a label. -/
def labelPlaced [DecidableEq ℓ] (l : ℓ) : List (ℕ × Stmt ℓ) → ℕ
  | [] => 0
  | (a, .label l') :: ps => if l = l' then a else labelPlaced l ps
  | _ :: ps => labelPlaced l ps

/-- The statements after a label. -/
def codeFrom [DecidableEq ℓ] (l : ℓ) : List (Stmt ℓ) → List (Stmt ℓ)
  | [] => []
  | .label l' :: ss => if l = l' then ss else codeFrom l ss
  | _ :: ss => codeFrom l ss

/-- The image of a program placed at `base`. -/
def image [DecidableEq ℓ] (base : ℕ) (ss : List (Stmt ℓ)) (mulCarry : Word → Word → Bool)
    (swi : ℕ → Cpu → Cpu) : Image ℓ where
  fetch a := if base ≤ a.toNat then fetchPlaced (a.toNat - base) (place 0 [] ss) else none
  sym l := BitVec.ofNat 32 (base + labelPlaced l (place 0 [] ss))
  mulCarry := mulCarry
  swi := swi

/-! ## Where the code lies -/

/-- The labels and instructions that `ss` starts with lie at `a`. -/
def CodeAt (M : Image ℓ) (a : Word) : List (Stmt ℓ) → Prop
  | .label l :: ss => M.sym l = a ∧ CodeAt M a ss
  | .instr i :: ss => M.fetch a = some i ∧ CodeAt M (a + BitVec.ofNat 32 i.size) ss
  | .assertLc _ _ :: ss => CodeAt M a ss
  | _ => True

/-- The bytes of the labels and instructions that `ss` starts with. -/
def codeSize : List (Stmt ℓ) → ℕ
  | .label _ :: ss => codeSize ss
  | .instr i :: ss => i.size + codeSize ss
  | .assertLc _ _ :: ss => codeSize ss
  | _ => 0

theorem CodeAt.left {M : Image ℓ} {a : Word} {ss ts : List (Stmt ℓ)} (h : CodeAt M a (ss ++ ts)) :
    CodeAt M a ss := by
  induction ss generalizing a with
  | nil => trivial
  | cons s ss ih =>
      cases s with
      | label l => exact ⟨h.1, ih h.2⟩
      | instr i => exact ⟨h.1, ih h.2⟩
      | assertLc lc what => exact ih h
      | _ => trivial

theorem Instr.size_pos (i : Instr ℓ) : 0 < i.size := by
  cases i <;> simp [Instr.size]

theorem place_append (lc : ℕ) (lits : List Word) (ss ts : List (Stmt ℓ)) :
    place lc lits (ss ++ ts) =
      place lc lits ss ++ place (locate lc lits ss) (pendingAfter lits ss) ts := by
  induction ss generalizing lc lits with
  | nil => rfl
  | cons s ss ih => simp [place, locate, pendingAfter, ih]

theorem locate_append (lc : ℕ) (lits : List Word) (ss ts : List (Stmt ℓ)) :
    locate lc lits (ss ++ ts) = locate (locate lc lits ss) (pendingAfter lits ss) ts := by
  induction ss generalizing lc lits with
  | nil => rfl
  | cons s ss ih => simp [locate, pendingAfter, ih]

/-- What follows an alignment is aligned. -/
theorem locate_align_mod (lc : ℕ) (lits : List Word) (ss : List (Stmt ℓ)) (k : ℕ) :
    locate lc lits (ss ++ [.align k]) % 2 ^ k = 0 := by
  have hpos : 0 < 2 ^ k := Nat.two_pow_pos k
  rw [locate_append]
  simp only [locate, Stmt.size, Stmt.padding]
  generalize locate lc lits ss = n
  have hlt := Nat.mod_lt n hpos
  rw [Nat.add_mod, Nat.mod_mod, Nat.add_mod_mod, Nat.add_sub_of_le hlt.le, Nat.mod_self]

theorem pendingAfter_append (lits : List Word) (ss ts : List (Stmt ℓ)) :
    pendingAfter lits (ss ++ ts) = pendingAfter (pendingAfter lits ss) ts := by
  induction ss generalizing lits with
  | nil => rfl
  | cons s ss ih => exact ih _

theorem le_locate (lc : ℕ) (lits : List Word) (ss : List (Stmt ℓ)) : lc ≤ locate lc lits ss := by
  induction ss generalizing lc lits with
  | nil => exact Nat.le_refl _
  | cons s ss ih => exact Nat.le_trans (Nat.le_add_right _ _) (ih _ _)

/-- The code that `ss` starts with ends before the location counter after `ss`. -/
theorem add_codeSize_le_locate (lc : ℕ) (lits : List Word) (ss : List (Stmt ℓ)) :
    lc + codeSize ss ≤ locate lc lits ss := by
  induction ss generalizing lc lits with
  | nil => exact Nat.le_refl lc
  | cons s ss ih =>
      cases s with
      | label l => exact ih lc _
      | instr i =>
          have hle := ih (lc + i.size) (Stmt.pending lits (.instr i))
          rwa [Nat.add_assoc] at hle
      | assertLc n what => exact ih lc _
      | _ => exact le_locate lc lits _

/-- An instruction placed before `lc` does not hide what is placed at `lc`. -/
theorem fetchPlaced_append {lc : ℕ} {lits : List Word} (ss : List (Stmt ℓ)) {a : ℕ}
    (ha : locate lc lits ss ≤ a) (ps : List (ℕ × Stmt ℓ)) :
    fetchPlaced a (place lc lits ss ++ ps) = fetchPlaced a ps := by
  induction ss generalizing lc lits with
  | nil => rfl
  | cons s ss ih =>
      have hle := le_locate (lc + s.size lc lits) (s.pending lits) ss
      have htail := ih ha
      cases s with
      | instr i =>
          have hpos := i.size_pos
          have hne : lc ≠ a := by
            simp only [locate, Stmt.size] at ha hle
            omega
          simpa [place, fetchPlaced, hne] using htail
      | _ => simpa [place, fetchPlaced] using htail

/-- Whether a label is defined. -/
def defines [DecidableEq ℓ] (l : ℓ) : List (Stmt ℓ) → Bool
  | [] => false
  | .label l' :: ss => l = l' || defines l ss
  | _ :: ss => defines l ss

/-- Every label is defined once. -/
def labelsDistinct [DecidableEq ℓ] : List (Stmt ℓ) → Bool
  | [] => true
  | .label l :: ss => !defines l ss && labelsDistinct ss
  | _ :: ss => labelsDistinct ss

variable [DecidableEq ℓ]

theorem labelPlaced_append {l : ℓ} {lc : ℕ} {lits : List Word} {ss : List (Stmt ℓ)}
    (h : defines l ss = false) (ps : List (ℕ × Stmt ℓ)) :
    labelPlaced l (place lc lits ss ++ ps) = labelPlaced l ps := by
  induction ss generalizing lc lits with
  | nil => rfl
  | cons s ss ih =>
      cases s with
      | label l' =>
          simp only [defines, Bool.or_eq_false_iff, decide_eq_false_iff_not] at h
          simpa [place, labelPlaced, h.1] using ih h.2
      | _ => simpa [place, labelPlaced] using ih h

theorem defines_cons_of_ne {l : ℓ} {s : Stmt ℓ} (h : s ≠ .label l) (ss : List (Stmt ℓ)) :
    defines l (s :: ss) = defines l ss := by
  cases s with
  | label l' =>
      have hne : l ≠ l' := fun e => h (by rw [e])
      simp [defines, hne]
  | _ => rfl

theorem codeFrom_cons_of_ne {l : ℓ} {s : Stmt ℓ} (h : s ≠ .label l) (ss : List (Stmt ℓ)) :
    codeFrom l (s :: ss) = codeFrom l ss := by
  cases s with
  | label l' =>
      have hne : l ≠ l' := fun e => h (by rw [e])
      simp [codeFrom, hne]
  | _ => rfl

theorem defines_append (l : ℓ) (ss ts : List (Stmt ℓ)) :
    defines l (ss ++ ts) = (defines l ss || defines l ts) := by
  induction ss with
  | nil => rfl
  | cons s ss ih => cases s <;> simp [defines, ih, Bool.or_assoc]

theorem codeFrom_append_of_not_defines {l : ℓ} {ss : List (Stmt ℓ)} (h : defines l ss = false)
    (ts : List (Stmt ℓ)) : codeFrom l (ss ++ ts) = codeFrom l ts := by
  induction ss with
  | nil => rfl
  | cons s ss ih =>
      cases s with
      | label l' =>
          simp only [defines, Bool.or_eq_false_iff, decide_eq_false_iff_not] at h
          simpa [codeFrom, h.1] using ih h.2
      | _ => exact ih h

/-- Only the statements after the first place of a label matter. -/
theorem codeFrom_append {l : ℓ} {ss : List (Stmt ℓ)} (h : defines l ss = true)
    (ts : List (Stmt ℓ)) : codeFrom l (ss ++ ts) = codeFrom l ss ++ ts := by
  induction ss with
  | nil => cases h
  | cons s ss ih =>
      by_cases hs : s = .label l
      · simp [hs, codeFrom]
      · rw [defines_cons_of_ne hs] at h
        rw [List.cons_append, codeFrom_cons_of_ne hs, codeFrom_cons_of_ne hs, ih h]

/-- The statements after a label are a suffix of the program. -/
theorem exists_codeFrom {l : ℓ} {ss : List (Stmt ℓ)} (h : defines l ss = true) :
    ∃ pre, ss = pre ++ .label l :: codeFrom l ss ∧ defines l pre = false := by
  induction ss with
  | nil => simp [defines] at h
  | cons s ss ih =>
      -- The label is the first statement, or the tail holds it and the prefix grows.
      by_cases hs : s = .label l
      · subst hs
        exact ⟨[], by simp [codeFrom], rfl⟩
      · rw [defines_cons_of_ne hs] at h
        obtain ⟨pre, hpre, hpre'⟩ := ih h
        refine ⟨s :: pre, ?_, by rw [defines_cons_of_ne hs, hpre']⟩
        rw [codeFrom_cons_of_ne hs, List.cons_append, ← hpre]

theorem labelsDistinct_append {ss ts : List (Stmt ℓ)} (h : labelsDistinct (ss ++ ts) = true) {l : ℓ}
    (hl : defines l ts = true) : defines l ss = false := by
  induction ss with
  | nil => rfl
  | cons s ss ih =>
      cases s with
      | label l' =>
          simp only [List.cons_append, labelsDistinct, Bool.and_eq_true, Bool.not_eq_true'] at h
          have hne : l ≠ l' := by
            rintro rfl
            simp [defines_append, hl] at h
          simpa [defines, hne] using ih h.2
      | _ => simpa [defines] using ih (by simpa [labelsDistinct] using h)

/-- A label lies between where the statements begin and where they end, and so does the code after
it. -/
theorem labelPlaced_bounds {l : ℓ} {ss : List (Stmt ℓ)} (h : defines l ss = true) (lc : ℕ)
    (lits : List Word) : lc ≤ labelPlaced l (place lc lits ss) ∧
      labelPlaced l (place lc lits ss) + codeSize (codeFrom l ss) ≤ locate lc lits ss := by
  obtain ⟨pre, hpre, hdef⟩ := exists_codeFrom h
  have hplaced : labelPlaced l (place lc lits ss) = locate lc lits pre := by
    rw [hpre, place_append, labelPlaced_append hdef]
    simp [place, labelPlaced]
  have hend : locate lc lits ss =
      locate (locate lc lits pre) (pendingAfter lits pre) (codeFrom l ss) := by
    rw [hpre, locate_append, ← hpre]
    rfl
  rw [hplaced, hend]
  exact ⟨le_locate lc lits pre, add_codeSize_le_locate _ _ _⟩

variable (base : ℕ) (mulCarry : Word → Word → Bool) (swi : ℕ → Cpu → Cpu)

/-- The image holds every suffix of the program where it was placed. -/
theorem codeAt_append (pre post : List (Stmt ℓ)) (hd : labelsDistinct (pre ++ post) = true)
    (hsize : base + locate 0 [] pre + codeSize post ≤ 2 ^ 32) :
    CodeAt (image base (pre ++ post) mulCarry swi) (BitVec.ofNat 32 (base + locate 0 [] pre))
      post := by
  generalize hss : pre ++ post = ss
  induction post generalizing pre with
  | nil => trivial
  | cons s post ih =>
      -- Move the statement to the prefix: the location counter grows by its size.
      have hnext : pre ++ [s] ++ post = ss := by rw [← hss]; simp
      have hloc : locate 0 [] (pre ++ [s]) =
          locate 0 [] pre + s.size (locate 0 [] pre) (pendingAfter [] pre) := by
        rw [locate_append]; rfl
      cases s with
      | label l =>
          refine ⟨?_, ?_⟩
          · have hpre : defines l pre = false := labelsDistinct_append hd (by simp [defines])
            simp only [image, ← hss, place_append, labelPlaced_append hpre]
            simp [place, labelPlaced]
          · have := @ih (pre ++ [.label l]) (by simpa using hd)
              (by simpa [hloc, Stmt.size, codeSize] using hsize) hnext
            simpa [hloc, Stmt.size] using this
      | instr i =>
          simp only [codeSize] at hsize
          have hpos := i.size_pos
          refine ⟨?_, ?_⟩
          · have hmod :
                (BitVec.ofNat 32 (base + locate 0 [] pre)).toNat = base + locate 0 [] pre := by
              rw [BitVec.toNat_ofNat]; omega
            simp only [image, hmod, ← hss, place_append, Nat.le_add_right, if_true,
              Nat.add_sub_cancel_left, fetchPlaced_append pre (Nat.le_refl _)]
            simp [place, fetchPlaced]
          · have := @ih (pre ++ [.instr i]) (by simpa using hd)
              (by simpa [hloc, Stmt.size, Nat.add_assoc] using hsize) hnext
            simpa [hloc, Stmt.size, ← Nat.add_assoc, BitVec.ofNat_add] using this
      | assertLc lc what =>
          have := @ih (pre ++ [.assertLc lc what]) (by simpa using hd)
            (by simpa [hloc, Stmt.size, codeSize] using hsize) hnext
          simpa [CodeAt, hloc, Stmt.size] using this
      | _ => trivial

/-- **Code lies after its label.** -/
theorem codeAt_from {ss : List (Stmt ℓ)} {l : ℓ} (hd : labelsDistinct ss = true)
    (hl : defines l ss = true)
    (hsize : base + labelPlaced l (place 0 [] ss) + codeSize (codeFrom l ss) ≤ 2 ^ 32) :
    CodeAt (image base ss mulCarry swi) ((image base ss mulCarry swi).sym l) (codeFrom l ss) := by
  obtain ⟨pre, hpre, hdef⟩ := exists_codeFrom hl
  have hplaced : labelPlaced l (place 0 [] ss) = locate 0 [] pre := by
    rw [hpre, place_append, labelPlaced_append hdef]
    simp [place, labelPlaced]
  rw [hplaced] at hsize
  have h := codeAt_append base mulCarry swi pre (.label l :: codeFrom l ss)
    (by rw [← hpre]; exact hd) hsize
  rw [← hpre] at h
  simpa [image, hplaced] using h.2

/-! ## The table of labels -/

/-- The labels with their locations. -/
def labelTable (ps : List (ℕ × Stmt ℓ)) : List (ℓ × ℕ) :=
  ps.filterMap fun
    | (a, .label l) => some (l, a)
    | _ => none

/-- A label that is not in the table has no location. -/
theorem labelPlaced_of_lookup_none {l : ℓ} {ps : List (ℕ × Stmt ℓ)}
    (h : (labelTable ps).lookup l = none) : labelPlaced l ps = 0 := by
  induction ps with
  | nil => rfl
  | cons p ps ih =>
      obtain ⟨b, s⟩ := p
      cases s with
      | label l' =>
          simp only [labelTable, List.filterMap_cons, List.lookup_cons] at h
          split at h
          · cases h
          · rename_i hl
            rw [labelPlaced, if_neg (ne_of_beq_false hl)]
            exact ih h
      | _ => exact ih h

/-- A label lies where the table says. -/
theorem labelPlaced_eq_of_lookup {l : ℓ} {ps qs : List (ℕ × Stmt ℓ)} {a : ℕ}
    (h : (labelTable ps).lookup l = some a) : labelPlaced l (ps ++ qs) = a := by
  induction ps with
  | nil => cases h
  | cons p ps ih =>
      obtain ⟨b, s⟩ := p
      cases s with
      | label l' =>
          by_cases hl : l = l'
          · subst hl
            simpa [labelTable, labelPlaced] using h
          · have hne : (l == l') = false := beq_false_of_ne hl
            simp only [labelTable, List.filterMap_cons, List.lookup_cons, hne] at h
            simpa [labelPlaced, hl] using ih h
      | _ => exact ih h

/-- A label in the table is defined. -/
theorem defines_of_lookup {l : ℓ} {lc : ℕ} {lits : List Word} {ss ts : List (Stmt ℓ)} {a : ℕ}
    (h : (labelTable (place lc lits ss)).lookup l = some a) : defines l (ss ++ ts) = true := by
  induction ss generalizing lc lits with
  | nil => cases h
  | cons s ss ih =>
      cases s with
      | label l' =>
          by_cases hl : l = l'
          · simp [defines, hl]
          · have hne : (l == l') = false := beq_false_of_ne hl
            simp only [place, labelTable, List.filterMap_cons, List.lookup_cons, hne] at h
            simpa [defines, hl] using ih h
      | _ => exact ih h

/-- The bytes of all instructions. -/
def instrBytes : List (Stmt ℓ) → ℕ
  | [] => 0
  | .instr i :: ss => i.size + instrBytes ss
  | _ :: ss => instrBytes ss

omit [DecidableEq ℓ] in
theorem codeSize_le (ss : List (Stmt ℓ)) : codeSize ss ≤ instrBytes ss := by
  induction ss with
  | nil => exact Nat.le_refl 0
  | cons s ss ih =>
      cases s with
      | instr i => exact Nat.add_le_add_left ih i.size
      | label l => exact ih
      | assertLc lc what => exact ih
      | _ => exact Nat.zero_le _

theorem codeSize_codeFrom_le (l : ℓ) (ss : List (Stmt ℓ)) :
    codeSize (codeFrom l ss) ≤ instrBytes ss := by
  induction ss with
  | nil => exact Nat.le_refl 0
  | cons s ss ih =>
      cases s with
      | label l' =>
          by_cases hl : l = l'
          · simpa [codeFrom, instrBytes, hl] using codeSize_le ss
          · simpa [codeFrom, instrBytes, hl] using ih
      | instr i => exact Nat.le_trans ih (Nat.le_add_left _ _)
      | _ => exact ih

end Thumb
