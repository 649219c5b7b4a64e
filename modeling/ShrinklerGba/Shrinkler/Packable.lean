import ShrinklerGba.Shrinkler.Boot

/-!
# Every program can be packed

Compressed data for every program, as bytes, and the cartridges made of them.

* `streamBytes ws` are the bytes of the words `ws`.
* `Parses.exists_unpacksTo`: for every parse there are data that are unpacked to its output.
* **`exists_encoder`**: there is an encoder with which every program becomes a cartridge that works.
-/

namespace ShrinklerGba.Shrinkler

open Thumb Transition

/-- The bytes of words. -/
def streamBytes (ws : List Word) : Bytevector := ws.flatMap wordBytes

theorem streamBytes_length (ws : List Word) : (streamBytes ws).length = 4 * ws.length := by
  induction ws with
  | nil => rfl
  | cons w ws ih =>
      rw [streamBytes, List.flatMap_cons, List.length_append, wordBytes_length, List.length_cons]
      rw [streamBytes] at ih
      omega

/-- The words of the bytes are the words. -/
theorem wordsOf_streamBytes (ws : List Word) (j : ℕ) :
    wordsOf (fun i => (streamBytes ws).getD i 0) j = ws.getD j 0 := by
  induction ws generalizing j with
  | nil => simp [wordsOf, streamBytes]
  | cons w ws ih =>
      cases j with
      | zero => exact word_bytes w
      | succ j =>
          have hskip (k : ℕ) : (streamBytes (w :: ws)).getD (4 * (j + 1) + k) 0 =
              (streamBytes ws).getD (4 * j + k) 0 := by
            rw [streamBytes, List.flatMap_cons, List.getD_append_right _ _ _ _ (by simp; omega),
              wordBytes_length, streamBytes]
            congr 1
            omega
          rw [List.getD_cons_succ, ← ih j, wordsOf, wordsOf, hskip, hskip, hskip]
          exact congrArg _ (hskip 0)

/-- Every program is the output of a parse: that without references. -/
theorem exists_parses {out : List Byte} (h : out ≠ []) : ∃ ss, Parses ss out none true := by
  induction out using List.reverseRecOn with
  | nil => exact absurd rfl h
  | append_singleton out b ih =>
      cases out with
      | nil => exact ⟨_, .first b⟩
      | cons c out =>
          obtain ⟨ss, hss⟩ := ih (List.cons_ne_nil c out)
          exact ⟨_, .literal b hss⟩

/-- **There are compressed data for every parse**, whatever the load address is. Nothing behind them
is read. -/
theorem Parses.exists_unpacksTo {ss : List LzSymbol} {out : List Byte} {o : Option ℕ} {a : Bool}
    (h : Parses ss out o a) : ∃ compressed, ∀ load, UnpacksTo load compressed out 0 := by
  obtain ⟨u, hu, hplace, rfl, -, -⟩ := h.reads
  obtain ⟨ws, -, hws⟩ := Reads.exists_words (hu.trans (Unpacker.reads_end hplace))
  refine ⟨streamBytes ws, fun load bytes hbytes => ?_⟩
  rw [streamBytes_length] at hbytes
  obtain ⟨n, d, hrun, hloaded⟩ := hws load (wordsOf bytes) fun j hj => by
    rw [← wordsOf_streamBytes, wordsOf, wordsOf, hbytes _ (by omega), hbytes _ (by omega),
      hbytes _ (by omega), hbytes _ (by omega)]
  refine ⟨n, _, hrun, rfl, rfl, ?_⟩
  rw [streamBytes_length]
  exact Nat.mul_le_mul_left 4 hloaded

/-- **Every program can be packed**: there is an encoder with which the packer makes a cartridge of
every program that is not empty, in both layouts, without debug checks, and the processor executes
it from its first word on until it enters the program, wherever the program, the stack and the ROM
do not collide. -/
theorem exists_encoder : ∃ encode : Bytevector → Except Exception (Bytevector × Bool),
    ∀ (inputFile : InputFile) (options : Options), inputFile.data ≠ [] →
      inputFile.loadAddress.toNat < 2 ^ 31 → inputFile.entry.toNat < 2 ^ 31 →
      options.debugChecks = false →
      ∃ cartridge, pack encode inputFile options = .ok cartridge ∧
        ∀ (B : Board) (s : Cpu), PoweredOn cartridge.data s →
          Disjoint (range inputFile.loadAddress inputFile.data.length)
            (range (s.sp - 4120) 4120) →
          Disjoint (range (BitVec.ofNat 32 romStart) cartridge.data.length)
            (range (s.sp - 4120) 4120 ∪ range inputFile.loadAddress inputFile.data.length) →
          ∃ t, Passes B.step (fun u => Set.EqOn u.mem s.mem
              (range inputFile.loadAddress inputFile.data.length ∪ range (s.sp - 4120) 4120)ᶜ) s t ∧
            Entered inputFile (range (s.sp - 4120) 4120) s t := by
  have hcompressed (data : Bytevector) :
      ∃ compressed, data ≠ [] → ∀ load, UnpacksTo load compressed data 0 := by
    by_cases hne : data = []
    · exact ⟨[], fun h => absurd hne h⟩
    · obtain ⟨ss, hss⟩ := exists_parses hne
      obtain ⟨compressed, h⟩ := hss.exists_unpacksTo
      exact ⟨compressed, fun _ => h⟩
  choose compress hcompress using hcompressed
  refine ⟨fun data => .ok (compress data, false),
    fun inputFile options hne hload hentry hdebug => ?_⟩
  obtain ⟨data, size, hok, -⟩ := shrinklerCartridgeAssembler_ok inputFile
    (compress inputFile.data) options hload hentry (fun h => by rw [hdebug] at h; cases h)
  have hpack : pack (fun data => .ok (compress data, false)) inputFile options =
      .ok ⟨"Shrinkler", data, (compress inputFile.data).length, size, []⟩ := by
    simp only [pack, assembleCartridge, hok, bind, Except.bind]
    rfl
  exact ⟨_, hpack, fun B s hs hout hrom => cartridge_boots hok hdebug
    (hcompress inputFile.data hne inputFile.loadAddress) hs (List.prefix_refl _) hout hrom⟩

end ShrinklerGba.Shrinkler
