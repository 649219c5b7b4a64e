import Mathlib.Data.List.MinMax
import ShrinklerGba.Pack

/-!
# The choice of the packer

The packer is named on the command line, looked up when the file is packed, and the smallest of the
cartridges is taken.

* `parsePackers` handles the occurrences of `--packer` one after the other.
* `smallestCartridge_eq_argmin`: the smallest cartridge is the first with the least data.
* **`packerChoice_correct`**: what is chosen, what is looked up and what is returned agree.
-/

namespace ShrinklerGba

/-! ## The command line -/

/-- The names of the registry.
Source: `packer.cpp`, `packers`. -/
def packerNames : List String := ["lzss-h4", "shrinkler"]

theorem packers_map_fst (env : Environment) : (packers env).map Prod.fst = packerNames := rfl

/-- One occurrence of the option.
Source: `command_line.cpp`, `parse_packer::handle_option`. -/
def handleOption (_packer : Option String) (arg : String) : Except String (Option String) :=
  if arg = "best" then .ok none
  else if packerNames.find? (· = arg) = none then .error "unknown packer"
  else .ok (some arg)

/-- All occurrences of the option. -/
def parsePackers (args : List String) : Except String (Option String) :=
  args.foldlM handleOption none

/-- What the last occurrence says. -/
def lastChoice (args : List String) : Option String :=
  args.getLast?.bind fun arg => if arg = "best" then none else some arg

theorem handleOption_eq_ok {packer packer' : Option String} {arg : String}
    (h : handleOption packer arg = .ok packer') :
    packer' = (if arg = "best" then none else some arg) ∧
      ∀ name ∈ packer', name ∈ packerNames := by
  unfold handleOption at h
  split at h <;> rename_i hbest
  · cases h
    exact ⟨(if_pos hbest).symm, fun name hname => absurd hname (by simp)⟩
  · split at h <;> rename_i hfind
    · cases h
    · cases h
      refine ⟨(if_neg hbest).symm, fun name hname => ?_⟩
      obtain ⟨found, hfound⟩ := Option.ne_none_iff_exists'.mp hfind
      have harg : found = arg := of_decide_eq_true (List.find?_some hfound :)
      cases hname
      exact harg ▸ List.mem_of_find?_eq_some hfound

/-- The last occurrence counts, and it names a packer. -/
theorem parsePackers_eq_ok {args : List String} {packer : Option String}
    (h : parsePackers args = .ok packer) :
    packer = lastChoice args ∧ ∀ name ∈ packer, name ∈ packerNames := by
  induction args using List.reverseRecOn with
  | nil =>
      cases h
      exact ⟨rfl, fun name hname => absurd hname (by simp)⟩
  | append_singleton args arg ih =>
      rw [parsePackers, List.foldlM_append] at h
      cases hargs : args.foldlM handleOption none with
      | error e => simp [hargs, bind, Except.bind] at h
      | ok before =>
          simp only [hargs, bind, Except.bind, List.foldlM_cons, List.foldlM_nil] at h
          cases harg : handleOption before arg with
          | error e => simp [harg] at h
          | ok after =>
              simp only [harg, pure, Except.pure, Except.ok.injEq] at h
              subst h
              simpa [lastChoice] using handleOption_eq_ok harg

/-! ## The registry -/

/-- The packers that an option selects: the one of that name, or all of them in order. -/
def Selected (env : Environment) (packer : Option String) (ps : List Packer) : Prop :=
  match packer with
  | none => ps = (packers env).map Prod.snd
  | some name => ∃ p, (name, p) ∈ packers env ∧ ps = [p]

/-- A registered packer is found. -/
theorem getPackers_selected (env : Environment) {opts : Options}
    (h : ∀ name ∈ opts.packer, name ∈ packerNames) :
    ∃ ps, getPackers env opts = .ok ps ∧ Selected env opts.packer ps := by
  cases hp : opts.packer with
  | none => exact ⟨_, by rw [getPackers, hp], rfl⟩
  | some name =>
      have hname := h name hp
      rw [← packers_map_fst env] at hname
      obtain ⟨⟨name', p⟩, hmem, rfl⟩ := List.mem_map.mp hname
      have hfind : ((packers env).find? fun pi => pi.1 = name').isSome :=
        List.find?_isSome.mpr ⟨_, hmem, decide_eq_true rfl⟩
      obtain ⟨⟨found, q⟩, hfound⟩ := Option.isSome_iff_exists.mp hfind
      have heq : found = name' := of_decide_eq_true (List.find?_some hfound :)
      refine ⟨[q], ?_, q, heq ▸ List.mem_of_find?_eq_some hfound, rfl⟩
      simp only [getPackers, hp, getPacker, hfound, bind, Except.bind]

/-- No two packers have the same name. -/
theorem selected_unique (env : Environment) {packer : Option String} {ps qs : List Packer}
    (hp : Selected env packer ps) (hq : Selected env packer qs) : ps = qs := by
  cases packer with
  | none => exact hp.trans hq.symm
  | some name =>
      obtain ⟨p, hp, rfl⟩ := hp
      obtain ⟨q, hq, rfl⟩ := hq
      have hnodup : ((packers env).map Prod.fst).Nodup := by
        rw [packers_map_fst]
        decide
      have heq : p = q := congrArg Prod.snd (List.inj_on_of_nodup_map hnodup hp hq rfl)
      rw [heq]

/-! ## The smallest cartridge -/

/-- The smallest cartridge is the first with the least data. -/
theorem smallestCartridge_eq_argmin (cs : List Cartridge) :
    smallestCartridge cs = cs.argmin fun c => c.data.length := by
  cases cs with
  | nil => rfl
  | cons c cs =>
      rw [smallestCartridge, List.argmin, List.foldl_cons]
      show _ = cs.foldl _ (some c)
      induction cs generalizing c with
      | nil => rfl
      | cons d cs ih =>
          rw [List.foldl_cons, List.foldl_cons, ih]
          congr 1
          by_cases hlt : d.data.length < c.data.length <;> simp [List.argAux, hlt]

/-- A cartridge after padding. -/
def Cartridge.padded (c : Cartridge) : Cartridge :=
  { c with data := fixCartridgeForEzfAdvance c.data }

/-- What EZF Advance needs: a cartridge whose last byte is 0xff is followed by `Tom!`, and any other
is left alone. -/
def EzfPadded (c padded : Cartridge) : Prop :=
  (c.data.getLast? = some 0xff ∧ padded = { c with data := c.data ++ [0x54, 0x6f, 0x6d, 0x21] }) ∨
    (c.data.getLast? ≠ some 0xff ∧ padded = c)

/-- An empty cartridge has no last byte, so its size need not be looked at. -/
theorem Cartridge.padded_eq (c : Cartridge) : c.padded =
    if c.data.getLast? = some 0xff then { c with data := c.data ++ [0x54, 0x6f, 0x6d, 0x21] }
    else c := by
  unfold Cartridge.padded fixCartridgeForEzfAdvance
  by_cases hlast : c.data.getLast? = some 0xff
  · have hlen : c.data.length ≠ 0 := by
      intro hlen
      rw [List.length_eq_zero_iff.mp hlen] at hlast
      cases hlast
    rw [if_pos hlast, if_pos ⟨hlen, hlast⟩]
  · rw [if_neg hlast, if_neg fun h => hlast h.2]

/-- The packer pads what needs it. -/
theorem ezfPadded_iff {c padded : Cartridge} : EzfPadded c padded ↔ padded = c.padded := by
  rw [EzfPadded, Cartridge.padded_eq]
  by_cases hlast : c.data.getLast? = some 0xff
  · rw [if_pos hlast]
    exact ⟨fun h => h.elim And.right fun h => absurd hlast h.1, fun h => .inl ⟨hlast, h⟩⟩
  · rw [if_neg hlast]
    exact ⟨fun h => h.elim (fun h => absurd h.1 hlast) And.right, fun h => .inr ⟨hlast, h⟩⟩

/-- The cartridge at a place is the first with the least data. -/
def FirstSmallest (cs : List Cartridge) (i : ℕ) (c : Cartridge) : Prop :=
  cs[i]? = some c ∧ ∀ j d, cs[j]? = some d →
    c.data.length ≤ d.data.length ∧ (j < i → c.data.length < d.data.length)

theorem smallestCartridge_first {cs : List Cartridge} (hne : cs ≠ []) :
    ∃ i c, smallestCartridge cs = some c ∧ FirstSmallest cs i c := by
  rw [smallestCartridge_eq_argmin]
  obtain ⟨c, hc⟩ := Option.ne_none_iff_exists'.mp
    (mt List.argmin_eq_none.mp hne : cs.argmin (fun c => c.data.length) ≠ none)
  refine ⟨cs.idxOf c, c, hc, ?_, fun j d hd => ?_⟩
  · exact List.getElem?_idxOf (List.argmin_mem hc)
  · have hmem := List.mem_of_getElem? hd
    refine ⟨List.le_of_mem_argmin (f := fun c => c.data.length) hmem hc, fun hlt => ?_⟩
    -- An equally small cartridge before the first one would have been taken.
    by_contra hge
    have hle := List.index_of_argmin hc hmem (Nat.le_of_not_lt hge)
    have htake : d ∈ cs.take (cs.idxOf c) :=
      List.mem_of_getElem? (by rw [List.getElem?_take_of_lt hlt]; exact hd)
    have hidx := (List.mem_take_iff_idxOf_lt hmem).mp htake
    omega

/-! ## Trying all packers -/

variable {env : Environment} {inputFile : InputFile} {opts : Options}

/-- The packers return these cartridges. -/
def Return (inputFile : InputFile) (opts : Options) (ps : List Packer)
    (cs : List Cartridge) : Prop :=
  List.Forall₂ (fun packer c => packer inputFile opts = .ok c) ps cs

theorem Return.mapM {ps : List Packer} {cs : List Cartridge} (h : Return inputFile opts ps cs) :
    (ps.mapM fun packer => do
      let cartridge ← packer inputFile opts
      .ok { cartridge with data := fixCartridgeForEzfAdvance cartridge.data }) =
        (.ok (cs.map Cartridge.padded) : Except Exception (List Cartridge)) := by
  induction h with
  | nil => rfl
  | cons hp _ ih =>
      rw [List.mapM_cons, hp, ih]
      rfl

/-- Packers that all succeed return what they return one by one. -/
theorem return_filterMap {ps : List Packer} (h : ∀ p ∈ ps, (p inputFile opts).toOption ≠ none) :
    Return inputFile opts ps (ps.filterMap fun p => (p inputFile opts).toOption) := by
  induction ps with
  | nil => exact .nil
  | cons p ps ih =>
      rw [List.forall_mem_cons] at h
      cases hp : p inputFile opts with
      | error e => exact absurd (by rw [hp]; rfl) h.1
      | ok c =>
          rw [List.filterMap_cons, hp]
          exact .cons hp (ih h.2)

/-- Some packer is selected. -/
theorem Selected.ne_nil {packer : Option String} {ps : List Packer} (h : Selected env packer ps) :
    ps ≠ [] := by
  cases packer with
  | none =>
      rw [show ps = _ from h]
      exact List.cons_ne_nil _ _
  | some name =>
      obtain ⟨p, -, rfl⟩ := h
      exact List.cons_ne_nil p []

/-- **The choice of the packer is the same everywhere**: the last occurrence of the option decides;
the packers it selects are found; and of the cartridges they return, each padded for EZF Advance,
the first of the smallest is taken. -/
theorem packerChoice_correct (env : Environment) (inputFile : InputFile) (opts : Options)
    (args : List String) (h : parsePackers args = .ok opts.packer) :
    opts.packer = lastChoice args ∧ (∀ name ∈ opts.packer, name ∈ packerNames) ∧
    ∃ ps, getPackers env opts = .ok ps ∧ Selected env opts.packer ps ∧
      (∀ qs, Selected env opts.packer qs → qs = ps) ∧
      ∀ cs, Return inputFile opts ps cs → ∃ padded i c, List.Forall₂ EzfPadded cs padded ∧
        tryAllPackers env inputFile opts = .ok c ∧ FirstSmallest padded i c := by
  obtain ⟨hlast, hmem⟩ := parsePackers_eq_ok h
  obtain ⟨ps, hps, hsel⟩ := getPackers_selected env hmem
  refine ⟨hlast, hmem, ps, hps, hsel, fun qs hqs => selected_unique env hqs hsel, fun cs hcs => ?_⟩
  have hne : cs.map Cartridge.padded ≠ [] := by
    rintro hnil
    have hlen := List.Forall₂.length_eq hcs
    rw [List.map_eq_nil_iff.mp hnil] at hlen
    exact hsel.ne_nil (List.length_eq_zero_iff.mp hlen)
  have hpadded : List.Forall₂ EzfPadded cs (cs.map Cartridge.padded) :=
    List.forall₂_map_right_iff.mpr (List.forall₂_same.mpr fun c _ => ezfPadded_iff.mpr rfl)
  obtain ⟨i, c, hc, hfirst⟩ := smallestCartridge_first hne
  refine ⟨cs.map Cartridge.padded, i, c, hpadded, ?_, hfirst⟩
  simp only [tryAllPackers, hps, bind, Except.bind] at *
  have hmapM := hcs.mapM
  simp only [bind, Except.bind] at hmapM
  rw [hmapM]
  simp only [hc]

/-- A program of four bytes. -/
def fourBytes : InputFile := ⟨0x02000000, 0x02000000, [1, 2, 3, 4]⟩

/-- Surroundings in which the LZSS packer's cartridge ends with 0xff and is one byte smaller than
the other. -/
def reversingEnvironment : Environment where
  load _ := none
  sort := insertionSortByAddress
  agbpack := {
    lzssEncode := .ok
    lzssDecode := .ok
    huffmanEncode _ := .ok (.replicate 197 0xff)
    huffmanDecode _ := .ok fourBytes.data }
  shrinkler _ := .ok ([0x12, 0x34], false)

/-- Pack `in` to `out` with the best packer. -/
def bestOptions : Options where
  inputFile := ["in"]
  outputFile := ["out"]

/-- The cartridges that the packers return. -/
def reversedCartridges : List Cartridge :=
  ((packers reversingEnvironment).map Prod.snd).filterMap fun p =>
    (p fourBytes bestOptions).toOption

/-- The theorem where `best` overrides an earlier choice and padding reverses the order of the
cartridges: the LZSS packer's is smaller, and the other is taken. -/
theorem packerChoice_correct_reversed :
    reversedCartridges.map (fun c => c.data.length) = [393, 394] ∧
      ∃ padded i c, List.Forall₂ EzfPadded reversedCartridges padded ∧
        tryAllPackers reversingEnvironment fourBytes bestOptions = .ok c ∧
        FirstSmallest padded i c ∧ c.packer = "Shrinkler" ∧
        padded.map (fun c => c.data.length) = [397, 394] := by
  obtain ⟨-, -, ps, hps, -, -, h⟩ := packerChoice_correct reversingEnvironment fourBytes bestOptions
    ["shrinkler", "best"] (by decide)
  obtain rfl : (packers reversingEnvironment).map Prod.snd = ps := Except.ok.inj hps
  have hsucceed : ∀ p ∈ (packers reversingEnvironment).map Prod.snd,
      (p fourBytes bestOptions).toOption ≠ none := by decide +kernel
  obtain ⟨padded, i, c, hpadded, hc, hfirst⟩ := h _ (return_filterMap hsucceed)
  have heq : padded = reversedCartridges.map Cartridge.padded := by
    rw [← List.forall₂_eq_eq_eq, List.forall₂_map_right_iff]
    exact hpadded.flip.imp fun _ _ => ezfPadded_iff.mp
  have hpacker : (tryAllPackers reversingEnvironment fourBytes bestOptions).toOption.map
      Cartridge.packer = some "Shrinkler" := by decide +kernel
  rw [hc] at hpacker
  refine ⟨by decide +kernel, padded, i, c, hpadded, hc, hfirst, Option.some.inj hpacker, ?_⟩
  rw [heq]
  decide +kernel

end ShrinklerGba
