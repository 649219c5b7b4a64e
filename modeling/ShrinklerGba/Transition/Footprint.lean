import Mathlib.Data.Set.BooleanAlgebra
import Mathlib.Data.Set.Function
import Mathlib.Order.CompletePartialOrder

/-!
# Actions that look at different places

Actions on a state that is looked at place by place. Which places an action looks at may depend on
the state, so this is said for the states that look like a given one at these places.

* `Local look s₀ reads writes f`: from such a state, the action `f` looks only at the places `reads`
  and changes only the places `writes`.
* `runAll f is s`: actions one after the other.
* **`runAll_of_pairwise`**: actions that do not write where others look do what each would do alone;
  **`runAll_perm`**: so their order does not matter.
-/

namespace Transition

variable {ι σ κ ν ρ : Type*}

/-- An action that looks only at some places and changes only some, as long as the former look as
they do in `s₀`. -/
structure Local (look : σ → κ → ν) (s₀ : σ) (reads writes : Set κ) (f : σ → ρ × σ) : Prop where
  /-- The other places stay as they are. -/
  frame : ∀ s, Set.EqOn (look s) (look s₀) reads → Set.EqOn (look (f s).2) (look s) writesᶜ
  /-- What it returns depends only on the places it looks at. -/
  result : ∀ s, Set.EqOn (look s) (look s₀) reads → (f s).1 = (f s₀).1
  /-- So does what it writes. -/
  written : ∀ s, Set.EqOn (look s) (look s₀) reads →
    Set.EqOn (look (f s).2) (look (f s₀).2) writes

/-- Actions one after the other, with what they return. -/
def runAll (f : ι → σ → ρ × σ) : List ι → σ → List ρ × σ
  | [], s => ([], s)
  | i :: is, s => ((f i s).1 :: (runAll f is (f i s).2).1, (runAll f is (f i s).2).2)

/-- Neither of two actions writes where the other looks or writes. -/
structure Independent (reads writes : ι → Set κ) (i j : ι) : Prop where
  /-- The second does not look at what the first writes. -/
  unread : Disjoint (writes i) (reads j)
  /-- The first does not look at what the second writes. -/
  unread' : Disjoint (writes j) (reads i)
  /-- They write different places. -/
  apart : Disjoint (writes i) (writes j)

theorem Independent.symm {reads writes : ι → Set κ} {i j : ι} (h : Independent reads writes i j) :
    Independent reads writes j i :=
  ⟨h.unread', h.unread, h.apart.symm⟩

section run

variable {look : σ → κ → ν} {s₀ : σ} {reads writes : ι → Set κ} {f : ι → σ → ρ × σ}
  (hf : ∀ i, Local look s₀ (reads i) (writes i) (f i))
include hf

/-- **Independent actions do what each would do alone**, from every state that looks the same to all
of them. -/
theorem runAll_of_eqOn {is : List ι} (h : is.Pairwise (Independent reads writes)) {s : σ}
    (hs : ∀ i ∈ is, Set.EqOn (look s) (look s₀) (reads i)) :
    (runAll f is s).1 = is.map (fun i => (f i s₀).1) ∧
      (∀ i ∈ is, Set.EqOn (look (runAll f is s).2) (look (f i s₀).2) (writes i)) ∧
      ∀ k, (∀ i ∈ is, k ∉ writes i) → look (runAll f is s).2 k = look s k := by
  induction is generalizing s with
  | nil => exact ⟨rfl, fun i hi => absurd hi List.not_mem_nil, fun _ _ => rfl⟩
  | cons i is ih =>
      obtain ⟨hi, his⟩ := List.pairwise_cons.mp h
      obtain ⟨hsi, hsis⟩ := List.forall_mem_cons.mp hs
      -- The others do not look at what the first has changed.
      have hreads (j : ι) (hj : j ∈ is) : Set.EqOn (look (f i s).2) (look s₀) (reads j) :=
        (((hf i).frame s hsi).mono (Set.subset_compl_iff_disjoint_left.mpr (hi j hj).unread)).trans
          (hsis j hj)
      obtain ⟨hresults, hwritten, hframe⟩ := ih his hreads
      refine ⟨?_, List.forall_mem_cons.mpr ⟨fun k hk => ?_, hwritten⟩, fun k hk => ?_⟩
      · rw [runAll, hresults, List.map_cons, (hf i).result s hsi]
      · exact (hframe k fun j hj => Set.disjoint_left.mp (hi j hj).apart hk).trans
          ((hf i).written s hsi hk)
      · rw [List.forall_mem_cons] at hk
        exact (hframe k hk.2).trans ((hf i).frame s hsi hk.1)

theorem runAll_of_pairwise {is : List ι} (h : is.Pairwise (Independent reads writes)) :
    (runAll f is s₀).1 = is.map (fun i => (f i s₀).1) ∧
      (∀ i ∈ is, Set.EqOn (look (runAll f is s₀).2) (look (f i s₀).2) (writes i)) ∧
      ∀ k, (∀ i ∈ is, k ∉ writes i) → look (runAll f is s₀).2 k = look s₀ k :=
  runAll_of_eqOn hf h fun _ _ => Set.eqOn_refl _ _

/-- **The order of independent actions does not matter.** -/
theorem runAll_perm {is js : List ι} (h : is.Pairwise (Independent reads writes))
    (hperm : js.Perm is) : look (runAll f js s₀).2 = look (runAll f is s₀).2 := by
  obtain ⟨-, hwritten, hframe⟩ := runAll_of_pairwise hf h
  obtain ⟨-, hwritten', hframe'⟩ :=
    runAll_of_pairwise hf (hperm.symm.pairwise h fun h => h.symm)
  funext k
  by_cases hk : ∃ i ∈ is, k ∈ writes i
  · obtain ⟨i, hi, hk⟩ := hk
    rw [hwritten i hi hk, hwritten' i (hperm.mem_iff.mpr hi) hk]
  · have hk : ∀ i ∈ is, k ∉ writes i := fun i hi hki => hk ⟨i, hi, hki⟩
    rw [hframe k hk, hframe' k fun i hi => hk i (hperm.mem_iff.mp hi)]

end run

end Transition
