import Mathlib.Data.List.Basic
import Mathlib.Data.Nat.Notation
import Mathlib.Data.Option.Basic

/-!
# Runs of a deterministic transition system

A system is a partial step function `f : σ → Option σ`; nothing here knows what a state is.

* `iter f n s` is the state after `n` steps, and `trace f o n s` lists the observations
  `o : σ → Option β` made at the first `n` states of the run from `s`.
* `Segment f P n s t`: `n + 1` steps lead from `s` to `t`, and `P` holds at every state strictly
  between them. It is what a straight-line piece of a program gives.
* `Passes f P s t`: the run leads from `s` to `t`, and `P` holds at every state it leaves;
  `Trail f o P l s t` says what was observed there as well.
* `AbsRun A oa a l b`: an abstract system (a relation `A` on `α`, observed by `oa`) leads from `a`
  to `b`, and `l` lists what was observed at the states it left.
* **The cutpoint rule** (`reach`): when every state related to an abstract state is stuck or
  starts a segment to a state related to an abstract successor, every reachable state is related to
  a reachable abstract state or lies inside such a segment, and its trace is the abstract one.
* **Forward simulation** (`forward`): a run of a deterministic abstract system is matched by
  a concrete run with the same trace; `Trail.simulate` is the same for trails.
* **The lockstep rule** (`lockstep`): two systems show the same, as long as the environment keeps
  its promise to the first one.
-/

namespace Transition

variable {σ α β : Type*} (f : σ → Option σ)

/-! ## Iterating the step function -/

/-- The state after `n` steps, if the run gets that far. -/
def iter : ℕ → σ → Option σ
  | 0, s => some s
  | n + 1, s => (f s).bind (iter n)

@[simp] theorem iter_zero (s : σ) : iter f 0 s = some s := rfl

variable {f} in
theorem iter_succ_of_step {s t : σ} (h : f s = some t) (n : ℕ) :
    iter f (n + 1) s = iter f n t := by
  simp [iter, h]

theorem iter_succ_eq_some {n : ℕ} {s t : σ} :
    iter f (n + 1) s = some t ↔ ∃ u, f s = some u ∧ iter f n u = some t := by
  simp [iter, Option.bind_eq_some_iff]

theorem iter_add (m n : ℕ) (s : σ) : iter f (m + n) s = (iter f m s).bind (iter f n) := by
  induction m generalizing s with
  | zero => simp
  | succ m ih =>
      rw [show m + 1 + n = (m + n) + 1 by omega]
      simp only [iter]
      cases f s with
      | none => rfl
      | some u => simpa using ih u

theorem iter_trans {m n : ℕ} {s t u : σ} (h₁ : iter f m s = some t) (h₂ : iter f n t = some u) :
    iter f (m + n) s = some u := by
  rw [iter_add, h₁]
  exact h₂

/-- A run of `n` steps passes through a state after `m ≤ n` of them. -/
theorem iter_split {m n : ℕ} {s u : σ} (hmn : m ≤ n) (h : iter f n s = some u) :
    ∃ t, iter f m s = some t ∧ iter f (n - m) t = some u := by
  rw [← Nat.add_sub_cancel' hmn, iter_add, Option.bind_eq_some_iff] at h
  simpa using h

variable {f} in
/-- A run comes to one end only. -/
theorem eq_of_stuck {m n : ℕ} {s t u : σ} (ht : iter f m s = some t) (hstuck : f t = none)
    (hu : iter f n s = some u) (hstuck' : f u = none) : t = u := by
  have hend {i : ℕ} {v w : σ} (hv : f v = none) (h : iter f i v = some w) : v = w := by
    cases i with
    | zero => exact Option.some.inj h
    | succ i => rw [iter, hv] at h; cases h
  rcases Nat.le_total m n with hle | hle
  · obtain ⟨v, hv, hrest⟩ := iter_split f hle hu
    obtain rfl := Option.some.inj (ht.symm.trans hv)
    exact hend hstuck hrest
  · obtain ⟨v, hv, hrest⟩ := iter_split f hle ht
    obtain rfl := Option.some.inj (hu.symm.trans hv)
    exact (hend hstuck' hrest).symm

/-! ## Observing a run -/

/-- The observations made at the first `n` states of the run from `s`. -/
def trace (o : σ → Option β) : ℕ → σ → List β
  | 0, _ => []
  | n + 1, s => (o s).toList ++ ((f s).map (trace o n)).getD []

variable (o : σ → Option β)

@[simp] theorem trace_zero (s : σ) : trace f o 0 s = [] := rfl

variable {f} in
theorem trace_succ_of_step {s t : σ} (h : f s = some t) (n : ℕ) :
    trace f o (n + 1) s = (o s).toList ++ trace f o n t := by
  simp [trace, h]

theorem trace_one (s : σ) : trace f o 1 s = (o s).toList := by
  cases h : f s <;> simp [trace, h]

variable {f o} in
/-- Nothing is observed of a run through states of which nothing is observed. -/
theorem trace_eq_nil {n : ℕ} {s : σ} (h : ∀ k < n, ∀ u, iter f k s = some u → o u = none) :
    trace f o n s = [] := by
  induction n generalizing s with
  | zero => rfl
  | succ n ih =>
      rw [trace, h 0 (Nat.succ_pos n) s rfl]
      cases hs : f s with
      | none => rfl
      | some t =>
          exact ih fun k hk u hu => h (k + 1) (Nat.succ_lt_succ hk) u (by
            rw [iter_succ_of_step hs, hu])

theorem trace_add {m n : ℕ} {s t : σ} (h : iter f m s = some t) :
    trace f o (m + n) s = trace f o m s ++ trace f o n t := by
  induction m generalizing s with
  | zero => cases h; simp
  | succ m ih =>
      obtain ⟨u, hu, ht⟩ := (iter_succ_eq_some f).mp h
      rw [show m + 1 + n = (m + n) + 1 by omega, trace_succ_of_step o hu, trace_succ_of_step o hu,
        ih ht, List.append_assoc]

/-- Whatever was observed up to a state is observed first. -/
theorem trace_initial {m n : ℕ} {s t : σ} (h : iter f m s = some t) (hmn : m ≤ n) :
    trace f o m s <+: trace f o n s := by
  refine ⟨trace f o (n - m) t, ?_⟩
  rw [← trace_add f o h, Nat.add_sub_cancel' hmn]

/-- Observing less. -/
theorem map_trace {γ : Type*} (F : β → γ) (n : ℕ) (s : σ) :
    (trace f o n s).map F = trace f (fun u => (o u).map F) n s := by
  induction n generalizing s with
  | zero => rfl
  | succ n ih =>
      rw [trace, trace, List.map_append]
      cases f s with
      | none => cases o s <;> rfl
      | some t => cases o s <;> simp [ih]

/-- A run of a system inside another, in which the same is observed. -/
theorem trace_map {τ : Type*} {g : τ → Option τ} {p : τ → Option β} {F : σ → τ}
    (hF : ∀ s t, f s = some t → g (F s) = some (F t)) (hp : ∀ s, p (F s) = o s) {n : ℕ} {s t : σ}
    (h : iter f n s = some t) :
    iter g n (F s) = some (F t) ∧ trace g p n (F s) = trace f o n s := by
  induction n generalizing s with
  | zero =>
      cases h
      exact ⟨rfl, rfl⟩
  | succ n ih =>
      obtain ⟨u, hu, h⟩ := (iter_succ_eq_some f).mp h
      obtain ⟨hiter, htrace⟩ := ih h
      rw [iter_succ_of_step (hF s u hu), trace_succ_of_step p (hF s u hu),
        trace_succ_of_step o hu, hp, htrace]
      exact ⟨hiter, rfl⟩

section last

variable {f o} {b : β} {l : List β} {k m n : ℕ} {s t u : σ}

/-- What a state shows is in the traces that go on after it. -/
theorem trace_eq_append_cons (h : iter f n s = some t) (ht : o t = some b) (hn : n < m) :
    ∃ r, trace f o m s = trace f o n s ++ b :: r := by
  obtain ⟨k, rfl⟩ : ∃ k, m = n + (k + 1) := ⟨m - n - 1, by omega⟩
  refine ⟨((f t).map (trace f o k)).getD [], ?_⟩
  rw [trace_add f o h, trace, ht]
  rfl

/-- Before a state shows something for the first time, no run has come to its end. -/
theorem le_of_notMem_trace (h : iter f n s = some t) (ht : o t = some b)
    (hb : b ∉ trace f o m s) : m ≤ n := by
  by_contra hlt
  obtain ⟨r, hr⟩ := trace_eq_append_cons h ht (Nat.lt_of_not_le hlt)
  exact hb (hr ▸ by simp)

/-- Only one state shows what is shown last and not before. -/
theorem eq_of_last (hm : trace f o m s = l ++ [b]) (hl : b ∉ l) (hn : iter f n s = some t)
    (ht : o t = some b) (hnm : n < m) (hk : iter f k s = some u) (hu : o u = some b)
    (hkm : k < m) : n = k := by
  have hfirst {i : ℕ} {v : σ} (hi : iter f i s = some v) (hv : o v = some b) (him : i < m) :
      b ∉ trace f o i s := by
    obtain ⟨r, hr⟩ := trace_eq_append_cons hi hv him
    rw [hm] at hr
    rw [← ((List.append_cons_inj_of_notMem hl (List.not_mem_nil)).mp hr).1]
    exact hl
  exact Nat.le_antisymm (le_of_notMem_trace hk hu (hfirst hn ht hnm))
    (le_of_notMem_trace hn ht (hfirst hk hu hkm))

end last

/-! ## Segments -/

/-- `n + 1` steps lead from the first state to the second, and `P` holds strictly between. -/
inductive Segment (P : σ → Prop) : ℕ → σ → σ → Prop
  | last {s t} : f s = some t → Segment P 0 s t
  | cons {n s u t} : f s = some u → P u → Segment P n u t → Segment P (n + 1) s t

namespace Segment

variable {f} {P Q : σ → Prop} {m n : ℕ} {s t u : σ}

theorem iter_eq (h : Segment f P n s t) : iter f (n + 1) s = some t := by
  induction h with
  | last h => rw [iter_succ_of_step h, iter_zero]
  | cons h _ _ ih => rw [iter_succ_of_step h, ih]

theorem mono (h : Segment f P n s t) (hPQ : ∀ u, P u → Q u) : Segment f Q n s t := by
  induction h with
  | last h => exact .last h
  | cons h hp _ ih => exact .cons h (hPQ _ hp) ih

theorem trans (h₁ : Segment f P m s u) (hu : P u) (h₂ : Segment f P n u t) :
    Segment f P (m + n + 1) s t := by
  induction h₁ with
  | last h => simpa using Segment.cons h hu h₂
  | @cons m _ _ _ h hp _ ih =>
      rw [show m + 1 + n + 1 = (m + n + 1) + 1 by omega]
      exact .cons h hp (ih hu h₂)

/-- The state after `k + 1 ≤ n` steps lies inside the segment. -/
theorem inner (h : Segment f P n s t) {k : ℕ} (hk : k < n) (hu : iter f (k + 1) s = some u) :
    P u := by
  induction h generalizing k with
  | last => omega
  | cons h hp _ ih =>
      rw [iter_succ_of_step h] at hu
      cases k with
      | zero => cases hu; exact hp
      | succ k => exact ih (by omega) hu

/-- A segment with nothing to observe inside shows what its first state shows. -/
theorem trace_eq (h : Segment f P n s t) (ho : ∀ u, P u → o u = none) {k : ℕ} (hk : k ≤ n) :
    trace f o (k + 1) s = (o s).toList := by
  induction h generalizing k with
  | last h =>
      obtain rfl : k = 0 := by omega
      exact trace_one f o _
  | @cons n s v _ h hp _ ih =>
      cases k with
      | zero => exact trace_one f o _
      | succ k =>
          rw [trace_succ_of_step o h, ih (by omega), ho v hp]
          simp

/-- A segment of a machine inside another. -/
theorem map {τ : Type*} {g : τ → Option τ} {R : τ → Prop} (F : σ → τ)
    (hF : ∀ s t, f s = some t → g (F s) = some (F t)) (hPR : ∀ u, P u → R (F u))
    (h : Segment f P n s t) : Segment g R n (F s) (F t) := by
  induction h with
  | last h => exact .last (hF _ _ h)
  | cons h hp _ ih => exact .cons (hF _ _ h) (hPR _ hp) ih

end Segment

/-! ## Runs that keep to a predicate -/

/-- The run leads from `s` to `t`, and `P` holds at every state that it leaves. -/
def Passes (P : σ → Prop) (s t : σ) : Prop :=
  ∃ n, iter f n s = some t ∧ ∀ j < n, ∀ u, iter f j s = some u → P u

namespace Passes

variable {f} {P Q : σ → Prop} {s t u : σ}

theorem refl (s : σ) : Passes f P s s := ⟨0, rfl, fun j hj => absurd hj (Nat.not_lt_zero j)⟩

theorem mono (h : Passes f P s t) (hPQ : ∀ u, P u → Q u) : Passes f Q s t := by
  obtain ⟨n, hn, hP⟩ := h
  exact ⟨n, hn, fun j hj u hu => hPQ u (hP j hj u hu)⟩

theorem of_step (h : f s = some t) (hs : P s) : Passes f P s t := by
  refine ⟨1, iter_succ_of_step h 0, fun j hj u hu => ?_⟩
  obtain rfl : j = 0 := by omega
  cases hu
  exact hs

theorem trans (h₁ : Passes f P s t) (h₂ : Passes f P t u) : Passes f P s u := by
  obtain ⟨m, hm, hPm⟩ := h₁
  obtain ⟨n, hn, hPn⟩ := h₂
  refine ⟨m + n, iter_trans f hm hn, fun j hj v hv => ?_⟩
  rcases Nat.lt_or_ge j m with hjm | hjm
  · exact hPm j hjm v hv
  · refine hPn (j - m) (by omega) v ?_
    rw [show j = m + (j - m) by omega, iter_add, hm] at hv
    exact hv

theorem of_segment {n : ℕ} (h : Segment f Q n s t) (hs : P s) (hQ : ∀ v, Q v → P v) :
    Passes f P s t := by
  induction h with
  | last h => exact of_step h hs
  | cons h hq _ ih => exact (of_step h hs).trans (ih (hQ _ hq))

/-- There is only one first state where `P` fails. -/
theorem unique (h₁ : Passes f P s t) (ht : ¬P t) (h₂ : Passes f P s u) (hu : ¬P u) : t = u := by
  obtain ⟨m, hm, hPm⟩ := h₁
  obtain ⟨n, hn, hPn⟩ := h₂
  rcases Nat.lt_trichotomy m n with hlt | rfl | hlt
  · exact absurd (hPn m hlt t hm) ht
  · exact Option.some.inj (hm.symm.trans hn)
  · exact absurd (hPm n hlt u hn) hu

end Passes

/-! ## Runs that are observed -/

/-- The run leads from `s` to `t`, `l` lists what was observed at the states it left, and `P` holds
at all of these. -/
def Trail (o : σ → Option β) (P : σ → Prop) (l : List β) (s t : σ) : Prop :=
  ∃ n, iter f n s = some t ∧ trace f o n s = l ∧ ∀ j < n, ∀ u, iter f j s = some u → P u

namespace Trail

variable {f} {o : σ → Option β} {P : σ → Prop} {l l' : List β} {s t u : σ}

theorem refl (s : σ) : Trail f o P [] s s :=
  ⟨0, rfl, rfl, fun j hj => absurd hj (Nat.not_lt_zero j)⟩

theorem of_step (h : f s = some t) (hs : P s) : Trail f o P (o s).toList s t := by
  refine ⟨1, iter_succ_of_step h 0, trace_one f o s, fun j hj u hu => ?_⟩
  obtain rfl : j = 0 := by omega
  cases hu
  exact hs

theorem trans (h₁ : Trail f o P l s t) (h₂ : Trail f o P l' t u) :
    Trail f o P (l ++ l') s u := by
  obtain ⟨m, hm, hl, hPm⟩ := h₁
  obtain ⟨n, hn, hl', hPn⟩ := h₂
  refine ⟨m + n, iter_trans f hm hn, by rw [trace_add f o hm, hl, hl'], fun j hj v hv => ?_⟩
  rcases Nat.lt_or_ge j m with hjm | hjm
  · exact hPm j hjm v hv
  · refine hPn (j - m) (by omega) v ?_
    rw [show j = m + (j - m) by omega, iter_add, hm] at hv
    exact hv

theorem of_segment {Q : σ → Prop} {n : ℕ} (h : Segment f Q n s t) (hs : P s)
    (hQ : ∀ u, Q u → o u = none ∧ P u) : Trail f o P (o s).toList s t := by
  refine ⟨n + 1, h.iter_eq, h.trace_eq o (fun u hu => (hQ u hu).1) (Nat.le_refl n),
    fun j hj u hu => ?_⟩
  cases j with
  | zero => cases hu; exact hs
  | succ j => exact (hQ u (h.inner (by omega) hu)).2

/-- A trail is followed by a trail of another system, in which a predicate holds of related states
and inside the segments between them. -/
theorem simulate {R : α → σ → Prop} {g : α → Option α} {oa : α → Option β} {I : α → Prop}
    {Q : σ → Prop} (hR : ∀ a s, R a s → I a → o s = oa a ∧ P s) (hQ : ∀ u, Q u → o u = none ∧ P u)
    (hstep : ∀ a s b, R a s → I a → g a = some b → ∃ n t, Segment f Q n s t ∧ R b t) {a b : α}
    (h : Trail g oa I l a b) (h₀ : R a s) : ∃ t, Trail f o P l s t ∧ R b t := by
  obtain ⟨m, hm, rfl, hI⟩ := h
  induction m generalizing a s with
  | zero =>
      cases hm
      exact ⟨s, refl s, h₀⟩
  | succ m ih =>
      obtain ⟨c, hc, hm⟩ := (iter_succ_eq_some g).mp hm
      have ha : I a := hI 0 (Nat.succ_pos m) a rfl
      obtain ⟨n, u, hseg, hu⟩ := hstep a s c h₀ ha hc
      obtain ⟨t, htrail, ht⟩ := ih hu hm fun j hj e he =>
        hI (j + 1) (Nat.succ_lt_succ hj) e (by rw [iter_succ_of_step hc, he])
      obtain ⟨hshown, hs⟩ := hR a s h₀ ha
      refine ⟨t, ?_, ht⟩
      rw [trace_succ_of_step oa hc, ← hshown]
      exact (of_segment hseg hs hQ).trans htrail

end Trail

/-- What is observed at the next `n` states, and the state after them, if a predicate holds of all
of these. -/
def observe (o : σ → Option β) (P : σ → Bool) : ℕ → σ → Option (List β × σ)
  | 0, s => if P s then some ([], s) else none
  | n + 1, s =>
      if P s then (f s).bind fun t => (observe o P n t).map (Prod.map ((o s).toList ++ ·) id)
      else none

variable {f} in
/-- **A trail can be computed.** -/
theorem Trail.of_observe {o : σ → Option β} {P : σ → Bool} {n : ℕ} {l : List β} {s t : σ}
    (h : observe f o P n s = some (l, t)) :
    Trail f o (fun u => P u = true) l s t ∧ P t = true := by
  induction n generalizing s l with
  | zero =>
      rw [observe] at h
      split at h <;> cases h
      exact ⟨refl _, ‹_›⟩
  | succ n ih =>
      rw [observe] at h
      split at h
      · obtain ⟨u, hu, h⟩ := Option.bind_eq_some_iff.mp h
        obtain ⟨⟨r, v⟩, hr, hrest⟩ := Option.map_eq_some_iff.mp h
        cases hrest
        obtain ⟨htrail, ht⟩ := ih hr
        exact ⟨(of_step hu ‹_›).trans htrail, ht⟩
      · cases h

/-! ## Abstract runs -/

/-- The abstract system leads from `a` to the last argument; the list holds what was observed at
the states it left. -/
inductive AbsRun (A : α → α → Prop) (oa : α → Option β) (a : α) : List β → α → Prop
  | refl : AbsRun A oa a [] a
  | step {l b c} : AbsRun A oa a l b → A b c → AbsRun A oa a (l ++ (oa b).toList) c

/-- A run of a deterministic system is an abstract run. -/
theorem AbsRun.of_iter {g : α → Option α} {oa : α → Option β} {n : ℕ} {a b : α}
    (h : iter g n a = some b) : AbsRun (fun x y => g x = some y) oa a (trace g oa n a) b := by
  induction n generalizing b with
  | zero =>
      cases h
      exact .refl
  | succ n ih =>
      rw [iter_add, Option.bind_eq_some_iff] at h
      obtain ⟨c, hc, h⟩ := h
      obtain ⟨d, hd, h⟩ := (iter_succ_eq_some g).mp h
      cases h
      rw [trace_add g oa hc, trace_one]
      exact (ih hc).step hd

/-! ## The cutpoint rules -/

/-- **The cutpoint rule.** `C l s` is what the environment promises of a state `s` that is reached
with trace `l`; under it a cutpoint is related to an abstract state. Every cutpoint related to `a`
is stuck or starts a segment, with `P a` inside, to a cutpoint for a successor of `a`. Then every
state that is reached is a cutpoint related to a reachable abstract state or lies inside the segment
of one, and the observations made up to it are those of the abstract run. -/
theorem reach {R : α → σ → Prop} {A : α → α → Prop} {P : α → σ → Prop} {C : List β → σ → Prop}
    {oa : α → Option β} {o : σ → Option β} (hR : ∀ a s, R a s → o s = oa a)
    (hP : ∀ a u, P a u → o u = none) {a₀ : α}
    (hstep : ∀ a l s, AbsRun A oa a₀ l a → R a s → C l s → f s = none ∨
      ∃ b n t, A a b ∧ Segment f (P a) n s t ∧ (C (l ++ (oa a).toList) t → R b t))
    {s t : σ} (h₀ : R a₀ s) {n : ℕ} (ht : iter f n s = some t)
    (hC : ∀ k ≤ n, ∀ u, iter f k s = some u → C (trace f o k s) u) :
    ∃ b l, AbsRun A oa a₀ l b ∧
      ((R b t ∧ trace f o n s = l) ∨
        (∃ u, R b u ∧ P b t ∧ trace f o n s = l ++ (oa b).toList)) := by
  -- Strong induction on the steps left, from any cutpoint already reached.
  suffices H : ∀ m k u b l, n = k + m → iter f k s = some u → R b u → AbsRun A oa a₀ l b →
      trace f o k s = l → ∃ b l, AbsRun A oa a₀ l b ∧
        ((R b t ∧ trace f o n s = l) ∨
          (∃ u, R b u ∧ P b t ∧ trace f o n s = l ++ (oa b).toList)) from
    H n 0 s a₀ [] (by omega) rfl h₀ .refl rfl
  intro m
  induction m using Nat.strongRecOn with
  | _ m ih =>
      intro k u b l hn hk hb hl htr
      have hu : iter f m u = some t := by
        rw [hn, iter_add, hk] at ht
        exact ht
      rcases Nat.eq_zero_or_pos m with rfl | hm
      · cases hu
        exact ⟨b, l, hl, .inl ⟨hb, by rw [hn]; simpa using htr⟩⟩
      · obtain ⟨m, rfl⟩ : ∃ j, m = j + 1 := ⟨m - 1, by omega⟩
        rcases hstep b l u hl hb (htr ▸ hC k (by omega) u hk) with hnone | ⟨c, p, v, hA, hseg, hc⟩
        · obtain ⟨w, hw, -⟩ := (iter_succ_eq_some f).mp hu
          rw [hnone] at hw
          cases hw
        · by_cases hmp : m < p
          · refine ⟨b, l, hl, .inr ⟨u, hb, hseg.inner hmp hu, ?_⟩⟩
            rw [hn, trace_add f o hk, htr, hseg.trace_eq o (hP b) (by omega), hR b u hb]
          · have hv : iter f (k + (p + 1)) s = some v := iter_trans f hk hseg.iter_eq
            have htrv : trace f o (k + (p + 1)) s = l ++ (oa b).toList := by
              rw [trace_add f o hk, htr, hseg.trace_eq o (hP b) (Nat.le_refl p), hR b u hb]
            have hcv : R c v := hc (htrv ▸ hC (k + (p + 1)) (by omega) v hv)
            exact ih (m - p) (by omega) (k + (p + 1)) v c (l ++ (oa b).toList) (by omega) hv hcv
              (hl.step hA) htrv

/-- **Forward simulation.** A run of a deterministic abstract system is followed by a concrete run
from a related state, to a related state and with the same trace. -/
theorem forward {R : α → σ → Prop} {g : α → Option α} {P : α → σ → Prop}
    {oa : α → Option β} {o : σ → Option β} (hR : ∀ a s, R a s → o s = oa a)
    (hP : ∀ a u, P a u → o u = none) {I : α → Prop}
    (hstep : ∀ a s b, R a s → I a → g a = some b → ∃ n t, Segment f (P a) n s t ∧ R b t)
    {m : ℕ} {a b : α} {s : σ} (h₀ : R a s) (hb : iter g m a = some b)
    (hI : ∀ k < m, ∀ c, iter g k a = some c → I c) :
    ∃ n t, m ≤ n ∧ iter f n s = some t ∧ R b t ∧ trace f o n s = trace g oa m a := by
  induction m generalizing a s with
  | zero =>
      cases hb
      exact ⟨0, s, Nat.le_refl 0, rfl, h₀, rfl⟩
  | succ m ih =>
      obtain ⟨c, hc, hb⟩ := (iter_succ_eq_some g).mp hb
      obtain ⟨p, u, hseg, hu⟩ := hstep a s c h₀ (hI 0 (by omega) a rfl) hc
      obtain ⟨n, t, hmn, ht, hbt, htr⟩ := ih hu hb fun k hk d hd =>
        hI (k + 1) (by omega) d (by rw [iter_succ_of_step hc, hd])
      refine ⟨p + 1 + n, t, by omega, iter_trans f hseg.iter_eq ht, hbt, ?_⟩
      rw [trace_add f o hseg.iter_eq, hseg.trace_eq o (hP a) (Nat.le_refl p), htr,
        trace_succ_of_step oa hc, hR a s h₀]

/-! ## Two systems in step -/

variable {f} in
/-- **The lockstep rule.** `Q` relates states of two systems that show the same, and `C` is what the
environment promises of the states of the first. From related states the first system is stuck, or
goes to a next state that is related to one to which the second goes, or goes on forever; in
between, neither shows anything. Then the second system shows whatever the first one shows, and
where the first one is stuck, they are related. -/
theorem lockstep {τ : Type*} {g : τ → Option τ} {o : σ → Option β}
    {p : τ → Option β} {Q : σ → τ → Prop} {P C : σ → Prop} (hQ : ∀ s t, Q s t → o s = p t)
    (hP : ∀ u, P u → o u = none ∧ f u ≠ none)
    (hstep : ∀ s t, Q s t → C s → f s = none ∨
      (∃ n s', iter f (n + 1) s = some s' ∧ (∀ k < n, ∀ u, iter f (k + 1) s = some u → P u) ∧
        (C s' → ∃ m t', iter g m t = some t' ∧ trace g p m t = (p t).toList ∧ Q s' t')) ∨
      ∀ k u, iter f (k + 1) s = some u → P u)
    {n : ℕ} {s s' : σ} {t : τ} (h₀ : Q s t) (hn : iter f n s = some s')
    (hC : ∀ k ≤ n, ∀ u, iter f k s = some u → C u) :
    ∃ m, trace g p m t = trace f o n s ∧
      (f s' = none → ∃ t', iter g m t = some t' ∧ Q s' t') := by
  -- Nothing is shown after the first state.
  have hquiet {n : ℕ} {s s' : σ} (hn : iter f (n + 1) s = some s')
      (h : ∀ k < n, ∀ u, iter f (k + 1) s = some u → P u) :
      trace f o (n + 1) s = (o s).toList := by
    obtain ⟨u, hu, -⟩ := (iter_succ_eq_some f).mp hn
    rw [trace_succ_of_step o hu, trace_eq_nil fun k hk v hv =>
      (hP v (h k hk v (by rw [iter_succ_of_step hu, hv]))).1, List.append_nil]
  induction n using Nat.strongRecOn generalizing s t with
  | _ n ih =>
  cases n with
  | zero =>
      cases hn
      exact ⟨0, rfl, fun _ => ⟨t, rfl, h₀⟩⟩
  | succ n =>
      rcases hstep s t h₀ (hC 0 (Nat.zero_le _) s rfl) with hs | ⟨k, v, hiter, hbetween, hv⟩ |
        hforever
      · obtain ⟨u, hu, -⟩ := (iter_succ_eq_some f).mp hn
        rw [hs] at hu
        cases hu
      · by_cases hnk : n < k
        · -- The run ends before the next related states.
          refine ⟨1, ?_, fun hend => absurd hend (hP s' (hbetween n hnk s' hn)).2⟩
          rw [trace_one, ← hQ s t h₀,
            hquiet hn fun j hj => hbetween j (Nat.lt_trans hj hnk)]
        · obtain ⟨j, rfl⟩ := Nat.exists_eq_add_of_le (Nat.le_of_not_lt hnk)
          obtain ⟨m, w, hw, htrace, hQ'⟩ := hv (hC (k + 1) (by omega) v hiter)
          rw [show k + j + 1 = k + 1 + j by omega] at hn hC ⊢
          have hrest : iter f j v = some s' := by
            rw [iter_add, hiter] at hn
            exact hn
          obtain ⟨m', htrace', hend⟩ := ih j (by omega) hQ' hrest fun i hi u hu =>
            hC (k + 1 + i) (by omega) u (iter_trans f hiter hu)
          refine ⟨m + m', ?_, fun hstuck => ?_⟩
          · rw [trace_add g p hw, htrace, htrace', trace_add f o hiter, hquiet hiter hbetween,
              hQ s t h₀]
          · obtain ⟨t', ht', hrel⟩ := hend hstuck
            exact ⟨t', iter_trans g hw ht', hrel⟩
      · refine ⟨1, ?_, fun hend => absurd hend (hP s' (hforever n s' hn)).2⟩
        rw [trace_one, ← hQ s t h₀, hquiet hn fun j _ => hforever j]

end Transition
