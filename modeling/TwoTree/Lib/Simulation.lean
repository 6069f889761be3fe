import Mathlib.Tactic

/-!
# Runs of partial step functions

A store is run by folding a step function over a list of inputs; the step is partial because a
call may loop forever.  The fold is `List.foldlM` in `Option`, so a run exists only if every
call of it returns.  `foldlM_simulates` is the induction every refinement proof of this
development goes through once: a relation between store and specification that holds at the
start and that each admissible step maintains — the step returning, in particular — holds
after every admissible run.

Inside a step there are loops over records with distinct keys, and maintenance that changes some of
the records and leaves the others alone (`Applied`); further sections describe those.  A computation
that may run forever is given fuel, and it returns if it does so with any fuel that is large enough
(`Returns`).
-/

namespace TwoTree.Lib

open List

variable {σ α ι : Type*} {astep : α → ι → α} {is : List ι} {R : σ → α → Prop}
  {step : σ → ι → Option σ}

/-- Every input of the list is admissible in the specification state it meets. -/
def Admits (ok : α → ι → Prop) (astep : α → ι → α) : α → List ι → Prop
  | _, [] => True
  | a, i :: is => ok a i ∧ Admits ok astep (astep a i) is

/-- Admissibility is that of the inputs' images, if it depends on nothing else. -/
lemma Admits.map {κ : Type*} {f : ι → κ} {ok : α → κ → Prop} {astep : α → κ → α} {a : α}
    (h : Admits (fun a i => ok a (f i)) (fun a i => astep a (f i)) a is) :
    Admits ok astep a (is.map f) := by
  induction is generalizing a with
  | nil => trivial
  | cons i is ih => exact ⟨h.1, ih h.2⟩

lemma Admits.mono {ok ok' : α → ι → Prop} (hok : ∀ a i, ok a i → ok' a i)
    {a : α} (h : Admits ok astep a is) : Admits ok' astep a is := by
  induction is generalizing a with
  | nil => trivial
  | cons i is ih => exact ⟨hok _ _ h.1, ih h.2⟩

/-- **Forward simulation.** -/
lemma foldlM_simulates {ok : α → ι → Prop}
    (hstep : ∀ s a i, R s a → ok a i → ∃ s', step s i = some s' ∧ R s' (astep a i))
    {s : σ} {a : α} (hR : R s a) (hok : Admits ok astep a is) :
    ∃ s', is.foldlM step s = some s' ∧ R s' (is.foldl astep a) := by
  induction is generalizing s a with
  | nil => exact ⟨s, rfl, hR⟩
  | cons i is ih =>
    obtain ⟨hi, his⟩ := hok
    obtain ⟨s', hs', hR'⟩ := hstep s a i hR hi
    obtain ⟨s'', hs'', hR''⟩ := ih hR' his
    exact ⟨s'', by simp [hs', hs''], hR''⟩

/-- **Forward simulation**, for a step that always returns. -/
lemma foldl_simulates {step : σ → ι → σ} {ok : α → ι → Prop}
    (hstep : ∀ s a i, R s a → ok a i → R (step s i) (astep a i))
    {s : σ} {a : α} (hR : R s a) (hok : Admits ok astep a is) :
    R (is.foldl step s) (is.foldl astep a) := by
  induction is generalizing s a with
  | nil => exact hR
  | cons i is ih => exact ih (hstep s a i hR hok.1) hok.2

/-- The runs of a step relation in which every input is admissible in the two states it meets. -/
def Runs (ok : σ → α → ι → Prop) (step : σ → ι → σ → Prop) (astep : α → ι → α) :
    σ → α → List ι → σ → Prop
  | s, _, [], s' => s' = s
  | s, a, i :: is, s' => ok s a i ∧ ∃ t, step s i t ∧ Runs ok step astep t (astep a i) is s'

/-- **Forward simulation**, for a step relation. -/
lemma Runs.simulates {ok : σ → α → ι → Prop} {step : σ → ι → σ → Prop}
    (hstep : ∀ s a i t, R s a → ok s a i → step s i t → R t (astep a i))
    {s s' : σ} {a : α} (hrun : Runs ok step astep s a is s') (hR : R s a) :
    R s' (is.foldl astep a) := by
  induction is generalizing s a with
  | nil =>
    obtain rfl : s' = s := hrun
    exact hR
  | cons i is ih =>
    obtain ⟨hi, t, ht, hrest⟩ := hrun
    exact ih hrest (hstep s a i t hR hi ht)

/-- Every input of the list is admissible in the two states it meets, if the run gets there. -/
def AdmitsRun (ok : σ → α → ι → Prop) (step : σ → ι → Option σ) (astep : α → ι → α) :
    σ → α → List ι → Prop
  | _, _, [] => True
  | s, a, i :: is => ok s a i ∧ ∀ t, step s i = some t → AdmitsRun ok step astep t (astep a i) is

lemma AdmitsRun.cons {ok : σ → α → ι → Prop} {s : σ} {a : α} {i : ι} (hok : ok s a i)
    (h : AdmitsRun ok step astep ((step s i).getD s) (astep a i) is) :
    AdmitsRun ok step astep s a (i :: is) :=
  ⟨hok, fun t ht => by simpa [ht] using h⟩

/-- **Forward simulation**, for inputs whose admissibility depends on the store. -/
lemma AdmitsRun.simulates {ok : σ → α → ι → Prop}
    (hstep : ∀ s a i, R s a → ok s a i → ∃ s', step s i = some s' ∧ R s' (astep a i))
    {s : σ} {a : α} (hR : R s a) (hok : AdmitsRun ok step astep s a is) :
    ∃ s', is.foldlM step s = some s' ∧ R s' (is.foldl astep a) := by
  induction is generalizing s a with
  | nil => exact ⟨s, rfl, hR⟩
  | cons i is ih =>
    obtain ⟨s', hs', hR'⟩ := hstep s a i hR hok.1
    obtain ⟨s'', hs'', hR''⟩ := ih hR' (hok.2 s' hs')
    exact ⟨s'', by simp [hs', hs''], hR''⟩

/-- **Invariants of runs.**  What holds at the start and is maintained by every step that
returns holds after every run that returns. -/
lemma foldlM_preserves {P : σ → Prop} (hstep : ∀ s i s', P s → step s i = some s' → P s')
    {s s' : σ} (hP : P s) (hrun : is.foldlM step s = some s') : P s' := by
  induction is generalizing s with
  | nil =>
    obtain rfl : s = s' := by simpa using hrun
    exact hP
  | cons i is ih =>
    rw [foldlM_cons] at hrun
    obtain ⟨s₁, hs₁, hrest⟩ := Option.bind_eq_some_iff.1 hrun
    exact ih (hstep s i s₁ hP hs₁) hrest

/-! ## Loops over distinct keys

A loop whose turns each work on one key is described by an observation of the state at a key:
what a turn does to the observation at its own key, and that it does nothing to the others. -/

section Observation

variable {κ β : Type*} (obs : σ → κ → β) (key : ι → κ) {f : σ → ι → σ}

variable (hother : ∀ s i a, key i ≠ a → obs (f s i) a = obs s a)
include hother

/-- The keys of no turn are left alone. -/
lemma foldl_obs_of_notMem (is : List ι)
    (s : σ) {a : κ} (ha : ∀ i ∈ is, key i ≠ a) : obs (is.foldl f s) a = obs s a := by
  induction is generalizing s with
  | nil => rfl
  | cons i is ih =>
    rw [foldl_cons, ih _ (fun i' hi' => ha i' (by simp [hi'])),
      hother s i a (ha i (by simp))]

/-- If the keys of the turns are distinct, each key ends up as its own turn leaves it. -/
lemma foldl_obs_of_mem {g : ι → β → β} (hself : ∀ s i, obs (f s i) (key i) = g i (obs s (key i))) {is : List ι}
    (s : σ) (his : is.Pairwise (fun i i' => key i ≠ key i')) {i : ι} (hi : i ∈ is) :
    obs (is.foldl f s) (key i) = g i (obs s (key i)) := by
  induction is generalizing s with
  | nil => simp at hi
  | cons i' is ih =>
    obtain ⟨hne, his⟩ := pairwise_cons.1 his
    rcases mem_cons.1 hi with rfl | hi
    · rw [foldl_cons, foldl_obs_of_notMem obs key hother _ _
        (fun i' hi' => (hne i' hi').symm), hself]
    · rw [foldl_cons, ih _ his hi, hother s i' (key i) (hne i hi)]

end Observation

/-! ## Maintenance of a family -/

section Applied

variable {κ β : Type*} {g : β → β} {c c' c'' : κ → β}

/-- Some members of the family have been changed by `g`, and the others are as they were. -/
def Applied (g : β → β) (c c' : κ → β) : Prop := ∀ k, c' k = c k ∨ c' k = g (c k)

namespace Applied

lemma of_eq (h : ∀ k, c' k = c k) : Applied g c c' := fun k => Or.inl (h k)

lemma trans (hg : ∀ x, g (g x) = g x) (h : Applied g c c') (h' : Applied g c' c'') :
    Applied g c c'' := by
  intro k
  rcases h k with hk | hk <;> rcases h' k with hk' | hk'
  · exact Or.inl (hk'.trans hk)
  · exact Or.inr (by rw [hk', hk])
  · exact Or.inr (hk'.trans hk)
  · exact Or.inr (by rw [hk', hk, hg])

lemma single {k : κ} (hself : c' k = g (c k)) (hother : ∀ a, a ≠ k → c' a = c a) :
    Applied g c c' := by
  intro a
  rcases eq_or_ne a k with rfl | ha
  · exact Or.inr hself
  · exact Or.inl (hother a ha)

/-- A loop over distinct keys that changes the members of those keys. -/
lemma foldl {obs : σ → κ → β} {key : ι → κ} {f : σ → ι → σ} {P : ι → β → Prop}
    (hself : ∀ s i, P i (obs s (key i)) → obs (f s i) (key i) = g (obs s (key i)))
    (hother : ∀ s i a, a ≠ key i → obs (f s i) a = obs s a) (hg : ∀ x, g (g x) = g x)
    {is : List ι} {s : σ} (hP : ∀ i ∈ is, P i (obs s (key i)))
    (hdistinct : is.Pairwise (fun i i' => key i ≠ key i')) :
    Applied g (obs s) (obs (is.foldl f s)) := by
  induction is generalizing s with
  | nil => exact of_eq (fun _ => rfl)
  | cons i is ih =>
    obtain ⟨hne, hdistinct⟩ := pairwise_cons.1 hdistinct
    have hfirst : Applied g (obs s) (obs (f s i)) :=
      single (hself s i (hP i mem_cons_self)) (hother s i)
    refine hfirst.trans hg (ih (fun i' hi' => ?_) hdistinct)
    rw [hother s i (key i') (hne i' hi').symm]
    exact hP i' (mem_cons_of_mem _ hi')

end Applied

end Applied

/-! ## Computations that need fuel -/

section Returns

variable {β γ : Type*} {f : ℕ → Option β} {b b' : β}

/-- The computation returns `b`: it does so with any fuel from some amount on. -/
def Returns (f : ℕ → Option β) (b : β) : Prop := ∃ n, ∀ fuel, n ≤ fuel → f fuel = some b

lemma Returns.unique (h : Returns f b) (h' : Returns f b') : b = b' := by
  obtain ⟨n, hn⟩ := h
  obtain ⟨n', hn'⟩ := h'
  have hmax := (hn (max n n') (le_max_left _ _)).symm.trans (hn' (max n n') (le_max_right _ _))
  exact Option.some.inj hmax

lemma Returns.pure (b : β) : Returns (fun _ => some b) b := ⟨0, fun _ _ => rfl⟩

lemma Returns.bind (g : ℕ → β → Option γ) {c : γ} (h : Returns f b)
    (h' : Returns (fun fuel => g fuel b) c) : Returns (fun fuel => (f fuel).bind (g fuel)) c := by
  obtain ⟨n, hn⟩ := h
  obtain ⟨n', hn'⟩ := h'
  refine ⟨max n n', fun fuel hfuel => ?_⟩
  simp only [hn fuel (le_trans (le_max_left _ _) hfuel), Option.bind_some]
  exact hn' fuel (le_trans (le_max_right _ _) hfuel)

lemma Returns.map (g : β → γ) (h : Returns f b) : Returns (fun fuel => (f fuel).map g) (g b) := by
  obtain ⟨n, hn⟩ := h
  exact ⟨n, fun fuel hfuel => by simp [hn fuel hfuel]⟩

lemma Returns.of_succ {g : ℕ → Option β} (h : Returns g b) (hg : ∀ fuel, f (fuel + 1) = g fuel) :
    Returns f b := by
  obtain ⟨n, hn⟩ := h
  refine ⟨n + 1, fun fuel hfuel => ?_⟩
  obtain ⟨fuel, rfl⟩ : ∃ j, fuel = j + 1 := ⟨fuel - 1, by omega⟩
  rw [hg]
  exact hn fuel (by omega)

end Returns

end TwoTree.Lib
