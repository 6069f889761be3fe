import Mathlib.Tactic

/-!
# Data under versioned lock words

Any number of threads share cells of data, each protected by a lock word that counts: it is odd
while a thread holds it, and taking and giving it back both advance it.  Several cells may share a
word.  A thread may change a cell only while it holds the cell's word, but anybody may read at any
time; a reader takes down the word together with what it read, and what it read is still true as
long as the word is the one it took down.

`Effect` is what one step of a thread may do to the words and cells.  From that alone follows what
a thread can rely on while the others move: threads that hold a word exclude each other
(`Exclusive.step`), the steps of the others are mere interference (`Exclusive.interferes`), which
neither touches what a thread holds nor makes a snapshot wrong (`Snapshot.Valid.mono`).
-/

namespace TwoTree.Lib.Locking

open Function

variable {π κ γ ι : Type*}

/-- The lock words and the cells of data. -/
@[ext] structure World (π κ γ : Type*) where
  word : π → ℕ
  cell : κ → γ

variable {pos : κ → π} {w w' : World π κ γ} {h h' : Option κ} {k : κ}

/-! ## Snapshots -/

/-- What a thread sees of a step of another one. -/
structure Interferes (pos : κ → π) (h : Option κ) (w w' : World π κ γ) : Prop where
  word_le : ∀ p, w.word p ≤ w'.word p
  cell_of_even : ∀ k, w.word (pos k) % 2 = 0 → w'.cell k = w.cell k
  owned : ∀ k, h = some k → w'.word (pos k) = w.word (pos k) ∧ w'.cell k = w.cell k

/-- What a reader took down: the word of a cell at some moment, and what it found out about the
cell from then on. -/
structure Snapshot (κ γ : Type*) where
  key : κ
  version : ℕ
  fact : γ → Prop

/-- The word was free, and what was found out is true unless the word has advanced. -/
structure Snapshot.Valid (pos : κ → π) (w : World π κ γ) (x : Snapshot κ γ) : Prop where
  even : x.version % 2 = 0
  le : x.version ≤ w.word (pos x.key)
  fact_of_eq : w.word (pos x.key) = x.version → x.fact (w.cell x.key)

/-- **No snapshot becomes wrong**, if words only advance and cells with an even word stay as they
are: if the word is still the same, it was free all the time. -/
lemma Snapshot.Valid.mono {x : Snapshot κ γ} (hx : x.Valid pos w)
    (hword : ∀ p, w.word p ≤ w'.word p)
    (hcell : ∀ k, w.word (pos k) % 2 = 0 → w'.cell k = w.cell k) : x.Valid pos w' := by
  refine ⟨hx.even, hx.le.trans (hword _), fun heq => ?_⟩
  have hsame : w.word (pos x.key) = x.version := le_antisymm (heq ▸ hword _) hx.le
  rw [hcell x.key (hsame ▸ hx.even)]
  exact hx.fact_of_eq hsame

/-- A reader that finds the word where it was learns more about the same moment. -/
lemma Snapshot.Valid.learn {x : Snapshot κ γ} (hx : x.Valid pos w) {fact : γ → Prop}
    (hfact : w.word (pos x.key) = x.version → x.fact (w.cell x.key) → fact (w.cell x.key)) :
    Snapshot.Valid pos w ⟨x.key, x.version, fact⟩ :=
  ⟨hx.even, hx.le, fun heq => hfact heq (hx.fact_of_eq heq)⟩

/-! ## Threads that hold a word exclude each other -/

/-- The words of held cells are odd, and no word is held by two threads. -/
structure Exclusive (pos : κ → π) (held : ι → Option κ) (w : World π κ γ) : Prop where
  locked : ∀ t k, held t = some k → w.word (pos k) % 2 = 1
  unique : ∀ t t' k k', held t = some k → held t' = some k' → pos k = pos k' → t = t'

variable {held : ι → Option κ} {t t' : ι}

/-- Nobody holds a cell whose word is even. -/
lemma Exclusive.ne_of_even (hx : Exclusive pos held w) (heven : w.word (pos k) % 2 = 0) (t : ι) :
    held t ≠ some k := by
  intro ht
  have := hx.locked t k ht
  omega

/-! ## What a step may do -/

variable [DecidableEq π] [DecidableEq κ]

/-- What one step of a thread may do, with the cell it holds before and after. -/
inductive Effect (pos : κ → π) (w : World π κ γ) : Option κ → World π κ γ → Option κ → Prop
  | keep (held : Option κ) : Effect pos w held w held
  | acquire (k : κ) : w.word (pos k) % 2 = 0 →
      Effect pos w none ⟨update w.word (pos k) (w.word (pos k) + 1), w.cell⟩ (some k)
  | release (k : κ) :
      Effect pos w (some k) ⟨update w.word (pos k) (w.word (pos k) + 1), w.cell⟩ none
  | write (k : κ) (c : γ) :
      Effect pos w (some k) ⟨w.word, update w.cell k c⟩ (some k)

section

variable (he : Effect pos w h w' h')
include he

/-- A thread leaves the cells alone that it does not hold. -/
lemma Effect.cell_eq (hk : h ≠ some k) : w'.cell k = w.cell k := by
  cases he with
  | keep => rfl
  | acquire => rfl
  | release => rfl
  | write a c => exact update_of_ne (fun hka => hk (congrArg some hka.symm)) _ _

lemma Effect.word_le (p : π) : w.word p ≤ w'.word p := by
  have hadvance : ∀ a, w.word p ≤ update w.word a (w.word a + 1) p := by
    intro a
    rcases eq_or_ne p a with rfl | hp
    · rw [update_self]
      omega
    · rw [update_of_ne hp]
  cases he with
  | keep => exact le_rfl
  | acquire a _ => exact hadvance (pos a)
  | release a => exact hadvance (pos a)
  | write => exact le_rfl

/-- A thread keeps the cell it holds or gives it back. -/
lemma Effect.held_cases (hk : h = some k) : h' = some k ∨ h' = none := by
  cases he with
  | keep => exact Or.inl hk
  | acquire => simp at hk
  | release => exact Or.inr rfl
  | write => exact Or.inl hk

/-- A step advances a word by one at most. -/
lemma Effect.word_le_succ (p : π) : w'.word p ≤ w.word p + 1 := by
  have hadvance : ∀ a, update w.word a (w.word a + 1) p ≤ w.word p + 1 := by
    intro a
    rcases eq_or_ne p a with rfl | hp
    · rw [update_self]
    · rw [update_of_ne hp]
      omega
  cases he with
  | keep => exact Nat.le_succ _
  | acquire a _ => exact hadvance (pos a)
  | release a => exact hadvance (pos a)
  | write => exact Nat.le_succ _

/-- A thread's own steps make none of its snapshots wrong either. -/
lemma Effect.valid (hodd : ∀ k, h = some k → w.word (pos k) % 2 = 1) {x : Snapshot κ γ} (hx : x.Valid pos w) :
    x.Valid pos w' :=
  hx.mono he.word_le (fun k heven => he.cell_eq (fun hk => by
    have := hodd k hk
    omega))

end

/-- **The steps of the other threads are interference.** -/
lemma Exclusive.interferes (hx : Exclusive pos held w) (he : Effect pos w (held t) w' h')
    (hne : t' ≠ t) : Interferes pos (held t') w w' := by
  refine ⟨he.word_le, fun k heven => he.cell_eq (hx.ne_of_even heven t), fun k hk => ⟨?_, ?_⟩⟩
  · have hodd := hx.locked t' k hk
    generalize hh : held t = h at he
    cases he with
    | keep => rfl
    | acquire a heven =>
      refine update_of_ne (fun hpos => ?_) _ _
      rw [hpos] at hodd
      omega
    | release a =>
      exact update_of_ne (fun hpos => hne (hx.unique t' t k a hk hh hpos)) _ _
    | write => rfl
  · exact he.cell_eq (fun hh => hne (hx.unique t' t k k hk hh rfl))

/-- Nor do they touch the other cells of a word that a thread holds. -/
lemma Exclusive.cell_of_pos (hx : Exclusive pos held w) (he : Effect pos w (held t) w' h')
    (hne : t' ≠ t) {k k' : κ} (hk : held t' = some k) (hpos : pos k = pos k') :
    w'.cell k' = w.cell k' :=
  he.cell_eq (fun hh => hne (hx.unique t' t k k' hk hh hpos))

/-- **One step keeps the exclusion.** -/
lemma Exclusive.step [DecidableEq ι] (hx : Exclusive pos held w)
    (he : Effect pos w (held t) w' h') : Exclusive pos (update held t h') w' := by
  -- the word of the cell the thread holds after the step is odd, and nobody else holds it
  have hself : ∀ k, h' = some k → w'.word (pos k) % 2 = 1 ∧
      ∀ t' k', t' ≠ t → held t' = some k' → pos k ≠ pos k' := by
    intro k hk
    generalize hh : held t = h at he
    cases he with
    | keep =>
      obtain rfl := hk
      exact ⟨hx.locked t k hh, fun t' k' hne hk' hpos =>
        hne (hx.unique t' t k' k hk' hh hpos.symm)⟩
    | acquire a heven =>
      obtain rfl := Option.some.inj hk
      refine ⟨?_, fun t' k' _ hk' hpos => ?_⟩
      · simp only [update_self]
        omega
      · have := hx.locked t' k' hk'
        rw [← hpos] at this
        omega
    | release => simp at hk
    | write a c =>
      obtain rfl := Option.some.inj hk
      exact ⟨hx.locked t a hh, fun t' k' hne hk' hpos =>
        hne (hx.unique t' t k' a hk' hh hpos.symm)⟩
  have hother : ∀ t', t' ≠ t → update held t h' t' = held t' :=
    fun t' hne => update_of_ne hne _ _
  refine ⟨fun t₁ k hk => ?_, fun t₁ t₂ k₁ k₂ hk₁ hk₂ hpos => ?_⟩
  · rcases eq_or_ne t₁ t with rfl | hne
    · rw [update_self] at hk
      exact (hself k hk).1
    · rw [hother t₁ hne] at hk
      rw [((hx.interferes he hne).owned k hk).1]
      exact hx.locked t₁ k hk
  · rcases eq_or_ne t₁ t with rfl | hne₁ <;> rcases eq_or_ne t₂ t₁ with h₂ | hne₂
    · exact h₂.symm
    · rw [update_self] at hk₁
      rw [hother t₂ hne₂] at hk₂
      exact absurd hpos ((hself k₁ hk₁).2 t₂ k₂ hne₂ hk₂)
    · exact h₂.symm
    rw [hother t₁ hne₁] at hk₁
    rcases eq_or_ne t₂ t with rfl | hne
    · rw [update_self] at hk₂
      exact absurd hpos.symm ((hself k₂ hk₂).2 t₁ k₁ hne₁ hk₁)
    · rw [hother t₂ hne] at hk₂
      exact hx.unique t₁ t₂ k₁ k₂ hk₁ hk₂ hpos

end TwoTree.Lib.Locking
