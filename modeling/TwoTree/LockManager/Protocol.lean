import TwoTree.LockManager.Guard

/-!
# Any number of guards on one lock word

This file runs any number of `OptimisticLockGuard`s against one lock word.  Every atomic
access to the word — the load of a constructor, of `read_lock`, of `validate` and of the first
half of `write_lock`, the compare-and-swap of the second half and of `upgrade_to_write_lock`,
and the `fetch_add` of the destructor — is one `step`, and a `Run` is any interleaving of such
steps.  A run records an `Event` per step, with the Boolean the member function returned, so
that "no other guard has write-locked the word since" is a statement about the events of a
stretch of the run.

The invariant (`Inv`) is small: a guard that owns the lock remembers the current word, the
word is odd exactly when some guard owns it, and a guard between the two halves of
`write_lock` remembers an even version.  What the version arithmetic buys is
`Run.acquisitions`: seen from a moment at which the word was an even `v`, the word is still
`v` only if nobody took the lock since, and it is `v + 1` only if nobody but its present owner
did.

The word is assumed not to wrap around: every step of a run starts with the word below
`2 ^ 64 - 1`.
-/

namespace TwoTree.LockManager

open OptimisticLockGuard Function Option

/-- Where a guard object stands. -/
inductive GuardPc
  /-- Not constructed yet. -/
  | absent
  /-- Constructed, between two calls of its member functions. -/
  | idle (g : OptimisticLockGuard)
  /-- Inside `write_lock`, after a load that found the word even. -/
  | casPending (g : OptimisticLockGuard)
  deriving DecidableEq, Repr

/-- The lock word and all guards attached to it. -/
structure Lock where
  /-- The lock word. -/
  word : ℕ
  /-- The guards, by identity. -/
  guards : ℕ → GuardPc

/-- A fresh lock word, to which no guard is attached. -/
def Lock.init : Lock := ⟨0, fun _ => .absent⟩

/-- The atomic accesses a guard makes. -/
inductive Action
  | construct
  | readLock
  | writeLockLoad
  | writeLockCas
  | upgradeToWriteLock
  | validate
  | setSnapshotReadVersion (v : ℕ)
  | destroy
  deriving DecidableEq, Repr

/-- One step of a run: which guard acted, how, and what the member function returned (`true`
where it returns nothing). -/
structure Event where
  /-- The guard that acted. -/
  guard : ℕ
  /-- The access it made. -/
  action : Action
  /-- The Boolean it returned. -/
  result : Bool
  deriving DecidableEq, Repr

/-- The event by which a guard becomes the owner of the write lock. -/
def Event.Acquires (e : Event) : Prop :=
  (e.action = .writeLockCas ∨ e.action = .upgradeToWriteLock) ∧ e.result = true

/-- The event by which a guard takes note of the word while it is unlocked. -/
def Event.Reads (e : Event) : Prop :=
  e.action = .construct ∨ e.action = .readLock ∨ e.action = .writeLockLoad

namespace Lock

variable {s s' : Lock} {i : ℕ} {tr : List Event} {a : Action} {r : Bool}

/-- Replace the state of one guard. -/
def setGuard (s : Lock) (i : ℕ) (pc : GuardPc) : Lock :=
  { s with guards := update s.guards i pc }

/-- One atomic access by guard `i`, with the Boolean it returns.  `none` where the guard is
not in a state in which its class allows the call. -/
def step (s : Lock) (i : ℕ) : Action → Option (Lock × Bool)
  | .construct =>
    match s.guards i with
    | .absent => some (s.setGuard i (.idle (construct s.word)), true)
    | _ => none
  | .readLock =>
    match s.guards i with
    | .idle g =>
      if g.state = .uninitialized then
        let (r, g') := g.readLock s.word
        some (s.setGuard i (.idle g'), r)
      else none
    | _ => none
  | .writeLockLoad =>
    match s.guards i with
    | .idle g =>
      if g.state = .uninitialized then
        let (even, g') := g.writeLockLoad s.word
        some (s.setGuard i (if even then .casPending g' else .idle g'), even)
      else none
    | _ => none
  | .writeLockCas =>
    match s.guards i with
    | .casPending g =>
      let (r, w, g') := g.writeLockCas s.word
      some ({ s with word := w }.setGuard i (.idle g'), r)
    | _ => none
  | .upgradeToWriteLock =>
    match s.guards i with
    | .idle g =>
      if g.version % 2 = 0 ∧ g.state ≠ .moved then
        let (r, w, g') := g.upgradeToWriteLock s.word
        some ({ s with word := w }.setGuard i (.idle g'), r)
      else none
    | _ => none
  | .validate =>
    match s.guards i with
    | .idle g => if g.state ≠ .moved then some (s, g.validate s.word) else none
    | _ => none
  | .setSnapshotReadVersion v =>
    match s.guards i with
    | .idle g =>
      -- the one caller attaches the snapshot version to a guard it has just constructed
      if g.state = .uninitialized then
        some (s.setGuard i (.idle (g.setSnapshotReadVersion v)), true)
      else none
    | _ => none
  | .destroy =>
    match s.guards i with
    | .idle g =>
      if g.state ≠ .moved then
        let (w, g') := destroy s.word g
        some ({ s with word := w }.setGuard i (.idle { g' with state := .moved }), true)
      else none
    | _ => none

/-- Guard `i` owns the write lock. -/
def Holds (s : Lock) (i : ℕ) : Prop := ∃ v, s.guards i = .idle ⟨v, .writeLocked⟩

/-- An interleaving of steps of any number of guards, in which the word does not wrap. -/
inductive Run : Lock → List Event → Lock → Prop
  | nil (s : Lock) : Run s [] s
  | snoc {s s' s'' : Lock} {tr : List Event} {i : ℕ} {a : Action} {r : Bool} :
      Run s tr s' → s'.word + 1 < 2 ^ 64 → s'.step i a = some (s'', r) →
      Run s (tr ++ [⟨i, a, r⟩]) s''

/-! ## What one step can do -/

/-- The invariant of a lock word and its guards. -/
structure Inv (s : Lock) : Prop where
  /-- The owner of the lock remembers the current word, which is odd. -/
  owner : ∀ i v, s.guards i = .idle ⟨v, .writeLocked⟩ → v = s.word ∧ s.word % 2 = 1
  /-- There is at most one owner. -/
  unique : ∀ i j, s.Holds i → s.Holds j → i = j
  /-- An odd word has an owner. -/
  locked : s.word % 2 = 1 → ∃ i, s.Holds i
  /-- A guard about to exchange the word expects an even one. -/
  pending : ∀ i g, s.guards i = .casPending g → g.version % 2 = 0 ∧ g.state = .uninitialized

lemma inv_init : Inv init where
  owner := by simp [init]
  unique := by simp [init, Holds]
  locked := by simp [init]
  pending := by simp [init]

/-- Guard `i` takes the lock: the word was even and is now the odd version it remembers. -/
def Locks (s s' : Lock) (i : ℕ) : Prop :=
  s.word % 2 = 0 ∧
    s' = ⟨u64 (s.word + 1),
      update s.guards i (.idle ⟨u64 (s.word + 1), .writeLocked⟩)⟩

/-- Guard `i` gives the lock back. -/
def Unlocks (s s' : Lock) (i : ℕ) : Prop :=
  s.Holds i ∧ ∃ v, s' = ⟨u64 (s.word + 1), update s.guards i (.idle ⟨v, .moved⟩)⟩

/-- Guard `i` changes neither the word nor the ownership of the lock. -/
def Keeps (s s' : Lock) (i : ℕ) : Prop :=
  s' = s ∨ ¬s.Holds i ∧ ∃ pc, s' = s.setGuard i pc ∧
    (∀ v, pc ≠ .idle ⟨v, .writeLocked⟩) ∧
      ∀ g, pc = .casPending g → g.version % 2 = 0 ∧ g.state = .uninitialized

lemma not_holds_of_state {s : Lock} {g : OptimisticLockGuard}
    (hg : s.guards i = .idle g) (h : g.state ≠ .writeLocked) : ¬s.Holds i := by
  rintro ⟨v, hv⟩
  rw [hg] at hv
  obtain rfl : g = ⟨v, .writeLocked⟩ := by simpa using hv
  exact h rfl

lemma Inv.not_holds_of_even {s : Lock} (hs : s.Inv) (h : s.word % 2 = 0) (i : ℕ) :
    ¬s.Holds i := by
  rintro ⟨v, hv⟩
  have := (hs.owner i v hv).2
  omega

/-- **What one step can do**: take the lock, give it back, or leave the word and the ownership
alone; and the event says which. -/
lemma step_cases (hs : s.Inv) (h : s.step i a = some (s', r)) :
    (Event.Acquires ⟨i, a, r⟩ ∧ s.Locks s' i) ∨
      (¬Event.Acquires ⟨i, a, r⟩ ∧ (s.Unlocks s' i ∨ s.Keeps s' i)) := by
  rcases hpc : s.guards i with _ | g | g
  · -- only the constructor acts on an absent guard
    cases a <;> simp only [step, hpc, reduceCtorEq, some.injEq, Prod.mk.injEq] at h
    obtain ⟨rfl, rfl⟩ := h
    refine Or.inr ⟨by simp [Event.Acquires], Or.inr (Or.inr ⟨by simp [Holds, hpc], _, rfl, ?_, ?_⟩)⟩
    · simp [construct]
    · simp
  · cases a <;> simp only [step, hpc, reduceCtorEq] at h
    case readLock =>
      split_ifs at h with hst
      obtain ⟨rfl, rfl⟩ : s.setGuard i (.idle (g.readLock s.word).2) = s' ∧
          (g.readLock s.word).1 = r := by simpa using h
      refine Or.inr ⟨by simp [Event.Acquires], Or.inr (Or.inr
        ⟨not_holds_of_state hpc (by simp [hst]), _, rfl, ?_, by simp⟩)⟩
      intro v
      simp only [OptimisticLockGuard.readLock]
      split_ifs <;> simp [hst]
    case writeLockLoad =>
      have hno := not_holds_of_state hpc (by split_ifs at h with hst <;> simp [hst])
      split_ifs at h with hst heven <;> obtain ⟨rfl, rfl⟩ := Prod.mk.inj (some.inj h)
      · refine Or.inr ⟨by simp [Event.Acquires], Or.inr (Or.inr ⟨hno, _, rfl, by simp, ?_⟩)⟩
        intro g' hg'
        obtain rfl := GuardPc.casPending.inj hg'
        have hword : s.word % 2 ≠ 1 := by simpa [OptimisticLockGuard.writeLockLoad] using heven
        exact ⟨show s.word % 2 = 0 by omega, hst⟩
      · refine Or.inr ⟨by simp [Event.Acquires], Or.inr (Or.inr ⟨hno, _, rfl, ?_, by simp⟩)⟩
        simp [OptimisticLockGuard.writeLockLoad, hst]
    case upgradeToWriteLock =>
      split_ifs at h with hst
      by_cases hw : s.word = g.version
      · simp only [upgradeToWriteLock, acquire_of_eq hw, some.injEq, Prod.mk.injEq] at h
        obtain ⟨rfl, rfl⟩ := h
        exact Or.inl ⟨by simp [Event.Acquires], by omega, by simp [setGuard, hw]⟩
      simp only [upgradeToWriteLock, acquire_of_ne hw, some.injEq, Prod.mk.injEq] at h
      obtain ⟨rfl, rfl⟩ := h
      have hno : g.state ≠ .writeLocked := by
        intro hg
        have := hs.owner i g.version (by rw [hpc, ← hg])
        omega
      refine Or.inr ⟨by simp [Event.Acquires], Or.inr (Or.inr
        ⟨not_holds_of_state hpc hno, _, rfl, ?_, by simp⟩)⟩
      rintro v hv
      exact hno (by rw [GuardPc.idle.inj hv])
    case validate =>
      split_ifs at h with hst
      obtain ⟨rfl, -⟩ := Prod.mk.inj (some.inj h)
      exact Or.inr ⟨by simp [Event.Acquires], Or.inr (Or.inl rfl)⟩
    case setSnapshotReadVersion v =>
      split_ifs at h with hst
      obtain ⟨rfl, rfl⟩ := Prod.mk.inj (some.inj h)
      exact Or.inr ⟨by simp [Event.Acquires], Or.inr (Or.inr
        ⟨not_holds_of_state hpc (by simp [hst]), _, rfl,
          by simp [OptimisticLockGuard.setSnapshotReadVersion], by simp⟩)⟩
    case destroy =>
      split_ifs at h with hst
      obtain ⟨rfl, rfl⟩ := Prod.mk.inj (some.inj h)
      refine Or.inr ⟨by simp [Event.Acquires], ?_⟩
      by_cases hg : g.state = .writeLocked
      · refine Or.inl ⟨⟨g.version, by rw [hpc, ← hg]⟩, g.version, ?_⟩
        simp [OptimisticLockGuard.destroy, hg, setGuard]
      · refine Or.inr (Or.inr ⟨not_holds_of_state hpc hg, .idle ⟨g.version, .moved⟩, ?_, by simp,
          by simp⟩)
        simp [OptimisticLockGuard.destroy, hg, setGuard]
  · -- only the compare-and-swap of `write_lock` is left to a guard in the middle of it
    cases a <;> simp only [step, hpc, reduceCtorEq] at h
    obtain ⟨heven, hst⟩ := hs.pending i g hpc
    by_cases hw : s.word = g.version
    · simp only [writeLockCas, acquire_of_eq hw, some.injEq, Prod.mk.injEq] at h
      obtain ⟨rfl, rfl⟩ := h
      exact Or.inl ⟨by simp [Event.Acquires], by omega, by simp [setGuard, hw]⟩
    simp only [writeLockCas, acquire_of_ne hw, some.injEq, Prod.mk.injEq] at h
    obtain ⟨rfl, rfl⟩ := h
    refine Or.inr ⟨by simp [Event.Acquires], Or.inr (Or.inr
      ⟨by simp [Holds, hpc], _, rfl, ?_, by simp⟩)⟩
    rintro v hv
    rw [GuardPc.idle.inj hv] at hst
    simp at hst

/-! ## The invariant along a run -/

lemma holds_update_iff {w : ℕ} {guards : ℕ → GuardPc} {i j : ℕ} {pc : GuardPc} :
    Holds ⟨w, update guards i pc⟩ j ↔
      if j = i then ∃ v, pc = .idle ⟨v, .writeLocked⟩
      else ∃ v, guards j = .idle ⟨v, .writeLocked⟩ := by
  by_cases hj : j = i
  · subst hj
    simp [Holds]
  · simp [Holds, hj]

lemma Inv.locks (hs : s.Inv) (hw : s.word + 1 < 2 ^ 64) (h : s.Locks s' i) : s'.Inv := by
  obtain ⟨heven, rfl⟩ := h
  rw [u64_of_lt hw]
  have hfree : ∀ j v, s.guards j ≠ .idle ⟨v, .writeLocked⟩ := fun j v hv =>
    hs.not_holds_of_even heven j ⟨v, hv⟩
  refine ⟨fun j v hv => ?_, fun j k hj hk => ?_, fun _ => ⟨i, s.word + 1, by simp⟩,
    fun j g hg => ?_⟩
  · by_cases hji : j = i
    · subst hji
      obtain rfl : s.word + 1 = v := by simpa using hv
      exact ⟨rfl, show (s.word + 1) % 2 = 1 by omega⟩
    · exact absurd (by simpa [hji] using hv) (hfree j v)
  · rw [holds_update_iff] at hj hk
    split_ifs at hj hk with h1 h2 h2
    · rw [h1, h2]
    · exact absurd hk.choose_spec (hfree k _)
    · exact absurd hj.choose_spec (hfree j _)
    · exact absurd hj.choose_spec (hfree j _)
  · by_cases hji : j = i
    · subst hji
      simp at hg
    · exact hs.pending j g (by simpa [hji] using hg)

lemma Inv.unlocks (hs : s.Inv) (hw : s.word + 1 < 2 ^ 64) (h : s.Unlocks s' i) : s'.Inv := by
  obtain ⟨hi, v, rfl⟩ := h
  rw [u64_of_lt hw]
  obtain ⟨u, hu⟩ := hi
  have hodd : s.word % 2 = 1 := (hs.owner i u hu).2
  have hfree : ∀ j, j ≠ i → ∀ w, s.guards j ≠ .idle ⟨w, .writeLocked⟩ := fun j hji w hw' =>
    hji (hs.unique j i ⟨w, hw'⟩ ⟨u, hu⟩)
  refine ⟨fun j w hjw => ?_, fun j k hj hk => ?_, fun hw' => absurd hw' (by simp; omega),
    fun j g hg => ?_⟩
  · by_cases hji : j = i
    · subst hji
      simp at hjw
    · exact absurd (by simpa [hji] using hjw) (hfree j hji w)
  · rw [holds_update_iff] at hj
    split_ifs at hj with h1
    · simp at hj
    · exact absurd hj.choose_spec (hfree j h1 _)
  · by_cases hji : j = i
    · subst hji
      simp at hg
    · exact hs.pending j g (by simpa [hji] using hg)

lemma Keeps.word_eq (h : s.Keeps s' i) : s'.word = s.word := by
  rcases h with rfl | ⟨-, pc, rfl, -, -⟩ <;> rfl

lemma Keeps.holds_iff (h : s.Keeps s' i) (j : ℕ) :
    s'.Holds j ↔ s.Holds j := by
  rcases h with rfl | ⟨hno, pc, rfl, hpc, -⟩
  · rfl
  rw [setGuard, holds_update_iff]
  split_ifs with hji
  · subst hji
    exact ⟨fun ⟨v, hv⟩ => absurd hv (hpc v), fun hj => absurd hj hno⟩
  · rfl

lemma Inv.keeps (hs : s.Inv) (h : s.Keeps s' i) : s'.Inv := by
  have hword := h.word_eq
  have hholds := h.holds_iff
  refine ⟨fun j v hv => ?_, fun j k hj hk => ?_, fun hw => ?_, fun j g hg => ?_⟩
  · rcases h with rfl | ⟨-, pc, rfl, hpc, -⟩
    · exact hs.owner j v hv
    · by_cases hji : j = i
      · subst hji
        exact absurd (by simpa [setGuard] using hv) (hpc v)
      · exact hs.owner j v (by simpa [setGuard, hji] using hv)
  · exact hs.unique j k ((hholds j).1 hj) ((hholds k).1 hk)
  · obtain ⟨j, hj⟩ := hs.locked (hword ▸ hw)
    exact ⟨j, (hholds j).2 hj⟩
  · rcases h with rfl | ⟨-, pc, rfl, -, hpc⟩
    · exact hs.pending j g hg
    · by_cases hji : j = i
      · subst hji
        exact hpc g (by simpa [setGuard] using hg)
      · exact hs.pending j g (by simpa [setGuard, hji] using hg)

/-- **One step keeps the invariant.** -/
lemma Inv.step (hs : s.Inv)
    (hw : s.word + 1 < 2 ^ 64) (h : s.step i a = some (s', r)) : s'.Inv := by
  rcases step_cases hs h with ⟨-, hl⟩ | ⟨-, hu | hk⟩
  · exact hs.locks hw hl
  · exact hs.unlocks hw hu
  · exact hs.keeps hk

/-- A step that does not change the word keeps the invariant, however large the word is. -/
lemma Inv.step_of_word_eq (hs : s.Inv)
    (h : s.step i a = some (s', r)) (hword : s'.word = s.word) : s'.Inv := by
  rcases step_cases hs h with ⟨-, -, rfl⟩ | ⟨-, ⟨-, v, rfl⟩ | hk⟩
  · simp only [u64] at hword
    omega
  · simp only [u64] at hword
    omega
  · exact hs.keeps hk

/-- **The invariant holds along every run.** -/
lemma Run.inv (h : Run s tr s') (hs : s.Inv) : s'.Inv := by
  induction h with
  | nil => exact hs
  | snoc _ hw hstep ih => exact ih.step hw hstep

/-! ## What the version arithmetic says about the past -/

/-- **The word tells who took the lock since.**  Seen from a moment at which the word was an
even `v`, the word has not decreased; it is still `v` only if nobody took the lock since, and
`v + 1` only if nobody but its present owner did. -/
lemma Run.acquisitions (h : Run s tr s') (hs : s.Inv) (heven : s.word % 2 = 0) :
    s.word ≤ s'.word ∧ (s'.word = s.word → ∀ e ∈ tr, ¬e.Acquires) ∧
      (s'.word = s.word + 1 → ∀ e ∈ tr, e.Acquires → s'.Holds e.guard) := by
  induction h with
  | nil => simp
  | @snoc s₁ s₂ tr i a r hrun hw hstep ih =>
    obtain ⟨hle, hsame, hnext⟩ := ih
    have hinv := hrun.inv hs
    have hmem : ∀ {P : Event → Prop}, (∀ e ∈ tr, P e) → P ⟨i, a, r⟩ →
        ∀ e ∈ tr ++ [⟨i, a, r⟩], P e := by
      intro P hP hlast e he
      rcases List.mem_append.1 he with he | he
      · exact hP e he
      · rw [List.mem_singleton.1 he]
        exact hlast
    rcases step_cases hinv hstep with ⟨hacq, heven', rfl⟩ | ⟨hacq, ⟨hown, v, rfl⟩ | hkeep⟩
    · -- the lock is taken: the word was even, so it is `v + 1` only if it was `v` before
      simp only [u64_of_lt hw]
      refine ⟨by omega, by omega, fun hw' => hmem ?_ ?_⟩
      · intro e he hea
        exact absurd hea (hsame (by omega) e he)
      · intro _
        exact ⟨_, update_self ..⟩
    · -- the lock is given back: the word was odd, so it is now at least `v + 2`
      obtain ⟨u, hu⟩ := hown
      have hodd := (hinv.owner i u hu).2
      simp only [u64_of_lt hw]
      exact ⟨by omega, by omega, by omega⟩
    · rw [hkeep.word_eq]
      refine ⟨hle, fun hw' => hmem (hsame hw') hacq, fun hw' => hmem ?_ (absurd · hacq)⟩
      intro e he hea
      exact (hkeep.holds_iff e.guard).2 (hnext hw' e he hea)

/-- A guard that read-locked the word at version `v` keeps that version until it upgrades, and
then owns the lock at `v + 1` until it is destroyed. -/
def ReadAt (s : Lock) (i v : ℕ) : Prop :=
  s.guards i = .idle ⟨v, .readLocked⟩ ∨ s.guards i = .idle ⟨v + 1, .writeLocked⟩ ∨
    ∃ u, s.guards i = .idle ⟨u, .moved⟩

lemma step_other {i j : ℕ} (hs : s.Inv)
    (h : s.step j a = some (s', r)) (hij : i ≠ j) : s'.guards i = s.guards i := by
  rcases step_cases hs h with ⟨-, -, rfl⟩ | ⟨-, ⟨-, v, rfl⟩ | rfl | ⟨-, pc, rfl, -⟩⟩ <;>
    simp [setGuard, hij]

lemma ReadAt.step {i j v : ℕ} (hi : s.ReadAt i v)
    (hs : s.Inv) (hw : s.word + 1 < 2 ^ 64) (h : s.step j a = some (s', r)) :
    s'.ReadAt i v := by
  by_cases hij : i = j
  · subst hij
    rcases hi with hi | hi | ⟨u, hi⟩
    · -- a read-locked guard can upgrade, validate or go
      cases a <;> simp only [Lock.step, hi, reduceCtorEq, if_false] at h
      case upgradeToWriteLock =>
        split_ifs at h with hst
        by_cases hv : s.word = v
        · simp only [upgradeToWriteLock, acquire_of_eq (g := ⟨v, .readLocked⟩) hv,
            some.injEq, Prod.mk.injEq] at h
          obtain ⟨rfl, -⟩ := h
          exact Or.inr (Or.inl (by simp [setGuard, u64_of_lt (hv ▸ hw)]))
        · simp only [upgradeToWriteLock, acquire_of_ne (g := ⟨v, .readLocked⟩) hv,
            some.injEq, Prod.mk.injEq] at h
          obtain ⟨rfl, -⟩ := h
          exact Or.inl (by simp [setGuard])
      case validate =>
        obtain ⟨rfl, -⟩ : s = s' ∧ _ := by simpa using h
        exact Or.inl hi
      case destroy =>
        obtain ⟨rfl, -⟩ := Prod.mk.inj (some.inj (by simpa using h))
        exact Or.inr (Or.inr ⟨v, by simp [setGuard, destroy_readLocked]⟩)
    · -- the owner of the lock can validate or go: its version is odd
      have hodd := hs.owner i _ hi
      cases a <;> simp only [Lock.step, hi, reduceCtorEq, if_false] at h
      case upgradeToWriteLock =>
        split_ifs at h with hst
        omega
      case validate =>
        obtain ⟨rfl, -⟩ : s = s' ∧ _ := by simpa using h
        exact Or.inr (Or.inl hi)
      case destroy =>
        obtain ⟨rfl, -⟩ := Prod.mk.inj (some.inj (by simpa using h))
        exact Or.inr (Or.inr ⟨v + 1, by simp [setGuard, destroy_writeLocked]⟩)
    · cases a <;> simp [Lock.step, hi] at h
  · simpa [ReadAt, step_other hs h hij] using hi

lemma Run.readAt {i v : ℕ} (h : Run s tr s') (hs : s.Inv) (hi : s.ReadAt i v) : s'.ReadAt i v := by
  induction h with
  | nil => exact hi
  | snoc hrun hw hstep ih => exact ih.step (hrun.inv hs) hw hstep

lemma Run.word_le (h : Run s tr s') (hs : s.Inv) :
    s.word ≤ s'.word := by
  induction h with
  | nil => exact le_rfl
  | snoc hrun hw hstep ih =>
    rcases step_cases (hrun.inv hs) hstep with ⟨-, -, rfl⟩ | ⟨-, ⟨-, v, rfl⟩ | hkeep⟩
    · simp only [u64_of_lt hw]
      omega
    · simp only [u64_of_lt hw]
      omega
    · rwa [hkeep.word_eq]

lemma Run.word_lt (h : Run s tr s') (hs : s.Inv) (hlt : s.word < 2 ^ 64) : s'.word < 2 ^ 64 := by
  induction h with
  | nil => exact hlt
  | snoc hrun hw hstep ih =>
    rcases step_cases (hrun.inv hs) hstep with ⟨-, -, rfl⟩ | ⟨-, ⟨-, v, rfl⟩ | hkeep⟩
    · exact Nat.mod_lt _ (by norm_num)
    · exact Nat.mod_lt _ (by norm_num)
    · rwa [hkeep.word_eq]

/-- While the word does not change, the lock does not change hands. -/
lemma Run.holds_of_word_eq (h : Run s tr s') (hs : s.Inv)
    (hword : s'.word = s.word) (hi : s.Holds i) : s'.Holds i := by
  induction h with
  | nil => exact hi
  | snoc hrun hw hstep ih =>
    have hle := hrun.word_le hs
    rcases step_cases (hrun.inv hs) hstep with ⟨-, -, rfl⟩ | ⟨-, ⟨-, v, rfl⟩ | hkeep⟩
    · simp only [u64_of_lt hw] at hword
      omega
    · simp only [u64_of_lt hw] at hword
      omega
    · exact (hkeep.holds_iff i).2 (ih (hkeep.word_eq ▸ hword))

/-- The version a guard object remembers. -/
def version? (s : Lock) (i : ℕ) : Option ℕ :=
  match s.guards i with
  | .absent => none
  | .idle g => some g.version
  | .casPending g => some g.version

/-- An access that takes note of the word stores it in the guard and changes nothing else. -/
lemma step_reads (ha : Event.Reads ⟨i, a, r⟩)
    (h : s.step i a = some (s', r)) : s'.word = s.word ∧ s'.version? i = some s.word := by
  rcases ha with rfl | rfl | rfl <;> rcases hpc : s.guards i with _ | g | g <;>
    simp only [step, hpc, reduceCtorEq, some.injEq, Prod.mk.injEq] at h
  · obtain ⟨rfl, -⟩ := h
    simp [setGuard, version?, construct]
  · split_ifs at h
    obtain ⟨rfl, -⟩ := Prod.mk.inj (some.inj h)
    simp only [setGuard, version?, update_self, OptimisticLockGuard.readLock]
    split_ifs <;> simp
  · split_ifs at h <;> obtain ⟨rfl, -⟩ := Prod.mk.inj (some.inj h) <;>
      simp [setGuard, version?, OptimisticLockGuard.writeLockLoad]

/-- A successful `read_lock` attaches the guard to the even word it read. -/
lemma step_readLock_true (h : s.step i .readLock = some (s', true)) :
    s.word % 2 = 0 ∧ s'.word = s.word ∧ s'.ReadAt i s.word := by
  rcases hpc : s.guards i with _ | g | g <;> simp only [step, hpc, reduceCtorEq] at h
  split_ifs at h
  obtain ⟨rfl, hr⟩ := Prod.mk.inj (some.inj h)
  have heven : s.word % 2 = 0 := by
    simp only [OptimisticLockGuard.readLock] at hr
    split_ifs at hr with heven
    exact heven
  exact ⟨heven, rfl, Or.inl (by simp [setGuard, readLock_of_even g heven])⟩

/-- A guard whose `validate` or upgrade succeeds found the word at the version it remembers. -/
lemma word_of_success {i v : ℕ} (hs : s.Inv) (hi : s.ReadAt i v)
    (ha : a = .validate ∨ a = .upgradeToWriteLock) (h : s.step i a = some (s', true)) :
    s.word = v ∨ s.word = v + 1 ∧ s.Holds i := by
  rcases hi with hi | hi | ⟨u, hi⟩
  · refine Or.inl ?_
    rcases ha with rfl | rfl
    · simp only [step, hi, validate] at h
      exact (by simpa using h : s = s' ∧ s.word = v).2
    simp only [step, hi] at h
    split_ifs at h
    by_contra hne
    simp only [upgradeToWriteLock, acquire_of_ne (g := ⟨v, .readLocked⟩) hne] at h
    simp at h
  · exact Or.inr ⟨((hs.owner i _ hi).1).symm, _, hi⟩
  · rcases ha with rfl | rfl <;> simp [step, hi] at h

lemma holder_version {s : Lock} {g : OptimisticLockGuard} (hg : s.guards i = .idle g)
    (hst : g.state = .writeLocked) (hs : s.Inv) : g.version = s.word ∧ s.word % 2 = 1 :=
  hs.owner i g.version (by rw [hg, ← hst])

/-! ## The guarantees of the lock manager -/

/-- **Guards exclude each other and detect each other's writes.**  In every interleaving of
any number of guards on one word:

* at most one guard owns the write lock, and the word is odd exactly while one does;
* if a guard's `validate`, or its upgrade, succeeds, no other guard has taken the write lock
  since that guard's `read_lock`;
* if `more_than_one_writer_since v` of a guard that owns the lock answers `false`, for a `v`
  that some guard read while the word was unlocked, no other guard has taken the lock since
  `v` was read, and none has held it in any state in between. -/
theorem guards_exclude_and_detect_writers :
    (∀ {tr s}, Run init tr s →
      (∀ i j, s.Holds i → s.Holds j → i = j) ∧ (s.word % 2 = 1 ↔ ∃ i, s.Holds i)) ∧
    (∀ {tr₁ tr₂ s₁ s₂ s₃ s₄ i a}, Run init tr₁ s₁ → s₁.step i .readLock = some (s₂, true) →
      Run s₂ tr₂ s₃ → (a = .validate ∨ a = .upgradeToWriteLock) →
      s₃.step i a = some (s₄, true) → ∀ e ∈ tr₂, e.Acquires → e.guard = i) ∧
    (∀ {tr₁ tr₂ s₁ s₂ s₃ i j a r g v}, Run init tr₁ s₁ → s₁.step j a = some (s₂, r) →
      Event.Reads ⟨j, a, r⟩ → s₂.version? j = some v → v % 2 = 0 → Run s₂ tr₂ s₃ →
      s₃.guards i = .idle g → g.state = .writeLocked →
      g.moreThanOneWriterSince v = false →
      (∀ e ∈ tr₂, e.Acquires → e.guard = i) ∧
        ∀ tr tr' s, tr₂ = tr ++ tr' → Run s₂ tr s → Run s tr' s₃ → ∀ k, s.Holds k → k = i) := by
  refine ⟨?_, ?_, ?_⟩
  · intro tr s hrun
    have hs := hrun.inv inv_init
    exact ⟨hs.unique, hs.locked, fun ⟨i, v, hv⟩ => (hs.owner i v hv).2⟩
  · intro tr₁ tr₂ s₁ s₂ s₃ s₄ i a hrun₁ hread hrun₂ ha hstep e he hea
    obtain ⟨heven, hword, hat⟩ := step_readLock_true hread
    have hs₂ : s₂.Inv := (hrun₁.inv inv_init).step_of_word_eq hread hword
    obtain ⟨-, hsame, hnext⟩ := hrun₂.acquisitions hs₂ (hword ▸ heven)
    have hs₃ := hrun₂.inv hs₂
    rcases word_of_success hs₃ (hrun₂.readAt hs₂ hat) ha hstep with hw | ⟨hw, hown⟩
    · exact absurd hea (hsame (hw.trans hword.symm) e he)
    · exact hs₃.unique _ _ (hnext (by rw [hw, hword]) e he hea) hown
  · intro tr₁ tr₂ s₁ s₂ s₃ i j a r g v hrun₁ hread hreads hver heven hrun₂ hg hst hmore
    obtain ⟨hword, hv⟩ := step_reads hreads hread
    obtain rfl : s₁.word = v := by simpa [hv] using hver
    have hs₁ := hrun₁.inv inv_init
    have hs₂ : s₂.Inv := hs₁.step_of_word_eq hread hword
    have hs₃ := hrun₂.inv hs₂
    obtain ⟨hle, -, hnext⟩ := hrun₂.acquisitions hs₂ (hword ▸ heven)
    obtain ⟨hgw, hodd⟩ := holder_version hg hst hs₃
    have hlt : s₃.word < 2 ^ 64 :=
      hrun₂.word_lt hs₂ (hword ▸ hrun₁.word_lt inv_init (by simp [init]))
    have hw : s₃.word = s₂.word + 1 := by
      simp only [OptimisticLockGuard.moreThanOneWriterSince, u64Sub, hgw,
        decide_eq_false_iff_not, not_lt] at hmore
      omega
    have hown : s₃.Holds i := ⟨g.version, by rw [hg, ← hst]⟩
    refine ⟨fun e he hea => hs₃.unique _ _ (hnext hw e he hea) hown, ?_⟩
    intro tr tr' s _ hrun hrun' k hk
    have hs := hrun.inv hs₂
    obtain ⟨w, hkw⟩ := hk
    have hkodd := (hs.owner k w hkw).2
    have hle₁ := hrun.word_le hs₂
    have hle₂ := hrun'.word_le hs
    exact hs₃.unique _ _ (hrun'.holds_of_word_eq hs (by omega) ⟨w, hkw⟩) hown

/-- The three guarantees on one concrete run: guard `0` read-locks the fresh word, guard `1` is
constructed and reads version `0`, and guard `0` upgrades. -/
theorem guards_exclude_and_detect_writers_upgrade :
    ∃ s₁ s₂ s₃ s₄, Run init [⟨0, .construct, true⟩] s₁ ∧
      s₁.step 0 .readLock = some (s₂, true) ∧ Run s₂ [⟨1, .construct, true⟩] s₃ ∧
      s₃.step 0 .upgradeToWriteLock = some (s₄, true) ∧ s₄.Holds 0 ∧
      (∀ i j, s₄.Holds i → s₄.Holds j → i = j) ∧ (s₄.word % 2 = 1 ↔ ∃ i, s₄.Holds i) ∧
      (∀ e ∈ [(⟨1, .construct, true⟩ : Event)], e.Acquires → e.guard = 0) ∧
      ∀ e ∈ [(⟨0, .upgradeToWriteLock, true⟩ : Event)], e.Acquires → e.guard = 0 := by
  let s₁ : Lock := init.setGuard 0 (.idle ⟨0, .uninitialized⟩)
  let s₂ : Lock := s₁.setGuard 0 (.idle ⟨0, .readLocked⟩)
  let s₃ : Lock := s₂.setGuard 1 (.idle ⟨0, .uninitialized⟩)
  let s₄ : Lock := { s₃ with word := 1 }.setGuard 0 (.idle ⟨1, .writeLocked⟩)
  have hconstruct : init.step 0 .construct = some (s₁, true) := rfl
  have hread : s₁.step 0 .readLock = some (s₂, true) := rfl
  have hother : s₂.step 1 .construct = some (s₃, true) := rfl
  have hupgrade : s₃.step 0 .upgradeToWriteLock = some (s₄, true) := rfl
  have hrun₁ := (Run.nil init).snoc (by decide) hconstruct
  have hrun₂ := hrun₁.snoc (by decide) hread
  have hrun := (hrun₂.snoc (by decide) hother).snoc (by decide) hupgrade
  have hrun₃ := (Run.nil s₂).snoc (by decide) hother
  have hrun₄ := (Run.nil s₃).snoc (by decide) hupgrade
  obtain ⟨hunique, hodd⟩ := guards_exclude_and_detect_writers.1 hrun
  have hsince := guards_exclude_and_detect_writers.2.2 hrun₂ hother (Or.inl rfl) rfl rfl hrun₄
    (i := 0) rfl rfl (by decide)
  exact ⟨s₁, s₂, s₃, s₄, hrun₁, hread, hrun₃, hupgrade, ⟨1, rfl⟩, hunique, hodd,
    guards_exclude_and_detect_writers.2.1 hrun₁ hread hrun₃ (Or.inr rfl) hupgrade, hsince.1⟩

end Lock

end TwoTree.LockManager
