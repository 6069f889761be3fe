import TwoTree.LockManager.Guard

/-!
# Lock tables, by a thread that runs alone

The adapters take the lock word of a key through a guard on their `OptimisticLockTable`.  A
thread that runs alone finds every word even between its operations (`Unlocked`): it gets each
lock at the first attempt, and leaves the table unlocked when the guard is destroyed.  A loop
that would spin on a locked word runs out of fuel and gives `none`.
-/

namespace TwoTree.LockManager

open OptimisticLockGuard

namespace OptimisticLockTable

variable (t : OptimisticLockTable)

/-- The lock word of a key. -/
def word (k : ℕ) : ℕ := t (wordPos k)

/-- Store the lock word of a key. -/
def setWord (k w : ℕ) : OptimisticLockTable := Function.update t (wordPos k) w

/-- The destructor of a guard on the word of `k`. -/
def release (k : ℕ) (g : OptimisticLockGuard) : OptimisticLockTable :=
  t.setWord k (g.destroy (t.word k)).1

/-- `while (g.write_lock() == false);` by a thread that runs alone. -/
def spinWriteLock : ℕ → OptimisticLockTable → ℕ → OptimisticLockGuard →
    Option (OptimisticLockTable × OptimisticLockGuard)
  | 0, _, _, _ => none
  | fuel + 1, t, k, g =>
    let (locked, w, g') := g.writeLock (t.word k)
    if locked then some (t.setWord k w, g') else spinWriteLock fuel (t.setWord k w) k g'

/-- No lock word is write-locked. -/
def Unlocked : Prop := ∀ i, t i % 2 = 0

variable {t : OptimisticLockTable} {k : ℕ}

@[simp] lemma word_setWord (t : OptimisticLockTable) (k w : ℕ) : (t.setWord k w).word k = w := by
  simp [word, setWord]

lemma release_readLocked (t : OptimisticLockTable) (k version : ℕ) :
    t.release k ⟨version, .readLocked⟩ = t := by
  simp [release, destroy_readLocked, setWord, word]

lemma unlocked_init : Unlocked init := fun _ => rfl

lemma Unlocked.word (h : t.Unlocked) (k : ℕ) : t.word k % 2 = 0 := h _

/-- A guard that took the write lock of an unlocked table and releases it leaves the table
unlocked. -/
lemma Unlocked.release (h : t.Unlocked) (k version : ℕ) :
    ((t.setWord k (u64 (t.word k + 1))).release k ⟨version, .writeLocked⟩).Unlocked := by
  intro i
  simp only [OptimisticLockTable.release, destroy_writeLocked, word_setWord]
  by_cases hi : i = wordPos k
  · subst hi
    simpa [setWord] using even_release_acquire (h.word k)
  · simpa [setWord, hi] using h i

/-- **A thread that runs alone gets the lock at the first attempt.** -/
lemma Unlocked.spinWriteLock (h : t.Unlocked) (fuel k : ℕ) (g : OptimisticLockGuard) :
    t.spinWriteLock (fuel + 1) k g =
      some (t.setWord k (u64 (t.word k + 1)), ⟨u64 (t.word k + 1), .writeLocked⟩) := by
  simp [OptimisticLockTable.spinWriteLock, writeLock_of_even _ (h.word k)]

end OptimisticLockTable

end TwoTree.LockManager
