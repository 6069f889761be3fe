import TwoTree.Units

/-!
# Optimistic lock guards

`LockManager.hpp` keeps a table of 64-bit lock words.  A word that is even is unlocked and
doubles as a version number; taking the write lock makes it odd, releasing it makes it even
again, so the word never returns to an earlier value short of wrapping around.  A guard is the
handle of one critical section on one word: it remembers the version it read and whether it
currently owns the lock.

The definitions of this file are the member functions of `OptimisticLockGuard`, each as a
function of the one word the guard is attached to.  A member function that touches the word
more than once is split at the atomic accesses: `write_lock` is a load (`writeLockLoad`)
followed by a compare-and-swap (`writeLockCas`).  `writeLock` is their composition for a
thread that runs alone.

The member functions assert the guard state they expect (`read_lock` and `write_lock` an
uninitialised guard, `upgrade_to_write_lock` an even version).  The assertions are the
contract of the class, and `LockManager.Protocol` imposes them on the guards it runs.
-/

namespace TwoTree.LockManager

/-- The number of lock words in a table. -/
def kLockWords : ℕ := 131071

/-- The word a hash is mapped to. -/
def wordPos (hash : ℕ) : ℕ := hash % kLockWords

/-- `OptimisticLockState`. -/
inductive OptimisticLockState
  | uninitialized
  | readLocked
  | writeLocked
  | moved
  deriving DecidableEq, Repr

/-- The lock words of an `OptimisticLockTable`; all of them start at zero. -/
abbrev OptimisticLockTable := ℕ → ℕ

/-- The table a constructor leaves behind. -/
def OptimisticLockTable.init : OptimisticLockTable := fun _ => 0

/-- The data of an `OptimisticLockGuard`, the word position apart. -/
structure OptimisticLockGuard where
  /-- The version the guard read last, or the locked word while it owns the lock. -/
  version : ℕ
  /-- What the guard has done so far. -/
  state : OptimisticLockState
  deriving DecidableEq, Repr

/-- `compare_exchange_strong`: whether the exchange took place, and the word afterwards. -/
def compareExchangeStrong (word expected desired : ℕ) : Bool × ℕ :=
  if word = expected then (true, desired) else (false, word)

namespace OptimisticLockGuard

variable {word : ℕ}

/-- The constructor reads the word once. -/
def construct (word : ℕ) : OptimisticLockGuard := ⟨word, .uninitialized⟩

/-- `read_lock`: succeeds when the word is even. -/
def readLock (word : ℕ) (g : OptimisticLockGuard) : Bool × OptimisticLockGuard :=
  if word % 2 = 0 then (true, ⟨word, .readLocked⟩) else (false, ⟨word, g.state⟩)

/-- The load at the start of `write_lock`: gives up when the word is odd. -/
def writeLockLoad (word : ℕ) (g : OptimisticLockGuard) : Bool × OptimisticLockGuard :=
  (word % 2 ≠ 1, ⟨word, g.state⟩)

/-- The compare-and-swap both `write_lock` and `upgrade_to_write_lock` end with: exchange the
version the guard remembers for its successor. -/
def acquire (word : ℕ) (g : OptimisticLockGuard) : Bool × ℕ × OptimisticLockGuard :=
  let (exchanged, word') := compareExchangeStrong word g.version (u64 (g.version + 1))
  if exchanged then (true, word', ⟨u64 (g.version + 1), .writeLocked⟩) else (false, word', g)

/-- The compare-and-swap at the end of `write_lock`. -/
def writeLockCas (word : ℕ) (g : OptimisticLockGuard) : Bool × ℕ × OptimisticLockGuard :=
  acquire word g

/-- `upgrade_to_write_lock`. -/
def upgradeToWriteLock (word : ℕ) (g : OptimisticLockGuard) : Bool × ℕ × OptimisticLockGuard :=
  acquire word g

/-- `write_lock`, run without interruption. -/
def writeLock (word : ℕ) (g : OptimisticLockGuard) : Bool × ℕ × OptimisticLockGuard :=
  let (even, g') := writeLockLoad word g
  if even then writeLockCas word g' else (false, word, g')

/-- `more_than_one_writer_since`. -/
def moreThanOneWriterSince (g : OptimisticLockGuard) (v : ℕ) : Bool := u64Sub g.version v > 1

/-- `validate`: the word still is the version the guard remembers. -/
def validate (word : ℕ) (g : OptimisticLockGuard) : Bool := word == g.version

/-- `set_snapshot_read_version`: the guard continues from a version somebody read earlier. -/
def setSnapshotReadVersion (v : ℕ) (_ : OptimisticLockGuard) : OptimisticLockGuard :=
  ⟨v, .readLocked⟩

/-- The destructor: a guard that owns the lock releases it by a `fetch_add`. -/
def destroy (word : ℕ) (g : OptimisticLockGuard) : ℕ × OptimisticLockGuard :=
  if g.state = .writeLocked then (u64 (word + 1), ⟨g.version, .moved⟩) else (word, g)

/-! ## What each member function does -/

lemma readLock_of_even (g : OptimisticLockGuard) (h : word % 2 = 0) :
    g.readLock word = (true, ⟨word, .readLocked⟩) := if_pos h

lemma readLock_of_odd (g : OptimisticLockGuard) (h : word % 2 = 1) :
    g.readLock word = (false, ⟨word, g.state⟩) := if_neg (by omega)

lemma acquire_of_eq {g : OptimisticLockGuard} (h : word = g.version) :
    g.acquire word = (true, u64 (g.version + 1), ⟨u64 (g.version + 1), .writeLocked⟩) := by
  simp [acquire, compareExchangeStrong, h]

lemma acquire_of_ne {g : OptimisticLockGuard} (h : word ≠ g.version) :
    g.acquire word = (false, word, g) := by
  simp [acquire, compareExchangeStrong, h]

/-- A thread that runs alone and finds the word even gets the lock at the first attempt. -/
lemma writeLock_of_even (g : OptimisticLockGuard) (h : word % 2 = 0) :
    g.writeLock word = (true, u64 (word + 1), ⟨u64 (word + 1), .writeLocked⟩) := by
  have hne : word % 2 ≠ 1 := by omega
  simp [writeLock, writeLockLoad, writeLockCas, hne, acquire_of_eq]

lemma destroy_readLocked (word version : ℕ) :
    destroy word ⟨version, .readLocked⟩ = (word, ⟨version, .readLocked⟩) := rfl

lemma destroy_writeLocked (word version : ℕ) :
    destroy word ⟨version, .writeLocked⟩ = (u64 (word + 1), ⟨version, .moved⟩) := rfl

/-- Releasing an even word that was just write-locked leaves it even. -/
lemma even_release_acquire (h : word % 2 = 0) :
    u64 (u64 (word + 1) + 1) % 2 = 0 := by
  simp only [u64]
  omega

end OptimisticLockGuard

end TwoTree.LockManager
