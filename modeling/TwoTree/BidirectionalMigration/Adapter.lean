import TwoTree.ConcurrentTwoBTree.Threads
import TwoTree.Lib.Interleaving
import TwoTree.Lib.Levels
import TwoTree.LockManager.Table

/-!
# The adapter that migrates records of one LSM tree up and down

`BidirectionalMigrationRocksDBAdapter` works on a single RocksDB instance.  A `lookup` may write the
record it has found once more, so that it moves to the top of the tree, and a flush may write the
records it meets once more instead of letting them go down.  Both take the lock word of the key
first, and both do so only if the word is still what it was when the record was read: a `lookup`
reads the word itself, and for a flush the whole lock table is copied when its memtable is switched.
An `update` writes under the lock of its key, a `put` or `insert` without it.

The instance is a stack of tables, the memtables and the files they have been flushed to, numbered
from the bottom; `active` is the memtable that takes the writes, and the ones below are immutable.
A flush takes the oldest memtables that no flush has taken yet, calls its callback on the newest
record of each of their keys, and leaves out the records the callback has written elsewhere.

One step of a thread is one `Get` or `Put`, one load or compare-and-swap of a lock word, the
destructor of a guard, or the switch of a memtable with its copy of the lock table.  Whether a
`lookup` migrates, which depends on I/O and on random draws, whether a flush has used up its budget,
and whether RocksDB throttles the `Put` of a flush, is left to `Choices`.
-/

namespace TwoTree.BidirectionalMigration

open Std Lib Lib.Levels LockManager ConcurrentTwoBTree

variable {V : Type*}

/-- `TaggedPayload`, the record of the tree. -/
structure TaggedPayload (V : Type*) where
  payload : V
  ref : Bool
  migrated : Bool
  deriving DecidableEq, Repr

/-- The state the threads share. -/
structure Adapter (V : Type*) where
  lockTable : OptimisticLockTable
  tables : ℕ → TreeMap ℕ (TaggedPayload V)
  active : ℕ
  /-- `lock_table_snapshots`: the copy made when the memtable of the same number was switched.  The
  queue holds those from `picked` on. -/
  lockTableSnapshots : ℕ → OptimisticLockTable
  /-- The number of memtables that flushes have taken. -/
  picked : ℕ
  /-- Whether a table is a file by now. -/
  flushed : ℕ → Bool

/-- The calls of a thread. -/
inductive Call (V : Type*)
  | lookup (k : ℕ)
  | insert (k : ℕ) (v : V)
  | update (k : ℕ) (v : V)
  | put (k : ℕ) (v : V)
  | memtableSwitch
  | flush (numMemtables : ℕ)
  deriving DecidableEq, Repr

/-- What the environment decides in a step. -/
structure Choices where
  /-- A lookup migrates what it has found. -/
  migrate : Bool
  /-- The flush has migrated as many bytes as it may. -/
  budgetUsed : Bool
  /-- The `Put` of a flush is `Incomplete`. -/
  throttled : Bool
  deriving DecidableEq, Repr

/-- A flush: the memtables it has taken, the lock table of its context, and the keys it leaves
out. -/
structure Flush where
  first : ℕ
  num : ℕ
  table : OptimisticLockTable
  dropped : List ℕ

/-- Where a thread stands in its call. -/
inductive Pc (V : Type*)
  /-- Between two calls. -/
  | idle
  /-- In the loop of `lookup`, or of `update`: before `read_lock`. -/
  | readLock (call : Call V) (k : ℕ)
  /-- In `lookup_internal`: before the `Get`. -/
  | getting (call : Call V) (k : ℕ) (g : OptimisticLockGuard)
  | upgrading (call : Call V) (k : ℕ) (g : OptimisticLockGuard) (v : V)
  /-- Before the `Put` of a migration. -/
  | migrating (call : Call V) (k : ℕ) (g : OptimisticLockGuard) (v : V)
  | validating (call : Call V) (k : ℕ) (g : OptimisticLockGuard)
  /-- Before the destructor of the guard; the loop is left or goes on. -/
  | unguarding (call : Call V) (k : ℕ) (g : OptimisticLockGuard) (valid : Bool)
  /-- In `update`, behind the loop: before the load of `write_lock`. -/
  | updateLock (k : ℕ) (v : V)
  | updateCas (k : ℕ) (v : V) (g : OptimisticLockGuard)
  | updating (k : ℕ) (v : V) (g : OptimisticLockGuard)
  | updateReleasing (k : ℕ) (g : OptimisticLockGuard)
  /-- In `put`: before the `Put`. -/
  | putting (k : ℕ) (v : V)
  /-- In a flush: before the callback on the next key. -/
  | flushing (f : Flush) (keys : List ℕ)
  | flushUpgrading (f : Flush) (k : ℕ) (g : OptimisticLockGuard) (keys : List ℕ)
  | flushPutting (f : Flush) (k : ℕ) (g : OptimisticLockGuard) (keys : List ℕ)
  /-- Before `update_key_version`. -/
  | flushStoring (f : Flush) (k : ℕ) (g : OptimisticLockGuard) (keys : List ℕ)
  | flushReleasing (f : Flush) (k : ℕ) (g : OptimisticLockGuard) (keys : List ℕ)

namespace Adapter

variable (a : Adapter V)

/-- The adapter a constructor leaves behind, over an empty instance. -/
def init : Adapter V := ⟨.init, fun _ => ∅, 0, fun _ => .init, 0, fun _ => false⟩

/-- The lock word of a key. -/
def word (k : ℕ) : ℕ := a.lockTable.word k

/-- Store the lock word of a key. -/
def setWord (k w : ℕ) : Adapter V := { a with lockTable := a.lockTable.setWord k w }

/-- The destructor of a guard on the word of `k`. -/
def release (k : ℕ) (g : OptimisticLockGuard) : Adapter V :=
  { a with lockTable := a.lockTable.release k g }

/-! ## The tree -/

/-- The record a `Get` finds, with the number of its table. -/
def record (k : ℕ) : Option (ℕ × TaggedPayload V) := newest a.tables k 0 (a.active + 1)

/-- Overwrite a record in the table that has it. -/
def setRecord (i k : ℕ) (tp : TaggedPayload V) : Adapter V :=
  { a with tables := Function.update a.tables i ((a.tables i).insert k tp) }

/-- `db->Get`, with `on_memtable_hit`. -/
def get (k : ℕ) : Adapter V × Option V :=
  match a.record k with
  | none => (a, none)
  | some (i, tp) =>
    (if a.flushed i || !tp.migrated || tp.ref then a else a.setRecord i k { tp with ref := true },
      some tp.payload)

/-- `db->Put`. -/
def dbPut (k : ℕ) (tp : TaggedPayload V) : Adapter V := a.setRecord a.active k tp

/-- `doPut`. -/
def doPut (k : ℕ) (v : V) (migrated : Bool) : Adapter V := a.dbPut k ⟨v, false, migrated⟩

/-- The switch to a new memtable, with the callback `memtable_switch`. -/
def memtableSwitch : Adapter V :=
  { a with
    lockTableSnapshots := Function.update a.lockTableSnapshots a.active a.lockTable
    tables := Function.update a.tables (a.active + 1) ∅
    active := a.active + 1 }

/-- The keys of a flush, in ascending order. -/
def flushKeys (first num : ℕ) : List ℕ :=
  ((List.range num).foldl (fun (t : TreeMap ℕ Unit) j =>
    (a.tables (first + j)).keys.foldl (fun t k => t.insert k ()) t) ∅).keys

/-- The start of a flush, with the callback `memtable_flush_start`. -/
def flushStart (num : ℕ) : Adapter V × Pc V :=
  if 0 < num ∧ a.picked + num ≤ a.active then
    ({ a with picked := a.picked + num },
      .flushing ⟨a.picked, num, a.lockTableSnapshots (a.picked + num - 1), []⟩
        (a.flushKeys a.picked num))
  else (a, .idle)

/-- The newest record of a key among those of a flush. -/
def flushRecord (f : Flush) (k : ℕ) : Option (ℕ × TaggedPayload V) :=
  newest a.tables k f.first f.num

/-- The end of a flush: the records that have been written elsewhere are left out. -/
def flushEnd (f : Flush) : Adapter V :=
  { a with
    tables := fun i =>
      if f.first ≤ i ∧ i < f.first + f.num then f.dropped.foldl TreeMap.erase (a.tables i)
      else a.tables i
    flushed := fun i => if f.first ≤ i ∧ i < f.first + f.num then true else a.flushed i }

end Adapter

/-- Where a call starts. -/
def Call.start (call : Call V) (a : Adapter V) : Adapter V × Pc V :=
  match call with
  | .lookup k => (a, .readLock call k)
  | .insert k v => (a, .putting k v)
  | .update k _ => (a, .readLock call k)
  | .put k v => (a, .putting k v)
  | .memtableSwitch => (a.memtableSwitch, .idle)
  | .flush num => a.flushStart num

/-- What follows once the loop of `lookup` or `update` is left. -/
def Call.proceed : Call V → Pc V
  | .update k v => .updateLock k v
  | _ => .idle

/-- Whether a call migrates what it reads. -/
def Call.mayMigrate : Call V → Bool
  | .update _ _ => false
  | _ => true

namespace Pc

/-- The steps of `update` behind its loop, and of `put`. -/
def writeStep (a : Adapter V) : Pc V → Adapter V × Pc V × Option (Event V)
  | .updateLock k v =>
    let (even, g) := (OptimisticLockGuard.construct (a.word k)).writeLockLoad (a.word k)
    (a, if even then .updateCas k v g else .updateLock k v, none)
  | .updateCas k v g =>
    let (locked, w, g') := g.writeLockCas (a.word k)
    (a.setWord k w, if locked then .updating k v g' else .updateLock k v, none)
  | .updating k v g => (a.doPut k v false, .updateReleasing k g, some (.put k v))
  | .updateReleasing k g => (a.release k g, .idle, none)
  | .putting k v => (a.doPut k v false, .idle, some (.put k v))
  | pc => (a, pc, none)

/-- The steps of `lookup` and of the loop in `update`. -/
def lookupStep (ch : Choices) (a : Adapter V) : Pc V → Adapter V × Pc V × Option (Event V)
  | .readLock call k =>
    let (readable, g) := (OptimisticLockGuard.construct (a.word k)).readLock (a.word k)
    (a, if readable then .getting call k g else .readLock call k, none)
  | .getting call k g =>
    match a.get k with
    | (a', some v) =>
      (a', if call.mayMigrate && ch.migrate then .upgrading call k g v else .validating call k g,
        none)
    | (a', none) => (a', .validating call k g, none)
  | .upgrading call k g v =>
    let (upgraded, w, g') := g.upgradeToWriteLock (a.word k)
    (a.setWord k w, if upgraded then .migrating call k g' v else .validating call k g', none)
  | .migrating call k g v => (a.doPut k v true, .validating call k g, none)
  | .validating call k g => (a, .unguarding call k g (g.validate (a.word k)), none)
  | .unguarding call k g valid =>
    (a.release k g, if valid then call.proceed else .readLock call k, none)
  | pc => writeStep a pc

/-- The steps of a flush, with the callback `memtable_flush_on_each_key_value`. -/
def flushStep (ch : Choices) (a : Adapter V) : Pc V → Adapter V × Pc V × Option (Event V)
  | .flushing f [] => (a.flushEnd f, .idle, none)
  | .flushing f (k :: keys) =>
    match a.flushRecord f k with
    | none => (a, .flushing f keys, none)
    | some (_, tp) =>
      if !tp.migrated || !tp.ref || ch.budgetUsed then (a, .flushing f keys, none)
      else if f.table.word k % 2 = 1 then (a, .flushing f keys, none)
      else
        let g := (OptimisticLockGuard.construct (a.word k)).setSnapshotReadVersion (f.table.word k)
        (a, .flushUpgrading f k g keys, none)
  | .flushUpgrading f k g keys =>
    let (upgraded, w, g') := g.upgradeToWriteLock (a.word k)
    let a := a.setWord k w
    match upgraded, a.flushRecord f k with
    | true, some (i, tp) =>
      (a.setRecord i k { tp with ref := false, migrated := true }, .flushPutting f k g' keys, none)
    | true, none => (a, .flushPutting f k g' keys, none)
    | false, _ => (a, .flushing f keys, none)
  | .flushPutting f k g keys =>
    match a.flushRecord f k with
    | none => (a, .flushStoring f k g keys, none)
    | some (_, tp) =>
      if ch.throttled then (a, .flushStoring f k g keys, none)
      else (a.dbPut k tp, .flushStoring { f with dropped := k :: f.dropped } k g keys, none)
  | .flushStoring f k g keys =>
    (a, .flushReleasing { f with table := f.table.setWord k (u64 (a.word k + 1)) } k g keys, none)
  | .flushReleasing f k g keys => (a.release k g, .flushing f keys, none)
  | pc => lookupStep ch a pc

end Pc

/-- The program of a thread.  A thread between two calls starts the call of its input. -/
def program : Interleaving.Program (Adapter V) (Pc V) (Call V × Choices) (Event V) :=
  fun i a pc =>
    match pc with
    | .idle => let (a', pc') := i.1.start a; (a', pc', none)
    | pc => pc.flushStep i.2 a

/-- No thread has started a call. -/
def start (a : Adapter V) : Interleaving.State (Adapter V) (Pc V) := ⟨a, fun _ => .idle⟩

end TwoTree.BidirectionalMigration
