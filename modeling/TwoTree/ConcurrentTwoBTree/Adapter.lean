import TwoTree.Lib.OrderedMap
import TwoTree.Lib.Tiers
import TwoTree.LockManager.Table
import TwoTree.StorageInterface
import TwoTree.TaggedPayload
import TwoTree.ConcurrentTwoBTree.Rounds

/-!
# The concurrent two-tree adapter

`ConcurrentTwoBTreeAdapter` keeps its records in two B-trees: a hot one, whose payloads carry a
tag byte, and a cold one.  `lookup` migrates a record it finds in the cold tree into the hot
one, `insert`, `update` and `put` write into the hot tree, `remove` leaves a one-byte deletion
mark there, and `evict_a_bunch` moves hot records back.  The adapter is *inclusive* or
*exclusive*: an inclusive one leaves the cold copy of a migrated record where it is.

This file is the adapter run by one thread, function by function.  The two trees are ordered
maps.  The lock words are kept, since every operation takes and releases them; a loop that
spins on a word a single thread can never see change runs out of fuel and gives `none`.

What the code leaves to chance or to the rest of the system is a `Choices` record: the outcome
of each test for memory pressure, the two random draws, whether a leaf has room, and where the
boundary search ends.  The assertions of the source are compiled out (the build type is
`RelWithDebInfo`), so a result code that an assertion would inspect is ignored here as well.
The I/O and migration statistics, which no function of the adapter reads back, are left out;
`hot_partition_item_count`, which `evict_all` reads, is kept.
-/

namespace TwoTree.ConcurrentTwoBTree

open Std Lib Lib.OrderedMap LockManager

variable {V : Type*}

/-- What the hot tree stores under a key: a tagged payload, or the one byte that marks the key
as deleted. -/
inductive HotRecord (V : Type*)
  | tagged (tp : TaggedPayload V)
  | deletedMark
  deriving DecidableEq, Repr

/-- What one call finds outside the adapter. -/
structure Choices (V : Type*) where
  /-- `cache_under_pressure` in `try_eviction`. -/
  pressure : Bool
  /-- The answer of the boundary search in `evict_a_bunch`. -/
  boundary : Option (ℕ × Bool)
  /-- The bytes behind a deletion mark, which a cast to `TaggedPayload` reads. -/
  overread : ℕ → TaggedPayload V
  /-- The draw in `should_migrate`. -/
  migrateDraw : ℕ
  /-- `cache_under_pressure_soft` at the migration. -/
  softPressure : Bool
  /-- `cache_under_pressure` at the migration. -/
  hardPressure : Bool
  /-- The draw that decides between the two ways of admission. -/
  admitDraw : ℕ
  /-- Whether the leaf has room, in `insert_might_fail`. -/
  room : Bool

/-- The state of an adapter. -/
structure Adapter (V : Type*) where
  hotBtree : TreeMap ℕ (HotRecord V)
  coldBtree : TreeMap ℕ V
  lockTable : OptimisticLockTable
  clock : EvictionClock
  hotPartitionItemCount : ℤ

/-- The adapter a constructor leaves behind, over two empty trees. -/
def Adapter.init : Adapter V := ⟨∅, ∅, .init, .init, 0⟩

/-- The payload a record is read as.  A deletion mark is one byte long; the cast reads on. -/
def HotRecord.asTagged (overread : TaggedPayload V) : HotRecord V → TaggedPayload V
  | .tagged tp => tp
  | .deletedMark => overread

/-- Change a tagged payload in place.  The bytes behind a deletion mark are not part of it. -/
def HotRecord.mapTagged (f : TaggedPayload V → TaggedPayload V) : HotRecord V → HotRecord V
  | .tagged tp => .tagged (f tp)
  | .deletedMark => .deletedMark

/-- `should_migrate`. -/
def shouldMigrate (cfg : Config) (ch : Choices V) : Bool :=
  cfg.shouldMigrate ch.migrateDraw

namespace Adapter

variable (s : Adapter V) (cfg : Config)

/-! ## Locks -/

/-- The lock word of a key. -/
def word (k : ℕ) : ℕ := s.lockTable.word k

/-- Store a lock word. -/
def setWord (k w : ℕ) : Adapter V := { s with lockTable := s.lockTable.setWord k w }

/-- The destructor of a guard on the word of `k`. -/
def release (k : ℕ) (g : OptimisticLockGuard) : Adapter V :=
  { s with lockTable := s.lockTable.release k g }

/-! ## Admission into the hot tree -/

/-- The tagged payload an admission stores. -/
def taggedFor (v : V) (modified referenced : Bool) : TaggedPayload V :=
  let tp : TaggedPayload V := { payload := v }
  let tp := if referenced then tp.setReferenced.bumpReferenceCount else tp.clearReferenced
  if modified then tp.setModified else tp.clearModified

/-- `insert_hot_partition`. -/
def insertHotPartition (k : ℕ) (v : V) (modified referenced : Bool) : Adapter V :=
  { s with
    hotBtree := (insertNew s.hotBtree k (.tagged (taggedFor v modified referenced))).2
    hotPartitionItemCount := s.hotPartitionItemCount + 1 }

/-- `insert_hot_partition_might_fail`. -/
def insertHotPartitionMightFail (room : Bool) (k : ℕ) (v : V)
    (modified referenced : Bool) : Bool × Adapter V :=
  match insertMightFail s.hotBtree room k (.tagged (taggedFor v modified referenced)) with
  | (.ok, hot) =>
    (true, { s with hotBtree := hot, hotPartitionItemCount := s.hotPartitionItemCount + 1 })
  | (_, hot) => (false, { s with hotBtree := hot })

/-- `insert_hot_partition_deleted_mark`. -/
def insertHotPartitionDeletedMark (k : ℕ) : Adapter V :=
  { s with
    hotBtree := (insertNew s.hotBtree k .deletedMark).2
    hotPartitionItemCount := s.hotPartitionItemCount + 1 }

/-- `admit_element`. -/
def admitElement (k : ℕ) (v : V) (dirty referenced : Bool) : Adapter V :=
  s.insertHotPartition k v dirty referenced

/-- `admit_element_might_fail`. -/
def admitElementMightFail (room : Bool) (k : ℕ) (v : V)
    (dirty referenced : Bool) : Bool × Adapter V :=
  s.insertHotPartitionMightFail room k v dirty referenced

/-- `admit_delete_mark_element`. -/
def admitDeleteMarkElement (k : ℕ) : Adapter V := s.insertHotPartitionDeletedMark k

/-- `upsert_cold_partition`. -/
def upsertColdPartition (k : ℕ) (v : V) : Adapter V :=
  { s with coldBtree := s.coldBtree.insert k v }

/-- `insert_cold_partition`. -/
def insertColdPartition (k : ℕ) (v : V) : Adapter V :=
  { s with coldBtree := (insertNew s.coldBtree k v).2 }

/-- `cold_btree.remove`. -/
def removeCold (k : ℕ) : Adapter V := { s with coldBtree := (removeKey s.coldBtree k).2 }

/-- `hot_btree.remove`, with the decrement of the item count. -/
def removeHot (k : ℕ) : Adapter V :=
  { s with
    hotBtree := (removeKey s.hotBtree k).2
    hotPartitionItemCount := s.hotPartitionItemCount - 1 }

/-! ## Eviction -/

/-- A record the scan of `evict_a_bunch` picked: the key, the copy of its payload, and the
version of its lock word at that moment. -/
structure Victim (V : Type*) where
  key : ℕ
  payload : TaggedPayload V
  lockVersion : ℕ

/-- The callback of the scan on one record: the reference count is decremented; a referenced
record loses its reference bit, any other is picked unless it is write-locked. -/
def examine (ch : Choices V) (word : ℕ) (key : ℕ) (r : HotRecord V) :
    HotRecord V × Option (Victim V) :=
  let tp := (r.asTagged (ch.overread key)).decReferenceCount
  if tp.referenced then (r.mapTagged (fun tp => tp.decReferenceCount.clearReferenced), none)
  else
    let (readable, g) := (OptimisticLockGuard.construct word).readLock word
    (r.mapTagged TaggedPayload.decReferenceCount,
      if readable then some ⟨key, tp, g.version⟩ else none)

/-- The scan of `evict_a_bunch`, over the records from the start key on. -/
def evictScan (ch : Choices V) (locks : OptimisticLockTable) (endKey : ℕ) :
    List (ℕ × HotRecord V) → TreeMap ℕ (HotRecord V) → TreeMap ℕ (HotRecord V) × List (Victim V)
  | [], hot => (hot, [])
  | (key, r) :: rest, hot =>
    if key > endKey then (hot, [])
    else
      let (r', victim) := examine ch (locks (wordPos key)) key r
      if key ≥ endKey then (hot.insert key r', victim.toList)
      else
        let (hot', victims) := evictScan ch locks endKey rest (hot.insert key r')
        (hot', victim.toList ++ victims)

/-- The payload a victim is evicted with: the copy of the scan, or what the hot tree holds now
if the record may have been written since. -/
def victimPayload (ch : Choices V) (victim : Victim V)
    (g : OptimisticLockGuard) : TaggedPayload V :=
  if g.moreThanOneWriterSince victim.lockVersion then
    match s.hotBtree[victim.key]? with
    | some r => r.asTagged (ch.overread victim.key)
    | none => victim.payload
  else victim.payload

/-- Write a victim's payload to the cold tree. -/
def writeBack (s : Adapter V) (k : ℕ) (tp : TaggedPayload V) : Adapter V :=
  if cfg.inclusive then (if tp.modified then s.upsertColdPartition k tp.payload else s)
  else s.insertColdPartition k tp.payload

/-- The body of the eviction loop. -/
def evictOne (ch : Choices V) (s : Adapter V) (victim : Victim V) : Adapter V :=
  let (locked, w, g) :=
    (OptimisticLockGuard.construct (s.word victim.key)).writeLock (s.word victim.key)
  if locked then
    let s := s.setWord victim.key w
    let tp := s.victimPayload ch victim g
    ((writeBack cfg s victim.key tp).removeHot victim.key).release victim.key g
  else s

/-- `evict_a_bunch`. -/
def evictABunch (s : Adapter V) (ch : Choices V) : Adapter V :=
  match s.clock.claim ch.boundary with
  | none => s
  | some (range, clock) =>
    let (hot, victims) := evictScan ch s.lockTable range.endKey
      (scanFrom s.hotBtree range.startKey) s.hotBtree
    let s := victims.foldl (evictOne cfg ch) { s with hotBtree := hot, clock := clock }
    { s with clock := s.clock.finish range.round }

/-- `try_eviction`. -/
def tryEviction (s : Adapter V) (ch : Choices V) : Adapter V :=
  if ch.pressure then s.evictABunch cfg ch else s

/-- The answers of `findLeafNeighbouringNodeBoundary` on a hot tree that nobody else changes: the
start key and the end of the tree, if no record is left from there on; otherwise the largest key
of some leaf at or behind the start key, and whether it is the largest of the tree. -/
def BoundaryFound (hot : TreeMap ℕ (HotRecord V)) (start : ℕ) (boundary : ℕ × Bool) : Prop :=
  ((∀ k ∈ hot, k < start) ∧ boundary = (start, true)) ∨
    (start ≤ boundary.1 ∧ boundary.1 ∈ hot ∧ (boundary.2 = true ↔ ∀ k ∈ hot, k ≤ boundary.1))

/-- The boundary in `ch` is one the search can answer with in the state `s`. -/
def Feasible (ch : Choices V) : Prop :=
  ∃ boundary, ch.boundary = some boundary ∧
    BoundaryFound s.hotBtree s.clock.clockHand boundary

/-! ## Lookup -/

/-- The callback of the hot lookup: set the reference bit and bump the reference count. -/
def touch (tp : TaggedPayload V) : TaggedPayload V :=
  let tp := if tp.referenced then tp else tp.setReferenced
  if tp.getReferenceCount < TaggedPayload.kMaxReferenceCount then tp.bumpReferenceCount else tp

/-- The admission a lookup tries: under soft but not hard pressure mostly one that may fail. -/
def migrateUp (ch : Choices V) (k : ℕ) (v : V) : Bool × Adapter V :=
  if ch.softPressure && !ch.hardPressure then
    if ch.admitDraw < 5 then (true, s.admitElement k v false false)
    else s.admitElementMightFail ch.room k v false false
  else (true, s.admitElement k v false false)

/-- `lookup_internal`: the value found, if any. -/
def lookupInternal (s : Adapter V) (ch : Choices V) (k : ℕ)
    (g : OptimisticLockGuard) : Adapter V × OptimisticLockGuard × Option V :=
  match s.hotBtree[k]? with
  | some .deletedMark => (s, g, none)
  | some (.tagged tp) =>
    ({ s with hotBtree := s.hotBtree.insert k (.tagged (touch tp)) }, g, some tp.payload)
  | none =>
    match s.coldBtree[k]? with
    | none => (s, g, none)
    | some v =>
      if shouldMigrate cfg ch then
        let (upgraded, w, g') := g.upgradeToWriteLock (s.word k)
        let s := s.setWord k w
        if upgraded then
          let (admitted, s) := s.migrateUp ch k v
          (if !cfg.inclusive && admitted then s.removeCold k else s, g', some v)
        else (s, g', none)
      else (s, g, some v)

/-- The loop of `lookup`. -/
def lookupLoop (cfg : Config) (ch : Choices V) (k : ℕ) : ℕ → Adapter V →
    Option (Adapter V × Option V)
  | 0, _ => none
  | fuel + 1, s =>
    let (readable, g) := (OptimisticLockGuard.construct (s.word k)).readLock (s.word k)
    if readable then
      let (s, g, res) := s.lookupInternal cfg ch k g
      let valid := g.validate (s.word k)
      let s := s.release k g
      if valid then some (s, res) else lookupLoop cfg ch k fuel s
    else lookupLoop cfg ch k fuel s

/-- `lookup`. -/
def lookup (fuel : ℕ) (cfg : Config) (s : Adapter V) (k : ℕ) (ch : Choices V) :
    Option (Adapter V × Option V) :=
  lookupLoop cfg ch k fuel (s.tryEviction cfg ch)

/-! ## Writes -/

/-- Run the body of a writing operation between `write_lock` and the guard's destructor. -/
def underWriteLock (fuel : ℕ) (s : Adapter V) (k : ℕ) (body : Adapter V → Adapter V) :
    Option (Adapter V) :=
  (s.lockTable.spinWriteLock fuel k (OptimisticLockGuard.construct (s.word k))).map
    (fun (locks, g) => (body { s with lockTable := locks }).release k g)

/-- `insert`; both of its branches admit the element in the same way. -/
def insert (fuel : ℕ) (cfg : Config) (s : Adapter V) (k : ℕ) (v : V) (ch : Choices V) :
    Option (Adapter V) :=
  (s.tryEviction cfg ch).underWriteLock fuel k (fun s => s.admitElement k v true false)

/-- The part of `put` under the write lock. -/
def putLocked (k : ℕ) (v : V) (s : Adapter V) : Adapter V :=
  match updateInPlace s.hotBtree k (HotRecord.mapTagged (TaggedPayload.overwrite v)) with
  | (.ok, hot) => { s with hotBtree := hot }
  | _ =>
    let s := s.admitElement k v true false
    if cfg.inclusive then s else s.removeCold k

/-- `put`. -/
def put (fuel : ℕ) (cfg : Config) (s : Adapter V) (k : ℕ) (v : V) (ch : Choices V) :
    Option (Adapter V) :=
  (s.tryEviction cfg ch).underWriteLock fuel k (putLocked cfg k v)

/-- The admission an update tries.  Under soft pressure it is called with the default
arguments. -/
def admitUpdated (ch : Choices V) (k : ℕ) (v : V) : Bool × Adapter V :=
  if ch.softPressure then s.admitElementMightFail ch.room k v false true
  else (true, s.admitElement k v true false)

/-- The part of `update` under the write lock. -/
def updateLocked (ch : Choices V) (k : ℕ) (v : V) (s : Adapter V) : Adapter V :=
  match updateInPlace s.hotBtree k (HotRecord.mapTagged (TaggedPayload.overwrite v)) with
  | (.ok, hot) => { s with hotBtree := hot }
  | _ =>
    if shouldMigrate cfg ch then
      let (admitted, s) := s.admitUpdated ch k v
      if !cfg.inclusive && admitted then s.removeCold k else s
    else { s with coldBtree := (updateInPlace s.coldBtree k (fun _ => v)).2 }

/-- `update`. -/
def update (fuel : ℕ) (cfg : Config) (s : Adapter V) (k : ℕ) (v : V) (ch : Choices V) :
    Option (Adapter V) :=
  (s.tryEviction cfg ch).underWriteLock fuel k (updateLocked cfg ch k v)

/-- The part of `remove` under the write lock. -/
def removeLocked (k : ℕ) (s : Adapter V) : Adapter V :=
  match s.hotBtree[k]? with
  | some .deletedMark => s
  | none => s.admitDeleteMarkElement k
  | some (.tagged _) => (s.removeHot k).admitDeleteMarkElement k

/-- `remove`, which always returns `true` and is the one operation that does not try to evict. -/
def remove (fuel : ℕ) (s : Adapter V) (k : ℕ) : Option (Adapter V) :=
  s.underWriteLock fuel k (removeLocked k)

/-! ## Runs -/

/-- One call of the interface. -/
def step (fuel : ℕ) (cfg : Config) (s : Adapter V) : Op V × Choices V → Option (Adapter V)
  | (.insert k v, ch) => s.insert fuel cfg k v ch
  | (.update k v, ch) => s.update fuel cfg k v ch
  | (.put k v, ch) => s.put fuel cfg k v ch
  | (.lookup k, ch) => (s.lookup fuel cfg k ch).map Prod.fst
  | (.evict, ch) => some (s.evictABunch cfg ch)

/-- A sequence of calls. -/
def run (fuel : ℕ) (cfg : Config) (s : Adapter V) (ops : List (Op V × Choices V)) :
    Option (Adapter V) :=
  ops.foldlM (step fuel cfg) s

/-- The calls that can change the state of an adapter: those of the interface, and `remove`. -/
inductive Call (V : Type*)
  | op (o : Op V)
  | remove (k : ℕ)

/-- One call. -/
def call (fuel : ℕ) (cfg : Config) (s : Adapter V) : Call V × Choices V → Option (Adapter V)
  | (.op o, ch) => s.step fuel cfg (o, ch)
  | (.remove k, _) => s.remove fuel k

/-- The states that sequences of calls lead to, with or without regard to any contract. -/
def Reachable (s : Adapter V) : Prop :=
  ∃ (fuel : ℕ) (calls : List (Call V × Choices V)), calls.foldlM (call fuel cfg) init = some s

end Adapter

end TwoTree.ConcurrentTwoBTree
