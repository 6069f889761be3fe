import TwoTree.Tiered.Store

/-!
# The two-tier hash adapter

`TwoHashAdapter` keeps its records in two linear hash tables.  It evicts in one of two ways.  By
buckets, the clock hand claims one bucket of the hot table at a time.  By records, the adapter
keeps the keys of one bucket in a list, and each call takes the next few keys of that list; when
the list is used up, the call walks on to the next bucket that has records, and a hot table
without records makes it walk forever.

The hash tables are maps, and the hot one also has a number of buckets, which grows.  Which
bucket a key is in is a function of that number and of the key; in which order the records of a
bucket are visited is left to chance, like the random draws, the memory pressure and whether the
hot table has room.  A loop that does not end gives `none`.

`insert_hot_partition_might_fail` counts the item before it tries to insert it.
-/

namespace TwoTree.TwoHash

open Std Lib Lib.OrderedMap LockManager ConcurrentTwoBTree Tiered

variable {V : Type*}

/-- The configuration of a hash adapter. -/
structure HashConfig extends Config where
  evictByRecords : Bool
  numberRecordsToScanPerEviction : ℕ
  /-- `PAGE_SIZE / (sizeof(TaggedPayload) + sizeof(Key))`. -/
  recordsPerPage : ℕ
  /-- The bucket of a key in a table with a given number of buckets. -/
  bucketOf : ℕ → ℕ → ℕ

/-- What one call finds outside the adapter. -/
structure Choices where
  /-- `cache_under_pressure`. -/
  pressure : Bool
  /-- The order in which the records of a bucket are visited. -/
  order : VisitOrder
  /-- The draw in `should_migrate`. -/
  migrateDraw : ℕ
  /-- The draw that decides between the two ways of admission. -/
  admitDraw : ℕ
  /-- Whether the bucket has room, in `insert_might_fail`. -/
  room : Bool
  /-- The number of buckets the call splits in the hot table. -/
  splits : ℕ

/-- The state of an adapter. -/
structure Adapter (V : Type*) where
  store : Store V
  hotBuckets : ℕ
  clock : EvictionClock
  clockHandBucket : ℕ
  clockHandBucketRecordSeq : ℕ
  currentBucketKeysForEviction : List ℕ

/-- `kClockWalkSteps`. -/
def kClockWalkSteps : ℕ := 1

namespace Adapter

variable (cfg : HashConfig) (s : Adapter V)

/-- The adapter a constructor leaves behind, over two empty tables.  The reference counters are
not initialised. -/
def init (refCounter : Fin 2 → ℕ) (buckets : ℕ) : Adapter V :=
  ⟨.init, buckets, ⟨0, 0, refCounter⟩, 0, 0, []⟩

/-! ## Eviction -/

/-- The keys that `iterate` visits in a bucket of the hot table. -/
def bucketKeys (ch : Choices) (b : ℕ) : List ℕ :=
  s.store.unitKeys (cfg.bucketOf s.hotBuckets) ch.order b

/-- `evict_a_bunch_buckets`. -/
def evictABunchBuckets (ch : Choices) : Adapter V :=
  match Store.claimUnits s.clock kClockWalkSteps s.hotBuckets with
  | none => s
  | some (buckets, round, clock) =>
    { s with
      store := s.store.evictKeys (Store.removeThenWriteBack cfg.toConfig)
        (buckets.flatMap (s.bucketKeys cfg ch))
      clock := clock.finish round }

/-- Make `b` the current bucket, and open a round if it is the first one. -/
def enterBucket (ch : Choices) (b : ℕ) : Adapter V :=
  { s with
    clockHandBucket := b
    clockHandBucketRecordSeq := 0
    currentBucketKeysForEviction := s.bucketKeys cfg ch b
    clock := { s.clock with
      evictionRound :=
        if b = 0 then u64 (s.clock.evictionRound + 1) else s.clock.evictionRound } }

/-- The loop of `evict_a_bunch_records` that looks for a bucket with records. -/
def seekRecords (cfg : HashConfig) (ch : Choices) : ℕ → Adapter V → Option (Adapter V)
  | 0, _ => none
  | fuel + 1, s =>
    if s.clockHandBucketRecordSeq ≥ s.currentBucketKeysForEviction.length then
      seekRecords cfg ch fuel (s.enterBucket cfg ch ((s.clockHandBucket + 1) % s.hotBuckets))
    else some s

/-- The part of `evict_a_bunch_records` behind that loop. -/
def evictRecords : Adapter V :=
  let start := s.clockHandBucketRecordSeq
  let stop := min (start + cfg.numberRecordsToScanPerEviction)
    s.currentBucketKeysForEviction.length
  let round := s.clock.evictionRound
  if s.clock.refCounter (1 - parity round) ≠ 0 then s
  else
    let keysToScan := (s.currentBucketKeysForEviction.drop start).take (stop - start)
    let refCounter := Function.update s.clock.refCounter (parity round)
      (s.clock.refCounter (parity round) + 1)
    { s with
      store := s.store.evictKeys (Store.writeBackThenRemove cfg.toConfig) keysToScan
      clockHandBucketRecordSeq := stop
      clock := EvictionClock.finish { s.clock with refCounter := refCounter } round }

/-- `evict_a_bunch_records`. -/
def evictABunchRecords (fuel : ℕ) (cfg : HashConfig) (s : Adapter V) (ch : Choices) :
    Option (Adapter V) :=
  let s := if s.clockHandBucket ≥ s.hotBuckets then s.enterBucket cfg ch 0 else s
  (seekRecords cfg ch fuel s).map (evictRecords cfg)

/-- `evict_a_bunch`. -/
def evictABunch (fuel : ℕ) (cfg : HashConfig) (s : Adapter V) (ch : Choices) :
    Option (Adapter V) :=
  if cfg.evictByRecords then s.evictABunchRecords fuel cfg ch
  else some (s.evictABunchBuckets cfg ch)

/-- The loop of `try_eviction`. -/
def evictWhile (cfg : HashConfig) (ch : Choices) : ℕ → ℤ → Adapter V → Option (Adapter V)
  | 0, _, _ => none
  | fuel + 1, steps, s =>
    if steps > 0 then
      (s.evictABunch fuel cfg ch).bind (evictWhile cfg ch fuel
        (steps - if cfg.evictByRecords then cfg.numberRecordsToScanPerEviction
          else cfg.recordsPerPage))
    else some s

/-- `try_eviction`. -/
def tryEviction (fuel : ℕ) (cfg : HashConfig) (s : Adapter V) (ch : Choices) :
    Option (Adapter V) :=
  if ch.pressure then evictWhile cfg ch fuel 10 s else some s

/-! ## Admission -/

/-- `insert_hot_partition_might_fail`. -/
def insertHotPartitionMightFail (room : Bool) (s : Store V) (k : ℕ) (v : V)
    (modified referenced : Bool) : Bool × Store V :=
  let s := { s with hotPartitionItemCount := s.hotPartitionItemCount + 1 }
  match insertMightFail s.hot room k (.ofFlags v modified referenced) with
  | (.ok, hot) => (true, { s with hot := hot })
  | (_, hot) => (false, { s with hot := hot })

/-- `admit_element_might_fail`. -/
def admitElementMightFail (room : Bool) (s : Store V) (k : ℕ) (v : V)
    (dirty referenced : Bool) : Bool × Store V :=
  insertHotPartitionMightFail room s k v dirty referenced

/-- The admission of `lookup` and `update`, which passes no flags. -/
def admitDefault (ch : Choices) (s : Store V) (k : ℕ) (v : V) : Bool × Store V :=
  if ch.admitDraw < 5 then (true, s.admitElement k v false true)
  else admitElementMightFail ch.room s k v false true

/-! ## Operations -/

/-- `lookup`. -/
def lookup (fuel : ℕ) (cfg : HashConfig) (s : Adapter V) (k : ℕ) (ch : Choices) :
    Option (Adapter V × Option V) :=
  (s.tryEviction fuel cfg ch).bind (fun s =>
    (Store.lookupLoop cfg.toConfig (cfg.shouldMigrate ch.migrateDraw) (admitDefault ch) k fuel
      s.store).map
      (fun (t, res) => ({ s with store := t, hotBuckets := s.hotBuckets + ch.splits }, res)))

/-- A writing operation: it tries to evict and runs its body under the lock of its key. -/
def write (fuel : ℕ) (cfg : HashConfig) (s : Adapter V) (k : ℕ) (ch : Choices)
    (body : Store V → Store V) : Option (Adapter V) :=
  (s.tryEviction fuel cfg ch).bind (fun s =>
    (s.store.underWriteLock fuel k body).map
      (fun t => { s with store := t, hotBuckets := s.hotBuckets + ch.splits }))

/-- `insert`. -/
def insert (fuel : ℕ) (cfg : HashConfig) (s : Adapter V) (k : ℕ) (v : V) (ch : Choices) :
    Option (Adapter V) :=
  s.write fuel cfg k ch (Store.insertLocked k v)

/-- The callback of `update` and `put` on a hot record. -/
def overwrite (v : V) (tp : TaggedPayload V) : TaggedPayload V :=
  let tp := if tp.referenced then tp else tp.setReferenced
  let tp := if tp.modified then tp else tp.setModified
  tp.setPayload v

/-- The part of `update` under the write lock. -/
def updateLocked (ch : Choices) (k : ℕ) (v : V) (s : Store V) : Store V :=
  match updateInPlace s.hot k (overwrite v) with
  | (.ok, hot) => { s with hot := hot }
  | _ =>
    match s.cold[k]? with
    | none => s
    | some _ =>
      if cfg.shouldMigrate ch.migrateDraw then s.moveUp cfg.toConfig (admitDefault ch) k v
      else s.updateCold k v

/-- `update`. -/
def update (fuel : ℕ) (cfg : HashConfig) (s : Adapter V) (k : ℕ) (v : V) (ch : Choices) :
    Option (Adapter V) :=
  s.write fuel cfg k ch (updateLocked cfg ch k v)

/-- The part of `put` under the write lock. -/
def putLocked (k : ℕ) (v : V) (s : Store V) : Store V :=
  match updateInPlace s.hot k (overwrite v) with
  | (.ok, hot) => { s with hot := hot }
  | _ =>
    let s := if cfg.inclusive then s else s.removeCold k
    s.admitElement k v true true

/-- `put`. -/
def put (fuel : ℕ) (cfg : HashConfig) (s : Adapter V) (k : ℕ) (v : V) (ch : Choices) :
    Option (Adapter V) :=
  s.write fuel cfg k ch (putLocked cfg k v)

/-! ## Runs -/

/-- One call of the interface. -/
def step (fuel : ℕ) (cfg : HashConfig) (s : Adapter V) : Op V × Choices → Option (Adapter V)
  | (.insert k v, ch) => s.insert fuel cfg k v ch
  | (.update k v, ch) => s.update fuel cfg k v ch
  | (.put k v, ch) => s.put fuel cfg k v ch
  | (.lookup k, ch) => (s.lookup fuel cfg k ch).map Prod.fst
  | (.evict, ch) => s.evictABunch fuel cfg ch

/-- A sequence of calls. -/
def run (fuel : ℕ) (cfg : HashConfig) (s : Adapter V) (ops : List (Op V × Choices)) :
    Option (Adapter V) :=
  ops.foldlM (step fuel cfg) s

end Adapter

end TwoTree.TwoHash
