import TwoTree.Tiered.Store

/-!
# The two-tier indexed-heap adapter

`TwoIHeapAdapter` keeps its records in two heap files with a B-tree index each.  It evicts in one
of two ways: from the heap, where the clock hand claims ten pages of the hot heap file at a time,
or from the index, where it claims a range of keys up to a leaf boundary, as the concurrent
two-tree adapter does.

The indexed heap files are maps, and the hot one also has a number of heap pages, which grows.
On which page a record lies and in which order the records of a page are visited is left to
chance, like the random draw, the memory pressure and the answer of the boundary search.

Unlike the hash adapter, this one admits an element unconditionally; `put` admits before it
removes the cold record, and `update` does not look at the result of its cold lookup.
-/

namespace TwoTree.TwoIHeap

open Std Lib Lib.OrderedMap LockManager ConcurrentTwoBTree Tiered

variable {V : Type*}

/-- The configuration of an indexed-heap adapter. -/
structure HeapConfig extends Config where
  evictionUsingIndexScan : Bool

/-- What one call finds outside the adapter. -/
structure Choices where
  /-- `cache_under_pressure`. -/
  pressure : Bool
  /-- The heap page on which the record of a key lies. -/
  pageOf : ℕ → ℕ
  /-- The order in which the records of a page are visited. -/
  order : VisitOrder
  /-- The answer of the boundary search in the index. -/
  boundary : Option (ℕ × Bool)
  /-- The draw in `should_migrate`. -/
  migrateDraw : ℕ
  /-- The number of heap pages the call adds to the hot heap file. -/
  newPages : ℕ

/-- The state of an adapter. -/
structure Adapter (V : Type*) where
  store : Store V
  heapPages : ℕ
  clock : EvictionClock

/-- `kClockWalkSteps`. -/
def kClockWalkSteps : ℕ := 10

namespace Adapter

variable (cfg : HeapConfig) (s : Adapter V)

/-- The adapter a constructor leaves behind, over two heap files without records. -/
def init (pages : ℕ) : Adapter V := ⟨.init, pages, .init⟩

/-! ## Eviction -/

/-- The keys that `scanHeapPage` visits on a page of the hot heap file. -/
def pageKeys (ch : Choices) (page : ℕ) : List ℕ := s.store.unitKeys ch.pageOf ch.order page

/-- `evict_a_bunch_from_heap`. -/
def evictABunchFromHeap (ch : Choices) : Adapter V :=
  match Store.claimUnits s.clock kClockWalkSteps s.heapPages with
  | none => s
  | some (pages, round, clock) =>
    { s with
      store := s.store.evictKeys (Store.writeBackThenRemove cfg.toConfig)
        (pages.flatMap (s.pageKeys ch))
      clock := clock.finish round }

/-- The keys that the scan of `evict_a_bunch_from_index` visits. -/
def rangeKeys (range : ClaimedRange) : List ℕ :=
  ((scanFrom s.store.hot range.startKey).map Prod.fst).takeWhile (fun k => k ≤ range.endKey)

/-- `evict_a_bunch_from_index`. -/
def evictABunchFromIndex (ch : Choices) : Adapter V :=
  match s.clock.claim ch.boundary with
  | none => s
  | some (range, clock) =>
    { s with
      store := s.store.evictKeys (Store.writeBackThenRemove cfg.toConfig) (s.rangeKeys range)
      clock := clock.finish range.round }

/-- `evict_a_bunch`. -/
def evictABunch (ch : Choices) : Adapter V :=
  if cfg.evictionUsingIndexScan then s.evictABunchFromIndex cfg ch
  else s.evictABunchFromHeap cfg ch

/-- `try_eviction`. -/
def tryEviction (ch : Choices) : Adapter V := if ch.pressure then s.evictABunch cfg ch else s

/-! ## Operations -/

/-- The admission of `lookup` and `update`, which passes no flags. -/
def admitDefault (s : Store V) (k : ℕ) (v : V) : Bool × Store V :=
  (true, s.admitElement k v false true)

/-- `lookup`. -/
def lookup (fuel : ℕ) (cfg : HeapConfig) (s : Adapter V) (k : ℕ) (ch : Choices) :
    Option (Adapter V × Option V) :=
  let s := s.tryEviction cfg ch
  (Store.lookupLoop cfg.toConfig (cfg.shouldMigrate ch.migrateDraw) admitDefault k fuel
    s.store).map
    (fun (t, res) => ({ s with store := t, heapPages := s.heapPages + ch.newPages }, res))

/-- A writing operation: it tries to evict and runs its body under the lock of its key. -/
def write (fuel : ℕ) (cfg : HeapConfig) (s : Adapter V) (k : ℕ) (ch : Choices)
    (body : Store V → Store V) : Option (Adapter V) :=
  let s := s.tryEviction cfg ch
  (s.store.underWriteLock fuel k body).map
    (fun t => { s with store := t, heapPages := s.heapPages + ch.newPages })

/-- `insert`. -/
def insert (fuel : ℕ) (cfg : HeapConfig) (s : Adapter V) (k : ℕ) (v : V) (ch : Choices) :
    Option (Adapter V) :=
  s.write fuel cfg k ch (Store.insertLocked k v)

/-- The part of `update` under the write lock. -/
def updateLocked (ch : Choices) (k : ℕ) (v : V) (s : Store V) : Store V :=
  match updateInPlace s.hot k (TaggedPayload.overwrite v) with
  | (.ok, hot) => { s with hot := hot }
  | _ =>
    if cfg.shouldMigrate ch.migrateDraw then s.moveUp cfg.toConfig admitDefault k v
    else s.updateCold k v

/-- `update`. -/
def update (fuel : ℕ) (cfg : HeapConfig) (s : Adapter V) (k : ℕ) (v : V) (ch : Choices) :
    Option (Adapter V) :=
  s.write fuel cfg k ch (updateLocked cfg ch k v)

/-- The part of `put` under the write lock. -/
def putLocked (k : ℕ) (v : V) (s : Store V) : Store V :=
  match updateInPlace s.hot k (TaggedPayload.overwrite v) with
  | (.ok, hot) => { s with hot := hot }
  | _ =>
    let s := s.admitElement k v true false
    if cfg.inclusive then s else s.removeCold k

/-- `put`. -/
def put (fuel : ℕ) (cfg : HeapConfig) (s : Adapter V) (k : ℕ) (v : V) (ch : Choices) :
    Option (Adapter V) :=
  s.write fuel cfg k ch (putLocked cfg k v)

/-! ## Runs -/

/-- One call of the interface. -/
def step (fuel : ℕ) (cfg : HeapConfig) (s : Adapter V) : Op V × Choices → Option (Adapter V)
  | (.insert k v, ch) => s.insert fuel cfg k v ch
  | (.update k v, ch) => s.update fuel cfg k v ch
  | (.put k v, ch) => s.put fuel cfg k v ch
  | (.lookup k, ch) => (s.lookup fuel cfg k ch).map Prod.fst
  | (.evict, ch) => some (s.evictABunch cfg ch)

/-- A sequence of calls. -/
def run (fuel : ℕ) (cfg : HeapConfig) (s : Adapter V) (ops : List (Op V × Choices)) :
    Option (Adapter V) :=
  ops.foldlM (step fuel cfg) s

end Adapter

end TwoTree.TwoIHeap
