import TwoTree.Lib.OrderedMap
import TwoTree.Lib.Tiers
import TwoTree.StorageInterface
import TwoTree.TaggedPayload

/-!
# The two-tree adapter

`TwoBTreeAdapter` is the single-threaded two-tree adapter.  Like its concurrent sibling it keeps
a hot and a cold B-tree and is inclusive or exclusive, but it has no locks and no deletion, it
stores tagged payloads in both trees, and it evicts on its own schedule: every fiftieth call of
`try_eviction` tests for memory pressure, and those calls are made inside an admission and at
the end of `lookup`, `update` and `put`.

`evict_a_bunch` walks a clock over the hot tree: at most 4095 records from the clock hand on
lose their reference bit or become victims, at most 2048 of the latter.  The victims are written
to the cold tree first and removed from the hot tree in a second loop.

The outcomes of the migration draw and of the pressure tests are a `Choices` record.  The
assertions are compiled out, and the I/O statistics are left out.
-/

namespace TwoTree.TwoBTree

open Std Lib Lib.OrderedMap

variable {V : Type*}

/-- What one call finds outside the adapter. -/
structure Choices where
  /-- The draw in `should_migrate`. -/
  migrateDraw : ℕ
  /-- `cache_under_pressure` in an admission. -/
  pressureOnAdmit : Bool
  /-- `cache_under_pressure` at the end of the call. -/
  pressureAtEnd : Bool
  deriving DecidableEq, Repr

/-- The state of an adapter. -/
structure Adapter (V : Type*) where
  hotBtree : TreeMap ℕ (TaggedPayload V)
  coldBtree : TreeMap ℕ (TaggedPayload V)
  clockHand : ℕ
  evictionCountDown : ℕ
  hotPartitionItemCount : ℤ

/-- `kEvictionCheckInterval`. -/
def kEvictionCheckInterval : ℕ := 50

/-- `kClockWalkSteps`. -/
def kClockWalkSteps : ℕ := 4096

/-- The number of victims at which a walk stops. -/
def kMaxVictims : ℕ := 2048

namespace Adapter

variable (cfg : Config) (s : Adapter V)

/-- The adapter a constructor leaves behind, over two empty trees. -/
def init : Adapter V := ⟨∅, ∅, maxKey, kEvictionCheckInterval, 0⟩

/-! ## Partitions -/

/-- `insert_partition` into the hot tree. -/
def insertHotPartition (k : ℕ) (v : V) (modified referenced : Bool) : Adapter V :=
  { s with
    hotBtree := (insertNew s.hotBtree k (.ofFlags v modified referenced)).2
    hotPartitionItemCount := s.hotPartitionItemCount + 1 }

/-- `insert_partition` into the cold tree, with the default flags. -/
def insertColdPartition (k : ℕ) (v : V) : Adapter V :=
  { s with coldBtree := (insertNew s.coldBtree k (.ofFlags v false true)).2 }

/-- `upsert_cold_partition`. -/
def upsertColdPartition (k : ℕ) (v : V) : Adapter V :=
  let tp : TaggedPayload V := { payload := v }
  { s with coldBtree := s.coldBtree.insert k tp.setModified.setReferenced }

/-- `cold_btree.remove`. -/
def removeCold (k : ℕ) : Adapter V := { s with coldBtree := (removeKey s.coldBtree k).2 }

/-! ## Eviction -/

/-- What the walk of `evict_a_bunch` has done so far. -/
structure Walk (V : Type*) where
  hot : TreeMap ℕ (TaggedPayload V)
  hand : ℕ
  victims : List (ℕ × TaggedPayload V)
  steps : ℕ

/-- The scan of `evict_a_bunch` over the records from the start key on. -/
def walk : List (ℕ × TaggedPayload V) → Walk V → Walk V
  | [], w => w
  | (key, tp) :: rest, w =>
    let w := { w with steps := w.steps - 1 }
    if w.steps = 0 then w
    else if tp.referenced then walk rest { w with hot := w.hot.insert key tp.clearReferenced }
    else
      let w := { w with hand := key, victims := w.victims ++ [(key, tp)] }
      if w.victims.length ≥ kMaxVictims then w else walk rest w

/-- Write a victim to the cold tree. -/
def writeBack (victim : ℕ × TaggedPayload V) : Adapter V :=
  if cfg.inclusive then
    if victim.2.modified then s.upsertColdPartition victim.1 victim.2.payload else s
  else s.insertColdPartition victim.1 victim.2.payload

/-- Remove a victim from the hot tree. -/
def removeHot (victim : ℕ × TaggedPayload V) : Adapter V :=
  { s with
    hotBtree := (removeKey s.hotBtree victim.1).2
    hotPartitionItemCount := s.hotPartitionItemCount - 1 }

/-- Where the walk starts. -/
def startKey : ℕ := if s.clockHand = maxKey then 0 else s.clockHand

/-- `evict_a_bunch`. -/
def evictABunch : Adapter V :=
  let w := walk (scanFrom s.hotBtree s.startKey) ⟨s.hotBtree, s.clockHand, [], kClockWalkSteps⟩
  let s := { s with hotBtree := w.hot, clockHand := w.hand }
  if w.victims ≠ [] then w.victims.foldl removeHot (w.victims.foldl (writeBack cfg) s)
  else if w.steps = kClockWalkSteps then { s with clockHand := maxKey }
  else s

/-- `evict_all`; `none` is a loop that does not end. -/
def evictAll (cfg : Config) : ℕ → Adapter V → Option (Adapter V)
  | 0, _ => none
  | fuel + 1, s =>
    if s.hotPartitionItemCount > 0 then evictAll cfg fuel (s.evictABunch cfg) else some s

/-- `try_eviction`. -/
def tryEviction (pressure : Bool) : Adapter V :=
  let s := { s with evictionCountDown := s.evictionCountDown - 1 }
  if s.evictionCountDown = 0 then
    { (if pressure then s.evictABunch cfg else s) with evictionCountDown := kEvictionCheckInterval }
  else s

/-- `admit_element`. -/
def admitElement (ch : Choices) (k : ℕ) (v : V) (dirty referenced : Bool) : Adapter V :=
  (s.tryEviction cfg ch.pressureOnAdmit).insertHotPartition k v dirty referenced

/-! ## Operations -/

/-- `lookup`, without the eviction at its end. -/
def lookupBody (k : ℕ) (ch : Choices) : Adapter V × Option V :=
  match s.hotBtree[k]? with
  | some tp => ({ s with hotBtree := s.hotBtree.insert k tp.setReferenced }, some tp.payload)
  | none =>
    match s.coldBtree[k]? with
    | none => (s, none)
    | some tp =>
      if cfg.shouldMigrate ch.migrateDraw then
        let s := if cfg.inclusive then s else s.removeCold k
        (s.admitElement cfg ch k tp.payload false true, some tp.payload)
      else (s, some tp.payload)

/-- `lookup`. -/
def lookup (k : ℕ) (ch : Choices) : Adapter V × Option V :=
  let (s, res) := s.lookupBody cfg k ch
  (s.tryEviction cfg ch.pressureAtEnd, res)

/-- `insert`. -/
def insert (k : ℕ) (v : V) (ch : Choices) : Adapter V :=
  if cfg.inclusive then s.admitElement cfg ch k v true false
  else s.admitElement cfg ch k v false true

/-- `update`, without the eviction at its end. -/
def updateBody (k : ℕ) (v : V) (ch : Choices) : Adapter V :=
  match updateInPlace s.hotBtree k (TaggedPayload.overwrite v) with
  | (.ok, hot) => { s with hotBtree := hot }
  | _ =>
    if cfg.shouldMigrate ch.migrateDraw then
      let s := s.admitElement cfg ch k v true true
      if cfg.inclusive then s else s.removeCold k
    else { s with coldBtree := (updateInPlace s.coldBtree k (TaggedPayload.overwrite v)).2 }

/-- `update`. -/
def update (k : ℕ) (v : V) (ch : Choices) : Adapter V :=
  (s.updateBody cfg k v ch).tryEviction cfg ch.pressureAtEnd

/-- `put`, without the eviction at its end. -/
def putBody (k : ℕ) (v : V) (ch : Choices) : Adapter V :=
  match updateInPlace s.hotBtree k (TaggedPayload.overwrite v) with
  | (.ok, hot) => { s with hotBtree := hot }
  | _ =>
    let s := if cfg.inclusive then s else s.removeCold k
    s.admitElement cfg ch k v true true

/-- `put`. -/
def put (k : ℕ) (v : V) (ch : Choices) : Adapter V :=
  (s.putBody cfg k v ch).tryEviction cfg ch.pressureAtEnd

/-! ## Runs -/

/-- One call of the interface. -/
def step : Op V × Choices → Adapter V
  | (.insert k v, ch) => s.insert cfg k v ch
  | (.update k v, ch) => s.update cfg k v ch
  | (.put k v, ch) => s.put cfg k v ch
  | (.lookup k, ch) => (s.lookup cfg k ch).1
  | (.evict, _) => s.evictABunch cfg

/-- A sequence of calls. -/
def run (ops : List (Op V × Choices)) : Adapter V := ops.foldl (step cfg) s

end Adapter

end TwoTree.TwoBTree
