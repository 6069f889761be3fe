import TwoTree.Lib.ClockWalk
import TwoTree.Lib.Tiers
import TwoTree.StorageInterface

/-!
# The record cache over a B-tree

`BTreeCachedVSAdapter` keeps its hot records in an ordered map in memory, the cache, and the others
in a B-tree on disk.  The cache stores a record with a modified and a referenced flag, the tree the
payload alone.  Like the two-tree adapters it is inclusive or exclusive.

There are two evictions.  `evict_one` walks the clock from its hand to the first record that is not
referenced and writes that one back; `evict_a_bunch` walks over at most 127 records and collects up
to 64 victims, which it erases and writes back in a second loop.  An admission evicts *before* it
adds its record.

An `update` that finds its key in the tree only admits the record as it is and then calls itself.
Its recursion is bounded by fuel here, and every activation has choices of its own.  The assertions
are compiled out, and the I/O statistics are left out.
-/

namespace TwoTree.BTreeCachedVS

open Std Lib Lib.OrderedMap

variable {V : Type*}

/-- `TaggedPayload`, the record of the cache. -/
structure TaggedPayload (V : Type*) where
  payload : V
  modified : Bool
  referenced : Bool
  deriving DecidableEq, Repr

/-- Clear the referenced flag. -/
def TaggedPayload.unreference (tp : TaggedPayload V) : TaggedPayload V :=
  { tp with referenced := false }

/-- What one activation of a call finds outside the adapter. -/
structure Choices (V : Type*) where
  /-- The draw in `should_migrate`. -/
  migrateDraw : ℕ
  /-- `cache_under_pressure` in an admission. -/
  pressureOnAdmit : Bool
  /-- `cache_under_pressure` at the end of the call. -/
  pressureAtEnd : Bool
  /-- Whether an eviction is `evict_one`. -/
  evictOne : Bool
  /-- Whether the iterator that `evict_one` has erased compares equal to `end()`. -/
  staleIsEnd : Bool
  /-- The bytes of `old_v` before `update` reads the tree. -/
  oldPayload : V

/-- The state of an adapter. -/
structure Adapter (V : Type*) where
  cache : TreeMap ℕ (TaggedPayload V)
  btree : TreeMap ℕ V
  clockHand : ℕ
  evictionCheckCountdown : ℕ

/-- `kEvictionCheckInterval`. -/
def kEvictionCheckInterval : ℕ := 50

/-- `kClockWalkSteps`. -/
def kClockWalkSteps : ℕ := 128

/-- The number of victims at which a walk stops. -/
def kMaxVictims : ℕ := 64

namespace Adapter

variable (cfg : Config) (s : Adapter V)

/-- The adapter a constructor leaves behind, over an empty tree. -/
def init : Adapter V := ⟨∅, ∅, maxKey, kEvictionCheckInterval⟩

/-! ## The tree -/

/-- `insert_btree`. -/
def insertBtree (k : ℕ) (v : V) : Adapter V := { s with btree := (insertNew s.btree k v).2 }

/-- `upsert_btree`. -/
def upsertBtree (k : ℕ) (v : V) : Adapter V :=
  match updateInPlace s.btree k (fun _ => v) with
  | (.notFound, _) => s.insertBtree k v
  | (_, btree) => { s with btree := btree }

/-- `btree.remove`. -/
def removeBtree (k : ℕ) : Adapter V := { s with btree := (removeKey s.btree k).2 }

/-! ## Eviction -/

/-- Write a victim back. -/
def writeBack (k : ℕ) (tp : TaggedPayload V) : Adapter V :=
  if cfg.inclusive then
    if tp.modified then s.upsertBtree k tp.payload else s
  else s.insertBtree k tp.payload

/-- The hand behind a victim: the next record, if there is one. -/
def handBehind : List (ℕ × TaggedPayload V) → ℕ
  | [] => maxKey
  | (k, _) :: _ => k

/-- The records of the cache from the clock hand on. -/
def fromHand : List (ℕ × TaggedPayload V) :=
  scanFrom s.cache (if s.clockHand = maxKey then 0 else s.clockHand)

/-- The loop of `evict_one` over the records from the hand on. -/
def evictOneFrom (cfg : Config) (staleIsEnd : Bool) :
    List (ℕ × TaggedPayload V) → Adapter V → Adapter V
  | [], s => { s with clockHand := maxKey }
  | (key, tp) :: rest, s =>
    if tp.referenced then
      evictOneFrom cfg staleIsEnd rest
        { s with cache := s.cache.insert key tp.unreference, clockHand := key }
    else
      let s := { s with clockHand := handBehind rest }
      let s := s.writeBack cfg key tp
      let s := { s with cache := s.cache.erase key }
      if staleIsEnd then { s with clockHand := maxKey } else s

/-- `evict_one`. -/
def evictOne (staleIsEnd : Bool) : Adapter V := evictOneFrom cfg staleIsEnd s.fromHand s

/-- What the walk of `evict_a_bunch` has done so far. -/
structure Walk (V : Type*) where
  cache : TreeMap ℕ (TaggedPayload V)
  hand : ℕ
  victims : List (ℕ × TaggedPayload V)
  steps : ℕ

/-- The loop of `evict_a_bunch` over the records from the hand on. -/
def walk : List (ℕ × TaggedPayload V) → Walk V → Walk V
  | [], w => w
  | (key, tp) :: rest, w =>
    let w := { w with steps := w.steps - 1 }
    if w.steps = 0 then w
    else if tp.referenced then
      walk rest { w with cache := w.cache.insert key tp.unreference, hand := key }
    else
      let w := { w with hand := handBehind rest, victims := w.victims ++ [(key, tp)] }
      if w.victims.length ≥ kMaxVictims then w else walk rest w

/-- Erase a victim and write it back. -/
def evictVictim (victim : ℕ × TaggedPayload V) : Adapter V :=
  { s with cache := s.cache.erase victim.1 }.writeBack cfg victim.1 victim.2

/-- `evict_a_bunch`. -/
def evictABunch : Adapter V :=
  let w := walk s.fromHand ⟨s.cache, s.clockHand, [], kClockWalkSteps⟩
  let s := { s with cache := w.cache, clockHand := w.hand }
  if w.victims ≠ [] then w.victims.foldl (evictVictim cfg) s
  else if w.steps = kClockWalkSteps then { s with clockHand := maxKey }
  else s

/-- `try_eviction`. -/
def tryEviction (pressure : Bool) : Adapter V :=
  let s := { s with evictionCheckCountdown := s.evictionCheckCountdown - 1 }
  if s.evictionCheckCountdown = 0 then
    { (if pressure then s.evictABunch cfg else s) with
      evictionCheckCountdown := kEvictionCheckInterval }
  else s

/-- `admit_element`. -/
def admitElement (ch : Choices V) (k : ℕ) (v : V) (dirty : Bool) : Adapter V :=
  let s := if ch.pressureOnAdmit then s.evictABunch cfg else s
  { s with cache := s.cache.insert k ⟨v, dirty, true⟩ }

/-- An admission from the tree, from which an exclusive adapter then removes the record. -/
def migrate (ch : Choices V) (k : ℕ) (v : V) : Adapter V :=
  let s := s.admitElement cfg ch k v false
  if cfg.inclusive then s else s.removeBtree k

/-! ## Operations -/

/-- `lookup`, without the eviction at its end. -/
def lookupBody (k : ℕ) (ch : Choices V) : Adapter V × Option V :=
  match s.cache[k]? with
  | some tp => ({ s with cache := s.cache.insert k { tp with referenced := true } },
      some tp.payload)
  | none =>
    match s.btree[k]? with
    | none => (s, none)
    | some v =>
      (if cfg.shouldMigrate ch.migrateDraw then s.migrate cfg ch k v else s, some v)

/-- `lookup`. -/
def lookup (k : ℕ) (ch : Choices V) : Adapter V × Option V :=
  let (s, res) := s.lookupBody cfg k ch
  (s.tryEviction cfg ch.pressureAtEnd, res)

/-- `insert`. -/
def insert (k : ℕ) (v : V) (ch : Choices V) : Adapter V :=
  if cfg.inclusive then s.admitElement cfg ch k v true else s.admitElement cfg ch k v false

/-- A write to a record of the cache. -/
def overwrite (k : ℕ) (v : V) : Adapter V := { s with cache := s.cache.insert k ⟨v, true, true⟩ }

/-- `updateSameSize` on the tree. -/
def updateBtree (k : ℕ) (v : V) : Adapter V :=
  { s with btree := (updateInPlace s.btree k (fun _ => v)).2 }

/-- `update`; `none` is a recursion that does not end. -/
def update (cfg : Config) (k : ℕ) (v : V) :
    ℕ → (ℕ → Choices V) → Adapter V → Option (Adapter V)
  | 0, _, _ => none
  | fuel + 1, ch, s => do
    let s ← match s.cache[k]? with
      | some _ => some (s.overwrite k v)
      | none =>
        if cfg.shouldMigrate (ch 0).migrateDraw then
          update cfg k v fuel (fun i => ch (i + 1))
            (s.migrate cfg (ch 0) k (s.btree[k]?.getD (ch 0).oldPayload))
        else some (s.updateBtree k v)
    some (s.tryEviction cfg (ch 0).pressureAtEnd)

/-- `put`. -/
def put (k : ℕ) (v : V) (ch : Choices V) : Adapter V :=
  match s.cache[k]? with
  | some _ => s.overwrite k v
  | none =>
    if cfg.inclusive then s.admitElement cfg ch k v true
    else
      let s := s.updateBtree k v
      if cfg.shouldMigrate ch.migrateDraw then s.migrate cfg ch k v else s

/-! ## Runs -/

/-- One call of the interface. -/
def step (fuel : ℕ) (s : Adapter V) : Op V × (ℕ → Choices V) → Option (Adapter V)
  | (.insert k v, ch) => some (s.insert cfg k v (ch 0))
  | (.update k v, ch) => update cfg k v fuel ch s
  | (.put k v, ch) => some (s.put cfg k v (ch 0))
  | (.lookup k, ch) => some (s.lookup cfg k (ch 0)).1
  | (.evict, ch) =>
    some (if (ch 0).evictOne then s.evictOne cfg (ch 0).staleIsEnd else s.evictABunch cfg)

/-- A sequence of calls. -/
def run (fuel : ℕ) (s : Adapter V) (ops : List (Op V × (ℕ → Choices V))) : Option (Adapter V) :=
  ops.foldlM (step cfg fuel) s

end Adapter

end TwoTree.BTreeCachedVS
