import TwoTree.ConcurrentTwoBTree.Rounds
import TwoTree.Lib.OrderedMap
import TwoTree.Lib.Tiers
import TwoTree.LockManager.Table
import TwoTree.StorageInterface
import TwoTree.TaggedPayload

/-!
# What the hash and the heap adapter share

`TwoHashAdapter` and `TwoIHeapAdapter` are written to one pattern.  Each keeps a hot and a cold
map under one lock table, tags the hot payloads, and moves records between the two: a lookup
migrates what it finds in the cold map, and an eviction walks over some of the hot records,
clears reference bits, and moves the records without one back.  They differ in the order in
which the clock visits the hot records, in the way an element is admitted, and in details of the
operations.

A `Store` is the common part of their states.  This file has the functions the two adapters
share, with what differs as a parameter: the list of keys an eviction visits, the order of its
two tree operations (`move`), and the `admission`.  The assertions are compiled out, and
the statistics are left out.
-/

namespace TwoTree.Tiered

open Std Lib Lib.OrderedMap LockManager ConcurrentTwoBTree

variable {V : Type*}

/-- The maps, the locks and the item count of an adapter. -/
structure Store (V : Type*) where
  hot : TreeMap ℕ (TaggedPayload V)
  cold : TreeMap ℕ V
  lockTable : OptimisticLockTable
  hotPartitionItemCount : ℤ

/-- The order in which the records of a bucket or a page are visited. -/
structure VisitOrder where
  visit : ℕ → List ℕ → List ℕ
  perm : ∀ unit keys, (visit unit keys).Perm keys

/-- The ascending order. -/
def VisitOrder.ascending : VisitOrder := ⟨fun _ keys => keys, fun _ _ => .refl _⟩

namespace Store

variable (s : Store V) (cfg : Config)

/-- Two empty maps. -/
def init : Store V := ⟨∅, ∅, .init, 0⟩

/-! ## Partitions -/

/-- `insert_hot_partition`. -/
def insertHotPartition (k : ℕ) (v : V) (modified referenced : Bool) : Store V :=
  { s with
    hot := (insertNew s.hot k (.ofFlags v modified referenced)).2
    hotPartitionItemCount := s.hotPartitionItemCount + 1 }

/-- `admit_element`. -/
def admitElement (k : ℕ) (v : V) (dirty referenced : Bool) : Store V :=
  s.insertHotPartition k v dirty referenced

/-- `upsert_cold_partition`. -/
def upsertColdPartition (k : ℕ) (v : V) : Store V := { s with cold := s.cold.insert k v }

/-- `insert_cold_partition`. -/
def insertColdPartition (k : ℕ) (v : V) : Store V := { s with cold := (insertNew s.cold k v).2 }

/-- The removal of a key from the cold map. -/
def removeCold (k : ℕ) : Store V := { s with cold := (removeKey s.cold k).2 }

/-- The removal of a key from the hot map, with the decrement of the item count. -/
def removeHot (k : ℕ) : Store V :=
  { s with
    hot := (removeKey s.hot k).2
    hotPartitionItemCount := s.hotPartitionItemCount - 1 }

/-! ## Eviction -/

/-- A record an eviction picked: the key, the copy of its payload, and the version of its lock
word at that moment. -/
structure Victim (V : Type*) where
  key : ℕ
  payload : TaggedPayload V
  lockVersion : ℕ

/-- The callback on one record: a referenced record loses its reference bit, any other is picked
unless it is write-locked. -/
def examine (word key : ℕ) (tp : TaggedPayload V) : TaggedPayload V × Option (Victim V) :=
  if tp.referenced then (tp.clearReferenced, none)
  else
    let (readable, g) := (OptimisticLockGuard.construct word).readLock word
    (tp, if readable then some ⟨key, tp, g.version⟩ else none)

/-- The walk over the keys the clock selected; a key that has left the hot map is skipped. -/
def examineKeys (locks : OptimisticLockTable) : List ℕ → TreeMap ℕ (TaggedPayload V) →
    TreeMap ℕ (TaggedPayload V) × List (Victim V)
  | [], hot => (hot, [])
  | key :: rest, hot =>
    match hot[key]? with
    | none => examineKeys locks rest hot
    | some tp =>
      let (tp', victim) := examine (locks.word key) key tp
      let (hot', victims) := examineKeys locks rest (hot.insert key tp')
      (hot', victim.toList ++ victims)

/-- The payload a victim is evicted with: the copy of the walk, or what the hot map holds now if
the record may have been written since.  A victim that has left the hot map is skipped. -/
def victimPayload (victim : Victim V) (g : OptimisticLockGuard) : Option (TaggedPayload V) :=
  if g.moreThanOneWriterSince victim.lockVersion then s.hot[victim.key]? else some victim.payload

/-- Write a victim's payload to the cold map. -/
def writeBack (s : Store V) (k : ℕ) (tp : TaggedPayload V) : Store V :=
  if cfg.inclusive then (if tp.modified then s.upsertColdPartition k tp.payload else s)
  else s.insertColdPartition k tp.payload

/-- The move of a victim that writes to the cold map first. -/
def writeBackThenRemove (s : Store V) (k : ℕ) (tp : TaggedPayload V) : Store V :=
  (s.writeBack cfg k tp).removeHot k

/-- The move of a victim that removes it from the hot map first. -/
def removeThenWriteBack (s : Store V) (k : ℕ) (tp : TaggedPayload V) : Store V :=
  (s.removeHot k).writeBack cfg k tp

/-- The body of the eviction loop. -/
def evictOne (move : Store V → ℕ → TaggedPayload V → Store V) (s : Store V)
    (victim : Victim V) : Store V :=
  let word := s.lockTable.word victim.key
  let (locked, w, g) := (OptimisticLockGuard.construct word).writeLock word
  if locked then
    let s := { s with lockTable := s.lockTable.setWord victim.key w }
    let s := match s.victimPayload victim g with
      | none => s
      | some tp => move s victim.key tp
    { s with lockTable := s.lockTable.release victim.key g }
  else s

/-- An eviction of the records under the given keys. -/
def evictKeys (move : Store V → ℕ → TaggedPayload V → Store V) (s : Store V) (keys : List ℕ) :
    Store V :=
  let (hot, victims) := examineKeys s.lockTable keys s.hot
  victims.foldl (evictOne move) { s with hot := hot }

/-- The section protected by `eviction_mutex`, where the clock runs over numbered buckets or
pages: the call claims the next `steps` of them, up to the last one, and registers itself with
the current round.  `none` is a call that returns from the section.  The number of units never
shrinks, so the hand is not behind the last one. -/
def claimUnits (c : EvictionClock) (steps units : ℕ) : Option (List ℕ × ℕ × EvictionClock) :=
  if c.refCounter (1 - parity c.evictionRound) ≠ 0 then none
  else
    let rewind := c.clockHand + steps > units
    let endUnit := if rewind then units else c.clockHand + steps
    some (List.range' c.clockHand (endUnit - c.clockHand), c.evictionRound,
      { clockHand := if rewind then 0 else endUnit
        evictionRound := if rewind then u64 (c.evictionRound + 1) else c.evictionRound
        refCounter := Function.update c.refCounter (parity c.evictionRound)
          (c.refCounter (parity c.evictionRound) + 1) })

/-- The keys visited in one bucket or page of the hot map. -/
def unitKeys (unitOf : ℕ → ℕ) (order : VisitOrder) (unit : ℕ) : List ℕ :=
  order.visit unit (s.hot.keys.filter (fun k => unitOf k = unit))

/-! ## Lookup -/

/-- The callback of the hot lookup. -/
def touch (tp : TaggedPayload V) : TaggedPayload V :=
  if tp.referenced then tp else tp.setReferenced

/-- Admit an element that was found in the cold map; an exclusive store removes it there, if the
admission took place. -/
def moveUp (admission : Store V → ℕ → V → Bool × Store V) (s : Store V) (k : ℕ) (v : V) : Store V :=
  let (admitted, s) := admission s k v
  if !cfg.inclusive && admitted then s.removeCold k else s

/-- `lookup_internal`: the value found, if any. -/
def lookupInternal (migrates : Bool) (admission : Store V → ℕ → V → Bool × Store V)
    (s : Store V) (k : ℕ) (g : OptimisticLockGuard) : Store V × OptimisticLockGuard × Option V :=
  match s.hot[k]? with
  | some tp => ({ s with hot := s.hot.insert k (touch tp) }, g, some tp.payload)
  | none =>
    match s.cold[k]? with
    | none => (s, g, none)
    | some v =>
      if migrates then
        let (upgraded, w, g') := g.upgradeToWriteLock (s.lockTable.word k)
        let s := { s with lockTable := s.lockTable.setWord k w }
        if upgraded then (s.moveUp cfg admission k v, g', some v) else (s, g', none)
      else (s, g, some v)

/-- The loop of `lookup`. -/
def lookupLoop (cfg : Config) (migrates : Bool) (admission : Store V → ℕ → V → Bool × Store V)
    (k : ℕ) : ℕ → Store V → Option (Store V × Option V)
  | 0, _ => none
  | fuel + 1, s =>
    let word := s.lockTable.word k
    let (readable, g) := (OptimisticLockGuard.construct word).readLock word
    if readable then
      let (s, g, res) := s.lookupInternal cfg migrates admission k g
      let valid := g.validate (s.lockTable.word k)
      let s := { s with lockTable := s.lockTable.release k g }
      if valid then some (s, res) else lookupLoop cfg migrates admission k fuel s
    else lookupLoop cfg migrates admission k fuel s

/-! ## Writes -/

/-- Run the body of a writing operation between `write_lock` and the guard's destructor. -/
def underWriteLock (fuel : ℕ) (s : Store V) (k : ℕ) (body : Store V → Store V) :
    Option (Store V) :=
  (s.lockTable.spinWriteLock fuel k (OptimisticLockGuard.construct (s.lockTable.word k))).map
    (fun (locks, g) =>
      let s := body { s with lockTable := locks }
      { s with lockTable := s.lockTable.release k g })

/-- `insert`, whose two branches treat the element in the same way. -/
def insertLocked (k : ℕ) (v : V) (s : Store V) : Store V := s.admitElement k v true false

/-- A `lookupForUpdate` on the cold map that overwrites the payload. -/
def updateCold (k : ℕ) (v : V) : Store V :=
  { s with cold := (updateInPlace s.cold k (fun _ => v)).2 }

end Store

end TwoTree.Tiered
