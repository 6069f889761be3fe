import TwoTree.Lib.ClockWalk
import TwoTree.Lib.Tiers
import TwoTree.StorageInterface

/-!
# The adapter over two RocksDB instances

`TwoRocksDBAdapter` keeps its hot records in one LSM tree, the top, and the others in a second one,
the bottom.  A record of the top carries a modified and a referenced flag.  Both instances are
ordered maps; a `Put` overwrites and a `Delete` of an absent key does nothing, and an iterator reads
the map as it was when the iterator was made.

Every write is an admission, and an admission may begin with an eviction.  The key that is admitted
may be in the top already, so the eviction may move its old record down first.  An exclusive adapter
does not remove that copy from the bottom again.

The outcomes of the migration draw and of the pressure test are a `Choices` record.  The assertions
are compiled out.
-/

namespace TwoTree.TwoLSMT

open Std Lib Lib.OrderedMap

variable {V : Type*}

/-- `TaggedPayload`, the record of the top instance. -/
structure TaggedPayload (V : Type*) where
  payload : V
  modified : Bool
  referenced : Bool
  deriving DecidableEq, Repr

/-- `tp2` in `evict_a_bunch`: the record without its referenced flag. -/
def TaggedPayload.unreference (tp : TaggedPayload V) : TaggedPayload V :=
  { tp with referenced := false }

/-- What one call finds outside the adapter. -/
structure Choices where
  /-- The draw in `should_migrate`. -/
  migrateDraw : ℕ
  /-- `cache_under_pressure` in an admission. -/
  pressure : Bool
  /-- Whether an eviction is `evict_all_items`. -/
  evictAll : Bool
  deriving DecidableEq, Repr

/-- The state of an adapter. -/
structure Adapter (V : Type*) where
  topDb : TreeMap ℕ (TaggedPayload V)
  bottomDb : TreeMap ℕ V
  clockHand : ℕ
  emptySlots : ℤ

/-- The number of victims at which a walk stops. -/
def kMaxVictims : ℕ := 1000

namespace Adapter

variable (cfg : Config) (s : Adapter V)

/-- The adapter a constructor leaves behind, over two empty instances. -/
def init : Adapter V := ⟨∅, ∅, maxKey, 0⟩

/-- `put_bottom_db`. -/
def putBottomDb (k : ℕ) (v : V) : Adapter V := { s with bottomDb := s.bottomDb.insert k v }

/-- `bottom_db->Delete`. -/
def deleteBottomDb (k : ℕ) : Adapter V := { s with bottomDb := s.bottomDb.erase k }

/-! ## Eviction -/

/-- What the walk of `evict_a_bunch` has done so far. -/
structure Walk (V : Type*) where
  top : TreeMap ℕ (TaggedPayload V)
  hand : ℕ
  victims : List (ℕ × TaggedPayload V)

/-- The loop of `evict_a_bunch` over the records its iterator yields. -/
def walk : List (ℕ × TaggedPayload V) → Walk V → Walk V
  | [], w => w
  | (key, tp) :: rest, w =>
    if tp.referenced then walk rest { w with top := w.top.insert key tp.unreference }
    else
      let w := { w with hand := key, victims := w.victims ++ [(key, tp)] }
      if w.victims.length ≥ kMaxVictims then w else walk rest w

/-- Delete a victim from the top and write it back. -/
def evictVictim (victim : ℕ × TaggedPayload V) : Adapter V :=
  let s := { s with topDb := s.topDb.erase victim.1 }
  if cfg.inclusive then
    if victim.2.modified then s.putBottomDb victim.1 victim.2.payload else s
  else s.putBottomDb victim.1 victim.2.payload

/-- The turn of the second loop of `evict_a_bunch`, which also counts its victims. -/
def evictVictimCounted (victim : ℕ × TaggedPayload V) : Adapter V :=
  { s.evictVictim cfg victim with emptySlots := s.emptySlots + 1 }

/-- Where the walk starts. -/
def startKey : ℕ := if s.clockHand = maxKey then 0 else s.clockHand

/-- `evict_a_bunch`. -/
def evictABunch : Adapter V :=
  let w := walk (scanFrom s.topDb s.startKey) ⟨s.topDb, s.clockHand, []⟩
  if w.victims ≠ [] then
    w.victims.foldl (evictVictimCounted cfg) { s with topDb := w.top, clockHand := w.hand }
  else { s with topDb := w.top, clockHand := maxKey }

/-- `evict_all_items`. -/
def evictAllItems : Adapter V :=
  let victims := scanFrom s.topDb 0
  match victims.getLast? with
  | some (key, _) => victims.foldl (evictVictim cfg) { s with clockHand := key }
  | none => { s with clockHand := maxKey }

/-! ## Operations -/

/-- `admit_element`. -/
def admitElement (ch : Choices) (k : ℕ) (v : V) (dirty : Bool) : Adapter V :=
  let s := if s.emptySlots ≤ 0 ∧ ch.pressure then s.evictABunch cfg else s
  { s with
    topDb := s.topDb.insert k ⟨v, dirty, true⟩
    emptySlots := if s.emptySlots > 0 then s.emptySlots - 1 else s.emptySlots }

/-- The way from the bottom to the top: an exclusive adapter first deletes the bottom record. -/
def migrate (ch : Choices) (k : ℕ) (v : V) (dirty : Bool) : Adapter V :=
  let s := if cfg.inclusive then s else s.deleteBottomDb k
  s.admitElement cfg ch k v dirty

/-- `lookup`. -/
def lookup (k : ℕ) (ch : Choices) : Adapter V × Option V :=
  match s.topDb[k]? with
  | some tp =>
    (if tp.referenced = false then s.admitElement cfg ch k tp.payload tp.modified else s,
      some tp.payload)
  | none =>
    match s.bottomDb[k]? with
    | some v =>
      (if cfg.shouldMigrate ch.migrateDraw then s.migrate cfg ch k v false else s, some v)
    | none => (s, none)

/-- `insert`. -/
def insert (k : ℕ) (v : V) (ch : Choices) : Adapter V := s.admitElement cfg ch k v true

/-- `put`. -/
def put (k : ℕ) (v : V) (ch : Choices) : Adapter V := s.admitElement cfg ch k v true

/-- `update`. -/
def update (k : ℕ) (v : V) (ch : Choices) : Adapter V :=
  match s.topDb[k]? with
  | some _ => s.admitElement cfg ch k v true
  | none =>
    match s.bottomDb[k]? with
    | some _ =>
      if cfg.shouldMigrate ch.migrateDraw then s.migrate cfg ch k v true else s.putBottomDb k v
    | none => s

/-! ## Runs -/

/-- One call of the interface. -/
def step : Op V × Choices → Adapter V
  | (.insert k v, ch) => s.insert cfg k v ch
  | (.update k v, ch) => s.update cfg k v ch
  | (.put k v, ch) => s.put cfg k v ch
  | (.lookup k, ch) => (s.lookup cfg k ch).1
  | (.evict, ch) => if ch.evictAll then s.evictAllItems cfg else s.evictABunch cfg

/-- A sequence of calls. -/
def run (ops : List (Op V × Choices)) : Adapter V := ops.foldl (step cfg) s

end Adapter

end TwoTree.TwoLSMT
