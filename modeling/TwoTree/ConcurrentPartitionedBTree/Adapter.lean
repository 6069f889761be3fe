import TwoTree.ConcurrentTwoBTree.Threads
import TwoTree.Lib.Interleaving

/-!
# The concurrent partitioned adapter

A hot and a cold tree without locks.  A record of the hot tree carries an `inflight` bit, and only
the thread that has set it may touch the record: a `lookup` that misses installs a placeholder, an
empty record in flight, and fills or removes it once it has read the cold tree; an eviction sets the
bit of the records it picks and removes them once they are in the cold tree.  Everybody else who
meets a record in flight tries again, or passes it by.

The threads call `insert`, `lookup`, `update` and `evict_a_bunch`.  One step is one operation on a
tree, one access to `in_eviction`, or the callback of the eviction's scan on one record.  A step of
`try_eviction` evicts or not as `Choices.pressure` says, which stands for the countdown of the
thread and the size of the hot tree.

`completed` is the map of the values last written: a write counts from the step on that puts the
value into the hot tree.
-/

namespace TwoTree.ConcurrentPartitionedBTree

open Std Lib Lib.OrderedMap ConcurrentTwoBTree

variable {V : Type*}

/-- `TaggedPayload`, the record of both trees. -/
structure TaggedPayload (V : Type*) where
  payload : V
  modified : Bool
  referenced : Bool
  inflight : Bool
  deriving DecidableEq, Repr

/-- The state the threads share. -/
structure Adapter (V : Type*) where
  hotBtree : TreeMap ℕ (TaggedPayload V)
  coldBtree : TreeMap ℕ (TaggedPayload V)
  clockHand : ℕ
  inEviction : Bool

/-- The adapter a constructor leaves behind, over two empty trees. -/
def Adapter.init : Adapter V := ⟨∅, ∅, maxKey, false⟩

/-- The calls of a thread. -/
inductive Call (V : Type*)
  | insert (k : ℕ) (v : V)
  | lookup (k : ℕ)
  | update (k : ℕ) (v : V)
  | evictABunch
  deriving DecidableEq, Repr

/-- What the environment decides in a step: whether the thread evicts, the number that
`should_migrate` draws, and the bytes of the empty payload. -/
structure Choices (V : Type*) where
  pressure : Bool
  migrateDraw : ℕ
  emptyPayload : V

/-- Where a thread stands in its call. -/
inductive Pc (V : Type*)
  /-- Between two calls. -/
  | idle
  /-- In `lookup`, which `update` also calls: at the label `retry`. -/
  | lookupHot (call : Call V) (k : ℕ)
  /-- Before the insertion of the placeholder. -/
  | installing (call : Call V) (k : ℕ)
  | coldLookup (call : Call V) (k : ℕ)
  /-- In `fill_lookup_placeholder`. -/
  | filling (call : Call V) (k : ℕ) (v : V)
  /-- The placeholder is filled, and the cold record is still there. -/
  | removingCold (call : Call V) (k : ℕ)
  | removingPlaceholder (call : Call V) (k : ℕ)
  /-- In `try_eviction`: before the load of `in_eviction`. -/
  | tryLoad (call : Call V)
  | tryCas (call : Call V)
  /-- In `insert`: before the insertion into the hot tree. -/
  | inserting (k : ℕ) (v : V)
  /-- In `update`: at the label `retry`. -/
  | updating (k : ℕ) (v : V)
  /-- In `evict_a_bunch`: before the scan. -/
  | entering (call : Call V)
  /-- The scan looks for the next record from `cursor` on. -/
  | scanning (call : Call V) (cursor steps : ℕ) (victims : List (ℕ × TaggedPayload V))
  /-- Behind the scan. -/
  | scanned (call : Call V) (steps : ℕ) (victims : List (ℕ × TaggedPayload V))
  /-- At the head of the eviction loop. -/
  | evicting (call : Call V) (victims : List (ℕ × TaggedPayload V))
  /-- In `upsert_cold_partition`, which has found no record to overwrite. -/
  | insertingCold (call : Call V) (k : ℕ) (v : V) (victims : List (ℕ × TaggedPayload V))
  | removingHot (call : Call V) (k : ℕ) (victims : List (ℕ × TaggedPayload V))

/-- `kClockWalkSteps`. -/
def kClockWalkSteps : ℕ := 1024

/-- The number of victims at which a scan stops. -/
def maxVictims : ℕ := 256

/-- Where a call starts. -/
def Call.start : Call V → Pc V
  | .insert k v => .tryLoad (.insert k v)
  | .lookup k => .lookupHot (.lookup k) k
  | .update k v => .updating k v
  | .evictABunch => .entering .evictABunch

/-- What follows once `try_eviction`, or the eviction that was called for, is over. -/
def Call.proceed : Call V → Pc V
  | .insert k v => .inserting k v
  | .lookup _ => .idle
  | .update k v => .updating k v
  | .evictABunch => .idle

/-- What `lookup` returns to a client; the one that `update` calls returns to nobody. -/
def Call.returns (call : Call V) (k : ℕ) (res : Option V) : Option (Event V) :=
  match call with
  | .lookup _ => some (.lookup k res)
  | _ => none

/-- The record of `insert_partition` in the cold tree. -/
def coldRecord (v : V) : TaggedPayload V := ⟨v, false, true, false⟩

namespace Pc

/-- The steps of `insert` and `update`. -/
def writeStep (cfg : Config) (a : Adapter V) : Pc V → Adapter V × Pc V × Option (Event V)
  | .inserting k v =>
    match insertNew a.hotBtree k ⟨v, cfg.inclusive, false, false⟩ with
    | (.ok, hot) => ({ a with hotBtree := hot }, .idle, some (.put k v))
    | _ => (a, .idle, none)
  | .updating k v =>
    match a.hotBtree[k]? with
    | some tp =>
      if tp.inflight then (a, .updating k v, none)
      else
        ({ a with hotBtree := a.hotBtree.insert k ⟨v, true, true, tp.inflight⟩ }, .idle,
          some (.put k v))
    | none => (a, .lookupHot (.update k v) k, none)
  | pc => (a, pc, none)

/-- The steps of `lookup`. -/
def lookupStep (cfg : Config) (ch : Choices V) (a : Adapter V) :
    Pc V → Adapter V × Pc V × Option (Event V)
  | .lookupHot call k =>
    match a.hotBtree[k]? with
    | some tp =>
      if tp.inflight then (a, .lookupHot call k, none)
      else
        ({ a with hotBtree := a.hotBtree.insert k { tp with referenced := true } }, .tryLoad call,
          call.returns k (some tp.payload))
    | none => (a, .installing call k, none)
  | .installing call k =>
    match insertNew a.hotBtree k ⟨ch.emptyPayload, false, true, true⟩ with
    | (.ok, hot) => ({ a with hotBtree := hot }, .coldLookup call k, none)
    | _ => (a, .lookupHot call k, none)
  | .coldLookup call k =>
    match a.coldBtree[k]? with
    | some tp =>
      (a, if cfg.shouldMigrate ch.migrateDraw then .filling call k tp.payload
        else .removingPlaceholder call k, call.returns k (some tp.payload))
    | none => (a, .removingPlaceholder call k, call.returns k none)
  | .filling call k v =>
    ({ a with hotBtree := (updateInPlace a.hotBtree k (fun _ => ⟨v, false, true, false⟩)).2 },
      if cfg.inclusive then .tryLoad call else .removingCold call k, none)
  | .removingCold call k =>
    ({ a with coldBtree := (removeKey a.coldBtree k).2 }, .tryLoad call, none)
  | .removingPlaceholder call k =>
    ({ a with hotBtree := (removeKey a.hotBtree k).2 }, .tryLoad call, none)
  | .tryLoad call =>
    (a, if ch.pressure && !a.inEviction then .tryCas call else call.proceed, none)
  | .tryCas call =>
    if a.inEviction then (a, call.proceed, none)
    else ({ a with inEviction := true }, .entering call, none)
  | pc => writeStep cfg a pc

/-- The callback of the scan on the next record. -/
def scanStep (a : Adapter V) (call : Call V) (cursor steps : ℕ)
    (victims : List (ℕ × TaggedPayload V)) : Adapter V × Pc V :=
  match (scanFrom a.hotBtree cursor).head? with
  | none => (a, .scanned call steps victims)
  | some (key, tp) =>
    if steps - 1 = 0 then (a, .scanned call (steps - 1) victims)
    else if tp.inflight then (a, .scanning call (key + 1) (steps - 1) victims)
    else if tp.referenced then
      ({ a with hotBtree := a.hotBtree.insert key { tp with referenced := false } },
        .scanning call (key + 1) (steps - 1) victims)
    else
      let tp' := { tp with inflight := true }
      let victims' := victims ++ [(key, tp')]
      ({ a with clockHand := key, hotBtree := a.hotBtree.insert key tp' },
        if victims'.length ≥ maxVictims then .scanned call (steps - 1) victims'
        else .scanning call (key + 1) (steps - 1) victims')

/-- The steps of `evict_a_bunch`. -/
def evictStep (cfg : Config) (ch : Choices V) (a : Adapter V) :
    Pc V → Adapter V × Pc V × Option (Event V)
  | .entering call =>
    (a, .scanning call (if a.clockHand = maxKey then 0 else a.clockHand) kClockWalkSteps [], none)
  | .scanning call cursor steps victims =>
    let (a', pc) := scanStep a call cursor steps victims
    (a', pc, none)
  | .scanned call steps victims =>
    ({ a with
        inEviction := false
        clockHand := if victims.isEmpty && steps == kClockWalkSteps then maxKey else a.clockHand },
      .evicting call victims, none)
  | .evicting call [] => (a, call.proceed, none)
  | .evicting call ((k, tp) :: victims) =>
    if cfg.inclusive then
      if tp.modified then
        match updateInPlace a.coldBtree k
            (fun old => { old with payload := tp.payload, referenced := true }) with
        | (.ok, cold) => ({ a with coldBtree := cold }, .removingHot call k victims, none)
        | _ => (a, .insertingCold call k tp.payload victims, none)
      else (a, .removingHot call k victims, none)
    else
      ({ a with coldBtree := (insertNew a.coldBtree k (coldRecord tp.payload)).2 },
        .removingHot call k victims, none)
  | .insertingCold call k v victims =>
    ({ a with coldBtree := (insertNew a.coldBtree k (coldRecord v)).2 },
      .removingHot call k victims, none)
  | .removingHot call k victims =>
    ({ a with hotBtree := (removeKey a.hotBtree k).2 }, .evicting call victims, none)
  | pc => lookupStep cfg ch a pc

end Pc

/-- The program of a thread.  A thread between two calls starts the call of its input. -/
def program (cfg : Config) :
    Interleaving.Program (Adapter V) (Pc V) (Call V × Choices V) (Event V) :=
  fun i a pc =>
    match pc with
    | .idle => (a, i.1.start, none)
    | pc => pc.evictStep cfg i.2 a

/-- No thread has started a call. -/
def start (a : Adapter V) : Interleaving.State (Adapter V) (Pc V) := ⟨a, fun _ => .idle⟩

/-- The step does not insert a record into a tree that holds one under its key.  An `insert` is one
of a key that neither tree holds. -/
def Admitted (cfg : Config) (a : Adapter V) : Pc V → Prop
  | .inserting k _ => a.hotBtree[k]? = none ∧ a.coldBtree[k]? = none
  | .evicting _ ((k, _) :: _) => cfg.inclusive = false → a.coldBtree[k]? = none
  | .insertingCold _ k _ _ => a.coldBtree[k]? = none
  | _ => True

instance decidableAdmitted (cfg : Config) (a : Adapter V) :
    (pc : Pc V) → Decidable (Admitted cfg a pc)
  | .inserting k _ => inferInstanceAs (Decidable (a.hotBtree[k]? = none ∧ a.coldBtree[k]? = none))
  | .evicting _ ((k, _) :: _) =>
    inferInstanceAs (Decidable (cfg.inclusive = false → a.coldBtree[k]? = none))
  | .insertingCold _ k _ _ => inferInstanceAs (Decidable (a.coldBtree[k]? = none))
  | .idle | .lookupHot .. | .installing .. | .coldLookup .. | .filling .. | .removingCold ..
  | .removingPlaceholder .. | .tryLoad _ | .tryCas _ | .updating .. | .entering _ | .scanning ..
  | .scanned .. | .evicting _ [] | .removingHot .. => isTrue trivial

end TwoTree.ConcurrentPartitionedBTree
