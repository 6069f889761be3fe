import TwoTree.AntiCaching.Block
import TwoTree.Lib.OrderedMap
import TwoTree.Lib.Ring
import TwoTree.StorageInterface

/-!
# The anti-caching adapter

`AntiCacheBTreeAdapter` keeps its tuples in memory until it runs out of it, and then moves the least
recently used ones to a block on disk, a block at a time.  The nodes of the tuples in memory form a
ring in the order of their use.  For a tuple in a block there is an entry in the evict table, which
is in memory as well.  An access to such a tuple brings its whole block back.

The nodes are addressed by numbers, and their pointers are kept apart from the rest of them
(`Ring.Links`); `lruHead` is the address of `lru_head`.  The allocator hands out addresses that have
not been used.

How much memory the two `stx::btree_map`s take depends on how many nodes they have, and so on their
history.  `Env.shape` gives these numbers for each state; so that it may depend on the history, a
state counts the changes made to the maps.  A loop that evicts blocks until there is no pressure may
run forever; it runs out of fuel then and gives `none`.
-/

namespace TwoTree.AntiCaching

open Std Lib Lib.OrderedMap Lib.Ring

/-- `TombstoneRecord`, the entry of the evict table. -/
structure TombstoneRecord where
  blockId : ℕ
  tupleOffset : ℕ
  deriving DecidableEq, Repr

/-- `TaggedPayload`, without its pointers. -/
structure TaggedPayload (L : Layout) where
  key : ℕ
  payload : Payload L
  deriving DecidableEq, Repr

/-- The numbers of nodes of the cache and of the evict table. -/
structure NodeCounts where
  leaves : ℕ
  innernodes : ℕ
  evictLeaves : ℕ
  evictInnernodes : ℕ

/-- The state of the adapter. -/
structure Adapter (L : Layout) where
  cache : TreeMap ℕ ℕ
  evictTable : TreeMap ℕ TombstoneRecord
  /-- The nodes in memory. -/
  nodes : ℕ → Option (TaggedPayload L)
  links : Links ℕ
  /-- The tree the blocks are stored in. -/
  btree : TreeMap ℕ (List UInt8)
  blockIdCounter : ℕ
  /-- The address of the next node. -/
  allocated : ℕ
  /-- How often the maps have been changed. -/
  changes : ℕ

/-- What an adapter is configured with, and what it finds. -/
structure Env (L : Layout) where
  cacheCapacityBytes : ℕ
  maintainLruSamplingThreshold : ℕ
  shape : Adapter L → NodeCounts

/-- `evict_block_size`. -/
def evictBlockSize : ℕ := 1024

/-- The address of `lru_head`. -/
def lruHead : ℕ := 0

/-- `sizeof(leaf_node)`: a header, two pointers, 64 keys and 64 values of 8 bytes. -/
def leafNodeSize : ℕ := 8 + 2 * 8 + 64 * 8 + 64 * 8

/-- `sizeof(inner_node)`: a header, 64 keys and 65 pointers. -/
def innerNodeSize : ℕ := 8 + 64 * 8 + 65 * 8

/-- `sizeof(TaggedPayload)`. -/
def Layout.sizeofTaggedPayload (L : Layout) : ℕ := L.tupleSize + 2 * 8

namespace Adapter

variable {L : Layout} (env : Env L) (a : Adapter L)

/-- The adapter a constructor leaves behind. -/
def init : Adapter L := ⟨∅, ∅, fun _ => none, .single lruHead, ∅, 0, 1, 0⟩

/-! ## Memory -/

/-- `get_cache_size`. -/
def getCacheSize : ℕ :=
  (env.shape a).leaves * leafNodeSize + (env.shape a).innernodes * innerNodeSize +
    a.cache.size * L.sizeofTaggedPayload

/-- `get_evict_table_size`. -/
def getEvictTableSize : ℕ :=
  (env.shape a).evictLeaves * leafNodeSize + (env.shape a).evictInnernodes * innerNodeSize

/-- `cache_under_pressure`; `eviction_threshold` is 0.99. -/
def cacheUnderPressure : Bool :=
  99 * env.cacheCapacityBytes ≤ 100 * (a.getCacheSize env + a.getEvictTableSize env)

/-! ## The ring -/

/-- `LRU_remove_self`. -/
def lruRemoveSelf (node : ℕ) : Adapter L := { a with links := a.links.unlink node }

/-- `LRU_move_to_head`. -/
def lruMoveToHead (node : ℕ) : Adapter L :=
  { a with links := (a.links.unlink node).linkFirst lruHead node }

/-- `LRU_move_to_tail`. -/
def lruMoveToTail (node : ℕ) : Adapter L :=
  { a with links := (a.links.unlink node).linkLast lruHead node }

/-! ## Evictions -/

/-- The body of the loop in `evict_bunch`: the node `p` goes to the block, behind the bytes that are
there. -/
def evictNode (blockId tupleOffset p : ℕ) (tp : TaggedPayload L) : Adapter L :=
  let a := { a with evictTable := a.evictTable.insert tp.key ⟨blockId, tupleOffset⟩ }
  let a := a.lruRemoveSelf p
  { a with cache := a.cache.erase tp.key, nodes := Function.update a.nodes p none }

/-- The loop in `evict_bunch`, from the node `p` backwards.  It ends before the fuel does, since the
block gets longer in each iteration. -/
def evictLoop (blockId : ℕ) : ℕ → Adapter L → List UInt8 → ℕ → ℕ → Adapter L × List UInt8
  | 0, a, block, _, _ => (a, block)
  | fuel + 1, a, block, tupleOffset, p =>
    if p = lruHead then (a, block)
    else if evictBlockSize < block.length + L.tupleSize then (a, block)
    else
      match a.nodes p, a.links.prev p with
      | some tp, some t =>
        evictLoop blockId fuel (a.evictNode blockId tupleOffset p tp)
          (block ++ tupleBytes (tp.key, tp.payload)) (tupleOffset + L.tupleSize) t
      | _, _ => (a, block)

/-- `evict_bunch`. -/
def evictBunch : Adapter L :=
  let blockId := a.blockIdCounter
  let a := { a with blockIdCounter := (a.blockIdCounter + 1) % 2 ^ 32 }
  let (a, block) := evictLoop blockId (evictBlockSize + 1) a [] 0
    ((a.links.prev lruHead).getD lruHead)
  { a with btree := (insertNew a.btree blockId block).2, changes := a.changes + 1 }

/-- `while (test()) evict_bunch();`. -/
def evictWhile (test : Adapter L → Bool) : ℕ → Adapter L → Option (Adapter L)
  | 0, _ => none
  | fuel + 1, a => if test a then evictWhile test fuel a.evictBunch else some a

/-- `evict_till_safe`. -/
def evictTillSafe (fuel : ℕ) (a : Adapter L) : Option (Adapter L) :=
  a.evictWhile (cacheUnderPressure env) fuel

/-- `evict_all`. -/
def evictAll (fuel : ℕ) (a : Adapter L) : Option (Adapter L) :=
  a.evictWhile (fun a => 0 < a.cache.size) fuel

/-! ## Admissions -/

/-- `admit_element_no_eviction`. -/
def admitElementNoEviction (k : ℕ) (v : Payload L) (head : Bool) : Adapter L :=
  let newNode := a.allocated
  let a := { a with
    nodes := Function.update a.nodes newNode (some ⟨k, v⟩)
    links := a.links.reset newNode
    allocated := newNode + 1
    cache := a.cache.insert k newNode
    changes := a.changes + 1 }
  if head then a.lruMoveToHead newNode else a.lruMoveToTail newNode

/-- `if (cache_under_pressure()) evict_till_safe();`. -/
def relieve (fuel : ℕ) (a : Adapter L) : Option (Adapter L) :=
  if a.cacheUnderPressure env then a.evictTillSafe env fuel else some a

/-- `admit_element`. -/
def admitElement (fuel : ℕ) (a : Adapter L) (k : ℕ) (v : Payload L) (head : Bool) :
    Option (Adapter L) := do
  let a ← a.relieve env fuel
  some (a.admitElementNoEviction k v head)

/-- The body of the loop in `bring_tuple_from_block_table`: the tuple at `off` of the block. -/
def bringTuple (k : ℕ) (block : List UInt8) (a : Adapter L) (off : ℕ) : Adapter L :=
  let (newKey, payload) := readTuple L block off
  let a := a.admitElementNoEviction newKey payload (newKey == k)
  { a with evictTable := a.evictTable.erase newKey }

/-- `bring_tuple_from_block_table` without the evictions at its end: all tuples of the block of `k`
become nodes again. -/
def bringBlock (k : ℕ) (trec : TombstoneRecord) : Adapter L :=
  let block := a.btree[trec.blockId]?.getD []
  let a := (offsets L block.length).foldl (bringTuple k block) a
  { a with btree := (removeKey a.btree trec.blockId).2 }

/-- `bring_tuple_from_block_table`. -/
def bringTupleFromBlockTable (fuel : ℕ) (a : Adapter L) (k : ℕ)
    (trec : TombstoneRecord) : Option (Adapter L) :=
  (a.bringBlock k trec).relieve env fuel

/-! ## The calls -/

/-- `maintain_lru`, with the random number it draws. -/
def maintainLru (draw : ℕ) : Bool := draw ≤ env.maintainLruSamplingThreshold

/-- The access to a node that ends a call. -/
def touch (draw : ℕ) (a : Adapter L) (node : ℕ) : Adapter L :=
  if maintainLru env draw then a.lruMoveToHead node else a

/-- `lookup`. -/
def lookup (env : Env L) (draw : ℕ) : ℕ → Adapter L → ℕ → Option (Adapter L × Option (Payload L))
  | 0, _, _ => none
  | fuel + 1, a, k =>
    match a.cache[k]? with
    | some node => some (a.touch env draw node, (a.nodes node).map (·.payload))
    | none =>
      match a.evictTable[k]? with
      | none => some (a, none)
      | some trec => do
        let a ← a.bringTupleFromBlockTable env fuel k trec
        lookup env draw fuel a k

/-- `update`. -/
def update (env : Env L) (draw : ℕ) : ℕ → Adapter L → ℕ → Payload L → Option (Adapter L)
  | 0, _, _, _ => none
  | fuel + 1, a, k, v =>
    match a.cache[k]? with
    | some node =>
      let nodes := Function.update a.nodes node
        ((a.nodes node).map (fun tp => { tp with payload := v }))
      some ({ a with nodes := nodes }.touch env draw node)
    | none =>
      match a.evictTable[k]? with
      | some trec => do
        let a ← a.bringTupleFromBlockTable env fuel k trec
        update env draw fuel a k v
      | none => a.admitElement env fuel k v true

/-- `insert`. -/
def insert (fuel : ℕ) (a : Adapter L) (k : ℕ) (v : Payload L) : Option (Adapter L) :=
  a.admitElement env fuel k v true

/-- `put`. -/
def put (draw fuel : ℕ) (a : Adapter L) (k : ℕ) (v : Payload L) : Option (Adapter L) :=
  a.update env draw fuel k v

end Adapter

/-- The calls of a client, and evictions of a block. -/
inductive Call (L : Layout)
  | insert (k : ℕ) (v : Payload L)
  | lookup (k : ℕ)
  | update (k : ℕ) (v : Payload L)
  | put (k : ℕ) (v : Payload L)
  | evictBunch
  | evictAll
  deriving DecidableEq, Repr

/-- One call, with the random number it draws. -/
def Adapter.call {L : Layout} (env : Env L) (fuel : ℕ) (a : Adapter L) (i : Call L × ℕ) :
    Option (Adapter L) :=
  match i.1 with
  | .insert k v => a.insert env fuel k v
  | .lookup k => (a.lookup env i.2 fuel k).map Prod.fst
  | .update k v => a.update env i.2 fuel k v
  | .put k v => a.put env i.2 fuel k v
  | .evictBunch => some a.evictBunch
  | .evictAll => a.evictAll fuel

/-- A sequence of calls. -/
def Adapter.run {L : Layout} (env : Env L) (fuel : ℕ) (a : Adapter L) (calls : List (Call L × ℕ)) :
    Option (Adapter L) :=
  calls.foldlM (Adapter.call env fuel) a

end TwoTree.AntiCaching
