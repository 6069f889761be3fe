import TwoTree.LinearHashing.Table

/-!
# The linear hash table with an overflow heap

`LinearHashTableWithOverflowHeap`: a bucket is one page, found through the mapping table, and up to
sixteen overflow pages, which are tuples of a heap file and are listed in the header of the bucket's
page.  The heap file is taken as what it is for: it keeps a tuple under its id until it is removed.
Which id a new tuple gets is up to the heap file, and so every operation that inserts one is told.

The compaction of a bucket's page deserves a look (`Node.compactify`).  The page is copied to a new
one, and of the header only the list of overflow pages is carried over, not how many there are.

As for `LinearHashTable`, an operation has no result (`none`) where the source never comes back or
writes outside of its arrays and pages.
-/

namespace TwoTree.OverflowHeap

open Hashing LinearHashing Function

/-- `kOverflowPageSize` -/
def kOverflowPageSize : ℕ := effectivePageSize / 8

/-- `kOverflowSlots` -/
def kOverflowSlots : ℕ := 16

variable (cfg : Config)

/-- The pages of the buckets; `LinearHashingWithOverflowHeapNodeHeader` has 80 bytes. -/
def nodeLayout : Layout := ⟨effectivePageSize, 80, cfg.fingerprint, by decide⟩

/-- The overflow pages; their header has 6 bytes. -/
def overflowLayout : Layout := ⟨kOverflowPageSize, 6, cfg.fingerprint, by decide⟩

/-- `LinearHashingWithOverflowHeapNode` -/
structure Node where
  page : Page
  overflows : ℕ → ℕ
  numOverflowPages : ℕ

namespace Node

/-- A node that has just been initialised. -/
def init : Node := ⟨Page.init (nodeLayout cfg), fun _ => 0, 0⟩

/-- The overflow pages of the bucket. -/
def listed (n : Node) : List ℕ := (List.range n.numOverflowPages).map n.overflows

/-- `compactify` -/
def compactify (n : Node) : Node :=
  { init cfg with page := n.page.compactify (nodeLayout cfg), overflows := n.overflows }

/-- `requestSpaceFor`, as what it leaves of the node. -/
def requestSpaceFor (n : Node) (needed : ℕ) : Node :=
  if needed ≤ n.page.freeSpace (nodeLayout cfg) then n
  else if needed ≤ n.page.freeSpaceAfterCompaction (nodeLayout cfg) then n.compactify cfg
  else n

/-- `insert` -/
def insert (n : Node) (key payload : Bytes) : Node :=
  let n := n.requestSpaceFor cfg (spaceNeeded key payload)
  { n with page := n.page.storeKeyValue (nodeLayout cfg) key payload }

end Node

/-- `LinearHashTableWithOverflowHeap`, with the nodes that the mapping table leads to, and the tuples
of the heap file. -/
structure Table where
  rounds : Rounds
  dataStored : ℕ
  nodes : ℕ → Option Node
  heap : ℕ → Option Page

/-- The ids that an operation gets from the heap file, if it inserts: for a new overflow page, and for
those of a new bucket. -/
structure TupleIds where
  overflow : ℕ
  buddies : ℕ → ℕ

/-- `create` -/
def Table.create : Table where
  rounds := Rounds.init
  dataStored := 0
  nodes b := if b < N then some (Node.init cfg) else none
  heap _ := none

namespace Table

variable (t : Table)

/-- The bucket that the split pointer gives for a key. -/
def bucket (key : Bytes) : ℕ := bucketOf cfg.hashFunc t.rounds.power t.rounds.buddyBucket key

/-- The records of an overflow page. -/
def tuple (id : ℕ) : List (Bytes × Bytes) := ((t.heap id).map Page.records).getD []

/-- The records of a bucket, in the order in which the loops over it meet them. -/
def recordsAt (b : ℕ) : List (Bytes × Bytes) :=
  match t.nodes b with
  | none => []
  | some n => n.page.records ++ n.listed.flatMap t.tuple

/-- Replace the node of a bucket. -/
def setNode (b : ℕ) (n : Node) : Table := { t with nodes := update t.nodes b (some n) }

/-- Write an overflow page. -/
def setTuple (id : ℕ) (page : Page) : Table := { t with heap := update t.heap id (some page) }

/-! ## Lookup -/

/-- `lookup`: the payload, if the key is found. -/
def lookup (key : Bytes) : Option (Option Bytes) :=
  match t.nodes (t.bucket cfg key) with
  | none => none
  | some n =>
    match n.page.get (nodeLayout cfg) key with
    | some value => some (some value)
    | none => some (n.listed.findSome? (fun id =>
      (t.heap id).bind (fun page => page.get (overflowLayout cfg) key)))

/-! ## Loops over the overflow pages -/

/-- The loops that change an overflow page: the first on which `f` succeeds is replaced by its
result. -/
def firstOverflow (f : Page → Option Page) (t : Table) : List ℕ → Option Table
  | [] => none
  | id :: ids =>
    match (t.heap id).bind f with
    | some page => some (t.setTuple id page)
    | none => firstOverflow f t ids

/-- The loop of `insert` and the second of `upsert`: the first overflow page with room takes the
record. -/
def insertLoop (key value : Bytes) : List ℕ → Option Table :=
  t.firstOverflow (fun page =>
    if page.canInsert (overflowLayout cfg) key value then
      some (page.insert (overflowLayout cfg) key value)
    else none)

/-- The first loop of `upsert`: the overflow page that has the key is updated. -/
def updateLoop (key value : Bytes) : List ℕ → Option Table :=
  t.firstOverflow (fun page =>
    (page.find (overflowLayout cfg) key).map (fun i => page.update i value))

/-- The loop of `remove`: the key is taken from the overflow page that has it. -/
def removeLoop (key : Bytes) : List ℕ → Option Table :=
  t.firstOverflow (fun page => (page.find (overflowLayout cfg) key).map page.removeSlot)

/-- A new overflow page with the record on it.  The list has sixteen places, and it is not checked
that the record fits. -/
def addOverflow (b : ℕ) (n : Node) (key value : Bytes) (new : ℕ) : Option Table :=
  if n.numOverflowPages < kOverflowSlots ∧
      (Page.init (overflowLayout cfg)).canInsert (overflowLayout cfg) key value then
    some ((t.setTuple new ((Page.init (overflowLayout cfg)).insert (overflowLayout cfg)
      key value)).setNode b { n with
        overflows := update n.overflows n.numOverflowPages new
        numOverflowPages := n.numOverflowPages + 1 })
  else none

/-- The record goes to an overflow page, if need be to a new one. -/
def insertOverflow (b : ℕ) (n : Node) (key value : Bytes) (new : ℕ) : Option Table :=
  ((t.insertLoop cfg key value n.listed).or (t.addOverflow cfg b n key value new)).map
    (fun t => { t with dataStored := u64 (t.dataStored + (key.length + value.length)) })

end Table

/-! ## Split -/

/-- What a split gathers for one of its two buckets: `split_bucket_tmp` and `split_bucket_overflows`,
or `buddy_bucket_tmp` and `buddy_bucket_overflows`. -/
structure Part where
  page : Page
  overflows : List Page

namespace Part

/-- Nothing yet. -/
def init : Part := ⟨Page.init (nodeLayout cfg), []⟩

/-- A record for the overflow pages goes to the last one, or to a new one behind it. -/
def addOverflow (overflows : List Page) (r : Bytes × Bytes) : List Page :=
  match overflows.getLast? with
  | none => [(Page.init (overflowLayout cfg)).insert (overflowLayout cfg) r.1 r.2]
  | some back =>
    if back.canInsert (overflowLayout cfg) r.1 r.2 then
      overflows.dropLast ++ [back.insert (overflowLayout cfg) r.1 r.2]
    else overflows ++ [(Page.init (overflowLayout cfg)).insert (overflowLayout cfg) r.1 r.2]

/-- One more record.  It is not checked that a record fits on a new overflow page. -/
def add (p : Part) (r : Bytes × Bytes) : Option Part :=
  if p.page.canInsert (nodeLayout cfg) r.1 r.2 then
    some { p with page := p.page.insert (nodeLayout cfg) r.1 r.2 }
  else if (Page.init (overflowLayout cfg)).canInsert (overflowLayout cfg) r.1 r.2 then
    some { p with overflows := addOverflow cfg p.overflows r }
  else none

end Part

/-- The records of a bucket, divided by the bucket they have in the next round. -/
def distribute (splitBucket power : ℕ) (records : List (Bytes × Bytes)) : Option (Part × Part) :=
  records.foldlM (fun tmp r =>
    if hash cfg.hashFunc r.1 (power + 1) = splitBucket then
      (tmp.1.add cfg r).map (fun p => (p, tmp.2))
    else (tmp.2.add cfg r).map (fun p => (tmp.1, p))) (Part.init cfg, Part.init cfg)

/-- Write one tuple after the other. -/
def writeTuples (heap : ℕ → Option Page) (ids : List ℕ) (pages : List Page) : ℕ → Option Page :=
  (ids.zip pages).foldl (fun heap e => update heap e.1 (some e.2)) heap

/-- Remove one tuple after the other. -/
def removeTuples (heap : ℕ → Option Page) (ids : List ℕ) : ℕ → Option Page :=
  ids.foldl (fun heap id => update heap id none) heap

namespace Table

/-- The records that stay are written over the bucket that is split, and the overflow pages it no
longer needs are removed. -/
def writeSplit (t : Table) (splitBucket : ℕ) (n : Node) (s : Part) : Table :=
  { t with
    nodes := update t.nodes splitBucket
      (some { n with page := s.page, numOverflowPages := s.overflows.length })
    heap := removeTuples (writeTuples t.heap n.listed s.overflows)
      (n.listed.drop s.overflows.length) }

/-- The other records are written to the new bucket. -/
def writeBuddy (t : Table) (buddy : ℕ) (d : Part) (ids : ℕ → ℕ) : Table :=
  { t with
    nodes := update t.nodes buddy (some ⟨d.page, ids, d.overflows.length⟩)
    heap := writeTuples t.heap ((List.range d.overflows.length).map ids) d.overflows }

/-- `split` -/
def split (t : Table) (ids : TupleIds) : Option Table :=
  match t.rounds.startSplit with
  | none => none
  | some rounds =>
    if tableSlots ≤ t.rounds.buddyBucket then none
    else
      match t.nodes t.rounds.splitBucket with
      | none => none
      | some n =>
        match distribute cfg t.rounds.splitBucket t.rounds.power
            (t.recordsAt t.rounds.splitBucket) with
        | none => none
        | some (s, d) =>
          -- the bucket that is split gets no new overflow pages, and the list has sixteen places
          if n.numOverflowPages < s.overflows.length ∨ kOverflowSlots < d.overflows.length then none
          else some { (t.writeSplit t.rounds.splitBucket n s).writeBuddy t.rounds.buddyBucket d
                        ids.buddies with rounds := rounds.finishSplit }

/-- `current_load_factor() > kSplitLoadFactor`, with a factor of 1. -/
def Overloaded (t : Table) : Prop := t.rounds.buddyBucket * effectivePageSize < t.dataStored

instance (t : Table) : Decidable t.Overloaded := inferInstanceAs (Decidable (_ < _))

/-- The split that `insert` and `upsert` end with, if the load asks for it. -/
def splitIfOverloaded (t : Table) (ids : TupleIds) : Option Table :=
  if t.Overloaded then t.split cfg ids else some t

/-! ## The operations -/

/-- `insert`, without the split at its end. -/
def insertRecord (t : Table) (key value : Bytes) (new : ℕ) : Option Table :=
  match t.nodes (t.bucket cfg key) with
  | none => none
  | some n =>
    if n.page.canInsert (nodeLayout cfg) key value then
      some { t.setNode (t.bucket cfg key) (n.insert cfg key value) with
        dataStored := u64 (t.dataStored + (key.length + value.length)) }
    else t.insertOverflow cfg (t.bucket cfg key) n key value new

/-- `insert` -/
def insert (t : Table) (key value : Bytes) (ids : TupleIds) : Option Table :=
  (t.insertRecord cfg key value ids.overflow).bind (fun t => t.splitIfOverloaded cfg ids)

/-- `upsert`, without the split at its end.  A new record never goes to the bucket's own page, and an
update of an overflow page is not counted. -/
def upsertRecord (t : Table) (key value : Bytes) (new : ℕ) : Option Table :=
  match t.nodes (t.bucket cfg key) with
  | none => none
  | some n =>
    match n.page.find (nodeLayout cfg) key with
    | some i =>
      some { t.setNode (t.bucket cfg key) { n with page := n.page.update i value } with
        dataStored := u64 (u64Sub t.dataStored ((n.page.slots[i]?.map Slot.size).getD 0) +
          (key.length + value.length)) }
    | none =>
      (t.updateLoop cfg key value n.listed).or
        (t.insertOverflow cfg (t.bucket cfg key) n key value new)

/-- `upsert` -/
def upsert (t : Table) (key value : Bytes) (ids : TupleIds) : Option Table :=
  (t.upsertRecord cfg key value ids.overflow).bind (fun t => t.splitIfOverloaded cfg ids)

/-- `remove`.  If the key is on an overflow page, the size that is subtracted is read from its slot
number -1, whatever is there (`stray`). -/
def remove (t : Table) (key : Bytes) (stray : ℕ) : Option Table :=
  match t.nodes (t.bucket cfg key) with
  | none => none
  | some n =>
    match n.page.find (nodeLayout cfg) key with
    | some i =>
      some { t.setNode (t.bucket cfg key) { n with page := n.page.removeSlot i } with
        dataStored := u64Sub t.dataStored ((n.page.slots[i]?.map Slot.size).getD 0) }
    | none =>
      some (((t.removeLoop cfg key n.listed).map
        (fun t => { t with dataStored := u64Sub t.dataStored stray })).getD t)

end Table

/-- A call of the table by its one thread. -/
inductive Op where
  | insert (key value : Bytes) (ids : TupleIds)
  | upsert (key value : Bytes) (ids : TupleIds)
  | remove (key : Bytes) (stray : ℕ)
  | lookup (key : Bytes)
  | split (ids : TupleIds)

/-- What a call does to the table. -/
def Table.call (t : Table) : Op → Option Table
  | .insert key value ids => t.insert cfg key value ids
  | .upsert key value ids => t.upsert cfg key value ids
  | .remove key stray => t.remove cfg key stray
  | .lookup key => (t.lookup cfg key).map (fun _ => t)
  | .split ids => t.split cfg ids

end TwoTree.OverflowHeap
