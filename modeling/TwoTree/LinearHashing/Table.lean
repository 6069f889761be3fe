import TwoTree.Units
import TwoTree.Lib.Chain
import TwoTree.Hashing.SplitPointer

/-!
# The linear hash table

`LinearHashTable`: every bucket is a chain of pages, the first of which is found through the mapping
table and the others through overflow links.  Pages are identified by their buffer frames, which are
numbers here; `pages` has all of them, whether they are in a chain or not.  The buffer manager decides
which frame an allocation yields, and so every operation that allocates is told.

The functions here are the operations of a single thread, in which no latch is contended and no
version check fails.  Each loop over a chain is a recursion over the frames of the chain.  An operation
has no result (`none`) where the source never comes back, or leaves its arrays: a split that finds its
round finished tries again forever, a bucket without chain is waited for, the split's array of guards
has ten places, and the mapping table has `tableSlots`.
-/

namespace TwoTree.LinearHashing

open Hashing Lib.Chain Function

/-- `EFFECTIVE_PAGE_SIZE`, which is also `sizeof(LinearHashingNode)`. -/
def effectivePageSize : ℕ := 16352

/-- The functions of the key's bytes that the table uses: the registered hash function, and the
fingerprint. -/
structure Config where
  hashFunc : Bytes → ℕ
  fingerprint : Bytes → ℕ

/-- The pages of the table; `LinearHashingNodeHeader` has 32 bytes. -/
def Config.layout (cfg : Config) : Layout := ⟨effectivePageSize, 32, cfg.fingerprint, by decide⟩

/-- Keys hashed to the sum of their bytes. -/
def sumConfig : Config := ⟨fun key => (key.map UInt8.toNat).sum, List.length⟩

/-- `LinearHashingNode` -/
structure Node where
  page : Page
  overflow : Option ℕ
deriving DecidableEq, Repr

/-- `LinearHashTable`, with the pages it lies on.  Frames from `allocated` on have not been used. -/
structure Table where
  rounds : Rounds
  dataStored : ℕ
  bucketPtrs : ℕ → Option ℕ
  pages : ℕ → Node
  allocated : ℕ

/-- The frames that an operation gets from the buffer manager, if it allocates: for a new overflow
page, and for the two pages a split holds ready. -/
structure Frames where
  overflow : ℕ
  temp1 : ℕ
  temp2 : ℕ
deriving DecidableEq, Repr

variable (cfg : Config)

/-- `create` -/
def Table.create : Table where
  rounds := Rounds.init
  dataStored := 0
  bucketPtrs b := if b < N then some b else none
  pages _ := ⟨Page.init cfg.layout, none⟩
  allocated := N

namespace Table

variable (t : Table)

/-- The overflow links. -/
def next (p : ℕ) : Option ℕ := (t.pages p).overflow

/-- The pages of a bucket, in the order of its chain. -/
def chain (b : ℕ) : List ℕ := follow t.next t.allocated (t.bucketPtrs b)

/-- The records on a page. -/
def recordsAt (p : ℕ) : List (Bytes × Bytes) := (t.pages p).page.records

/-- The bucket that the split pointer gives for a key. -/
def bucket (key : Bytes) : ℕ := bucketOf cfg.hashFunc t.rounds.power t.rounds.buddyBucket key

/-- Replace the records of a page. -/
def setPage (p : ℕ) (page : Page) : Table :=
  { t with pages := update t.pages p { t.pages p with page := page } }

/-! ## Lookup -/

/-- `lookup`: the payload, if the key is found. -/
def lookup (key : Bytes) : Option (Option Bytes) :=
  match t.bucketPtrs (t.bucket cfg key) with
  | none => none
  | some _ => some ((t.chain (t.bucket cfg key)).findSome?
      (fun p => (t.pages p).page.get cfg.layout key))

/-! ## Changes of one page -/

/-- Insert on a page. -/
def insertAt (p : ℕ) (key value : Bytes) : Table :=
  { t.setPage p ((t.pages p).page.insert cfg.layout key value) with
    dataStored := u64 (t.dataStored + (key.length + value.length)) }

/-- Add an overflow page with the record on it. -/
def addOverflow (p new : ℕ) (key value : Bytes) : Table :=
  { t with
    dataStored := u64 (t.dataStored + (key.length + value.length))
    pages := update
      (update t.pages new ⟨(Page.init cfg.layout).insert cfg.layout key value, none⟩)
      p { t.pages p with overflow := some new }
    allocated := max t.allocated (new + 1) }

/-- The size of the record in a slot. -/
def sizeAt (p i : ℕ) : ℕ := (((t.pages p).page.slots[i]?).map Slot.size).getD 0

/-- Update a slot of a page. -/
def updateAt (p i : ℕ) (key value : Bytes) : Table :=
  { t.setPage p ((t.pages p).page.update i value) with
    dataStored := u64 (u64Sub t.dataStored (t.sizeAt p i) + (key.length + value.length)) }

/-- Remove a slot of a page. -/
def removeAt (p i : ℕ) : Table :=
  { t.setPage p ((t.pages p).page.removeSlot i) with
    dataStored := u64Sub t.dataStored (t.sizeAt p i) }

/-- Merge an overflow page into the page before it. -/
def mergeAt (pp target : ℕ) : Table :=
  { t with
    pages := update t.pages pp
      ⟨Page.copyKeyValueRange (t.pages target).page ((t.pages pp).page.requestSpaceFor cfg.layout
        ((t.pages target).page.spaceUsedForData cfg.layout)), (t.pages target).overflow⟩ }

/-! ## Walks along a chain -/

/-- The loop of `insert`: the first page with room takes the record. -/
def insertLoop (t : Table) (key value : Bytes) (new : ℕ) : List ℕ → Table
  | [] => t
  | [p] =>
    if (t.pages p).page.canInsert cfg.layout key value then t.insertAt cfg p key value
    else t.addOverflow cfg p new key value
  | p :: q :: ps =>
    if (t.pages p).page.canInsert cfg.layout key value then t.insertAt cfg p key value
    else insertLoop t key value new (q :: ps)

/-- The loop of `upsert`: a record that is found is updated, and only the last page of the chain takes
a new one. -/
def upsertLoop (t : Table) (key value : Bytes) (new : ℕ) : List ℕ → Table
  | [] => t
  | [p] =>
    match (t.pages p).page.find cfg.layout key with
    | some i => t.updateAt p i key value
    | none =>
      if (t.pages p).page.canInsert cfg.layout key value then t.insertAt cfg p key value
      else t.addOverflow cfg p new key value
  | p :: q :: ps =>
    match (t.pages p).page.find cfg.layout key with
    | some i => t.updateAt p i key value
    | none => upsertLoop t key value new (q :: ps)

/-- `underFullSize` -/
def underFullSize : ℕ := effectivePageSize / 2

/-- The loop of `remove`: whether the key was found, and whether a page was met that is less than half
full. -/
def removeLoop (t : Table) (key : Bytes) (tryMerge : Bool) : List ℕ → Table × Bool × Bool
  | [] => (t, false, tryMerge)
  | p :: ps =>
    let tryMerge :=
      tryMerge || decide (underFullSize < (t.pages p).page.freeSpaceAfterCompaction cfg.layout)
    match (t.pages p).page.find cfg.layout key with
    | some i => (t.removeAt p i, true, tryMerge)
    | none => removeLoop t key tryMerge ps

/-- The loop of `merge_chain`: the first page that has room for the next one takes its records. -/
def mergeLoop (t : Table) : List ℕ → Table
  | pp :: target :: ps =>
    if (t.pages pp).page.hasEnoughSpaceFor cfg.layout
        ((t.pages target).page.spaceUsedForData cfg.layout) then t.mergeAt cfg pp target
    else mergeLoop t (target :: ps)
  | _ => t

/-- `merge_chain` -/
def mergeChain (b : ℕ) : Option Table :=
  match t.bucketPtrs b with
  | none => none
  | some _ => some (t.mergeLoop cfg (t.chain b))

end Table

/-! ## Split -/

/-- A vector of pages that is filled from the front, each page as far as records fit. -/
structure Vector where
  full : List Page
  back : Page

namespace Vector

/-- One empty page. -/
def init : Vector := ⟨[], Page.init cfg.layout⟩

/-- The pages of the vector. -/
def pages (v : Vector) : List Page := v.full ++ [v.back]

/-- Add a record to the last page, or to a new one behind it. -/
def add (v : Vector) (r : Bytes × Bytes) : Vector :=
  if v.back.canInsert cfg.layout r.1 r.2 then ⟨v.full, v.back.insert cfg.layout r.1 r.2⟩
  else ⟨v.full ++ [v.back], (Page.init cfg.layout).insert cfg.layout r.1 r.2⟩

end Vector

/-- The records of a chain, divided by the bucket they have in the next round. -/
def distribute (splitBucket power : ℕ) (records : List (Bytes × Bytes)) : Vector × Vector :=
  records.foldl (fun tmp r =>
    if hash cfg.hashFunc r.1 (power + 1) = splitBucket then (tmp.1.add cfg r, tmp.2)
    else (tmp.1, tmp.2.add cfg r)) (Vector.init cfg, Vector.init cfg)

/-- `kNTempNodes` -/
def kNTempNodes : ℕ := 10

/-- The pages that stay in the bucket: they keep their links, but the last has none. -/
def writeSplit (pages : ℕ → Node) : List ℕ → List Page → ℕ → Node
  | p :: _, [n] => update pages p ⟨n, none⟩
  | p :: ps, n :: n' :: ns =>
    writeSplit (update pages p ⟨n, (pages p).overflow⟩) ps (n' :: ns)
  | _, _ => pages

/-- The pages of the new bucket: each is linked from the one before it. -/
def writeBuddy (pages : ℕ → Node) (prev : Option ℕ) : List ℕ → List Page → ℕ → Node
  | p :: ps, n :: ns =>
    let pages := update pages p ⟨n, none⟩
    let pages := match prev with
      | some q => update pages q { pages q with overflow := some p }
      | none => pages
    writeBuddy pages (some p) ps ns
  | _, _ => pages

/-- The pages that a split has latched: those of the chain, and as many of the two others as the new
bucket needs. -/
def splitGuards (chain : List ℕ) (splits buddies temp1 temp2 : ℕ) : List ℕ :=
  if chain.length - splits < buddies then
    if chain.length + 1 - splits < buddies then chain ++ [temp1, temp2] else chain ++ [temp1]
  else chain

/-- The pages that a split has latched: those that stay in the bucket, those of the new bucket, and those
left over, which are released.  Of the two spare pages, `taken` are the ones in use. -/
structure SplitPages where
  left : List ℕ
  buddy : List ℕ
  released : List ℕ
  taken : List ℕ

namespace Table

/-- `split`, from the latching of the chain on: the section in which the records move. -/
def moveRecords (t : Table) (buddy temp1 temp2 : ℕ) : Option Table :=
  let splitBucket := buddy - N * 2 ^ t.rounds.power
  let chain := t.chain splitBucket
  let tmp := distribute cfg splitBucket t.rounds.power (chain.flatMap t.recordsAt)
  let splits := tmp.1.pages
  let buddies := tmp.2.pages
  let guards := splitGuards chain splits.length buddies.length temp1 temp2
  if kNTempNodes < guards.length ∨ guards.length < splits.length + buddies.length ∨
      chain.length < splits.length then none
  else
    some { t with
      rounds := t.rounds.finishSplit
      bucketPtrs := update t.bucketPtrs buddy guards[splits.length]?
      pages := writeBuddy (writeSplit t.pages guards splits) none (guards.drop splits.length) buddies
      allocated := max t.allocated (max temp1 temp2 + 1) }

/-- The same section, as what becomes of the pages it has latched. -/
def splitPages (t : Table) (buddy temp1 temp2 : ℕ) : SplitPages :=
  let splitBucket := buddy - N * 2 ^ t.rounds.power
  let chain := t.chain splitBucket
  let tmp := distribute cfg splitBucket t.rounds.power (chain.flatMap t.recordsAt)
  let splits := tmp.1.pages.length
  let buddies := tmp.2.pages.length
  let guards := splitGuards chain splits buddies temp1 temp2
  { left := guards.take splits
    buddy := (guards.drop splits).take buddies
    released := guards.drop (splits + buddies)
    taken := guards.drop chain.length }

/-- `split` -/
def split (t : Table) (f : Frames) : Option Table :=
  match t.rounds.startSplit with
  | none => none
  | some rounds =>
    if tableSlots ≤ t.rounds.buddyBucket then none
    else { t with rounds := rounds }.moveRecords cfg t.rounds.buddyBucket f.temp1 f.temp2

/-- `current_load_factor() > kSplitLoadFactor`, with a factor of 1.6. -/
def Overloaded (t : Table) : Prop :=
  16 * (t.rounds.buddyBucket * effectivePageSize) < 10 * t.dataStored

instance (t : Table) : Decidable t.Overloaded := inferInstanceAs (Decidable (_ < _))

/-- The split that `insert` and `upsert` end with, if the load asks for it. -/
def splitIfOverloaded (t : Table) (f : Frames) : Option Table :=
  if t.Overloaded then t.split cfg f else some t

/-! ## The operations -/

/-- `insert` -/
def insert (t : Table) (key value : Bytes) (f : Frames) : Option Table :=
  match t.bucketPtrs (t.bucket cfg key) with
  | none => none
  | some _ => (t.insertLoop cfg key value f.overflow (t.chain (t.bucket cfg key))).splitIfOverloaded
      cfg f

/-- `upsert` -/
def upsert (t : Table) (key value : Bytes) (f : Frames) : Option Table :=
  match t.bucketPtrs (t.bucket cfg key) with
  | none => none
  | some _ => (t.upsertLoop cfg key value f.overflow (t.chain (t.bucket cfg key))).splitIfOverloaded
      cfg f

/-- `remove` -/
def remove (t : Table) (key : Bytes) : Option Table :=
  match t.bucketPtrs (t.bucket cfg key) with
  | none => none
  | some _ =>
    let chain := t.chain (t.bucket cfg key)
    let (t', found, tryMerge) := t.removeLoop cfg key false chain
    -- a bucket of one page is not merged if the key was not there
    if tryMerge && (found || chain.length != 1) then t'.mergeChain cfg (t'.bucket cfg key)
    else some t'

end Table

/-- A call of the table by its one thread. -/
inductive Op where
  | insert (key value : Bytes) (f : Frames)
  | upsert (key value : Bytes) (f : Frames)
  | remove (key : Bytes)
  | lookup (key : Bytes)
  | split (f : Frames)
  | mergeChain (b : ℕ)
deriving DecidableEq, Repr

/-- What a call does to the table. -/
def Table.call (t : Table) : Op → Option Table
  | .insert key value f => t.insert cfg key value f
  | .upsert key value f => t.upsert cfg key value f
  | .remove key => t.remove cfg key
  | .lookup key => (t.lookup cfg key).map (fun _ => t)
  | .split f => t.split cfg f
  | .mergeChain b => t.mergeChain cfg b

end TwoTree.LinearHashing
