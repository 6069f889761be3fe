import TwoTree.Lib.OrderedMap

/-!
# Heap files

`storage/heap/HeapFile.hpp` and `HeapFile.cpp`.  A heap file is a list of pages, found through a directory;
a page is a list of slots, each with a tuple.  A slot is never given up: when its tuple is removed it is marked,
and a later tuple may be written over the old one.  A tuple is named by its page and its slot, packed
into 32 bits.

The sizes in a page are 16-bit numbers, and the length of a tuple is kept in 14 bits; the model
computes with them as the source does.  The directory can hold `kArraySize` nodes.

As for the hash tables, an operation has no result (`none`) where the source does not come back, or
where it would write behind the directory.
-/

namespace TwoTree.Heap

open Lib

abbrev Bytes := List UInt8

/-- `EFFECTIVE_PAGE_SIZE`. -/
def effectivePageSize : ℕ := 16352

/-- `SlotStatus`. -/
inductive SlotStatus
  | free
  | occupied
  | removed
deriving DecidableEq, Repr

/-- `Slot`, with the bytes it points to. -/
structure Slot where
  payload : Bytes
  payloadLen : ℕ
  status : SlotStatus
deriving DecidableEq

/-- `sizeof(Slot)`. -/
def slotSize : ℕ := 4

/-- Where the slots begin, behind the fields of the header. -/
def slotsOffset : ℕ := 10

/-- `HeapPage`. -/
structure HeapPage where
  slots : List Slot := []
  spaceUsed : ℕ := 0
  dataOffset : ℕ := effectivePageSize
deriving DecidableEq

/-- Bytes copied over others, from an offset on. -/
def overwrite (old : Bytes) (offset : ℕ) (new : Bytes) : Bytes :=
  old.take offset ++ new ++ old.drop (offset + new.length)

namespace HeapPage

variable (p : HeapPage)

/-- `count`. -/
def count : ℕ := p.slots.length

/-- `spaceNeeded`. -/
def spaceNeeded (payloadLen : ℕ) : ℕ := (slotSize + payloadLen) % 2 ^ 16

/-- The header and the slots. -/
def metadataUsed : ℕ := slotsOffset + slotSize * p.count

/-- `freeSpaceWithoutRemovedTuples`. -/
def freeSpaceWithoutRemovedTuples : ℕ :=
  (effectivePageSize + 2 ^ 16 - (p.metadataUsed + p.spaceUsed)) % 2 ^ 16

/-- The bytes of the removed tuples. -/
def spaceForRemovedTuples : ℕ :=
  ((p.slots.filter fun s => s.status = .removed).map Slot.payloadLen).sum

/-- `freeSpace`. -/
def freeSpace : ℕ :=
  (effectivePageSize + 2 ^ 16 - (p.metadataUsed + p.spaceUsed) + p.spaceForRemovedTuples) % 2 ^ 16

/-- `storeKeyValue` in a new slot, together with the new count. -/
def storeKeyValue (payload : Bytes) : HeapPage where
  slots := p.slots ++ [⟨payload, payload.length % 2 ^ 14, .occupied⟩]
  spaceUsed := (p.spaceUsed + payload.length) % 2 ^ 16
  dataOffset := (p.dataOffset + 2 ^ 16 - payload.length) % 2 ^ 16

/-- A tuple is written over the one that was removed from a slot. -/
def reuse (s : Slot) (payload : Bytes) : Slot :=
  { s with payload := overwrite s.payload 0 payload, status := .occupied }

/-- `insert`: the slot, or nothing if there is no space. -/
def insert (payload : Bytes) : Option (ℕ × HeapPage) :=
  if spaceNeeded payload.length ≤ p.freeSpaceWithoutRemovedTuples then
    some (p.count, p.storeKeyValue payload)
  else
    match p.slots.findIdx? fun s => s.status = .removed with
    | some i => some (i, { p with slots := p.slots.modify i fun s => reuse s payload })
    | none => none

/-- `removeSlot`. -/
def removeSlot (slotId : ℕ) : HeapPage :=
  { p with slots := p.slots.modify slotId fun s => { s with status := .removed } }

/-- The slot, if there is a tuple in it. -/
def occupied (slotId : ℕ) : Option Slot := p.slots[slotId]?.filter fun s => s.status = .occupied

end HeapPage

/-! ## Tuple ids -/

/-- `HeapTupleId::MakeTupleId`. -/
def makeTupleId (heapPageId slotId : ℕ) : ℕ := ((heapPageId <<< 10) ||| slotId) % 2 ^ 32

/-- `heap_page_id`. -/
def heapPageId (id : ℕ) : ℕ := id >>> 10

/-- `slot_id`. -/
def slotId (id : ℕ) : ℕ := id &&& 0x3ff

/-! ## The file -/

/-- `kDirNodeEntryCount`. -/
def kDirNodeEntryCount : ℕ := effectivePageSize / 64 - 10

/-- `kArraySize`. -/
def kArraySize : ℕ := 8192

/-- `N`: the number of pages with space that are kept at hand. -/
def pagesAtHand : ℕ := 128

/-- An entry of the directory, with the page it leads to. -/
structure Entry where
  page : HeapPage
  freeSpace : ℕ
deriving DecidableEq

/-- `HeapFile`, as one thread sees it.  The entries of the directory are in the order of their page
ids. -/
structure HeapFile where
  entries : List Entry
  pagesWithFreeSpace : List ℕ
  nextPageToScan : ℕ := 0
  pageThatMightHaveSpace : Option ℕ := none
  heapGrowable : Bool := true
  freeSpaceThreshold : ℚ := 5 / 100
deriving DecidableEq

namespace HeapFile

variable (h : HeapFile)

/-- `numSlots`: the directory has as many nodes as its entries need. -/
def numSlots : ℕ :=
  (h.entries.length + kDirNodeEntryCount - 1) / kDirNodeEntryCount * kDirNodeEntryCount

/-- `add_heap_pages`. -/
def addHeapPages (nPages : ℕ) : Option HeapFile :=
  if h.entries.length + nPages ≤ kArraySize * kDirNodeEntryCount then
    some { h with
      entries := h.entries ++ List.replicate nPages ⟨{}, HeapPage.freeSpace {}⟩
      pagesWithFreeSpace := h.pagesWithFreeSpace ++ List.range' h.entries.length nPages }
  else none

/-- `create`. -/
def create : HeapFile where
  entries := List.replicate pagesAtHand ⟨{}, HeapPage.freeSpace {}⟩
  pagesWithFreeSpace := List.range pagesAtHand

/-- Whether so much free space is enough to look at a page. -/
def aboveThreshold (freeSpace : ℕ) : Bool :=
  (freeSpace : ℚ) / effectivePageSize ≥ h.freeSpaceThreshold

/-- The walk of `find_pages_with_free_space` over the directory, node by node. -/
def scanDirectory (h : HeapFile) : ℕ → ℕ → HeapFile
  | 0, _ => h
  | fuel + 1, pid =>
    if pid < h.numSlots then
      let stop := (pid / kDirNodeEntryCount + 1) * kDirNodeEntryCount
      let found := (List.range' pid (stop - pid)).filter fun p =>
        h.entries[p]?.any fun e => h.aboveThreshold e.freeSpace
      let h := { h with
        pagesWithFreeSpace := h.pagesWithFreeSpace ++ found
        nextPageToScan := stop % h.numSlots }
      if pagesAtHand ≤ h.pagesWithFreeSpace.length then h else scanDirectory h fuel stop
    else h

/-- `find_pages_with_free_space`. -/
def findPagesWithFreeSpace : Option HeapFile :=
  let h := h.scanDirectory h.numSlots h.nextPageToScan
  if h.pagesWithFreeSpace.length < pagesAtHand ∧ h.heapGrowable then
    h.addHeapPages (pagesAtHand - h.pagesWithFreeSpace.length)
  else some h

/-- `get_page_with_space`; `rand` is the random position in the list of pages. -/
def getPageWithSpace (rand : ℕ) : ℕ → HeapFile → Option (ℕ × HeapFile)
  | 0, _ => none
  | fuel + 1, h =>
    match h.pageThatMightHaveSpace with
    | some pid => some (pid, h)
    | none =>
      if h.pagesWithFreeSpace.length < 16 then
        match h.findPagesWithFreeSpace with
        | some h => getPageWithSpace rand fuel h
        | none => none
      else
        match h.pagesWithFreeSpace[rand % h.pagesWithFreeSpace.length]? with
        | some pid => some (pid, { h with pageThatMightHaveSpace := some pid })
        | none => none

/-- `update_free_space_in_dir_node`. -/
def updateFreeSpaceInDirNode (pageId freeSpace : ℕ) (removeFromFreePageList : Bool) : HeapFile :=
  let h := { h with entries := h.entries.modify pageId fun e => { e with freeSpace := freeSpace } }
  if removeFromFreePageList then
    { h with
      pagesWithFreeSpace := h.pagesWithFreeSpace.filter fun p => p ≠ pageId
      pageThatMightHaveSpace := none }
  else h

/-- A page is changed in place. -/
def setPage (pageId : ℕ) (page : HeapPage) : HeapFile :=
  { h with entries := h.entries.modify pageId fun e => { e with page := page } }

/-- The page with an id. -/
def page (pageId : ℕ) : Option HeapPage := h.entries[pageId]?.map Entry.page

/-- `insert`: the id of the tuple.  `rand` are the random positions of the attempts. -/
def insert (rand : ℕ → ℕ) (value : Bytes) : ℕ → HeapFile → Option (ℕ × HeapFile)
  | 0, _ => none
  | fuel + 1, h =>
    match h.getPageWithSpace (rand fuel) (fuel + 1) with
    | none => none
    | some (pageId, h) =>
      match h.page pageId with
      | none => none
      | some p =>
        match p.insert value with
        | some (slotId, p) => some (makeTupleId pageId slotId, h.setPage pageId p)
        | none => insert rand value fuel (h.updateFreeSpaceInDirNode pageId p.freeSpace true)

/-- The occupied slot with an id. -/
def occupied (id : ℕ) : Option Slot := (h.page (heapPageId id)).bind fun p => p.occupied (slotId id)

/-- `lookup`: the tuple that is handed to the callback. -/
def lookup (id : ℕ) : Option Bytes := (h.occupied id).map fun s => s.payload.take s.payloadLen

/-- `lookupForUpdate`, with a callback that changes the tuple. -/
def lookupForUpdate (id : ℕ) (callback : Bytes → Bytes) : OpResult × HeapFile :=
  match h.page (heapPageId id), h.occupied id with
  | some p, some _ =>
    (.ok, h.setPage (heapPageId id)
      { p with
        slots := p.slots.modify (slotId id) fun s => { s with payload := callback s.payload } })
  | _, _ => (.notFound, h)

/-- `remove`. -/
def remove (id : ℕ) : OpResult × HeapFile :=
  match h.page (heapPageId id), h.occupied id with
  | some p, some _ =>
    let p := p.removeSlot (slotId id)
    let h := h.setPage (heapPageId id) p
    if h.aboveThreshold p.freeSpace ∧
        (p.freeSpace : ℚ) / effectivePageSize ≤ h.freeSpaceThreshold + 2 / 10 then
      (.ok, h.updateFreeSpaceInDirNode (heapPageId id) p.freeSpace false)
    else (.ok, h)
  | _, _ => (.notFound, h)

end HeapFile

end TwoTree.Heap
