import TwoTree.Lib.BinarySearch
import TwoTree.Lib.ByteOrder

/-!
# The nodes of the B-tree

`storage/btree/core/BTreeNode.hpp` and `BTreeNode.cpp`.  A node is a slotted page.  Its slots are sorted by
key; a slot keeps the key without the prefix that all keys of the node share, and the first four bytes
of that suffix as a number, the head.  The two fences bound the keys of the node: the lower one is
exclusive, the upper one inclusive, and a missing fence is infinite.  The prefix is what the fences have
in common.  Sixteen hints are copies of heads at even distances.

The payload type is a parameter: the bytes of a record in a leaf, the child in an inner node.  A node
is taken here as its slots with their keys and payloads; where in the page the bytes are stored is
left out, but the two counters that decide whether a record fits, `spaceUsed` and `dataOffset`,
are kept.
-/

namespace TwoTree.BTree

open Lib

/-- Keys are byte strings. -/
abbrev Key := List UInt8

/-- `EFFECTIVE_PAGE_SIZE`. -/
def effectivePageSize : ℕ := 16352

/-- `sizeof(Slot)`: offset, key length and payload length of two bytes each, and the head. -/
def slotSize : ℕ := 10

/-- Where the slots begin, behind the fields of the header. -/
def slotsOffset : ℕ := 92

/-- `hint_count`. -/
def hintCount : ℕ := 16

/-- `Slot`, with the bytes it points to. -/
structure Slot (π : Type*) where
  key : Key
  payload : π
  payloadLen : ℕ
  head : ℕ
deriving DecidableEq

/-- `BTreeNode`. -/
structure Node (π : Type*) where
  isLeaf : Bool
  upper : Option π := none
  lowerFence : Option Key := none
  upperFence : Option Key := none
  spaceUsed : ℕ := 0
  dataOffset : ℕ := effectivePageSize
  prefixLength : ℕ := 0
  /-- the hints of a new page are whatever is in memory; they are written before they are used -/
  hint : List ℕ := List.replicate hintCount 0
  slots : List (Slot π) := []
deriving DecidableEq

/-! ## Comparing keys -/

/-- `memcmp` of the first `n` bytes. -/
def memcmp : ℕ → Key → Key → Ordering
  | n + 1, a :: as, b :: bs => if a < b then .lt else if b < a then .gt else memcmp n as bs
  | _, _, _ => .eq

/-- `cmpKeys`.  The loop for fewer than four bytes compares them as `memcmp` does. -/
def cmpKeys (a b : Key) : Ordering :=
  match memcmp (min a.length b.length) a b with
  | .eq => compare a.length b.length
  | c => c

/-- `head`: the first four bytes as a number, the first one on top. -/
def head : Key → ℕ
  | [] => 0
  | [a] => a.toNat * 2 ^ 24
  | [a, b] => (a.toNat * 2 ^ 8 + b.toNat) * 2 ^ 16
  | [a, b, c] => (a.toNat * 2 ^ 8 + b.toNat) * 2 ^ 16 + c.toNat * 2 ^ 8
  | a :: b :: c :: d :: _ => a.toNat * 2 ^ 24 + b.toNat * 2 ^ 16 + c.toNat * 2 ^ 8 + d.toNat

namespace Node

variable {π : Type*} (n : Node π)

/-- `count`. -/
def count : ℕ := n.slots.length

/-- `getPrefix`: the first bytes of the lower fence. -/
def prefixBytes : Key := (n.lowerFence.getD []).take n.prefixLength

/-- `copyFullKey`. -/
def fullKey (s : Slot π) : Key := n.prefixBytes ++ s.key

/-- The keys of the node, in slot order. -/
def fullKeys : List Key := n.slots.map n.fullKey

/-! ## Hints -/

/-- The head of the slot at a position, as the hints copy it. -/
def headAt (pos : ℕ) : ℕ := (n.slots[pos]?.map Slot.head).getD 0

/-- The distance of the slots whose heads are copied. -/
def dist : ℕ := n.count / (hintCount + 1)

/-- `makeHint`. -/
def makeHint : Node π :=
  { n with hint := (List.range hintCount).map fun i => n.headAt (n.dist * (i + 1)) }

/-- The first hint that `updateHint` writes. -/
def updateHintBegin (slotId : ℕ) : ℕ :=
  if n.count > hintCount * 2 + 1 ∧ (n.count - 1) / (hintCount + 1) = n.dist ∧ slotId / n.dist > 1 then
    slotId / n.dist - 1
  else 0

/-- `updateHint`: the hints from a slot on that was put in. -/
def updateHint (slotId : ℕ) : Node π :=
  { n with
    hint := (List.range hintCount).map fun i =>
      if n.updateHintBegin slotId ≤ i then n.headAt (n.dist * (i + 1)) else n.hint.getD i 0 }

/-- `searchHint`: the first hint that is not below the head, and the first from there on that is not
equal to it. -/
def searchHint (keyHead : ℕ) : ℕ × ℕ :=
  let pos := n.hint.findIdx fun h => h ≥ keyHead
  (pos, pos + (n.hint.drop pos).findIdx fun h => h ≠ keyHead)

/-! ## Search -/

/-- How a key without the prefix compares with the slot at a position. -/
def compareWithSlot (key : Key) (mid : ℕ) : Ordering :=
  match n.slots[mid]? with
  | none => .lt
  | some s =>
    if head key < s.head then .lt
    else if head key > s.head then .gt
    else if s.key.length ≤ 4 then
      -- the heads are equal, the rest of the key need not be compared
      if key.length < s.key.length then .lt
      else if key.length > s.key.length then .gt
      else .eq
    else cmpKeys key s.key

/-- The window of slots in which `lowerBound` searches. -/
def searchWindow (keyHead : ℕ) : ℕ × ℕ :=
  if n.count > hintCount * 2 then
    let (pos, pos2) := n.searchHint keyHead
    (pos * n.dist, if pos2 < hintCount then (pos2 + 1) * n.dist else n.count)
  else (0, n.count)

/-- The search for a key without the prefix: the position, and whether the slot there is equal. -/
def searchSlots (key : Key) : ℕ × Bool :=
  let (lower, upper) := n.searchWindow (head key)
  BinarySearch.search (n.compareWithSlot key) n.count lower upper

/-- `lowerBound<equalityOnly>`: the value returned, and what is left in `is_equal` where the caller has
set it to false. -/
def lowerBound (equalityOnly : Bool) (n : Node π) (key : Key) : ℤ × Bool :=
  if equalityOnly then
    if key.length < n.prefixLength ∨ key.take n.prefixLength ≠ n.prefixBytes then (-1, false)
    else
      match n.searchSlots (key.drop n.prefixLength) with
      | (pos, true) => (pos, n.isLeaf)
      | (_, false) => (-1, false)
  else
    match cmpKeys (key.take (min key.length n.prefixLength)) n.prefixBytes with
    | .lt => (0, false)
    | .gt => (n.count, false)
    | .eq =>
      let (pos, equal) := n.searchSlots (key.drop n.prefixLength)
      (pos, equal && n.isLeaf)

/-- `compareKeyWithBoundaries`: whether a key belongs below (1), above (-1) or into (0) the node. -/
def compareKeyWithBoundaries (key : Key) : ℤ :=
  if n.lowerFence.any fun lower => cmpKeys key lower ≠ .gt then 1
  else if n.upperFence.any fun upper => cmpKeys key upper = .gt then -1
  else 0

/-! ## Space -/

/-- `spaceNeeded`. -/
def spaceNeeded (keyLen payloadLen prefixLen : ℕ) : ℕ := slotSize + (keyLen - prefixLen) + payloadLen

/-- `freeSpace`: between the slots and the records. -/
def freeSpace : ℕ := n.dataOffset - (slotsOffset + slotSize * n.count)

/-- `freeSpaceAfterCompaction`. -/
def freeSpaceAfterCompaction : ℕ :=
  effectivePageSize - (slotsOffset + slotSize * n.count) - n.spaceUsed

/-- `hasEnoughSpaceFor`. -/
def hasEnoughSpaceFor (spaceNeeded : ℕ) : Bool :=
  spaceNeeded ≤ n.freeSpace ∨ spaceNeeded ≤ n.freeSpaceAfterCompaction

/-- `canInsert`. -/
def canInsert (keyLen payloadLen : ℕ) : Bool :=
  n.hasEnoughSpaceFor (spaceNeeded keyLen payloadLen n.prefixLength)

/-! ## Changing a node -/

/-- The slot of a record in a node whose keys share `prefixLen` bytes. -/
def slotOf (prefixLen : ℕ) (key : Key) (payload : π) (payloadLen : ℕ) : Slot π where
  key := key.drop prefixLen
  payload := payload
  payloadLen := payloadLen
  head := head (key.drop prefixLen)

/-- `storeKeyValue`, together with the move of the slots behind and the new count. -/
def storeKeyValue (slotId : ℕ) (key : Key) (payload : π) (payloadLen : ℕ) : Node π :=
  { n with
    slots := n.slots.insertIdx slotId (slotOf n.prefixLength key payload payloadLen)
    dataOffset := n.dataOffset - (key.length - n.prefixLength + payloadLen)
    spaceUsed := n.spaceUsed + (key.length - n.prefixLength + payloadLen) }

/-- `insertFence` for the lower fence. -/
def insertLowerFence : Option Key → Node π
  | none => n
  | some key =>
    { n with
      lowerFence := some key
      dataOffset := n.dataOffset - key.length
      spaceUsed := n.spaceUsed + key.length }

/-- `insertFence` for the upper fence. -/
def insertUpperFence : Option Key → Node π
  | none => n
  | some key =>
    { n with
      upperFence := some key
      dataOffset := n.dataOffset - key.length
      spaceUsed := n.spaceUsed + key.length }

/-- The bytes that two fences have in common. -/
def commonPrefixLength : Key → Key → ℕ
  | a :: as, b :: bs => if a = b then commonPrefixLength as bs + 1 else 0
  | _, _ => 0

/-- `setFences`. -/
def setFences (lowerKey upperKey : Option Key) : Node π :=
  { (n.insertLowerFence lowerKey).insertUpperFence upperKey with
    prefixLength := commonPrefixLength (lowerKey.getD []) (upperKey.getD []) }

/-- `copyKeyValueRange`: slots are appended to another node, as they are if both share the same prefix,
and else record by record. -/
def copyKeyValueRange (n dst : Node π) (srcSlot count : ℕ) : Node π :=
  let range := (n.slots.drop srcSlot).take count
  if n.prefixLength = dst.prefixLength then
    { dst with
      slots := dst.slots ++ range
      dataOffset := dst.dataOffset - (range.map fun s => s.key.length + s.payloadLen).sum
      spaceUsed := dst.spaceUsed + (range.map fun s => s.key.length + s.payloadLen).sum }
  else
    range.foldl (fun dst s => dst.storeKeyValue dst.count (n.fullKey s) s.payload s.payloadLen) dst

/-- `compactify`. -/
def compactify : Node π :=
  let tmp := ({ isLeaf := n.isLeaf } : Node π).setFences n.lowerFence n.upperFence
  { n.copyKeyValueRange tmp 0 n.count with upper := n.upper }.makeHint

/-- `requestSpaceFor`. -/
def requestSpaceFor (spaceNeeded : ℕ) : Node π × Bool :=
  if spaceNeeded ≤ n.freeSpace then (n, true)
  else if spaceNeeded ≤ n.freeSpaceAfterCompaction then (n.compactify, true)
  else (n, false)

/-- `insert`. -/
def insert (key : Key) (payload : π) (payloadLen : ℕ) : Node π :=
  let n := (n.requestSpaceFor (spaceNeeded key.length payloadLen n.prefixLength)).1
  let slotId := (n.lowerBound false key).1.toNat
  (n.storeKeyValue slotId key payload payloadLen).updateHint slotId

/-- `removeSlot`. -/
def removeSlot (slotId : ℕ) : Node π :=
  let space := (n.slots[slotId]?.map fun s => s.key.length + s.payloadLen).getD 0
  { n with slots := n.slots.eraseIdx slotId, spaceUsed := n.spaceUsed - space }.makeHint

end Node

end TwoTree.BTree
