import TwoTree.BTree.Insert

/-!
# Upserts

`BTreeLL::upsert`.  A key that is not there is inserted.  A record that is there is replaced by
`replaceKV`: it is removed, and then the new one is put in if there is room.  If there is none, the leaf
is split and `replaceKV` starts again, but by then the key is gone, so that it reports that there is no
such key, with the old record lost and the new one not stored.
-/

namespace TwoTree.BTree

open Lib Lib.Tiling List Option Node

namespace BTreeGeneric

/-! ## The code -/

/-- `replaceKV`. -/
def replaceKV (key : Key) (value : List UInt8) : ℕ → BTreeGeneric → Option (BTreeGeneric × OpResult)
  | 0, _ => none
  | fuel + 1, t =>
    (t.findLeaf key).bind fun leaf =>
      let cur := (leaf.lowerBound true key).1
      if cur = -1 then some (t, .notFound)
      else
        let leaf := leaf.removeSlot cur.toNat
        let t := t.setLeaf key leaf
        if leaf.canInsert key.length value.length then
          some (t.setLeaf key (leaf.insert key value value.length), .ok)
        else
          match t.trySplit key with
          | .tooFew => replaceKV key value fuel t
          | .here => none
          | .overrun => none
          | .done t => replaceKV key value fuel t

/-- `upsert`. -/
def upsert (t : BTreeGeneric) (key : Key) (value : List UInt8) (fuel : ℕ) :
    Option (BTreeGeneric × OpResult) :=
  (t.findLeaf key).bind fun leaf =>
    if (leaf.lowerBound true key).1 = -1 then insertKV key value fuel t
    else replaceKV key value fuel t

end BTreeGeneric

/-! ## A record taken out -/

namespace BTreeGeneric

variable {t : BTreeGeneric} {key : Key} {value : List UInt8}

end BTreeGeneric

end TwoTree.BTree
