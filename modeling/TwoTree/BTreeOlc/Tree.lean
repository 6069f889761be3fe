import TwoTree.Lib.Separated

/-!
# The optimistic B+-tree: nodes, insert, remove and lookup

`btreeolc::BPlusTree` as one thread runs it.  No lock is ever held by another thread, so no
`…OrRestart` call asks for a restart, and the only `goto restart` left is the one that `insert` takes
after it has split a full inner node on its way down.

A node of height zero is a leaf, a node of height `h + 1` an inner node whose children have height
`h`: the code casts the children of one node, and a child's sibling, to the type of the child, and
every function below is the code's at these types.  An inner node is its child 0 and the pairs of
key `i` and child `i + 1`, the pairs that `BTreeInner::insert` and `BTreeInner::erase` move.  A leaf
is also reached over the `next_` link of its left neighbour, so it has an address.

The number of entries of a page is left open, within the bounds the code asserts.  Thresholds are the
code's: `kMergeThreshold` is the single-precision `0.4`, that is 13421773 / 2 ^ 25, and with fewer
than `2 ^ 16` entries (`count_` has 16 bits) neither the quotient of `needMerge` nor the product of
`getSurplus` is rounded across it.
-/

namespace TwoTree.BTreeOlc

open Lib

/-- How many entries a leaf page and an inner page have room for. -/
structure Capacity where
  /-- `BTreeLeaf::maxEntries` -/
  leafMax : ℕ
  /-- `BTreeInner::maxEntries` -/
  innerMax : ℕ
  three_le_leafMax : 3 ≤ leafMax
  three_le_innerMax : 3 ≤ innerMax

/-! ## Searching the keys of a node -/

section Search

variable {K : Type} [LinearOrder K]

/-- The binary search of `lowerBound`; `stop` is the code's `right + 1`. -/
def binarySearch (keys : List K) (k : K) : ℕ → ℕ → ℕ → ℕ
  | 0, left, _ => left
  | fuel + 1, left, stop =>
    if left < stop then
      let mid := left + (stop - 1 - left) / 2
      match keys[mid]? with
      | some key =>
        match compare key k with
        | .eq => mid
        | .lt => binarySearch keys k fuel (mid + 1) stop
        | .gt => binarySearch keys k fuel left mid
      | none => left
    else left

/-- `lowerBound`, the same in leaves and in inner nodes: short nodes are searched from the front. -/
def lowerBound (keys : List K) (k : K) : ℕ :=
  if keys.length < 128 then keys.findIdx fun key => ¬key < k
  else binarySearch keys k keys.length 0 keys.length

end Search

/-- `needMerge` of a node with `count` of `maxEntries` entries. -/
def needMerge (count maxEntries : ℕ) : Bool := count * 33554432 < 13421773 * maxEntries

/-- `getSurplus`: how many entries more than `ceil(maxEntries * kMergeThreshold)`. -/
def getSurplus (count maxEntries : ℕ) : ℤ := count - ((2 * maxEntries + 4) / 5 : ℕ)

/-! ## Leaves -/

/-- `BTreeLeaf`; addresses stand for pointers. -/
structure Leaf (K V : Type) where
  address : ℕ
  entries : List (K × V)
  next : Option ℕ
  deriving DecidableEq

namespace Leaf

variable {K V : Type} (l : Leaf K V)

def count : ℕ := l.entries.length

def keys : List K := l.entries.map Prod.fst

/-- `max_key`.  In an empty leaf it is the place in front of `keys_` that is read; `before` says what
stands there, as far as that is known. -/
def maxKey (before : ℕ → Option K) (l : Leaf K V) : Option K :=
  match l.entries.getLast? with
  | some e => some e.1
  | none => before l.address

/-- A leaf that is split: the part that stays, the separator, and the new leaf. -/
structure Split (K V : Type) where
  left : Leaf K V
  sep : K
  right : Leaf K V

/-- `split` of a leaf with at least two entries, with the address of the new leaf. -/
def split (fresh : ℕ) (h : 2 ≤ l.count) : Split K V where
  left := { l with entries := l.entries.take (l.count / 2), next := some fresh }
  sep := (l.entries.get ⟨l.count / 2 - 1, by rw [count] at *; omega⟩).1
  right := ⟨fresh, l.entries.drop (l.count / 2), l.next⟩

/-- `merge` with the right sibling. -/
def merge (l sibling : Leaf K V) : Leaf K V :=
  { l with entries := l.entries ++ sibling.entries, next := sibling.next }

/-- `reallocNode` with `opt = 1`: `a` takes the first entry of `b`. -/
def borrowFromRight (before : ℕ → Option K) (a b : Leaf K V) :
    Option (Leaf K V × K × Leaf K V) :=
  match b.entries with
  | [] => none
  | e :: es =>
    let a' := { a with entries := a.entries ++ [e] }
    (maxKey before a').map fun sep => (a', sep, { b with entries := es })

/-- `reallocNode` with `opt = 0`: `b` takes the last entry of `a`. -/
def borrowFromLeft (before : ℕ → Option K) (a b : Leaf K V) :
    Option (Leaf K V × K × Leaf K V) :=
  match a.entries.getLast? with
  | none => none
  | some e =>
    let a' := { a with entries := a.entries.dropLast }
    (maxKey before a').map fun sep => (a', sep, { b with entries := e :: b.entries })

variable [LinearOrder K]

/-- `insert`: the new leaf, and whether the key was absent. -/
def insert (l : Leaf K V) (k : K) (v : V) : Leaf K V × Bool :=
  let pos := lowerBound l.keys k
  if l.keys[pos]? = some k then (l, false)
  else ({ l with entries := l.entries.insertIdx pos (k, v) }, true)

/-- The part of `_remove` that works on the leaf: erase the key if it is there. -/
def remove (l : Leaf K V) (k : K) : Leaf K V × Bool :=
  let pos := lowerBound l.keys k
  if l.keys[pos]? = some k then ({ l with entries := l.entries.eraseIdx pos }, true)
  else (l, false)

/-- The part of `_lookup` that works on the leaf. -/
def lookup (l : Leaf K V) (k : K) : Option V :=
  let pos := lowerBound l.keys k
  match l.entries[pos]? with
  | some e => if e.1 = k then some e.2 else none
  | none => none

end Leaf

/-! ## Inner nodes -/

/-- `BTreeInner`: child 0, and key `i` with child `i + 1`. -/
abbrev Inner (K α : Type) := Separated K α

namespace Inner

variable {K α : Type}

def count (n : Inner K α) : ℕ := n.rest.length

/-- An inner node that is split: the part that stays, the key that goes up, and the new node. -/
structure Split (K α : Type) where
  left : Inner K α
  sep : K
  right : Inner K α

/-- `split` of a node with at least two keys: key `count / 2 - 1` goes up. -/
def split (n : Inner K α) (h : 2 ≤ count n) : Split K α :=
  let up := n.rest.get ⟨count n / 2 - 1, by rw [count] at *; omega⟩
  { left := ⟨n.first, n.rest.take (count n / 2 - 1)⟩
    sep := up.1
    right := ⟨up.2, n.rest.drop (count n / 2)⟩ }

/-- `insert` of a key with the child to its right. -/
def insert [LinearOrder K] (n : Inner K α) (k : K) (child : α) : Inner K α :=
  ⟨n.first, n.rest.insertIdx (lowerBound n.seps k) (k, child)⟩

/-- `merge` with the right sibling, with the greatest key of the last child between them. -/
def merge (n sibling : Inner K α) (subTreeMaxKey : K) : Inner K α :=
  ⟨n.first, n.rest ++ (subTreeMaxKey, sibling.first) :: sibling.rest⟩

/-- `reallocNode` with `opt = 1`: the keys rotate to the left through the parent's key `sep`. -/
def borrowFromRight (a : Inner K α) (sep : K) (b : Inner K α) :
    Option (Inner K α × K × Inner K α) :=
  match b.rest with
  | [] => none
  | (key, child) :: rest =>
    some (⟨a.first, a.rest ++ [(sep, b.first)]⟩, key, ⟨child, rest⟩)

/-- `reallocNode` with `opt = 0`: the keys rotate to the right. -/
def borrowFromLeft (a : Inner K α) (sep : K) (b : Inner K α) :
    Option (Inner K α × K × Inner K α) :=
  match a.rest.getLast? with
  | none => none
  | some (key, child) =>
    some (⟨a.first, a.rest.dropLast⟩, key, ⟨child, (sep, b.first) :: b.rest⟩)

end Inner

/-! ## Nodes of any height -/

/-- A node with the given height. -/
@[reducible] def Node (K V : Type) : ℕ → Type
  | 0 => Leaf K V
  | h + 1 => Inner K (Node K V h)

namespace Node

variable {K V : Type}

/-- `getCount` -/
def count : (h : ℕ) → Node K V h → ℕ
  | 0, l => Leaf.count l
  | _ + 1, n => Inner.count n

/-- `maxEntries` of the node's type. -/
def maxEntries (cap : Capacity) : ℕ → ℕ
  | 0 => cap.leafMax
  | _ + 1 => cap.innerMax

/-- `hasEnoughSpace`: an inner node needs one more entry for the key between the two nodes, and is
full with one entry less than there is room for. -/
def hasEnoughSpace (cap : Capacity) : (h : ℕ) → Node K V h → ℕ → Bool
  | 0, l, need => Leaf.count l + need ≤ cap.leafMax
  | _ + 1, n, need => Inner.count n + need + 1 < cap.innerMax

/-- `_getSubTreeMaxKey`: the greatest key of the last leaf. -/
def getSubTreeMaxKey (before : ℕ → Option K) : (h : ℕ) → Node K V h → Option K
  | 0, l => Leaf.maxKey before l
  | h + 1, n => getSubTreeMaxKey before h (Separated.last n)

/-- `merge` of two neighbours of the same height. -/
def merge (before : ℕ → Option K) : (h : ℕ) → Node K V h → Node K V h → Option (Node K V h)
  | 0, a, b => some (Leaf.merge a b)
  | h + 1, a, b =>
    (getSubTreeMaxKey before h (Separated.last a)).map fun key => Inner.merge a b key

/-- `reallocNode` with `opt = 1`. -/
def borrowFromRight (before : ℕ → Option K) :
    (h : ℕ) → Node K V h → K → Node K V h → Option (Node K V h × K × Node K V h)
  | 0, a, _, b => Leaf.borrowFromRight before a b
  | _ + 1, a, sep, b => Inner.borrowFromRight a sep b

/-- `reallocNode` with `opt = 0`. -/
def borrowFromLeft (before : ℕ → Option K) :
    (h : ℕ) → Node K V h → K → Node K V h → Option (Node K V h × K × Node K V h)
  | 0, a, _, b => Leaf.borrowFromLeft before a b
  | _ + 1, a, sep, b => Inner.borrowFromLeft a sep b

end Node

/-! ## `EraseMerge` -/

/-- What is done about a child with too few entries. -/
inductive MergeOperation
  | borrowFromLeft
  | borrowFromRight
  | leftToRight
  | rightToLeft
  | noMerge
  deriving DecidableEq

/-- What `EraseMerge` leaves at the parent of the child it worked on. -/
structure Merged (α : Type) where
  parent : α
  /-- `EraseMerge` goes on with the parent. -/
  goesOn : Bool
  /-- The parent has lost its last key; if it is the root, its only child becomes the root. -/
  changeRoot : Bool

section EraseMerge

variable {K V : Type} (cap : Capacity) (before : ℕ → Option K) (h : ℕ) (o : Opened K (Node K V h))

/-- `choose_one_sibling`: borrow from a sibling with a surplus, else merge with one that has room, the
left one first each time. -/
def chooseOneSibling : MergeOperation :=
  let surplus (n : Node K V h) : Bool := 0 < getSurplus (Node.count h n) (Node.maxEntries cap h)
  let hasRoom (n : Node K V h) : Bool := Node.hasEnoughSpace cap h n (Node.count h o.part)
  if o.left.head?.any fun p => surplus p.1 then .borrowFromLeft
  else if o.right.head?.any fun p => surplus p.2 then .borrowFromRight
  else if o.left.head?.any fun p => hasRoom p.1 then .rightToLeft
  else if o.right.head?.any fun p => hasRoom p.2 then .leftToRight
  else .noMerge

/-- The parent after a merge. -/
def mergedInto : Merged (Inner K (Node K V h)) where
  parent := o.close
  goesOn := needMerge (Inner.count o.close) cap.innerMax
  changeRoot := Inner.count o.close = 0

/-- One call of `EraseMerge`, at the parent opened at the child; the recursive call for the parent is
made one level up.  A child without siblings sends it there at once. -/
def eraseMerge : Option (Merged (Inner K (Node K V h))) :=
  match chooseOneSibling cap h o, o.left, o.right with
  | .borrowFromLeft, (a, sep) :: left, right =>
    (Node.borrowFromLeft before h a sep o.part).map fun r =>
      ⟨Opened.close ⟨(r.1, r.2.1) :: left, r.2.2, right⟩, false, false⟩
  | .borrowFromRight, left, (sep, b) :: right =>
    (Node.borrowFromRight before h o.part sep b).map fun r =>
      ⟨Opened.close ⟨left, r.1, (r.2.1, r.2.2) :: right⟩, false, false⟩
  | .rightToLeft, (a, _) :: left, right =>
    (Node.merge before h a o.part).map fun m => mergedInto cap h ⟨left, m, right⟩
  | .leftToRight, left, (_, b) :: right =>
    (Node.merge before h o.part b).map fun m => mergedInto cap h ⟨left, m, right⟩
  | _, left, right => some ⟨o.close, left.isEmpty && right.isEmpty, false⟩

end EraseMerge

/-! ## `_lookup`, `insert` and `_remove` -/

namespace Node

variable {K V : Type} [LinearOrder K]

/-- The leaf that the descent with a key ends in. -/
def findLeaf (k : K) : (h : ℕ) → Node K V h → Leaf K V
  | 0, l => l
  | h + 1, n => findLeaf k h (Separated.openAt n (lowerBound (Separated.seps n) k)).part

/-- One descent of `insert` through a node. -/
structure Pass (K α : Type) where
  node : α
  /-- The separator and the new right sibling, if the node has been split. -/
  promoted : Option (K × α)
  /-- What `insert` returns; nothing when it starts again at the root. -/
  result : Option Bool

/-- The parent after the descent through the child it is opened at: the new child, and the new sibling
at its place if the child has been split. -/
def Pass.into {α : Type} (o : Opened K α) (p : Pass K α) : Inner K α :=
  let n := Opened.close { o with part := p.node }
  match p.promoted with
  | none => n
  | some s => Inner.insert n s.1 s.2

/-- The descent of `insert`: an inner node that is full is split and the descent starts again, a leaf
that is full is split and takes the key in one of its halves. -/
def insertPass (cap : Capacity) (fresh : ℕ) (k : K) (v : V) :
    (h : ℕ) → Node K V h → Pass K (Node K V h)
  | 0, l =>
    if hfull : Leaf.count l = cap.leafMax then
      let s := Leaf.split l fresh (by have := cap.three_le_leafMax; omega)
      if s.sep < k then
        ⟨s.left, some (s.sep, (s.right.insert k v).1), some (s.right.insert k v).2⟩
      else ⟨(s.left.insert k v).1, some (s.sep, s.right), some (s.left.insert k v).2⟩
    else ⟨(Leaf.insert l k v).1, none, some (Leaf.insert l k v).2⟩
  | h + 1, n =>
    if hfull : Inner.count n = cap.innerMax - 1 then
      let s := Inner.split n (by have := cap.three_le_innerMax; omega)
      ⟨s.left, some (s.sep, s.right), none⟩
    else
      let o := Separated.openAt n (lowerBound (Separated.seps n) k)
      let p := insertPass cap fresh k v h o.part
      ⟨p.into o, none, p.result⟩

/-- What `_remove` leaves of a node. -/
structure Removed (α : Type) where
  node : α
  success : Bool
  /-- `EraseMerge` is called for the node. -/
  underfull : Bool
  changeRoot : Bool

/-- `_remove`: erase the key from its leaf, then `EraseMerge` from the leaf upwards. -/
def remove (cap : Capacity) (before : ℕ → Option K) (k : K) :
    (h : ℕ) → Node K V h → Option (Removed (Node K V h))
  | 0, l =>
    let r := Leaf.remove l k
    some ⟨r.1, r.2, needMerge r.1.count cap.leafMax, false⟩
  | h + 1, n =>
    let o := Separated.openAt n (lowerBound (Separated.seps n) k)
    match remove cap before k h o.part with
    | none => none
    | some c =>
      let o' : Opened K (Node K V h) := { o with part := c.node }
      if c.underfull then
        (eraseMerge cap before h o').map fun m => ⟨m.parent, c.success, m.goesOn, m.changeRoot⟩
      else some ⟨o'.close, c.success, false, false⟩

end Node

/-- The tree; `allocated` counts the addresses that have been handed out. -/
structure Tree (K V : Type) where
  height : ℕ
  root : Node K V height
  allocated : ℕ

namespace Tree

variable {K V : Type}

/-- The constructor: one empty leaf. -/
def empty : Tree K V where
  height := 0
  root := (⟨0, [], none⟩ : Leaf K V)
  allocated := 1

variable [LinearOrder K]

/-- `_lookup` -/
def lookup (t : Tree K V) (k : K) : Option V := (t.root.findLeaf k).lookup k

/-- One descent of `insert` from the root, with `makeRoot` if the root has been split.  Each may
allocate one leaf. -/
def insertPass (cap : Capacity) (t : Tree K V) (k : K) (v : V) : Tree K V × Option Bool :=
  let p := t.root.insertPass cap t.allocated k v
  match p.promoted with
  | none => (⟨t.height, p.node, t.allocated + 1⟩, p.result)
  | some s =>
    (⟨t.height + 1, (⟨p.node, [s]⟩ : Inner K (Node K V t.height)), t.allocated + 1⟩, p.result)

/-- `insert`, with a bound on the number of descents. -/
def insert (cap : Capacity) : ℕ → Tree K V → K → V → Option (Tree K V × Bool)
  | 0, _, _, _ => none
  | fuel + 1, t, k, v =>
    match t.insertPass cap k v with
    | (t', some success) => some (t', success)
    | (t', none) => insert cap fuel t' k v

/-- The root after `_remove`: a root without keys gives way to its only child if a merge has taken its
last key. -/
def ofRemoved (allocated : ℕ) : (h : ℕ) → Node.Removed (Node K V h) → Tree K V
  | 0, r => ⟨0, r.node, allocated⟩
  | h + 1, r =>
    if r.changeRoot then ⟨h, Separated.first (r.node : Inner K (Node K V h)), allocated⟩
    else ⟨h + 1, r.node, allocated⟩

/-- `remove` -/
def remove (cap : Capacity) (before : ℕ → Option K) (t : Tree K V) (k : K) :
    Option (Tree K V × Bool) :=
  (t.root.remove cap before k).map fun r => (ofRemoved t.allocated t.height r, r.success)

end Tree

end TwoTree.BTreeOlc
