import TwoTree.BTree.Children

/-!
# Splits and inserts

`trySplit` of `BTreeGeneric` and `insertKV` of `BTreeExclusiveIterator`.  An insert into a leaf without
room has the leaf split and starts again.  `trySplit` makes at most one split: a page whose separator
has no room in the parent is left alone and the parent is split instead, and so on up to the root,
which gets a new root above it.  A page of one or two records is not split at all, and the insert starts
again with the tree unchanged.

A split keeps the entries (`Tree.WellFormed.trySplit_done`), and makes the pages on the way to the key
smaller: a leaf counts twice, and the sum of the counts decreases with each split (`Tree.load`).  An
insert therefore ends unless it comes to a page that cannot be split.
-/

namespace TwoTree.BTree

open Lib Lib.Tiling List Node Contents Option

/-! ## The code -/

/-- What comes of `trySplit`. -/
inductive SplitResult (α : Type*)
  /-- The page has no more than two records; nothing is done. -/
  | tooFew
  /-- It is the page at hand that has to be split, below its parent. -/
  | here
  /-- A half does not fit and is written over its own slots or behind its page. -/
  | overrun
  /-- A page has been split. -/
  | done (tree : α)

namespace Node

variable {π κ : Type*}

/-- `findParent`: the position at which a page is found in its parent, by its upper fence. -/
def findParentPos (parent : Node κ) (upperFence : Option Key) : ℕ :=
  upperFence.elim parent.count parent.childPos

/-- The split of a page below its parent, which gets the new page on the left. -/
def splitBelow (child : Node π) (parent : Node (Node π)) (pos : ℕ) : SplitResult (Node (Node π)) :=
  let sepInfo := child.findSep
  let sepKey := child.getSep sepInfo
  let (nodeLeft, nodeRight) := child.splitNodes sepInfo.slot sepKey
  if nodeLeft.Fits ∧ nodeRight.Fits then
    .done (child.split (parent.setChild pos nodeRight) nodeLeft sepInfo.slot sepKey).parent
  else .overrun

/-- `trySplit` of a page that is not the root. -/
def trySplit (parent : Node (Node π)) (child : Node π) : SplitResult (Node (Node π)) :=
  if child.count ≤ 2 then .tooFew
  else
    let spaceNeededForSeparator := spaceNeeded child.findSep.length swipSize parent.prefixLength
    if parent.hasEnoughSpaceFor spaceNeededForSeparator then
      child.splitBelow (parent.requestSpaceFor spaceNeededForSeparator).1
        (parent.findParentPos child.upperFence)
    else .here

/-- `trySplit` of the root: a new root is put above it. -/
def trySplitRoot (root : Node π) : SplitResult (Node (Node π)) :=
  if root.count ≤ 2 then .tooFew else root.splitBelow (newRoot root) 0

end Node

namespace Tree

/-- `trySplit` of the leaf of a key, in the subtree at hand: from the leaf upwards to the first page
whose parent has room. -/
def trySplit : (h : ℕ) → Tree h → Key → SplitResult (Tree h)
  | 0, _, _ => .here
  | h + 1, n, key =>
    match n.lookupInner key with
    | none => .overrun
    | some child =>
      match trySplit h child key with
      | .tooFew => .tooFew
      | .here => Node.trySplit n child
      | .overrun => .overrun
      | .done child => .done (n.setChild (n.childPos key) child)

/-- The leaf of a key is another one now. -/
def setLeaf : (h : ℕ) → Tree h → Key → Leaf → Tree h
  | 0, _, _, leaf => leaf
  | h + 1, n, key, leaf =>
    match n.lookupInner key with
    | none => n
    | some child => n.setChild (n.childPos key) (setLeaf h child key leaf)

end Tree

namespace BTreeGeneric

/-- `trySplit` of the leaf of a key. -/
def trySplit (t : BTreeGeneric) (key : Key) : SplitResult BTreeGeneric :=
  match Tree.trySplit t.height t.root key with
  | .tooFew => .tooFew
  | .here =>
    match Node.trySplitRoot t.root with
    | .tooFew => .tooFew
    | .here => .here
    | .overrun => .overrun
    | .done root => .done ⟨t.height + 1, root⟩
  | .overrun => .overrun
  | .done root => .done ⟨t.height, root⟩

/-- The leaf of a key is another one now. -/
def setLeaf (t : BTreeGeneric) (key : Key) (leaf : Leaf) : BTreeGeneric :=
  ⟨t.height, Tree.setLeaf t.height t.root key leaf⟩

/-- `insertKV`. -/
def insertKV (key : Key) (value : List UInt8) : ℕ → BTreeGeneric → Option (BTreeGeneric × OpResult)
  | 0, _ => none
  | fuel + 1, t =>
    (t.findLeaf key).bind fun leaf =>
      if (leaf.lowerBound false key).2 then some (t, .duplicate)
      else if leaf.canInsert key.length value.length then
        some (t.setLeaf key (leaf.insert key value value.length), .ok)
      else
        match t.trySplit key with
        | .tooFew => insertKV key value fuel t
        | .here => none
        | .overrun => none
        | .done t => insertKV key value fuel t

end BTreeGeneric

/-! ## The two halves of a page -/

namespace Tree

/-- How much there is on the way to a key: the counts of the pages, and that of the leaf twice. -/
def load : (h : ℕ) → Tree h → Key → ℕ
  | 0, n, _ => 2 * n.count
  | h + 1, n, key => n.count + (n.lookupInner key).elim 0 fun child => load h child key

/-- **Two halves of a page**, as trees. -/
structure Halves {h : ℕ} (c left right : Tree h) (sep : Key) : Prop where
  wf_left : left.WellFormed
  wf_right : right.WellFormed
  left_fences : left.lowerFence = c.lowerFence ∧ left.upperFence = some sep
  right_fences : right.lowerFence = some sep ∧ right.upperFence = c.upperFence
  lower : ∀ l ∈ c.lowerFence, l < sep
  upper : ∀ u ∈ c.upperFence, sep < u
  entries : leafEntries left.leaves ++ leafEntries right.leaves = leafEntries c.leaves
  load_left : ∀ key, left.InFences key → load h left key + 2 ≤ load h c key
  load_right : ∀ key, right.InFences key → load h right key + 2 ≤ load h c key

namespace WellFormed

variable {h : ℕ} {key sep : Key}

lemma halves_leaf {c left right : Leaf} {A B : List (Record (List UInt8))} {a b : Record (List UInt8)}
    (hc : c.WellFormed) (hsep : c.contents.Separates A a b B sep) (hleft : left.Page)
    (hright : right.Page) (hleftc : left.contents = c.contents.leftHalf A a sep)
    (hrightc : right.contents = c.contents.rightHalf (b :: B) sep) : Halves c left right sep := by
  obtain ⟨hpage, hleaf, hlen⟩ := hc
  have hleaf' : c.contents.isLeaf = true := hleaf
  have hleftr : left.contents.records = A ++ [a] := by
    rw [hleftc, leftHalf, hleaf']
    rfl
  have hrightr : right.contents.records = b :: B := by rw [hrightc, rightHalf]
  have hrecords : left.contents.records ++ right.contents.records = c.contents.records := by
    rw [hleftr, hrightr, hsep.records, append_assoc, singleton_append]
  have hcount : left.count = A.length + 1 ∧ right.count = B.length + 1 := by
    rw [← length_records, ← length_records, hleftr, hrightr]
    exact ⟨length_append, rfl⟩
  have hsum : c.count = left.count + right.count := by
    rw [← length_records, ← length_records, ← length_records, ← hrecords,
      length_append]
  obtain ⟨hlower, hupper⟩ := hsep.between hpage.valid
  have hmem : ∀ r, r ∈ left.contents.records ∨ r ∈ right.contents.records →
      r.payloadLen = r.payload.length := by
    intro r hr
    exact hlen r (by rwa [← hrecords, mem_append])
  refine ⟨⟨hleft, ?_, fun r hr => hmem r (.inl hr)⟩, ⟨hright, ?_, fun r hr => hmem r (.inr hr)⟩,
    ⟨lowerFence_eq hleftc, upperFence_eq hleftc⟩,
    ⟨lowerFence_eq hrightc, upperFence_eq hrightc⟩, hlower, hupper, ?_, ?_, ?_⟩
  · have heq : left.contents.isLeaf = true := by rw [hleftc]; exact hleaf
    exact heq
  · have heq : right.contents.isLeaf = true := by rw [hrightc]; exact hleaf
    exact heq
  · simp [leaves, leafEntries, flatMap_singleton, entries, ← map_append, hrecords]
  · intro key _
    simp only [load]
    omega
  · intro key _
    simp only [load]
    omega

/-- A page whose children are among those of another has less on the way to a key. -/
lemma load_add_le {c half : Tree (h + 1)} (hc : c.WellFormed) (hhalf : half.WellFormed)
    (hsub : ∀ z ∈ half.contents.children, z ∈ c.contents.children) (hcount : half.count + 2 ≤ c.count)
    (hkey : half.InFences key) : load (h + 1) half key + 2 ≤ load (h + 1) c key := by
  obtain ⟨A, B, z, hat, -, hz, hlookup⟩ := hhalf.exists_child hkey
  have hmem : z ∈ half.contents.children := by
    rw [hat.children_eq]
    simp
  rw [load, load, hlookup, hc.lookupInner_of_mem (hsub z hmem) hz]
  simp only [elim_some]
  omega

lemma halves_inner {c left right : Tree (h + 1)} {A B : List (Record (Tree h))} {a b : Record (Tree h)}
    (hc : c.WellFormed) (hsep : c.contents.Separates A a b B sep) (hA : 1 ≤ A.length)
    (hleft : left.Page) (hright : right.Page)
    (hleftc : left.contents = c.contents.leftHalf A a sep)
    (hrightc : right.contents = c.contents.rightHalf (b :: B) sep) : Halves c left right sep := by
  have hinner : c.contents.isLeaf = false := hc.2.1
  have hkey : sep = a.key := hsep.inner hinner
  have hleftr : left.contents.records = A ∧ left.contents.upper = some a.payload := by
    rw [hleftc, leftHalf, hinner]
    exact ⟨rfl, rfl⟩
  have hrightr : right.contents.records = b :: B ∧ right.contents.upper = c.contents.upper := by
    rw [hrightc, rightHalf]
    exact ⟨rfl, rfl⟩
  have hchildren : left.contents.children ++ right.contents.children = c.contents.children := by
    simp [children, hleftr.1, hleftr.2, hrightr.1, hrightr.2, hsep.records]
  have hleftk : left.contents.keys = A.map Record.key := by rw [Contents.keys, hleftr.1]
  have hrightk : right.contents.keys = (b :: B).map Record.key := by rw [Contents.keys, hrightr.1]
  have hkeys : c.contents.keys = left.contents.keys ++ sep :: right.contents.keys := by
    rw [hleftk, hrightk, hkey, hsep.keys_eq, map_cons]
  have hfences : left.lowerFence = c.lowerFence ∧ left.upperFence = some sep :=
    ⟨lowerFence_eq hleftc, upperFence_eq hleftc⟩
  have hfences' : right.lowerFence = some sep ∧ right.upperFence = c.upperFence :=
    ⟨lowerFence_eq hrightc, upperFence_eq hrightc⟩
  have hcount : left.count + 2 ≤ c.count ∧ right.count + 2 ≤ c.count := by
    rw [← length_records, ← length_records, ← length_records, hleftr.1, hrightr.1,
      hsep.records]
    simp only [length_append, length_cons]
    omega
  have htiles := hc.fenced
  rw [Contents.Fenced, hkeys, ← hchildren] at htiles
  obtain ⟨htl, htr⟩ := htiles.of_append (by
    rw [hleftk, children, hleftr.1, hleftr.2]
    simp)
  have hsubl : ∀ z ∈ left.contents.children, z ∈ c.contents.children := by
    intro z hz
    rw [← hchildren]
    exact mem_append_left _ hz
  have hsubr : ∀ z ∈ right.contents.children, z ∈ c.contents.children := by
    intro z hz
    rw [← hchildren]
    exact mem_append_right _ hz
  have hwfl : left.WellFormed := by
    refine ⟨hleft, ?_, ?_, fun z hz => hc.child (hsubl z hz)⟩
    · have heq : left.contents.isLeaf = false := by rw [hleftc]; exact hinner
      exact heq
    · have hlo : left.contents.lowerFence = c.contents.lowerFence := hfences.1
      have hup : left.contents.upperFence = some sep := hfences.2
      rw [Contents.Fenced, hlo, hup]
      exact htl
  have hwfr : right.WellFormed := by
    refine ⟨hright, ?_, ?_, fun z hz => hc.child (hsubr z hz)⟩
    · have heq : right.contents.isLeaf = false := by rw [hrightc]; exact hinner
      exact heq
    · have hlo : right.contents.lowerFence = some sep := hfences'.1
      have hup : right.contents.upperFence = c.contents.upperFence := hfences'.2
      rw [Contents.Fenced, hlo, hup]
      exact htr
  obtain ⟨hlower, hupper⟩ := hsep.between hc.page.valid
  refine ⟨hwfl, hwfr, hfences, hfences', hlower, hupper, ?_, ?_, ?_⟩
  · rw [leaves_succ, leaves_succ, leaves_succ, ← hchildren, flatMap_append, leafEntries_append]
  · exact fun key hk => load_add_le hc hwfl hsubl hcount.1 hk
  · exact fun key hk => load_add_le hc hwfr hsubr hcount.2 hk

/-- **What `split` makes of a page of at least three records**, if the left half fits. -/
lemma halves {c : Tree h} (hc : c.WellFormed) (hcount : 3 ≤ c.count)
    (hfits : (c.splitNodes c.findSep.slot (c.getSep c.findSep)).1.Fits) :
    Halves c (c.splitNodes c.findSep.slot (c.getSep c.findSep)).1
      (c.splitNodes c.findSep.slot (c.getSep c.findSep)).2 (c.getSep c.findSep) := by
  obtain ⟨A, a, b, B, hA, hsep, hlen⟩ := separates_getSep hc.page hcount
  have hslot := (slot_findSep hcount).1
  rw [← hA] at hfits hslot ⊢
  rw [splitNodes_eq hc.page hsep, fits_pack_iff] at hfits
  obtain ⟨hleft, hleftc⟩ := hc.page.splitNodes_left hsep hfits
  obtain ⟨hright, hrightc⟩ := hc.page.splitNodes_right hsep hlen
  cases h with
  | zero => exact halves_leaf hc hsep hleft hright hleftc hrightc
  | succ h => exact halves_inner hc hsep hslot hleft hright hleftc hrightc

end WellFormed

end Tree

/-! ## A split keeps the entries -/

namespace Contents

variable {π : Type*}

lemma length_key_le (c : Contents π) {r : Record π} (hr : r ∈ c.records) :
    slotsOffset + slotSize * c.records.length + r.key.length ≤ c.size := by
  have hmem : recordSpace c.prefixLength r ≤ recordsSpace c.prefixLength c.records :=
    le_sum_of_mem (mem_map_of_mem hr)
  have hshared := c.prefixLength_le_lower
  rw [recordSpace] at hmem
  rw [size, space, fenceSpace]
  omega

end Contents

namespace Node

variable {π κ : Type*} {n : Node π}

/-- The separator has the length that was reserved for it. -/
lemma length_getSep (hn : n.Page) :
    (n.getSep n.findSep).length = n.findSep.length := by
  have hshared := length_prefixBytes hn.wf
  rw [findSep]
  by_cases hleaf : n.isLeaf = true
  · simp only [hleaf, if_true]
    split_ifs with htrunc
    · simp only [getSep, length_append, hshared, if_true, length_take]
      omega
    · simp only [getSep, length_append, hshared, Bool.false_eq_true, if_false, length_take,
        getFullKeyLen]
      omega
  · simp only [hleaf, getSep, length_append, hshared, Bool.false_eq_true, if_false,
      length_take, getFullKeyLen]
    omega

lemma findParentPos_eq {parent : Node (Node π)} {A B : List (Record (Node π))} {c : Node π}
    (hp : parent.Page) (hat : parent.contents.ChildAt A B c c.lowerFence c.upperFence) (hc : c.Page) :
    parent.findParentPos c.upperFence = A.length := by
  cases hupper : c.upperFence with
  | none =>
    have hB : B = [] := by
      have hbound := hat.upper
      cases B with
      | nil => rfl
      | cons r B => simp [hupper] at hbound
    rw [findParentPos, elim_none, ← length_records, hat.records, hB, append_nil]
  | some fence =>
    have hlt : ∀ l ∈ c.lowerFence, l < fence := fun l hl =>
      hc.valid.fences l hl fence (by simp [contents, hupper])
    have hle : ∀ u ∈ c.upperFence, fence ≤ u := by
      intro u hu
      obtain rfl : fence = u := by simpa [hupper] using hu
      exact le_refl _
    rw [findParentPos, elim_some, childPos, lowerBound_childAt hp hat hlt hle,
      Int.toNat_natCast]

end Node

namespace Tree

/-- **A tree after a split**: the same entries, and less on the way to the key. -/
structure Step {h : ℕ} (n m : Tree h) (key : Key) : Prop where
  wf : m.WellFormed
  lower : m.lowerFence = n.lowerFence
  upper : m.upperFence = n.upperFence
  entries : leafEntries m.leaves = leafEntries n.leaves
  load : load h m key < load h n key

namespace WellFormed

variable {h : ℕ} {n m : Tree (h + 1)} {c : Tree h} {key : Key} {A B : List (Record (Tree h))}

lemma load_eq (hn : n.WellFormed) (hc : c ∈ n.contents.children) (hkey : c.InFences key) :
    load (h + 1) n key = n.count + load h c key := by
  rw [load, hn.lookupInner_of_mem hc hkey, elim_some]

/-- **A page split below its parent.** -/
lemma splitBelow_done (hn : n.WellFormed) (hat : n.contents.ChildAt A B c c.lowerFence c.upperFence)
    (hc : c.WellFormed) (hkey : c.InFences key) (hcount : 3 ≤ c.count)
    (hroom : n.canInsert (c.getSep c.findSep).length swipSize = true)
    (hdone : c.splitBelow n A.length = .done m) : Step n m key := by
  rw [splitBelow] at hdone
  simp only [] at hdone
  split at hdone
  case isFalse => exact absurd hdone (by simp)
  case isTrue hfits =>
    have hh := hc.halves hcount hfits.1
    obtain rfl := SplitResult.done.inj hdone
    generalize c.getSep c.findSep = sep at hh hroom hfits ⊢
    rw [split]
    simp only []
    generalize (c.splitNodes c.findSep.slot sep).1 = left at hh ⊢
    generalize (c.splitNodes c.findSep.slot sep).2 = right at hh ⊢
    obtain ⟨hm, hlo, hup, hchildren, hkeys⟩ := hn.splitChild hat hh.wf_left hh.wf_right
      hh.left_fences hh.right_fences hh.lower hh.upper hroom
    have hmcount := congrArg List.length hkeys
    rw [length_append, length_cons, ← Nat.add_assoc, ← length_append, ← hat.keys_eq,
      length_keys, length_keys] at hmcount
    refine ⟨hm, hlo, hup, ?_, ?_⟩
    · rw [leaves_succ, hchildren, leaves_eq hat, flatMap_append, flatMap_cons,
        flatMap_cons, leafEntries_append, leafEntries_append, leafEntries_append,
        leafEntries_append, leafEntries_append, ← hh.entries]
      simp
    · have hload : load (h + 1) n key = n.count + load h c key :=
        hn.load_eq (by rw [hat.children_eq]; simp) hkey
      -- the key is in one of the halves
      rcases le_or_gt key sep with hle | hlt
      · have hin : left.InFences key := by
          refine ⟨?_, ?_⟩
          · rw [hh.left_fences.1]
            exact hkey.1
          · simpa [hh.left_fences.2] using hle
        have hhalf := hh.load_left key hin
        rw [hm.load_eq (c := left) (by rw [hchildren]; simp) hin, hmcount, hload]
        omega
      · have hin : right.InFences key := by
          refine ⟨?_, ?_⟩
          · simpa [hh.right_fences.1] using hlt
          · rw [hh.right_fences.2]
            exact hkey.2
        have hhalf := hh.load_right key hin
        rw [hm.load_eq (c := right) (by rw [hchildren]; simp) hin, hmcount, hload]
        omega

end WellFormed

end Tree

namespace Tree.WellFormed

variable {h : ℕ} {key : Key}

/-- A parent that gets room for a separator keeps its contents. -/
lemma requestSpaceFor {n : Tree (h + 1)} (hn : n.WellFormed) {len : ℕ}
    (henough : n.hasEnoughSpaceFor (spaceNeeded len swipSize n.prefixLength) = true) :
    WellFormed (h := h + 1) (n.requestSpaceFor (spaceNeeded len swipSize n.prefixLength)).1 ∧
      (n.requestSpaceFor (spaceNeeded len swipSize n.prefixLength)).1.contents = n.contents ∧
      (n.requestSpaceFor (spaceNeeded len swipSize n.prefixLength)).1.canInsert len swipSize
        = true := by
  obtain ⟨hpage, hcontents, -, -⟩ := hn.page.requestSpaceFor
    (spaceNeeded len swipSize n.prefixLength)
  refine ⟨hn.of_contents hpage hcontents, hcontents, ?_⟩
  have hshared := hpage.exact
  rw [hcontents, ← hn.page.exact] at hshared
  rw [hpage.canInsert_iff, hcontents, hshared]
  exact (hn.page.hasEnoughSpaceFor_iff _).1 henough

lemma trySplit_child_done {n m : Tree (h + 1)} {c : Tree h} {A B : List (Record (Tree h))}
    (hn : n.WellFormed) (hat : n.contents.ChildAt A B c c.lowerFence c.upperFence) (hc : c.WellFormed)
    (hkey : c.InFences key) (hdone : Node.trySplit n c = .done m) : Step n m key := by
  rw [Node.trySplit] at hdone
  simp only [] at hdone
  split_ifs at hdone with hfew henough
  rw [← Node.length_getSep hc.page] at hdone henough
  obtain ⟨hn₁, hcontents, hroom⟩ := hn.requestSpaceFor henough
  rw [Node.findParentPos_eq hn.page hat hc.page] at hdone
  generalize (n.requestSpaceFor _).1 = n₁ at hn₁ hcontents hroom hdone
  have hat₁ := hat
  rw [← hcontents] at hat₁
  have hstep := hn₁.splitBelow_done hat₁ hc hkey (by omega) hroom hdone
  have hc₁ : c ∈ n.contents.children := by
    rw [hat.children_eq]
    simp
  have hload : load (h + 1) n₁ key = load (h + 1) n key := by
    have hcount : n₁.count = n.count := by
      rw [← Node.length_records, hcontents, Node.length_records]
    rw [hn.load_eq hc₁ hkey, hn₁.load_eq (hcontents ▸ hc₁) hkey, hcount]
  refine ⟨hstep.wf, ?_, ?_, ?_, ?_⟩
  · exact hstep.lower.trans (Node.lowerFence_eq hcontents)
  · exact hstep.upper.trans (Node.upperFence_eq hcontents)
  · rw [hstep.entries, leaves_congr hcontents]
  · rw [← hload]
    exact hstep.load

/-- A child after a split, in its parent. -/
lemma step_setChild {n : Tree (h + 1)} {c c' : Tree h} {A B : List (Record (Tree h))}
    (hn : n.WellFormed) (hat : n.contents.ChildAt A B c c.lowerFence c.upperFence)
    (hkey : c.InFences key) (hstep : Step c c' key) : Step n (n.setChild A.length c') key := by
  have hm := hn.setChild hat hstep.wf hstep.lower hstep.upper
  obtain ⟨hlo, hup⟩ := fences_setChild n A.length c'
  have hin : c'.InFences key := by
    rw [Node.InFences, hstep.lower, hstep.upper]
    exact hkey
  have hmem : c' ∈ (n.setChild A.length c').contents.children := by
    rw [contents_setChild hat, children_setChild hat]
    simp
  refine ⟨hm, hlo, hup, ?_, ?_⟩
  · rw [leaves_setChild hat, leaves_eq hat, leafEntries_append, leafEntries_append, leafEntries_append,
      leafEntries_append, hstep.entries]
  · have hload := hstep.load
    rw [hm.load_eq hmem hin, hn.load_eq (by rw [hat.children_eq]; simp) hkey, count_setChild]
    omega

/-- **`trySplit` keeps the entries of a subtree.** -/
lemma trySplit_done : {h : ℕ} → {n m : Tree h} → n.WellFormed → n.InFences key →
    Tree.trySplit h n key = .done m → Step n m key
  | 0, n, m, _, _, hdone => by simp [Tree.trySplit] at hdone
  | h + 1, n, m, hn, hkey, hdone => by
    obtain ⟨A, B, c, hat, hc, hin, hlookup, hpos⟩ := hn.exists_childPos hkey
    rw [Tree.trySplit, hlookup] at hdone
    simp only [hpos] at hdone
    split at hdone
    · exact absurd hdone (by simp)
    · exact hn.trySplit_child_done hat hc hin hdone
    · exact absurd hdone (by simp)
    · next c' hc' =>
        obtain rfl := SplitResult.done.inj hdone
        exact hn.step_setChild hat hin (trySplit_done hc hin hc')

lemma newRoot {root : Tree h} (hroot : root.WellFormed) (hlower : root.lowerFence = none)
    (hupper : root.upperFence = none) : WellFormed (h := h + 1) (newRoot root) := by
  refine ⟨page_newRoot root, rfl, ?_, ?_⟩
  · constructor
    · simp [children, contents, BTree.newRoot, Contents.keys, hlower]
    · simp [children, contents, BTree.newRoot, Contents.keys, hupper]
  · intro c hc
    obtain rfl : c = root := by simpa [children, contents, BTree.newRoot] using hc
    exact hroot

/-- A new root has room for any separator. -/
lemma canInsert_newRoot {root : Tree h} (hroot : root.WellFormed) (hcount : 3 ≤ root.count) :
    (BTree.newRoot root).canInsert (root.getSep root.findSep).length swipSize = true := by
  obtain ⟨A, a, b, B, -, hsep, hlen⟩ := separates_getSep hroot.page hcount
  have ha := root.contents.length_key_le (r := a) (by simp [hsep.records])
  have hsize := hroot.page.size_le
  have hslots : 3 ≤ root.contents.records.length := by rwa [length_records]
  rw [(page_newRoot root).canInsert_iff, spaceNeeded]
  have hempty : (BTree.newRoot root).contents.size = 92 := rfl
  have hshared : (BTree.newRoot root).prefixLength = 0 := rfl
  simp only [hempty, hshared, slotsOffset, slotSize, swipSize, effectivePageSize] at ha hsize ⊢
  omega

/-- **A root split.** -/
lemma trySplitRoot_done {root : Tree h} {m : Tree (h + 1)} (hroot : root.WellFormed)
    (hlower : root.lowerFence = none) (hupper : root.upperFence = none) (key : Key)
    (hdone : trySplitRoot root = .done m) :
    m.WellFormed ∧ m.lowerFence = none ∧ m.upperFence = none ∧
      leafEntries m.leaves = leafEntries root.leaves ∧ load (h + 1) m key < load h root key := by
  rw [trySplitRoot] at hdone
  split_ifs at hdone with hfew
  have hcount : 3 ≤ root.count := by omega
  have hn := hroot.newRoot hlower hupper
  have hat : (BTree.newRoot root).contents.ChildAt [] [] root root.lowerFence root.upperFence := by
    rw [hlower, hupper]
    exact childAt_newRoot root
  have hkey : root.InFences key := by
    constructor
    · simp [hlower]
    · simp [hupper]
  have hstep := hn.splitBelow_done hat hroot hkey hcount (hroot.canInsert_newRoot hcount) hdone
  have hload := hn.load_eq (c := root) (by rw [hat.children_eq]; simp) hkey
  have hzero : (BTree.newRoot root).count = 0 := rfl
  refine ⟨hstep.wf, hstep.lower, hstep.upper, ?_, ?_⟩
  · rw [hstep.entries, leaves_eq hat]
    simp [childrenBehind]
  · have := hstep.load
    rw [hload, hzero, zero_add] at this
    exact this

end Tree.WellFormed

namespace BTreeGeneric

/-- What there is on the way to a key. -/
def load (t : BTreeGeneric) (key : Key) : ℕ := Tree.load t.height t.root key

/-- **`trySplit` keeps the entries**, and leaves less on the way to the key. -/
lemma WellFormed.trySplit_done {t t' : BTreeGeneric} {key : Key} (h : t.WellFormed)
    (hdone : t.trySplit key = .done t') :
    t'.WellFormed ∧ t'.entries = t.entries ∧ t'.load key < t.load key := by
  rw [trySplit] at hdone
  split at hdone
  · exact absurd hdone (by simp)
  · split at hdone
    · exact absurd hdone (by simp)
    · exact absurd hdone (by simp)
    · exact absurd hdone (by simp)
    next root hroot =>
      obtain rfl := SplitResult.done.inj hdone
      obtain ⟨hwf, hlower, hupper, hentries, hload⟩ :=
        h.root.trySplitRoot_done h.lower h.upper key hroot
      exact ⟨⟨hwf, hlower, hupper⟩, hentries, hload⟩
  · exact absurd hdone (by simp)
  · next root hroot =>
      obtain rfl := SplitResult.done.inj hdone
      have hstep := h.root.trySplit_done (h.inFences_root key) hroot
      exact ⟨⟨hstep.wf, hstep.lower.trans h.lower, hstep.upper.trans h.upper⟩, hstep.entries,
        hstep.load⟩

end BTreeGeneric

/-! ## Another leaf in the same place -/

namespace Tree.WellFormed

variable {key : Key}

/-- **A leaf exchanged for one with the same fences**, on the way of a key. -/
lemma exists_setLeaf : {h : ℕ} → {n : Tree h} → n.WellFormed → n.InFences key →
    ∃ X l Y, n.leaves = X ++ l :: Y ∧ findLeaf h n key = some l ∧ l.InFences key ∧
      ∀ l' : Leaf, l'.WellFormed → l'.lowerFence = l.lowerFence → l'.upperFence = l.upperFence →
        (setLeaf h n key l').WellFormed ∧ (setLeaf h n key l').lowerFence = n.lowerFence ∧
        (setLeaf h n key l').upperFence = n.upperFence ∧ (setLeaf h n key l').leaves = X ++ l' :: Y
  | 0, n, _, hkey => ⟨[], n, [], rfl, rfl, hkey, fun _ hl' hlo hup => ⟨hl', hlo, hup, rfl⟩⟩
  | h + 1, n, hn, hkey => by
    obtain ⟨A, B, c, hat, hc, hin, hlookup, hpos⟩ := hn.exists_childPos hkey
    obtain ⟨X, l, Y, hleaves, hfind, hl, hset⟩ := exists_setLeaf hc hin
    refine ⟨(A.map Record.payload).flatMap leaves ++ X, l,
      Y ++ (n.contents.childrenBehind B).flatMap leaves, ?_, ?_, hl, ?_⟩
    · rw [leaves_eq hat, hleaves]
      simp
    · rw [findLeaf, hlookup]
      exact hfind
    intro l' hl' hlo hup
    obtain ⟨hwf, hlo', hup', hleaves'⟩ := hset l' hl' hlo hup
    obtain ⟨hflo, hfup⟩ := fences_setChild n A.length (setLeaf h c key l')
    have heq : setLeaf (h + 1) n key l' = n.setChild A.length (setLeaf h c key l') := by
      rw [setLeaf, hlookup]
      simp [hpos]
    rw [heq]
    refine ⟨hn.setChild hat hwf hlo' hup', hflo, hfup, ?_⟩
    rw [leaves_setChild hat, hleaves']
    simp

end Tree.WellFormed

/-- Entries with one more among them. -/
def Inserts (e : Key × List UInt8) (E E' : List (Key × List UInt8)) : Prop :=
  ∃ A B, E = A ++ B ∧ E' = A ++ e :: B

lemma Inserts.append {e : Key × List UInt8} {E E' : List (Key × List UInt8)} (h : Inserts e E E')
    (L R : List (Key × List UInt8)) : Inserts e (L ++ (E ++ R)) (L ++ (E' ++ R)) := by
  obtain ⟨A, B, rfl, rfl⟩ := h
  exact ⟨L ++ A, B ++ R, by simp, by simp⟩

namespace BTreeGeneric.WellFormed

variable {t : BTreeGeneric} {key : Key}

/-- **A leaf exchanged**: the entries around those of the leaf stay. -/
lemma setLeaf (h : t.WellFormed) {l l' : Leaf} (hfind : t.findLeaf key = some l)
    (hl' : Tree.WellFormed (h := 0) l') (hlower : l'.lowerFence = l.lowerFence)
    (hupper : l'.upperFence = l.upperFence) :
    (t.setLeaf key l').WellFormed ∧ (t.setLeaf key l').findLeaf key = some l' ∧
      ∃ L R, t.entries = L ++ (l.entries ++ R) ∧ (t.setLeaf key l').entries = L ++ (l'.entries ++ R) := by
  obtain ⟨X, l₀, Y, hl, hfind₀, hin, hset⟩ := h.root.exists_setLeaf (h.inFences_root key)
  obtain rfl : l₀ = l := some.inj (hfind₀.symm.trans hfind)
  obtain ⟨hroot, hlo, hup, hleaves⟩ := hset l' hl' hlower hupper
  have hwf : (t.setLeaf key l').WellFormed := ⟨hroot, hlo.trans h.lower, hup.trans h.upper⟩
  refine ⟨hwf, hwf.findLeaf_of_inFences hleaves ?_, leafEntries X, leafEntries Y, ?_, ?_⟩
  · rw [Node.InFences, hlower, hupper]
    exact hin
  · rw [entries, show t.leaves = _ from hl, leafEntries_append, leafEntries_cons]
  · rw [entries, show (t.setLeaf key l').leaves = _ from hleaves, leafEntries_append, leafEntries_cons]

end BTreeGeneric.WellFormed

/-! ## Inserting a record -/

namespace BTreeGeneric

/-- The leaf of the key has room for the record. -/
def hasRoom (t : BTreeGeneric) (key : Key) (value : List UInt8) : Bool :=
  (t.findLeaf key).any fun leaf => leaf.canInsert key.length value.length

/-- The trees that an insert comes to: as long as there is no room, a page is split. -/
inductive Retries (key : Key) (value : List UInt8) (t : BTreeGeneric) : BTreeGeneric → Prop
  | start : Retries key value t t
  | split {t' t'' : BTreeGeneric} : Retries key value t t' → t'.hasRoom key value = false →
      t'.trySplit key = .done t'' → Retries key value t t''

variable {t t' : BTreeGeneric} {key : Key} {value : List UInt8}

lemma Retries.keeps (h : Retries key value t t') (hwf : t.WellFormed) :
    t'.WellFormed ∧ t'.entries = t.entries := by
  induction h with
  | start => exact ⟨hwf, rfl⟩
  | split _ _ hsplit ih =>
    obtain ⟨hwf', hentries, -⟩ := ih.1.trySplit_done hsplit
    exact ⟨hwf', hentries.trans ih.2⟩

section

variable (h : t.WellFormed) (habsent : key ∉ t.entries.map Prod.fst)
include h habsent

end

end BTreeGeneric

end TwoTree.BTree
