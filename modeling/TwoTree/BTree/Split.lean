import TwoTree.BTree.Page

/-!
# Splitting a node

`findSep`, `getSep`, `split` and `lookupInner` of `BTreeNode`.  A leaf is cut near its middle, where the
keys share most with the first one; the separator need not be a key of the leaf, but only the first
bytes of the key behind the cut that tell it from the key in front of it.  An inner node is cut at its
middle key, which goes up.

The separator always separates (`separates_getSep`), the right half always fits its page, and the left
half does if the separator is no longer than the key behind the cut.  Where that key is short and the
one in front of it is long, the separator is the long key, the left half holds it twice, as its upper
fence and as its last key, and need not fit (`split_overflows`).
-/

namespace TwoTree.BTree

open Lib Lib.ByteOrder List Contents Record

/-! ## The code -/

/-- `SeparatorInfo`. -/
structure SeparatorInfo where
  length : ℕ
  slot : ℕ
  trunc : Bool
deriving DecidableEq

namespace Node

variable {π κ : Type*} (n : Node π)

/-- The key of a slot, without the prefix. -/
def keyAt (slotId : ℕ) : Key := (n.slots[slotId]?.map Slot.key).getD []

/-- `getFullKeyLen`. -/
def getFullKeyLen (slotId : ℕ) : ℕ := n.prefixLength + (n.keyAt slotId).length

/-- `commonPrefix`: the bytes that two keys share behind the prefix. -/
def commonPrefix (slotA slotB : ℕ) : ℕ :=
  if n.count = 0 then 0 else commonPrefixLength (n.keyAt slotA) (n.keyAt slotB)

/-- The loop of `findSep`: the position that shares most with the first key, and how much. -/
def findSepLoop (positions : List ℕ) (maxPos maxPrefix : ℕ) : ℕ :=
  (positions.foldl (fun (best : ℕ × ℕ) i =>
    if n.commonPrefix i 0 > best.2 then (i, n.commonPrefix i 0) else best) (maxPos, maxPrefix)).1

/-- `findSep`. -/
def findSep : SeparatorInfo :=
  if n.isLeaf then
    let lower := n.count / 2 - n.count / 16
    let upper := n.count / 2 + n.count / 16
    let maxPos := n.findSepLoop (List.range' lower (upper - lower)) (n.count / 2)
      (n.commonPrefix (n.count / 2) 0)
    let common := n.commonPrefix maxPos (maxPos + 1)
    if (n.keyAt maxPos).length > common ∧ (n.keyAt (maxPos + 1)).length > common + 1 then
      ⟨n.prefixLength + common + 1, maxPos, true⟩
    else ⟨n.getFullKeyLen maxPos, maxPos, false⟩
  else ⟨n.getFullKeyLen (n.count / 2), n.count / 2, false⟩

/-- `getSep`. -/
def getSep (info : SeparatorInfo) : Key :=
  n.prefixBytes ++ (n.keyAt (if info.trunc then info.slot + 1 else info.slot)).take
    (info.length - n.prefixLength)

/-- `getChild`. -/
def getChild (slotId : ℕ) : Option π := n.slots[slotId]?.map Slot.payload

/-- `lookupInner`. -/
def lookupInner (key : Key) : Option π :=
  let pos := (n.lowerBound false key).1.toNat
  if pos = n.count then n.upper else n.getChild pos

/-- The two nodes that `split` makes, the new left one and the right one that stays. -/
def splitNodes (sepSlot : ℕ) (sepKey : Key) : Node π × Node π :=
  let nodeLeft := ({ isLeaf := n.isLeaf } : Node π).setFences n.lowerFence (some sepKey)
  let nodeRight := ({ isLeaf := n.isLeaf } : Node π).setFences (some sepKey) n.upperFence
  if n.isLeaf then
    let nodeLeft := n.copyKeyValueRange nodeLeft 0 (sepSlot + 1)
    let nodeRight := n.copyKeyValueRange nodeRight nodeLeft.count (n.count - nodeLeft.count)
    (nodeLeft.makeHint, nodeRight.makeHint)
  else
    let nodeLeft := n.copyKeyValueRange nodeLeft 0 sepSlot
    let nodeRight := n.copyKeyValueRange nodeRight (nodeLeft.count + 1)
      (n.count - nodeLeft.count - 1)
    ({ nodeLeft with upper := n.getChild nodeLeft.count }.makeHint,
      { nodeRight with upper := n.upper }.makeHint)

/-- What `split` leaves: the parent and the two nodes. -/
structure Split (π κ : Type*) where
  parent : Node κ
  left : Node π
  right : Node π

/-- `split`, with the swip of the new left node; the node itself becomes the right one. -/
def split (parent : Node κ) (swip : κ) (sepSlot : ℕ) (sepKey : Key) : Split π κ where
  parent := parent.insert sepKey swip swipSize
  left := (n.splitNodes sepSlot sepKey).1
  right := (n.splitNodes sepSlot sepKey).2

end Node

/-! ## What keys share -/

section CommonPrefix

open Node

lemma commonPrefixLength_append (p a b : Key) :
    commonPrefixLength (p ++ a) (p ++ b) = p.length + commonPrefixLength a b := by
  induction p with
  | nil => simp
  | cons x p ih =>
    rw [cons_append, cons_append, commonPrefixLength, if_pos rfl, ih, length_cons]
    omega

/-- **The first bytes that tell a greater string from a smaller one separate them.** -/
lemma separates_take {a b : Key} (hlt : a < b) (ha : commonPrefixLength a b < a.length)
    (hb : commonPrefixLength a b + 1 < b.length) :
    a < b.take (commonPrefixLength a b + 1) ∧ b.take (commonPrefixLength a b + 1) < b := by
  induction a generalizing b with
  | nil => simp at ha
  | cons x a ih =>
    cases b with
    | nil => simp at hb
    | cons y b =>
      by_cases hxy : x = y
      · subst hxy
        rw [commonPrefixLength, if_pos rfl] at ha hb ⊢
        rw [cons_lt_cons_self_iff] at hlt
        rw [length_cons] at ha hb
        rw [take_succ_cons, cons_lt_cons_self_iff, cons_lt_cons_self_iff]
        exact ih hlt (by omega) (by omega)
      · rw [commonPrefixLength, if_neg hxy] at hb ⊢
        have hlt' : x < y := by
          rcases cons_lt_cons_iff.1 hlt with h | ⟨h, -⟩
          · exact h
          · exact absurd h hxy
        rw [zero_add, take_succ_cons, take_zero, cons_lt_cons_self_iff]
        refine ⟨cons_lt_cons_iff.2 (.inl hlt'), ?_⟩
        cases b with
        | nil => simp at hb
        | cons z b => exact nil_lt_cons z b

/-- Fences that move closer share as much or more. -/
lemma le_commonPrefixLength_of_isPrefix {p a b : Key} (ha : p <+: a) (hb : p <+: b) :
    p.length ≤ commonPrefixLength a b := by
  obtain ⟨a', rfl⟩ := ha
  obtain ⟨b', rfl⟩ := hb
  rw [commonPrefixLength_append]
  omega

end CommonPrefix

/-! ## Two halves -/

namespace Contents

variable {π : Type*} {c : Contents π} {A B : List (Record π)} {a b : Record π} {sep : Key}

/-- A separator between the records `a` and `b`; in an inner node it is the key of `a`. -/
structure Separates (c : Contents π) (A : List (Record π)) (a b : Record π) (B : List (Record π))
    (sep : Key) : Prop where
  records : c.records = A ++ a :: b :: B
  le : a.key ≤ sep
  lt : sep < b.key
  inner : c.isLeaf = false → sep = a.key
  ne_nil : sep ≠ []

/-- What goes to the left: in an inner node the child of `a` becomes the one behind the last record. -/
def leftHalf (c : Contents π) (A : List (Record π)) (a : Record π) (sep : Key) : Contents π where
  isLeaf := c.isLeaf
  upper := if c.isLeaf then none else some a.payload
  lowerFence := c.lowerFence
  upperFence := some sep
  records := if c.isLeaf then A ++ [a] else A

/-- What stays on the right. -/
def rightHalf (c : Contents π) (B : List (Record π)) (sep : Key) : Contents π where
  isLeaf := c.isLeaf
  upper := c.upper
  lowerFence := some sep
  upperFence := c.upperFence
  records := B

namespace Separates

lemma keys_eq (h : c.Separates A a b B sep) :
    c.keys = A.map key ++ a.key :: b.key :: B.map key := by
  rw [keys, h.records]
  simp

/-- The separator is strictly between the fences. -/
lemma between (hc : c.Valid) (h : c.Separates A a b B sep) :
    (∀ lower ∈ c.lowerFence, lower < sep) ∧ ∀ upper ∈ c.upperFence, sep < upper := by
  have ha : a.key ∈ c.keys := by simp [h.keys_eq]
  have hb : b.key ∈ c.keys := by simp [h.keys_eq]
  constructor
  · intro lower hlower
    exact lt_of_lt_of_le ((hc.within _ ha).1 lower hlower) h.le
  · intro upper hupper
    exact lt_of_lt_of_le h.lt ((hc.within _ hb).2 upper hupper)

lemma inFences (hc : c.Valid) (h : c.Separates A a b B sep) : c.InFences sep :=
  ⟨(h.between hc).1, fun upper hupper => ((h.between hc).2 upper hupper).le⟩

lemma lt_of_mem_left (hc : c.Valid) (h : c.Separates A a b B sep) {r : Record π} (hr : r ∈ A) :
    r.key < a.key := by
  have hsorted := hc.sorted
  rw [h.keys_eq, pairwise_append] at hsorted
  exact hsorted.2.2 _ (mem_map_of_mem hr) _ (by simp)

lemma lt_of_mem_right (hc : c.Valid) (h : c.Separates A a b B sep) {r : Record π}
    (hr : r ∈ b :: B) : sep < r.key := by
  have hsorted := hc.sorted
  rw [h.keys_eq, pairwise_append] at hsorted
  obtain ⟨-, hright, -⟩ := hsorted
  rw [pairwise_cons, pairwise_cons] at hright
  rcases mem_cons.1 hr with rfl | hr
  · exact h.lt
  · exact h.lt.trans (hright.2.1 _ (mem_map_of_mem hr))

lemma mem_records (h : c.Separates A a b B sep) {r : Record π} (hr : r ∈ A ∨ r = a ∨ r ∈ b :: B) :
    r ∈ c.records := by
  rw [h.records, mem_append, mem_cons]
  tauto

/-- What goes to the left is not above the separator, and below it in an inner node. -/
lemma of_mem_leftHalf (hc : c.Valid) (h : c.Separates A a b B sep) {r : Record π}
    (hr : r ∈ (c.leftHalf A a sep).records) :
    r ∈ c.records ∧ r.key ≤ sep ∧ (c.isLeaf = false → r.key < sep) := by
  rw [leftHalf] at hr
  cases hleaf : c.isLeaf with
  | true =>
    simp only [hleaf, if_true, mem_append, mem_singleton] at hr
    refine ⟨h.mem_records (hr.imp_right Or.inl), ?_, by simp⟩
    rcases hr with hr | rfl
    · exact ((h.lt_of_mem_left hc hr).le).trans h.le
    · exact h.le
  | false =>
    simp only [hleaf, Bool.false_eq_true, if_false] at hr
    have hlt : r.key < sep := h.inner hleaf ▸ h.lt_of_mem_left hc hr
    exact ⟨h.mem_records (.inl hr), hlt.le, fun _ => hlt⟩

/-- **The left half is well formed.** -/
lemma valid_leftHalf (hc : c.Valid) (h : c.Separates A a b B sep) : (c.leftHalf A a sep).Valid := by
  have hsub : (c.leftHalf A a sep).records.Sublist c.records := by
    rw [h.records, leftHalf]
    split_ifs
    · exact (append_cons A a (b :: B)).symm ▸ sublist_append_left (A ++ [a]) (b :: B)
    · exact sublist_append_left _ _
  constructor
  · exact hc.sorted.sublist (hsub.map _)
  · intro k hk
    obtain ⟨r, hr, rfl⟩ := mem_map.1 hk
    obtain ⟨hmem, hle, -⟩ := h.of_mem_leftHalf hc hr
    refine ⟨(hc.within _ (mem_map_of_mem hmem)).1, ?_⟩
    simpa [leftHalf] using hle
  · intro lower hlower upper hupper
    obtain rfl : sep = upper := by simpa [leftHalf] using hupper
    exact (h.between hc).1 lower hlower
  · exact hc.lower_ne_nil
  · simpa [leftHalf] using h.ne_nil
  · cases hleaf : c.isLeaf <;> simp [leftHalf, hleaf]
  · intro hleaf r hr
    exact hc.swips hleaf r (h.of_mem_leftHalf hc hr).1
  · intro hleaf k hk upper hupper
    obtain rfl : sep = upper := by simpa [leftHalf] using hupper
    obtain ⟨r, hr, rfl⟩ := mem_map.1 hk
    exact (h.of_mem_leftHalf hc hr).2.2 hleaf

/-- **The right half is well formed.** -/
lemma valid_rightHalf (hc : c.Valid) (h : c.Separates A a b B sep) :
    (c.rightHalf (b :: B) sep).Valid := by
  have hsub : (b :: B).Sublist c.records := by
    rw [h.records]
    exact ((List.Sublist.refl _).cons a).trans (sublist_append_right _ _)
  have hmem : ∀ k ∈ (b :: B).map key, k ∈ c.keys := (hsub.map _).subset
  constructor
  · exact hc.sorted.sublist (hsub.map _)
  · intro k hk
    refine ⟨?_, (hc.within k (hmem k hk)).2⟩
    obtain ⟨r, hr, rfl⟩ := mem_map.1 hk
    simpa [rightHalf] using h.lt_of_mem_right hc hr
  · intro lower hlower upper hupper
    obtain rfl : sep = lower := by simpa [rightHalf] using hlower
    exact (h.between hc).2 upper hupper
  · simpa [rightHalf] using h.ne_nil
  · exact hc.upper_ne_nil
  · exact hc.hasUpper
  · exact fun hleaf r hr => hc.swips hleaf r (hsub.subset hr)
  · exact fun hleaf k hk => hc.below hleaf k (hmem k hk)

end Separates

end Contents

/-! ## What the halves need -/

namespace Contents

variable {π : Type*} {c : Contents π} {A B : List (Record π)} {a b : Record π} {sep : Key}

lemma prefixLength_le_lower (c : Contents π) : c.prefixLength ≤ (c.lowerFence.getD []).length :=
  Node.commonPrefixLength_le _ _

/-- A key between the fences shares the prefix with both of them. -/
lemma prefixLength_le_of_inFences {key : Key} (h : c.InFences key) :
    c.prefixLength ≤ Node.commonPrefixLength (c.lowerFence.getD []) key ∧
    c.prefixLength ≤ Node.commonPrefixLength key (c.upperFence.getD []) := by
  have hlen : ((c.lowerFence.getD []).take c.prefixLength).length = c.prefixLength :=
    length_take_of_le c.prefixLength_le_lower
  have hkey : (c.lowerFence.getD []).take c.prefixLength <+: key :=
    ⟨_, Node.take_prefixLength_append_drop h⟩
  have hlower := take_prefix c.prefixLength (c.lowerFence.getD [])
  have hupper : (c.lowerFence.getD []).take c.prefixLength <+: c.upperFence.getD [] := by
    rw [Node.take_eq_of_le_commonPrefixLength (le_refl c.prefixLength)]
    exact take_prefix _ _
  constructor
  · exact hlen.symm.le.trans (le_commonPrefixLength_of_isPrefix hlower hkey)
  · exact hlen.symm.le.trans (le_commonPrefixLength_of_isPrefix hkey hupper)

/-- The last records and a new lower fence that is no longer than the key of the record in front. -/
lemma size_last_le {c' : Contents π} {r : Record π} (hc : c.InFences sep)
    (hrecords : c.records = A ++ r :: c'.records) (hsep : sep.length ≤ r.key.length)
    (hlower : c'.lowerFence = some sep) (hupper : c'.upperFence = c.upperFence) :
    c'.size ≤ c.size := by
  have hp : c.prefixLength ≤ c'.prefixLength := by
    rw [prefixLength.eq_def c', hlower, hupper]
    exact (prefixLength_le_of_inFences hc).2
  have hanti := recordsSpace_anti hp c'.records
  have hle := c.prefixLength_le_lower
  rw [size, size, space, space, fenceSpace, fenceSpace, hrecords, hlower, hupper,
    recordsSpace_append, recordsSpace_cons, recordSpace, length_append, length_cons,
    Option.getD_some, Nat.mul_add, Nat.mul_add]
  omega

namespace Separates

/-- **The right half needs no more than both together.** -/
lemma size_rightHalf_le (hc : c.Valid) (h : c.Separates A a b B sep)
    (hlen : sep.length ≤ a.key.length) : (c.rightHalf (b :: B) sep).size ≤ c.size :=
  size_last_le (h.inFences hc) h.records hlen rfl rfl

end Separates

end Contents

/-! ## The separator -/

namespace Node

variable {π κ : Type*} {n : Node π} {A B : List (Record π)} {a b : Record π} {sep : Key}

lemma record_of_lt {i : ℕ} (hi : i < n.count) :
    ∃ r, n.contents.records[i]? = some r ∧ r.key = n.prefixBytes ++ n.keyAt i := by
  obtain ⟨s, hs⟩ := slot_of_lt hi
  refine ⟨n.record s, ?_, ?_⟩
  · rw [contents, getElem?_map, hs]
    rfl
  · rw [keyAt, hs]
    rfl

/-- The loop stays with the position it starts with or takes one that it looks at. -/
lemma findSepLoop_mem (n : Node π) (positions : List ℕ) (maxPos maxPrefix : ℕ) :
    n.findSepLoop positions maxPos maxPrefix ∈ maxPos :: positions := by
  induction positions generalizing maxPos maxPrefix with
  | nil => simp [findSepLoop]
  | cons i positions ih =>
    have hstep : n.findSepLoop (i :: positions) maxPos maxPrefix =
        if n.commonPrefix i 0 > maxPrefix then
          n.findSepLoop positions i (n.commonPrefix i 0)
        else n.findSepLoop positions maxPos maxPrefix := by
      simp only [findSepLoop, foldl_cons]
      split_ifs <;> rfl
    rw [hstep]
    split_ifs with hmore
    · exact mem_cons_of_mem maxPos (ih i _)
    · rcases mem_cons.1 (ih maxPos maxPrefix) with heq | hmem
      · rw [heq]
        exact mem_cons_self
      · exact mem_cons_of_mem _ (mem_cons_of_mem _ hmem)

/-- A node with three records is cut behind a record that is not the first, and not the last. -/
lemma slot_findSep (h : 3 ≤ n.count) :
    1 ≤ n.findSep.slot ∧ n.findSep.slot + 1 < n.count := by
  rw [findSep]
  by_cases hleaf : n.isLeaf = true
  · have hmem := n.findSepLoop_mem (List.range' (n.count / 2 - n.count / 16)
      (n.count / 2 + n.count / 16 - (n.count / 2 - n.count / 16))) (n.count / 2)
      (n.commonPrefix (n.count / 2) 0)
    rw [mem_cons, mem_range'_1] at hmem
    rw [if_pos hleaf]
    simp only
    generalize n.findSepLoop _ _ _ = maxPos at hmem ⊢
    have hbounds : 1 ≤ maxPos ∧ maxPos + 1 < n.count := by omega
    split_ifs <;> exact hbounds
  · rw [if_neg hleaf]
    simp only
    omega

/-- The separator as it stands between the keys around the cut, both without the prefix. -/
lemma getSep_findSep (h : 3 ≤ n.count) :
    ∃ suffix, n.getSep n.findSep = n.prefixBytes ++ suffix ∧
      (suffix = n.keyAt n.findSep.slot ∨ n.isLeaf = true ∧
        ∃ common, common = commonPrefixLength (n.keyAt n.findSep.slot)
            (n.keyAt (n.findSep.slot + 1)) ∧
          common < (n.keyAt n.findSep.slot).length ∧
          common + 1 < (n.keyAt (n.findSep.slot + 1)).length ∧
          suffix = (n.keyAt (n.findSep.slot + 1)).take (common + 1)) := by
  have hcount : n.count ≠ 0 := by omega
  rw [findSep]
  by_cases hleaf : n.isLeaf = true
  · rw [if_pos hleaf]
    generalize n.findSepLoop _ _ _ = maxPos
    simp only [commonPrefix, if_neg hcount]
    split_ifs with htrunc
    · refine ⟨_, rfl, .inr ⟨hleaf, _, rfl, htrunc.1, htrunc.2, ?_⟩⟩
      simp only [if_true]
      congr 1
      omega
    · refine ⟨_, rfl, .inl ?_⟩
      simp [getFullKeyLen]
  · rw [if_neg hleaf]
    refine ⟨_, rfl, .inl ?_⟩
    simp [getFullKeyLen]

/-- **The separator separates.**  It is no longer than the key in front of the cut. -/
lemma separates_getSep (hn : n.Page) (h : 3 ≤ n.count) :
    ∃ A a b B, A.length = n.findSep.slot ∧ n.contents.Separates A a b B (n.getSep n.findSep) ∧
      (n.getSep n.findSep).length ≤ a.key.length := by
  obtain ⟨hpos, hlt⟩ := slot_findSep h
  obtain ⟨suffix, hsep, hsuffix⟩ := getSep_findSep h
  obtain ⟨first, hfirst, -⟩ := record_of_lt (show 0 < n.count by omega)
  obtain ⟨a, ha, hakey⟩ := record_of_lt (show n.findSep.slot < n.count by omega)
  obtain ⟨b, hb, hbkey⟩ := record_of_lt hlt
  rw [hsep]
  generalize n.findSep.slot = slot at *
  obtain ⟨A, B, hAB, rfl⟩ := ListCut.exists_eq_cut ha
  have hB : B[0]? = some b := by
    rw [hAB, getElem?_append_right (by omega)] at hb
    simpa using hb
  obtain ⟨b', B, rfl⟩ : ∃ b' B', B = b' :: B' := by
    cases B with
    | nil => simp at hB
    | cons b' B' => exact ⟨b', B', rfl⟩
  obtain rfl : b' = b := by simpa using hB
  have hsorted := hn.valid.sorted
  rw [Contents.keys, hAB] at hsorted
  simp only [map_append, map_cons] at hsorted
  have hab : a.key < b'.key := by
    rw [pairwise_append, pairwise_cons] at hsorted
    exact hsorted.2.1.1 _ (by simp)
  have habkey := hab
  rw [hakey, hbkey, append_lt_append_iff] at habkey
  have hle : a.key ≤ n.prefixBytes ++ suffix ∧ n.prefixBytes ++ suffix < b'.key ∧
      (n.isLeaf = false → n.prefixBytes ++ suffix = a.key) ∧
      (n.prefixBytes ++ suffix).length ≤ a.key.length := by
    rcases hsuffix with rfl | ⟨hleaf, common, rfl, hca, hcb, rfl⟩
    · rw [← hakey]
      exact ⟨le_refl _, hab, fun _ => rfl, le_refl _⟩
    obtain ⟨hlo, hhi⟩ := separates_take habkey hca hcb
    rw [hakey, hbkey]
    refine ⟨((append_lt_append_iff _ _ _).2 hlo).le, (append_lt_append_iff _ _ _).2 hhi, ?_, ?_⟩
    · simp [hleaf]
    · rw [length_append, length_append, length_take]
      omega
  refine ⟨A, a, b', B, rfl, ⟨hAB, hle.1, hle.2.1, hle.2.2.1, ?_⟩, hle.2.2.2⟩
  -- the first key is below the one in front of the cut, which therefore is not empty
  intro hnil
  have hane : first.key < a.key := by
    have hmem : first ∈ A := by
      rw [hAB, getElem?_append_left (by omega)] at hfirst
      exact mem_of_getElem? hfirst
    rw [pairwise_append] at hsorted
    exact hsorted.2.2 _ (mem_map_of_mem hmem) _ (by simp)
  rw [hnil] at hle
  exact absurd (lt_of_lt_of_le hane hle.1) (not_lt_nil _)

end Node

/-! ## The place of a child -/

namespace Contents

variable {κ : Type*} {c : Contents κ} {A B : List (Record κ)} {swip : κ} {lower upper : Option Key}

/-- The child between the records `A` and `B` of an inner node, and the keys that bound it: the keys of
the records around it, or the fences of the node. -/
structure ChildAt (c : Contents κ) (A B : List (Record κ)) (swip : κ) (lower upper : Option Key) :
    Prop where
  records : c.records = A ++ B
  child : B.head?.elim c.upper (fun r => some r.payload) = some swip
  lower : A.getLast?.elim c.lowerFence (fun r => some r.key) = lower
  upper : B.head?.elim c.upperFence (fun r => some r.key) = upper

namespace ChildAt

lemma keys_eq (h : c.ChildAt A B swip lower upper) :
    c.keys = A.map key ++ B.map key := by
  rw [keys, h.records, map_append]

variable (hc : c.Valid)
include hc

/-- The records in front of a child are not above its lower bound. -/
lemma lt_of_mem_left (h : c.ChildAt A B swip lower upper) {key : Key}
    (hkey : ∀ l ∈ lower, l < key) {r : Record κ} (hr : r ∈ A) : r.key < key := by
  obtain ⟨A, x, rfl⟩ := eq_nil_or_concat' A |>.resolve_left (ne_nil_of_mem hr)
  have hlower : lower = some x.key := by simpa using h.lower.symm
  have hx : x.key < key := hkey x.key (by simp [hlower])
  have hsorted := hc.sorted
  rw [h.keys_eq, pairwise_append, map_append, pairwise_append] at hsorted
  rcases mem_append.1 hr with hr | hr
  · exact (hsorted.1.2.2 _ (mem_map_of_mem hr) x.key (by simp)).trans hx
  · obtain rfl := mem_singleton.1 hr
    exact hx

/-- The records behind a child are not below its upper bound. -/
lemma exists_le_of_mem_right (h : c.ChildAt A B swip lower upper) {r : Record κ}
    (hr : r ∈ B) : ∃ u ∈ upper, u ≤ r.key := by
  cases B with
  | nil => exact absurd hr not_mem_nil
  | cons x B =>
    have hupper : upper = some x.key := by simpa using h.upper.symm
    refine ⟨x.key, by simp [hupper], ?_⟩
    have hsorted := hc.sorted
    rw [h.keys_eq, pairwise_append, map_cons, pairwise_cons] at hsorted
    rcases mem_cons.1 hr with rfl | hr
    · exact le_refl _
    · exact (hsorted.2.1.1 _ (mem_map_of_mem hr)).le

lemma inFences (h : c.ChildAt A B swip lower upper) {key : Key}
    (hlower : ∀ l ∈ lower, l < key) (hupper : ∀ u ∈ upper, key ≤ u) : c.InFences key := by
  have hmem : ∀ r, r ∈ A ∨ r ∈ B → r.key ∈ c.keys := by
    intro r hr
    rw [keys, h.records]
    exact mem_map_of_mem (mem_append.2 hr)
  constructor
  · intro l hl
    rcases eq_nil_or_concat' A with rfl | ⟨A, x, rfl⟩
    · exact hlower l (h.lower ▸ hl)
    · have hx : lower = some x.key := by simpa using h.lower.symm
      exact ((hc.within _ (hmem x (.inl (by simp)))).1 l hl).trans (hlower x.key (by simp [hx]))
  · intro u hu
    cases B with
    | nil => exact hupper u (h.upper ▸ hu)
    | cons x B =>
      have hx : upper = some x.key := by simpa using h.upper.symm
      exact (hupper x.key (by simp [hx])).trans ((hc.within _ (hmem x (.inr (by simp)))).2 u hu)

/-- A separator strictly between the bounds of a child may be put in. -/
lemma accepts (hinner : c.isLeaf = false) (h : c.ChildAt A B swip lower upper)
    {sep : Key} (hlower : ∀ l ∈ lower, l < sep) (hupper : ∀ u ∈ upper, sep < u) (swip' : κ) :
    c.Accepts ⟨sep, swip', swipSize⟩ where
  within := h.inFences hc hlower fun u hu => (hupper u hu).le
  absent := by
    rw [h.keys_eq, mem_append]
    rintro (hmem | hmem)
    · obtain ⟨r, hr, rfl⟩ := mem_map.1 hmem
      exact lt_irrefl _ (h.lt_of_mem_left hc hlower hr)
    · obtain ⟨r, hr, rfl⟩ := mem_map.1 hmem
      obtain ⟨u, hu, hle⟩ := h.exists_le_of_mem_right hc hr
      exact absurd (hupper u hu) (not_lt.2 hle)
  swip := by
    refine fun _ => ⟨rfl, fun u hu => ?_⟩
    cases B with
    | nil => exact hupper u (h.upper ▸ hu)
    | cons x B =>
      have hx : upper = some x.key := by simpa using h.upper.symm
      have hmem : x.key ∈ c.keys := by simp [h.keys_eq]
      exact (hupper x.key (by simp [hx])).trans (hc.below hinner _ hmem u hu)

/-- **A separator put in makes two places of one**, with the new child on the left. -/
lemma insert (h : c.ChildAt A B swip lower upper) {sep : Key}
    (hlower : ∀ l ∈ lower, l < sep) (hupper : ∀ u ∈ upper, sep < u) (swip' : κ) :
    (c.insert ⟨sep, swip', swipSize⟩).ChildAt A (⟨sep, swip', swipSize⟩ :: B) swip' lower (some sep) ∧
    (c.insert ⟨sep, swip', swipSize⟩).ChildAt (A ++ [⟨sep, swip', swipSize⟩]) B swip (some sep)
      upper := by
  have hB : ∀ r ∈ B, sep ≤ r.key := by
    intro r hr
    obtain ⟨u, hu, hle⟩ := h.exists_le_of_mem_right hc hr
    exact ((hupper u hu).trans_le hle).le
  have hinsert := insert_of_cut (r := ⟨sep, swip', swipSize⟩) h.records
    (fun r hr => h.lt_of_mem_left hc hlower hr) hB
  rw [hinsert]
  refine ⟨⟨rfl, rfl, h.lower, rfl⟩, ⟨by simp, h.child, by simp, h.upper⟩⟩

end ChildAt

end Contents

namespace Node

variable {κ : Type*} {p : Node κ} {A B : List (Record κ)} {swip : κ} {lower upper : Option Key}

/-- The search ends at the place of the child between whose bounds the key is. -/
lemma lowerBound_childAt (hp : p.Page) (h : p.contents.ChildAt A B swip lower upper) {key : Key}
    (hlower : ∀ l ∈ lower, l < key) (hupper : ∀ u ∈ upper, key ≤ u) :
    (p.lowerBound false key).1 = A.length := by
  have hB : ∀ b ∈ (B.map Record.key).head?, key ≤ b := by
    intro b hb
    obtain ⟨r, hr, rfl⟩ := mem_map.1 (mem_of_mem_head? hb)
    obtain ⟨u, hu, hle⟩ := h.exists_le_of_mem_right hp.valid hr
    exact (hupper u hu).trans hle
  have hA : ∀ a ∈ A.map Record.key, a < key := by
    intro a ha
    obtain ⟨r, hr, rfl⟩ := mem_map.1 ha
    exact h.lt_of_mem_left hp.valid hlower hr
  rw [lowerBound_false hp.wf (h.inFences hp.valid hlower hupper), ← keys_contents, h.keys_eq,
    ListCut.findIdx_append hA hB, length_map]

/-- **`lookupInner` leads to the child between whose bounds the key is.** -/
lemma lookupInner_eq (hp : p.Page) (h : p.contents.ChildAt A B swip lower upper) {key : Key}
    (hlower : ∀ l ∈ lower, l < key) (hupper : ∀ u ∈ upper, key ≤ u) :
    p.lookupInner key = some swip := by
  have hlen : p.count = A.length + B.length := by
    rw [← length_records, h.records, length_append]
  have hchild : p.getChild A.length = B.head?.map payload := by
    have hget : (p.contents.records[A.length]?).map payload = B.head?.map payload := by
      rw [h.records, getElem?_append_right le_rfl, Nat.sub_self, head?_eq_getElem?]
    rw [← hget, getChild, contents, getElem?_map, Option.map_map]
    rfl
  rw [lookupInner, lowerBound_childAt hp h hlower hupper]
  simp only [Int.toNat_natCast, hlen, hchild]
  have hc := h.child
  cases B with
  | nil => simpa [contents] using hc
  | cons r B => simpa using hc

end Node

/-! ## The split -/

namespace Node

variable {π κ : Type*} {n : Node π} {A B : List (Record π)} {a b : Record π} {sep : Key}

/-- What the counters of a node add up to is in the page. -/
def Fits (n : Node π) : Prop :=
  slotsOffset + slotSize * n.count + n.spaceUsed ≤ effectivePageSize

instance (n : Node π) : Decidable n.Fits := inferInstanceAs (Decidable (_ ≤ _))

lemma Page.fits (h : n.Page) : n.Fits := by
  have hsize := h.size_le
  rwa [size, length_records, ← h.space] at hsize

lemma fits_pack_iff (c : Contents π) : c.pack.makeHint.Fits ↔ c.size ≤ effectivePageSize := by
  have hcount : c.pack.makeHint.count = c.records.length := length_map ..
  rw [Fits, hcount]
  rfl

/-- **`split` packs the two halves.** -/
lemma splitNodes_eq (hn : n.Page) (h : n.contents.Separates A a b B sep) :
    n.splitNodes A.length sep = ((n.contents.leftHalf A a sep).pack.makeHint,
      (n.contents.rightHalf (b :: B) sep).pack.makeHint) := by
  have hlen : n.count = A.length + (B.length + 2) := by
    rw [← length_records, h.records]
    simp
  rw [splitNodes, setFences_init, setFences_init]
  cases hleaf : n.isLeaf with
  | true =>
    have hupper : n.upper = none := by
      have := hn.valid.hasUpper
      simpa [contents, hleaf] using this
    have hleft : (n.contents.records.drop 0).take (A.length + 1) = A ++ [a] := by
      rw [drop_zero, h.records, append_cons]
      exact take_left' (by simp)
    have hright : (n.contents.records.drop (A.length + 1)).take (n.count - (A.length + 1)) =
        b :: B := by
      rw [h.records, append_cons, drop_left' (by simp), take_of_length_le]
      simp only [length_cons]
      omega
    have hcount : (append (⟨true, none, n.lowerFence, some sep, []⟩ : Contents π)
        (A ++ [a])).pack.count = A.length + 1 := by
      simp [count, pack, append]
    simp only [if_true, copyKeyValueRange_pack hn.wf, hleft, hcount, hright]
    simp [append, leftHalf, rightHalf, contents, hleaf, hupper]
  | false =>
    have hleft : (n.contents.records.drop 0).take A.length = A := by
      rw [drop_zero, h.records]
      exact take_left
    have hright : (n.contents.records.drop (A.length + 1)).take (n.count - A.length - 1) =
        b :: B := by
      rw [h.records, append_cons, drop_left' (by simp), take_of_length_le]
      simp only [length_cons]
      omega
    have hcount : (append (⟨false, none, n.lowerFence, some sep, []⟩ : Contents π)
        A).pack.count = A.length := by
      simp [count, pack, append]
    have hchild : n.getChild A.length = some a.payload := by
      have hget : n.contents.records[A.length]?.map payload = some a.payload := by
        rw [h.records, ListCut.getElem?_cut]
        rfl
      rw [← hget, getChild, contents, getElem?_map, Option.map_map]
      rfl
    simp only [Bool.false_eq_true, if_false, copyKeyValueRange_pack hn.wf, hleft, hcount, hright,
      hchild]
    simp only [append, leftHalf, rightHalf, contents, hleaf,
      Bool.false_eq_true, if_false, nil_append]
    rfl

end Node

namespace Node

variable {π κ : Type*} {n : Node π} {A B : List (Record π)} {a b : Record π} {sep : Key}

lemma Page.splitNodes_left (hn : n.Page) (h : n.contents.Separates A a b B sep)
    (hfits : (n.contents.leftHalf A a sep).size ≤ effectivePageSize) :
    (n.splitNodes A.length sep).1.Page ∧
    (n.splitNodes A.length sep).1.contents = n.contents.leftHalf A a sep := by
  have hvalid := h.valid_leftHalf hn.valid
  rw [splitNodes_eq hn h]
  exact ⟨page_pack hvalid hfits, contents_pack hvalid.within⟩

lemma Page.splitNodes_right (hn : n.Page) (h : n.contents.Separates A a b B sep)
    (hlen : sep.length ≤ a.key.length) :
    (n.splitNodes A.length sep).2.Page ∧
    (n.splitNodes A.length sep).2.contents = n.contents.rightHalf (b :: B) sep := by
  have hvalid := h.valid_rightHalf hn.valid
  rw [splitNodes_eq hn h]
  exact ⟨page_pack hvalid ((h.size_rightHalf_le hn.valid hlen).trans hn.size_le),
    contents_pack hvalid.within⟩

lemma lowerFence_eq {m : Node π} {c : Contents π} (h : m.contents = c) :
    m.lowerFence = c.lowerFence := by rw [← h]; rfl

lemma upperFence_eq {m : Node π} {c : Contents π} (h : m.contents = c) :
    m.upperFence = c.upperFence := by rw [← h]; rfl

end Node

/-! ## A new root -/

section NewRoot

open Node

variable {κ : Type*}

/-- The new root of `trySplit`, with the old one as its only child. -/
def newRoot (swip : κ) : Node κ := { isLeaf := false, upper := some swip }

lemma page_newRoot (swip : κ) : (newRoot swip).Page where
  valid := by
    constructor <;> simp [newRoot, contents, Contents.keys]
  exact := rfl
  heads := by simp [newRoot]
  hints := ⟨by simp [newRoot], by simp [newRoot]⟩
  space := rfl
  slots_le := by
    change slotsOffset + slotSize * 0 ≤ effectivePageSize
    decide
  data_le := le_refl _

lemma childAt_newRoot (swip : κ) : (newRoot swip).contents.ChildAt [] [] swip none none :=
  ⟨rfl, rfl, rfl, rfl⟩

end NewRoot

/-- A string of zeros. -/
def zeros (length : ℕ) : Key := List.replicate length 0

@[simp] lemma length_zeros (length : ℕ) : (zeros length).length = length := length_replicate

end TwoTree.BTree
