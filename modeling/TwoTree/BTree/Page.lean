import TwoTree.BTree.Search
import TwoTree.Lib.ListCut

/-!
# Pages

What a node is for: its contents, that is its fences and its records with their whole keys.  `pack`
lays contents out in a page, from the end of the page towards the slots and without gaps, and every
operation that rewrites a page packs it: `compactify`, and the splits and merges built on
`copyKeyValueRange`.

A page is a node that holds its contents (`Page`): the counters agree with what is stored, and the
slots end before the records begin.  Contents need `Contents.size` bytes.  The code stores records
without looking whether they fit, so contents that need more than a page are written over the slots
or, because `data_offset` has 16 bits, behind the page; nothing is held then.
-/

namespace TwoTree.BTree

open Lib Lib.ByteOrder List

/-- `sizeof(SwipType)`. -/
def swipSize : ℕ := 8

/-- A record of a node, with its whole key. -/
structure Record (π : Type*) where
  key : Key
  payload : π
  payloadLen : ℕ
deriving DecidableEq

/-- What a node holds. -/
structure Contents (π : Type*) where
  isLeaf : Bool
  upper : Option π
  lowerFence : Option Key
  upperFence : Option Key
  records : List (Record π)
deriving DecidableEq

/-! ## Contents -/

namespace Contents

variable {π : Type*} (c : Contents π)

def keys : List Key := c.records.map Record.key

/-- A key that belongs into the node. -/
def InFences (key : Key) : Prop :=
  (∀ lower ∈ c.lowerFence, lower < key) ∧ ∀ upper ∈ c.upperFence, key ≤ upper

/-- The bytes all keys share. -/
def prefixLength : ℕ := Node.commonPrefixLength (c.lowerFence.getD []) (c.upperFence.getD [])

/-- The bytes that the fences need. -/
def fenceSpace : ℕ := (c.lowerFence.getD []).length + (c.upperFence.getD []).length

/-- The bytes that a record needs besides its slot, where keys share `prefixLen` bytes. -/
def recordSpace (prefixLen : ℕ) (r : Record π) : ℕ := r.key.length - prefixLen + r.payloadLen

/-- The bytes that records need besides their slots. -/
def recordsSpace (prefixLen : ℕ) (rs : List (Record π)) : ℕ := (rs.map (recordSpace prefixLen)).sum

/-- The bytes that fences and records need. -/
def space : ℕ := c.fenceSpace + recordsSpace c.prefixLength c.records

/-- The bytes of the page that are needed. -/
def size : ℕ := slotsOffset + slotSize * c.records.length + c.space

/-- **The contents of a well-formed node**: keys are distinct, sorted and between the fences.  In an
inner node there is a child behind the last record, with room for keys. -/
structure Valid (c : Contents π) : Prop where
  sorted : c.keys.Pairwise (· < ·)
  within : ∀ k ∈ c.keys, c.InFences k
  fences : ∀ lower ∈ c.lowerFence, ∀ upper ∈ c.upperFence, lower < upper
  lower_ne_nil : ∀ lower ∈ c.lowerFence, lower ≠ []
  upper_ne_nil : ∀ upper ∈ c.upperFence, upper ≠ []
  hasUpper : c.upper.isSome = !c.isLeaf
  swips : c.isLeaf = false → ∀ r ∈ c.records, r.payloadLen = swipSize
  below : c.isLeaf = false → ∀ k ∈ c.keys, ∀ upper ∈ c.upperFence, k < upper

/-- Contents in a page, without gaps. -/
def pack : Node π where
  isLeaf := c.isLeaf
  upper := c.upper
  lowerFence := c.lowerFence
  upperFence := c.upperFence
  spaceUsed := c.space
  dataOffset := effectivePageSize - c.space
  prefixLength := c.prefixLength
  slots := c.records.map fun r => Node.slotOf c.prefixLength r.key r.payload r.payloadLen

/-- Contents with more records at the end. -/
def append (rs : List (Record π)) : Contents π := { c with records := c.records ++ rs }

lemma recordsSpace_append (p : ℕ) (rs rs' : List (Record π)) :
    recordsSpace p (rs ++ rs') = recordsSpace p rs + recordsSpace p rs' := by
  simp [recordsSpace]

@[simp] lemma recordsSpace_nil (p : ℕ) : recordsSpace p ([] : List (Record π)) = 0 := rfl

@[simp] lemma recordsSpace_cons (p : ℕ) (r : Record π) (rs : List (Record π)) :
    recordsSpace p (r :: rs) = recordSpace p r + recordsSpace p rs := by
  simp [recordsSpace]

lemma space_append (rs : List (Record π)) :
    (c.append rs).space = c.space + recordsSpace c.prefixLength rs := by
  have happ := recordsSpace_append c.prefixLength c.records rs
  simp only [space, append, fenceSpace, prefixLength] at happ ⊢
  omega

/-- Keys share no more with a longer prefix taken off. -/
lemma recordsSpace_anti {p p' : ℕ} (h : p ≤ p') (rs : List (Record π)) :
    recordsSpace p' rs ≤ recordsSpace p rs := by
  induction rs with
  | nil => simp
  | cons r rs ih =>
    have hr : recordSpace p' r ≤ recordSpace p r := by
      simp only [recordSpace]
      omega
    simp only [recordsSpace_cons]
    omega

end Contents

namespace Node

variable {π : Type*}

/-- The record of a slot. -/
def record (n : Node π) (s : Slot π) : Record π := ⟨n.fullKey s, s.payload, s.payloadLen⟩

/-- What a node holds. -/
def contents (n : Node π) : Contents π where
  isLeaf := n.isLeaf
  upper := n.upper
  lowerFence := n.lowerFence
  upperFence := n.upperFence
  records := n.slots.map n.record

/-- **A node that holds its contents.** -/
structure Page (n : Node π) : Prop where
  valid : n.contents.Valid
  exact : n.prefixLength = n.contents.prefixLength
  heads : ∀ s ∈ n.slots, s.head = head s.key
  hints : n.HintsMatch
  space : n.spaceUsed = n.contents.space
  slots_le : slotsOffset + slotSize * n.count ≤ n.dataOffset
  data_le : n.dataOffset + n.spaceUsed ≤ effectivePageSize

section Contents

variable {n : Node π}

lemma keys_contents (n : Node π) : n.contents.keys = n.fullKeys := by
  simp [Contents.keys, contents, fullKeys, record, Function.comp_def]

lemma length_records (n : Node π) : n.contents.records.length = n.count := length_map ..

lemma length_keys (n : Node π) : n.contents.keys.length = n.count :=
  (length_map ..).trans n.length_records

lemma Page.wf (h : n.Page) : n.Wf where
  common := h.exact.le
  sorted := by
    rw [← keys_contents]
    exact h.valid.sorted
  within := by
    rw [← keys_contents]
    exact h.valid.within
  heads := h.heads
  hints := h.hints

/-- The contents fit into the page. -/
lemma Page.size_le (h : n.Page) : n.contents.size ≤ effectivePageSize := by
  have hslots := h.slots_le
  have hdata := h.data_le
  rw [Contents.size, length_records, ← h.space]
  omega

lemma slotOf_record (h : n.Wf) {s : Slot π} (hs : s ∈ n.slots) :
    slotOf n.prefixLength (n.record s).key (n.record s).payload (n.record s).payloadLen = s := by
  have hdrop : (n.fullKey s).drop n.prefixLength = s.key := by
    rw [fullKey, ← length_prefixBytes h, drop_left]
  rw [slotOf, record]
  simp [hdrop, ← h.heads s hs]

lemma recordSpace_record (h : n.Wf) (s : Slot π) :
    Contents.recordSpace n.prefixLength (n.record s) = s.key.length + s.payloadLen := by
  simp only [Contents.recordSpace, record, fullKey, length_append, length_prefixBytes h]
  omega

end Contents

/-! ## Packing -/

section Pack

variable {n : Node π} {c : Contents π}

/-- A key between the fences begins with what the fences share. -/
lemma take_prefixLength_append_drop {key : Key} (hkey : c.InFences key) :
    (c.lowerFence.getD []).take c.prefixLength ++ key.drop c.prefixLength = key := by
  -- an empty node with these fences is well formed
  let empty : Node π :=
    ({ isLeaf := c.isLeaf, lowerFence := c.lowerFence, upperFence := c.upperFence,
       prefixLength := c.prefixLength } : Node π).makeHint
  have hwf : empty.Wf := {
    common := le_refl _
    sorted := by simp [fullKeys, empty, makeHint]
    within := by simp [fullKeys, empty, makeHint]
    heads := by simp [empty, makeHint]
    hints := hintsMatch_makeHint _ }
  exact prefixBytes_append_drop hwf hkey

/-- **Packing keeps the contents**, if the keys are between the fences. -/
lemma contents_pack (h : ∀ k ∈ c.keys, c.InFences k) : c.pack.contents = c := by
  have hrecord : ∀ r ∈ c.records,
      c.pack.record (slotOf c.prefixLength r.key r.payload r.payloadLen) = r := by
    intro r hr
    have hkey := take_prefixLength_append_drop (h r.key (mem_map_of_mem hr))
    rw [record, fullKey, prefixBytes]
    simp [slotOf, Contents.pack, hkey]
  cases c with
  | mk isLeaf upper lowerFence upperFence records =>
    simp only [contents, Contents.pack, map_map, Contents.mk.injEq, true_and]
    exact (map_congr_left hrecord).trans (map_id _)

@[simp] lemma contents_makeHint (n : Node π) : n.makeHint.contents = n.contents := rfl

/-- **Valid contents that fit make a page.** -/
lemma page_pack (hc : c.Valid) (hsize : c.size ≤ effectivePageSize) : c.pack.makeHint.Page := by
  have hcontents := contents_pack hc.within
  rw [Contents.size] at hsize
  have hcount : c.pack.makeHint.count = c.records.length := length_map ..
  have hoffset : c.pack.makeHint.dataOffset = effectivePageSize - c.space := rfl
  have hused : c.pack.makeHint.spaceUsed = c.space := rfl
  constructor
  · rwa [contents_makeHint, hcontents]
  · rw [contents_makeHint, hcontents]
    rfl
  · intro s hs
    obtain ⟨r, -, rfl⟩ := mem_map.1 hs
    rfl
  · exact hintsMatch_makeHint _
  · rw [contents_makeHint, hcontents]
    rfl
  · rw [hcount, hoffset]
    omega
  · rw [hoffset, hused]
    omega

end Pack

end Node

/-! ## Rewriting a page -/

namespace Node

variable {π : Type*} {n : Node π} {c : Contents π}

lemma setFences_init (isLeaf : Bool) (lower upper : Option Key) :
    ({ isLeaf := isLeaf } : Node π).setFences lower upper =
      Contents.pack ⟨isLeaf, none, lower, upper, []⟩ := by
  cases lower <;> cases upper <;>
    simp [setFences, insertLowerFence, insertUpperFence, Contents.pack, Contents.space,
      Contents.fenceSpace, Contents.prefixLength, Nat.sub_sub]

lemma storeKeyValue_pack (c : Contents π) (r : Record π) :
    c.pack.storeKeyValue c.pack.count r.key r.payload r.payloadLen = (c.append [r]).pack := by
  have hspace := c.space_append [r]
  simp only [Contents.recordsSpace_cons, Contents.recordsSpace_nil, add_zero,
    Contents.recordSpace] at hspace
  have hshared : (c.append [r]).prefixLength = c.prefixLength := rfl
  rw [Contents.pack.eq_def (c.append [r]), hspace, hshared]
  simp only [storeKeyValue, Contents.pack, count, Contents.append, length_map, map_append,
    map_cons, map_nil, Nat.sub_sub, Node.mk.injEq, true_and]
  rw [← length_map (f := fun r => slotOf c.prefixLength r.key r.payload r.payloadLen)]
  exact insertIdx_length_self ..

lemma foldl_storeKeyValue (n : Node π) (c : Contents π) (range : List (Slot π)) :
    range.foldl (fun dst s => dst.storeKeyValue dst.count (n.fullKey s) s.payload s.payloadLen)
      c.pack = (c.append (range.map n.record)).pack := by
  induction range generalizing c with
  | nil => simp [Contents.append]
  | cons s range ih =>
    have hstore := storeKeyValue_pack c (n.record s)
    simp only [record] at hstore
    rw [foldl_cons, hstore, ih]
    simp [Contents.append, record]

/-- **`copyKeyValueRange` appends records**, whether or not both nodes share the same prefix. -/
lemma copyKeyValueRange_pack (hn : n.Wf) (c : Contents π) (i k : ℕ) :
    n.copyKeyValueRange c.pack i k = (c.append ((n.contents.records.drop i).take k)).pack := by
  have hrange : (n.contents.records.drop i).take k = ((n.slots.drop i).take k).map n.record := by
    simp [contents]
  rw [hrange, copyKeyValueRange]
  generalize hr : (n.slots.drop i).take k = range
  have hmem : ∀ s ∈ range, s ∈ n.slots := by
    intro s hs
    rw [← hr] at hs
    exact mem_of_mem_drop (mem_of_mem_take hs)
  by_cases hp : n.prefixLength = c.pack.prefixLength
  · have hp' : n.prefixLength = c.prefixLength := hp
    have hsum : (range.map fun s => s.key.length + s.payloadLen).sum =
        Contents.recordsSpace c.prefixLength (range.map n.record) := by
      rw [Contents.recordsSpace, map_map, ← hp']
      exact congrArg List.sum (map_congr_left fun s _ => (recordSpace_record hn s).symm)
    have hslots : (range.map n.record).map
        (fun r => slotOf c.prefixLength r.key r.payload r.payloadLen) = range := by
      rw [map_map, ← hp']
      exact (map_congr_left fun s hs => slotOf_record hn (hmem s hs)).trans (map_id _)
    have hshared : (c.append (range.map n.record)).prefixLength = c.prefixLength := rfl
    rw [if_pos hp, hsum, Contents.pack.eq_def (c.append _), Contents.space_append, hshared]
    simp [Contents.pack, Contents.append, hslots, Nat.sub_sub]
  · rw [if_neg hp]
    exact foldl_storeKeyValue n c range

/-- **`compactify` packs the contents.** -/
lemma compactify_eq (hn : n.Wf) : n.compactify = n.contents.pack.makeHint := by
  have hall : (n.contents.records.drop 0).take n.count = n.contents.records := by
    rw [drop_zero, ← length_records, take_length]
  rw [compactify, setFences_init, copyKeyValueRange_pack hn, hall]
  rfl

lemma Page.compactify (h : n.Page) : n.compactify.Page := by
  rw [compactify_eq h.wf]
  exact page_pack h.valid h.size_le

lemma contents_compactify (h : n.Page) : n.compactify.contents = n.contents := by
  rw [compactify_eq h.wf, contents_makeHint, contents_pack h.valid.within]

end Node

/-! ## Room for a record -/

namespace Node

variable {π : Type*} {n : Node π}

variable (h : n.Page)
include h

lemma Page.freeSpaceAfterCompaction_eq :
    n.freeSpaceAfterCompaction = effectivePageSize - n.contents.size := by
  rw [freeSpaceAfterCompaction, Contents.size, length_records, ← h.space, Nat.sub_sub]

lemma Page.freeSpace_le : n.freeSpace ≤ n.freeSpaceAfterCompaction := by
  have hdata := h.data_le
  rw [freeSpace, freeSpaceAfterCompaction]
  omega

/-- Compaction is what decides. -/
lemma Page.hasEnoughSpaceFor_iff (needed : ℕ) :
    n.hasEnoughSpaceFor needed = true ↔ n.contents.size + needed ≤ effectivePageSize := by
  have hfree := h.freeSpace_le
  have heq := h.freeSpaceAfterCompaction_eq
  have hsize := h.size_le
  rw [hasEnoughSpaceFor, decide_eq_true_iff]
  omega

lemma Page.canInsert_iff (keyLen payloadLen : ℕ) : n.canInsert keyLen payloadLen = true ↔
      n.contents.size + spaceNeeded keyLen payloadLen n.prefixLength ≤ effectivePageSize :=
  h.hasEnoughSpaceFor_iff _

lemma freeSpace_compactify : n.compactify.freeSpace = effectivePageSize - n.contents.size := by
  have hsize := h.size_le
  rw [compactify_eq h.wf]
  have hcount : n.contents.pack.makeHint.count = n.contents.records.length := length_map ..
  have hoffset : n.contents.pack.makeHint.dataOffset = effectivePageSize - n.contents.space := rfl
  rw [freeSpace, hcount, hoffset, Contents.size]
  omega

/-- **`requestSpaceFor`** makes room in one piece if there is enough, and keeps the contents. -/
lemma Page.requestSpaceFor (needed : ℕ) : (n.requestSpaceFor needed).1.Page ∧
    (n.requestSpaceFor needed).1.contents = n.contents ∧
    (n.requestSpaceFor needed).2 = n.hasEnoughSpaceFor needed ∧
    (n.hasEnoughSpaceFor needed = true → needed ≤ (n.requestSpaceFor needed).1.freeSpace) := by
  have hiff := h.hasEnoughSpaceFor_iff needed
  rw [Node.requestSpaceFor]
  by_cases hfree : needed ≤ n.freeSpace
  · rw [if_pos hfree]
    exact ⟨h, rfl, by simp [hasEnoughSpaceFor, hfree], fun _ => hfree⟩
  rw [if_neg hfree]
  by_cases hcompact : needed ≤ n.freeSpaceAfterCompaction
  · rw [if_pos hcompact]
    refine ⟨h.compactify, contents_compactify h, by simp [hasEnoughSpaceFor, hcompact], ?_⟩
    intro _
    rw [freeSpace_compactify h, ← h.freeSpaceAfterCompaction_eq]
    exact hcompact
  · rw [if_neg hcompact]
    exact ⟨h, rfl, by simp [hasEnoughSpaceFor, hfree, hcompact],
      fun henough => by simp [hasEnoughSpaceFor, hfree, hcompact] at henough⟩

end Node

/-! ## Records put in and taken out -/

namespace Contents

variable {π : Type*} {c : Contents π}

/-- A record put in where it belongs. -/
def insert (c : Contents π) (r : Record π) : Contents π :=
  { c with records := c.records.insertIdx (c.keys.findIdx fun k => r.key ≤ k) r }

/-- A record taken out. -/
def eraseIdx (c : Contents π) (i : ℕ) : Contents π := { c with records := c.records.eraseIdx i }

lemma insert_of_cut {A B : List (Record π)} {r : Record π} (hc : c.records = A ++ B)
    (hA : ∀ a ∈ A, a.key < r.key) (hB : ∀ b ∈ B, r.key ≤ b.key) :
    c.insert r = { c with records := A ++ r :: B } := by
  have hidx : (c.keys.findIdx fun k => r.key ≤ k) = A.length := by
    rw [keys, hc, map_append]
    refine (ListCut.findIdx_append ?_ ?_).trans (length_map ..)
    · simpa using hA
    · intro b hb
      obtain ⟨b', hb', rfl⟩ := mem_map.1 (mem_of_mem_head? hb)
      exact hB b' hb'
  rw [insert, hidx, hc, ListCut.insertIdx_cut]

/-- A key between the fences that is not there may be put in. -/
structure Accepts (c : Contents π) (r : Record π) : Prop where
  within : c.InFences r.key
  absent : r.key ∉ c.keys
  swip : c.isLeaf = false → r.payloadLen = swipSize ∧ ∀ upper ∈ c.upperFence, r.key < upper

/-- The keys around a new one. -/
lemma exists_cut (hc : c.Valid) {key : Key} (habsent : key ∉ c.keys) :
    ∃ A B, c.records = A ++ B ∧ (∀ a ∈ A, a.key < key) ∧ ∀ b ∈ B, key < b.key := by
  obtain ⟨A, B, hAB, hA, hB⟩ := ListCut.exists_cut hc.sorted key
  refine ⟨A, B, hAB, hA, fun b hb => lt_of_le_of_ne (hB b hb) ?_⟩
  rintro rfl
  refine habsent (mem_map_of_mem ?_)
  rw [hAB]
  exact mem_append_right A hb

lemma Valid.insert (hc : c.Valid) {r : Record π} (hr : c.Accepts r) : (c.insert r).Valid := by
  obtain ⟨A, B, hAB, hA, hB⟩ := exists_cut hc hr.absent
  rw [insert_of_cut hAB hA fun b hb => (hB b hb).le]
  have hkeys : c.keys = A.map Record.key ++ B.map Record.key := by
    rw [keys, hAB, map_append]
  have hnew : ∀ r' ∈ A ++ r :: B, r' = r ∨ r' ∈ c.records := by
    intro r' hr'
    rw [hAB, mem_append]
    rcases mem_append.1 hr' with hmem | hmem
    · exact .inr (.inl hmem)
    · exact (mem_cons.1 hmem).imp id Or.inr
  refine { hc with sorted := ?_, within := ?_, swips := ?_, below := ?_ }
  · have hsorted := hc.sorted
    rw [hkeys, pairwise_append] at hsorted
    obtain ⟨hsA, hsB, hAB'⟩ := hsorted
    simp only [keys, map_append, map_cons]
    refine pairwise_append.2 ⟨hsA, pairwise_cons.2 ⟨?_, hsB⟩, ?_⟩
    · simpa using hB
    intro a ha b hb
    rcases mem_cons.1 hb with rfl | hb
    · obtain ⟨a', ha', rfl⟩ := mem_map.1 ha
      exact hA a' ha'
    · exact hAB' a ha b hb
  · intro k hk
    obtain ⟨r', hr', rfl⟩ := mem_map.1 hk
    rcases hnew r' hr' with rfl | hr'
    · exact hr.within
    · exact hc.within _ (mem_map_of_mem hr')
  · intro hleaf r' hr'
    rcases hnew r' hr' with rfl | hr'
    · exact (hr.swip hleaf).1
    · exact hc.swips hleaf r' hr'
  · intro hleaf k hk
    obtain ⟨r', hr', rfl⟩ := mem_map.1 hk
    rcases hnew r' hr' with rfl | hr'
    · exact (hr.swip hleaf).2
    · exact hc.below hleaf _ (mem_map_of_mem hr')

lemma space_insert (hc : c.Valid) {r : Record π} (hr : c.Accepts r) :
    (c.insert r).space = c.space + recordSpace c.prefixLength r := by
  obtain ⟨A, B, hAB, hA, hB⟩ := exists_cut hc hr.absent
  rw [insert_of_cut hAB hA fun b hb => (hB b hb).le]
  simp only [space, hAB, recordsSpace_append, recordsSpace_cons, fenceSpace, prefixLength]
  omega

lemma space_eraseIdx (c : Contents π) {i : ℕ} {r : Record π} (hi : c.records[i]? = some r) :
    (c.eraseIdx i).space + recordSpace c.prefixLength r = c.space := by
  obtain ⟨A, B, hAB, rfl⟩ := ListCut.exists_eq_cut hi
  simp only [space, eraseIdx, hAB, ListCut.eraseIdx_cut,
    recordsSpace_append, recordsSpace_cons, fenceSpace,
    prefixLength]
  omega

lemma Valid.eraseIdx (hc : c.Valid) (i : ℕ) : (c.eraseIdx i).Valid := by
  have hsub : (c.eraseIdx i).keys.Sublist c.keys := (eraseIdx_sublist _ _).map _
  refine { hc with sorted := ?_, within := ?_, swips := ?_, below := ?_ }
  · exact hc.sorted.sublist hsub
  · exact fun k hk => hc.within k (hsub.subset hk)
  · exact fun hleaf r hr => hc.swips hleaf r ((eraseIdx_sublist _ _).subset hr)
  · exact fun hleaf k hk => hc.below hleaf k (hsub.subset hk)

end Contents

namespace Node

variable {π : Type*} {n : Node π}

lemma contents_storeKeyValue (hn : n.Wf) {r : Record π} (hr : n.InFences r.key) (slotId : ℕ) :
    (n.storeKeyValue slotId r.key r.payload r.payloadLen).contents =
      { n.contents with records := n.contents.records.insertIdx slotId r } := by
  have hrecord : n.record (slotOf n.prefixLength r.key r.payload r.payloadLen) = r := by
    rw [record, fullKey]
    simp [slotOf, prefixBytes_append_drop hn hr]
  have hslots : (n.storeKeyValue slotId r.key r.payload r.payloadLen).contents.records =
      (n.slots.insertIdx slotId (slotOf n.prefixLength r.key r.payload r.payloadLen)).map
        n.record := rfl
  rw [map_insertIdx, hrecord] at hslots
  rw [contents.eq_def (n.storeKeyValue _ _ _ _)]
  simp only [contents] at hslots ⊢
  rw [hslots]
  rfl

/-- A record stored where there is room for it. -/
lemma Page.storeKeyValue (h : n.Page) {r : Record π} (hr : n.contents.Accepts r)
    (hroom : spaceNeeded r.key.length r.payloadLen n.prefixLength ≤ n.freeSpace) :
    let slotId := n.fullKeys.findIdx fun k => r.key ≤ k
    let n' := (n.storeKeyValue slotId r.key r.payload r.payloadLen).updateHint slotId
    n'.Page ∧ n'.contents = n.contents.insert r := by
  intro slotId n'
  have hslot : slotId ≤ n.count := by
    rw [← length_fullKeys]
    exact findIdx_le_length
  have hcontents : n'.contents = n.contents.insert r := by
    have hstore := contents_storeKeyValue h.wf hr.within slotId
    rw [Contents.insert, keys_contents]
    exact hstore
  have hvalid := h.valid.insert hr
  have hspace := Contents.space_insert h.valid hr
  have hcount : n'.count = n.count + 1 := length_insertIdx_of_le_length hslot _
  have hoffset : n'.dataOffset = n.dataOffset - (r.key.length - n.prefixLength + r.payloadLen) := rfl
  have hused : n'.spaceUsed = n.spaceUsed + (r.key.length - n.prefixLength + r.payloadLen) := rfl
  have hslots := h.slots_le
  have hdata := h.data_le
  rw [spaceNeeded, freeSpace] at hroom
  refine ⟨⟨?_, ?_, ?_, ?_, ?_, ?_, ?_⟩, hcontents⟩
  · rw [hcontents]
    exact hvalid
  · rw [hcontents]
    exact h.exact
  · intro s hs
    rcases eq_or_mem_of_mem_insertIdx hs with rfl | hs
    · rfl
    · exact h.heads s hs
  · exact hintsMatch_updateHint h.hints hslot _ _ _
  · rw [hcontents, hspace, hused, h.space, h.exact]
    rfl
  · rw [hcount, hoffset, Nat.mul_succ]
    omega
  · rw [hoffset, hused]
    omega

/-- **`insert` puts a record in where it belongs**, if there is room for it. -/
lemma Page.insert (h : n.Page) {r : Record π} (hr : n.contents.Accepts r)
    (hroom : n.canInsert r.key.length r.payloadLen = true) :
    (n.insert r.key r.payload r.payloadLen).Page ∧
    (n.insert r.key r.payload r.payloadLen).contents = n.contents.insert r := by
  obtain ⟨hpage, hcontents, -, hfree⟩ :=
    h.requestSpaceFor (spaceNeeded r.key.length r.payloadLen n.prefixLength)
  have hroom' := hfree hroom
  rw [Node.insert]
  generalize (n.requestSpaceFor (spaceNeeded r.key.length r.payloadLen n.prefixLength)).1 = m
    at hpage hcontents hroom' ⊢
  have hshared : n.prefixLength = m.prefixLength := by rw [h.exact, hpage.exact, hcontents]
  rw [← hcontents] at hr ⊢
  rw [hshared] at hroom'
  have hlower := lowerBound_false hpage.wf hr.within
  simp only [hlower, Int.toNat_natCast]
  exact hpage.storeKeyValue hr hroom'

/-- **`removeSlot` takes a record out.** -/
lemma Page.removeSlot (h : n.Page) {i : ℕ} (hi : i < n.count) :
    (n.removeSlot i).Page ∧ (n.removeSlot i).contents = n.contents.eraseIdx i := by
  have hcontents : (n.removeSlot i).contents = n.contents.eraseIdx i := by
    have hrecords : (n.contents.eraseIdx i).records = (n.slots.eraseIdx i).map n.record :=
      eraseIdx_map ..
    rw [contents.eq_def (n.removeSlot i), Contents.eraseIdx]
    exact congrArg _ hrecords.symm
  obtain ⟨s, hs⟩ := slot_of_lt hi
  have hrecord : n.contents.records[i]? = some (n.record s) := by
    rw [contents, getElem?_map, hs]
    rfl
  have hspace := Contents.space_eraseIdx n.contents hrecord
  rw [← h.exact, recordSpace_record h.wf] at hspace
  have hused : (n.removeSlot i).spaceUsed = n.spaceUsed - (s.key.length + s.payloadLen) := by
    simp [Node.removeSlot, makeHint, hs]
  have hcount : (n.removeSlot i).count = n.count - 1 := length_eraseIdx_of_lt hi
  have hoffset : (n.removeSlot i).dataOffset = n.dataOffset := rfl
  have hslots := h.slots_le
  have hdata := h.data_le
  have husedn := h.space
  refine ⟨⟨?_, ?_, ?_, ?_, ?_, ?_, ?_⟩, hcontents⟩
  · rw [hcontents]
    exact h.valid.eraseIdx i
  · rw [hcontents]
    exact h.exact
  · exact fun s' hs' => h.heads s' ((eraseIdx_sublist _ _).subset hs')
  · exact hintsMatch_makeHint _
  · rw [hcontents, hused]
    omega
  · have hmul : slotSize * (n.count - 1) ≤ slotSize * n.count := Nat.mul_le_mul_left _ (by omega)
    rw [hcount, hoffset]
    omega
  · rw [hoffset, hused]
    omega

end Node

end TwoTree.BTree
