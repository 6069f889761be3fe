import TwoTree.Lib.Records

/-!
# Slotted pages of the hash tables

`LinearHashingNode`, `LinearHashingWithOverflowHeapNode` and `LinearHashingOverflowPage` are pages of
one kind: a header, then an array of slots that grows upwards, and the records' keys and payloads that
grow downwards from the end.  They differ in their sizes and in how a key's fingerprint is computed,
which is their `Layout`.  The bytes of a record are kept with its slot here; where on the page they
lie is kept only as far as it decides anything, that is by the lowest offset in use.

Removing a record leaves its bytes behind as a gap.  `requestSpaceFor` closes the gaps if the space
between slots and records is too small and the whole free space is not.  Sixteen-bit sizes do not
overflow on a page that is `Ok`, and are natural numbers.
-/

namespace TwoTree.Hashing

open Lib.Records List

/-- Keys and payloads. -/
abbrev Bytes := List UInt8

/-- What the kinds of pages differ in. -/
structure Layout where
  pageSize : ℕ
  headerSize : ℕ
  fingerprint : Bytes → ℕ
  header_le : headerSize ≤ pageSize

/-- `Slot`, with the bytes it points to. -/
structure Slot where
  key : Bytes
  payload : Bytes
  fingerprint : ℕ
deriving DecidableEq, Repr

/-- `sizeof(Slot)`: the struct is packed. -/
def slotSize : ℕ := 8

/-- The size of key and payload. -/
def Slot.size (s : Slot) : ℕ := s.key.length + s.payload.length

/-- The part of a page that concerns its records. -/
structure Page where
  slots : List Slot
  spaceUsed : ℕ
  dataOffset : ℕ
deriving DecidableEq, Repr

/-- `spaceNeeded` -/
def spaceNeeded (key payload : Bytes) : ℕ := slotSize + key.length + payload.length

namespace Page

/-- The keys and payloads on a page. -/
def records (p : Page) : List (Bytes × Bytes) := p.slots.map (fun s => (s.key, s.payload))

/-- `count` -/
def count (p : Page) : ℕ := p.slots.length

variable (L : Layout) (p : Page)

/-- A page that has just been initialised. -/
def init : Page := ⟨[], 0, L.pageSize⟩

/-- The bytes of header and slots: `slot + count - ptr()`. -/
def metadataUsed : ℕ := L.headerSize + slotSize * p.count

/-- `freeSpace` -/
def freeSpace : ℕ := p.dataOffset - p.metadataUsed L

/-- `freeSpaceAfterCompaction` -/
def freeSpaceAfterCompaction : ℕ := L.pageSize - p.metadataUsed L - p.spaceUsed

/-- `spaceUsedForData` -/
def spaceUsedForData : ℕ := p.metadataUsed L + p.spaceUsed

/-- `hasEnoughSpaceFor` -/
def hasEnoughSpaceFor (needed : ℕ) : Prop :=
  needed ≤ p.freeSpace L ∨ needed ≤ p.freeSpaceAfterCompaction L

instance (p : Page) (needed : ℕ) : Decidable (p.hasEnoughSpaceFor L needed) :=
  inferInstanceAs (Decidable (_ ∨ _))

/-- `canInsert` -/
def canInsert (key payload : Bytes) : Prop := p.hasEnoughSpaceFor L (spaceNeeded key payload)

instance (p : Page) (key payload : Bytes) : Decidable (p.canInsert L key payload) :=
  inferInstanceAs (Decidable (p.hasEnoughSpaceFor L _))

/-- `find` -/
def find (key : Bytes) : Option ℕ :=
  p.slots.findIdx? (fun s => s.fingerprint == L.fingerprint key && s.key == key)

/-- `copyKeyValueRange` of all records of `src`, to the end of `dst`. -/
def copyKeyValueRange (src dst : Page) : Page where
  slots := dst.slots ++ src.slots
  spaceUsed := dst.spaceUsed + (src.slots.map Slot.size).sum
  dataOffset := dst.dataOffset - (src.slots.map Slot.size).sum

/-- `compactify`: the records are copied to a new page, which then replaces the old one. -/
def compactify : Page := copyKeyValueRange p (init L)

/-- `requestSpaceFor`, as what it leaves on the page. -/
def requestSpaceFor (needed : ℕ) : Page :=
  if needed ≤ p.freeSpace L then p
  else if needed ≤ p.freeSpaceAfterCompaction L then p.compactify L
  else p

/-- `storeKeyValue`, in the slot after the last one. -/
def storeKeyValue (key payload : Bytes) : Page where
  slots := p.slots ++ [⟨key, payload, L.fingerprint key⟩]
  spaceUsed := p.spaceUsed + (key.length + payload.length)
  dataOffset := p.dataOffset - (key.length + payload.length)

/-- `insert` -/
def insert (key payload : Bytes) : Page :=
  (p.requestSpaceFor L (spaceNeeded key payload)).storeKeyValue L key payload

/-- `removeSlot` -/
def removeSlot (slotId : ℕ) : Page where
  slots := p.slots.eraseIdx slotId
  spaceUsed := p.spaceUsed - (p.slots[slotId]?.map Slot.size).getD 0
  dataOffset := p.dataOffset

/-- `update`: the new payload is written over the old one, whose length stays in the slot.  A longer
one would be written over the bytes of another record; the callers say when that cannot be. -/
def update (slotId : ℕ) (payload : Bytes) : Page :=
  { p with
    slots := p.slots.modify slotId
      (fun s => { s with payload := payload ++ s.payload.drop payload.length }) }

/-- The payload of a key on the page, if `find` finds it. -/
def get (key : Bytes) : Option Bytes := (p.find L key).bind (fun i => p.slots[i]?.map Slot.payload)

/-- A page whose accounts are right: slots and records do not overlap, and gaps aside the records
take the space they are said to use. -/
structure Ok (p : Page) : Prop where
  spaceUsed_eq : p.spaceUsed = (p.slots.map Slot.size).sum
  metadata_le : p.metadataUsed L ≤ p.dataOffset
  data_le : p.dataOffset + p.spaceUsed ≤ L.pageSize
  fingerprint_eq : ∀ s ∈ p.slots, s.fingerprint = L.fingerprint s.key

variable {L} {p : Page} {key payload : Bytes}

/-! ## Finding a record -/

/-- The fingerprints only save comparisons. -/
lemma Ok.find_eq (h : p.Ok L) (key : Bytes) :
    p.find L key = p.slots.findIdx? (fun s => s.key == key) := by
  have hsame : ∀ s ∈ p.slots,
      (s.fingerprint == L.fingerprint key && s.key == key) = (s.key == key) := by
    intro s hs
    rw [h.fingerprint_eq s hs]
    by_cases hkey : s.key = key
    · simp [hkey]
    · simp [hkey]
  rw [find]
  generalize p.slots = l at hsame ⊢
  induction l with
  | nil => rfl
  | cons s l ih =>
    rw [findIdx?_cons, findIdx?_cons, hsame s mem_cons_self,
      ih (fun s' hs' => hsame s' (mem_cons_of_mem _ hs'))]

lemma Ok.find_eq_none_iff (h : p.Ok L) : p.find L key = none ↔ key ∉ p.records.map Prod.fst := by
  rw [h.find_eq, findIdx?_eq_none_iff]
  simp [records]

lemma Ok.find_eq_some (h : p.Ok L) {i : ℕ} (hi : p.find L key = some i) :
    ∃ s l₁ l₂, p.slots = l₁ ++ s :: l₂ ∧ l₁.length = i ∧ s.key = key ∧
      key ∉ l₁.map Slot.key := by
  rw [h.find_eq, findIdx?_eq_some_iff_getElem] at hi
  obtain ⟨hlt, hkey, hfirst⟩ := hi
  refine ⟨p.slots[i], p.slots.take i, p.slots.drop (i + 1), ?_, by simp; omega, by simpa using hkey,
    ?_⟩
  · rw [getElem_cons_drop, take_append_drop]
  intro hmem
  obtain ⟨s, hs, hskey⟩ := mem_map.1 hmem
  obtain ⟨j, hj, rfl⟩ := getElem_of_mem hs
  rw [length_take] at hj
  refine hfirst j (by omega) ?_
  rw [getElem_take] at hskey
  simpa using hskey

/-- **A key is found on a page as in the list of its records.** -/
lemma Ok.get_eq (h : p.Ok L) (key : Bytes) : p.get L key = p.records.lookup key := by
  cases hi : p.find L key with
  | none =>
    rw [get, hi, Option.bind_none, lookup_eq_none_of_notMem (h.find_eq_none_iff.1 hi)]
  | some i =>
    obtain ⟨s, l₁, l₂, hslots, rfl, rfl, hfirst⟩ := h.find_eq_some hi
    have hnone : (l₁.map (fun s => (s.key, s.payload))).lookup s.key = none :=
      lookup_eq_none_of_notMem (by simpa using hfirst)
    rw [get, hi, records, hslots]
    simp [lookup_append, hnone]

/-! ## What the operations do to the records -/

@[simp] lemma records_init : (init L).records = [] := rfl

@[simp] lemma records_copyKeyValueRange (src dst : Page) :
    (copyKeyValueRange src dst).records = dst.records ++ src.records :=
  map_append

@[simp] lemma records_compactify (p : Page) : (p.compactify L).records = p.records := by
  rw [compactify, records_copyKeyValueRange, records_init, nil_append]

@[simp] lemma records_requestSpaceFor (p : Page) (needed : ℕ) :
    (p.requestSpaceFor L needed).records = p.records := by
  unfold requestSpaceFor
  split_ifs <;> simp

@[simp] lemma records_insert (p : Page) (key payload : Bytes) :
    (p.insert L key payload).records = p.records ++ [(key, payload)] := by
  have hstore : ∀ q : Page, (q.storeKeyValue L key payload).records =
      q.records ++ [(key, payload)] := fun q => by simp [storeKeyValue, records]
  rw [insert, hstore, records_requestSpaceFor]

lemma rewrites_insert (p : Page) (key payload : Bytes) :
    Rewrites key none (some payload) p.records (p.insert L key payload).records :=
  ⟨p.records, [], by simp [entry], by simp [entry]⟩

lemma Ok.rewrites_removeSlot (h : p.Ok L) {i : ℕ} (hi : p.find L key = some i) :
    ∃ v, Rewrites key (some v) none p.records (p.removeSlot i).records := by
  obtain ⟨s, l₁, l₂, hslots, rfl, rfl, -⟩ := h.find_eq_some hi
  refine ⟨s.payload, l₁.map (fun s => (s.key, s.payload)), l₂.map (fun s => (s.key, s.payload)),
    ?_, ?_⟩
  · simp [records, hslots, entry]
  · simp [records, removeSlot, hslots, entry, eraseIdx_append_of_length_le]

/-- An update by a payload of the old one's length. -/
lemma Ok.rewrites_update (h : p.Ok L) {i : ℕ} (hi : p.find L key = some i)
    (hlen : ∀ v, (key, v) ∈ p.records → v.length = payload.length) :
    ∃ v, Rewrites key (some v) (some payload) p.records (p.update i payload).records := by
  obtain ⟨s, l₁, l₂, hslots, rfl, rfl, -⟩ := h.find_eq_some hi
  have hold : s.payload.length = payload.length := hlen _ (by simp [records, hslots])
  refine ⟨s.payload, l₁.map (fun s => (s.key, s.payload)), l₂.map (fun s => (s.key, s.payload)),
    ?_, ?_⟩
  · simp [records, hslots, entry]
  · simp [records, update, hslots, entry, modify_eq_take_drop, hold]

/-! ## The accounts of a page -/

lemma init_ok : (init L).Ok L where
  spaceUsed_eq := rfl
  metadata_le := by simpa [metadataUsed, init, count] using L.header_le
  data_le := by simp [init]
  fingerprint_eq := by simp [init]

/-- Whether something fits is decided by the space that compaction would leave. -/
lemma Ok.hasEnoughSpaceFor_iff (h : p.Ok L) {needed : ℕ} :
    p.hasEnoughSpaceFor L needed ↔ needed + p.spaceUsedForData L ≤ L.pageSize := by
  have hmeta := h.metadata_le
  have hdata := h.data_le
  simp only [hasEnoughSpaceFor, freeSpace, freeSpaceAfterCompaction, spaceUsedForData]
  omega

/-- Records can be copied to a page that has room for them between slots and records. -/
lemma Ok.copyKeyValueRange {src dst : Page} (hsrc : src.Ok L) (hdst : dst.Ok L)
    (hroom : slotSize * src.count + src.spaceUsed ≤ dst.freeSpace L) :
    (Page.copyKeyValueRange src dst).Ok L where
  spaceUsed_eq := by simp [Page.copyKeyValueRange, hdst.spaceUsed_eq]
  metadata_le := by
    have hmeta := hdst.metadata_le
    simp only [freeSpace, hsrc.spaceUsed_eq, metadataUsed, count, Page.copyKeyValueRange,
      length_append] at hroom hmeta ⊢
    rw [mul_add]
    omega
  data_le := by
    have hdata := hdst.data_le
    simp only [freeSpace, hsrc.spaceUsed_eq, Page.copyKeyValueRange] at hroom ⊢
    omega
  fingerprint_eq := by
    intro s hs
    rcases mem_append.1 hs with hs | hs
    · exact hdst.fingerprint_eq s hs
    · exact hsrc.fingerprint_eq s hs

variable (h : p.Ok L)
include h

lemma Ok.compactify : (p.compactify L).Ok L := by
  refine h.copyKeyValueRange init_ok ?_
  have hmeta := h.metadata_le
  have hdata := h.data_le
  simp only [freeSpace, metadataUsed, init, count, length_nil] at hmeta ⊢
  omega

lemma Ok.freeSpace_compactify : (p.compactify L).freeSpace L = p.freeSpaceAfterCompaction L := by
  simp only [freeSpace, freeSpaceAfterCompaction, metadataUsed, Page.compactify,
    Page.copyKeyValueRange, init, count, nil_append, h.spaceUsed_eq]
  omega

lemma Ok.requestSpaceFor {needed : ℕ} (hfits : p.hasEnoughSpaceFor L needed) :
    (p.requestSpaceFor L needed).Ok L ∧ needed ≤ (p.requestSpaceFor L needed).freeSpace L := by
  unfold Page.requestSpaceFor
  split_ifs with hfree hcompact
  · exact ⟨h, hfree⟩
  · exact ⟨h.compactify, by rwa [h.freeSpace_compactify]⟩
  · exact absurd hfits (not_or.2 ⟨hfree, hcompact⟩)

lemma Ok.storeKeyValue (hfits : spaceNeeded key payload ≤ p.freeSpace L) :
    (p.storeKeyValue L key payload).Ok L where
  spaceUsed_eq := by simp [Page.storeKeyValue, h.spaceUsed_eq, Slot.size]
  metadata_le := by
    have hmeta := h.metadata_le
    simp only [spaceNeeded, slotSize, freeSpace, metadataUsed, count, Page.storeKeyValue,
      length_append, length_singleton] at hfits hmeta ⊢
    omega
  data_le := by
    have hdata := h.data_le
    simp only [spaceNeeded, freeSpace, Page.storeKeyValue] at hfits ⊢
    omega
  fingerprint_eq := by
    intro s hs
    rcases mem_append.1 hs with hs | hs
    · exact h.fingerprint_eq s hs
    · rw [mem_singleton.1 hs]

lemma Ok.insert (hfits : p.canInsert L key payload) : (p.insert L key payload).Ok L :=
  (h.requestSpaceFor hfits).1.storeKeyValue (h.requestSpaceFor hfits).2

lemma Ok.removeSlot {i : ℕ} (hi : p.find L key = some i) : (p.removeSlot i).Ok L := by
  obtain ⟨s, l₁, l₂, hslots, rfl, -, -⟩ := h.find_eq_some hi
  have herase : p.slots.eraseIdx l₁.length = l₁ ++ l₂ := by
    rw [hslots, eraseIdx_append_of_length_le le_rfl, Nat.sub_self, eraseIdx_cons_zero]
  have hused : p.spaceUsed = ((l₁ ++ l₂).map Slot.size).sum + s.size := by
    rw [h.spaceUsed_eq, hslots]
    simp only [map_append, map_cons, sum_append, sum_cons]
    omega
  have hsize : (p.slots[l₁.length]?.map Slot.size).getD 0 = s.size := by simp [hslots]
  have hmeta := h.metadata_le
  have hdata := h.data_le
  have hcount : p.count = (l₁ ++ l₂).length + 1 := by
    rw [count, hslots]
    simp only [length_append, length_cons]
    omega
  refine ⟨?_, ?_, ?_, ?_⟩
  · simp only [Page.removeSlot, herase, hsize]
    omega
  · simp only [metadataUsed, slotSize, hcount] at hmeta
    simp only [metadataUsed, slotSize, count, Page.removeSlot, herase]
    omega
  · simp only [Page.removeSlot, hsize]
    omega
  intro s' hs'
  refine h.fingerprint_eq s' ?_
  simp only [Page.removeSlot, herase] at hs'
  rw [hslots]
  simp only [mem_append, mem_cons] at hs' ⊢
  tauto

lemma Ok.update {i : ℕ} (hi : p.find L key = some i)
    (hlen : ∀ v, (key, v) ∈ p.records → v.length = payload.length) : (p.update i payload).Ok L := by
  obtain ⟨s, l₁, l₂, hslots, rfl, rfl, -⟩ := h.find_eq_some hi
  have hold : s.payload.length = payload.length := hlen _ (by simp [records, hslots])
  have hmod : (p.update l₁.length payload).slots = l₁ ++ { s with payload := payload } :: l₂ := by
    simp [Page.update, hslots, modify_eq_take_drop, hold]
  refine ⟨?_, ?_, h.data_le, ?_⟩
  · rw [show (p.update l₁.length payload).spaceUsed = p.spaceUsed from rfl, h.spaceUsed_eq, hmod,
      hslots]
    simp [Slot.size, hold]
  · have hmeta := h.metadata_le
    simp only [metadataUsed, count, hmod, hslots, length_append, length_cons] at hmeta ⊢
    exact hmeta
  intro s' hs'
  rw [hmod, mem_append, mem_cons] at hs'
  rcases hs' with hs' | rfl | hs'
  · exact h.fingerprint_eq s' (by simp [hslots, hs'])
  · exact h.fingerprint_eq s (by simp [hslots])
  · exact h.fingerprint_eq s' (by simp [hslots, hs'])

end Page

end TwoTree.Hashing
