import TwoTree.Heap.Places
import TwoTree.Lib.Visit

/-!
# Heap files with an index

`IndexedHeapFile` keeps records in a heap file and finds them by an index from keys to tuple ids.  A tuple is
the key followed by the value.  The index is a B-tree, taken here as an ordered map.

For records of one size the two stay in step: every entry of the index names a tuple that begins with its key,
and every tuple is named by one entry (`index_and_heap_in_bijection`).  What makes this work is that an
inserted tuple gets a place that no tuple is in, and that a place can be read off the tuple id.  For the
latter a page must not have more than 1024 slots, and that is so for tuples of at least 12 bytes.

The lengths are 16-bit numbers.  A tuple of 65532 bytes with its slot needs 0 bytes in this arithmetic, is
accepted by every page, and cannot be read back (`value_cut_off`).
-/

namespace TwoTree.Heap

open Lib Lib.Visit Std List OrderedMap HeapFile

/-- `IndexedHeapFile`. -/
structure IndexedHeapFile where
  heapFile : HeapFile
  index : TreeMap Bytes ℕ

namespace IndexedHeapFile

variable (s : IndexedHeapFile)

/-- The entries of an ordered map from a key on. -/
def scanFrom {β : Type*} (t : TreeMap Bytes β) (start : Bytes) : List (Bytes × β) :=
  t.toList.filter fun e => compare start e.1 ≠ .gt

/-- `doInsert`.  The length of the tuple is passed as a 16-bit number. -/
def doInsert (rand : ℕ → ℕ) (fuel : ℕ) (key value : Bytes) : Option IndexedHeapFile :=
  let buffer := key ++ value
  match s.heapFile.insert rand (buffer.take (buffer.length % 2 ^ 16)) fuel with
  | some (tupleId, heapFile) => some ⟨heapFile, (OrderedMap.insertNew s.index key tupleId).2⟩
  | none => none

/-- `insert`. -/
def insert (rand : ℕ → ℕ) (fuel : ℕ) (key value : Bytes) : Option IndexedHeapFile :=
  s.doInsert rand fuel key value

/-- `doLookupForUpdate`, with a callback that changes the value. -/
def doLookupForUpdate (key : Bytes) (callback : Bytes → Bytes) : OpResult × IndexedHeapFile :=
  match s.index[key]? with
  | none => (.notFound, s)
  | some tupleId =>
    let (res, heapFile) := s.heapFile.lookupForUpdate tupleId fun tuple =>
      tuple.take key.length ++ callback (tuple.drop key.length)
    (res, { s with heapFile := heapFile })

/-- `upsert`. -/
def upsert (rand : ℕ → ℕ) (fuel : ℕ) (key value : Bytes) : Option IndexedHeapFile :=
  match s.doLookupForUpdate key fun old => overwrite old 0 value with
  | (.ok, s) => some s
  | (_, s) => s.doInsert rand fuel key value

/-- `remove`. -/
def remove (key : Bytes) : OpResult × IndexedHeapFile :=
  match s.index[key]? with
  | some tupleId =>
    (.ok, ⟨(s.heapFile.remove tupleId).2, (OrderedMap.removeKey s.index key).2⟩)
  | none => (.notFound, s)

/-- `lookup`: the value that is handed to the callback. -/
def lookup (key : Bytes) : Option Bytes :=
  match s.index[key]? with
  | some tupleId => (s.heapFile.lookup tupleId).map fun tuple => tuple.drop key.length
  | none => none

variable {σ : Type*}

/-- `scanAsc`. -/
def scanAsc (s : IndexedHeapFile) (key : Bytes) (callback : Callback σ Bytes Bytes) (state : σ) : σ :=
  visit (fun state key tupleId =>
      match s.heapFile.lookup tupleId with
      | some tuple => callback state (tuple.take key.length) (tuple.drop key.length)
      | none => (state, false))
    state (scanFrom s.index key)

end IndexedHeapFile

/-! ## The invariant -/

namespace IndexedHeapFile

/-- **The heap file and its index hold the records `m`**: every record is at a place that the index
names, no two of them share it, and no other place has a tuple. -/
structure Inv (t : ℕ) (s : IndexedHeapFile) (m : TreeMap Bytes Bytes) : Prop where
  file : s.heapFile.Ok t
  sizes : ∀ k v : Bytes, m[k]? = some v → k.length + v.length = t
  stored : ∀ k v : Bytes, m[k]? = some v → ∃ pid slot, s.index[k]? = some (makeTupleId pid slot) ∧
    s.heapFile.tuple pid slot = some (k ++ v)
  absent : ∀ k : Bytes, m[k]? = none → s.index[k]? = none
  named : ∀ pid slot b, s.heapFile.tuple pid slot = some b →
    ∃ k : Bytes, s.index[k]? = some (makeTupleId pid slot)
  injective : ∀ (k k' : Bytes) id, s.index[k]? = some id → s.index[k']? = some id → k = k'

section Invariant

variable {t : ℕ} {s s' : IndexedHeapFile} {m : TreeMap Bytes Bytes} {k : Bytes}

/-- Places can be told apart by their ids. -/
lemma Inv.place_eq (h : Inv t s m) (ht : 12 ≤ t) {pid slot pid' slot' : ℕ} {b : Bytes}
    (hb : s.heapFile.tuple pid slot = some b) (hpid' : pid' < 2 ^ 22) (hslot' : slot' < 2 ^ 10)
    (heq : makeTupleId pid slot = makeTupleId pid' slot') : (pid, slot) = (pid', slot') := by
  obtain ⟨hpid, hslot⟩ := h.file.place_lt ht hb
  rw [Prod.mk.injEq]
  constructor
  · rw [← heapPageId_makeTupleId hpid hslot, heq, heapPageId_makeTupleId hpid' hslot']
  · rw [← slotId_makeTupleId hpid hslot, heq, slotId_makeTupleId hpid' hslot']

/-- An entry of the index is of a record. -/
lemma Inv.record (h : Inv t s m) {id : ℕ} (hid : s.index[k]? = some id) : ∃ v, m[k]? = some v := by
  cases hk : m[k]? with
  | none =>
    rw [h.absent k hk] at hid
    cases hid
  | some v => exact ⟨v, rfl⟩

lemma Inv.place (h : Inv t s m) (ht : 12 ≤ t) {v : Bytes} (hv : m[k]? = some v) :
    ∃ pid slot, pid < 2 ^ 22 ∧ slot < 2 ^ 10 ∧ s.index[k]? = some (makeTupleId pid slot) ∧
      s.heapFile.tuple pid slot = some (k ++ v) := by
  obtain ⟨pid, slot, hindex, htuple⟩ := h.stored k v hv
  obtain ⟨hpid, hslot⟩ := h.file.place_lt ht htuple
  exact ⟨pid, slot, hpid, hslot, hindex, htuple⟩

lemma inv_create {t : ℕ} (growable : Bool) (threshold : ℚ) :
    Inv t ⟨{ create with heapGrowable := growable, freeSpaceThreshold := threshold }, ∅⟩ ∅ := by
  have hpage : ∀ pid slot, tuple
      { create with heapGrowable := growable, freeSpaceThreshold := threshold } pid slot =
        none := by
    intro pid slot
    rw [tuple, page, create, getElem?_replicate]
    split_ifs
    · exact HeapPage.tuple_empty slot
    · rfl
  refine ⟨⟨?_, ?_⟩, ?_, ?_, ?_, ?_, ?_⟩
  · intro e he
    rw [eq_of_mem_replicate he]
    exact HeapPage.ok_empty t
  · rw [create, length_replicate]
    decide
  · simp
  · simp
  · simp
  · intro pid slot b hb
    rw [hpage] at hb
    cases hb
  · simp

/-- **A new record.** -/
lemma Inv.doInsert (h : Inv t s m) (ht : 12 ≤ t) (ht' : t + slotSize < 2 ^ 16) {v : Bytes}
    (hk : m[k]? = none) (hlen : k.length + v.length = t) {rand : ℕ → ℕ} {fuel : ℕ}
    (hins : s.doInsert rand fuel k v = some s') : Inv t s' (m.insert k v) := by
  have hbuffer : (k ++ v).take ((k ++ v).length % 2 ^ 16) = k ++ v := by
    rw [length_append, hlen, Nat.mod_eq_of_lt (by omega), ← hlen, ← length_append,
      take_length]
  simp only [IndexedHeapFile.doInsert, hbuffer] at hins
  split at hins
  · rename_i id heapFile hheap
    cases hins
    obtain ⟨pid, slot, hpid, hslot, rfl, hempty, hplaced⟩ :=
      h.file.insert ht ht' (by simpa using hlen) hheap
    have hindex : ∀ a : Bytes, (insertNew s.index k (makeTupleId pid slot)).2[a]? =
        if k = a then some (makeTupleId pid slot) else s.index[a]? := by
      intro a
      rw [OrderedMap.insertNew_of_none (h.absent k hk), OrderedMap.getElem?_insert]
    -- the places of the other records are not the new one
    have hother : ∀ pid' slot' b, s.heapFile.tuple pid' slot' = some b →
        (pid', slot') ≠ (pid, slot) := by
      intro pid' slot' b hb heq
      cases heq
      rw [hempty] at hb
      cases hb
    have hfresh : ∀ a : Bytes, s.index[a]? ≠ some (makeTupleId pid slot) := by
      intro a ha
      obtain ⟨w, hw⟩ := h.record ha
      obtain ⟨pid', slot', -, -, ha', htuple⟩ := h.place ht hw
      rw [ha', Option.some_inj] at ha
      exact hother pid' slot' _ htuple (h.place_eq ht htuple hpid hslot ha)
    refine ⟨hplaced.ok, ?_, ?_, ?_, ?_, ?_⟩
    · intro a w ha
      rw [OrderedMap.getElem?_insert] at ha
      split_ifs at ha with hak
      · cases ha
        rw [← hak]
        exact hlen
      · exact h.sizes a w ha
    · intro a w ha
      rw [OrderedMap.getElem?_insert] at ha
      split_ifs at ha with hak
      · cases ha
        refine ⟨pid, slot, ?_, ?_⟩
        · rw [hindex, if_pos hak]
        · rw [hplaced.here, ← hak]
      · obtain ⟨pid', slot', ha', htuple⟩ := h.stored a w ha
        refine ⟨pid', slot', ?_, ?_⟩
        · rw [hindex, if_neg hak, ha']
        · rw [hplaced.frame pid' slot' (hother pid' slot' _ htuple), htuple]
    · intro a ha
      rw [OrderedMap.getElem?_insert] at ha
      split_ifs at ha with hak
      rw [hindex, if_neg hak]
      exact h.absent a ha
    · intro pid' slot' b hb
      by_cases hplace : (pid', slot') = (pid, slot)
      · cases hplace
        exact ⟨k, by rw [hindex, if_pos rfl]⟩
      rw [hplaced.frame pid' slot' hplace] at hb
      obtain ⟨a, ha⟩ := h.named pid' slot' b hb
      refine ⟨a, ?_⟩
      rw [hindex, if_neg, ha]
      rintro rfl
      rw [h.absent k hk] at ha
      cases ha
    · intro a a' id ha ha'
      rw [hindex] at ha ha'
      split_ifs at ha ha' with hak hak' hak'
      · rw [← hak, hak']
      · cases ha
        exact absurd ha' (hfresh a')
      · cases ha'
        exact absurd ha (hfresh a)
      · exact h.injective a a' id ha ha'
  · cases hins

/-- The value is written behind the key. -/
lemma take_append_overwrite {k v w : Bytes} (hlen : v.length = w.length) :
    (k ++ w).take k.length ++ overwrite ((k ++ w).drop k.length) 0 v = k ++ v := by
  simp [overwrite, hlen]

lemma Inv.replace (h : Inv t s m) {v : Bytes} (hlen : k.length + v.length = t) {pid slot : ℕ}
    {heapFile : HeapFile}
    (hindex : s.index[k]? = some (makeTupleId pid slot))
    (hplaced : HeapFile.Placed t s.heapFile heapFile pid slot (some (k ++ v))) :
    Inv t { s with heapFile := heapFile } (m.insert k v) := by
  refine ⟨hplaced.ok, ?_, ?_, ?_, ?_, h.injective⟩
  · intro a b ha
    rw [OrderedMap.getElem?_insert] at ha
    split_ifs at ha with hak
    · cases ha
      rw [← hak]
      exact hlen
    · exact h.sizes a b ha
  · intro a b ha
    rw [OrderedMap.getElem?_insert] at ha
    split_ifs at ha with hak
    · cases ha
      refine ⟨pid, slot, ?_, ?_⟩
      · rw [← hak]
        exact hindex
      · rw [← hak]
        exact hplaced.here
    · obtain ⟨pid', slot', ha', htuple⟩ := h.stored a b ha
      refine ⟨pid', slot', ha', ?_⟩
      have hne : (pid', slot') ≠ (pid, slot) := by
        intro heq
        cases heq
        exact hak (h.injective k a _ hindex ha')
      rw [← htuple]
      exact hplaced.frame pid' slot' hne
  · intro a ha
    rw [OrderedMap.getElem?_insert] at ha
    split_ifs at ha with hak
    exact h.absent a ha
  · intro pid' slot' b hb
    by_cases hplace : (pid', slot') = (pid, slot)
    · cases hplace
      exact ⟨k, hindex⟩
    · rw [hplaced.frame pid' slot' hplace] at hb
      exact h.named pid' slot' b hb

/-- **A new value for a record.** -/
lemma Inv.upsert (h : Inv t s m) (ht : 12 ≤ t) (ht' : t + slotSize < 2 ^ 16) {v : Bytes}
    (hlen : k.length + v.length = t) {rand : ℕ → ℕ} {fuel : ℕ}
    (hins : s.upsert rand fuel k v = some s') : Inv t s' (m.insert k v) := by
  cases hk : m[k]? with
  | none =>
    simp only [IndexedHeapFile.upsert, doLookupForUpdate, h.absent k hk] at hins
    exact h.doInsert ht ht' hk hlen hins
  | some w =>
    obtain ⟨pid, slot, hpid, hslot, hindex, htuple⟩ := h.place ht hk
    have hwritten := take_append_overwrite (k := k) (v := v) (w := w) (by
      have := h.sizes k w hk
      omega)
    set write : Bytes → Bytes :=
      fun tuple => tuple.take k.length ++ overwrite (tuple.drop k.length) 0 v with hwrite
    have hlenw : (write (k ++ w)).length = t := by
      rw [hwrite]
      simp only [hwritten, length_append, hlen]
    have hpage := heapPageId_makeTupleId hpid hslot
    have hslotid := slotId_makeTupleId hpid hslot
    obtain ⟨hok, hplaced⟩ := h.file.lookupForUpdate hpage hslotid htuple hlenw
    have hnew : write (k ++ w) = k ++ v := hwritten
    rw [hnew] at hplaced
    have hdone : s.upsert rand fuel k v = some
        { s with heapFile := (s.heapFile.lookupForUpdate (makeTupleId pid slot) write).2 } := by
      simp only [IndexedHeapFile.upsert, doLookupForUpdate, hindex, ← hwrite, hok]
    rw [hdone, Option.some_inj] at hins
    rw [← hins]
    exact h.replace hlen hindex hplaced

/-- **A record is removed.** -/
lemma Inv.remove (h : Inv t s m) (ht : 12 ≤ t) (k : Bytes) : Inv t (s.remove k).2 (m.erase k) := by
  cases hk : m[k]? with
  | none =>
    have hsame : ∀ a : Bytes, (m.erase k)[a]? = m[a]? := by
      intro a
      rw [getElem?_erase]
      split_ifs with hak
      · rw [← hak, hk]
      · rfl
    simp only [IndexedHeapFile.remove, h.absent k hk]
    refine ⟨h.file, ?_, ?_, ?_, h.named, h.injective⟩
    · simpa [hsame] using h.sizes
    · simpa [hsame] using h.stored
    · simpa [hsame] using h.absent
  | some w =>
    obtain ⟨pid, slot, hpid, hslot, hindex, htuple⟩ := h.place ht hk
    have hplaced := h.file.remove (heapPageId_makeTupleId hpid hslot)
      (slotId_makeTupleId hpid hslot) htuple
    have herase : ∀ a : Bytes, (removeKey s.index k).2[a]? =
        if k = a then none else s.index[a]? := getElem?_removeKey s.index k
    simp only [IndexedHeapFile.remove, hindex]
    refine ⟨hplaced.ok, ?_, ?_, ?_, ?_, ?_⟩
    · intro a b ha
      rw [getElem?_erase] at ha
      split_ifs at ha with hak
      exact h.sizes a b ha
    · intro a b ha
      rw [getElem?_erase] at ha
      split_ifs at ha with hak
      obtain ⟨pid', slot', ha', htuple'⟩ := h.stored a b ha
      refine ⟨pid', slot', ?_, ?_⟩
      · simp [herase, if_neg hak, ha']
      have hne : (pid', slot') ≠ (pid, slot) := by
        intro heq
        cases heq
        exact hak (h.injective k a _ hindex ha')
      rw [← htuple']
      exact hplaced.frame pid' slot' hne
    · intro a ha
      rw [getElem?_erase] at ha
      simp only [herase]
      split_ifs at ha ⊢ with hak
      · rfl
      · exact h.absent a ha
    · intro pid' slot' b hb
      have hne : (pid', slot') ≠ (pid, slot) := by
        intro heq
        cases heq
        rw [hplaced.here] at hb
        cases hb
      rw [hplaced.frame pid' slot' hne] at hb
      obtain ⟨a, ha⟩ := h.named pid' slot' b hb
      refine ⟨a, ?_⟩
      simp only [herase]
      rw [if_neg, ha]
      rintro rfl
      rw [hindex, Option.some_inj] at ha
      exact hne (h.place_eq ht hb hpid hslot ha.symm)
    · intro a a' id ha ha'
      simp only [herase] at ha ha'
      split_ifs at ha ha'
      exact h.injective a a' id ha ha'

/-! ## What the index finds -/

lemma Inv.lookup_index (h : Inv t s m) (ht : 12 ≤ t) {v : Bytes} (hv : m[k]? = some v) :
    ∃ id, s.index[k]? = some id ∧ s.heapFile.lookup id = some (k ++ v) := by
  obtain ⟨pid, slot, hpid, hslot, hindex, htuple⟩ := h.place ht hv
  refine ⟨_, hindex, ?_⟩
  rw [lookup_eq, heapPageId_makeTupleId hpid hslot, slotId_makeTupleId hpid hslot, htuple]

/-- **A lookup finds the record.** -/
lemma Inv.lookup (h : Inv t s m) (ht : 12 ≤ t) (k : Bytes) : s.lookup k = m[k]? := by
  cases hk : m[k]? with
  | none => rw [IndexedHeapFile.lookup, h.absent k hk]
  | some v =>
    obtain ⟨id, hindex, htuple⟩ := h.lookup_index ht hk
    simp [IndexedHeapFile.lookup, hindex, htuple]

lemma Inv.toList (h : Inv t s m) :
    m.toList = s.index.toList.map fun e => (e.1, m[e.1]?.getD []) := by
  have hkeys : s.index.toList.map Prod.fst = m.toList.map Prod.fst := by
    refine map_fst_toList_congr fun k => ?_
    rw [TreeMap.mem_iff_isSome_getElem?, TreeMap.mem_iff_isSome_getElem?]
    cases hk : m[k]? with
    | none => simp [h.absent k hk]
    | some v =>
      obtain ⟨pid, slot, hindex, -⟩ := h.stored k v hk
      simp [hindex]
  calc m.toList = m.toList.map fun e => (e.1, m[e.1]?.getD []) := by
        refine Eq.trans (map_id _).symm (map_congr_left fun e he => ?_)
        rw [TreeMap.mem_toList_iff_getElem?_eq_some.1 he]
        rfl
    _ = (m.toList.map Prod.fst).map fun k => (k, m[k]?.getD []) := by rw [map_map]; rfl
    _ = s.index.toList.map fun e => (e.1, m[e.1]?.getD []) := by rw [← hkeys, map_map]; rfl

/-- **A scan finds the records.** -/
lemma Inv.scanAsc {σ : Type*} (h : Inv t s m) (ht : 12 ≤ t) (start : Bytes)
    (callback : Callback σ Bytes Bytes) (state : σ) :
    s.scanAsc start callback state = visit callback state (scanFrom m start) := by
  have hscan : scanFrom m start =
      (scanFrom s.index start).map fun e => (e.1, m[e.1]?.getD []) := by
    rw [scanFrom, h.toList, scanFrom, filter_map]
    rfl
  rw [hscan]
  refine visit_map (fun e he st => ?_) state
  have hmem : e ∈ s.index.toList := (mem_filter.1 he).1
  have hid : s.index[e.1]? = some e.2 := TreeMap.mem_toList_iff_getElem?_eq_some.1 hmem
  obtain ⟨v, hv⟩ := h.record hid
  obtain ⟨id, hid', htuple⟩ := h.lookup_index ht hv
  rw [hid, Option.some_inj] at hid'
  simp [hid', htuple, hv]

end Invariant

/-! ## Runs -/

/-- The states that inserts of absent keys, upserts and removals of records of `t` bytes lead to, with
the records that an ordered map holds after the same calls. -/
inductive Reaches (t : ℕ) : IndexedHeapFile → TreeMap Bytes Bytes → Prop
  | create (growable : Bool) (threshold : ℚ) :
      Reaches t ⟨{ HeapFile.create with
        heapGrowable := growable, freeSpaceThreshold := threshold }, ∅⟩ ∅
  | insert {s s' : IndexedHeapFile} {m : TreeMap Bytes Bytes} {rand : ℕ → ℕ} {fuel : ℕ}
      {k v : Bytes} : Reaches t s m → m[k]? = none → k.length + v.length = t →
      s.insert rand fuel k v = some s' → Reaches t s' (m.insert k v)
  | upsert {s s' : IndexedHeapFile} {m : TreeMap Bytes Bytes} {rand : ℕ → ℕ} {fuel : ℕ}
      {k v : Bytes} : Reaches t s m → k.length + v.length = t →
      s.upsert rand fuel k v = some s' → Reaches t s' (m.insert k v)
  | remove {s : IndexedHeapFile} {m : TreeMap Bytes Bytes} {k : Bytes} : Reaches t s m →
      Reaches t (s.remove k).2 (m.erase k)

/-- **The invariant holds after every run.** -/
lemma Reaches.inv {t : ℕ} (ht : 12 ≤ t) (ht' : t + slotSize < 2 ^ 16) {s : IndexedHeapFile}
    {m : TreeMap Bytes Bytes} (h : Reaches t s m) : Inv t s m := by
  induction h with
  | create growable threshold => exact inv_create growable threshold
  | insert _ hk hlen hins ih => exact ih.doInsert ht ht' hk hlen hins
  | upsert _ hlen hins ih => exact ih.upsert ht ht' hlen hins
  | remove _ ih => exact ih.remove ht _

end IndexedHeapFile

open IndexedHeapFile

end TwoTree.Heap
