import TwoTree.Heap.File

/-!
# Tuples at their places

What the operations of a heap file do to the tuples, each at its page and slot, if all tuples are of one
size.  An insert takes a place that no tuple is in and leaves all other places alone; a removal and a change
touch the one place they name.  Finding a page with space changes no tuple.
-/

namespace TwoTree.Heap

open Option HeapPage

/-! ## Pages -/

/-- **Pages with tuples of `t` bytes**: they and their slots fit into the page. -/
structure HeapPage.Ok (t : ℕ) (p : HeapPage) : Prop where
  room : p.count * (slotSize + t) + slotsOffset ≤ effectivePageSize
  spaceUsed : p.spaceUsed = p.count * t
  sizes : ∀ s ∈ p.slots, s.payload.length = t ∧ s.payloadLen = t

namespace HeapPage

variable {t : ℕ} {p : HeapPage} {slot : ℕ}

/-- The tuple in a slot. -/
def tuple (p : HeapPage) (slot : ℕ) : Option Bytes :=
  (p.occupied slot).map fun s => s.payload.take s.payloadLen

lemma ok_empty (t : ℕ) : ({} : HeapPage).Ok t where
  room := by simp [count, slotsOffset, effectivePageSize]
  spaceUsed := by simp [count]
  sizes := by simp

lemma tuple_empty (slot : ℕ) : ({} : HeapPage).tuple slot = none := by
  simp [tuple, occupied]

lemma Ok.count_lt (h : p.Ok t) (ht : 12 ≤ t) : p.count < 2 ^ 10 := by
  have hroom := h.room
  have hmul : p.count * 16 ≤ p.count * (slotSize + t) :=
    Nat.mul_le_mul_left _ (by rw [slotSize]; omega)
  rw [slotsOffset, effectivePageSize] at hroom
  omega

/-- The free space is what is left in the page. -/
lemma Ok.freeSpaceWithoutRemovedTuples_eq (h : p.Ok t) :
    p.freeSpaceWithoutRemovedTuples + p.count * (slotSize + t) + slotsOffset = effectivePageSize := by
  have hroom := h.room
  have hused : p.metadataUsed + p.spaceUsed = p.count * (slotSize + t) + slotsOffset := by
    rw [metadataUsed, h.spaceUsed]
    ring
  rw [freeSpaceWithoutRemovedTuples, hused]
  rw [effectivePageSize] at *
  omega

lemma tuple_eq_some_iff {b : Bytes} : p.tuple slot = some b ↔
    ∃ s, p.slots[slot]? = some s ∧ s.status = .occupied ∧ s.payload.take s.payloadLen = b := by
  simp [tuple, occupied, and_assoc]

lemma Ok.tuple_of_slot (h : p.Ok t) {s : Slot} (hs : p.slots[slot]? = some s)
    (hst : s.status = .occupied) : p.tuple slot = some s.payload := by
  obtain ⟨hlen, hlen'⟩ := h.sizes s (List.mem_of_getElem? hs)
  refine tuple_eq_some_iff.2 ⟨s, hs, hst, ?_⟩
  rw [hlen', ← hlen, List.take_length]

lemma tuple_congr {q : HeapPage} (h : p.slots[slot]? = q.slots[slot]?) :
    p.tuple slot = q.tuple slot := by
  rw [tuple, tuple, occupied, occupied, h]

lemma tuple_of_ne_occupied (h : ∀ s, p.slots[slot]? = some s → s.status ≠ .occupied) :
    p.tuple slot = none := by
  rw [eq_none_iff_forall_ne_some]
  intro b hb
  obtain ⟨s, hs, hst, -⟩ := tuple_eq_some_iff.1 hb
  exact h s hs hst

/-- Changing the slots one by one keeps their number and sizes. -/
lemma Ok.modify (h : p.Ok t) {f : Slot → Slot}
    (hf : ∀ s, p.slots[slot]? = some s → (f s).payload.length = t ∧ (f s).payloadLen = t) :
    Ok t { p with slots := p.slots.modify slot f } where
  room := by
    have hroom := h.room
    simpa [count] using hroom
  spaceUsed := by
    have hused := h.spaceUsed
    simpa [count] using hused
  sizes s hs := by
    obtain ⟨i, hi⟩ := List.getElem?_of_mem hs
    simp only [List.getElem?_modify, map_eq_map, map_eq_some_iff] at hi
    obtain ⟨s', hs', rfl⟩ := hi
    by_cases hslot : slot = i
    · subst hslot
      rw [if_pos rfl]
      exact hf s' hs'
    · rw [if_neg hslot]
      exact h.sizes s' (List.mem_of_getElem? hs')

lemma Ok.removeSlot (h : p.Ok t) (slot : ℕ) : (p.removeSlot slot).Ok t :=
  h.modify fun s hs => h.sizes s (List.mem_of_getElem? hs)

lemma getElem?_modify_of_ne {slot i : ℕ} (hne : i ≠ slot) (f : Slot → Slot) :
    (p.slots.modify slot f)[i]? = p.slots[i]? := by
  simp [Ne.symm hne]

/-- What an insert does: an empty slot gets the tuple. -/
structure Inserted (t : ℕ) (p p' : HeapPage) (slot : ℕ) (payload : Bytes) : Prop where
  ok : p'.Ok t
  lt : slot < p'.count
  before : p.tuple slot = none
  after : p'.tuple slot = some payload
  frame : ∀ i ≠ slot, p'.tuple i = p.tuple i

lemma Ok.inserted_storeKeyValue (h : p.Ok t) (ht : t + slotSize < 2 ^ 16) {payload : Bytes}
    (hlen : payload.length = t)
    (hspace : spaceNeeded payload.length ≤ p.freeSpaceWithoutRemovedTuples) :
    Inserted t p (p.storeKeyValue payload) p.count payload := by
  have hfree := h.freeSpaceWithoutRemovedTuples_eq
  have hneeded : spaceNeeded payload.length = slotSize + t := by
    rw [spaceNeeded, hlen, Nat.mod_eq_of_lt]
    omega
  rw [hneeded] at hspace
  have hcount : (p.storeKeyValue payload).count = p.count + 1 := by
    simp [count, storeKeyValue]
  have hroom : (p.count + 1) * (slotSize + t) + slotsOffset ≤ effectivePageSize := by
    rw [add_mul, one_mul]
    omega
  have hslot : (p.storeKeyValue payload).slots[p.count]? =
      some ⟨payload, payload.length % 2 ^ 14, .occupied⟩ := by
    simp [storeKeyValue, count]
  have ht14 : t < 2 ^ 14 := by
    rw [add_mul, one_mul, effectivePageSize] at hroom
    omega
  have hok : (p.storeKeyValue payload).Ok t := {
    room := by
      rw [hcount]
      exact hroom
    spaceUsed := by
      have hle : (p.count + 1) * t ≤ (p.count + 1) * (slotSize + t) :=
        Nat.mul_le_mul_left _ (Nat.le_add_left _ _)
      have hlt : (p.count + 1) * t < 2 ^ 16 := by
        rw [effectivePageSize] at hroom
        omega
      calc (p.storeKeyValue payload).spaceUsed = (p.spaceUsed + payload.length) % 2 ^ 16 := rfl
        _ = (p.count + 1) * t % 2 ^ 16 := by rw [h.spaceUsed, hlen, add_mul, one_mul]
        _ = (p.count + 1) * t := Nat.mod_eq_of_lt hlt
        _ = (p.storeKeyValue payload).count * t := by rw [hcount]
    sizes := by
      intro s hs
      rw [storeKeyValue, List.mem_append, List.mem_singleton] at hs
      rcases hs with hs | rfl
      · exact h.sizes s hs
      · exact ⟨hlen, by rw [hlen, Nat.mod_eq_of_lt ht14]⟩ }
  refine ⟨hok, by omega, ?_, hok.tuple_of_slot hslot rfl, ?_⟩
  · refine tuple_of_ne_occupied fun s hs => ?_
    simp [count] at hs
  intro i hi
  refine Eq.symm ?_
  by_cases hlt : i < p.count
  · refine tuple_congr ?_
    rw [storeKeyValue, List.getElem?_append_left hlt]
  rw [tuple_of_ne_occupied, tuple_of_ne_occupied]
  · intro s hs
    obtain ⟨hlt', -⟩ := List.getElem?_eq_some_iff.1 hs
    have : i < p.count + 1 := by rw [← hcount]; exact hlt'
    omega
  · intro s hs
    obtain ⟨hlt', -⟩ := List.getElem?_eq_some_iff.1 hs
    exact absurd hlt' hlt

lemma Ok.inserted_reuse (h : p.Ok t) {payload : Bytes} (hlen : payload.length = t)
    (hslot : (p.slots.findIdx? fun s => s.status = .removed) = some slot) :
    Inserted t p { p with slots := p.slots.modify slot fun s => reuse s payload } slot payload := by
  obtain ⟨hlt, hremoved, -⟩ := List.findIdx?_eq_some_iff_getElem.1 hslot
  simp only [decide_eq_true_eq] at hremoved
  have hs : p.slots[slot]? = some p.slots[slot] := List.getElem?_eq_getElem hlt
  have hover : ∀ s : Slot, s.payload.length = t → (reuse s payload).payload = payload := by
    intro s hs
    simp [reuse, overwrite, hlen, hs]
  have hok : Ok t { p with slots := p.slots.modify slot fun s => reuse s payload } := by
    refine h.modify fun s hs => ?_
    obtain ⟨hsl, hsl'⟩ := h.sizes s (List.mem_of_getElem? hs)
    rw [hover s hsl]
    exact ⟨hlen, hsl'⟩
  refine ⟨hok, ?_, ?_, ?_, ?_⟩
  · simpa [count] using hlt
  · refine tuple_of_ne_occupied fun s' hs' => ?_
    rw [hs, some_inj] at hs'
    rw [← hs', hremoved]
    decide
  · have hnew : (p.slots.modify slot fun s => reuse s payload)[slot]? =
        some (reuse p.slots[slot] payload) := by
      simp [hs]
    rw [hok.tuple_of_slot hnew rfl, hover _ (h.sizes _ (List.getElem_mem hlt)).1]
  · intro i hi
    exact tuple_congr (getElem?_modify_of_ne hi _)

/-- **An insert takes an empty slot.** -/
lemma Ok.inserted (h : p.Ok t) (ht : t + slotSize < 2 ^ 16) {payload : Bytes}
    (hlen : payload.length = t) {p' : HeapPage}
    (hins : p.insert payload = some (slot, p')) : Inserted t p p' slot payload := by
  rw [insert] at hins
  split_ifs at hins with hspace
  · cases hins
    exact h.inserted_storeKeyValue ht hlen hspace
  split at hins
  · rename_i i hi
    cases hins
    exact h.inserted_reuse hlen hi
  · cases hins

end HeapPage

/-! ## Tuple ids -/

lemma makeTupleId_eq {pid slot : ℕ} (hpid : pid < 2 ^ 22) (hslot : slot < 2 ^ 10) :
    makeTupleId pid slot = pid * 2 ^ 10 + slot := by
  rw [makeTupleId, ← Nat.shiftLeft_add_eq_or_of_lt hslot, Nat.shiftLeft_eq, Nat.mod_eq_of_lt]
  omega

lemma heapPageId_makeTupleId {pid slot : ℕ} (hpid : pid < 2 ^ 22) (hslot : slot < 2 ^ 10) :
    heapPageId (makeTupleId pid slot) = pid := by
  rw [makeTupleId_eq hpid hslot, heapPageId, Nat.shiftRight_eq_div_pow]
  omega

lemma slotId_makeTupleId {pid slot : ℕ} (hpid : pid < 2 ^ 22) (hslot : slot < 2 ^ 10) :
    slotId (makeTupleId pid slot) = slot := by
  have hand : ∀ id, slotId id = id % 2 ^ 10 := fun id => Nat.and_two_pow_sub_one_eq_mod id 10
  rw [hand, makeTupleId_eq hpid hslot]
  omega

/-! ## Files -/

/-- **Heap files with tuples of `t` bytes**, within the capacity of the directory. -/
structure HeapFile.Ok (t : ℕ) (h : HeapFile) : Prop where
  pages : ∀ e ∈ h.entries, e.page.Ok t
  capacity : h.entries.length ≤ kArraySize * kDirNodeEntryCount

namespace HeapFile

variable {t pid : ℕ} {h h' h₁ : HeapFile}

/-- The tuple at a place. -/
def tuple (h : HeapFile) (pid slot : ℕ) : Option Bytes := (h.page pid).bind fun p => p.tuple slot

lemma lookup_eq (h : HeapFile) (id : ℕ) : h.lookup id = h.tuple (heapPageId id) (slotId id) := by
  simp [lookup, occupied, tuple, HeapPage.tuple, Function.comp_def]

lemma Ok.page (hok : h.Ok t) {pid : ℕ} {p : HeapPage} (hp : h.page pid = some p) :
    p.Ok t ∧ pid < h.entries.length := by
  rw [HeapFile.page, map_eq_some_iff] at hp
  obtain ⟨e, he, rfl⟩ := hp
  obtain ⟨hlt, -⟩ := List.getElem?_eq_some_iff.1 he
  exact ⟨hok.pages e (List.mem_of_getElem? he), hlt⟩

/-- Places have small numbers. -/
lemma Ok.place_lt (hok : h.Ok t) (ht : 12 ≤ t) {pid slot : ℕ} {b : Bytes}
    (hb : h.tuple pid slot = some b) : pid < 2 ^ 22 ∧ slot < 2 ^ 10 := by
  rw [tuple, bind_eq_some_iff] at hb
  obtain ⟨p, hp, hb⟩ := hb
  obtain ⟨hpok, hpid⟩ := hok.page hp
  obtain ⟨s, hs, -⟩ := tuple_eq_some_iff.1 hb
  obtain ⟨hslot, -⟩ := List.getElem?_eq_some_iff.1 hs
  have hcap : h.entries.length ≤ 2 ^ 22 := hok.capacity.trans (by decide)
  exact ⟨lt_of_lt_of_le hpid hcap, lt_trans hslot (hpok.count_lt ht)⟩

/-- Files with the same tuples. -/
structure Same (t : ℕ) (h h' : HeapFile) : Prop where
  ok : h'.Ok t
  tuple : ∀ pid slot, h'.tuple pid slot = h.tuple pid slot

lemma Same.trans {h'' : HeapFile} (hs : Same t h h') (hs' : Same t h' h'') : Same t h h'' :=
  ⟨hs'.ok, fun pid slot => (hs'.tuple pid slot).trans (hs.tuple pid slot)⟩

/-- Only the entries of the directory matter. -/
lemma Ok.same_of_entries (hok : h.Ok t) (he : h'.entries = h.entries) : Same t h h' where
  ok := ⟨by rw [he]; exact hok.pages, by rw [he]; exact hok.capacity⟩
  tuple pid slot := by rw [HeapFile.tuple, HeapFile.tuple, HeapFile.page, HeapFile.page, he]

lemma entries_setPage {e : Entry} (he : h.entries[pid]? = some e) (p : HeapPage) :
    (h.setPage pid p).entries = h.entries.set pid { e with page := p } := by
  simp [setPage, List.modify_eq_set_getElem?, he]

lemma entries_updateFreeSpaceInDirNode {e : Entry} (he : h.entries[pid]? = some e) (n : ℕ) :
    (h.updateFreeSpaceInDirNode pid n true).entries =
      h.entries.set pid { e with freeSpace := n } := by
  simp [updateFreeSpaceInDirNode, List.modify_eq_set_getElem?, he]

lemma page_modify (h : HeapFile) (pid i : ℕ) (f : Entry → Entry) :
    ({ h with entries := h.entries.modify pid f } : HeapFile).page i =
      if pid = i then h.entries[i]?.map fun e => (f e).page else h.page i := by
  rw [HeapFile.page, HeapFile.page, List.getElem?_modify]
  split_ifs <;> simp [Function.comp_def]

/-- An entry for a new page. -/
def freshEntry : Entry := ⟨{}, HeapPage.freeSpace {}⟩

/-- **What the search for a page may do**: add new pages, and list pages that are new or that the
directory reports to have space. -/
structure Found (h h' : HeapFile) : Prop where
  entries : ∃ n, h'.entries = h.entries ++ List.replicate n freshEntry
  capacity : h.entries.length ≤ kArraySize * kDirNodeEntryCount →
    h'.entries.length ≤ kArraySize * kDirNodeEntryCount
  threshold : h'.freeSpaceThreshold = h.freeSpaceThreshold
  growable : h'.heapGrowable = h.heapGrowable
  might : h'.pageThatMightHaveSpace = h.pageThatMightHaveSpace
  listed : ∀ q ∈ h'.pagesWithFreeSpace, q ∈ h.pagesWithFreeSpace ∨
    (∃ e, h.entries[q]? = some e ∧ h.aboveThreshold e.freeSpace) ∨
    (h.entries.length ≤ q ∧ q < h'.entries.length)

lemma Found.refl (h : HeapFile) : Found h h :=
  ⟨⟨0, by simp⟩, id, rfl, rfl, rfl, fun _ hq => Or.inl hq⟩

lemma Found.trans (hf : Found h h₁) (hf' : Found h₁ h') : Found h h' := by
  obtain ⟨n, hn⟩ := hf.entries
  obtain ⟨n', hn'⟩ := hf'.entries
  have hle : h₁.entries.length ≤ h'.entries.length := by simp [hn']
  refine ⟨⟨n + n', by rw [hn', hn, List.append_assoc, List.replicate_append_replicate]⟩,
    hf'.capacity ∘ hf.capacity, hf'.threshold.trans hf.threshold, hf'.growable.trans hf.growable, hf'.might.trans hf.might, ?_⟩
  intro q hq
  obtain hq | ⟨e, he, habove⟩ | ⟨hge, hlt⟩ := hf'.listed q hq
  · obtain hq | hq | ⟨hge, hlt⟩ := hf.listed q hq
    · exact Or.inl hq
    · exact Or.inr (Or.inl hq)
    · exact Or.inr (Or.inr ⟨hge, hlt.trans_le hle⟩)
  · rcases lt_or_ge q h.entries.length with hlt | hge
    · rw [hn, List.getElem?_append_left hlt] at he
      rw [aboveThreshold, hf.threshold] at habove
      exact Or.inr (Or.inl ⟨e, he, habove⟩)
    · obtain ⟨hlt, -⟩ := List.getElem?_eq_some_iff.1 he
      exact Or.inr (Or.inr ⟨hge, hlt.trans_le hle⟩)
  · refine Or.inr (Or.inr ⟨le_trans ?_ hge, hlt⟩)
    simp [hn]

lemma found_scanDirectory (h : HeapFile) (fuel pid : ℕ) : Found h (h.scanDirectory fuel pid) := by
  induction fuel generalizing h pid with
  | zero => exact .refl h
  | succ fuel ih =>
    have hnode : ∀ (l : List ℕ) next, Found h { h with
        pagesWithFreeSpace := h.pagesWithFreeSpace ++
          l.filter fun p => h.entries[p]?.any fun e => h.aboveThreshold e.freeSpace
        nextPageToScan := next } := by
      refine fun l next => ⟨⟨0, by simp⟩, id, rfl, rfl, rfl, fun q hq => ?_⟩
      obtain hq | hq := List.mem_append.1 hq
      · exact Or.inl hq
      · refine Or.inr (Or.inl ?_)
        exact (any_eq_true _ _).1 (List.mem_filter.1 hq).2
    simp only [scanDirectory]
    split_ifs
    · exact hnode _ _
    · exact (hnode _ _).trans (ih _ _)
    · exact .refl h

lemma found_findPagesWithFreeSpace (hfind : h.findPagesWithFreeSpace = some h') : Found h h' := by
  simp only [findPagesWithFreeSpace, addHeapPages] at hfind
  have hscan := found_scanDirectory h h.numSlots h.nextPageToScan
  split_ifs at hfind with _ hcap
  · cases hfind
    refine hscan.trans ⟨⟨_, rfl⟩, fun _ => by simpa using hcap, rfl, rfl, rfl, fun q hq => ?_⟩
    obtain hq | hq := List.mem_append.1 hq
    · exact Or.inl hq
    · rw [List.mem_range'_1] at hq
      exact Or.inr (Or.inr ⟨hq.1, by simpa using hq.2⟩)
  · cases hfind
    exact hscan

/-- The page that is found, or remembered. -/
lemma exists_found_of_getPageWithSpace {rand fuel : ℕ}
    (hget : getPageWithSpace rand fuel h = some (pid, h')) :
    ∃ h₁, Found h h₁ ∧ h' = { h₁ with pageThatMightHaveSpace := some pid } ∧
      (h.pageThatMightHaveSpace = some pid ∨ pid ∈ h₁.pagesWithFreeSpace) := by
  induction fuel generalizing h with
  | zero => cases hget
  | succ fuel ih =>
    rw [getPageWithSpace] at hget
    split at hget
    · rename_i q hmight
      cases hget
      exact ⟨h', .refl h', by rw [← hmight], Or.inl hmight⟩
    split_ifs at hget
    · split at hget
      · rename_i h₂ hfind
        have hfound := found_findPagesWithFreeSpace hfind
        obtain ⟨h₁, hfound', heq, hor⟩ := ih hget
        exact ⟨h₁, hfound.trans hfound', heq, hor.imp_left fun hm => hfound.might ▸ hm⟩
      · cases hget
    · split at hget
      · rename_i q hq
        cases hget
        exact ⟨h, .refl h, rfl, Or.inr (List.mem_of_getElem? hq)⟩
      · cases hget

/-- New pages keep everything that is true of all entries. -/
lemma Found.forall_entries {Q : Entry → Prop} (hfound : Found h h') (hfresh : Q freshEntry)
    (hq : ∀ e ∈ h.entries, Q e) : ∀ e ∈ h'.entries, Q e := by
  obtain ⟨n, hn⟩ := hfound.entries
  intro e he
  rw [hn, List.mem_append] at he
  obtain he | he := he
  · exact hq e he
  · rwa [List.eq_of_mem_replicate he]

/-- New pages have no tuples. -/
lemma Ok.same_of_found (hok : h.Ok t) (hfound : Found h h') : Same t h h' := by
  refine ⟨⟨hfound.forall_entries (ok_empty t) hok.pages, hfound.capacity hok.capacity⟩, ?_⟩
  intro pid slot
  obtain ⟨n, hn⟩ := hfound.entries
  rw [HeapFile.tuple, HeapFile.tuple, HeapFile.page, HeapFile.page, hn]
  by_cases hlt : pid < h.entries.length
  · rw [List.getElem?_append_left hlt]
  rw [List.getElem?_append_right (by omega), List.getElem?_eq_none (l := h.entries) (by omega),
    List.getElem?_replicate]
  split_ifs
  · exact tuple_empty slot
  · rfl

lemma Ok.same_getPageWithSpace (hok : h.Ok t) {rand fuel pid : ℕ}
    (hget : getPageWithSpace rand fuel h = some (pid, h')) : Same t h h' := by
  obtain ⟨h₁, hfound, rfl, -⟩ := exists_found_of_getPageWithSpace hget
  have hsame := hok.same_of_found hfound
  exact hsame.trans (hsame.ok.same_of_entries rfl)

lemma Ok.same_updateFreeSpaceInDirNode (hok : h.Ok t) (pid freeSpace : ℕ) (remove : Bool) :
    Same t h (h.updateFreeSpaceInDirNode pid freeSpace remove) := by
  have hmod : Same t h
      { h with entries := h.entries.modify pid fun e => { e with freeSpace := freeSpace } } := by
    refine ⟨⟨?_, ?_⟩, ?_⟩
    · intro e he
      obtain ⟨i, hi⟩ := List.getElem?_of_mem he
      simp only [List.getElem?_modify, map_eq_map, map_eq_some_iff] at hi
      obtain ⟨e', he', rfl⟩ := hi
      have hpage := hok.pages e' (List.mem_of_getElem? he')
      split_ifs <;> exact hpage
    · simpa using hok.capacity
    · intro pid' slot
      rw [HeapFile.tuple, page_modify]
      split_ifs <;> rfl
  rw [updateFreeSpaceInDirNode]
  split_ifs
  · exact hmod.trans (hmod.ok.same_of_entries rfl)
  · exact hmod

/-- What a change of one place does. -/
structure Placed (t : ℕ) (h h' : HeapFile) (pid slot : ℕ) (b : Option Bytes) : Prop where
  ok : h'.Ok t
  here : h'.tuple pid slot = b
  frame : ∀ pid' slot', (pid', slot') ≠ (pid, slot) → h'.tuple pid' slot' = h.tuple pid' slot'

lemma Same.placed {h'' : HeapFile} {pid slot : ℕ} {b : Option Bytes} (hs : Same t h h')
    (hp : Placed t h' h'' pid slot b) : Placed t h h'' pid slot b where
  ok := hp.ok
  here := hp.here
  frame pid' slot' hne := (hp.frame pid' slot' hne).trans (hs.tuple pid' slot')

lemma Placed.same {h'' : HeapFile} {pid slot : ℕ} {b : Option Bytes} (hp : Placed t h h' pid slot b)
    (hs : Same t h' h'') : Placed t h h'' pid slot b where
  ok := hs.ok
  here := (hs.tuple pid slot).trans hp.here
  frame pid' slot' hne := (hs.tuple pid' slot').trans (hp.frame pid' slot' hne)

/-- One slot of one page is changed. -/
lemma Ok.placed_setPage (hok : h.Ok t) {pid slot : ℕ} {p p' : HeapPage} (hp : h.page pid = some p)
    (hp' : p'.Ok t) (hframe : ∀ i ≠ slot, p'.tuple i = p.tuple i) :
    Placed t h (h.setPage pid p') pid slot (p'.tuple slot) where
  ok := by
    refine ⟨?_, ?_⟩
    · intro e he
      obtain ⟨i, hi⟩ := List.getElem?_of_mem he
      simp only [setPage, List.getElem?_modify, map_eq_map, map_eq_some_iff] at hi
      obtain ⟨e', he', rfl⟩ := hi
      have hpage := hok.pages e' (List.mem_of_getElem? he')
      split_ifs
      · exact hp'
      · exact hpage
    · simpa [setPage] using hok.capacity
  here := by
    rw [tuple, setPage, page_modify, if_pos rfl]
    rw [HeapFile.page, map_eq_some_iff] at hp
    obtain ⟨e, he, -⟩ := hp
    simp [he]
  frame pid' slot' hne := by
    rw [tuple, setPage, page_modify]
    by_cases hpid : pid = pid'
    · subst hpid
      have hslot : slot' ≠ slot := by
        rintro rfl
        exact hne rfl
      rw [if_pos rfl, tuple, hp]
      rw [HeapFile.page, map_eq_some_iff] at hp
      obtain ⟨e, he, -⟩ := hp
      simpa [he] using hframe slot' hslot
    · rw [if_neg hpid, tuple]

/-- **An insert makes attempts that fail, and then one that puts the tuple into a page.** -/
lemma exists_put_of_insert {P : HeapFile → Prop} {value : Bytes}
    (hget : ∀ h rand fuel pid h', P h → getPageWithSpace rand fuel h = some (pid, h') → P h')
    (hfail : ∀ h pid p, P h → h.page pid = some p → p.insert value = none →
      P (h.updateFreeSpaceInDirNode pid p.freeSpace true))
    {rand : ℕ → ℕ} {fuel id : ℕ} (hp : P h) (hins : insert rand value fuel h = some (id, h')) :
    ∃ g pid p slot p', P g ∧ g.page pid = some p ∧ p.insert value = some (slot, p') ∧
      id = makeTupleId pid slot ∧ h' = g.setPage pid p' := by
  induction fuel generalizing h with
  | zero => cases hins
  | succ fuel ih =>
    rw [HeapFile.insert] at hins
    split at hins
    · cases hins
    rename_i pid h₁ hpid
    have hp₁ := hget _ _ _ _ _ hp hpid
    split at hins
    · cases hins
    rename_i p hpage
    split at hins
    · rename_i slot p' hinsert
      cases hins
      exact ⟨h₁, pid, p, slot, p', hp₁, hpage, hinsert, rfl, rfl⟩
    · rename_i hrefuses
      exact ih (hfail _ pid p hp₁ hpage hrefuses) hins

/-- **An insert takes a place that no tuple is in.** -/
lemma Ok.placed_insert (hok : h.Ok t) (ht : t + slotSize < 2 ^ 16) {rand : ℕ → ℕ} {value : Bytes}
    (hlen : value.length = t) {fuel id : ℕ} (hins : insert rand value fuel h = some (id, h')) :
    ∃ pid slot, pid < 2 ^ 22 ∧ id = makeTupleId pid slot ∧ h.tuple pid slot = none ∧
      Placed t h h' pid slot (some value) := by
  obtain ⟨g, pid, p, slot, p', hsame, hp, hinsert, rfl, rfl⟩ := exists_put_of_insert (P := Same t h)
    (fun _ _ _ _ _ hs hget => hs.trans (hs.ok.same_getPageWithSpace hget))
    (fun _ _ _ hs _ _ => hs.trans (hs.ok.same_updateFreeSpaceInDirNode _ _ _))
    (hok.same_of_entries rfl) hins
  obtain ⟨hpok, hpid⟩ := hsame.ok.page hp
  have hdone := hpok.inserted ht hlen hinsert
  have hplaced := hsame.ok.placed_setPage hp hdone.ok hdone.frame
  rw [hdone.after] at hplaced
  refine ⟨pid, slot, ?_, rfl, ?_, hsame.placed hplaced⟩
  · exact lt_of_lt_of_le hpid (hsame.ok.capacity.trans (by decide))
  · rw [← hsame.tuple, tuple, hp]
    exact hdone.before

/-- For tuples that are not small, the id names the place. -/
lemma Ok.insert (hok : h.Ok t) (ht : 12 ≤ t) (ht' : t + slotSize < 2 ^ 16) {rand : ℕ → ℕ}
    {value : Bytes} (hlen : value.length = t) {fuel id : ℕ}
    (hins : insert rand value fuel h = some (id, h')) :
    ∃ pid slot, pid < 2 ^ 22 ∧ slot < 2 ^ 10 ∧ id = makeTupleId pid slot ∧
      h.tuple pid slot = none ∧ Placed t h h' pid slot (some value) := by
  obtain ⟨pid, slot, hpid, hid, hbefore, hplaced⟩ := hok.placed_insert ht' hlen hins
  exact ⟨pid, slot, hpid, (hplaced.ok.place_lt ht hplaced.here).2, hid, hbefore, hplaced⟩

/-- The slot of a tuple. -/
lemma occupied_of_tuple {id pid slot : ℕ} {b : Bytes} (hpid : heapPageId id = pid)
    (hslot : slotId id = slot) (hb : h.tuple pid slot = some b) :
    ∃ p s, h.page pid = some p ∧ p.slots[slot]? = some s ∧ s.status = .occupied ∧
      h.occupied id = some s := by
  rw [tuple, bind_eq_some_iff] at hb
  obtain ⟨p, hp, hb⟩ := hb
  obtain ⟨s, hs, hst, -⟩ := tuple_eq_some_iff.1 hb
  refine ⟨p, s, hp, hs, hst, ?_⟩
  rw [occupied, hpid, hp, bind_some, HeapPage.occupied, hslot, hs]
  simp [hst]

/-- **A removal frees the place it names.** -/
lemma Ok.remove (hok : h.Ok t) {id pid slot : ℕ} {b : Bytes} (hpid : heapPageId id = pid)
    (hslot : slotId id = slot) (hb : h.tuple pid slot = some b) :
    Placed t h (h.remove id).2 pid slot none := by
  obtain ⟨p, s, hp, hs, hst, hocc⟩ := occupied_of_tuple hpid hslot hb
  obtain ⟨hpok, -⟩ := hok.page hp
  have hok' := hpok.removeSlot slot
  have hnone : (p.removeSlot slot).tuple slot = none := by
    refine tuple_of_ne_occupied fun s' hs' => ?_
    simp only [removeSlot, List.getElem?_modify_eq, hs, map_eq_map, map_some,
      some_inj] at hs'
    simp [← hs']
  have hplaced : Placed t h (h.setPage pid (p.removeSlot slot)) pid slot
      ((p.removeSlot slot).tuple slot) :=
    hok.placed_setPage hp hok' fun i hi =>
      tuple_congr (getElem?_modify_of_ne hi _)
  rw [hnone] at hplaced
  simp only [HeapFile.remove, hpid, hslot, hp, hocc]
  split_ifs
  · exact hplaced.same
      (hplaced.ok.same_updateFreeSpaceInDirNode pid (p.removeSlot slot).freeSpace false)
  · exact hplaced

/-- **A change rewrites the tuple at the place it names.** -/
lemma Ok.lookupForUpdate (hok : h.Ok t) {id pid slot : ℕ} {b : Bytes} (hpid : heapPageId id = pid)
    (hslot : slotId id = slot) (hb : h.tuple pid slot = some b) {callback : Bytes → Bytes}
    (hlen : (callback b).length = t) :
    (h.lookupForUpdate id callback).1 = .ok ∧
      Placed t h (h.lookupForUpdate id callback).2 pid slot (some (callback b)) := by
  obtain ⟨p, s, hp, hs, hst, hocc⟩ := occupied_of_tuple hpid hslot hb
  obtain ⟨hpok, -⟩ := hok.page hp
  have hpay : s.payload = b := by
    rw [tuple, hp, bind_some, hpok.tuple_of_slot hs hst, some_inj] at hb
    exact hb
  set p' : HeapPage :=
    { p with slots := p.slots.modify slot fun s => { s with payload := callback s.payload } } with hp'
  have hok' : p'.Ok t := by
    refine hpok.modify fun s' hs' => ?_
    rw [hs, some_inj] at hs'
    subst hs'
    rw [hpay]
    exact ⟨hlen, (hpok.sizes s (List.mem_of_getElem? hs)).2⟩
  have hnew : p'.slots[slot]? = some { s with payload := callback s.payload } := by
    simp [hp', hs]
  have hplaced : Placed t h (h.setPage pid p') pid slot (p'.tuple slot) :=
    hok.placed_setPage hp hok' fun i hi =>
      tuple_congr (getElem?_modify_of_ne hi _)
  rw [hok'.tuple_of_slot hnew hst, hpay] at hplaced
  simp only [HeapFile.lookupForUpdate, hpid, hslot, hp, hocc]
  exact ⟨trivial, hplaced⟩

end HeapFile

end TwoTree.Heap
