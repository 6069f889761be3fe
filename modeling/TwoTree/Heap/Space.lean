import TwoTree.Heap.Places

/-!
# Free space in a heap file

The runs of a heap file whose tuples are all of one size, and what they do to the free space that the
directory reports.  The directory is refreshed when an insert fails on a page, and by a removal only
if the page is then free to a part that lies between the threshold and 0.2 above it.  A page that is
full and loses a large tuple jumps over this window, and is hidden from then on
(`page_with_room_hidden`).

The id of a tuple has ten bits for the slot.  Pages with tuples of less than twelve bytes have more
slots than that, and then the ids of their last tuples are those of the next page
(`id_of_another_page`).
-/

namespace TwoTree.Heap

open List HeapFile HeapPage

/-! ## Pages -/

/-- What is left of a page that has no room for another tuple of `t` bytes. -/
def leftover (t : ℕ) : ℕ := (effectivePageSize - slotsOffset) % (slotSize + t)

/-- The tuples of `t` bytes that a page has room for. -/
def tuplesPerPage (t : ℕ) : ℕ := (effectivePageSize - slotsOffset) / (slotSize + t)

namespace HeapPage

variable {t slot : ℕ} {p p' : HeapPage} {value : Bytes}

/-- The slots whose tuple was removed. -/
def removedSlots (p : HeapPage) : ℕ := p.slots.countP fun s => s.status = .removed

lemma Ok.freeSpace_eq (h : p.Ok t) : p.freeSpace + p.count * (slotSize + t) + slotsOffset =
    effectivePageSize + p.removedSlots * t := by
  have hroom := h.room
  have hused : p.metadataUsed + p.spaceUsed = p.count * (slotSize + t) + slotsOffset := by
    rw [metadataUsed, h.spaceUsed]
    ring
  have hremoved : p.spaceForRemovedTuples = p.removedSlots * t := by
    have hconst : ∀ s ∈ p.slots.filter (fun s => s.status = .removed), s.payloadLen = t :=
      fun s hs => (h.sizes s (mem_filter.1 hs).1).2
    rw [spaceForRemovedTuples, map_congr_left hconst, map_const', sum_replicate,
      smul_eq_mul, removedSlots, countP_eq_length_filter]
  have hle : p.removedSlots * t ≤ p.count * (slotSize + t) :=
    Nat.mul_le_mul countP_le_length (Nat.le_add_left _ _)
  rw [freeSpace, hused, hremoved]
  rw [effectivePageSize] at *
  omega

lemma countP_modify_le {α : Type*} {f : α → α} {q : α → Bool} (hf : ∀ a, q (f a) = false)
    (l : List α) (i : ℕ) : (l.modify i f).countP q ≤ l.countP q := by
  induction l generalizing i with
  | nil => simp
  | cons a l ih =>
    cases i with
    | zero => simp [countP_cons, hf]
    | succ i => simpa [countP_cons] using ih i

/-- An insert takes free space. -/
lemma Ok.freeSpace_le (h : p.Ok t) (ht : t + slotSize < 2 ^ 16) (hlen : value.length = t)
    (hins : p.insert value = some (slot, p')) : p'.freeSpace ≤ p.freeSpace := by
  have heq := h.freeSpace_eq
  have heq' := (h.inserted ht hlen hins).ok.freeSpace_eq
  suffices hsuff : p.count ≤ p'.count ∧ p'.removedSlots ≤ p.removedSlots by
    have hcount := Nat.mul_le_mul_right (slotSize + t) hsuff.1
    have hremoved := Nat.mul_le_mul_right t hsuff.2
    omega
  rw [insert] at hins
  split_ifs at hins
  · cases hins
    simp [count, removedSlots, storeKeyValue]
  split at hins
  · cases hins
    refine ⟨by simp [count], countP_modify_le (fun s => ?_) _ _⟩
    simp [reuse]
  · cases hins

/-- A page with room takes the tuple in a new slot. -/
lemma Ok.insert_of_room (h : p.Ok t) (hlen : value.length = t)
    (hroom : (p.count + 1) * (slotSize + t) + slotsOffset ≤ effectivePageSize) :
    p.insert value = some (p.count, p.storeKeyValue value) := by
  have hfree := h.freeSpaceWithoutRemovedTuples_eq
  rw [add_mul, one_mul] at hroom
  have hneeded : spaceNeeded value.length ≤ p.freeSpaceWithoutRemovedTuples := by
    rw [spaceNeeded, hlen]
    exact (Nat.mod_le _ _).trans (by omega)
  rw [insert, if_pos hneeded]

/-- **A page that refuses a tuple is full.** -/
lemma Ok.freeSpace_of_refuses (h : p.Ok t) (ht : t + slotSize < 2 ^ 16) (hlen : value.length = t)
    (hnone : p.insert value = none) : p.freeSpace = leftover t := by
  have heq := h.freeSpace_eq
  have hfree := h.freeSpaceWithoutRemovedTuples_eq
  rw [insert] at hnone
  split_ifs at hnone with hspace
  rw [spaceNeeded, hlen, Nat.mod_eq_of_lt (by omega)] at hspace
  split at hnone
  · cases hnone
  rename_i hfind
  have hzero : p.removedSlots = 0 := by
    rw [List.findIdx?_eq_none_iff] at hfind
    exact countP_eq_zero.2 fun s hs => by simpa using hfind s hs
  rw [hzero, zero_mul] at heq
  have htotal : effectivePageSize - slotsOffset = p.freeSpace + p.count * (slotSize + t) := by omega
  rw [leftover, htotal, Nat.add_mul_mod_self_right, Nat.mod_eq_of_lt (by omega)]

end HeapPage

/-! ## Runs -/

namespace HeapFile

variable {t pid slot : ℕ} {h h' : HeapFile} {value : Bytes} {p p' : HeapPage}

/-- The files that inserts and removals of tuples of `t` bytes lead to, if each removal is one of
those that `ok` allows. -/
inductive Reached (t : ℕ) (growable : Bool) (threshold : ℚ) (ok : HeapFile → ℕ → Prop) :
    HeapFile → Prop
  | create : Reached t growable threshold ok
      { HeapFile.create with heapGrowable := growable, freeSpaceThreshold := threshold }
  | insert {h h' : HeapFile} {rand : ℕ → ℕ} {value : Bytes} {fuel id : ℕ} :
      Reached t growable threshold ok h → value.length = t →
      insert rand value fuel h = some (id, h') → Reached t growable threshold ok h'
  | remove {h : HeapFile} (id : ℕ) : Reached t growable threshold ok h → ok h id →
      Reached t growable threshold ok (h.remove id).2

/-- **Files that a run leads to**: all pages that are listed or remembered exist. -/
structure Valid (t : ℕ) (growable : Bool) (threshold : ℚ) (h : HeapFile) : Prop where
  ok : h.Ok t
  growable : h.heapGrowable = growable
  threshold : h.freeSpaceThreshold = threshold
  listed : ∀ q ∈ h.pagesWithFreeSpace, q < h.entries.length
  might : ∀ q ∈ h.pageThatMightHaveSpace, q < h.entries.length

variable {growable : Bool} {threshold : ℚ} {ok : HeapFile → ℕ → Prop}

lemma Valid.get {rand fuel : ℕ} (hv : Valid t growable threshold h)
    (hget : getPageWithSpace rand fuel h = some (pid, h')) : Valid t growable threshold h' := by
  obtain ⟨h₁, hfound, rfl, hor⟩ := exists_found_of_getPageWithSpace hget
  have hsame := hv.ok.same_of_found hfound
  have hle : h.entries.length ≤ h₁.entries.length := by
    obtain ⟨n, hn⟩ := hfound.entries
    simp [hn]
  have hlisted : ∀ q ∈ h₁.pagesWithFreeSpace, q < h₁.entries.length := by
    intro q hq
    obtain hq | ⟨e, he, -⟩ | ⟨-, hlt⟩ := hfound.listed q hq
    · exact (hv.listed q hq).trans_le hle
    · exact (List.getElem?_eq_some_iff.1 he).1.trans_le hle
    · exact hlt
  refine ⟨⟨hsame.ok.pages, hsame.ok.capacity⟩, hfound.growable.trans hv.growable,
    hfound.threshold.trans hv.threshold, hlisted, ?_⟩
  rintro q hq
  obtain rfl : pid = q := by simpa using hq
  exact hor.elim (fun hm => (hv.might pid hm).trans_le hle) (hlisted pid)

lemma Valid.refused (hv : Valid t growable threshold h) (pid freeSpace : ℕ) :
    Valid t growable threshold (h.updateFreeSpaceInDirNode pid freeSpace true) := by
  refine ⟨(hv.ok.same_updateFreeSpaceInDirNode _ _ _).ok, hv.growable, hv.threshold, fun q hq => ?_,
    by simp [updateFreeSpaceInDirNode]⟩
  simp only [updateFreeSpaceInDirNode, if_true, mem_filter, length_modify] at hq ⊢
  exact hv.listed q hq.1

lemma Valid.put (hv : Valid t growable threshold h) (ht : t + slotSize < 2 ^ 16)
    (hlen : value.length = t) (hp : h.page pid = some p) (hput : p.insert value = some (slot, p')) :
    Valid t growable threshold (h.setPage pid p') := by
  have hdone := (hv.ok.page hp).1.inserted ht hlen hput
  exact ⟨(hv.ok.placed_setPage hp hdone.ok hdone.frame).ok, hv.growable, hv.threshold,
    by simpa [setPage] using hv.listed, by simpa [setPage] using hv.might⟩

/-- The entry of a page whose tuple is removed. -/
def afterRemoval (h : HeapFile) (e : Entry) (slot : ℕ) : Entry :=
  let p := e.page.removeSlot slot
  ⟨p, if h.aboveThreshold p.freeSpace ∧
    (p.freeSpace : ℚ) / effectivePageSize ≤ h.freeSpaceThreshold + 2 / 10
    then p.freeSpace else e.freeSpace⟩

/-- There is a tuple with the id, on the page of the entry. -/
def HasTuple (h : HeapFile) (id : ℕ) (e : Entry) : Prop :=
  h.entries[heapPageId id]? = some e ∧ (e.page.occupied (slotId id)).isSome

/-- **A removal changes one entry**, or nothing. -/
lemma remove_cases (h : HeapFile) (id : ℕ) :
    (∃ e, h.HasTuple id e ∧ (h.remove id).2 = { h with
      entries := h.entries.set (heapPageId id) (h.afterRemoval e (slotId id)) }) ∨
    ((∀ e, ¬ h.HasTuple id e) ∧ (h.remove id).2 = h) := by
  cases he : h.entries[heapPageId id]? with
  | none => exact Or.inr ⟨by simp [HasTuple, he], by simp [remove, page, he]⟩
  | some e =>
    cases hs : e.page.occupied (slotId id) with
    | none =>
      refine Or.inr ⟨by simp [HasTuple, he, hs], ?_⟩
      simp [remove, page, occupied, he, hs]
    | some s =>
      refine Or.inl ⟨e, ⟨he, by simp [hs]⟩, ?_⟩
      obtain ⟨hlt, -⟩ := List.getElem?_eq_some_iff.1 he
      simp only [remove, page, occupied, he, hs, Option.map_some, Option.bind_some,
        afterRemoval]
      by_cases hnote : h.aboveThreshold (e.page.removeSlot (slotId id)).freeSpace ∧
          ((e.page.removeSlot (slotId id)).freeSpace : ℚ) / effectivePageSize ≤
            h.freeSpaceThreshold + 2 / 10
      · rw [if_pos (by exact hnote), if_pos hnote]
        simp [setPage, updateFreeSpaceInDirNode, modify_eq_set_getElem?, hlt]
      · rw [if_neg (by exact hnote), if_neg hnote]
        simp [setPage, modify_eq_set_getElem?, he]

lemma valid_create : Valid t growable threshold
    { create with heapGrowable := growable, freeSpaceThreshold := threshold } := by
  refine ⟨⟨?_, by simp [create]; decide⟩, rfl, rfl, by simp [create], by simp [create]⟩
  intro e he
  rw [eq_of_mem_replicate he]
  exact ok_empty t

lemma Valid.remove (hv : Valid t growable threshold h) (id : ℕ) :
    Valid t growable threshold (h.remove id).2 := by
  obtain ⟨e, he, hremove⟩ | ⟨-, hremove⟩ := remove_cases h id
  · rw [hremove]
    refine ⟨⟨fun e' he' => ?_, by simpa using hv.ok.capacity⟩, hv.growable, hv.threshold,
      by simpa using hv.listed, by simpa using hv.might⟩
    obtain he' | rfl := mem_or_eq_of_mem_set he'
    · exact hv.ok.pages e' he'
    · exact (hv.ok.pages e (mem_of_getElem? he.1)).removeSlot _
  · rwa [hremove]

lemma Reached.valid (ht : t + slotSize < 2 ^ 16) (hr : Reached t growable threshold ok h) :
    Valid t growable threshold h := by
  induction hr with
  | create => exact valid_create
  | insert _ hlen hins ih =>
    obtain ⟨g, pid, p, slot, p', hv, hp, hput, -, rfl⟩ := exists_put_of_insert
      (fun _ _ _ _ _ hv => hv.get) (fun _ pid _ hv _ _ => hv.refused pid _) ih hins
    exact hv.put ht hlen hp hput
  | remove id _ _ ih => exact ih.remove id

/-! ## Pages with room are shown -/

/-- **A page that is free to the threshold is reported to be.** -/
def Shown (h : HeapFile) : Prop :=
  ∀ e ∈ h.entries, h.aboveThreshold e.page.freeSpace → h.aboveThreshold e.freeSpace

/-- A removal is noted in the directory, if that is needed. -/
def Noted (h : HeapFile) (id : ℕ) : Prop :=
  ∀ e, h.HasTuple id e → h.aboveThreshold e.freeSpace ∨
    ((e.page.removeSlot (slotId id)).freeSpace : ℚ) / effectivePageSize ≤
      h.freeSpaceThreshold + 2 / 10

lemma Shown.insert (hs : h.Shown) (hv : Valid t growable threshold h) (ht : t + slotSize < 2 ^ 16)
    (hlen : value.length = t) {rand : ℕ → ℕ} {fuel id : ℕ}
    (hins : insert rand value fuel h = some (id, h')) : h'.Shown := by
  have hput := exists_put_of_insert (P := fun g => Valid t growable threshold g ∧ g.Shown)
    ?_ ?_ ⟨hv, hs⟩ hins
  · obtain ⟨g, pid, p, slot, p', ⟨hv, hs⟩, hp, hput, -, rfl⟩ := hput
    obtain ⟨e, he, rfl⟩ := Option.map_eq_some_iff.1 hp
    have hmem := mem_of_getElem? he
    rw [Shown, entries_setPage he]
    intro e' he'
    obtain he' | rfl := mem_or_eq_of_mem_set he'
    · exact hs e' he'
    · intro ha
      refine hs e hmem ?_
      simp only [aboveThreshold, ge_iff_le, decide_eq_true_eq] at ha ⊢
      exact ha.trans (by gcongr; exact (hv.ok.pages e hmem).freeSpace_le ht hlen hput)
  · rintro h rand fuel pid h' ⟨hv, hs⟩ hget
    refine ⟨hv.get hget, ?_⟩
    obtain ⟨h₁, hfound, rfl, -⟩ := exists_found_of_getPageWithSpace hget
    have habove : ∀ n, h₁.aboveThreshold n = h.aboveThreshold n := by
      intro n
      rw [aboveThreshold, aboveThreshold, hfound.threshold]
    refine hfound.forall_entries (Q := fun e => h₁.aboveThreshold e.page.freeSpace →
      h₁.aboveThreshold e.freeSpace) (fun ha => ha) fun e he => ?_
    rw [habove, habove]
    exact hs e he
  · rintro h pid p ⟨hv, hs⟩ hp -
    refine ⟨hv.refused pid _, ?_⟩
    obtain ⟨e, he, rfl⟩ := Option.map_eq_some_iff.1 hp
    rw [Shown, entries_updateFreeSpaceInDirNode he]
    intro e' he'
    obtain he' | rfl := mem_or_eq_of_mem_set he'
    · exact hs e' he'
    · exact fun ha => ha

/-- **A removal keeps pages with room shown if and only if it is noted.** -/
lemma shown_remove_iff (hs : h.Shown) (id : ℕ) : (h.remove id).2.Shown ↔ h.Noted id := by
  obtain ⟨e, he, hremove⟩ | ⟨hnone, hremove⟩ := remove_cases h id
  · obtain ⟨hlt, -⟩ := List.getElem?_eq_some_iff.1 he.1
    have hshown : (h.remove id).2.Shown ↔
        (h.aboveThreshold (h.afterRemoval e (slotId id)).page.freeSpace →
          h.aboveThreshold (h.afterRemoval e (slotId id)).freeSpace) := by
      rw [hremove]
      constructor
      · exact fun hall => hall _ (mem_set hlt _)
      · intro hthis e' he'
        obtain he' | rfl := mem_or_eq_of_mem_set he'
        · exact hs e' he'
        · exact hthis
    have hnoted : h.Noted id ↔ h.aboveThreshold e.freeSpace ∨
        ((e.page.removeSlot (slotId id)).freeSpace : ℚ) / effectivePageSize ≤
          h.freeSpaceThreshold + 2 / 10 := by
      constructor
      · exact fun hall => hall e he
      · rintro hthis e' ⟨he', -⟩
        obtain rfl : e = e' := by simpa [he.1] using he'
        exact hthis
    rw [hshown, hnoted]
    simp only [afterRemoval]
    by_cases hlow : ((e.page.removeSlot (slotId id)).freeSpace : ℚ) / effectivePageSize ≤
        h.freeSpaceThreshold + 2 / 10
    · simp only [hlow, and_true, or_true, iff_true]
      intro ha
      rwa [if_pos ha]
    · have ha : h.aboveThreshold (e.page.removeSlot (slotId id)).freeSpace := by
        simp only [aboveThreshold, ge_iff_le, decide_eq_true_eq]
        linarith
      simp [hlow, ha]
  · rw [hremove]
    exact iff_of_true hs fun e he => absurd he (hnone e)

lemma Reached.shown (ht : t + slotSize < 2 ^ 16) (hr : Reached t growable threshold Noted h) :
    h.Shown := by
  induction hr with
  | create =>
    intro e he
    rw [eq_of_mem_replicate he]
    exact id
  | insert hr hlen hins ih => exact ih.insert (hr.valid ht) ht hlen hins
  | remove id hr hn ih => exact (shown_remove_iff ih id).2 hn

lemma Reached.mono {ok' : HeapFile → ℕ → Prop} (hmono : ∀ h id, ok h id → ok' h id)
    (hr : Reached t growable threshold ok h) : Reached t growable threshold ok' h := by
  induction hr with
  | create => exact .create
  | insert _ hlen hins ih => exact ih.insert hlen hins
  | remove id _ hid ih => exact ih.remove id (hmono _ id hid)

/-! ### Tuples in the first page -/

section Attempts

variable {rand : ℕ → ℕ} {fuel : ℕ}

/-- The remembered page takes the tuple. -/
lemma insert_put (hmight : h.pageThatMightHaveSpace = some pid) (hpage : h.page pid = some p)
    (hput : p.insert value = some (slot, p')) :
    insert rand value (fuel + 1) h = some (makeTupleId pid slot, h.setPage pid p') := by
  simp [insert, getPageWithSpace, hmight, hpage, hput]

/-- The remembered page refuses the tuple. -/
lemma insert_refused (hmight : h.pageThatMightHaveSpace = some pid) (hpage : h.page pid = some p)
    (hnone : p.insert value = none) : insert rand value (fuel + 1) h =
      insert rand value fuel (h.updateFreeSpaceInDirNode pid p.freeSpace true) := by
  simp [insert, getPageWithSpace, hmight, hpage, hnone]

end Attempts

/-- **All tuples are in the first page**, which has `k` of them. -/
structure OnFirstPage (k : ℕ) (h : HeapFile) : Prop where
  might : h.pageThatMightHaveSpace = some 0
  first : ∃ e, h.entries[0]? = some e ∧ e.page.count = k ∧ ∀ s ∈ e.page.slots, s.status = .occupied
  second : h.entries[1]? = some freshEntry
  listed : h.pagesWithFreeSpace = List.range pagesAtHand

lemma OnFirstPage.put {k : ℕ} (hf : OnFirstPage k h) (hok : h.Ok t) (hlen : value.length = t)
    (hk : k < tuplesPerPage t) (fuel : ℕ) : ∃ h',
      insert 0 value (fuel + 1) h = some (makeTupleId 0 k, h') ∧ OnFirstPage (k + 1) h' := by
  obtain ⟨e, he, rfl, hoccupied⟩ := hf.first
  have hroom : (e.page.count + 1) * (slotSize + t) + slotsOffset ≤ effectivePageSize := by
    have hle := (Nat.mul_le_mul_right (slotSize + t) hk).trans (Nat.div_mul_le_self _ _)
    exact Nat.add_le_of_le_sub (by decide) hle
  have hins := (hok.pages e (mem_of_getElem? he)).insert_of_room hlen hroom
  refine ⟨_, insert_put hf.might (by rw [page, he]; rfl) hins, hf.might,
    ⟨{ e with page := e.page.storeKeyValue value }, ?_, ?_, ?_⟩, ?_, hf.listed⟩
  · rw [entries_setPage he, List.getElem?_set_self', he]
    rfl
  · simp [HeapPage.storeKeyValue, HeapPage.count]
  · simpa [storeKeyValue, or_imp, forall_and] using hoccupied
  · rw [entries_setPage he, List.getElem?_set_ne (by decide), hf.second]

end HeapFile

end TwoTree.Heap
