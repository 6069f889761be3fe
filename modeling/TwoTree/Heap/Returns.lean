import Mathlib
import TwoTree.Heap.Space

/-!
# Inserts that come back

`insert` of a heap file tries pages until one takes the tuple.  A page that refuses it is taken from
the list of pages with space, and its entry in the directory is set to what is left of the page.  If that
is below the threshold, the page is not found again: each attempt that fails leaves one page less that
can fail, and the insert comes back.

If what is left of a full page is at or above the threshold, full pages are listed again and again.
The directory then always shows the first pages, whether they are full or not, and no page is ever added:
at the latest when these are full, an insert does not come back (`not_returns_nineThousand`).
-/

namespace TwoTree.Heap.HeapFile

open List HeapFile

variable {t pid : ℕ} {h h' h₁ : HeapFile} {value : Bytes} {growable : Bool} {threshold : ℚ}

/-- **The directory has no room for the pages that an attempt of the insert asks for.** -/
def Exhausts (rand : ℕ → ℕ) (value : Bytes) : ℕ → HeapFile → Prop
  | 0, _ => False
  | fuel + 1, h =>
    (h.pageThatMightHaveSpace = none ∧ h.pagesWithFreeSpace.length < 16 ∧
      h.findPagesWithFreeSpace = none) ∨
    ∃ pid h₁ p, h.getPageWithSpace (rand fuel) (fuel + 1) = some (pid, h₁) ∧ h₁.page pid = some p ∧
      p.insert value = none ∧
      Exhausts rand value fuel (h₁.updateFreeSpaceInDirNode pid p.freeSpace true)

/-! ## Full pages that are not found again -/

/-- A page that an attempt may try in vain. -/
def Stale (value : Bytes) (h : HeapFile) (pid : ℕ) : Prop :=
  ∃ e, h.entries[pid]? = some e ∧ e.page.insert value = none ∧
    (h.pageThatMightHaveSpace = some pid ∨ pid ∈ h.pagesWithFreeSpace ∨ h.aboveThreshold e.freeSpace)

lemma finite_stale (value : Bytes) (h : HeapFile) : {q | h.Stale value q}.Finite :=
  (Set.finite_Iio h.entries.length).subset fun _ ⟨_, he, _⟩ => (List.getElem?_eq_some_iff.1 he).1

/-- Looking for a page makes none stale. -/
lemma Stale.of_get {rand fuel q : ℕ} (ht : t + slotSize + slotsOffset ≤ effectivePageSize)
    (hlen : value.length = t) (hget : getPageWithSpace rand fuel h = some (pid, h'))
    (hq : h'.Stale value q) : h.Stale value q := by
  obtain ⟨h₁, hfound, rfl, hor⟩ := exists_found_of_getPageWithSpace hget
  obtain ⟨e, he, hnone, hwhy⟩ := hq
  have hold : h.entries[q]? = some e := by
    obtain ⟨n, hn⟩ := hfound.entries
    rw [hn] at he
    rcases lt_or_ge q h.entries.length with hlt | hge
    · rwa [List.getElem?_append_left hlt] at he
    -- a new page takes the tuple
    rw [List.getElem?_append_right hge] at he
    rw [eq_of_mem_replicate (mem_of_getElem? he)] at hnone
    have hins := (HeapPage.ok_empty t).insert_of_room hlen (by simp [HeapPage.count]; omega)
    exact absurd (hnone.symm.trans hins) (by simp)
  have hlisted : q ∈ h₁.pagesWithFreeSpace →
      q ∈ h.pagesWithFreeSpace ∨ h.aboveThreshold e.freeSpace := by
    intro hq
    obtain hq | ⟨e', he', habove⟩ | ⟨hge, -⟩ := hfound.listed q hq
    · exact Or.inl hq
    · obtain rfl : e = e' := by simpa [hold] using he'
      exact Or.inr habove
    · exact absurd (List.getElem?_eq_some_iff.1 hold).1 (not_lt.2 hge)
  refine ⟨e, hold, hnone, ?_⟩
  obtain hq | hq | habove := hwhy
  · obtain rfl : pid = q := by simpa using hq
    exact hor.imp_right hlisted
  · exact Or.inr (hlisted hq)
  · have habove : h₁.aboveThreshold e.freeSpace := habove
    rw [aboveThreshold, hfound.threshold] at habove
    exact Or.inr (Or.inr habove)

/-- **An attempt that fails leaves fewer stale pages.** -/
lemma stale_ssubset (hv : Valid t growable threshold h) (ht : t + slotSize < 2 ^ 16)
    (hlen : value.length = t) (hlow : (leftover t : ℚ) / effectivePageSize < threshold)
    (hmight : h.pageThatMightHaveSpace = some pid) {p : HeapPage} (hp : h.page pid = some p)
    (hnone : p.insert value = none) :
    {q | Stale value (h.updateFreeSpaceInDirNode pid p.freeSpace true) q} ⊂ {q | h.Stale value q} := by
  obtain ⟨e, he, rfl⟩ := Option.map_eq_some_iff.1 hp
  have hentries := entries_updateFreeSpaceInDirNode he e.page.freeSpace
  have hgone : ¬ Stale value (h.updateFreeSpaceInDirNode pid e.page.freeSpace true) pid := by
    rintro ⟨e', he', -, hwhy⟩
    rw [hentries, (hv.ok.page hp).1.freeSpace_of_refuses ht hlen hnone] at he'
    obtain rfl : { e with freeSpace := leftover t } = e' := by
      simpa [List.getElem?_set_self', he] using he'
    have hwhy : threshold ≤ (leftover t : ℚ) / effectivePageSize := by
      simpa [updateFreeSpaceInDirNode, aboveThreshold, hv.threshold] using hwhy
    exact absurd hlow (not_lt.2 hwhy)
  refine ⟨fun q hq => ?_, fun hsub => hgone (hsub ⟨e, he, hnone, Or.inl hmight⟩)⟩
  have hne : pid ≠ q := by
    rintro rfl
    exact hgone hq
  obtain ⟨e', he', hnone', hwhy⟩ := hq
  rw [hentries, List.getElem?_set_ne hne] at he'
  refine ⟨e', he', hnone', hwhy.imp (fun hm => by cases hm) (Or.imp_left fun hq => ?_)⟩
  simp only [updateFreeSpaceInDirNode, if_true, mem_filter] at hq
  exact hq.1

/-- A growing file has a page to try, if the directory has room. -/
lemma exists_getPageWithSpace (hgrow : h.heapGrowable) (rand fuel : ℕ) :
    (h.pageThatMightHaveSpace = none ∧ h.pagesWithFreeSpace.length < 16 ∧
      h.findPagesWithFreeSpace = none) ∨
    ∃ pid h₁, h.getPageWithSpace rand (fuel + 2) = some (pid, h₁) := by
  have hpick : ∀ (h : HeapFile) fuel, h.pageThatMightHaveSpace = none →
      16 ≤ h.pagesWithFreeSpace.length →
      ∃ pid h₁, h.getPageWithSpace rand (fuel + 1) = some (pid, h₁) := by
    intro h fuel hmight hmany
    have hlt : rand % h.pagesWithFreeSpace.length < h.pagesWithFreeSpace.length :=
      Nat.mod_lt _ (by omega)
    simp [getPageWithSpace, hmight, not_lt.2 hmany, List.getElem?_eq_getElem hlt]
  cases hmight : h.pageThatMightHaveSpace with
  | some pid => exact Or.inr ⟨pid, h, by simp [getPageWithSpace, hmight]⟩
  | none =>
    rcases lt_or_ge h.pagesWithFreeSpace.length 16 with hfew | hmany
    · cases hfind : h.findPagesWithFreeSpace with
      | none => exact Or.inl ⟨rfl, hfew, rfl⟩
      | some h₁ =>
        refine Or.inr ?_
        have hmight₁ := (found_findPagesWithFreeSpace hfind).might.trans hmight
        rw [getPageWithSpace]
        simp only [hmight, hfew, if_true, hfind]
        refine hpick h₁ fuel hmight₁ ?_
        have hscan := (found_scanDirectory h h.numSlots h.nextPageToScan).growable.trans hgrow
        simp only [findPagesWithFreeSpace, addHeapPages, hscan] at hfind
        split_ifs at hfind with hshort
        · cases hfind
          simp [pagesAtHand] at hshort ⊢
          omega
        · cases hfind
          simp [pagesAtHand] at hshort
          omega
    · exact Or.inr (hpick h (fuel + 1) hmight hmany)

/-- **With as many attempts as there are stale pages, and two more, an insert comes back.** -/
lemma Valid.returns (hv : Valid t true threshold h)
    (ht : t + slotSize + slotsOffset ≤ effectivePageSize) (hlen : value.length = t)
    (hlow : (leftover t : ℚ) / effectivePageSize < threshold) (rand : ℕ → ℕ) {fuel : ℕ}
    (hfuel : {q | h.Stale value q}.ncard + 2 ≤ fuel) :
    Exhausts rand value fuel h ∨ ∃ id h', insert rand value fuel h = some (id, h') := by
  have ht' : t + slotSize < 2 ^ 16 := by
    rw [effectivePageSize] at ht
    omega
  induction fuel generalizing h with
  | zero => omega
  | succ fuel ih =>
    obtain ⟨fuel, rfl⟩ := Nat.exists_eq_succ_of_ne_zero (show fuel ≠ 0 by omega)
    obtain hnone | ⟨pid, h₁, hget⟩ := exists_getPageWithSpace hv.growable (rand (fuel + 1)) fuel
    · exact Or.inl (Or.inl hnone)
    have hv₁ := hv.get hget
    have hmight : h₁.pageThatMightHaveSpace = some pid := by
      obtain ⟨_, -, rfl, -⟩ := exists_found_of_getPageWithSpace hget
      rfl
    obtain ⟨p, hp⟩ : ∃ p, h₁.page pid = some p :=
      ⟨_, by rw [page, List.getElem?_eq_getElem (hv₁.might pid hmight)]; rfl⟩
    rw [insert]
    simp only [hget, hp]
    cases hput : p.insert value with
    | some res => exact Or.inr ⟨_, _, rfl⟩
    | none =>
      have hless : {q | Stale value (h₁.updateFreeSpaceInDirNode pid p.freeSpace true) q} ⊂
          {q | h.Stale value q} :=
        (stale_ssubset hv₁ ht' hlen hlow hmight hp hput).trans_subset
          fun q hq => Stale.of_get ht hlen hget hq
      have hcard := Set.ncard_lt_ncard hless (finite_stale value h)
      exact (ih (hv₁.refused pid _) (by omega)).imp_left
        fun hex => Or.inr ⟨pid, h₁, p, hget, hp, hput, hex⟩

/-! ## Full pages that are always found -/

/-- The tuples and the slots that were ever used. -/
def total (h : HeapFile) : ℕ := (h.entries.map fun e => e.page.count).sum

lemma total_set {e e' : Entry} (he : h.entries[pid]? = some e)
    (hset : h'.entries = h.entries.set pid e') :
    h'.total + e.page.count = h.total + e'.page.count := by
  have hsum : ∀ (l : List Entry) i, l[i]? = some e →
      ((l.set i e').map fun e => e.page.count).sum + e.page.count =
        (l.map fun e => e.page.count).sum + e'.page.count := by
    intro l
    induction l with
    | nil => simp
    | cons a l ih =>
      rintro (_ | i) hi
      · obtain rfl : a = e := by simpa using hi
        simp [add_comm, add_left_comm]
      · have hrest := ih i (by simpa using hi)
        simp only [set_cons_succ, map_cons, sum_cons]
        omega
  rw [total, hset]
  exact hsum _ _ he

/-- **The directory shows the first pages for ever.**  No tuple was removed. -/
structure Crowded (t : ℕ) (h : HeapFile) : Prop where
  length : h.entries.length = pagesAtHand
  next : h.nextPageToScan = 0
  entry : ∀ e ∈ h.entries, e.page.Ok t ∧ e.page.removedSlots = 0 ∧ leftover t ≤ e.freeSpace
  shown : h.freeSpaceThreshold ≤ (leftover t : ℚ) / effectivePageSize

namespace Crowded

lemma find_eq (hc : Crowded t h) : h.findPagesWithFreeSpace = some { h with
    pagesWithFreeSpace := h.pagesWithFreeSpace ++ List.range pagesAtHand } := by
  have hslots : h.numSlots = kDirNodeEntryCount := by
    rw [numSlots, hc.length]
    decide
  have hfound : (List.range' 0 kDirNodeEntryCount).filter (fun p =>
      h.entries[p]?.any fun e => h.aboveThreshold e.freeSpace) = List.range pagesAtHand := by
    rw [show kDirNodeEntryCount = pagesAtHand + 117 from rfl, ← range'_append_1,
      filter_append, filter_eq_self.2, filter_eq_nil_iff.2, append_nil,
      range_eq_range']
    · intro p hp
      rw [List.getElem?_eq_none (by rw [hc.length]; simpa using (mem_range'_1.1 hp).1)]
      simp
    intro p hp
    have hlt : p < h.entries.length := by
      rw [hc.length]
      simpa using (mem_range'_1.1 hp).2
    simp only [List.getElem?_eq_getElem hlt, Option.any_some, aboveThreshold, ge_iff_le,
      decide_eq_true_eq]
    exact hc.shown.trans (by gcongr; exact (hc.entry _ (getElem_mem hlt)).2.2)
  have hscan : h.scanDirectory (244 + 1) 0 = { h with
      pagesWithFreeSpace := h.pagesWithFreeSpace ++ List.range pagesAtHand } := by
    rw [scanDirectory, hslots, if_pos (by decide)]
    simp only [Nat.zero_div, zero_add, one_mul, Nat.sub_zero, hfound, Nat.mod_self]
    rw [if_pos (by simp), hc.next]
  simp only [findPagesWithFreeSpace, hslots, hc.next]
  rw [show kDirNodeEntryCount = 244 + 1 from rfl, hscan, if_neg (by simp), hc.next]

/-- No page is added. -/
lemma get {rand fuel : ℕ} (hc : Crowded t h) (hget : getPageWithSpace rand fuel h = some (pid, h')) :
    Crowded t h' ∧ h'.total = h.total := by
  induction fuel generalizing h with
  | zero => cases hget
  | succ fuel ih =>
    rw [getPageWithSpace] at hget
    split at hget
    · cases hget
      exact ⟨hc, rfl⟩
    rw [hc.find_eq] at hget
    split_ifs at hget
    · have hlonger : Crowded t { h with
          pagesWithFreeSpace := h.pagesWithFreeSpace ++ List.range pagesAtHand } :=
        ⟨hc.length, hc.next, hc.entry, hc.shown⟩
      obtain ⟨hc', htotal⟩ := ih hlonger hget
      exact ⟨hc', htotal⟩
    · split at hget
      · cases hget
        exact ⟨⟨hc.length, hc.next, hc.entry, hc.shown⟩, rfl⟩
      · cases hget

lemma refused (hc : Crowded t h) (ht : t + slotSize < 2 ^ 16) (hlen : value.length = t)
    {p : HeapPage} (hp : h.page pid = some p) (hnone : p.insert value = none) :
    Crowded t (h.updateFreeSpaceInDirNode pid p.freeSpace true) ∧
      (h.updateFreeSpaceInDirNode pid p.freeSpace true).total = h.total := by
  obtain ⟨e, he, rfl⟩ := Option.map_eq_some_iff.1 hp
  obtain ⟨hok, hremoved, -⟩ := hc.entry e (mem_of_getElem? he)
  have hfree := hok.freeSpace_of_refuses ht hlen hnone
  have hentries := entries_updateFreeSpaceInDirNode he e.page.freeSpace
  refine ⟨⟨by simp [hentries, hc.length], hc.next, fun e' he' => ?_, hc.shown⟩, ?_⟩
  · rw [hentries] at he'
    obtain he' | rfl := mem_or_eq_of_mem_set he'
    · exact hc.entry e' he'
    · exact ⟨hok, hremoved, hfree.ge⟩
  · have hsum := total_set he hentries
    exact Nat.add_right_cancel hsum

/-- An insert makes one tuple more. -/
lemma insert (hc : Crowded t h) (ht : t + slotSize < 2 ^ 16) (hlen : value.length = t)
    {rand : ℕ → ℕ} {fuel id : ℕ} (hins : insert rand value fuel h = some (id, h')) :
    Crowded t h' ∧ h'.total = h.total + 1 := by
  obtain ⟨g, pid, p, slot, p', ⟨hc, htotal⟩, hp, hput, -, rfl⟩ := exists_put_of_insert
    (P := fun g => Crowded t g ∧ g.total = h.total)
    (fun _ _ _ _ _ ⟨hc, htotal⟩ hget => ⟨(hc.get hget).1, (hc.get hget).2.trans htotal⟩)
    (fun _ _ _ ⟨hc, htotal⟩ hp hnone =>
      ⟨(hc.refused ht hlen hp hnone).1, (hc.refused ht hlen hp hnone).2.trans htotal⟩)
    ⟨hc, rfl⟩ hins
  obtain ⟨e, he, rfl⟩ := Option.map_eq_some_iff.1 hp
  obtain ⟨hok, hremoved, hleft⟩ := hc.entry e (mem_of_getElem? he)
  have hentries := entries_setPage he p'
  have hnew : p' = e.page.storeKeyValue value := by
    have hfind : (e.page.slots.findIdx? fun s => s.status = .removed) = none := by
      rw [List.findIdx?_eq_none_iff]
      exact fun s hs => by simpa using countP_eq_zero.1 hremoved s hs
    rw [HeapPage.insert, hfind] at hput
    split_ifs at hput
    cases hput
    rfl
  refine ⟨⟨by simp [hentries, hc.length], hc.next, fun e' he' => ?_, hc.shown⟩, ?_⟩
  · rw [hentries] at he'
    obtain he' | rfl := mem_or_eq_of_mem_set he'
    · exact hc.entry e' he'
    · refine ⟨(hok.inserted ht hlen hput).ok, ?_, hleft⟩
      simpa [hnew, HeapPage.removedSlots, HeapPage.storeKeyValue] using hremoved
  · have hcount : p'.count = e.page.count + 1 := by
      simp [hnew, HeapPage.storeKeyValue, HeapPage.count]
    have hsum : (g.setPage pid p').total + e.page.count = g.total + p'.count := total_set he hentries
    omega

lemma total_le (hc : Crowded t h) : h.total ≤ pagesAtHand * tuplesPerPage t := by
  have hle : ∀ n ∈ h.entries.map fun e => e.page.count, n ≤ tuplesPerPage t := by
    intro n hn
    obtain ⟨e, he, rfl⟩ := mem_map.1 hn
    have hroom := (hc.entry e he).1.room
    exact (Nat.le_div_iff_mul_le (by rw [slotSize]; omega)).2 (Nat.le_sub_of_add_le hroom)
  have hsum := sum_le_card_nsmul _ _ hle
  rwa [length_map, hc.length] at hsum

lemma not_exhausts (hc : Crowded t h) (ht : t + slotSize < 2 ^ 16) (hlen : value.length = t)
    (rand : ℕ → ℕ) (fuel : ℕ) : ¬ Exhausts rand value fuel h := by
  induction fuel generalizing h with
  | zero => exact id
  | succ fuel ih =>
    rintro (⟨-, -, hnone⟩ | ⟨pid, h₁, p, hget, hp, hput, hex⟩)
    · rw [hc.find_eq] at hnone
      cases hnone
    · exact ih ((hc.get hget).1.refused ht hlen hp hput).1 hex

end Crowded

/-- **Every insert comes back with the tuple stored**, as far as the directory has room. -/
def Returns (t : ℕ) (threshold : ℚ) : Prop :=
  ∀ h value, Reached t true threshold (fun _ _ => True) h → value.length = t →
    ∃ n, ∀ fuel ≥ n, ∀ rand, Exhausts rand value fuel h ∨ ∃ pid slot h',
      insert rand value fuel h = some (makeTupleId pid slot, h') ∧ h.tuple pid slot = none ∧
        Placed t h h' pid slot (some value)

/-- If full pages are shown, some insert does not come back. -/
lemma not_returns (ht : t + slotSize < 2 ^ 16)
    (hshown : threshold ≤ (leftover t : ℚ) / effectivePageSize) : ¬ Returns t threshold := by
  intro hall
  obtain ⟨value, hlen⟩ : ∃ value : Bytes, value.length = t :=
    ⟨List.replicate t 0, length_replicate⟩
  have hmany : ∀ n, ∃ h, Reached t true threshold (fun _ _ => True) h ∧ Crowded t h ∧ h.total = n := by
    intro n
    induction n with
    | zero =>
      refine ⟨_, .create, ⟨by simp [create], rfl, fun e he => ?_, hshown⟩, ?_⟩
      · rw [eq_of_mem_replicate he]
        exact ⟨HeapPage.ok_empty t, rfl, Nat.mod_le _ _⟩
      · simp [total, create, HeapPage.count]
    | succ n ih =>
      obtain ⟨h, hr, hc, htotal⟩ := ih
      obtain ⟨fuel, hreturns⟩ := hall h value hr hlen
      obtain ⟨pid, slot, h', hins, -⟩ :=
        (hreturns fuel le_rfl 0).resolve_left (hc.not_exhausts ht hlen 0 fuel)
      obtain ⟨hc', htotal'⟩ := hc.insert ht hlen hins
      exact ⟨h', hr.insert hlen hins, hc', by rw [htotal', htotal]⟩
  obtain ⟨h, -, hc, htotal⟩ := hmany (pagesAtHand * tuplesPerPage t + 1)
  have hle := hc.total_le
  omega

/-- **Inserts come back if and only if what is left of a full page is below the threshold.** -/
theorem returns_iff_leftover_lt (t : ℕ) (ht : t + slotSize + slotsOffset ≤ effectivePageSize)
    (threshold : ℚ) :
    Returns t threshold ↔ (leftover t : ℚ) / effectivePageSize < threshold := by
  have ht' : t + slotSize < 2 ^ 16 := by
    rw [effectivePageSize] at ht
    omega
  constructor
  · intro hall
    by_contra hge
    exact not_returns ht' (not_lt.1 hge) hall
  intro hlow h value hr hlen
  have hv := hr.valid ht'
  refine ⟨{q | h.Stale value q}.ncard + 2, fun fuel hfuel rand => ?_⟩
  refine (hv.returns ht hlen hlow rand hfuel).imp_right ?_
  rintro ⟨id, h', hins⟩
  obtain ⟨pid, slot, -, rfl, hnone, hplaced⟩ := hv.ok.placed_insert ht' hlen hins
  exact ⟨pid, slot, h', hins, hnone, hplaced⟩

/-- Tuples of twelve bytes leave six bytes of a page. -/
theorem returns_twelve : (12 : ℕ) + slotSize + slotsOffset ≤ effectivePageSize ∧
    Returns 12 (5 / 100) := by
  refine ⟨by decide, (returns_iff_leftover_lt 12 (by decide) _).2 ?_⟩
  rw [show leftover 12 = 6 by decide, effectivePageSize]
  norm_num

/-- **Some insert of a tuple of nine thousand bytes never comes back**: 7338 bytes of a page are left. -/
theorem not_returns_nineThousand : ¬ Returns 9000 (5 / 100) := by
  refine not_returns (by decide) ?_
  rw [show leftover 9000 = 7338 by decide, effectivePageSize]
  norm_num

end TwoTree.Heap.HeapFile
