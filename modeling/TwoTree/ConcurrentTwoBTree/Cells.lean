import TwoTree.ConcurrentTwoBTree.Adapter

/-!
# What the adapter does to one key

The abstraction from the adapter to the two-tier cells of `Lib.Tiers`: `Adapter.cell s k` is
what the two trees hold for `k`, and every function of the adapter is described by what it does
to the cell of each key.  An eviction demotes some cells and leaves the others alone
(`evictABunch_at`), the operations change the cell of their own key by a write or a promotion.

A key that was removed carries a deletion mark, which is a record of the hot tree but not an
entry of the cell; `Marked` says so.  The eviction takes the mark for a record and demotes
whatever bytes lie behind it.

Between the operations of a single thread all lock words are even (`Unlocked`), so every lock
is taken at the first attempt and every operation returns.
-/

namespace TwoTree.ConcurrentTwoBTree

open Std Lib Lib.OrderedMap LockManager HotRecord TaggedPayload OptimisticLockGuard Option Cell

variable {V : Type*}

/-- The entry a record stands for; a deletion mark stands for none. -/
def HotRecord.content : HotRecord V → Option (V × Bool)
  | .tagged tp => some tp.data
  | .deletedMark => none

@[simp] lemma HotRecord.content_tagged (tp : TaggedPayload V) :
    (tagged tp).content = some tp.data := rfl

@[simp] lemma HotRecord.content_deletedMark :
    (deletedMark : HotRecord V).content = none :=
  rfl

/-- Bookkeeping on a record does not change its entry. -/
lemma HotRecord.content_mapTagged {f : TaggedPayload V → TaggedPayload V}
    (hf : ∀ tp, (f tp).data = tp.data) (r : HotRecord V) : (r.mapTagged f).content = r.content := by
  cases r with
  | tagged tp => simp [mapTagged, hf]
  | deletedMark => rfl

/-- Bookkeeping on a record does not change what the eviction reads. -/
lemma HotRecord.data_asTagged_mapTagged {f : TaggedPayload V → TaggedPayload V}
    (hf : ∀ tp, (f tp).data = tp.data) (r : HotRecord V) (overread : TaggedPayload V) :
    ((r.mapTagged f).asTagged overread).data = (r.asTagged overread).data := by
  cases r with
  | tagged tp => exact hf tp
  | deletedMark => rfl

namespace Adapter

variable {s : Adapter V} {ch : Choices V} {s s' : Adapter V} {r : HotRecord V} (cfg : Config)

/-- What the two trees hold for a key. -/
def cell (s : Adapter V) (k : ℕ) : Cell V :=
  ⟨s.hotBtree[k]?.bind HotRecord.content, s.coldBtree[k]?⟩

/-- The key carries a deletion mark. -/
def Marked (s : Adapter V) (k : ℕ) : Prop := s.hotBtree[k]? = some .deletedMark

/-- No lock word is write-locked. -/
def Unlocked (s : Adapter V) : Prop := s.lockTable.Unlocked

lemma cell_of_tagged {k : ℕ} {tp : TaggedPayload V}
    (h : s.hotBtree[k]? = some (.tagged tp)) : s.cell k = ⟨some tp.data, s.coldBtree[k]?⟩ := by
  simp [cell, h]

lemma cell_of_none {k : ℕ} (h : s.hotBtree[k]? = none) :
    s.cell k = ⟨none, s.coldBtree[k]?⟩ := by
  simp [cell, h]

lemma cell_congr {s s' : Adapter V} {k : ℕ}
    (hhot : s'.hotBtree[k]?.map content = s.hotBtree[k]?.map content)
    (hcold : s'.coldBtree[k]? = s.coldBtree[k]?) : s'.cell k = s.cell k := by
  have hjoin : ∀ r : Option (HotRecord V),
      r.bind content = (r.map content).join := by
    rintro (_ | r) <;> simp
  rw [cell, cell, hjoin, hjoin, hhot, hcold]

lemma marked_congr {s s' : Adapter V} {k : ℕ}
    (hhot : s'.hotBtree[k]?.map content = s.hotBtree[k]?.map content) :
    s'.Marked k ↔ s.Marked k := by
  have hmark : ∀ r : Option (HotRecord V),
      r = some .deletedMark ↔ r.map content = some none := by
    rintro (_ | (tp | _)) <;> simp
  rw [Marked, Marked, hmark, hmark, hhot]

/-! ## Locks -/

section

variable (s : Adapter V)

@[simp] lemma hotBtree_setWord (k w : ℕ) : (s.setWord k w).hotBtree = s.hotBtree := rfl
@[simp] lemma coldBtree_setWord (k w : ℕ) : (s.setWord k w).coldBtree = s.coldBtree := rfl
@[simp] lemma clock_setWord (k w : ℕ) : (s.setWord k w).clock = s.clock := rfl
@[simp] lemma word_setWord (k w : ℕ) : (s.setWord k w).word k = w := s.lockTable.word_setWord k w

@[simp] lemma hotBtree_release (k : ℕ) (g : OptimisticLockGuard) :
    (s.release k g).hotBtree = s.hotBtree := rfl
@[simp] lemma coldBtree_release (k : ℕ) (g : OptimisticLockGuard) :
    (s.release k g).coldBtree = s.coldBtree := rfl
@[simp] lemma clock_release (k : ℕ) (g : OptimisticLockGuard) : (s.release k g).clock = s.clock := rfl

@[simp] lemma cell_setWord (k w a : ℕ) : (s.setWord k w).cell a = s.cell a := rfl

@[simp] lemma cell_release (k a : ℕ) (g : OptimisticLockGuard) :
    (s.release k g).cell a = s.cell a := rfl

end

lemma Unlocked.word (h : s.Unlocked) (k : ℕ) : s.word k % 2 = 0 :=
  OptimisticLockTable.Unlocked.word h k

/-- A guard that took the write lock of an unlocked adapter and releases it leaves the adapter
unlocked, whatever was done to the trees in between. -/
lemma Unlocked.release {s s' : Adapter V} (h : s.Unlocked) {k version : ℕ}
    (hs' : s'.lockTable = (s.setWord k (u64 (s.word k + 1))).lockTable) :
    (s'.release k ⟨version, .writeLocked⟩).Unlocked := by
  rw [Unlocked, Adapter.release, hs']
  exact OptimisticLockTable.Unlocked.release h k version

/-- **A writing operation of an unlocked adapter returns**; it runs its body and leaves the
adapter unlocked. -/
lemma underWriteLock_spec (hs : s.Unlocked) (fuel k : ℕ)
    {body : Adapter V → Adapter V} (hbody : ∀ s, (body s).lockTable = s.lockTable) :
    ∃ w version, s.underWriteLock (fuel + 1) k body =
        some ((body (s.setWord k w)).release k ⟨version, .writeLocked⟩) ∧
      ((body (s.setWord k w)).release k ⟨version, .writeLocked⟩).Unlocked := by
  refine ⟨u64 (s.word k + 1), u64 (s.word k + 1), ?_, hs.release (hbody _)⟩
  rw [underWriteLock, OptimisticLockTable.Unlocked.spinWriteLock hs]
  rfl

/-! ## Eviction -/

@[simp] lemma lockTable_writeBack (s : Adapter V) (k : ℕ) (tp : TaggedPayload V) :
    (writeBack cfg s k tp).lockTable = s.lockTable := by
  simp only [writeBack]
  split_ifs <;> rfl

@[simp] lemma hotBtree_writeBack (s : Adapter V) (k : ℕ) (tp : TaggedPayload V) :
    (writeBack cfg s k tp).hotBtree = s.hotBtree := by
  simp only [writeBack]
  split_ifs <;> rfl

@[simp] lemma clock_writeBack (s : Adapter V) (k : ℕ) (tp : TaggedPayload V) :
    (writeBack cfg s k tp).clock = s.clock := by
  simp only [writeBack]
  split_ifs <;> rfl

lemma coldBtree_writeBack (s : Adapter V) (k a : ℕ) (tp : TaggedPayload V) :
    (writeBack cfg s k tp).coldBtree[a]? =
      if k = a then demoted cfg.inclusive tp.data s.coldBtree[k]? else s.coldBtree[a]? := by
  cases hi : cfg.inclusive
  · simp only [writeBack, hi, Bool.false_eq_true, if_false, insertColdPartition,
      getElem?_insertNew, demoted, demote, data]
    cases s.coldBtree[k]? <;> rfl
  cases hm : tp.modified
  · simp only [writeBack, hi, hm, if_true, Bool.false_eq_true, if_false, demoted,
      demote, data]
    split_ifs with hka
    · rw [hka]
    · rfl
  · simp [writeBack, hi, hm, upsertColdPartition, getElem?_insert, demoted, demote,
      data]

/-- The copy of the scan and what the hot tree holds now agree on what the eviction reads. -/
def Victim.Fresh (ch : Choices V) (s : Adapter V) (victim : Victim V) (r : HotRecord V) : Prop :=
  s.hotBtree[victim.key]? = some r ∧
    (r.asTagged (ch.overread victim.key)).data = victim.payload.data

lemma victimPayload_of_fresh {victim : Victim V}
    (h : victim.Fresh ch s r) (g : OptimisticLockGuard) :
    (s.victimPayload ch victim g).data = (r.asTagged (ch.overread victim.key)).data := by
  simp only [victimPayload, h.1]
  split_ifs
  · rfl
  · exact h.2.symm

/-- What the eviction of one victim does. -/
structure EvictsOne (cfg : Config) (ch : Choices V) (s : Adapter V) (k : ℕ) (r : HotRecord V)
    (s' : Adapter V) : Prop where
  unlocked : s'.Unlocked
  clock : s'.clock = s.clock
  hot : ∀ a, s'.hotBtree[a]? = if k = a then none else s.hotBtree[a]?
  cold : ∀ a, s'.coldBtree[a]? =
    if k = a then Cell.demoted cfg.inclusive (r.asTagged (ch.overread k)).data s.coldBtree[k]?
    else s.coldBtree[a]?

lemma evictOne_spec {cfg : Config} (hs : s.Unlocked)
    {victim : Victim V} (hfresh : victim.Fresh ch s r) :
    EvictsOne cfg ch s victim.key r (evictOne cfg ch s victim) := by
  have hlock := writeLock_of_even
    (construct (s.word victim.key)) (hs.word victim.key)
  simp only [evictOne, hlock, if_true]
  refine ⟨hs.release ?_, ?_, fun a => ?_, fun a => ?_⟩
  · simp [removeHot]
  · simp [removeHot]
  · simp [removeHot, getElem?_removeKey]
  · have hfresh' : victim.Fresh ch (s.setWord victim.key (u64 (s.word victim.key + 1))) r := hfresh
    simp [removeHot, coldBtree_writeBack, victimPayload_of_fresh hfresh']

/-- The key's record was evicted: it left the hot tree, and the cold tree got what a demotion
leaves. -/
def EvictedAt (ch : Choices V) (s s' : Adapter V) (a : ℕ) : Prop :=
  ∃ r, s.hotBtree[a]? = some r ∧ s'.hotBtree[a]? = none ∧
    s'.coldBtree[a]? =
      Cell.demoted cfg.inclusive (r.asTagged (ch.overread a)).data s.coldBtree[a]?

/-- What the eviction of a list of keys does. -/
structure EvictsAll (cfg : Config) (ch : Choices V) (s : Adapter V) (keys : List ℕ)
    (s' : Adapter V) : Prop where
  unlocked : s'.Unlocked
  clock : s'.clock = s.clock
  evicted : ∀ a ∈ keys, EvictedAt cfg ch s s' a
  kept : ∀ a ∉ keys, s'.hotBtree[a]? = s.hotBtree[a]? ∧ s'.coldBtree[a]? = s.coldBtree[a]?

/-- **The eviction loop.**  Every victim is evicted and nothing else changes. -/
lemma foldl_evictOne_spec {victims : List (Victim V)}
    (hs : s.Unlocked) (hfresh : ∀ w ∈ victims, ∃ r, w.Fresh ch s r)
    (hkeys : victims.Pairwise (fun w w' => w.key ≠ w'.key)) :
    EvictsAll cfg ch s (victims.map Victim.key) (victims.foldl (evictOne cfg ch) s) := by
  induction victims generalizing s with
  | nil => exact ⟨hs, rfl, by simp, by simp⟩
  | cons w victims ih =>
    obtain ⟨hne, hkeys⟩ := List.pairwise_cons.1 hkeys
    obtain ⟨r, hr⟩ := hfresh w (by simp)
    have hone : EvictsOne cfg ch s w.key r (evictOne cfg ch s w) := evictOne_spec hs hr
    have hrest := ih hone.unlocked (fun w' hw' => ?_) hkeys
    · refine ⟨hrest.unlocked, hrest.clock.trans hone.clock, fun a ha => ?_, fun a ha => ?_⟩
      · by_cases hmem : a ∈ victims.map Victim.key
        · -- a later victim: the first eviction did not touch its key
          obtain ⟨w', hw', rfl⟩ := List.mem_map.1 hmem
          obtain ⟨r', hr', hhot, hcold⟩ := hrest.evicted _ hmem
          rw [hone.hot, if_neg (hne w' hw')] at hr'
          rw [hone.cold, if_neg (hne w' hw')] at hcold
          exact ⟨r', hr', hhot, hcold⟩
        · obtain rfl : a = w.key := by
            rcases List.mem_cons.1 ha with rfl | h
            · rfl
            · exact absurd h hmem
          obtain ⟨hhot, hcold⟩ := hrest.kept _ hmem
          rw [hone.hot, if_pos rfl] at hhot
          rw [hone.cold, if_pos rfl] at hcold
          exact ⟨r, hr.1, hhot, hcold⟩
      · simp only [List.map_cons, List.mem_cons, not_or] at ha
        obtain ⟨hhot, hcold⟩ := hrest.kept a ha.2
        rw [List.foldl_cons, hhot, hcold, hone.hot, hone.cold, if_neg (Ne.symm ha.1),
          if_neg (Ne.symm ha.1)]
        exact ⟨rfl, rfl⟩
    · obtain ⟨r', hhot, hdata⟩ := hfresh w' (by simp [hw'])
      exact ⟨r', by rw [hone.hot, if_neg (hne w' hw')]; exact hhot, hdata⟩

/-! ## The scan of the eviction -/

lemma examine_of_referenced {key : ℕ}
    (h : (r.asTagged (ch.overread key)).referenced = true) (word : ℕ) :
    examine ch word key r =
      (r.mapTagged (fun tp => tp.decReferenceCount.clearReferenced), none) := by
  simp [examine, h]

lemma examine_of_not_referenced {key : ℕ}
    (h : (r.asTagged (ch.overread key)).referenced = false) (word : ℕ) :
    examine ch word key r =
      (r.mapTagged decReferenceCount,
        if word % 2 = 0 then some ⟨key, (r.asTagged (ch.overread key)).decReferenceCount, word⟩
        else none) := by
  by_cases heven : word % 2 = 0
  · simp [examine, h, heven, readLock_of_even _ heven]
  · have hodd : word % 2 = 1 := by omega
    simp [examine, h, hodd, readLock_of_odd _ hodd]

/-- A victim carries its key and a copy of the record as the callback leaves it. -/
lemma examine_victim {word key : ℕ} {w : Victim V} (h : (examine ch word key r).2 = some w) :
    w.key = key ∧
      ((examine ch word key r).1.asTagged (ch.overread key)).data = w.payload.data := by
  cases href : (r.asTagged (ch.overread key)).referenced
  · rw [examine_of_not_referenced href] at h ⊢
    by_cases heven : word % 2 = 0
    · simp only [heven, if_true, some.injEq] at h
      subst h
      refine ⟨rfl, ?_⟩
      rw [data_asTagged_mapTagged data_decReferenceCount,
        data_decReferenceCount]
    · simp [heven] at h
  · simp [examine_of_referenced href] at h

/-- On the records of a tree the scan is a loop over the keys of the range: it stops behind the
end key, and the keys come in ascending order. -/
lemma evictScan_eq (ch : Choices V) (locks : OptimisticLockTable) (endKey : ℕ)
    {l : List (ℕ × HotRecord V)} (hl : l.Pairwise (fun e e' => e.1 < e'.1))
    (hot : TreeMap ℕ (HotRecord V)) :
    evictScan ch locks endKey l hot =
      ((l.filter (fun e => e.1 ≤ endKey)).foldl
          (fun hot e => hot.insert e.1 (examine ch (locks (wordPos e.1)) e.1 e.2).1) hot,
        (l.filter (fun e => e.1 ≤ endKey)).filterMap
          (fun e => (examine ch (locks (wordPos e.1)) e.1 e.2).2)) := by
  induction l generalizing hot with
  | nil => rfl
  | cons e l ih =>
    obtain ⟨key, r⟩ := e
    obtain ⟨hlt, hl⟩ := List.pairwise_cons.1 hl
    -- once the end key is reached, nothing of the rest is in the range
    have hrest : endKey ≤ key → l.filter (fun e => decide (e.1 ≤ endKey)) = [] := by
      intro hle
      refine List.filter_eq_nil_iff.2 (fun e he => ?_)
      have := hlt e he
      simp only at this
      simp only [decide_eq_true_eq]
      omega
    by_cases hgt : key > endKey
    · have hnot : ¬ key ≤ endKey := by omega
      simp [evictScan, hgt, hnot, hrest (by omega)]
    have hle : key ≤ endKey := by omega
    by_cases hge : key ≥ endKey
    · rcases hv : (examine ch (locks (wordPos key)) key r).2 with _ | w <;>
        simp [evictScan, hgt, hle, hge, hrest hge, hv]
    · rcases hv : (examine ch (locks (wordPos key)) key r).2 with _ | w <;>
        simp [evictScan, hgt, hle, hge, ih hl, hv]

/-- What the scan leaves in the hot tree and which victims it picks. -/
structure ScanSpec (ch : Choices V) (locks : OptimisticLockTable) (startKey endKey : ℕ)
    (hot hot' : TreeMap ℕ (HotRecord V)) (victims : List (Victim V)) : Prop where
  outside : ∀ a, (startKey ≤ a → a ≤ endKey → hot[a]? = none) → hot'[a]? = hot[a]?
  inside : ∀ a r, startKey ≤ a → a ≤ endKey → hot[a]? = some r →
    hot'[a]? = some (examine ch (locks (wordPos a)) a r).1
  victim : ∀ w, w ∈ victims ↔ ∃ a r, startKey ≤ a ∧ a ≤ endKey ∧ hot[a]? = some r ∧
    (examine ch (locks (wordPos a)) a r).2 = some w
  distinct : victims.Pairwise (fun w w' => w.key ≠ w'.key)

lemma evictScan_spec (ch : Choices V) (locks : OptimisticLockTable) (startKey endKey : ℕ)
    (hot : TreeMap ℕ (HotRecord V)) :
    ScanSpec ch locks startKey endKey hot
      (evictScan ch locks endKey (scanFrom hot startKey) hot).1
      (evictScan ch locks endKey (scanFrom hot startKey) hot).2 := by
  rw [evictScan_eq ch locks endKey (pairwise_scanFrom hot startKey)]
  set l := (scanFrom hot startKey).filter (fun e => decide (e.1 ≤ endKey)) with hl
  have hmem : ∀ a r, (a, r) ∈ l ↔ startKey ≤ a ∧ a ≤ endKey ∧ hot[a]? = some r := by
    intro a r
    simp only [hl, List.mem_filter, mem_scanFrom, decide_eq_true_eq]
    tauto
  have hsorted : l.Pairwise (fun e e' => e.1 < e'.1) := (pairwise_scanFrom hot startKey).filter _
  refine ⟨fun a ha => ?_, fun a r h₁ h₂ hr => ?_, fun w => ?_, ?_⟩
  · refine foldl_obs_of_notMem (fun t a => t[a]?) Prod.fst
      (fun t e a hne => by rw [getElem?_insert, if_neg hne]) l hot (fun e he => ?_)
    rintro rfl
    obtain ⟨h₁, h₂, hr⟩ := (hmem e.1 e.2).1 he
    simp [ha h₁ h₂] at hr
  · exact foldl_obs_of_mem (fun t a => t[a]?) Prod.fst
      (g := fun e _ => some (examine ch (locks (wordPos e.1)) e.1 e.2).1)
      (fun t e a hne => by rw [getElem?_insert, if_neg hne])
      (fun t e => by rw [getElem?_insert, if_pos rfl]) hot
      (hsorted.imp (fun h => h.ne)) ((hmem a r).2 ⟨h₁, h₂, hr⟩)
  · simp [hmem, and_assoc]
  · refine (List.pairwise_filterMap.2 (hsorted.imp ?_))
    intro e e' hlt w hw w' hw'
    rw [(examine_victim hw).1, (examine_victim hw').1]
    exact hlt.ne

/-! ## A whole eviction -/

/-- What `evict_a_bunch` does once it has claimed a range. -/
structure Sweeps (cfg : Config) (ch : Choices V) (s : Adapter V) (range : ClaimedRange)
    (s' : Adapter V) : Prop where
  unlocked : s'.Unlocked
  outside : ∀ a, (range.startKey ≤ a → a ≤ range.endKey → s.hotBtree[a]? = none) →
    s'.hotBtree[a]? = s.hotBtree[a]? ∧ s'.coldBtree[a]? = s.coldBtree[a]?
  referenced : ∀ a r, range.startKey ≤ a → a ≤ range.endKey → s.hotBtree[a]? = some r →
    (r.asTagged (ch.overread a)).referenced = true →
    s'.hotBtree[a]? = some (r.mapTagged (fun tp => tp.decReferenceCount.clearReferenced)) ∧
      s'.coldBtree[a]? = s.coldBtree[a]?
  notReferenced : ∀ a r, range.startKey ≤ a → a ≤ range.endKey → s.hotBtree[a]? = some r →
    (r.asTagged (ch.overread a)).referenced = false → EvictedAt cfg ch s s' a

/-- **A whole eviction.**  In an unlocked adapter every record of the claimed range that is not
referenced is evicted, and the referenced ones lose their reference bit. -/
lemma evictABunch_sweeps (cfg : Config) (ch : Choices V) {s : Adapter V} (hs : s.Unlocked)
    {range : ClaimedRange} {clock : EvictionClock}
    (hclaim : s.clock.claim ch.boundary = some (range, clock)) :
    Sweeps cfg ch s range (s.evictABunch cfg ch) ∧
      (s.evictABunch cfg ch).clock = clock.finish range.round := by
  have hscan := evictScan_spec ch s.lockTable range.startKey range.endKey s.hotBtree
  rcases hres : evictScan ch s.lockTable range.endKey (scanFrom s.hotBtree range.startKey)
    s.hotBtree with ⟨hot, victims⟩
  simp only [hres] at hscan
  have hfresh : ∀ w ∈ victims, ∃ r, w.Fresh ch { s with hotBtree := hot, clock := clock } r := by
    intro w hw
    obtain ⟨a, r, h₁, h₂, hr, hex⟩ := (hscan.victim w).1 hw
    obtain ⟨rfl, hdata⟩ := examine_victim hex
    exact ⟨_, hscan.inside _ r h₁ h₂ hr, hdata⟩
  have hloop := foldl_evictOne_spec cfg
    (s := { s with hotBtree := hot, clock := clock }) hs hfresh hscan.distinct
  have hdef : s.evictABunch cfg ch =
      { victims.foldl (evictOne cfg ch) { s with hotBtree := hot, clock := clock } with
        clock := (victims.foldl (evictOne cfg ch)
          { s with hotBtree := hot, clock := clock }).clock.finish range.round } := by
    simp [evictABunch, hclaim, hres]
  -- the keys of the victims are the keys of the range that are not referenced
  have hkeys : ∀ a, a ∈ victims.map Victim.key ↔ ∃ r, range.startKey ≤ a ∧ a ≤ range.endKey ∧
      s.hotBtree[a]? = some r ∧ (r.asTagged (ch.overread a)).referenced = false := by
    intro a
    simp only [List.mem_map, hscan.victim]
    constructor
    · rintro ⟨w, ⟨a', r, h₁, h₂, hr, hex⟩, rfl⟩
      obtain ⟨rfl, -⟩ := examine_victim hex
      refine ⟨r, h₁, h₂, hr, ?_⟩
      by_contra href
      simp [examine_of_referenced (Bool.of_not_eq_false href)] at hex
    · rintro ⟨r, h₁, h₂, hr, href⟩
      have hex : (examine ch (s.lockTable (wordPos a)) a r).2 =
          some ⟨a, (r.asTagged (ch.overread a)).decReferenceCount, s.lockTable (wordPos a)⟩ := by
        simp [examine_of_not_referenced href, hs (wordPos a)]
      exact ⟨_, ⟨a, r, h₁, h₂, hr, hex⟩, rfl⟩
  rw [hdef]
  refine ⟨⟨hloop.unlocked, fun a ha => ?_, fun a r h₁ h₂ hr href => ?_,
    fun a r h₁ h₂ hr href => ?_⟩, by rw [hloop.clock]⟩
  · have hnot : a ∉ victims.map Victim.key := by
      rw [hkeys]
      rintro ⟨r, h₁, h₂, hr, -⟩
      simp [ha h₁ h₂] at hr
    obtain ⟨hhot, hcold⟩ := hloop.kept a hnot
    exact ⟨hhot.trans (hscan.outside a ha), hcold⟩
  · have hnot : a ∉ victims.map Victim.key := by
      rw [hkeys]
      rintro ⟨r', -, -, hr', href'⟩
      obtain rfl := some.inj (hr.symm.trans hr')
      simp [href] at href'
    obtain ⟨hhot, hcold⟩ := hloop.kept a hnot
    refine ⟨hhot.trans ((hscan.inside a r h₁ h₂ hr).trans ?_), hcold⟩
    rw [examine_of_referenced href]
  · obtain ⟨r', hr', hhot, hcold⟩ := hloop.evicted a ((hkeys a).2 ⟨r, h₁, h₂, hr, href⟩)
    refine ⟨r, hr, hhot, hcold.trans ?_⟩
    obtain rfl := some.inj ((hscan.inside a r h₁ h₂ hr).symm.trans hr')
    rw [examine_of_not_referenced href,
      data_asTagged_mapTagged data_decReferenceCount]

/-- The key's record was left alone, its bookkeeping bits apart. -/
def KeptAt (s s' : Adapter V) (a : ℕ) : Prop :=
  s'.hotBtree[a]?.map HotRecord.content = s.hotBtree[a]?.map HotRecord.content ∧
    s'.coldBtree[a]? = s.coldBtree[a]?

lemma Sweeps.at {cfg : Config} {ch : Choices V} {range : ClaimedRange}
    (h : Sweeps cfg ch s range s') (a : ℕ) : KeptAt s s' a ∨ EvictedAt cfg ch s s' a := by
  by_cases hout : range.startKey ≤ a → a ≤ range.endKey → s.hotBtree[a]? = none
  · obtain ⟨hhot, hcold⟩ := h.outside a hout
    exact Or.inl ⟨by rw [hhot], hcold⟩
  push Not at hout
  obtain ⟨h₁, h₂, hsome⟩ := hout
  obtain ⟨r, hr⟩ := ne_none_iff_exists'.1 hsome
  cases href : (r.asTagged (ch.overread a)).referenced
  · exact Or.inr (h.notReferenced a r h₁ h₂ hr href)
  · obtain ⟨hhot, hcold⟩ := h.referenced a r h₁ h₂ hr href
    refine Or.inl ⟨?_, hcold⟩
    rw [hhot, hr, map_some, map_some, content_mapTagged
      (fun tp => (tp.decReferenceCount.data_clearReferenced).trans tp.data_decReferenceCount)]

/-- **What an eviction does to a key**: it leaves the key alone or evicts it. -/
lemma evictABunch_at (cfg : Config) (ch : Choices V) {s : Adapter V} (hs : s.Unlocked) :
    (s.evictABunch cfg ch).Unlocked ∧
      ∀ a, KeptAt s (s.evictABunch cfg ch) a ∨ EvictedAt cfg ch s (s.evictABunch cfg ch) a := by
  rcases hclaim : s.clock.claim ch.boundary with _ | ⟨range, clock⟩
  · have hdef : s.evictABunch cfg ch = s := by simp [evictABunch, hclaim]
    rw [hdef]
    exact ⟨hs, fun a => Or.inl ⟨rfl, rfl⟩⟩
  · have hsweep := (evictABunch_sweeps cfg ch hs hclaim).1
    exact ⟨hsweep.unlocked, hsweep.at⟩

lemma tryEviction_at (cfg : Config) (ch : Choices V) {s : Adapter V} (hs : s.Unlocked) :
    (s.tryEviction cfg ch).Unlocked ∧
      ∀ a, KeptAt s (s.tryEviction cfg ch) a ∨ EvictedAt cfg ch s (s.tryEviction cfg ch) a := by
  rw [tryEviction]
  split_ifs
  · exact evictABunch_at cfg ch hs
  · exact ⟨hs, fun a => Or.inl ⟨rfl, rfl⟩⟩

lemma KeptAt.cell_eq {a : ℕ} (h : KeptAt s s' a) : s'.cell a = s.cell a :=
  cell_congr h.1 h.2

/-- Evicting a record that is not a deletion mark demotes the cell. -/
lemma EvictedAt.cell_eq {cfg : Config} {ch : Choices V} {a : ℕ}
    (h : EvictedAt cfg ch s s' a) (hmark : ¬ s.Marked a) :
    s'.cell a = (s.cell a).demote cfg.inclusive := by
  obtain ⟨r, hr, hhot, hcold⟩ := h
  cases r with
  | tagged tp =>
    rw [cell_of_none hhot, cell_of_tagged hr, hcold]
    rfl
  | deletedMark => exact absurd hr hmark

lemma EvictedAt.not_marked {cfg : Config} {ch : Choices V} {a : ℕ}
    (h : EvictedAt cfg ch s s' a) : ¬ s'.Marked a := by
  obtain ⟨r, -, hhot, -⟩ := h
  simp [Marked, hhot]

/-- To a key without a deletion mark an eviction is maintenance. -/
lemma maint_of_kept_or_evicted {cfg : Config} {ch : Choices V} {a : ℕ}
    (h : KeptAt s s' a ∨ EvictedAt cfg ch s s' a) (hmark : ¬ s.Marked a) :
    Cell.Maint cfg.inclusive (s.cell a) (s'.cell a) ∧ ¬ s'.Marked a := by
  rcases h with h | h
  · exact ⟨Cell.Maint.of_eq h.cell_eq, fun hm => hmark ((marked_congr h.1).1 hm)⟩
  · exact ⟨h.cell_eq hmark ▸ Cell.Maint.demote _ _, h.not_marked⟩

end Adapter

end TwoTree.ConcurrentTwoBTree
