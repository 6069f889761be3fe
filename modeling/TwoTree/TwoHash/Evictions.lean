import TwoTree.TwoHash.Refinement

/-!
# The item count and the clock hand of the hash adapter

`hot_partition_item_count` is changed beside the operations on the hot table, not by them.  An
eviction takes one item off for every record it removes, and the operations add one for every record
they try to insert.  Two of them also add one where no record comes in: `insert` of a key that is in the
hot table, and the admission of `lookup` and `update` when the bucket is full.  `itemCount_eq` says that
these are the only ways in which the count leaves the number of records, and that it never comes back:
after any run, it exceeds the number of records by the number of calls that miscounted.

An eviction by records walks the clock hand to the next bucket that has records.  If there is none, it
walks forever (`evictABunchRecords_returns_iff`).
-/

namespace TwoTree

open Std Lib Lib.OrderedMap LockManager ConcurrentTwoBTree Tiered Store Option TreeMap
open OptimisticLockTable

variable {V : Type*}

namespace Tiered.Store

variable {s : Store V} {k : ℕ} (cfg : Config)

/-! ## Counting in the store -/

/-- By how much the item count exceeds the number of hot records. -/
def excess (s : Store V) : ℤ := s.hotPartitionItemCount - s.hot.size

/-- Whatever is overwritten in the hot map was counted before. -/
lemma excess_insert_hot {tp : TaggedPayload V} (h : s.hot[k]? = some tp) (tp' : TaggedPayload V) :
    excess { s with hot := s.hot.insert k tp' } = s.excess := by
  simp [excess, size_insert_of_some h]

/-- A record that comes in is counted; so is one that does not. -/
lemma excess_insertHotPartition (s : Store V) (k : ℕ) (v : V) (modified referenced : Bool) :
    (s.insertHotPartition k v modified referenced).excess =
      s.excess + if k ∈ s.hot then 1 else 0 := by
  rcases hhot : s.hot[k]? with _ | tp
  · have hk : k ∉ s.hot := by simp [mem_iff_isSome_getElem?, hhot]
    simp only [excess, insertHotPartition, size_insertNew_of_none hhot, hk, if_false]
    push_cast
    ring
  · have hk : k ∈ s.hot := mem_of_getElem? hhot
    simp only [excess, insertHotPartition, insertNew_of_some hhot, hk, if_true]
    ring

lemma excess_removeHot {tp : TaggedPayload V} (h : s.hot[k]? = some tp) :
    (s.removeHot k).excess = s.excess := by
  have hsize := size_removeKey_of_some h
  simp only [excess, removeHot]
  omega

/-- A move that takes a record out of the hot map takes it off the count. -/
lemma excess_writeBackThenRemove {tp : TaggedPayload V} (h : s.hot[k]? = some tp)
    (tp' : TaggedPayload V) : (s.writeBackThenRemove cfg k tp').excess = s.excess := by
  obtain ⟨cold, hcold⟩ := writeBack_frame cfg s k tp'
  rw [writeBackThenRemove, hcold]
  exact excess_removeHot (s := { s with cold := cold }) h

/-- The moves of the adapters. -/
structure IsCountedMove (inclusive : Bool) (move : Store V → ℕ → TaggedPayload V → Store V) : Prop
    extends IsMove inclusive move where
  excess : ∀ s k tp tp', s.hot[k]? = some tp → (move s k tp').excess = s.excess

lemma isCountedMove_writeBackThenRemove :
    IsCountedMove (V := V) cfg.inclusive (writeBackThenRemove cfg) :=
  ⟨isMove_writeBackThenRemove cfg, fun _ _ _ tp' h => excess_writeBackThenRemove cfg h tp'⟩

lemma isCountedMove_removeThenWriteBack :
    IsCountedMove (V := V) cfg.inclusive (removeThenWriteBack cfg) := by
  refine ⟨isMove_removeThenWriteBack cfg, fun s k _ tp' h => ?_⟩
  rw [removeThenWriteBack_eq]
  exact excess_writeBackThenRemove cfg h tp'

/-! ## Counting through an eviction -/

section Evict

variable {inclusive : Bool} {move : Store V → ℕ → TaggedPayload V → Store V}

lemma Victim.Fresh.exists_hot {victim : Victim V} (h : victim.Fresh s) :
    ∃ tp, s.hot[victim.key]? = some tp := by
  obtain ⟨tp, htp, -⟩ := map_eq_some_iff.1 h
  exact ⟨tp, htp⟩

lemma excess_evictOne (hmove : IsCountedMove inclusive move) {victim : Victim V}
    (hfresh : victim.Fresh s) : (evictOne move s victim).excess = s.excess := by
  obtain ⟨tp, htp⟩ := hfresh.exists_hot
  unfold evictOne
  dsimp only
  split_ifs
  · rcases victimPayload _ victim _ with _ | tp'
    · rfl
    · exact hmove.excess { s with lockTable := _ } victim.key tp tp' htp
  · rfl

lemma excess_foldl_evictOne (hmove : IsCountedMove inclusive move) (victims : List (Victim V))
    (hs : s.Unlocked) (hfresh : ∀ w ∈ victims, w.Fresh s)
    (hkeys : victims.Pairwise (fun w w' => w.key ≠ w'.key)) :
    (victims.foldl (evictOne move) s).excess = s.excess := by
  induction victims generalizing s with
  | nil => rfl
  | cons w victims ih =>
    obtain ⟨hne, hkeys⟩ := List.pairwise_cons.1 hkeys
    obtain ⟨hunlocked, hcell⟩ := evictOne_spec hmove.toIsMove hs (hfresh w (by simp))
    have hfresh' : ∀ w' ∈ victims, w'.Fresh (evictOne move s w) := by
      intro w' hw'
      rw [Victim.Fresh, hcell, Function.update_of_ne (hne w' hw').symm]
      exact hfresh w' (by simp [hw'])
    rw [List.foldl_cons, ih hunlocked hfresh' hkeys, excess_evictOne hmove (hfresh w (by simp))]

/-- The walk overwrites records, and adds none. -/
lemma size_examineKeys (locks : OptimisticLockTable) (keys : List ℕ)
    (hot : TreeMap ℕ (TaggedPayload V)) : (examineKeys locks keys hot).1.size = hot.size := by
  induction keys generalizing hot with
  | nil => rfl
  | cons key rest ih =>
    rcases htp : hot[key]? with _ | tp
    · simp only [examineKeys, htp]
      exact ih hot
    · simp only [examineKeys, htp]
      rw [ih, size_insert_of_some htp]

/-- **An eviction takes as many items off as it removes records.** -/
lemma excess_evictKeys (hmove : IsCountedMove inclusive move) (hs : s.Unlocked) {keys : List ℕ}
    (hkeys : keys.Nodup) : (evictKeys move s keys).excess = s.excess := by
  obtain ⟨hdata, hfresh, hsub⟩ := examineKeys_spec s.lockTable keys s.hot
  have hloop := excess_foldl_evictOne hmove (examineKeys s.lockTable keys s.hot).2
    (s := { s with hot := (examineKeys s.lockTable keys s.hot).1 }) hs
    (fun w hw => (hdata w.key).trans (hfresh w hw))
    (List.pairwise_map.1 (hkeys.sublist hsub))
  refine hloop.trans ?_
  simp [excess, size_examineKeys]

end Evict

/-! ## Counting through the operations -/

/-- No lock is held, and the item count is off by `n`. -/
structure Counted (s : Store V) (n : ℤ) : Prop where
  unlocked : s.Unlocked
  excess : s.excess = n

lemma Counted.evictKeys {n : ℤ} (h : s.Counted n) {inclusive : Bool}
    {move : Store V → ℕ → TaggedPayload V → Store V} (hmove : IsCountedMove inclusive move)
    {keys : List ℕ} (hkeys : keys.Nodup) : (evictKeys move s keys).Counted n where
  unlocked := (evictKeys_spec hmove.toIsMove h.unlocked hkeys).1
  excess := (excess_evictKeys hmove h.unlocked hkeys).trans h.excess

lemma Counted.underWriteLock {n d : ℤ} {s' : Store V} {fuel : ℕ} (h : s.Counted n)
    {body : Store V → Store V} (hlocks : ∀ t, (body t).lockTable = t.lockTable)
    (hbody : ∀ locks, (body { s with lockTable := locks }).excess = s.excess + d)
    (hrun : s.underWriteLock fuel k body = some s') : s'.Counted (n + d) := by
  cases fuel with
  | zero => simp [Store.underWriteLock, spinWriteLock] at hrun
  | succ fuel =>
    rw [Store.underWriteLock, OptimisticLockTable.Unlocked.spinWriteLock h.unlocked] at hrun
    obtain rfl := some.inj hrun
    refine ⟨?_, (hbody _).trans (by rw [h.excess])⟩
    change OptimisticLockTable.Unlocked (release (body _).lockTable k _)
    rw [hlocks]
    exact OptimisticLockTable.Unlocked.release h.unlocked k _

lemma excess_moveUp (admission : Store V → ℕ → V → Bool × Store V) (s : Store V)
    (k : ℕ) (v : V) : (s.moveUp cfg admission k v).excess = (admission s k v).2.excess := by
  rw [moveUp_eq]
  split_ifs
  · rfl
  · rfl

/-- **A lookup counts only where it migrates**, and then as the admission does. -/
lemma Counted.lookupLoop {n d : ℤ} {s' : Store V} {fuel : ℕ} {res : Option V} {ok : Bool}
    {admission : Store V → ℕ → V → Bool × Store V} (h : s.Counted n) (hadm : IsAdmission ok admission)
    (hd : ∀ t v, t.hot[k]? = none → (admission t k v).2.excess = t.excess + d) (cfg : Config)
    (migrates : Bool)
    (hrun : Store.lookupLoop cfg migrates admission k fuel s = some (s', res)) :
    s'.Counted (n + if k ∉ s.hot ∧ k ∈ s.cold ∧ migrates then d else 0) := by
  cases fuel with
  | zero => simp [Store.lookupLoop] at hrun
  | succ fuel =>
    rcases lookupLoop_cases hadm cfg migrates h.unlocked fuel k with
      ⟨tp, hhot, hcase⟩ | ⟨hhot, hstay, hcase⟩ |
      ⟨v, locks, locks', hhot, hcold, hmigrates, hunlocked, hcase⟩
    · obtain ⟨rfl, -⟩ := Prod.mk.inj (some.inj (hcase.symm.trans hrun))
      rw [if_neg (fun hnot => hnot.1 (mem_of_getElem? hhot)), add_zero]
      exact ⟨h.unlocked, (excess_insert_hot hhot _).trans h.excess⟩
    · obtain ⟨rfl, -⟩ := Prod.mk.inj (some.inj (hcase.symm.trans hrun))
      rw [if_neg, add_zero]
      · exact h
      · rintro ⟨-, hin, hmig⟩
        rcases hstay with hcold | hstay
        · simp [mem_iff_isSome_getElem?, hcold] at hin
        · simp [hstay] at hmig
    · obtain ⟨rfl, -⟩ := Prod.mk.inj (some.inj (hcase.symm.trans hrun))
      have hnot : k ∉ s.hot := by simp [mem_iff_isSome_getElem?, hhot]
      rw [if_pos ⟨hnot, mem_of_getElem? hcold, hmigrates⟩]
      refine ⟨hunlocked, ?_⟩
      calc Store.excess { moveUp cfg admission { s with lockTable := locks } k v with
              lockTable := locks' }
          = (moveUp cfg admission { s with lockTable := locks } k v).excess := rfl
        _ = s.excess + d := by
            rw [excess_moveUp]
            exact hd { s with lockTable := locks } v hhot
        _ = n + d := by rw [h.excess]

end Tiered.Store

namespace TwoHash.Adapter

variable {cfg : HashConfig} {s s' s₁ : Adapter V} {k fuel : ℕ} {n : ℤ} {ch : Choices}

/-! ## Calls that miscount -/

/-- Whether a call counts an item that does not come in, in the state after the evictions it begins
with: an `insert` of a key that is hot, or a migration that is refused. -/
def miscounts (cfg : HashConfig) (s₁ : Adapter V) (ch : Choices) : Op V → Bool
  | .insert k _ => k ∈ s₁.store.hot
  | .lookup k | .update k _ =>
    (k ∉ s₁.store.hot ∧ k ∈ s₁.store.cold ∧ cfg.shouldMigrate ch.migrateDraw) ∧ ¬ admits ch
  | .put _ _ | .evict => false

/-- The evictions that a call begins with. -/
def evictionsBefore (fuel : ℕ) (cfg : HashConfig) (s : Adapter V) : Op V × Choices →
    Option (Adapter V)
  | (.evict, _) => some s
  | (_, ch) => s.tryEviction fuel cfg ch

/-- The states that calls lead to, with the number of calls that miscounted. -/
inductive Run (cfg : HashConfig) (s₀ : Adapter V) : Adapter V → ℕ → Prop
  | start : Run cfg s₀ s₀ 0
  | call {s s₁ s' : Adapter V} {n fuel : ℕ} {i : Op V × Choices} : Run cfg s₀ s n →
      s.evictionsBefore fuel cfg i = some s₁ → s.step fuel cfg i = some s' →
      Run cfg s₀ s' (n + (s₁.miscounts cfg i.2 i.1).toNat)

/-- No lock is held, the item count is off by `n`, and the keys set aside are distinct. -/
def Counted (n : ℤ) (s : Adapter V) : Prop :=
  s.store.Counted n ∧ s.currentBucketKeysForEviction.Nodup

lemma counted_init (refCounter : Fin 2 → ℕ) (buckets : ℕ) :
    Counted 0 (init refCounter buckets : Adapter V) :=
  ⟨⟨unlocked_init, rfl⟩, List.nodup_nil⟩

lemma keptByEvictions_counted (cfg : HashConfig) (n : ℤ) :
    KeptByEvictions cfg (Counted n : Adapter V → Prop) :=
  keptByEvictions_of_evictKeys (Q := fun t : Store V => t.Counted n)
    (fun _ _ hkeys h => h.evictKeys (isCountedMove_removeThenWriteBack cfg.toConfig) hkeys)
    (fun _ _ hkeys h => h.evictKeys (isCountedMove_writeBackThenRemove cfg.toConfig) hkeys)

/-- What the admission of `lookup` and `update` counts for a key that is not hot. -/
lemma excess_admitDefault (ch : Choices) {t : Store V} (h : t.hot[k]? = none) (v : V) :
    (admitDefault ch t k v).2.excess = t.excess + if admits ch then 0 else 1 := by
  have hk : k ∉ t.hot := by simp [mem_iff_isSome_getElem?, h]
  have hinsert : (t.insertHotPartition k v false true).excess = t.excess := by
    simp [excess_insertHotPartition, hk]
  unfold admitDefault admits admitElementMightFail admitElement
  by_cases hdraw : ch.admitDraw < 5
  · simpa [hdraw] using hinsert
  cases hroom : ch.room
  · simp only [hdraw, insertHotPartitionMightFail_of_none h]
    simp [excess]
    ring
  · simpa [hdraw, insertHotPartitionMightFail_of_none h] using hinsert

lemma excess_updateLocked (cfg : HashConfig) (ch : Choices) (k : ℕ) (v : V) (t : Store V) :
    (updateLocked cfg ch k v t).excess = t.excess +
      if k ∉ t.hot ∧ k ∈ t.cold ∧ cfg.shouldMigrate ch.migrateDraw then
        if admits ch then 0 else 1
      else 0 := by
  rcases hhot : t.hot[k]? with _ | tp
  · have hk : k ∉ t.hot := by simp [mem_iff_isSome_getElem?, hhot]
    rcases hcold : t.cold[k]? with _ | w
    · have hk' : k ∉ t.cold := by simp [mem_iff_isSome_getElem?, hcold]
      simp [updateLocked, updateInPlace_of_none hhot, hk']
    have hk' : k ∈ t.cold := mem_of_getElem? hcold
    simp only [updateLocked, updateInPlace_of_none hhot, hcold]
    by_cases hmigrate : cfg.shouldMigrate ch.migrateDraw = true
    · rw [if_pos hmigrate, if_pos ⟨hk, hk', hmigrate⟩, excess_moveUp,
        excess_admitDefault ch hhot]
    · rw [if_neg hmigrate, if_neg (fun h => hmigrate h.2.2), add_zero]
      rfl
  · have hk : k ∈ t.hot := mem_of_getElem? hhot
    simp only [updateLocked, updateInPlace_of_some hhot]
    rw [excess_insert_hot hhot]
    simp [hk]

lemma excess_putLocked (cfg : HashConfig) (k : ℕ) (v : V) (t : Store V) :
    (putLocked cfg k v t).excess = t.excess := by
  rcases hhot : t.hot[k]? with _ | tp
  · have hk : k ∉ t.hot := by simp [mem_iff_isSome_getElem?, hhot]
    simp only [putLocked, updateInPlace_of_none hhot]
    split_ifs
    · simp [admitElement, excess_insertHotPartition, hk]
    · have hk' : k ∉ (t.removeCold k).hot := hk
      rw [admitElement, excess_insertHotPartition, if_neg hk', add_zero]
      rfl
  · simp only [putLocked, updateInPlace_of_some hhot]
    exact excess_insert_hot hhot _

/-- The count of a migration that may be refused, as `miscounts` has it. -/
lemma toNat_miscounts (cfg : HashConfig) (s₁ : Adapter V) (ch : Choices) (k : ℕ) :
    ((s₁.miscounts cfg ch (.lookup k)).toNat : ℤ) =
      if k ∉ s₁.store.hot ∧ k ∈ s₁.store.cold ∧ cfg.shouldMigrate ch.migrateDraw then
        if admits ch then 0 else 1
      else 0 := by
  rw [miscounts]
  split_ifs with hmoves hadmits
  · simp [hadmits]
  · simp only [hmoves, hadmits]
    rfl
  · simp only [hmoves]
    rfl

lemma Counted.write (h : Counted n s) {d : ℤ} {body : Store V → Store V}
    (hwrite : s.write fuel cfg k ch body = some s') (hevict : s.tryEviction fuel cfg ch = some s₁)
    (hlocks : ∀ t, (body t).lockTable = t.lockTable)
    (hbody : ∀ locks, (body { s₁.store with lockTable := locks }).excess = s₁.store.excess + d) :
    Counted (n + d) s' := by
  have h₁ := (keptByEvictions_counted cfg n).tryEviction h hevict
  rw [Adapter.write, hevict, bind_some] at hwrite
  obtain ⟨t, hrun, rfl⟩ := map_eq_some_iff.1 hwrite
  exact ⟨h₁.1.underWriteLock hlocks hbody hrun, h₁.2⟩

/-- **One call** changes the excess of the count by one if it miscounts, and else not at all. -/
lemma Counted.step (h : Counted n s) {i : Op V × Choices}
    (hevict : s.evictionsBefore fuel cfg i = some s₁) (hstep : s.step fuel cfg i = some s') :
    Counted (n + (s₁.miscounts cfg i.2 i.1).toNat) s' := by
  obtain ⟨op, ch⟩ := i
  cases op with
  | insert k v =>
    refine h.write hstep hevict (fun _ => rfl) (fun locks => ?_)
    refine (excess_insertHotPartition _ k v true false).trans ?_
    by_cases hk : k ∈ s₁.store.hot
    · simp [miscounts, hk, excess]
    · simp [miscounts, hk, excess]
  | update k v =>
    refine h.write hstep hevict (lockTable_updateLocked cfg ch k v) (fun locks => ?_)
    have hcount := toNat_miscounts cfg s₁ ch k
    exact (excess_updateLocked cfg ch k v _).trans (by rw [← hcount]; rfl)
  | put k v =>
    refine h.write hstep hevict (lockTable_putLocked cfg k v) (fun locks => ?_)
    exact (excess_putLocked cfg k v _).trans (by simp [miscounts, excess])
  | lookup k =>
    obtain ⟨⟨t, res⟩, hlookup, rfl⟩ := map_eq_some_iff.1 hstep
    have h₁ := (keptByEvictions_counted cfg n).tryEviction h hevict
    have hevict' : s.tryEviction fuel cfg ch = some s₁ := hevict
    rw [Adapter.lookup, hevict', bind_some] at hlookup
    obtain ⟨⟨t', res'⟩, hrun, heq⟩ := map_eq_some_iff.1 hlookup
    obtain ⟨rfl, -⟩ := Prod.mk.inj heq
    refine ⟨?_, h₁.2⟩
    rw [toNat_miscounts]
    exact h₁.1.lookupLoop (isAdmission_admitDefault ch)
      (fun t v ht => excess_admitDefault ch ht v) cfg.toConfig _ hrun
  | evict =>
    obtain rfl := some.inj hevict
    have h' := (keptByEvictions_counted cfg n).evictABunch h hstep
    simpa [miscounts] using h'

lemma Run.counted {refCounter : Fin 2 → ℕ} {buckets n : ℕ}
    (h : Run cfg (init refCounter buckets) s n) : Counted n s := by
  induction h with
  | start => exact counted_init refCounter buckets
  | call _ hevict hstep ih =>
    push_cast
    exact ih.step hevict hstep

lemma mem_bucketKeys {b : ℕ} :
    k ∈ s.bucketKeys cfg ch b ↔ k ∈ s.store.hot ∧ cfg.bucketOf s.hotBuckets k = b := by
  rw [bucketKeys, unitKeys, (ch.order.perm b _).mem_iff, List.mem_filter, mem_keys]
  simp

/-- A bucket with records that are still to be scanned. -/
lemma seekRecords_of_lt
    (hseq : s.clockHandBucketRecordSeq < s.currentBucketKeysForEviction.length) :
    seekRecords cfg ch (fuel + 1) s = some s := by
  rw [seekRecords, if_neg (Nat.not_le.2 hseq)]

/-- With an empty hot table, the hand never stops at a bucket. -/
lemma seekRecords_of_empty (hempty : ∀ k, k ∉ s.store.hot)
    (hseq : s.currentBucketKeysForEviction.length ≤ s.clockHandBucketRecordSeq) :
    seekRecords cfg ch fuel s = none := by
  induction fuel generalizing s with
  | zero => rfl
  | succ fuel ih =>
    rw [seekRecords, if_pos hseq]
    refine ih (s := s.enterBucket cfg ch _) hempty ?_
    have hnil : s.bucketKeys cfg ch ((s.clockHandBucket + 1) % s.hotBuckets) = [] :=
      List.eq_nil_iff_forall_not_mem.2 (fun k hk => hempty k (mem_bucketKeys.1 hk).1)
    simp [enterBucket, hnil]

/-- The hand stops on its way to a bucket that has a record. -/
lemma exists_seekRecords (hk : k ∈ s.store.hot) (d : ℕ)
    (hd : (s.clockHandBucket + d + 1) % s.hotBuckets = cfg.bucketOf s.hotBuckets k) :
    ∃ s', seekRecords cfg ch (d + 2) s = some s' := by
  induction d generalizing s with
  | zero =>
    rw [seekRecords]
    split_ifs with hseq
    · have hmem : k ∈ s.bucketKeys cfg ch ((s.clockHandBucket + 1) % s.hotBuckets) :=
        mem_bucketKeys.2 ⟨hk, hd.symm⟩
      exact ⟨_, seekRecords_of_lt (s := s.enterBucket cfg ch _) (List.length_pos_of_mem hmem)⟩
    · exact ⟨s, rfl⟩
  | succ d ih =>
    rw [seekRecords]
    split_ifs with hseq
    · refine ih (s := s.enterBucket cfg ch _) hk ?_
      change ((s.clockHandBucket + 1) % s.hotBuckets + d + 1) % s.hotBuckets =
        cfg.bucketOf s.hotBuckets k
      rw [← hd, add_assoc, Nat.mod_add_mod]
      congr 1
      ring
    · exact ⟨s, rfl⟩

/-- Every bucket is ahead of the hand. -/
lemma exists_ahead (hand : ℕ) {b n : ℕ} (hb : b < n) : ∃ d, (hand + d + 1) % n = b := by
  refine ⟨n - 1 - hand % n + b, ?_⟩
  have hlt := Nat.mod_lt hand (Nat.zero_lt_of_lt hb)
  have hsum : hand + (n - 1 - hand % n + b) + 1 = n * (hand / n + 1) + b := by
    have hdiv := Nat.div_add_mod hand n
    rw [mul_add, mul_one]
    omega
  rw [hsum, Nat.mul_add_mod, Nat.mod_eq_of_lt hb]

lemma keptByEvictions_hotBuckets (cfg : HashConfig) :
    KeptByEvictions cfg (fun s : Adapter V => 0 < s.hotBuckets) where
  buckets s ch h := by
    unfold Adapter.evictABunchBuckets
    split
    · exact h
    · exact h
  enter _ _ _ h := h
  records s h := by
    unfold Adapter.evictRecords
    dsimp only
    split_ifs
    · exact h
    · exact h

/-- The hot table never loses its buckets. -/
lemma hotBuckets_pos_of_step (h : 0 < s.hotBuckets) {i : Op V × Choices}
    (hstep : s.step fuel cfg i = some s') : 0 < s'.hotBuckets := by
  have hkept := keptByEvictions_hotBuckets (V := V) cfg
  have hwrite : ∀ k ch body, s.write fuel cfg k ch body = some s' → 0 < s'.hotBuckets := by
    intro k ch body hwrite
    obtain ⟨s₁, hevict, hrun⟩ := bind_eq_some_iff.1 hwrite
    obtain ⟨t, -, rfl⟩ := map_eq_some_iff.1 hrun
    exact Nat.add_pos_left (hkept.tryEviction h hevict) _
  obtain ⟨op, ch⟩ := i
  cases op with
  | insert k v => exact hwrite k ch _ hstep
  | update k v => exact hwrite k ch _ hstep
  | put k v => exact hwrite k ch _ hstep
  | lookup k =>
    obtain ⟨⟨t, res⟩, hlookup, rfl⟩ := map_eq_some_iff.1 hstep
    obtain ⟨s₁, hevict, hrun⟩ := bind_eq_some_iff.1 hlookup
    obtain ⟨_, -, heq⟩ := map_eq_some_iff.1 hrun
    obtain ⟨rfl, -⟩ := Prod.mk.inj heq
    exact Nat.add_pos_left (hkept.tryEviction h hevict) _
  | evict => exact hkept.evictABunch h hstep

lemma Run.hotBuckets_pos {s₀ : Adapter V} {n : ℕ} (h : Run cfg s₀ s n) (h₀ : 0 < s₀.hotBuckets) :
    0 < s.hotBuckets := by
  induction h with
  | start => exact h₀
  | call _ _ hstep ih => exact hotBuckets_pos_of_step ih hstep

/-- **When an eviction by records returns**, from any reachable state: exactly if there is a hot record,
or the keys of the current bucket are not used up. -/
theorem evictABunchRecords_returns_iff (cfg : HashConfig)
    (hbucket : ∀ buckets k, 0 < buckets → cfg.bucketOf buckets k < buckets) (refCounter : Fin 2 → ℕ)
    (buckets : ℕ) (hbuckets : 0 < buckets) {s : Adapter V} {n : ℕ}
    (h : Run cfg (init refCounter buckets) s n) (ch : Choices) :
    (∃ fuel s', s.evictABunchRecords fuel cfg ch = some s') ↔
      (∃ k, k ∈ s.store.hot) ∨ s.clockHandBucket < s.hotBuckets ∧
        s.clockHandBucketRecordSeq < s.currentBucketKeysForEviction.length := by
  have hpos := h.hotBuckets_pos hbuckets
  constructor
  · rintro ⟨fuel, s', hevict⟩
    by_contra hnot
    rw [not_or, not_exists] at hnot
    obtain ⟨hempty, hused⟩ := hnot
    rw [evictABunchRecords] at hevict
    split_ifs at hevict with hhand
    · have hnil : s.bucketKeys cfg ch 0 = [] :=
        List.eq_nil_iff_forall_not_mem.2 (fun k hk => hempty k (mem_bucketKeys.1 hk).1)
      rw [seekRecords_of_empty (s := s.enterBucket cfg ch 0) hempty (by simp [enterBucket, hnil])]
        at hevict
      simp at hevict
    · have hseq : s.currentBucketKeysForEviction.length ≤ s.clockHandBucketRecordSeq :=
        Nat.not_lt.1 (fun hlt => hused ⟨Nat.not_le.1 hhand, hlt⟩)
      rw [seekRecords_of_empty hempty hseq] at hevict
      simp at hevict
  · intro hsome
    have hseek : ∃ fuel s', seekRecords cfg ch fuel
        (if s.clockHandBucket ≥ s.hotBuckets then s.enterBucket cfg ch 0 else s) = some s' := by
      rcases hsome with ⟨k, hk⟩ | ⟨hhand, hseq⟩
      · split_ifs
        · obtain ⟨d, hd⟩ := exists_ahead (s.enterBucket cfg ch 0).clockHandBucket
            (hbucket s.hotBuckets k hpos)
          exact ⟨_, exists_seekRecords (s := s.enterBucket cfg ch 0) hk d hd⟩
        · obtain ⟨d, hd⟩ := exists_ahead s.clockHandBucket (hbucket s.hotBuckets k hpos)
          exact ⟨_, exists_seekRecords hk d hd⟩
      · rw [if_neg (Nat.not_le.2 hhand)]
        exact ⟨1, s, seekRecords_of_lt hseq⟩
    obtain ⟨fuel, s', hs'⟩ := hseek
    exact ⟨fuel, evictRecords cfg s', by rw [evictABunchRecords, hs']; rfl⟩

/-- An eviction by records from a table with one record. -/
theorem evictABunchRecords_returns_iff_one : ∃ (s : Adapter ℕ) (n : ℕ),
    Run { oneBucket true with evictByRecords := true } (init (fun _ => 0) 1) s n ∧
      ∃ fuel s', s.evictABunchRecords fuel { oneBucket true with evictByRecords := true } calm =
        some s' := by
  obtain ⟨s, hs, hmem⟩ : ∃ s, (init (fun _ => 0) 1 : Adapter ℕ).step 1
      { oneBucket true with evictByRecords := true } (.insert 1 10, calm) = some s ∧
      1 ∈ s.store.hot := ⟨_, rfl, by decide⟩
  have hbefore : (init (fun _ => 0) 1 : Adapter ℕ).evictionsBefore 1
      { oneBucket true with evictByRecords := true } (.insert 1 10, calm) =
        some (init (fun _ => 0) 1) := rfl
  have hrun : Run { oneBucket true with evictByRecords := true } (init (fun _ => 0) 1) s 0 :=
    .call .start hbefore hs
  exact ⟨s, 0, hrun, (evictABunchRecords_returns_iff _ (fun buckets _ hpos => hpos) _ 1 one_pos hrun
    calm).2 (Or.inl ⟨1, hmem⟩)⟩

/-- **A clock hand that never stops.**  The hot table of a new adapter has a bucket and no record. -/
theorem clock_hand_never_stops :
    (init (fun _ => 0) 1 : Adapter ℕ).hotBuckets = 1 ∧ (init (fun _ => 0) 1 : Adapter ℕ).store.hot = ∅ ∧
    ∀ fuel, (init (fun _ => 0) 1 : Adapter ℕ).evictABunchRecords fuel
      { oneBucket true with evictByRecords := true } calm = none := by
  refine ⟨rfl, rfl, fun fuel => ?_⟩
  rw [evictABunchRecords, if_neg (by decide), seekRecords_of_empty (by simp [init, Store.init]) le_rfl]
  rfl

end TwoHash.Adapter

end TwoTree
