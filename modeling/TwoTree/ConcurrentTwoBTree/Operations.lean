import TwoTree.ConcurrentTwoBTree.Cells

/-!
# What the operations do to their key

An operation first tries to evict and then works on its own key, under that key's lock.  This
file describes the second half: `SetsCell s k c s'` says that `s'` holds the cell `c` under `k`
and is `s` otherwise, and there is one such lemma for each operation.

`lookup` either leaves the cell of its key alone or promotes it, and answers with the value of
the cell; `put` and `update` leave the cells `Cell.put` and `updateCell`, and `remove` leaves a
deletion mark.  All of them return, because the adapter is unlocked, and leave it idle (`Idle`),
so that every state that calls lead to is one with no operation under way (`Reachable.idle`).
-/

namespace TwoTree.ConcurrentTwoBTree

open Std Lib Lib.OrderedMap LockManager OptimisticLockGuard TaggedPayload HotRecord

variable {V : Type*}

namespace Adapter

variable {s : Adapter V} {k : ℕ} {cfg : Config} {body : Adapter V → Adapter V}

/-- Only the records of `k` changed, and no lock is held. -/
structure OnlyTouches (s : Adapter V) (k : ℕ) (s' : Adapter V) : Prop where
  unlocked : s'.Unlocked
  clock : s'.clock = s.clock
  other : ∀ a, a ≠ k →
    s'.hotBtree[a]? = s.hotBtree[a]? ∧ s'.coldBtree[a]? = s.coldBtree[a]?

/-- The adapter holds the cell `c` under `k` and is unchanged otherwise. -/
structure SetsCell (s : Adapter V) (k : ℕ) (c : Cell V) (s' : Adapter V) : Prop
    extends OnlyTouches s k s' where
  cell_eq : s'.cell k = c
  not_marked : ¬ s'.Marked k

lemma OnlyTouches.cell_of_ne {s s' : Adapter V} {k a : ℕ} (h : OnlyTouches s k s') (ha : a ≠ k) :
    s'.cell a = s.cell a := by
  simp [cell, (h.other a ha).1, (h.other a ha).2]

lemma OnlyTouches.marked_of_ne {s s' : Adapter V} {k a : ℕ} (h : OnlyTouches s k s')
    (ha : a ≠ k) : s'.Marked a ↔ s.Marked a := by
  simp [Marked, (h.other a ha).1]

/-- What a reader of the key finds. -/
def find (s : Adapter V) (k : ℕ) : Option V :=
  match s.hotBtree[k]? with
  | some (.tagged tp) => some tp.payload
  | some .deletedMark => none
  | none => s.coldBtree[k]?

lemma find_of_marked (h : s.Marked k) : s.find k = none := by
  rw [Marked] at h
  simp [find, h]

lemma find_of_not_marked (h : ¬ s.Marked k) :
    s.find k = (s.cell k).view := by
  rw [Marked] at h
  rcases hr : s.hotBtree[k]? with _ | (tp | _)
  · simp [find, cell, hr]
  · simp [find, cell, hr, data]
  · exact absurd hr h

/-- The body of an operation: it works on the records of its key only. -/
structure LocalTo (k : ℕ) (body : Adapter V → Adapter V) : Prop where
  lockTable : ∀ s, (body s).lockTable = s.lockTable
  clock : ∀ s, (body s).clock = s.clock
  other : ∀ s a, a ≠ k →
    (body s).hotBtree[a]? = s.hotBtree[a]? ∧ (body s).coldBtree[a]? = s.coldBtree[a]?

lemma underWriteLock_local (hs : s.Unlocked) (fuel : ℕ) (hbody : LocalTo k body) :
    ∃ w s', s.underWriteLock (fuel + 1) k body = some s' ∧ OnlyTouches s k s' ∧
      s'.hotBtree = (body (s.setWord k w)).hotBtree ∧
      s'.coldBtree = (body (s.setWord k w)).coldBtree := by
  obtain ⟨w, version, hrun, hunlocked⟩ := underWriteLock_spec hs fuel k hbody.lockTable
  exact ⟨w, _, hrun, ⟨hunlocked, hbody.clock _, hbody.other _⟩, rfl, rfl⟩

/-- An operation whose body makes `c` of the cell of `k` sets that cell. -/
lemma underWriteLock_setsCell (hs : s.Unlocked) (fuel : ℕ) (hbody : LocalTo k body) {c : Cell V}
    (hc : ∀ w, (body (s.setWord k w)).cell k = c ∧ ¬ (body (s.setWord k w)).Marked k) :
    ∃ s', s.underWriteLock (fuel + 1) k body = some s' ∧ SetsCell s k c s' := by
  obtain ⟨w, s', hrun, htouch, hhot, hcold⟩ := underWriteLock_local hs fuel hbody
  refine ⟨s', hrun, htouch, ?_, ?_⟩
  · rw [cell, hhot, hcold]
    exact (hc w).1
  · rw [Marked, hhot]
    exact (hc w).2

/-! ## Admission -/

@[simp] lemma data_taggedFor (v : V) (modified referenced : Bool) :
    (taggedFor v modified referenced).data = (v, modified) := by
  cases modified <;> cases referenced <;> simp [taggedFor, data]

lemma admitElement_of_none (h : s.hotBtree[k]? = none) (v : V) (dirty referenced : Bool) :
    s.admitElement k v dirty referenced =
      { s with hotBtree := s.hotBtree.insert k (.tagged (taggedFor v dirty referenced))
               hotPartitionItemCount := s.hotPartitionItemCount + 1 } := by
  simp [admitElement, insertHotPartition, insertNew_of_none h]

/-- An admission of a key that is in the hot tree is refused, and counted all the same. -/
lemma admitElement_of_some {r : HotRecord V}
    (h : s.hotBtree[k]? = some r) (v : V) (dirty referenced : Bool) :
    s.admitElement k v dirty referenced =
      { s with hotPartitionItemCount := s.hotPartitionItemCount + 1 } := by
  simp [admitElement, insertHotPartition, insertNew_of_some h]

/-- An admission that may fail is an admission or nothing. -/
lemma admitElementMightFail_of_none (h : s.hotBtree[k]? = none)
    (room : Bool) (v : V) (dirty referenced : Bool) :
    s.admitElementMightFail room k v dirty referenced =
      (room, if room then s.admitElement k v dirty referenced else s) := by
  cases room
  · simp [admitElementMightFail, insertHotPartitionMightFail, insertMightFail_of_none h]
  · simp [admitElementMightFail, insertHotPartitionMightFail, insertMightFail_of_none h,
      admitElement_of_none h]

@[simp] lemma lockTable_admitElement (s : Adapter V) (k : ℕ) (v : V) (dirty referenced : Bool) :
    (s.admitElement k v dirty referenced).lockTable = s.lockTable := rfl

@[simp] lemma clock_admitElement (s : Adapter V) (k : ℕ) (v : V) (dirty referenced : Bool) :
    (s.admitElement k v dirty referenced).clock = s.clock := rfl

@[simp] lemma coldBtree_admitElement (s : Adapter V) (k : ℕ) (v : V) (dirty referenced : Bool) :
    (s.admitElement k v dirty referenced).coldBtree = s.coldBtree := rfl

lemma hotBtree_admitElement_of_ne (s : Adapter V) {k a : ℕ} (h : a ≠ k) (v : V)
    (dirty referenced : Bool) :
    (s.admitElement k v dirty referenced).hotBtree[a]? = s.hotBtree[a]? := by
  simp [admitElement, insertHotPartition, getElem?_insertNew, Ne.symm h]

lemma hotBtree_admitElement_self (h : s.hotBtree[k]? = none) (v : V) (dirty referenced : Bool) :
    (s.admitElement k v dirty referenced).hotBtree[k]? =
      some (.tagged (taggedFor v dirty referenced)) := by
  simp [admitElement_of_none h]

@[simp] lemma coldBtree_removeCold (s : Adapter V) (k a : ℕ) :
    (s.removeCold k).coldBtree[a]? = if k = a then none else s.coldBtree[a]? :=
  getElem?_removeKey _ _ _

/-! ## Insert -/

lemma admitElement_localTo (k : ℕ) (v : V) (dirty referenced : Bool) :
    LocalTo k (fun s => s.admitElement k v dirty referenced) :=
  ⟨fun _ => rfl, fun _ => rfl, fun s _ ha => ⟨hotBtree_admitElement_of_ne s ha v _ _, rfl⟩⟩

lemma insert_spec (hs : s.Unlocked) (fuel : ℕ) (hk : s.hotBtree[k]? = none) (v : V) :
    ∃ s', s.underWriteLock (fuel + 1) k (fun s => s.admitElement k v true false) = some s' ∧
      SetsCell s k ⟨some (v, true), s.coldBtree[k]?⟩ s' := by
  refine underWriteLock_setsCell hs fuel (admitElement_localTo k v true false) (fun w => ?_)
  have hnew := hotBtree_admitElement_self (s := s.setWord k w) hk v true false
  refine ⟨?_, by simp [Marked, hnew]⟩
  rw [cell_of_tagged hnew, data_taggedFor]
  rfl

/-- `insert` of a key that has a record in the hot tree is refused. -/
lemma insert_refused (hs : s.Unlocked) (fuel : ℕ) {r : HotRecord V}
    (hk : s.hotBtree[k]? = some r) (v : V) :
    ∃ s', s.underWriteLock (fuel + 1) k (fun s => s.admitElement k v true false) = some s' ∧
      OnlyTouches s k s' ∧ KeptAt s s' k := by
  obtain ⟨w, s', hrun, htouch, hhot, hcold⟩ :=
    underWriteLock_local hs fuel (admitElement_localTo k v true false)
  have hsame := admitElement_of_some (s := s.setWord k w) hk v true false
  exact ⟨s', hrun, htouch, by rw [hhot, hsame]; rfl, by rw [hcold]; rfl⟩

/-! ## Put -/

lemma putLocked_of_some {r : HotRecord V} (h : s.hotBtree[k]? = some r) (v : V) :
    putLocked cfg k v s =
      { s with hotBtree := s.hotBtree.insert k (r.mapTagged (overwrite v)) } := by
  simp [putLocked, updateInPlace_of_some h]

lemma putLocked_of_none (h : s.hotBtree[k]? = none) (v : V) :
    putLocked cfg k v s =
      if cfg.inclusive then s.admitElement k v true false
      else (s.admitElement k v true false).removeCold k := by
  simp [putLocked, updateInPlace_of_none h]

lemma putLocked_localTo (cfg : Config) (k : ℕ) (v : V) : LocalTo k (putLocked cfg k v) := by
  refine ⟨fun s => ?_, fun s => ?_, fun s a ha => ?_⟩
  · rcases h : s.hotBtree[k]? with _ | r
    · rw [putLocked_of_none h]
      split_ifs <;> rfl
    · rw [putLocked_of_some h]
  · rcases h : s.hotBtree[k]? with _ | r
    · rw [putLocked_of_none h]
      split_ifs <;> rfl
    · rw [putLocked_of_some h]
  · rcases h : s.hotBtree[k]? with _ | r
    · rw [putLocked_of_none h]
      split_ifs
      · exact ⟨hotBtree_admitElement_of_ne s ha v _ _, rfl⟩
      · exact ⟨hotBtree_admitElement_of_ne s ha v _ _, by simp [Ne.symm ha]⟩
    · simp [putLocked_of_some h, getElem?_insert, Ne.symm ha]

/-- What the locked part of `put` does to a key without a deletion mark. -/
lemma cell_putLocked (hk : ¬ s.Marked k) (v : V) :
    (putLocked cfg k v s).cell k = Cell.put cfg.inclusive v (s.cell k) ∧
      ¬ (putLocked cfg k v s).Marked k := by
  rcases h : s.hotBtree[k]? with _ | (tp | _)
  · have hnew : (putLocked cfg k v s).hotBtree[k]? = some (.tagged (taggedFor v true false)) := by
      rw [putLocked_of_none h]
      split_ifs <;> exact hotBtree_admitElement_self h v true false
    refine ⟨?_, by simp [Marked, hnew]⟩
    rw [cell_of_tagged hnew, cell_of_none h, putLocked_of_none h, data_taggedFor]
    cases cfg.inclusive <;> simp [Cell.put, Cell.write]
  · have hnew : (putLocked cfg k v s).hotBtree[k]? = some (.tagged (tp.overwrite v)) := by
      rw [putLocked_of_some h]
      simp [mapTagged]
    refine ⟨?_, by simp [Marked, hnew]⟩
    rw [cell_of_tagged hnew, cell_of_tagged h, putLocked_of_some h, data_overwrite]
    rfl
  · exact absurd h hk

lemma put_spec (hs : s.Unlocked) (fuel : ℕ) (hk : ¬ s.Marked k) (v : V) :
    ∃ s', s.underWriteLock (fuel + 1) k (putLocked cfg k v) = some s' ∧
      SetsCell s k (Cell.put cfg.inclusive v (s.cell k)) s' :=
  underWriteLock_setsCell hs fuel (putLocked_localTo cfg k v)
    (fun w => cell_putLocked (s := s.setWord k w) hk v)

/-! ## Update -/

/-- What `update` makes of the cell of its key.  Under soft pressure the admission may fail, and
if it does not, the entry is admitted clean. -/
def updateCell (cfg : Config) (ch : Choices V) (v : V) (c : Cell V) : Cell V :=
  match c.hot with
  | some _ => ⟨some (v, true), c.cold⟩
  | none =>
    if shouldMigrate cfg ch then
      if ch.softPressure then
        if ch.room then ⟨some (v, false), if cfg.inclusive then c.cold else none⟩ else c
      else c.write cfg.inclusive v
    else ⟨none, c.cold.map (fun _ => v)⟩

lemma updateLocked_of_some {ch : Choices V}
    {r : HotRecord V} (h : s.hotBtree[k]? = some r) (v : V) :
    updateLocked cfg ch k v s =
      { s with hotBtree := s.hotBtree.insert k (r.mapTagged (overwrite v)) } := by
  simp [updateLocked, updateInPlace_of_some h]

lemma updateLocked_of_none {ch : Choices V} (h : s.hotBtree[k]? = none) (v : V) :
    updateLocked cfg ch k v s =
      if shouldMigrate cfg ch then
        if ch.softPressure then
          if ch.room then
            if cfg.inclusive then s.admitElement k v false true
            else (s.admitElement k v false true).removeCold k
          else s
        else
          if cfg.inclusive then s.admitElement k v true false
          else (s.admitElement k v true false).removeCold k
      else { s with coldBtree := (updateInPlace s.coldBtree k (fun _ => v)).2 } := by
  cases hs : ch.softPressure <;> cases hr : ch.room <;> cases hi : cfg.inclusive <;>
    simp [updateLocked, updateInPlace_of_none h, admitUpdated, admitElementMightFail_of_none h,
      hs, hr, hi]

lemma updateLocked_localTo (cfg : Config) (ch : Choices V) (k : ℕ) (v : V) :
    LocalTo k (updateLocked cfg ch k v) := by
  refine ⟨fun s => ?_, fun s => ?_, fun s a ha => ?_⟩
  · rcases h : s.hotBtree[k]? with _ | r
    · rw [updateLocked_of_none h]
      split_ifs <;> rfl
    · rw [updateLocked_of_some h]
  · rcases h : s.hotBtree[k]? with _ | r
    · rw [updateLocked_of_none h]
      split_ifs <;> rfl
    · rw [updateLocked_of_some h]
  · rcases h : s.hotBtree[k]? with _ | r
    · rw [updateLocked_of_none h]
      split_ifs
      · exact ⟨hotBtree_admitElement_of_ne s ha v _ _, rfl⟩
      · exact ⟨hotBtree_admitElement_of_ne s ha v _ _, by simp [Ne.symm ha]⟩
      · exact ⟨rfl, rfl⟩
      · exact ⟨hotBtree_admitElement_of_ne s ha v _ _, rfl⟩
      · exact ⟨hotBtree_admitElement_of_ne s ha v _ _, by simp [Ne.symm ha]⟩
      · exact ⟨rfl, by simp [getElem?_updateInPlace, Ne.symm ha]⟩
    · simp [updateLocked_of_some h, getElem?_insert, Ne.symm ha]

/-- The cell and the mark of a key an admission has just put into the hot tree. -/
lemma cell_of_admitted {s t : Adapter V} {v : V} {dirty referenced : Bool}
    (h : s.hotBtree[k]? = none) (ht : t.hotBtree = (s.admitElement k v dirty referenced).hotBtree) :
    t.cell k = ⟨some (v, dirty), t.coldBtree[k]?⟩ ∧ ¬ t.Marked k := by
  have hnew : t.hotBtree[k]? = some (.tagged (taggedFor v dirty referenced)) := by
    rw [ht]
    exact hotBtree_admitElement_self h v dirty referenced
  exact ⟨by rw [cell_of_tagged hnew, data_taggedFor], by simp [Marked, hnew]⟩

/-- What the locked part of `update` does to a key without a deletion mark. -/
lemma cell_updateLocked {ch : Choices V} (hk : ¬ s.Marked k) (v : V) :
    (updateLocked cfg ch k v s).cell k = updateCell cfg ch v (s.cell k) ∧
      ¬ (updateLocked cfg ch k v s).Marked k := by
  rcases h : s.hotBtree[k]? with _ | (tp | _)
  · rw [updateLocked_of_none h, cell_of_none h]
    simp only [updateCell]
    split_ifs with hmig hsoft hroom hinc hinc
    · exact cell_of_admitted h rfl
    · exact (by simpa using
        cell_of_admitted (t := (s.admitElement k v false true).removeCold k) h rfl)
    · exact ⟨cell_of_none h, hk⟩
    · simpa [Cell.write, hinc] using
        cell_of_admitted (t := s.admitElement k v true false) h rfl
    · simpa [Cell.write, hinc] using
        cell_of_admitted (t := (s.admitElement k v true false).removeCold k) h rfl
    · refine ⟨?_, hk⟩
      simp [cell, h, getElem?_updateInPlace]
  · have hnew : (updateLocked cfg ch k v s).hotBtree[k]? = some (.tagged (tp.overwrite v)) := by
      rw [updateLocked_of_some h]
      simp [mapTagged]
    refine ⟨?_, by simp [Marked, hnew]⟩
    rw [cell_of_tagged hnew, cell_of_tagged h, updateLocked_of_some h, data_overwrite]
    rfl
  · exact absurd h hk

lemma update_spec (cfg : Config) (ch : Choices V) (hs : s.Unlocked) (fuel : ℕ)
    (hk : ¬ s.Marked k) (v : V) :
    ∃ s', s.underWriteLock (fuel + 1) k (updateLocked cfg ch k v) = some s' ∧
      SetsCell s k (updateCell cfg ch v (s.cell k)) s' :=
  underWriteLock_setsCell hs fuel (updateLocked_localTo cfg ch k v)
    (fun w => cell_updateLocked (s := s.setWord k w) hk v)

/-! ## Remove, and writes to a removed key -/

/-- `put` and `update` of a removed key write behind the deletion mark, and the mark stays. -/
lemma overwrite_marked (hs : s.Unlocked) (fuel : ℕ) (hk : s.Marked k)
    (hbody : LocalTo k body) {f : TaggedPayload V → TaggedPayload V}
    (heq : ∀ w, body (s.setWord k w) = { s.setWord k w with
      hotBtree := s.hotBtree.insert k (deletedMark.mapTagged f) }) :
    ∃ s', s.underWriteLock (fuel + 1) k body = some s' ∧ OnlyTouches s k s' ∧ KeptAt s s' k := by
  obtain ⟨w, s', hrun, htouch, hhot, hcold⟩ := underWriteLock_local hs fuel hbody
  rw [heq] at hhot hcold
  refine ⟨s', hrun, htouch, ?_, by rw [hcold]; rfl⟩
  rw [Marked] at hk
  simp [hhot, hk, mapTagged]

lemma removeLocked_localTo (k : ℕ) : LocalTo (V := V) k (removeLocked k) := by
  refine ⟨fun s => ?_, fun s => ?_, fun s a ha => ?_⟩
  all_goals rcases h : s.hotBtree[k]? with _ | (tp | _)
  all_goals simp [removeLocked, h, admitDeleteMarkElement, insertHotPartitionDeletedMark, removeHot]
  · simp [getElem?_insertNew, Ne.symm ha]
  · simp [getElem?_insertNew, getElem?_removeKey, Ne.symm ha]

/-- `remove` leaves a deletion mark. -/
lemma removeLocked_marked (s : Adapter V) (k : ℕ) :
    (removeLocked k s).Marked k ∧ (removeLocked k s).coldBtree = s.coldBtree := by
  rcases h : s.hotBtree[k]? with _ | (tp | _)
  · simp [removeLocked, Marked, h, admitDeleteMarkElement, insertHotPartitionDeletedMark,
      getElem?_insertNew]
  · simp [removeLocked, Marked, h, admitDeleteMarkElement, insertHotPartitionDeletedMark,
      removeHot, getElem?_insertNew, getElem?_removeKey]
  · simp [removeLocked, Marked, h]

/-- **`remove` always returns, and leaves a deletion mark under its key.** -/
lemma remove_spec (hs : s.Unlocked) (fuel k : ℕ) :
    ∃ s', s.remove (fuel + 1) k = some s' ∧ OnlyTouches s k s' ∧ s'.Marked k ∧
      s'.coldBtree = s.coldBtree := by
  obtain ⟨w, s', hrun, htouch, hhot, hcold⟩ :=
    underWriteLock_local hs fuel (removeLocked_localTo k)
  obtain ⟨hmark, hsame⟩ := removeLocked_marked (s.setWord k w) k
  refine ⟨s', hrun, htouch, ?_, hcold.trans hsame⟩
  rw [Marked, hhot]
  exact hmark

/-! ## Lookup -/

lemma data_touch (tp : TaggedPayload V) : (touch tp).data = tp.data := by
  simp only [touch]
  split_ifs <;> simp [data]

lemma release_readLocked (s : Adapter V) (k version : ℕ) :
    s.release k ⟨version, .readLocked⟩ = s := by
  rw [release, OptimisticLockTable.release_readLocked]

/-- The admission of a lookup, and whether it took place. -/
lemma migrateUp_of_none (ch : Choices V) (h : s.hotBtree[k]? = none) (v : V) :
    ∃ admitted : Bool, s.migrateUp ch k v =
      (admitted, if admitted then s.admitElement k v false false else s) := by
  simp only [migrateUp, admitElementMightFail_of_none h]
  split_ifs with hsoft hdraw hroom
  · exact ⟨true, rfl⟩
  · exact ⟨true, by simp [hroom]⟩
  · exact ⟨false, by simp [hroom]⟩
  · exact ⟨true, rfl⟩

/-- What a lookup leaves of the key it looked for: the cell as it was, or promoted. -/
def LookedUp (cfg : Config) (s s' : Adapter V) (k : ℕ) : Prop :=
  KeptAt s s' k ∨
    (¬ s.Marked k ∧ ¬ s'.Marked k ∧ s'.cell k = (s.cell k).promote cfg.inclusive)

/-- The migration of a key that is in the cold tree only. -/
lemma lookupInternal_migrate {ch : Choices V} {v : V}
    (hhot : s.hotBtree[k]? = none) (hcold : s.coldBtree[k]? = some v)
    (hmig : shouldMigrate cfg ch = true) :
    ∃ s₁, s.lookupInternal cfg ch k ⟨s.word k, .readLocked⟩ =
        (s₁, ⟨u64 (s.word k + 1), .writeLocked⟩, some v) ∧
      s₁.lockTable = (s.setWord k (u64 (s.word k + 1))).lockTable ∧ s₁.clock = s.clock ∧
      (∀ a, a ≠ k →
        s₁.hotBtree[a]? = s.hotBtree[a]? ∧ s₁.coldBtree[a]? = s.coldBtree[a]?) ∧
      LookedUp cfg s s₁ k := by
  set s₀ := s.setWord k (u64 (s.word k + 1)) with hs₀
  have hhot₀ : s₀.hotBtree[k]? = none := hhot
  obtain ⟨admitted, hup⟩ := migrateUp_of_none ch hhot₀ v
  have hint : s.lookupInternal cfg ch k ⟨s.word k, .readLocked⟩ =
      (if !cfg.inclusive && admitted then (s₀.migrateUp ch k v).2.removeCold k
        else (s₀.migrateUp ch k v).2, ⟨u64 (s.word k + 1), .writeLocked⟩, some v) := by
    simp [lookupInternal, hhot, hcold, hmig, upgradeToWriteLock,
      acquire_of_eq, ← hs₀, hup]
  refine ⟨_, hint, ?_⟩
  have hnot : ¬ s.Marked k := by simp [Marked, hhot]
  rw [hup]
  cases admitted with
  | false =>
    simp only [Bool.and_false, Bool.false_eq_true, if_false]
    exact ⟨trivial, rfl, fun a _ => ⟨rfl, rfl⟩, Or.inl ⟨rfl, rfl⟩⟩
  | true =>
    cases hinc : cfg.inclusive with
    | true =>
      refine ⟨by simp, by simp [hs₀], fun a ha => ?_, Or.inr ⟨hnot, ?_⟩⟩
      · simpa [hs₀] using hotBtree_admitElement_of_ne s₀ ha v false false
      have hadm := cell_of_admitted (t := s₀.admitElement k v false false) hhot₀ rfl
      rw [cell_of_none hhot, hcold, hinc]
      simp only [Bool.not_true, Bool.false_and, Bool.false_eq_true, if_false, if_true]
      refine ⟨hadm.2, hadm.1.trans ?_⟩
      simp [hs₀, hcold, Cell.promote]
    | false =>
      refine ⟨by simp [removeCold], by simp [removeCold, hs₀], fun a ha => ?_,
        Or.inr ⟨hnot, ?_⟩⟩
      · simpa [removeCold, hs₀, getElem?_removeKey, Ne.symm ha] using
          hotBtree_admitElement_of_ne s₀ ha v false false
      have hadm := cell_of_admitted
        (t := (s₀.admitElement k v false false).removeCold k) hhot₀ rfl
      rw [cell_of_none hhot, hcold, hinc]
      simp only [Bool.not_false, Bool.true_and, if_true]
      refine ⟨hadm.2, hadm.1.trans ?_⟩
      simp [Cell.promote]

/-- **A lookup of an unlocked adapter returns what a reader finds**, and leaves the cell of its
key alone or promotes it. -/
lemma lookupLoop_spec (cfg : Config) (ch : Choices V) (hs : s.Unlocked) (fuel k : ℕ) :
    ∃ s', lookupLoop cfg ch k (fuel + 1) s = some (s', s.find k) ∧ OnlyTouches s k s' ∧
      LookedUp cfg s s' k := by
  have hread := readLock_of_even
    (construct (s.word k)) (hs.word k)
  -- the paths on which the guard stays a reader
  have hreader : ∀ s₁ res,
      s.lookupInternal cfg ch k ⟨s.word k, .readLocked⟩ = (s₁, ⟨s.word k, .readLocked⟩, res) →
      s₁.lockTable = s.lockTable → lookupLoop cfg ch k (fuel + 1) s = some (s₁, res) := by
    intro s₁ res hint hlock
    have hword : s₁.word k = s.word k := by rw [word, hlock, word]
    simp [lookupLoop, hread, hint, validate, hword, release_readLocked]
  rcases hhot : s.hotBtree[k]? with _ | (tp | _)
  · rcases hcold : s.coldBtree[k]? with _ | v
    · refine ⟨s, ?_, ⟨hs, rfl, fun a _ => ⟨rfl, rfl⟩⟩, Or.inl ⟨rfl, rfl⟩⟩
      exact hreader s _ (by simp [lookupInternal, find, hhot, hcold]) rfl
    cases hmig : shouldMigrate cfg ch with
    | false =>
      refine ⟨s, ?_, ⟨hs, rfl, fun a _ => ⟨rfl, rfl⟩⟩, Or.inl ⟨rfl, rfl⟩⟩
      exact hreader s _ (by simp [lookupInternal, find, hhot, hcold, hmig]) rfl
    | true =>
      obtain ⟨s₁, hint, hlock, hclock, hother, hlooked⟩ :=
        lookupInternal_migrate hhot hcold hmig
      have hword : s₁.word k = u64 (s.word k + 1) := by
        rw [word, hlock]
        exact word_setWord s k _
      refine ⟨s₁.release k ⟨u64 (s.word k + 1), .writeLocked⟩, ?_,
        ⟨hs.release hlock, hclock, hother⟩, hlooked⟩
      simp [lookupLoop, hread, hint, validate, hword, find, hhot, hcold]
  · set s₁ : Adapter V := { s with hotBtree := s.hotBtree.insert k (.tagged (touch tp)) } with hs₁
    have hother : ∀ a, a ≠ k →
        s₁.hotBtree[a]? = s.hotBtree[a]? ∧ s₁.coldBtree[a]? = s.coldBtree[a]? :=
      fun a ha => ⟨by simp [hs₁, getElem?_insert, Ne.symm ha], rfl⟩
    refine ⟨s₁, ?_, ⟨hs, rfl, hother⟩, Or.inl ⟨?_, rfl⟩⟩
    · exact hreader s₁ _ (by simp [lookupInternal, find, hhot, hs₁]) rfl
    · simp [hs₁, hhot, data_touch]
  · refine ⟨s, ?_, ⟨hs, rfl, fun a _ => ⟨rfl, rfl⟩⟩, Or.inl ⟨rfl, rfl⟩⟩
    exact hreader s _ (by simp [lookupInternal, find, hhot]) rfl

section Idle

variable {cfg : Config} {s s' : Adapter V} {k : ℕ} {ch : Choices V}

/-! ## Idle states -/

/-- No lock is held and no eviction is under way. -/
structure Idle (s : Adapter V) : Prop where
  unlocked : s.Unlocked
  drained : s.clock.Drained

lemma Idle.evictABunch (h : s.Idle) (cfg : Config) (ch : Choices V) :
    (s.evictABunch cfg ch).Idle := by
  refine ⟨(evictABunch_at cfg ch h.unlocked).1, ?_⟩
  rcases hb : ch.boundary with _ | ⟨endKey, rewind⟩
  · have hclaim : s.clock.claim ch.boundary = none := by
      simp [EvictionClock.claim, hb]
    simpa [Adapter.evictABunch, hclaim] using h.drained
  · obtain ⟨c', hclaim, hdrained, -⟩ := h.drained.claim endKey rewind
    rw [(evictABunch_sweeps cfg ch h.unlocked (hb ▸ hclaim)).2]
    exact hdrained

lemma Idle.tryEviction (h : s.Idle) (cfg : Config) (ch : Choices V) :
    (s.tryEviction cfg ch).Idle := by
  rw [Adapter.tryEviction]
  split_ifs
  · exact h.evictABunch cfg ch
  · exact h

lemma Idle.of_onlyTouches (h : s.Idle) (htouch : OnlyTouches s k s') : s'.Idle :=
  ⟨htouch.unlocked, by rw [htouch.clock]; exact h.drained⟩

/-- A writing operation that returns leaves the adapter idle. -/
lemma Idle.underWriteLock (h : s.Idle) {fuel : ℕ} {body : Adapter V → Adapter V}
    (hbody : LocalTo k body) (hrun : s.underWriteLock fuel k body = some s') : s'.Idle := by
  cases fuel with
  | zero => simp [Adapter.underWriteLock, OptimisticLockTable.spinWriteLock] at hrun
  | succ fuel =>
    obtain ⟨w, t, hrun', htouch, -⟩ := underWriteLock_local h.unlocked fuel hbody
    obtain rfl := Option.some.inj (hrun.symm.trans hrun')
    exact h.of_onlyTouches htouch

lemma Idle.lookup (h : s.Idle) {fuel : ℕ} {res : Option V}
    (hrun : s.lookup fuel cfg k ch = some (s', res)) : s'.Idle := by
  cases fuel with
  | zero => simp [Adapter.lookup, lookupLoop] at hrun
  | succ fuel =>
    have htry := h.tryEviction cfg ch
    obtain ⟨t, hrun', htouch, -⟩ := lookupLoop_spec cfg ch htry.unlocked fuel k
    rw [Adapter.lookup, hrun'] at hrun
    obtain ⟨rfl, -⟩ := Prod.mk.inj (Option.some.inj hrun)
    exact htry.of_onlyTouches htouch

/-- **One call leaves the adapter idle.** -/
lemma Idle.call (h : s.Idle) {fuel : ℕ} {c : Call V × Choices V}
    (hcall : s.call fuel cfg c = some s') : s'.Idle := by
  obtain ⟨c, ch⟩ := c
  cases c with
  | op o =>
    have htry := h.tryEviction cfg ch
    cases o with
    | insert k v => exact htry.underWriteLock (admitElement_localTo k v true false) hcall
    | update k v => exact htry.underWriteLock (updateLocked_localTo cfg ch k v) hcall
    | put k v => exact htry.underWriteLock (putLocked_localTo cfg k v) hcall
    | lookup k =>
      obtain ⟨⟨t, res⟩, hrun, rfl⟩ := Option.map_eq_some_iff.1 hcall
      exact h.lookup hrun
    | evict =>
      obtain rfl := Option.some.inj hcall
      exact h.evictABunch cfg ch
  | remove k => exact h.underWriteLock (removeLocked_localTo k) hcall

/-- **Every state that calls lead to is idle.** -/
lemma Reachable.idle (h : Reachable cfg s) : s.Idle := by
  obtain ⟨fuel, calls, hrun⟩ := h
  exact foldlM_preserves (fun s c s' hs hcall => Idle.call hs hcall)
    ⟨fun _ => rfl, EvictionClock.drained_init⟩ hrun

lemma Idle.exists_call (h : s.Idle) (fuel : ℕ) (c : Call V × Choices V) :
    ∃ s', s.call (fuel + 1) cfg c = some s' := by
  obtain ⟨c, ch⟩ := c
  have htry := h.tryEviction cfg ch
  have hwrite : ∀ {s : Adapter V} {k body}, s.Idle → LocalTo k body →
      ∃ s', s.underWriteLock (fuel + 1) k body = some s' := by
    intro s k body hs hbody
    obtain ⟨-, s', hrun, -⟩ := underWriteLock_local hs.unlocked fuel hbody
    exact ⟨s', hrun⟩
  cases c with
  | op o =>
    cases o with
    | insert k v => exact hwrite htry (admitElement_localTo k v true false)
    | update k v => exact hwrite htry (updateLocked_localTo cfg ch k v)
    | put k v => exact hwrite htry (putLocked_localTo cfg k v)
    | lookup k =>
      obtain ⟨s', hrun, -⟩ := lookupLoop_spec cfg ch htry.unlocked fuel k
      exact ⟨s', Option.map_eq_some_iff.2 ⟨_, hrun, rfl⟩⟩
    | evict => exact ⟨_, rfl⟩
  | remove k => exact hwrite h (removeLocked_localTo k)

/-- **No call blocks, and no lock is left behind.**  Every sequence of calls of one thread returns,
with one attempt at each lock and without regard to any contract, and leaves the adapter idle. -/
theorem calls_return (cfg : Config) (fuel : ℕ) (calls : List (Call V × Choices V)) :
    ∃ s, calls.foldlM (call (fuel + 1) cfg) init = some s ∧ s.Idle := by
  have hinit : (init : Adapter V).Idle := ⟨fun _ => rfl, EvictionClock.drained_init⟩
  generalize init = s at hinit
  induction calls generalizing s with
  | nil => exact ⟨s, rfl, hinit⟩
  | cons c calls ih =>
    obtain ⟨s₁, hcall⟩ := hinit.exists_call fuel c
    rw [List.foldlM_cons, hcall]
    exact ih s₁ (hinit.call hcall)

end Idle

end Adapter

end TwoTree.ConcurrentTwoBTree
