import TwoTree.Tiered.Store
import TwoTree.Lib.Simulation

/-!
# What the shared functions do to the cells

`Store.cell s k` is what the two maps hold for `k`.  Each function of a store is described by
the family of cells it leaves: a writing operation sets one of them (`Function.update`), a
lookup keeps or promotes one, an eviction keeps or demotes each of them.  The parameters of the
shared functions are described in the same way, by `IsMove` and `IsAdmission`.

Between the operations of a single thread all lock words are even, so every lock is taken at the
first attempt, and every operation returns.
-/

namespace TwoTree.Tiered

open Std Lib Lib.OrderedMap LockManager ConcurrentTwoBTree Function OptimisticLockGuard Cell Option
open TaggedPayload

variable {V : Type*}

namespace Store

/-- What the two maps hold for a key. -/
def cell (s : Store V) (k : ℕ) : Cell V := ⟨s.hot[k]?.map TaggedPayload.data, s.cold[k]?⟩

/-- No lock is held. -/
def Unlocked (s : Store V) : Prop := s.lockTable.Unlocked

variable {s s' : Store V} {k : ℕ} {v : V} {cfg : Config}
  {admission : Store V → ℕ → V → Bool × Store V} {move : Store V → ℕ → TaggedPayload V → Store V}
  (cfg : Config)

lemma hot_none_iff : (s.cell k).hot = none ↔ s.hot[k]? = none := by
  simp [cell]

lemma cell_of_hot {tp : TaggedPayload V} (h : s.hot[k]? = some tp) :
    s.cell k = ⟨some tp.data, s.cold[k]?⟩ := by
  simp [cell, h]

lemma cell_of_hot_none (h : s.hot[k]? = none) : s.cell k = ⟨none, s.cold[k]?⟩ := by
  simp [cell, h]

/-- Two stores with the same cells away from `k`. -/
lemma cell_eq_update {c : Cell V} (hk : s'.cell k = c)
    (hother : ∀ a, a ≠ k → s'.cell a = s.cell a) : s'.cell = update s.cell k c := by
  funext a
  rcases eq_or_ne a k with rfl | ha
  · rw [hk, update_self]
  · rw [hother a ha, update_of_ne ha]

/-! ## Partitions -/

lemma cell_admitElement (h : s.hot[k]? = none) (v : V) (dirty referenced : Bool) :
    (s.admitElement k v dirty referenced).cell =
      update s.cell k ⟨some (v, dirty), (s.cell k).cold⟩ := by
  refine cell_eq_update ?_ (fun a ha => ?_)
  · simp [cell, admitElement, insertHotPartition, getElem?_insertNew, h]
  · simp [cell, admitElement, insertHotPartition, getElem?_insertNew, ha.symm]

lemma cell_removeCold (s : Store V) (k : ℕ) :
    (s.removeCold k).cell = update s.cell k ⟨(s.cell k).hot, none⟩ := by
  refine cell_eq_update ?_ (fun a ha => ?_)
  · simp [cell, removeCold, getElem?_removeKey]
  · simp [cell, removeCold, getElem?_removeKey, ha.symm]

lemma cell_insert_hot (s : Store V) (k : ℕ) (tp : TaggedPayload V) :
    cell { s with hot := s.hot.insert k tp } =
      update s.cell k ⟨some tp.data, (s.cell k).cold⟩ := by
  refine cell_eq_update ?_ (fun a ha => ?_)
  · simp [cell]
  · simp [cell, TreeMap.getElem?_insert, ha.symm]

lemma cell_updateCold (s : Store V) (k : ℕ) (v : V) :
    (s.updateCold k v).cell =
      update s.cell k ⟨(s.cell k).hot, (s.cell k).cold.map (fun _ => v)⟩ := by
  refine cell_eq_update ?_ (fun a ha => ?_)
  · simp [cell, updateCold, getElem?_updateInPlace]
  · simp [cell, updateCold, getElem?_updateInPlace, ha.symm]

/-! ## The moves of a victim -/

/-- The move demotes the entry it is given. -/
structure IsMove (inclusive : Bool) (move : Store V → ℕ → TaggedPayload V → Store V) :
    Prop where
  lockTable : ∀ s k tp, (move s k tp).lockTable = s.lockTable
  cell : ∀ s k tp, (move s k tp).cell =
    update s.cell k ⟨none, Cell.demoted inclusive tp.data (s.cell k).cold⟩

lemma cold_writeBack (s : Store V) (k a : ℕ) (tp : TaggedPayload V) :
    (s.writeBack cfg k tp).cold[a]? =
      if k = a then demoted cfg.inclusive tp.data s.cold[k]? else s.cold[a]? := by
  unfold writeBack
  cases hinc : cfg.inclusive
  · rcases hcold : s.cold[k]? with _ | w <;> by_cases ha : k = a <;>
      simp_all [insertColdPartition, getElem?_insertNew, demoted, demote,
        data]
  · cases hmod : tp.modified <;> by_cases ha : k = a <;>
      simp_all [upsertColdPartition, TreeMap.getElem?_insert, demoted, demote,
        data]

/-- Writing back changes the cold map only. -/
lemma writeBack_frame (s : Store V) (k : ℕ) (tp : TaggedPayload V) :
    ∃ cold, s.writeBack cfg k tp = { s with cold := cold } := by
  unfold writeBack
  split_ifs
  · exact ⟨_, rfl⟩
  · exact ⟨s.cold, rfl⟩
  · exact ⟨_, rfl⟩

lemma removeThenWriteBack_eq (s : Store V) (k : ℕ) (tp : TaggedPayload V) :
    s.removeThenWriteBack cfg k tp = s.writeBackThenRemove cfg k tp := by
  unfold removeThenWriteBack writeBackThenRemove writeBack
  split_ifs <;> rfl

lemma isMove_writeBackThenRemove : IsMove (V := V) cfg.inclusive (writeBackThenRemove cfg) where
  lockTable := fun s k tp => by
    obtain ⟨cold, hcold⟩ := writeBack_frame cfg s k tp
    rw [writeBackThenRemove, hcold]
    rfl
  cell := fun s k tp => by
    have hhot : ∀ a, (s.writeBackThenRemove cfg k tp).hot[a]? =
        if k = a then none else s.hot[a]? := by
      intro a
      obtain ⟨cold, hcold⟩ := writeBack_frame cfg s k tp
      rw [writeBackThenRemove, hcold]
      exact getElem?_removeKey _ _ _
    have hcold : ∀ a, (s.writeBackThenRemove cfg k tp).cold[a]? = _ :=
      fun a => cold_writeBack cfg s k a tp
    refine cell_eq_update ?_ (fun a ha => ?_)
    · simp [Store.cell, hhot, hcold]
    · simp [Store.cell, hhot, hcold, ha.symm]

/-- The order of the two operations of a move does not matter to a thread that runs alone. -/
lemma isMove_removeThenWriteBack : IsMove (V := V) cfg.inclusive (removeThenWriteBack cfg) := by
  have heq : removeThenWriteBack (V := V) cfg = writeBackThenRemove cfg := by
    funext s k tp
    exact removeThenWriteBack_eq cfg s k tp
  rw [heq]
  exact isMove_writeBackThenRemove cfg

/-! ## Evictions -/

/-- The copy of the walk is what the hot map holds. -/
def Victim.Fresh (s : Store V) (victim : Victim V) : Prop :=
  (s.cell victim.key).hot = some victim.payload.data

/-- **The eviction of one victim** demotes its cell. -/
lemma evictOne_spec {inclusive : Bool}
    (hmove : IsMove inclusive move) (hs : s.Unlocked) {victim : Victim V}
    (hfresh : victim.Fresh s) :
    (evictOne move s victim).Unlocked ∧
      (evictOne move s victim).cell =
        update s.cell victim.key ((s.cell victim.key).demote inclusive) := by
  have hlock := writeLock_of_even
    (construct (s.lockTable.word victim.key))
    (OptimisticLockTable.Unlocked.word hs victim.key)
  -- the payload is the one in the hot map, whether it is read again or not
  have hpayload : ∀ g, ∃ tp, victimPayload
      { s with lockTable := s.lockTable.setWord victim.key
                (u64 (s.lockTable.word victim.key + 1)) } victim g = some tp ∧
      tp.data = victim.payload.data := by
    intro g
    unfold victimPayload
    split_ifs
    · exact map_eq_some_iff.1 hfresh
    · exact ⟨victim.payload, rfl, rfl⟩
  obtain ⟨tp, htp, hdata⟩ :=
    hpayload ⟨u64 (s.lockTable.word victim.key + 1), .writeLocked⟩
  simp only [evictOne, hlock, if_true, htp]
  refine ⟨?_, ?_⟩
  · rw [Unlocked, hmove.lockTable]
    exact OptimisticLockTable.Unlocked.release hs victim.key _
  refine (hmove.cell _ victim.key tp).trans ?_
  have hcell : s.cell victim.key =
      ⟨some victim.payload.data, (s.cell victim.key).cold⟩ := Cell.ext hfresh rfl
  rw [hdata, hcell, demote_some]
  rfl

/-- **The eviction loop** demotes the cells of its victims and leaves the others alone. -/
lemma foldl_evictOne_spec {inclusive : Bool}
    (hmove : IsMove inclusive move) (victims : List (Victim V)) (hs : s.Unlocked)
    (hfresh : ∀ w ∈ victims, w.Fresh s) (hkeys : victims.Pairwise (fun w w' => w.key ≠ w'.key)) :
    (victims.foldl (evictOne move) s).Unlocked ∧
      ∀ a, (victims.foldl (evictOne move) s).cell a = s.cell a ∨
        (victims.foldl (evictOne move) s).cell a = (s.cell a).demote inclusive := by
  induction victims generalizing s with
  | nil => exact ⟨hs, fun a => Or.inl rfl⟩
  | cons w victims ih =>
    obtain ⟨hne, hkeys⟩ := List.pairwise_cons.1 hkeys
    obtain ⟨hunlocked, hcell⟩ := evictOne_spec hmove hs (hfresh w (by simp))
    have hfresh' : ∀ w' ∈ victims, w'.Fresh (evictOne move s w) := by
      intro w' hw'
      rw [Victim.Fresh, hcell, update_of_ne (hne w' hw').symm]
      exact hfresh w' (by simp [hw'])
    obtain ⟨hrest, hcells⟩ := ih hunlocked hfresh' hkeys
    refine ⟨hrest, fun a => ?_⟩
    have ha := hcells a
    rw [hcell] at ha
    rcases eq_or_ne a w.key with rfl | hne'
    · rw [update_self, demote_demote] at ha
      exact Or.inr (ha.elim id id)
    · rwa [update_of_ne hne'] at ha

lemma examine_data (word key : ℕ) (tp : TaggedPayload V) :
    (examine word key tp).1.data = tp.data := by
  unfold examine
  split_ifs
  · exact tp.data_clearReferenced
  · rfl

lemma examine_victim {word key : ℕ} {tp : TaggedPayload V} {w : Victim V}
    (h : (examine word key tp).2 = some w) : w.key = key ∧ w.payload = tp := by
  unfold examine at h
  split_ifs at h
  · by_cases heven : word % 2 = 0
    · rw [readLock_of_even _ heven] at h
      obtain rfl : _ = w := by simpa using h
      exact ⟨rfl, rfl⟩
    · rw [readLock_of_odd _ (by omega)] at h
      simp at h

/-- **The walk** leaves payloads and modified bits alone, and picks fresh victims, at most one
for each of its keys. -/
lemma examineKeys_spec (locks : OptimisticLockTable) (keys : List ℕ)
    (hot : TreeMap ℕ (TaggedPayload V)) :
    (∀ a : ℕ, (examineKeys locks keys hot).1[a]?.map data =
      hot[a]?.map data) ∧
    (∀ w ∈ (examineKeys locks keys hot).2,
      hot[w.key]?.map data = some w.payload.data) ∧
    ((examineKeys locks keys hot).2.map Victim.key).Sublist keys := by
  induction keys generalizing hot with
  | nil => exact ⟨fun _ => rfl, by simp [examineKeys], List.Sublist.refl _⟩
  | cons key rest ih =>
    rcases htp : hot[key]? with _ | tp
    · simp only [examineKeys, htp]
      obtain ⟨hdata, hfresh, hsub⟩ := ih hot
      exact ⟨hdata, hfresh, hsub.cons key⟩
    simp only [examineKeys, htp]
    obtain ⟨hdata, hfresh, hsub⟩ := ih (hot.insert key (examine (locks.word key) key tp).1)
    have hsame : ∀ a : ℕ, (hot.insert key (examine (locks.word key) key tp).1)[a]?.map
        data = hot[a]?.map data := by
      intro a
      rw [getElem?_insert]
      split_ifs with ha
      · rw [← ha, htp, map_some, map_some, examine_data]
      · rfl
    refine ⟨fun a => (hdata a).trans (hsame a), fun w hw => ?_, ?_⟩
    · rcases List.mem_append.1 hw with hw | hw
      · obtain ⟨rfl, rfl⟩ := examine_victim (mem_toList.1 hw)
        rw [htp, map_some]
      · rw [← hsame]
        exact hfresh w hw
    · rcases hv : (examine (locks.word key) key tp).2 with _ | w
      · exact hsub.cons key
      · obtain ⟨rfl, -⟩ := examine_victim hv
        exact hsub.cons_cons w.key

/-- **An eviction** of any keys keeps each cell or demotes it. -/
lemma evictKeys_spec {inclusive : Bool}
    (hmove : IsMove inclusive move) (hs : s.Unlocked) {keys : List ℕ} (hkeys : keys.Nodup) :
    (evictKeys move s keys).Unlocked ∧
      ∀ a, (evictKeys move s keys).cell a = s.cell a ∨
        (evictKeys move s keys).cell a = (s.cell a).demote inclusive := by
  obtain ⟨hdata, hfresh, hsub⟩ := examineKeys_spec s.lockTable keys s.hot
  have hcell : ∀ a, cell { s with hot := (examineKeys s.lockTable keys s.hot).1 } a = s.cell a :=
    fun a => Cell.ext (hdata a) rfl
  have hloop := foldl_evictOne_spec hmove (examineKeys s.lockTable keys s.hot).2
    (s := { s with hot := (examineKeys s.lockTable keys s.hot).1 }) hs
    (fun w hw => by
      rw [Victim.Fresh, hcell]
      exact hfresh w hw)
    (List.pairwise_map.1 (hkeys.sublist hsub))
  refine ⟨hloop.1, fun a => ?_⟩
  rw [← hcell a]
  exact hloop.2 a

lemma nodup_unitKeys (s : Store V) (unitOf : ℕ → ℕ) (order : VisitOrder) (unit : ℕ) :
    (s.unitKeys unitOf order unit).Nodup :=
  (order.perm unit _).nodup_iff.2 (TreeMap.nodup_keys.filter _)

lemma nodup_of_claimUnits {c c' : EvictionClock} {steps units round : ℕ} {l : List ℕ}
    (h : claimUnits c steps units = some (l, round, c')) : l.Nodup := by
  unfold claimUnits at h
  split_ifs at h
  simp only [some.injEq, Prod.mk.injEq] at h
  rw [← h.1]
  exact List.nodup_range'

/-- No key is visited twice, since each is in one unit. -/
lemma nodup_flatMap_unitKeys (s : Store V) (unitOf : ℕ → ℕ) (order : VisitOrder)
    {units : List ℕ} (hunits : units.Nodup) :
    (units.flatMap (s.unitKeys unitOf order)).Nodup := by
  have hunit : ∀ unit k, k ∈ s.unitKeys unitOf order unit → unitOf k = unit := by
    intro unit k hk
    have hmem := (order.perm unit _).mem_iff.1 hk
    simpa using (List.mem_filter.1 hmem).2
  refine List.nodup_flatMap.2 ⟨fun unit _ => nodup_unitKeys s unitOf order unit, ?_⟩
  refine hunits.imp (fun hne k hk hk' => hne ?_)
  exact (hunit _ k hk).symm.trans (hunit _ k hk')

/-! ## Operations -/

/-- **A writing operation of an unlocked store returns**; it runs its body, which must not touch
the locks, and leaves the store unlocked. -/
lemma underWriteLock_spec (hs : s.Unlocked) (fuel k : ℕ) (body : Store V → Store V)
    {c : Cell V} (hbody : ∀ t, (body t).lockTable = t.lockTable)
    (hcell : ∀ t : Store V, t.cell = s.cell → (body t).cell = update s.cell k c) :
    ∃ s', s.underWriteLock (fuel + 1) k body = some s' ∧ s'.Unlocked ∧
      s'.cell = update s.cell k c := by
  rw [underWriteLock, OptimisticLockTable.Unlocked.spinWriteLock hs]
  refine ⟨_, rfl, ?_, hcell _ rfl⟩
  change OptimisticLockTable.Unlocked (OptimisticLockTable.release (body _).lockTable k _)
  rw [hbody]
  exact OptimisticLockTable.Unlocked.release hs k _

/-- An admission of a clean entry that may be refused; whether it is depends on `ok`. -/
structure IsAdmission (ok : Bool) (admission : Store V → ℕ → V → Bool × Store V) : Prop where
  lockTable : ∀ s k v, (admission s k v).2.lockTable = s.lockTable
  admitted : ∀ s k v, s.hot[k]? = none → (admission s k v).1 = ok
  cell : ∀ s k v, s.hot[k]? = none → (admission s k v).2.cell =
    if ok then update s.cell k ⟨some (v, false), (s.cell k).cold⟩ else s.cell

/-- What a migration with the value `v` makes of the cell of its key. -/
def movedCell (inclusive ok : Bool) (v : V) (c : Cell V) : Cell V :=
  if ok then ⟨some (v, false), if inclusive then c.cold else none⟩ else c

lemma moveUp_eq (admission : Store V → ℕ → V → Bool × Store V) (s : Store V) (k : ℕ) (v : V) :
    s.moveUp cfg admission k v = if !cfg.inclusive && (admission s k v).1 then
      (admission s k v).2.removeCold k else (admission s k v).2 := rfl

lemma lockTable_moveUp {ok : Bool}
    (hadm : IsAdmission ok admission) (cfg : Config) (s : Store V) (k : ℕ) (v : V) :
    (s.moveUp cfg admission k v).lockTable = s.lockTable := by
  rw [moveUp_eq]
  split_ifs
  · exact hadm.lockTable s k v
  · exact hadm.lockTable s k v

lemma cell_moveUp {ok : Bool}
    (hadm : IsAdmission ok admission) (cfg : Config) (h : s.hot[k]? = none) (v : V) :
    (s.moveUp cfg admission k v).cell =
      update s.cell k (movedCell cfg.inclusive ok v (s.cell k)) := by
  have hok := hadm.admitted s k v h
  have hcell := hadm.cell s k v h
  rw [moveUp_eq, hok]
  cases ok with
  | false => simpa [movedCell] using hcell
  | true =>
    cases hinc : cfg.inclusive with
    | true => simpa [movedCell] using hcell
    | false =>
      rw [if_pos rfl] at hcell
      simp [cell_removeCold, hcell, movedCell]

lemma movedCell_eq {inclusive ok : Bool} {c : Cell V} (hhot : c.hot = none)
    (hcold : c.cold = some v) :
    movedCell inclusive ok v c = c ∨ movedCell inclusive ok v c = c.promote inclusive := by
  cases ok
  · exact Or.inl rfl
  · right
    cases inclusive <;> simp [movedCell, promote, hhot, hcold]

lemma data_touch (tp : TaggedPayload V) : (touch tp).data = tp.data := by
  unfold touch
  split_ifs
  · rfl
  · exact tp.data_setReferenced

/-- **What a lookup of an unlocked store does**: it touches a hot record, or reads the cold map, or
migrates what it found there. -/
lemma lookupLoop_cases {ok : Bool}
    (hadm : IsAdmission ok admission) (cfg : Config) (migrates : Bool) (hs : s.Unlocked)
    (fuel k : ℕ) :
    (∃ tp, s.hot[k]? = some tp ∧ lookupLoop cfg migrates admission k (fuel + 1) s =
      some ({ s with hot := s.hot.insert k (touch tp) }, some tp.payload)) ∨
    (s.hot[k]? = none ∧ (s.cold[k]? = none ∨ migrates = false) ∧
      lookupLoop cfg migrates admission k (fuel + 1) s = some (s, s.cold[k]?)) ∨
    ∃ v locks locks', s.hot[k]? = none ∧ s.cold[k]? = some v ∧ migrates = true ∧
      OptimisticLockTable.Unlocked locks' ∧
      lookupLoop cfg migrates admission k (fuel + 1) s =
        some ({ moveUp cfg admission { s with lockTable := locks } k v with lockTable := locks' },
          some v) := by
  have hread := readLock_of_even
    (construct (s.lockTable.word k))
    (OptimisticLockTable.Unlocked.word hs k)
  -- the paths on which the guard stays a reader
  have hreader : ∀ s₁ res, s.lookupInternal cfg migrates admission k
        ⟨s.lockTable.word k, .readLocked⟩ = (s₁, ⟨s.lockTable.word k, .readLocked⟩, res) →
      s₁.lockTable = s.lockTable →
      lookupLoop cfg migrates admission k (fuel + 1) s = some (s₁, res) := by
    intro s₁ res hint hlock
    have hvalid : validate (s₁.lockTable.word k)
        ⟨s.lockTable.word k, .readLocked⟩ = true := by
      simp [validate, hlock]
    simp [lookupLoop, hread, hint, hvalid, OptimisticLockTable.release_readLocked]
  rcases hhot : s.hot[k]? with _ | tp
  · rcases hcold : s.cold[k]? with _ | v
    · refine Or.inr (Or.inl ⟨rfl, Or.inl rfl, hreader s _ ?_ rfl⟩)
      simp [lookupInternal, hhot, hcold]
    cases migrates with
    | false =>
      refine Or.inr (Or.inl ⟨rfl, Or.inr rfl, hreader s _ ?_ rfl⟩)
      simp [lookupInternal, hhot, hcold]
    | true =>
      set s₀ : Store V := { s with lockTable := s.lockTable.setWord k
                                    (u64 (s.lockTable.word k + 1)) } with hs₀
      have hint : s.lookupInternal cfg true admission k ⟨s.lockTable.word k, .readLocked⟩ =
          (s₀.moveUp cfg admission k v, ⟨u64 (s.lockTable.word k + 1), .writeLocked⟩,
            some v) := by
        simp [lookupInternal, hhot, hcold, upgradeToWriteLock,
          acquire_of_eq, hs₀]
      have hlock : (s₀.moveUp cfg admission k v).lockTable = s₀.lockTable :=
        lockTable_moveUp hadm cfg s₀ k v
      have hvalid : validate (s₀.lockTable.word k)
          ⟨u64 (s.lockTable.word k + 1), .writeLocked⟩ = true := by
        simp [validate, hs₀]
      refine Or.inr (Or.inr ⟨v, s₀.lockTable, s₀.lockTable.release k
        ⟨u64 (s.lockTable.word k + 1), .writeLocked⟩, rfl, rfl, rfl,
        OptimisticLockTable.Unlocked.release hs k _, ?_⟩)
      simp only [lookupLoop, hread, hint, hvalid, if_true, hlock]
      rfl
  · refine Or.inl ⟨tp, rfl, hreader _ _ ?_ rfl⟩
    simp [lookupInternal, hhot]

/-- **A lookup of an unlocked store returns the value of the cell**, and leaves the cell alone or
promotes it. -/
lemma lookupLoop_spec {ok : Bool}
    (hadm : IsAdmission ok admission) (cfg : Config) (migrates : Bool) (hs : s.Unlocked)
    (fuel k : ℕ) :
    ∃ s', lookupLoop cfg migrates admission k (fuel + 1) s = some (s', (s.cell k).view) ∧
      s'.Unlocked ∧ ∃ c, s'.cell = update s.cell k c ∧
        (c = s.cell k ∨ c = (s.cell k).promote cfg.inclusive) := by
  rcases lookupLoop_cases hadm cfg migrates hs fuel k with
    ⟨tp, hhot, hrun⟩ | ⟨hhot, -, hrun⟩ | ⟨v, locks, locks', hhot, hcold, -, hunlocked, hrun⟩
  · have hcell := cell_of_hot hhot
    refine ⟨{ s with hot := s.hot.insert k (touch tp) }, hrun.trans (by rw [hcell]; rfl), hs,
      s.cell k, ?_, Or.inl rfl⟩
    rw [cell_insert_hot, data_touch, hcell]
  · have hcell := cell_of_hot_none hhot
    exact ⟨s, hrun.trans (by rw [hcell]; rfl), hs, s.cell k, by simp, Or.inl rfl⟩
  · have hcell := cell_of_hot_none hhot
    refine ⟨{ moveUp cfg admission { s with lockTable := locks } k v with lockTable := locks' },
      hrun.trans (by rw [hcell, view_none_hot, hcold]), hunlocked,
      movedCell cfg.inclusive ok v (s.cell k),
      cell_moveUp hadm cfg (s := { s with lockTable := locks }) hhot v, ?_⟩
    exact movedCell_eq (by rw [hcell]) (by rw [hcell]; exact hcold)

lemma cell_insertLocked (h : s.hot[k]? = none) (v : V) :
    (insertLocked k v s).cell =
      update s.cell k ⟨some (v, true), (s.cell k).cold⟩ :=
  cell_admitElement h v true false

end Store

end TwoTree.Tiered
