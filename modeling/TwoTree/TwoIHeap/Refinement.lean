import TwoTree.TwoIHeap.Adapter
import TwoTree.Tiered.Refinement

/-!
# Which runs of the indexed-heap adapter keep the values last written

Every call of the indexed-heap adapter returns, and all of them but some updates keep the value
last written to every key.  Its admission never refuses, so no value is lost at once; but an
`update` of a key that is in the cold heap file only is admitted clean, and an inclusive adapter
drops it at the next eviction of its key, from the heap or from the index (`update_forgotten`).

`KeepingRun` are the runs in which every update meets `UpdateLasts` in the state after the
eviction it begins with; in the states they lead to, lookups yield the values last written
(`lookup_yields_of_keepingRun`).  All runs of an exclusive adapter within the contract are of
this kind.
-/

namespace TwoTree.TwoIHeap

open Std Lib Lib.OrderedMap LockManager ConcurrentTwoBTree Tiered Store

variable {V : Type*}

namespace Adapter

/-- The adapter holds the map `m`. -/
def Refines (cfg : HeapConfig) (s : Adapter V) (m : ℕ → Option V) : Prop :=
  s.store.Refines cfg.inclusive m

lemma refines_init (cfg : HeapConfig) (pages : ℕ) :
    Refines cfg (init pages : Adapter V) (fun _ => none) :=
  Store.refines_init cfg.inclusive

variable {cfg : HeapConfig} {s s' : Adapter V} {m : ℕ → Option V} {k fuel : ℕ} {v : V}
  {ch : Choices}

/-! ## Evictions -/

lemma Refines.evictABunchFromHeap (h : Refines cfg s m) (ch : Choices) :
    Refines cfg (s.evictABunchFromHeap cfg ch) m := by
  unfold Adapter.evictABunchFromHeap
  rcases hclaim : claimUnits s.clock kClockWalkSteps s.heapPages with
    _ | ⟨pages, round, clock⟩
  · exact h
  · exact Store.Refines.evictKeys h (isMove_writeBackThenRemove cfg.toConfig)
      (nodup_flatMap_unitKeys s.store _ ch.order (nodup_of_claimUnits hclaim))

lemma nodup_rangeKeys (s : Adapter V) (range : ClaimedRange) : (s.rangeKeys range).Nodup := by
  have hkeys : ((scanFrom s.store.hot range.startKey).map Prod.fst).Nodup :=
    List.pairwise_map.2 ((pairwise_scanFrom _ _).imp (fun hlt => Nat.ne_of_lt hlt))
  exact hkeys.sublist (List.takeWhile_sublist _)

lemma Refines.evictABunchFromIndex (h : Refines cfg s m) (ch : Choices) :
    Refines cfg (s.evictABunchFromIndex cfg ch) m := by
  unfold Adapter.evictABunchFromIndex
  rcases s.clock.claim ch.boundary with _ | ⟨range, clock⟩
  · exact h
  · exact Store.Refines.evictKeys h (isMove_writeBackThenRemove cfg.toConfig)
      (nodup_rangeKeys s range)

lemma Refines.evictABunch (h : Refines cfg s m) (ch : Choices) :
    Refines cfg (s.evictABunch cfg ch) m := by
  unfold Adapter.evictABunch
  split_ifs
  · exact h.evictABunchFromIndex ch
  · exact h.evictABunchFromHeap ch

lemma Refines.tryEviction (h : Refines cfg s m) (ch : Choices) :
    Refines cfg (s.tryEviction cfg ch) m := by
  unfold Adapter.tryEviction
  split_ifs
  · exact h.evictABunch ch
  · exact h

/-! ## The calls -/

lemma isAdmission_admitDefault : Store.IsAdmission (V := V) true admitDefault where
  lockTable := fun _ _ _ => rfl
  admitted := fun _ _ _ _ => rfl
  cell := fun _ _ v h => cell_admitElement h v false true

/-- **A lookup** yields the value of the map. -/
lemma Refines.lookup (h : Refines cfg s m) (fuel k : ℕ) (ch : Choices) :
    ∃ s', s.lookup (fuel + 1) cfg k ch = some (s', m k) ∧ Refines cfg s' m := by
  obtain ⟨t, hrun, ht⟩ := Store.Refines.lookupLoop (h.tryEviction ch) isAdmission_admitDefault
    (cfg.shouldMigrate ch.migrateDraw) fuel k
  refine ⟨{ s.tryEviction cfg ch with
    store := t, heapPages := (s.tryEviction cfg ch).heapPages + ch.newPages }, ?_, ht⟩
  rw [Adapter.lookup, hrun]
  rfl

lemma exists_write {body : Store V → Store V} {t : Store V}
    (hrun : (s.tryEviction cfg ch).store.underWriteLock fuel k body = some t) :
    ∃ s', s.write fuel cfg k ch body = some s' ∧ s'.store = t := by
  refine ⟨{ s.tryEviction cfg ch with
    store := t, heapPages := (s.tryEviction cfg ch).heapPages + ch.newPages }, ?_, rfl⟩
  rw [write, hrun]
  rfl

lemma Refines.insert (h : Refines cfg s m) (fuel : ℕ) (hk : m k = none) (v : V) (ch : Choices) :
    ∃ s', s.insert (fuel + 1) cfg k v ch = some s' ∧
      Refines cfg s' (Function.update m k (some v)) := by
  obtain ⟨t, hrun, ht⟩ := Store.Refines.insert (h.tryEviction ch) fuel hk v
  obtain ⟨s', hs', rfl⟩ := exists_write hrun
  exact ⟨s', hs', ht⟩

lemma cell_putLocked (cfg : HeapConfig) (k : ℕ) (v : V) (t : Store V) :
    (putLocked cfg k v t).cell =
      Function.update t.cell k ((t.cell k).put cfg.inclusive v) := by
  rcases hhot : t.hot[k]? with _ | tp
  · have hput : (t.cell k).put cfg.inclusive v = (t.cell k).write cfg.inclusive v := by
      rw [cell_of_hot_none hhot]
      rfl
    have hadm := cell_admitElement (s := t) hhot v true false
    rw [hput]
    simp only [putLocked, updateInPlace_of_none hhot]
    cases hinc : cfg.inclusive with
    | true => exact hadm
    | false =>
      refine (cell_removeCold (t.admitElement k v true false) k).trans ?_
      rw [hadm]
      simp [Cell.write]
  · simp only [putLocked, updateInPlace_of_some hhot]
    rw [cell_insert_hot, TaggedPayload.data_overwrite, cell_of_hot hhot]
    rfl

lemma lockTable_putLocked (cfg : HeapConfig) (k : ℕ) (v : V) (t : Store V) :
    (putLocked cfg k v t).lockTable = t.lockTable := by
  rcases hhot : t.hot[k]? with _ | tp
  · simp only [putLocked, updateInPlace_of_none hhot]
    split_ifs <;> rfl
  · simp [putLocked, updateInPlace_of_some hhot]

lemma Refines.put (h : Refines cfg s m) (fuel k : ℕ) (v : V) (ch : Choices) :
    ∃ s', s.put (fuel + 1) cfg k v ch = some s' ∧
      Refines cfg s' (Function.update m k (some v)) := by
  obtain ⟨t, hrun, ht⟩ := Store.Refines.put (h.tryEviction ch) fuel k v
    (lockTable_putLocked cfg k v) (cell_putLocked cfg k v)
  obtain ⟨s', hs', rfl⟩ := exists_write hrun
  exact ⟨s', hs', ht⟩

lemma cell_updateLocked (cfg : HeapConfig) (ch : Choices) (k : ℕ) (v : V) (t : Store V) :
    (updateLocked cfg ch k v t).cell = Function.update t.cell k
      (updateCell cfg.inclusive (cfg.shouldMigrate ch.migrateDraw) true v (t.cell k)) := by
  rcases hhot : t.hot[k]? with _ | tp
  · have hcell := cell_of_hot_none hhot
    simp only [updateLocked, updateInPlace_of_none hhot]
    split_ifs with hmigrate
    · rw [cell_moveUp isAdmission_admitDefault cfg.toConfig hhot v, hmigrate, hcell]
      rfl
    · rw [cell_updateCold, Bool.eq_false_iff.2 hmigrate, hcell]
      rfl
  · simp only [updateLocked, updateInPlace_of_some hhot]
    rw [cell_insert_hot, TaggedPayload.data_overwrite, cell_of_hot hhot]
    rfl

lemma lockTable_updateLocked (cfg : HeapConfig) (ch : Choices) (k : ℕ) (v : V) (t : Store V) :
    (updateLocked cfg ch k v t).lockTable = t.lockTable := by
  rcases hhot : t.hot[k]? with _ | tp
  · simp only [updateLocked, updateInPlace_of_none hhot]
    split_ifs
    · exact lockTable_moveUp isAdmission_admitDefault cfg.toConfig t k v
    · rfl
  · simp [updateLocked, updateInPlace_of_some hhot]

/-- The condition under which an update lasts, in the state after the eviction of the call. -/
def UpdateLastsAt (cfg : HeapConfig) (ch : Choices) (k : ℕ) (v : V) (s : Adapter V) : Prop :=
  UpdateLasts cfg.inclusive (cfg.shouldMigrate ch.migrateDraw) true v
    ((s.tryEviction cfg ch).store.cell k)

/-- **An update** lasts exactly under the condition, and then the adapter holds the updated
map. -/
lemma Refines.update (h : Refines cfg s m) (fuel : ℕ) (hk : m k ≠ none) (v : V) (ch : Choices) :
    ∃ s', s.update (fuel + 1) cfg k v ch = some s' ∧
      ((s'.store.cell k).Lasting cfg.inclusive v ↔ UpdateLastsAt cfg ch k v s) ∧
      (UpdateLastsAt cfg ch k v s → Refines cfg s' (Function.update m k (some v))) := by
  obtain ⟨t, hrun, hlasting, ht⟩ := Store.Refines.update (h.tryEviction ch) fuel k v
    (lockTable_updateLocked cfg ch k v) (fun t _ => cell_updateLocked cfg ch k v t) hk
  obtain ⟨s', hs', rfl⟩ := exists_write hrun
  exact ⟨s', hs', hlasting, ht⟩

/-! ## Runs -/

/-- If the call is an update, it lasts. -/
def CallLasts (cfg : HeapConfig) (s : Adapter V) (ch : Choices) : Op V → Prop
  | .update k v => UpdateLastsAt cfg ch k v s
  | _ => True

lemma callLasts_of_exclusive (hcfg : cfg.inclusive = false) (s : Adapter V) (ch : Choices)
    (op : Op V) : CallLasts cfg s ch op := by
  cases op with
  | update k v => exact Or.inr (Or.inr (Or.inl ⟨rfl, hcfg⟩))
  | _ => trivial

/-- **One call** that the contract allows, and that lasts if it is an update, returns and keeps
the adapter in step with the map. -/
lemma Refines.step (h : Refines cfg s m) (fuel : ℕ) {op : Op V} (hop : op.Admissible m)
    (hlasts : CallLasts cfg s ch op) :
    ∃ s', s.step (fuel + 1) cfg (op, ch) = some s' ∧ Refines cfg s' (op.apply m) := by
  cases op with
  | insert k v => exact h.insert fuel hop v ch
  | update k v =>
    obtain ⟨s', hs', -, href⟩ := h.update fuel hop v ch
    exact ⟨s', hs', href hlasts⟩
  | put k v => exact h.put fuel k v ch
  | lookup k =>
    obtain ⟨s', hs', href⟩ := h.lookup fuel k ch
    exact ⟨s', by simp [Adapter.step, hs'], href⟩
  | evict => exact ⟨_, rfl, h.evictABunch ch⟩

/-- The runs in which every call is within the contract, and lasts if it is an update. -/
def KeepingRun (cfg : HeapConfig) (s₀ : Adapter V) (ops : List (Op V × Choices))
    (s : Adapter V) : Prop :=
  Runs (fun s m i => i.1.Admissible m ∧ CallLasts cfg s i.2 i.1)
    (fun s i s' => ∃ fuel, s.step (fuel + 1) cfg i = some s') (fun m i => i.1.apply m)
    s₀ (fun _ => none) ops s

lemma KeepingRun.refines {pages : ℕ} {ops : List (Op V × Choices)}
    (h : KeepingRun cfg (init pages) ops s) : Refines cfg s (contents (ops.map Prod.fst)) := by
  rw [contents, List.foldl_map]
  refine Runs.simulates (fun s m i t hs hi ht => ?_) h (refines_init cfg pages)
  obtain ⟨fuel, hstep⟩ := ht
  obtain ⟨t', hstep', href⟩ := hs.step fuel hi.1 hi.2
  obtain rfl := Option.some.inj (hstep'.symm.trans hstep)
  exact href

/-- **Lookups yield the values last written, if all updates last.**  In every state a run of
calls within the contract leads to whose updates all meet the condition: every lookup returns the
value last written; every next call within the contract that lasts if it is an update continues
the run, which it always does in an exclusive adapter; and the next update, of any key that was
written, is read now and after an eviction of its key exactly if it meets the condition. -/
theorem lookup_yields_of_keepingRun (cfg : HeapConfig) (pages : ℕ)
    {ops : List (Op V × Choices)} {s : Adapter V} (h : KeepingRun cfg (init pages) ops s) :
    (∀ k ch fuel, ∃ s',
      s.lookup (fuel + 1) cfg k ch = some (s', contents (ops.map Prod.fst) k)) ∧
    (∀ (op : Op V) ch fuel, op.Admissible (contents (ops.map Prod.fst)) →
      cfg.inclusive = false ∨ CallLasts cfg s ch op →
      ∃ s', s.step (fuel + 1) cfg (op, ch) = some s') ∧
    (∀ k v ch fuel, contents (ops.map Prod.fst) k ≠ none →
      ∃ s', s.update (fuel + 1) cfg k v ch = some s' ∧
        ((s'.store.cell k).Lasting cfg.inclusive v ↔ UpdateLastsAt cfg ch k v s)) := by
  have href := h.refines
  refine ⟨fun k ch fuel => ?_, fun op ch fuel hop hlasts => ?_, fun k v ch fuel hk => ?_⟩
  · obtain ⟨s', hlookup, -⟩ := href.lookup fuel k ch
    exact ⟨s', hlookup⟩
  · obtain ⟨s', hstep, -⟩ :=
      href.step fuel hop (hlasts.elim (fun hcfg => callLasts_of_exclusive hcfg s ch op) id)
    exact ⟨s', hstep⟩
  · obtain ⟨s', hrun, hlasting, -⟩ := href.update fuel hk v ch
    exact ⟨s', hrun, hlasting⟩

/-- Choices under which nothing is evicted before a call; all records are on page 0, and the
index ends at key 1. -/
def calm : Choices := ⟨false, fun _ => 0, .ascending, some (1, true), 0, 0⟩

/-- An inclusive configuration that migrates every record it reads. -/
def eager (evictionUsingIndexScan : Bool) : HeapConfig :=
  ⟨⟨true, false, 10⟩, evictionUsingIndexScan⟩

/-- An update of a hot record lasts. -/
theorem lookup_yields_of_keepingRun_hot :
    let ops : List (Op ℕ × Choices) := [(.insert 1 10, calm), (.update 1 20, calm)]
    ∃ s s', KeepingRun (eager false) (init 1) ops s ∧
      s.lookup 1 (eager false) 1 calm = some (s', some 20) := by
  intro ops
  obtain ⟨s, hrun⟩ : ∃ s, KeepingRun (eager false) (init 1) ops s := by
    refine ⟨_, ⟨rfl, trivial⟩, _, ⟨0, rfl⟩, ⟨?_, Or.inl ?_⟩, _, ⟨0, rfl⟩, rfl⟩
    · simp [Op.Admissible, Op.apply]
    · decide
  obtain ⟨s', hs'⟩ := (lookup_yields_of_keepingRun _ _ hrun).1 1 calm 0
  exact ⟨s, s', hrun, hs'⟩

/-- **An update that is lost.**  The record of key 1 is inserted with value 10, evicted, and
updated to 20.  An inclusive adapter reads 20 at first, and 10 again after two evictions, from
the heap or from the index. -/
theorem update_forgotten :
    let read := fun (usingIndex : Bool) (s : Adapter ℕ) =>
      (s.lookup 1 (eager usingIndex) 1 calm).map Prod.snd
    let updated := [(Op.insert 1 10, calm), (.evict, calm), (.update 1 20, calm)]
    (∀ usingIndex, ((init 1).run 1 (eager usingIndex) updated).bind (read usingIndex) =
      some (some 20)) ∧
    ∀ usingIndex, ((init 1).run 1 (eager usingIndex) (updated ++ [(.evict, calm), (.evict, calm)])).bind
      (read usingIndex) = some (some 10) := by
  decide

end Adapter

end TwoTree.TwoIHeap
