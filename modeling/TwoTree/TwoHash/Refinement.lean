import TwoTree.TwoHash.Adapter
import TwoTree.Tiered.Refinement

/-!
# Which runs of the hash adapter keep the values last written

The hash adapter keeps the value last written to every key through all calls but some updates.
An `update` of a key that is in the cold table only passes the new value to the admission a
lookup uses: the entry is admitted clean, or, mostly, only if the hot table has room.  A refused
value is lost at once, and in an inclusive adapter a clean one at the next eviction of its key
(`update_dropped`).

`LastingRun` are the runs in which every update meets `UpdateLasts` in the state after the
evictions it begins with.  In the states they lead to, a lookup whose evictions return yields the
value last written (`lookup_yields_of_lastingRun`); evictions that do not return are those by
records from an empty hot table.
-/

namespace TwoTree.TwoHash

open Std Lib Lib.OrderedMap LockManager ConcurrentTwoBTree Tiered Store Option

variable {V : Type*}

namespace Adapter

/-- The adapter holds the map `m`, and the keys it has set aside for eviction are distinct. -/
structure Refines (cfg : HashConfig) (s : Adapter V) (m : ℕ → Option V) : Prop where
  store : s.store.Refines cfg.inclusive m
  nodup : s.currentBucketKeysForEviction.Nodup

lemma refines_init (cfg : HashConfig) (refCounter : Fin 2 → ℕ) (buckets : ℕ) :
    Refines cfg (init refCounter buckets : Adapter V) (fun _ => none) :=
  ⟨Store.refines_init cfg.inclusive, List.nodup_nil⟩

variable {cfg : HashConfig} {s s' s₁ : Adapter V} {m : ℕ → Option V} {k fuel : ℕ} {v : V}
  {ch : Choices}

/-! ## Evictions -/

/-- A property of adapters that the parts of an eviction keep. -/
structure KeptByEvictions (cfg : HashConfig) (P : Adapter V → Prop) : Prop where
  buckets : ∀ s ch, P s → P (s.evictABunchBuckets cfg ch)
  enter : ∀ s ch b, P s → P (s.enterBucket cfg ch b)
  records : ∀ s, P s → P (s.evictRecords cfg)

namespace KeptByEvictions

variable {P : Adapter V → Prop}

variable (hP : KeptByEvictions cfg P)
include hP

lemma seekRecords (h : P s) (hseek : seekRecords cfg ch fuel s = some s') : P s' := by
  induction fuel generalizing s with
  | zero => simp [Adapter.seekRecords] at hseek
  | succ fuel ih =>
    rw [Adapter.seekRecords] at hseek
    split_ifs at hseek
    · exact ih (hP.enter s ch _ h) hseek
    · obtain rfl := some.inj hseek
      exact h

lemma evictABunch (h : P s) (hevict : s.evictABunch fuel cfg ch = some s') : P s' := by
  unfold Adapter.evictABunch at hevict
  split_ifs at hevict
  · unfold evictABunchRecords at hevict
    obtain ⟨t, hseek, rfl⟩ := map_eq_some_iff.1 hevict
    refine hP.records t (hP.seekRecords ?_ hseek)
    split_ifs
    · exact hP.enter s ch 0 h
    · exact h
  · obtain rfl := some.inj hevict
    exact hP.buckets s ch h

lemma evictWhile (h : P s) {steps : ℤ}
    (hevict : evictWhile cfg ch fuel steps s = some s') : P s' := by
  induction fuel generalizing s steps with
  | zero => simp [Adapter.evictWhile] at hevict
  | succ fuel ih =>
    rw [Adapter.evictWhile] at hevict
    by_cases hsteps : steps > 0
    · rw [if_pos hsteps] at hevict
      obtain ⟨t, ht, hrest⟩ := bind_eq_some_iff.1 hevict
      exact ih (hP.evictABunch h ht) hrest
    · rw [if_neg hsteps] at hevict
      obtain rfl := some.inj hevict
      exact h

/-- **What the parts of an eviction keep, the evictions of a call keep.** -/
lemma tryEviction (h : P s) (hevict : s.tryEviction fuel cfg ch = some s') : P s' := by
  unfold Adapter.tryEviction at hevict
  split_ifs at hevict
  · exact hP.evictWhile h hevict
  · obtain rfl := some.inj hevict
    exact h

end KeptByEvictions

/-- What evicting distinct keys keeps of the store, an eviction keeps: its keys are distinct. -/
lemma keptByEvictions_of_evictKeys {Q : Store V → Prop}
    (hbuckets : ∀ t keys, List.Nodup keys → Q t →
      Q (evictKeys (removeThenWriteBack cfg.toConfig) t keys))
    (hrecords : ∀ t keys, List.Nodup keys → Q t →
      Q (evictKeys (writeBackThenRemove cfg.toConfig) t keys)) :
    KeptByEvictions cfg (fun s => Q s.store ∧ s.currentBucketKeysForEviction.Nodup) where
  buckets s ch h := by
    unfold Adapter.evictABunchBuckets
    rcases hclaim : claimUnits s.clock kClockWalkSteps s.hotBuckets with
      _ | ⟨buckets, round, clock⟩
    · exact h
    · exact ⟨hbuckets _ _ (nodup_flatMap_unitKeys s.store _ ch.order
        (nodup_of_claimUnits hclaim)) h.1, h.2⟩
  enter s ch b h := ⟨h.1, nodup_unitKeys s.store _ ch.order b⟩
  records s h := by
    unfold Adapter.evictRecords
    dsimp only
    split_ifs
    · exact h
    · refine ⟨hrecords _ _ ?_ h.1, h.2⟩
      exact h.2.sublist ((List.take_sublist _ _).trans (List.drop_sublist _ _))

lemma keptByEvictions_refines (cfg : HashConfig) (m : ℕ → Option V) :
    KeptByEvictions cfg (fun s => Refines cfg s m) := by
  have hkept :=
    keptByEvictions_of_evictKeys (Q := fun t : Store V => t.Refines cfg.inclusive m)
      (fun _ _ hkeys h => h.evictKeys (isMove_removeThenWriteBack cfg.toConfig) hkeys)
      (fun _ _ hkeys h => h.evictKeys (isMove_writeBackThenRemove cfg.toConfig) hkeys)
  refine ⟨fun s ch h => ?_, fun s ch b h => ?_, fun s h => ?_⟩
  · obtain ⟨hstore, hnodup⟩ := hkept.buckets s ch ⟨h.store, h.nodup⟩
    exact ⟨hstore, hnodup⟩
  · obtain ⟨hstore, hnodup⟩ := hkept.enter s ch b ⟨h.store, h.nodup⟩
    exact ⟨hstore, hnodup⟩
  · obtain ⟨hstore, hnodup⟩ := hkept.records s ⟨h.store, h.nodup⟩
    exact ⟨hstore, hnodup⟩

lemma Refines.evictABunch (h : Refines cfg s m)
    (hevict : s.evictABunch fuel cfg ch = some s') : Refines cfg s' m :=
  (keptByEvictions_refines cfg m).evictABunch h hevict

lemma Refines.tryEviction (h : Refines cfg s m)
    (hevict : s.tryEviction fuel cfg ch = some s') : Refines cfg s' m :=
  (keptByEvictions_refines cfg m).tryEviction h hevict

/-! ## Admission -/

/-- Whether the admission of `lookup` and `update` takes place. -/
def admits (ch : Choices) : Bool := ch.admitDraw < 5 || ch.room

lemma insertHotPartitionMightFail_of_none {t : Store V} (h : t.hot[k]? = none) (room : Bool)
    (v : V) (modified referenced : Bool) :
    insertHotPartitionMightFail room t k v modified referenced =
      (room, if room then t.insertHotPartition k v modified referenced
        else { t with hotPartitionItemCount := t.hotPartitionItemCount + 1 }) := by
  cases room
  · simp [insertHotPartitionMightFail, insertMightFail_of_none h]
  · simp [insertHotPartitionMightFail, insertMightFail_of_none h, insertHotPartition,
      insertNew_of_none h]

lemma lockTable_insertHotPartitionMightFail (room : Bool) (t : Store V) (k : ℕ) (v : V)
    (modified referenced : Bool) :
    (insertHotPartitionMightFail room t k v modified referenced).2.lockTable = t.lockTable := by
  unfold insertHotPartitionMightFail
  dsimp only
  split <;> rfl

lemma isAdmission_admitDefault (ch : Choices) :
    Store.IsAdmission (V := V) (admits ch) (admitDefault ch) where
  lockTable := fun t k v => by
    unfold admitDefault admitElementMightFail
    split_ifs
    · rfl
    · exact lockTable_insertHotPartitionMightFail _ _ _ _ _ _
  admitted := fun t k v h => by
    unfold admitDefault admits admitElementMightFail
    split_ifs with hdraw
    · simp [hdraw]
    · simp [hdraw, insertHotPartitionMightFail_of_none h]
  cell := fun t k v h => by
    have hcell : (t.insertHotPartition k v false true).cell = _ :=
      cell_admitElement h v false true
    unfold admitDefault admits admitElementMightFail
    split_ifs with hdraw hok hok
    · exact hcell
    · simp [hdraw] at hok
    · have hroom : ch.room = true := by simpa [hdraw] using hok
      rw [insertHotPartitionMightFail_of_none h, if_pos hroom]
      exact hcell
    · have hroom : ch.room = false := by simpa [hdraw] using hok
      rw [insertHotPartitionMightFail_of_none h, hroom]
      rfl

/-! ## The calls -/

/-- **A lookup whose evictions return** yields the value of the map. -/
lemma Refines.lookup (h : Refines cfg s m) (k : ℕ)
    (hevict : s.tryEviction (fuel + 1) cfg ch = some s₁) :
    ∃ s', s.lookup (fuel + 1) cfg k ch = some (s', m k) ∧ Refines cfg s' m := by
  have h₁ := h.tryEviction hevict
  obtain ⟨t, hrun, ht⟩ := h₁.store.lookupLoop (isAdmission_admitDefault ch)
    (cfg.shouldMigrate ch.migrateDraw) fuel k
  refine ⟨{ s₁ with store := t, hotBuckets := s₁.hotBuckets + ch.splits }, ?_, ht, h₁.nodup⟩
  rw [Adapter.lookup, hevict, bind_some, hrun]
  rfl

/-- A writing operation whose evictions return is its body, run on the store they leave. -/
lemma write_of_evicted {body : Store V → Store V} {t : Store V}
    (hevict : s.tryEviction fuel cfg ch = some s₁)
    (hrun : s₁.store.underWriteLock fuel k body = some t) :
    s.write fuel cfg k ch body =
      some { s₁ with store := t, hotBuckets := s₁.hotBuckets + ch.splits } := by
  rw [write, hevict, bind_some, hrun]
  rfl

lemma Refines.insert (h : Refines cfg s m) (hk : m k = none) (v : V)
    (hevict : s.tryEviction (fuel + 1) cfg ch = some s₁) :
    ∃ s', s.insert (fuel + 1) cfg k v ch = some s' ∧
      Refines cfg s' (Function.update m k (some v)) := by
  have h₁ := h.tryEviction hevict
  obtain ⟨t, hrun, ht⟩ := h₁.store.insert fuel hk v
  exact ⟨_, write_of_evicted hevict hrun, ht, h₁.nodup⟩

lemma data_overwrite (v : V) (tp : TaggedPayload V) : (overwrite v tp).data = (v, true) := by
  unfold overwrite
  dsimp only
  cases hmod : tp.modified <;> cases href : tp.referenced <;> simp [TaggedPayload.data, hmod]

lemma cell_putLocked (cfg : HashConfig) (k : ℕ) (v : V) (t : Store V) :
    (putLocked cfg k v t).cell =
      Function.update t.cell k ((t.cell k).put cfg.inclusive v) := by
  rcases hhot : t.hot[k]? with _ | tp
  · have hput : (t.cell k).put cfg.inclusive v = (t.cell k).write cfg.inclusive v := by
      rw [cell_of_hot_none hhot]
      rfl
    rw [hput]
    simp only [putLocked, updateInPlace_of_none hhot]
    cases hinc : cfg.inclusive with
    | true => exact cell_admitElement hhot v true true
    | false =>
      refine (cell_admitElement (s := t.removeCold k) hhot v true true).trans ?_
      simp [cell_removeCold, Cell.write]
  · simp only [putLocked, updateInPlace_of_some hhot]
    rw [cell_insert_hot, data_overwrite, cell_of_hot hhot]
    rfl

lemma lockTable_putLocked (cfg : HashConfig) (k : ℕ) (v : V) (t : Store V) :
    (putLocked cfg k v t).lockTable = t.lockTable := by
  rcases hhot : t.hot[k]? with _ | tp
  · simp only [putLocked, updateInPlace_of_none hhot]
    split_ifs <;> rfl
  · simp [putLocked, updateInPlace_of_some hhot]

lemma Refines.put (h : Refines cfg s m) (k : ℕ) (v : V)
    (hevict : s.tryEviction (fuel + 1) cfg ch = some s₁) :
    ∃ s', s.put (fuel + 1) cfg k v ch = some s' ∧
      Refines cfg s' (Function.update m k (some v)) := by
  have h₁ := h.tryEviction hevict
  obtain ⟨t, hrun, ht⟩ := h₁.store.put fuel k v (lockTable_putLocked cfg k v)
    (cell_putLocked cfg k v)
  exact ⟨_, write_of_evicted hevict hrun, ht, h₁.nodup⟩

lemma cell_updateLocked (cfg : HashConfig) (ch : Choices) (k : ℕ) (v : V) (t : Store V)
    (hview : (t.cell k).view ≠ none) :
    (updateLocked cfg ch k v t).cell = Function.update t.cell k
      (updateCell cfg.inclusive (cfg.shouldMigrate ch.migrateDraw) (admits ch) v (t.cell k)) := by
  rcases hhot : t.hot[k]? with _ | tp
  · have hcell := cell_of_hot_none hhot
    rcases hcold : t.cold[k]? with _ | w
    · simp [hcell, hcold] at hview
    simp only [updateLocked, updateInPlace_of_none hhot, hcold]
    split_ifs with hmigrate
    · rw [cell_moveUp (isAdmission_admitDefault ch) cfg.toConfig hhot v, hmigrate, hcell]
      rfl
    · rw [cell_updateCold, Bool.eq_false_iff.2 hmigrate, hcell]
      rfl
  · simp only [updateLocked, updateInPlace_of_some hhot]
    rw [cell_insert_hot, data_overwrite, cell_of_hot hhot]
    rfl

lemma lockTable_updateLocked (cfg : HashConfig) (ch : Choices) (k : ℕ) (v : V) (t : Store V) :
    (updateLocked cfg ch k v t).lockTable = t.lockTable := by
  rcases hhot : t.hot[k]? with _ | tp
  · rcases hcold : t.cold[k]? with _ | w
    · simp [updateLocked, updateInPlace_of_none hhot, hcold]
    · simp only [updateLocked, updateInPlace_of_none hhot, hcold]
      split_ifs
      · exact lockTable_moveUp (isAdmission_admitDefault ch) cfg.toConfig t k v
      · rfl
  · simp [updateLocked, updateInPlace_of_some hhot]

/-- The condition under which an update lasts, in the state after the evictions of the call. -/
def UpdateLastsAt (cfg : HashConfig) (ch : Choices) (k : ℕ) (v : V) (s₁ : Adapter V) : Prop :=
  UpdateLasts cfg.inclusive (cfg.shouldMigrate ch.migrateDraw) (admits ch) v (s₁.store.cell k)

/-- **An update whose evictions return** lasts exactly under the condition, and then the adapter
holds the updated map. -/
lemma Refines.update (h : Refines cfg s m) (hk : m k ≠ none) (v : V)
    (hevict : s.tryEviction (fuel + 1) cfg ch = some s₁) :
    ∃ s', s.update (fuel + 1) cfg k v ch = some s' ∧
      ((s'.store.cell k).Lasting cfg.inclusive v ↔ UpdateLastsAt cfg ch k v s₁) ∧
      (UpdateLastsAt cfg ch k v s₁ → Refines cfg s' (Function.update m k (some v))) := by
  have h₁ := h.tryEviction hevict
  obtain ⟨t, hrun, hlasting, ht⟩ := h₁.store.update fuel k v (lockTable_updateLocked cfg ch k v)
    (cell_updateLocked cfg ch k v) hk
  exact ⟨_, write_of_evicted hevict hrun, hlasting, fun hlasts => ⟨ht hlasts, h₁.nodup⟩⟩

/-! ## Evictions that return -/

/-- An eviction by buckets returns. -/
lemma exists_evictWhile (hbuckets : cfg.evictByRecords = false) (hpos : 0 < cfg.recordsPerPage)
    (ch : Choices) (n : ℕ) {steps : ℤ} (hsteps : steps ≤ n) (s : Adapter V) :
    ∃ s', evictWhile cfg ch (n + 1) steps s = some s' := by
  induction n generalizing steps s with
  | zero => exact ⟨s, by rw [evictWhile, if_neg (by omega)]⟩
  | succ n ih =>
    rw [evictWhile]
    split_ifs with hlt hrecords
    · simp [hbuckets] at hrecords
    · have hevict : s.evictABunch (n + 1) cfg ch = some (s.evictABunchBuckets cfg ch) := by
        simp [evictABunch, hbuckets]
      rw [hevict, bind_some]
      exact ih (by omega) _
    · exact ⟨s, rfl⟩

/-- The evictions of a call return if there is no memory pressure, and always by buckets. -/
lemma exists_tryEviction (s : Adapter V) {ch : Choices}
    (h : ch.pressure = false ∨ cfg.evictByRecords = false ∧ 0 < cfg.recordsPerPage) :
    ∃ s₁, s.tryEviction 11 cfg ch = some s₁ := by
  unfold tryEviction
  split_ifs with hpressure
  · rcases h with h | ⟨hbuckets, hpos⟩
    · simp [h] at hpressure
    · exact exists_evictWhile hbuckets hpos ch 10 (by norm_num) s
  · exact ⟨s, rfl⟩

/-! ## Runs -/

/-- If the call is an update, it lasts. -/
def CallLasts (cfg : HashConfig) (s : Adapter V) (ch : Choices) : Op V → Prop
  | .update k v =>
    ∀ fuel s₁, s.tryEviction fuel cfg ch = some s₁ → UpdateLastsAt cfg ch k v s₁
  | _ => True

/-- **One call.**  A call that returns, that the contract allows, and that lasts if it is an
update keeps the adapter in step with the map. -/
lemma Refines.step (h : Refines cfg s m) {op : Op V} (hop : op.Admissible m)
    (hlasts : CallLasts cfg s ch op)
    (hstep : s.step (fuel + 1) cfg (op, ch) = some s') : Refines cfg s' (op.apply m) := by
  cases op with
  | insert k v =>
    obtain ⟨s₁, hevict, -⟩ := bind_eq_some_iff.1 hstep
    obtain ⟨t, hrun, ht⟩ := h.insert hop v hevict
    obtain rfl := some.inj (hrun.symm.trans hstep)
    exact ht
  | update k v =>
    obtain ⟨s₁, hevict, -⟩ := bind_eq_some_iff.1 hstep
    obtain ⟨t, hrun, -, ht⟩ := h.update hop v hevict
    obtain rfl := some.inj (hrun.symm.trans hstep)
    exact ht (hlasts _ s₁ hevict)
  | put k v =>
    obtain ⟨s₁, hevict, -⟩ := bind_eq_some_iff.1 hstep
    obtain ⟨t, hrun, ht⟩ := h.put k v hevict
    obtain rfl := some.inj (hrun.symm.trans hstep)
    exact ht
  | lookup k =>
    obtain ⟨⟨t, res⟩, hlookup, rfl⟩ := map_eq_some_iff.1 hstep
    obtain ⟨s₁, hevict, -⟩ := bind_eq_some_iff.1 hlookup
    obtain ⟨t', hrun, ht⟩ := h.lookup k hevict
    obtain ⟨rfl, -⟩ := Prod.mk.inj (some.inj (hrun.symm.trans hlookup))
    exact ht
  | evict => exact h.evictABunch hstep

/-- The runs in which every call returns, is within the contract, and lasts if it is an
update. -/
def LastingRun (cfg : HashConfig) (s₀ : Adapter V) (ops : List (Op V × Choices))
    (s : Adapter V) : Prop :=
  Runs (fun s m i => i.1.Admissible m ∧ CallLasts cfg s i.2 i.1)
    (fun s i s' => ∃ fuel, s.step (fuel + 1) cfg i = some s') (fun m i => i.1.apply m)
    s₀ (fun _ => none) ops s

lemma LastingRun.refines {refCounter : Fin 2 → ℕ} {buckets : ℕ}
    {ops : List (Op V × Choices)} (h : LastingRun cfg (init refCounter buckets) ops s) :
    Refines cfg s (contents (ops.map Prod.fst)) := by
  rw [contents, List.foldl_map]
  refine Runs.simulates (fun s m i t hs hi ht => ?_) h (refines_init cfg refCounter buckets)
  obtain ⟨fuel, hstep⟩ := ht
  exact hs.step hi.1 hi.2 hstep

/-- **Lookups yield the values last written, if all updates last.**  In every state a run of
calls within the contract leads to whose updates all meet the condition: a lookup whose evictions
return yields the value last written; the evictions of a call return if there is no memory
pressure or the adapter evicts by buckets; and the next update, of any key that was written, is
read now and after an eviction of its key exactly if it meets the condition. -/
theorem lookup_yields_of_lastingRun (cfg : HashConfig) (refCounter : Fin 2 → ℕ) (buckets : ℕ)
    {ops : List (Op V × Choices)} {s : Adapter V}
    (h : LastingRun cfg (init refCounter buckets) ops s) :
    (∀ k ch fuel s₁, s.tryEviction (fuel + 1) cfg ch = some s₁ →
      ∃ s', s.lookup (fuel + 1) cfg k ch = some (s', contents (ops.map Prod.fst) k)) ∧
    (∀ ch : Choices,
      ch.pressure = false ∨ cfg.evictByRecords = false ∧ 0 < cfg.recordsPerPage →
      ∃ s₁, s.tryEviction 11 cfg ch = some s₁) ∧
    (∀ k v ch fuel s₁, contents (ops.map Prod.fst) k ≠ none →
      s.tryEviction (fuel + 1) cfg ch = some s₁ →
      ∃ s', s.update (fuel + 1) cfg k v ch = some s' ∧
        ((s'.store.cell k).Lasting cfg.inclusive v ↔ UpdateLastsAt cfg ch k v s₁)) := by
  have href := h.refines
  refine ⟨fun k ch fuel s₁ hevict => ?_, fun ch => exists_tryEviction s,
    fun k v ch fuel s₁ hk hevict => ?_⟩
  · obtain ⟨s', hlookup, -⟩ := href.lookup k hevict
    exact ⟨s', hlookup⟩
  · obtain ⟨s', hrun, hlasting, -⟩ := href.update hk v hevict
    exact ⟨s', hrun, hlasting⟩

/-- Choices under which nothing is evicted and every admission takes place. -/
def calm : Choices := ⟨false, .ascending, 0, 0, true, 0⟩

/-- The configuration of the examples: one bucket, evictions by buckets. -/
def oneBucket (inclusive : Bool) : HashConfig :=
  ⟨⟨inclusive, false, 10⟩, false, 1, 127, fun _ _ => 0⟩

/-- An update of a hot record lasts. -/
theorem lookup_yields_of_lastingRun_hot :
    let ops : List (Op ℕ × Choices) := [(.insert 1 10, calm), (.update 1 20, calm)]
    ∃ s s', LastingRun (oneBucket true) (init (fun _ => 0) 1) ops s ∧
      s.lookup 11 (oneBucket true) 1 calm = some (s', some 20) := by
  intro ops
  obtain ⟨s, hrun⟩ : ∃ s, LastingRun (oneBucket true) (init (fun _ => 0) 1) ops s := by
    refine ⟨_, ⟨rfl, trivial⟩, _, ⟨0, rfl⟩, ⟨?_, fun fuel s₁ hs₁ => Or.inl ?_⟩, _, ⟨0, rfl⟩, rfl⟩
    · simp [Op.Admissible, Op.apply]
    · obtain rfl := Option.some.inj hs₁
      decide
  obtain ⟨hlookup, hreturns, -⟩ := lookup_yields_of_lastingRun _ _ _ hrun
  obtain ⟨s₁, hs₁⟩ := hreturns calm (Or.inl rfl)
  obtain ⟨s', hs'⟩ := hlookup 1 calm 10 s₁ hs₁
  exact ⟨s, s', hrun, hs'⟩

/-- **Two updates that are lost.**  The record of key 1 is inserted with value 10, evicted, and
updated to 20.  An inclusive adapter that admits it reads 20 at first and 10 again after the
bucket was visited twice; an exclusive one without room never reads 20. -/
theorem update_dropped :
    let full : Choices := { calm with admitDraw := 50, room := false }
    let read := fun (cfg : HashConfig) (s : Adapter ℕ) =>
      (s.lookup 1 cfg 1 calm).map Prod.snd
    let start : Adapter ℕ := init (fun _ => 0) 1
    let evicted := [(Op.insert 1 10, calm), (.evict, calm)]
    (start.run 1 (oneBucket true) (evicted ++ [(.update 1 20, calm)])).bind
        (read (oneBucket true)) = some (some 20) ∧
    (start.run 1 (oneBucket true) (evicted ++ [(.update 1 20, calm), (.evict, calm),
        (.evict, calm), (.evict, calm), (.evict, calm)])).bind
        (read (oneBucket true)) = some (some 10) ∧
    (start.run 1 (oneBucket false) (evicted ++ [(.update 1 20, full)])).bind
        (read (oneBucket false)) = some (some 10) := by
  decide

end Adapter

end TwoTree.TwoHash
