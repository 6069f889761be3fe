import TwoTree.TwoBTree.Eviction

/-!
# The two-tree adapter is a map, and can be emptied

The refinement of `TwoBTreeAdapter`.  Since evictions happen inside admissions, an operation
that first takes a record out of the cold tree passes through a state in which the key is in
neither tree; there the adapter holds the map without that key (`Refines.removeCold`), and the
admission that follows puts it back (`Refines.admitElement`, `Admitted.refines`).

The item count stays the number of hot records, because a record is admitted only under a key
the hot tree does not have, and evicted only if it has it.  With the potential of the evictions
this gives the termination of `evict_all` from every state a run can reach.
-/

namespace TwoTree.TwoBTree

open Std Lib Lib.OrderedMap Function Cell TaggedPayload

variable {V : Type*}

namespace Adapter

/-- The adapter holds the map `m`, and counts its hot records. -/
structure Refines (cfg : Config) (s : Adapter V) (m : ℕ → Option V) : Prop where
  holds : Holds cfg.inclusive s.cell m
  counted : s.Counted

lemma refines_init (cfg : Config) : Refines cfg (init : Adapter V) (fun _ => none) where
  holds := ⟨fun k => coherent_of_hot_none (by simp [cell, init]),
    fun k => by simp [cell, init, view]⟩
  counted := by simp [Counted, init]

variable {cfg : Config} {s s' : Adapter V} {m : ℕ → Option V} {k : ℕ} {v : V}

lemma cell_of_hot_none (h : s.hotBtree[k]? = none) :
    s.cell k = ⟨none, s.coldBtree[k]?.map payload⟩ := by
  simp [cell, h]

lemma cell_of_hot {tp : TaggedPayload V} (h : s.hotBtree[k]? = some tp) :
    s.cell k = ⟨some tp.data, s.coldBtree[k]?.map payload⟩ := by
  simp [cell, h]

/-! ## Evictions -/

lemma Refines.evictABunch (h : Refines cfg s m) : Refines cfg (s.evictABunch cfg) m := by
  refine ⟨h.holds.maint (fun k => ?_), counted_evictABunch cfg h.counted⟩
  rcases cell_evictABunch cfg s k with hk | hk
  · exact .of_eq hk
  · exact hk ▸ .demote _ _

lemma Refines.setCountDown (h : Refines cfg s m) (n : ℕ) :
    Refines cfg { s with evictionCountDown := n } m :=
  ⟨h.holds, h.counted⟩

lemma Refines.tryEviction (h : Refines cfg s m) (pressure : Bool) :
    Refines cfg (s.tryEviction cfg pressure) m := by
  rcases tryEviction_cases cfg s pressure with ⟨n, hn⟩ | ⟨n, n', hn⟩
  · exact hn ▸ h.setCountDown n
  · exact hn ▸ (h.setCountDown n).evictABunch.setCountDown n'

/-- An eviction leaves a key that is not hot alone. -/
lemma cell_tryEviction_of_hot_none (cfg : Config) (pressure : Bool) (h : s.hotBtree[k]? = none) :
    (s.tryEviction cfg pressure).cell k = s.cell k := by
  rcases tryEviction_cases cfg s pressure with ⟨n, hn⟩ | ⟨n, n', hn⟩
  · rw [hn]
    rfl
  · rw [hn]
    rcases cell_evictABunch cfg { s with evictionCountDown := n } k with hk | hk
    · exact hk
    · exact hk.trans (demote_of_hot_none _ (congrArg hot (cell_of_hot_none h)))

lemma hot_none_of_cell (h : (s.cell k).hot = none) : s.hotBtree[k]? = none := by
  simpa [cell] using h

/-! ## Admissions -/

/-- The key `k` was admitted with the data `d` while the adapter held `m`. -/
structure Admitted (cfg : Config) (s : Adapter V) (m : ℕ → Option V) (k : ℕ) (d : V × Bool)
    (s' : Adapter V) : Prop where
  others : ∃ c, Holds cfg.inclusive c m ∧ ∀ a, a ≠ k → s'.cell a = c a
  cell_eq : s'.cell k = ⟨some d, (s.cell k).cold⟩
  counted : s'.Counted

/-- **An admission.** -/
lemma Refines.admitElement (h : Refines cfg s m) (ch : Choices) (hhot : s.hotBtree[k]? = none)
    (v : V) (dirty referenced : Bool) :
    Admitted cfg s m k (v, dirty) (s.admitElement cfg ch k v dirty referenced) := by
  have htry := h.tryEviction ch.pressureOnAdmit
  have hcell := cell_tryEviction_of_hot_none cfg ch.pressureOnAdmit hhot
  unfold Adapter.admitElement
  set s₁ := s.tryEviction cfg ch.pressureOnAdmit with hs₁
  have hhot₁ : s₁.hotBtree[k]? = none :=
    hot_none_of_cell (hcell ▸ congrArg hot (cell_of_hot_none hhot))
  refine ⟨⟨s₁.cell, htry.holds, fun a ha => ?_⟩, ?_, ?_⟩
  · simp [cell, insertHotPartition, getElem?_insertNew, ha.symm]
  · rw [← hcell]
    simp [cell, insertHotPartition, getElem?_insertNew, hhot₁]
  have hcounted := htry.counted
  unfold Counted at hcounted ⊢
  simp only [insertHotPartition, size_insertNew_of_none hhot₁, hcounted]
  push_cast
  ring

lemma Admitted.refines {d : V × Bool} (h : Admitted cfg s m k d s')
    (hcoherent : (⟨some d, (s.cell k).cold⟩ : Cell V).Coherent cfg.inclusive) :
    Refines cfg s' (Function.update m k (some d.1)) := by
  obtain ⟨c, hc, hother⟩ := h.others
  refine ⟨hc.set hother ?_ ?_, h.counted⟩
  · rw [h.cell_eq]
    exact hcoherent
  · rw [h.cell_eq]
    rfl

lemma cell_removeCold (s : Adapter V) (k a : ℕ) :
    (s.removeCold k).cell a = if a = k then ⟨(s.cell k).hot, none⟩ else s.cell a := by
  split_ifs with h
  · subst h
    simp [cell, removeCold, getElem?_removeKey]
  · simp [cell, removeCold, getElem?_removeKey, Ne.symm h]

lemma Refines.removeCold (h : Refines cfg s m) (hhot : s.hotBtree[k]? = none) :
    Refines cfg (s.removeCold k) (Function.update m k none) := by
  have hcell : (s.removeCold k).cell k = ⟨none, none⟩ := by
    rw [cell_removeCold, if_pos rfl, cell_of_hot_none hhot]
  refine ⟨h.holds.set (fun a ha => by rw [cell_removeCold, if_neg ha]) ?_ ?_, h.counted⟩
  · exact coherent_of_hot_none (by rw [hcell])
  · rw [hcell]
    rfl

/-- The way from the cold tree to the hot one that `lookup` and `put` take: an exclusive adapter
first drops the cold record. -/
lemma Refines.moveUp (h : Refines cfg s m) (ch : Choices) (hhot : s.hotBtree[k]? = none) (v : V)
    (dirty referenced : Bool)
    (hclean : cfg.inclusive = true → dirty = false → m k = some v) :
    Refines cfg ((if cfg.inclusive then s else s.removeCold k).admitElement cfg ch k v dirty
      referenced) (Function.update m k (some v)) := by
  cases hinc : cfg.inclusive
  · have hadm := (h.removeCold hhot).admitElement ch
      (show (s.removeCold k).hotBtree[k]? = none from hhot) v dirty referenced
    rw [if_neg (by simp)]
    have hupdate : Function.update (Function.update m k none) k (some v) =
        Function.update m k (some v) := update_idem _ _ m
    rw [← hupdate]
    refine hadm.refines ?_
    rw [hinc, cell_removeCold, if_pos rfl]
    exact coherent_exclusive_some.2 rfl
  · rw [if_pos rfl]
    refine (h.admitElement ch hhot v dirty referenced).refines ?_
    rw [hinc]
    refine coherent_inclusive_some.2 (fun hdirty => ?_)
    rw [h.holds.cold_of_hot_none (congrArg hot (cell_of_hot_none hhot)), hclean hinc hdirty]

/-! ## Writes in place -/

lemma cell_insert_hot {tp' : TaggedPayload V} (a : ℕ) :
    cell { s with hotBtree := s.hotBtree.insert k tp' } a =
      if a = k then ⟨some tp'.data, (s.cell k).cold⟩ else s.cell a := by
  split_ifs with h
  · subst h
    simp [cell]
  · simp [cell, TreeMap.getElem?_insert, Ne.symm h]

section

variable (h : Refines cfg s m)
include h

lemma Refines.insert_hot {tp : TaggedPayload V}
    (hhot : s.hotBtree[k]? = some tp) (tp' : TaggedPayload V)
    (hcoherent : (⟨some tp'.data, (s.cell k).cold⟩ : Cell V).Coherent cfg.inclusive) :
    Refines cfg { s with hotBtree := s.hotBtree.insert k tp' }
      (Function.update m k (some tp'.payload)) := by
  refine ⟨h.holds.set (fun a ha => by rw [cell_insert_hot, if_neg ha]) ?_ ?_, ?_⟩
  · rwa [cell_insert_hot, if_pos rfl]
  · rw [cell_insert_hot, if_pos rfl]
    rfl
  · have hcounted := h.counted
    unfold Counted at hcounted ⊢
    simp [size_insert_of_some hhot, hcounted]

lemma Refines.overwrite_hot {tp : TaggedPayload V} (hhot : s.hotBtree[k]? = some tp) (v : V) :
    Refines cfg { s with hotBtree := s.hotBtree.insert k (tp.overwrite v) }
      (Function.update m k (some v)) := by
  refine h.insert_hot hhot (tp.overwrite v) ?_
  rw [data_overwrite]
  cases hinc : cfg.inclusive
  · have hcoherent := h.holds.coherent k
    rw [hinc, cell_of_hot hhot] at hcoherent
    rw [cell_of_hot hhot]
    exact coherent_exclusive_some.2 (coherent_exclusive_some.1 hcoherent)
  · exact coherent_inclusive_some.2 (by simp)

/-! ## The calls -/

lemma Refines.insert (hk : m k = none) (v : V) (ch : Choices) :
    Refines cfg (s.insert cfg k v ch) (Function.update m k (some v)) := by
  have hcell := h.holds.absent hk
  have hhot : s.hotBtree[k]? = none := hot_none_of_cell (congrArg hot hcell)
  unfold Adapter.insert
  cases hinc : cfg.inclusive
  · refine (h.admitElement ch hhot v false true).refines ?_
    rw [hinc, hcell]
    exact coherent_exclusive_some.2 rfl
  · refine (h.admitElement ch hhot v true false).refines ?_
    rw [hinc]
    exact coherent_inclusive_some.2 (by simp)

lemma Refines.lookupBody (k : ℕ) (ch : Choices) :
    Refines cfg (s.lookupBody cfg k ch).1 m ∧ (s.lookupBody cfg k ch).2 = m k := by
  have hview := h.holds.view k
  unfold Adapter.lookupBody
  rcases hhot : s.hotBtree[k]? with _ | tp
  · rw [cell_of_hot_none hhot, view_none_hot] at hview
    rcases hcold : s.coldBtree[k]? with _ | tp
    · exact ⟨h, by rw [← hview, hcold]; rfl⟩
    have hk : m k = some tp.payload := by rw [← hview, hcold]; rfl
    dsimp only
    split_ifs with hmigrate hinc
    · have hmove := h.moveUp ch hhot tp.payload false true (fun _ _ => hk)
      rw [if_pos hinc, update_eq_self_iff.2 hk.symm] at hmove
      exact ⟨hmove, hk.symm⟩
    · have hmove := h.moveUp ch hhot tp.payload false true (fun _ _ => hk)
      rw [if_neg hinc, update_eq_self_iff.2 hk.symm] at hmove
      exact ⟨hmove, hk.symm⟩
    · exact ⟨h, hk.symm⟩
  · rw [cell_of_hot hhot] at hview
    have hk : m k = some tp.payload := hview.symm
    have hset := h.insert_hot hhot tp.setReferenced (by
      rw [data_setReferenced, cell_of_hot hhot, ← cell_of_hot hhot]
      exact h.holds.coherent k)
    rw [payload_setReferenced, update_eq_self_iff.2 hk.symm] at hset
    exact ⟨hset, hk.symm⟩

lemma Refines.lookup (k : ℕ) (ch : Choices) :
    Refines cfg (s.lookup cfg k ch).1 m ∧ (s.lookup cfg k ch).2 = m k := by
  obtain ⟨hbody, hres⟩ := h.lookupBody k ch
  exact ⟨hbody.tryEviction ch.pressureAtEnd, hres⟩

lemma Refines.put (k : ℕ) (v : V) (ch : Choices) :
    Refines cfg (s.put cfg k v ch) (Function.update m k (some v)) := by
  refine Refines.tryEviction ?_ ch.pressureAtEnd
  unfold putBody
  rcases hhot : s.hotBtree[k]? with _ | tp
  · rw [updateInPlace_of_none hhot]
    exact h.moveUp ch hhot v true true (by simp)
  · rw [updateInPlace_of_some hhot]
    exact h.overwrite_hot hhot v

lemma Refines.overwrite_cold (hhot : s.hotBtree[k]? = none) (tp : TaggedPayload V) (v : V) :
    Refines cfg { s with coldBtree := s.coldBtree.insert k (tp.overwrite v) }
      (Function.update m k (some v)) := by
  refine ⟨h.holds.set (fun a ha => ?_) ?_ ?_, h.counted⟩
  · simp [cell, TreeMap.getElem?_insert, ha.symm]
  · exact coherent_of_hot_none (by simp [cell, hhot])
  · simp [cell, hhot]

lemma Refines.update (hk : m k ≠ none) (v : V) (ch : Choices) :
    Refines cfg (s.update cfg k v ch) (Function.update m k (some v)) := by
  refine Refines.tryEviction ?_ ch.pressureAtEnd
  unfold updateBody
  rcases hhot : s.hotBtree[k]? with _ | tp
  · rw [updateInPlace_of_none hhot]
    dsimp only
    split_ifs with hmigrate hinc
    · have hmove := h.moveUp ch hhot v true true (by simp)
      rwa [if_pos hinc] at hmove
    · -- an exclusive adapter admits first and drops the cold record afterwards
      have hadm := h.admitElement ch hhot v true true
      obtain ⟨c, hc, hother⟩ := hadm.others
      have hcell : ((s.admitElement cfg ch k v true true).removeCold k).cell k =
          ⟨some (v, true), none⟩ := by
        rw [cell_removeCold, if_pos rfl, hadm.cell_eq]
      refine ⟨hc.set (fun a ha => ?_) ?_ ?_, hadm.counted⟩
      · rw [cell_removeCold, if_neg ha, hother a ha]
      · rw [hcell, Bool.eq_false_iff.2 hinc]
        exact coherent_exclusive_some.2 rfl
      · rw [hcell]
        rfl
    · have hview := h.holds.cold_of_hot_none (congrArg hot (cell_of_hot_none hhot))
      rcases hcold : s.coldBtree[k]? with _ | tp
      · exact absurd (hview ▸ by simp [cell, hcold]) hk
      · rw [updateInPlace_of_some hcold]
        exact h.overwrite_cold hhot tp v
  · rw [updateInPlace_of_some hhot]
    exact h.overwrite_hot hhot v

/-! ## Runs -/

/-- **One call.**  A call the contract allows keeps the adapter in step with the map. -/
lemma Refines.step {op : Op V} (ch : Choices) (hop : op.Admissible m) :
    Refines cfg (s.step cfg (op, ch)) (op.apply m) := by
  cases op with
  | insert k v => exact h.insert hop v ch
  | update k v => exact h.update hop v ch
  | put k v => exact h.put k v ch
  | lookup k => exact (h.lookup k ch).1
  | evict => exact h.evictABunch

end

/-- The calls of a run, each within the contract. -/
def AdmissibleRun (ops : List (Op V × Choices)) : Prop :=
  Admits (fun m i => i.1.Admissible m) (fun m i => i.1.apply m) (fun _ => none) ops

lemma run_refines (cfg : Config) {ops : List (Op V × Choices)} (hops : AdmissibleRun ops) :
    Refines cfg (init.run cfg ops) (contents (ops.map Prod.fst)) := by
  have h : Refines cfg (ops.foldl (step cfg) init) _ := foldl_simulates
    (fun s m i (h : Refines cfg s m) hi => h.step i.2 hi) (refines_init cfg) hops
  rwa [contents, List.foldl_map]

/-- **`evict_all` ends with an empty hot tree**, and what the adapter holds is the same. -/
lemma Refines.evictAll (h : Refines cfg s m) :
    ∃ fuel s', evictAll cfg fuel s = some s' ∧ s'.hotBtree.isEmpty ∧ Refines cfg s' m := by
  -- induction on the potential, which every turn of the loop decreases
  induction hn : s.potential using Nat.strong_induction_on generalizing s with
  | _ n ih =>
    subst hn
    have hcounted : s.hotPartitionItemCount = s.hotBtree.size := h.counted
    by_cases hpos : s.hotPartitionItemCount > 0
    · have hprogress := potential_evictABunch cfg (s := s) (by omega)
      obtain ⟨fuel, s', hrun, hempty, hs'⟩ := ih _ hprogress h.evictABunch rfl
      refine ⟨fuel + 1, s', ?_, hempty, hs'⟩
      rw [Adapter.evictAll, if_pos hpos, hrun]
    · refine ⟨1, s, by rw [Adapter.evictAll, if_neg hpos], ?_, h⟩
      have hsize : s.hotBtree.size = 0 := by omega
      simp [TreeMap.isEmpty_eq_size_eq_zero, hsize]

/-- **The adapter keeps the values last written, and can be emptied.**  After every run of
`insert` of absent keys, `update` and `put` of present ones, `lookup` and `evict_a_bunch`,
whatever the draws and the memory pressure were: a lookup finds exactly the keys that were
inserted, with the value last written to them; the item count is the number of hot records; and
`evict_all` returns, with an empty hot tree, all records in the cold one, and nothing changed
for a reader. -/
theorem run_keeps_contents (cfg : Config) {ops : List (Op V × Choices)}
    (hops : AdmissibleRun ops) :
    (∀ k ch, ((init.run cfg ops).lookup cfg k ch).2 = contents (ops.map Prod.fst) k) ∧
    (∀ k, (contents (ops.map Prod.fst) k).isSome ↔ ∃ v, Op.insert k v ∈ ops.map Prod.fst) ∧
    (init.run cfg ops).hotPartitionItemCount = (init.run cfg ops).hotBtree.size ∧
    ∃ fuel s', evictAll cfg fuel (init.run cfg ops) = some s' ∧ s'.hotBtree.isEmpty ∧
      (∀ k, s'.coldBtree[k]?.map TaggedPayload.payload = contents (ops.map Prod.fst) k) ∧
      ∀ k ch, (s'.lookup cfg k ch).2 = contents (ops.map Prod.fst) k := by
  have h := run_refines cfg hops
  obtain ⟨fuel, s', hrun, hempty, hs'⟩ := h.evictAll
  refine ⟨fun k ch => (h.lookup k ch).2, isSome_contents_iff (Admits.map hops), h.counted,
    fuel, s', hrun, hempty, fun k => ?_, fun k ch => (hs'.lookup k ch).2⟩
  have hhot : s'.hotBtree[k]? = none := TreeMap.getElem?_of_isEmpty hempty
  exact hs'.holds.cold_of_hot_none (congrArg Cell.hot (cell_of_hot_none hhot))

/-- An inclusive adapter that evicts a record, reads it back and updates it. -/
theorem run_keeps_contents_updated :
    let ch : Choices := ⟨0, false, true⟩
    let ops := [(Op.insert 1 10, ch), (.evict, ch), (.lookup 1, ch), (.update 1 20, ch)]
    AdmissibleRun ops ∧
      ((init.run ⟨true, false, 10⟩ ops).lookup ⟨true, false, 10⟩ 1 ch).2 = some 20 := by
  intro ch ops
  have hops : AdmissibleRun ops := by
    simp [ops, AdmissibleRun, Admits, Op.Admissible, Op.apply]
  exact ⟨hops, (run_keeps_contents ⟨true, false, 10⟩ hops).1 1 ch⟩

end Adapter

end TwoTree.TwoBTree
