import TwoTree.ConcurrentTwoBTree.Operations

/-!
# The adapter is a map

The adapter run by one thread, with the calls `insert`, `put`, `lookup` and `evict_a_bunch`,
behaves as the map a client believes in.  `Refines` relates the two: no lock is held, no key
carries a deletion mark, every cell keeps the discipline of its mode, and its value is the
map's.  An eviction is maintenance of every cell (`Refines.of_maint`), a write sets one cell to
a coherent one (`Refines.write`); the induction over the calls is `foldlM_simulates`.

The random draws, the memory pressure and the boundaries of the evictions are arbitrary, from
call to call.
-/

namespace TwoTree.ConcurrentTwoBTree

open Std Lib Lib.OrderedMap LockManager Cell

variable {V : Type*}

namespace Adapter

/-- The adapter holds the map `m`. -/
structure Refines (cfg : Config) (s : Adapter V) (m : ℕ → Option V) : Prop where
  unlocked : s.Unlocked
  not_marked : ∀ k, ¬ s.Marked k
  holds : Holds cfg.inclusive s.cell m

lemma refines_init (cfg : Config) : Refines cfg (init : Adapter V) (fun _ => none) where
  unlocked := fun _ => rfl
  not_marked := fun k => by simp [Marked, init]
  holds := ⟨fun k => coherent_of_hot_none (by simp [cell, init]),
    fun k => by simp [cell, init, view]⟩

variable {cfg : Config} {s s' : Adapter V} {m : ℕ → Option V} {k : ℕ} {v : V}

/-! ## The ways a call changes the cells -/

section

variable (h : Refines cfg s m)
include h

/-- Maintenance of the cells is invisible to the map. -/
lemma Refines.of_maint (hunlocked : s'.Unlocked)
    (hmaint : ∀ k, Cell.Maint cfg.inclusive (s.cell k) (s'.cell k) ∧ ¬ s'.Marked k) :
    Refines cfg s' m :=
  ⟨hunlocked, fun k => (hmaint k).2, h.holds.maint (fun k => (hmaint k).1)⟩

lemma Refines.write {c : Cell V} (hset : SetsCell s k c s')
    (hc : c.Coherent cfg.inclusive) (hview : c.view = some v) :
    Refines cfg s' (Function.update m k (some v)) := by
  refine ⟨hset.unlocked, fun a => ?_,
    h.holds.set (fun a ha => hset.cell_of_ne ha) (hset.cell_eq ▸ hc) (hset.cell_eq ▸ hview)⟩
  rcases eq_or_ne a k with rfl | ha
  · exact hset.not_marked
  · rw [hset.marked_of_ne ha]
    exact h.not_marked a

/-- What a reader finds is the map. -/
lemma Refines.find_eq (k : ℕ) : s.find k = m k :=
  (find_of_not_marked (h.not_marked k)).trans (h.holds.view k)

/-- An exclusive adapter holds no key in both trees. -/
lemma Refines.not_mem_cold (hexc : cfg.inclusive = false)
    (hk : k ∈ s.hotBtree) : k ∉ s.coldBtree := by
  have hcoh := h.holds.coherent k
  rw [hexc] at hcoh
  rcases hr : s.hotBtree[k]? with _ | (tp | _)
  · simp [TreeMap.mem_iff_isSome_getElem?, hr] at hk
  · rw [cell_of_tagged hr] at hcoh
    simpa using coherent_exclusive_some.1 hcoh
  · exact absurd hr (h.not_marked k)

/-! ## The calls -/

lemma Refines.evictABunch (ch : Choices V) : Refines cfg (s.evictABunch cfg ch) m := by
  obtain ⟨hunlocked, hat⟩ := evictABunch_at cfg ch h.unlocked
  exact h.of_maint hunlocked (fun k => maint_of_kept_or_evicted (hat k) (h.not_marked k))

lemma Refines.tryEviction (ch : Choices V) : Refines cfg (s.tryEviction cfg ch) m := by
  rw [Adapter.tryEviction]
  split_ifs
  · exact h.evictABunch ch
  · exact h

lemma Refines.absent (hk : m k = none) : s.hotBtree[k]? = none ∧ s.coldBtree[k]? = none := by
  have hcell := h.holds.absent hk
  rcases hr : s.hotBtree[k]? with _ | (tp | _)
  · rw [cell_of_none hr] at hcell
    exact ⟨rfl, congrArg cold hcell⟩
  · simp [cell_of_tagged hr] at hcell
  · exact absurd hr (h.not_marked k)

lemma Refines.insert (fuel : ℕ) (hk : m k = none) (v : V) (ch : Choices V) :
    ∃ s', s.insert (fuel + 1) cfg k v ch = some s' ∧
      Refines cfg s' (Function.update m k (some v)) := by
  have htry := h.tryEviction ch
  obtain ⟨hhot, hcold⟩ := htry.absent hk
  obtain ⟨s', hrun, hset⟩ := insert_spec htry.unlocked fuel hhot v
  refine ⟨s', hrun, htry.write hset ?_ rfl⟩
  rw [hcold]
  simpa [Cell.write] using Cell.coherent_write cfg.inclusive v ⟨none, none⟩

lemma Refines.put (fuel k : ℕ) (v : V) (ch : Choices V) :
    ∃ s', s.put (fuel + 1) cfg k v ch = some s' ∧
      Refines cfg s' (Function.update m k (some v)) := by
  have htry := h.tryEviction ch
  obtain ⟨s', hrun, hset⟩ := put_spec htry.unlocked fuel (htry.not_marked k) v
  rw [put_of_coherent (htry.holds.coherent k)] at hset
  exact ⟨s', hrun, htry.write hset (coherent_write _ v _) (view_write _ v _)⟩

end

/-- A lookup leaves a state in which every cell was maintained. -/
lemma maint_of_lookup {cfg : Config} {s s' : Adapter V} {k : ℕ} (htouch : OnlyTouches s k s')
    (hlooked : LookedUp cfg s s' k) {a : ℕ} (ha : ¬ s.Marked a) :
    Cell.Maint cfg.inclusive (s.cell a) (s'.cell a) ∧ ¬ s'.Marked a := by
  rcases eq_or_ne a k with rfl | hne
  · rcases hlooked with hkept | ⟨-, hmark, hcell⟩
    · exact ⟨Cell.Maint.of_eq hkept.cell_eq, fun hm => ha ((marked_congr hkept.1).1 hm)⟩
    · exact ⟨hcell ▸ Cell.Maint.promote _ _, hmark⟩
  · exact ⟨Cell.Maint.of_eq (htouch.cell_of_ne hne), fun hm => ha ((htouch.marked_of_ne hne).1 hm)⟩

lemma Refines.lookup (h : Refines cfg s m) (fuel k : ℕ) (ch : Choices V) :
    ∃ s', s.lookup (fuel + 1) cfg k ch = some (s', m k) ∧ Refines cfg s' m := by
  have htry := h.tryEviction ch
  obtain ⟨s', hrun, htouch, hlooked⟩ := lookupLoop_spec cfg ch htry.unlocked fuel k
  refine ⟨s', ?_, htry.of_maint htouch.unlocked
    (fun a => maint_of_lookup htouch hlooked (htry.not_marked a))⟩
  rw [Adapter.lookup, hrun, htry.find_eq]

/-! ## Runs -/

/-- **One call.**  A call the contract allows returns and keeps the adapter in step with the
map. -/
lemma Refines.step (h : Refines cfg s m) (fuel : ℕ) {op : Op V} (ch : Choices V)
    (hop : op.Admissible m) (hupd : ¬ op.IsUpdate) :
    ∃ s', s.step (fuel + 1) cfg (op, ch) = some s' ∧ Refines cfg s' (op.apply m) := by
  cases op with
  | insert k v => exact h.insert fuel hop v ch
  | update k v => exact absurd trivial hupd
  | put k v => exact h.put fuel k v ch
  | lookup k =>
    obtain ⟨s', hrun, hs'⟩ := h.lookup fuel k ch
    exact ⟨s', by simp [Adapter.step, hrun], hs'⟩
  | evict => exact ⟨_, rfl, h.evictABunch ch⟩

/-- The calls of a run without updates, each within the contract. -/
def AdmissibleRun (ops : List (Op V × Choices V)) : Prop :=
  Admits (fun m i => i.1.Admissible m ∧ ¬ i.1.IsUpdate) (fun m i => i.1.apply m)
    (fun _ => none) ops

/-- **Every run returns and holds the map of the values last written.** -/
lemma run_refines (cfg : Config) (fuel : ℕ) {ops : List (Op V × Choices V)}
    (hops : AdmissibleRun ops) :
    ∃ s, init.run (fuel + 1) cfg ops = some s ∧ Refines cfg s (contents (ops.map Prod.fst)) := by
  obtain ⟨s, hrun, hs⟩ := foldlM_simulates
    (fun s m i (h : Refines cfg s m) hi => h.step fuel i.2 hi.1 hi.2) (refines_init cfg) hops
  exact ⟨s, hrun, by rwa [contents, List.foldl_map]⟩

/-- **The adapter yields the value last written.**  For every run of `insert` of absent keys,
`put` of present keys, `lookup` and `evict_a_bunch`, whatever the draws, the memory pressure and
the eviction boundaries were: the run returns; a lookup afterwards finds exactly the keys that
were inserted, with the value last written to them; an exclusive adapter holds no key in both
trees; and in an inclusive one an unmodified hot entry equals the cold copy. -/
theorem lookup_yields_last_written (cfg : Config) (fuel : ℕ) {ops : List (Op V × Choices V)}
    (hops : AdmissibleRun ops) :
    ∃ s, init.run (fuel + 1) cfg ops = some s ∧
      (∀ k ch, ∃ s', s.lookup (fuel + 1) cfg k ch = some (s', contents (ops.map Prod.fst) k)) ∧
      (∀ k, (contents (ops.map Prod.fst) k).isSome ↔ ∃ v, Op.insert k v ∈ ops.map Prod.fst) ∧
      (cfg.inclusive = false → ∀ k, k ∈ s.hotBtree → k ∉ s.coldBtree) ∧
      (cfg.inclusive = true → ∀ (k : ℕ) tp, s.hotBtree[k]? = some (.tagged tp) →
        tp.modified = false → s.coldBtree[k]? = some tp.payload) := by
  obtain ⟨s, hrun, hs⟩ := run_refines cfg fuel hops
  refine ⟨s, hrun, fun k ch => ?_, fun k => ?_, fun hexc k => hs.not_mem_cold hexc,
    fun hinc k tp hhot hclean => ?_⟩
  · obtain ⟨s', hlookup, -⟩ := hs.lookup fuel k ch
    exact ⟨s', hlookup⟩
  · exact isSome_contents_iff (Admits.map (hops.mono (fun _ _ h => h.1))) k
  · have hcoh := hs.holds.coherent k
    rw [hinc, cell_of_tagged hhot] at hcoh
    exact Cell.coherent_inclusive_some.1 hcoh hclean

/-- A record that is inserted, evicted, overwritten and read again. -/
theorem lookup_yields_last_written_evicted :
    let ch : Choices ℕ := ⟨false, some (1, true), fun _ => ⟨0, 0⟩, 0, false, false, 0, true⟩
    let ops := [(Op.insert 1 10, ch), (.evict, ch), (.lookup 1, ch), (.put 1 20, ch)]
    AdmissibleRun ops ∧ ∃ s s', init.run 1 ⟨false, false, 10⟩ ops = some s ∧
      s.lookup 1 ⟨false, false, 10⟩ 1 ch = some (s', some 20) := by
  intro ch ops
  have hops : AdmissibleRun ops := by
    simp [ops, AdmissibleRun, Admits, Op.Admissible, Op.IsUpdate, Op.apply]
  obtain ⟨s, hrun, hlookup, -⟩ := lookup_yields_last_written ⟨false, false, 10⟩ 0 hops
  obtain ⟨s', hs'⟩ := hlookup 1 ch
  exact ⟨hops, s, s', hrun, hs'⟩

end Adapter

end TwoTree.ConcurrentTwoBTree
