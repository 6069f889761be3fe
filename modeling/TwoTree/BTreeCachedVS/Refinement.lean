import TwoTree.BTreeCachedVS.Adapter

/-!
# The record cache is a map

What the cache and the tree hold for a key is a cell, and an eviction of either kind demotes some
cells and leaves the others alone (`demotes_evictOne`, `demotes_evictABunch`).  Since an admission
evicts before it adds its record, the record is still where it was when the eviction runs: the cell
of a key that is not in the cache is not touched (`Demotes.eq_of_hot_none`).

A recursive `update` goes at most one level deep, because the record it has admitted is in the cache
when it is called again (`Refines.update`).
-/

namespace TwoTree.BTreeCachedVS

open Std Lib Lib.OrderedMap Cell TaggedPayload

variable {V : Type*}

/-- What matters about a record to a reader and to an eviction. -/
def TaggedPayload.data (tp : TaggedPayload V) : V × Bool := (tp.payload, tp.modified)

namespace Adapter

/-- What the cache and the tree hold for a key. -/
def cell (s : Adapter V) (k : ℕ) : Cell V :=
  ⟨s.cache[k]?.map TaggedPayload.data, s.btree[k]?⟩

variable {cfg : Config} {s s' : Adapter V} {m : ℕ → Option V} {k : ℕ} {v : V} {tp : TaggedPayload V}

lemma cell_of_cache_none (h : s.cache[k]? = none) : s.cell k = ⟨none, s.btree[k]?⟩ := by
  simp [cell, h]

lemma cell_of_cache (h : s.cache[k]? = some tp) :
    s.cell k = ⟨some tp.data, s.btree[k]?⟩ := by
  simp [cell, h]

lemma cache_none_of_cell (h : (s.cell k).hot = none) : s.cache[k]? = none := by
  simpa [cell] using h

/-! ## Victims -/

lemma btree_upsertBtree (s : Adapter V) (k : ℕ) (v : V) (a : ℕ) :
    (s.upsertBtree k v).btree[a]? = if k = a then some v else s.btree[a]? := by
  rcases h : s.btree[k]? with _ | w
  · simp [upsertBtree, updateInPlace_of_none h, insertBtree, insertNew_of_none h, getElem?_insert]
  · simp [upsertBtree, updateInPlace_of_some h, getElem?_insert]

lemma cache_upsertBtree (s : Adapter V) (k : ℕ) (v : V) : (s.upsertBtree k v).cache = s.cache := by
  unfold upsertBtree
  split <;> rfl

lemma cache_writeBack (cfg : Config) (s : Adapter V) (k : ℕ) (tp : TaggedPayload V) :
    (s.writeBack cfg k tp).cache = s.cache := by
  unfold writeBack
  split_ifs
  · exact cache_upsertBtree s k tp.payload
  · rfl
  · rfl

lemma btree_writeBack (cfg : Config) (s : Adapter V) (k : ℕ) (tp : TaggedPayload V) (a : ℕ) :
    (s.writeBack cfg k tp).btree[a]? =
      if k = a then demoted cfg.inclusive tp.data s.btree[k]? else s.btree[a]? := by
  unfold writeBack
  cases hinc : cfg.inclusive
  · rcases hcold : s.btree[k]? with _ | w <;>
      simp [insertBtree, getElem?_insertNew, hcold, demoted, demote, data]
  cases hmod : tp.modified
  · by_cases ha : k = a
    · simp [demoted, demote, data, hmod, ha]
    · simp [ha]
  · simp [btree_upsertBtree, demoted, demote, data, hmod]

/-- **A record that is written back and erased is demoted.** -/
lemma cell_erase (hhot : (s.cell k).hot = some tp.data) (hcache : s'.cache[k]? = none)
    (hbtree : s'.btree[k]? = demoted cfg.inclusive tp.data s.btree[k]?) :
    s'.cell k = (s.cell k).demote cfg.inclusive := by
  have hcell : s.cell k = ⟨some tp.data, s.btree[k]?⟩ := by rw [← hhot]; rfl
  rw [hcell, demote_some, cell_of_cache_none hcache, hbtree]

/-! ## Walks -/

/-- The walks of both evictions. -/
abbrev Walks : List (ℕ × TaggedPayload V) → TreeMap ℕ (TaggedPayload V) →
    TreeMap ℕ (TaggedPayload V) → List (ℕ × TaggedPayload V) → Prop :=
  Clock.Walks TaggedPayload.referenced TaggedPayload.unreference

lemma walks_walk (l : List (ℕ × TaggedPayload V)) (w : Walk V) :
    ∃ victims, Walks l w.cache (walk l w).cache victims ∧
      (walk l w).victims = w.victims ++ victims := by
  induction l generalizing w with
  | nil => exact ⟨[], .stop _ _, by simp [walk]⟩
  | cons e l ih =>
    obtain ⟨key, tp⟩ := e
    simp only [walk]
    split_ifs with hsteps href hmany
    · exact ⟨[], .stop _ _, by simp⟩
    · obtain ⟨victims, hwalk, hvictims⟩ := ih
        { w with steps := w.steps - 1, hand := key, cache := w.cache.insert key tp.unreference }
      exact ⟨victims, .skip href hwalk, hvictims⟩
    · exact ⟨[(key, tp)], .pick (by simpa using href) (.stop _ _), rfl⟩
    · obtain ⟨victims, hwalk, hvictims⟩ := ih
        { w with steps := w.steps - 1, hand := handBehind l
                 victims := w.victims ++ [(key, tp)] }
      exact ⟨(key, tp) :: victims, .pick (by simpa using href) hwalk, by simpa using hvictims⟩

lemma demotes_evictVictims (cfg : Config) {victims : List (ℕ × TaggedPayload V)} (s : Adapter V)
    (hl : ∀ e ∈ victims, s.cache[e.1]?.map data = some e.2.data)
    (hdistinct : victims.Pairwise (fun e e' => e.1 ≠ e'.1)) :
    Demotes cfg.inclusive s.cell (victims.foldl (evictVictim cfg) s).cell := by
  refine Applied.foldl (P := fun e c => c.hot = some e.2.data) (fun s e hhot => ?_)
    (fun s e a ha => ?_) (demote_demote _) hl hdistinct
  · refine cell_erase hhot ?_ ?_
    · simp [evictVictim, cache_writeBack, getElem?_erase]
    · simp [evictVictim, btree_writeBack]
  · simp [cell, evictVictim, cache_writeBack, getElem?_erase, btree_writeBack, if_neg ha.symm]

/-- **An eviction demotes some records and leaves the others alone.** -/
lemma demotes_evictABunch (cfg : Config) (s : Adapter V) :
    Demotes cfg.inclusive s.cell (s.evictABunch cfg).cell := by
  obtain ⟨victims, hwalks, hvictims⟩ :=
    walks_walk s.fromHand ⟨s.cache, s.clockHand, [], kClockWalkSteps⟩
  obtain ⟨hcache, hl, hdistinct⟩ :=
    Clock.Walks.victims_spec hwalks data (fun _ => rfl)
  simp only [evictABunch, hvictims, List.nil_append]
  have hwalk : ∀ hand, Demotes cfg.inclusive s.cell
      { s with cache := (walk s.fromHand ⟨s.cache, s.clockHand, [], kClockWalkSteps⟩).cache
               clockHand := hand : Adapter V }.cell :=
    fun _ => .of_eq (fun a => by rw [cell, cell, hcache])
  split_ifs
  · exact (hwalk _).trans (demote_demote _) (demotes_evictVictims cfg _ hl hdistinct)
  · exact hwalk _
  · exact hwalk _

/-- The records that `evict_one` passes keep their data, and the one it stops at is demoted. -/
lemma demotes_evictOneFrom (cfg : Config) (staleIsEnd : Bool) {l : List (ℕ × TaggedPayload V)}
    (s : Adapter V) (hl : ∀ e ∈ l, s.cache[e.1]?.map data = some e.2.data) :
    Demotes cfg.inclusive s.cell (evictOneFrom cfg staleIsEnd l s).cell := by
  induction l generalizing s with
  | nil => exact .of_eq (fun _ => rfl)
  | cons e l ih =>
    obtain ⟨key, tp⟩ := e
    have hdata := hl _ List.mem_cons_self
    rw [evictOneFrom]
    split_ifs with href hstale
    · have hsame := Clock.Walks.data_insert_unmark data
        unreference (fun _ => rfl) hdata
      refine Applied.trans (demote_demote _) (.of_eq (fun a => ?_)) (ih _ (fun e he => ?_))
      · rw [cell, cell, hsame]
      · rw [hsame]
        exact hl e (List.mem_cons_of_mem _ he)
    all_goals
      refine .single (cell_erase (k := key) hdata ?_ ?_) (fun a ha => ?_)
      · simp [getElem?_erase]
      · simp [btree_writeBack]
      · simp [cell, cache_writeBack, getElem?_erase, btree_writeBack, if_neg ha.symm]

lemma demotes_evictOne (cfg : Config) (s : Adapter V) (staleIsEnd : Bool) :
    Demotes cfg.inclusive s.cell (s.evictOne cfg staleIsEnd).cell :=
  demotes_evictOneFrom cfg staleIsEnd s (fun e he => by rw [(mem_scanFrom.1 he).2, Option.map_some])

lemma demotes_tryEviction (cfg : Config) (s : Adapter V) (pressure : Bool) :
    Demotes cfg.inclusive s.cell (s.tryEviction cfg pressure).cell := by
  simp only [tryEviction]
  split_ifs
  · exact demotes_evictABunch cfg { s with evictionCheckCountdown := s.evictionCheckCountdown - 1 }
  · exact .of_eq (fun _ => rfl)
  · exact .of_eq (fun _ => rfl)

/-! ## Admissions and writes -/

/-- The adapter holds the map `m`. -/
def Refines (cfg : Config) (s : Adapter V) (m : ℕ → Option V) : Prop :=
  Holds cfg.inclusive s.cell m

lemma refines_init (cfg : Config) : Refines cfg (init : Adapter V) (fun _ => none) :=
  ⟨fun k => coherent_of_hot_none (by simp [cell, init]), fun k => by simp [cell, init]⟩

lemma cell_insert_cache (s : Adapter V) (k : ℕ) (tp : TaggedPayload V) (a : ℕ) :
    cell { s with cache := s.cache.insert k tp } a =
      if a = k then ⟨some tp.data, (s.cell k).cold⟩ else s.cell a := by
  split_ifs with h
  · simp [cell, h]
  · simp [cell, getElem?_insert, Ne.symm h]

lemma cell_removeBtree (s : Adapter V) (k a : ℕ) :
    (s.removeBtree k).cell a = if a = k then ⟨(s.cell k).hot, none⟩ else s.cell a := by
  split_ifs with h
  · simp [cell, removeBtree, getElem?_removeKey, h]
  · simp [cell, removeBtree, getElem?_removeKey, Ne.symm h]

/-- **An admission**: the evictions it begins with do not touch the key. -/
lemma cell_admitElement (cfg : Config) (ch : Choices V) (hk : s.cache[k]? = none) (v : V) (dirty : Bool) :
    (s.admitElement cfg ch k v dirty).cell k = ⟨some (v, dirty), s.btree[k]?⟩ ∧
      ∃ c, Demotes cfg.inclusive s.cell c ∧
        ∀ a, a ≠ k → (s.admitElement cfg ch k v dirty).cell a = c a := by
  simp only [admitElement]
  set s₁ := if ch.pressureOnAdmit then s.evictABunch cfg else s with hs₁
  have hdemotes : Demotes cfg.inclusive s.cell s₁.cell := by
    rw [hs₁]
    split_ifs
    · exact demotes_evictABunch cfg s
    · exact .of_eq (fun _ => rfl)
  have hcell : s₁.cell k = s.cell k := hdemotes.eq_of_hot_none (by simp [cell, hk])
  refine ⟨?_, s₁.cell, hdemotes, fun a ha => ?_⟩
  · rw [cell_insert_cache, if_pos rfl, hcell]
    rfl
  · rw [cell_insert_cache, if_neg ha]

lemma Refines.admitElement (h : Refines cfg s m) (ch : Choices V) (hk : s.cache[k]? = none) (v : V)
    (dirty : Bool)
    (hcoherent : (⟨some (v, dirty), s.btree[k]?⟩ : Cell V).Coherent cfg.inclusive) :
    Refines cfg (s.admitElement cfg ch k v dirty) (Function.update m k (some v)) := by
  obtain ⟨hcell, c, hc, hother⟩ := cell_admitElement cfg ch hk v dirty
  exact (hc.holds h).set hother (hcell ▸ hcoherent) (by rw [hcell]; rfl)

lemma Refines.migrate (h : Refines cfg s m) (ch : Choices V) (hk : s.cache[k]? = none)
    (hv : m k = some v) : Refines cfg (s.migrate cfg ch k v) m := by
  have hbtree : s.btree[k]? = some v := by
    rw [← hv, ← Holds.cold_of_hot_none h (by simp [cell, hk])]
    rfl
  have hsame : Function.update m k (some v) = m := Function.update_eq_self_iff.2 hv.symm
  unfold Adapter.migrate
  cases hinc : cfg.inclusive
  · obtain ⟨hcell, c, hc, hother⟩ := cell_admitElement cfg ch hk v false
    have hcell' : ((s.admitElement cfg ch k v false).removeBtree k).cell k =
        ⟨some (v, false), none⟩ := by
      rw [cell_removeBtree, if_pos rfl, hcell]
    rw [← hsame]
    refine (hc.holds h).set (fun a ha => ?_) ?_ ?_
    · rw [if_neg (by simp), cell_removeBtree, if_neg ha, hother a ha]
    · rw [if_neg (by simp), hcell', hinc]
      exact coherent_exclusive_some.2 rfl
    · rw [if_neg (by simp), hcell']
      rfl
  · have hadm := h.admitElement ch hk v false (by
      rw [hinc, hbtree]
      exact coherent_inclusive_some.2 (fun _ => rfl))
    rwa [hsame] at hadm

lemma cache_migrate (cfg : Config) (s : Adapter V) (ch : Choices V) (k : ℕ) (v : V) :
    ∃ tp, (s.migrate cfg ch k v).cache[k]? = some tp := by
  unfold Adapter.migrate
  simp only [Adapter.admitElement]
  split_ifs <;> simp [removeBtree]

section

variable (h : Refines cfg s m)
include h

lemma Refines.overwrite (hk : s.cache[k]? = some tp)
    (v : V) : Refines cfg (s.overwrite k v) (Function.update m k (some v)) := by
  have hcell : (s.overwrite k v).cell k = ⟨some (v, true), s.btree[k]?⟩ := by
    rw [Adapter.overwrite, cell_insert_cache, if_pos rfl]
    rfl
  refine h.set (fun a ha => by rw [Adapter.overwrite, cell_insert_cache, if_neg ha]) ?_ ?_
  · rw [hcell]
    cases hinc : cfg.inclusive
    · have hcoherent := h.coherent k
      rw [hinc, cell_of_cache hk] at hcoherent
      exact coherent_exclusive_some.2 (coherent_exclusive_some.1 hcoherent)
    · exact coherent_inclusive_some.2 (by simp)
  · rw [hcell]
    rfl

lemma Refines.updateBtree (hk : s.cache[k]? = none) (hm : m k ≠ none)
    (v : V) : Refines cfg (s.updateBtree k v) (Function.update m k (some v)) := by
  have hbtree : s.btree[k]? ≠ none := by
    rwa [← Holds.cold_of_hot_none h (by simp [cell, hk])] at hm
  obtain ⟨old, hold⟩ := Option.ne_none_iff_exists'.1 hbtree
  have hcell : (s.updateBtree k v).cell k = ⟨none, some v⟩ := by
    simp [cell, Adapter.updateBtree, getElem?_updateInPlace, hk, hold]
  refine h.set (fun a ha => ?_) ?_ ?_
  · simp [cell, Adapter.updateBtree, getElem?_updateInPlace, ha.symm]
  · exact coherent_of_hot_none (by rw [hcell])
  · rw [hcell]
    rfl

/-! ## The calls -/

lemma Refines.insert (hm : m k = none) (v : V) (ch : Choices V) :
    Refines cfg (s.insert cfg k v ch) (Function.update m k (some v)) := by
  have hcell := Holds.absent h hm
  have hk : s.cache[k]? = none := cache_none_of_cell (by rw [hcell])
  have hbtree : s.btree[k]? = none := congrArg cold hcell
  unfold Adapter.insert
  cases hinc : cfg.inclusive
  · refine h.admitElement ch hk v false ?_
    rw [hinc, hbtree]
    exact coherent_exclusive_some.2 rfl
  · refine h.admitElement ch hk v true ?_
    rw [hinc]
    exact coherent_inclusive_some.2 (by simp)

lemma Refines.lookup (k : ℕ) (ch : Choices V) :
    Refines cfg (s.lookup cfg k ch).1 m ∧ (s.lookup cfg k ch).2 = m k := by
  have hbody : Refines cfg (s.lookupBody cfg k ch).1 m ∧ (s.lookupBody cfg k ch).2 = m k := by
    have hview := h.view k
    unfold Adapter.lookupBody
    rcases hk : s.cache[k]? with _ | tp
    · rw [cell_of_cache_none hk, view_none_hot] at hview
      rcases hv : s.btree[k]? with _ | v
      · exact ⟨h, hview ▸ hv.symm⟩
      rw [hv] at hview
      dsimp only
      split_ifs
      · exact ⟨h.migrate ch hk hview.symm, hview⟩
      · exact ⟨h, hview⟩
    · rw [cell_of_cache hk] at hview
      refine ⟨Demotes.holds (.of_eq (fun a => ?_)) h, hview⟩
      rw [cell_insert_cache]
      split_ifs with ha
      · rw [ha, cell_of_cache hk]
        rfl
      · rfl
  exact ⟨(demotes_tryEviction cfg _ _).holds hbody.1, hbody.2⟩

lemma Refines.put (hm : m k ≠ none) (v : V) (ch : Choices V) :
    Refines cfg (s.put cfg k v ch) (Function.update m k (some v)) := by
  unfold Adapter.put
  rcases hk : s.cache[k]? with _ | tp
  · dsimp only
    split_ifs with hinc hmigrate
    · refine h.admitElement ch hk v true ?_
      rw [hinc]
      exact coherent_inclusive_some.2 (by simp)
    · exact (h.updateBtree hk hm v).migrate ch hk (Function.update_self k (some v) m)
    · exact h.updateBtree hk hm v
  · exact h.overwrite hk v

/-- An activation of `update` that finds its record in the cache, or does not migrate it. -/
lemma Refines.update_hit (hk : s.cache[k]? = some tp) (v : V) (fuel : ℕ) (ch : ℕ → Choices V) :
    ∃ s', Adapter.update cfg k v (fuel + 1) ch s = some s' ∧
      Refines cfg s' (Function.update m k (some v)) :=
  ⟨_, by rw [Adapter.update, hk]; rfl, (demotes_tryEviction cfg _ _).holds (h.overwrite hk v)⟩

/-- **`update` returns after at most two activations.** -/
lemma Refines.update (hm : m k ≠ none) (v : V) (fuel : ℕ) (ch : ℕ → Choices V) :
    ∃ s', Adapter.update cfg k v (fuel + 2) ch s = some s' ∧
      Refines cfg s' (Function.update m k (some v)) := by
  rcases hk : s.cache[k]? with _ | tp
  · obtain ⟨old, hold⟩ := Option.ne_none_iff_exists'.1 hm
    have hbtree : s.btree[k]? = some old := by
      rw [← hold, ← Holds.cold_of_hot_none h (by simp [cell, hk])]
      rfl
    rw [Adapter.update, hk]
    by_cases hmigrate : cfg.shouldMigrate (ch 0).migrateDraw
    · obtain ⟨tp, htp⟩ := cache_migrate cfg s (ch 0) k old
      obtain ⟨s₁, hs₁, hs₁m⟩ := (h.migrate (ch 0) hk hold).update_hit htp v fuel
        (fun i => ch (i + 1))
      refine ⟨s₁.tryEviction cfg (ch 0).pressureAtEnd, ?_, (demotes_tryEviction cfg _ _).holds hs₁m⟩
      simp [hmigrate, hbtree, hs₁]
    · refine ⟨_, by simp only [hmigrate]; rfl, (demotes_tryEviction cfg _ _).holds ?_⟩
      exact h.updateBtree hk hm v
  · exact h.update_hit hk v (fuel + 1) ch

/-! ## Runs -/

/-- **One call.**  A call the contract allows returns, and keeps the adapter in step with the
map. -/
lemma Refines.step {op : Op V} (fuel : ℕ) (ch : ℕ → Choices V) (hop : op.Admissible m) :
    ∃ s', s.step cfg (fuel + 2) (op, ch) = some s' ∧ Refines cfg s' (op.apply m) := by
  cases op with
  | insert k v => exact ⟨_, rfl, h.insert hop v (ch 0)⟩
  | update k v => exact h.update hop v fuel ch
  | put k v => exact ⟨_, rfl, h.put hop v (ch 0)⟩
  | lookup k => exact ⟨_, rfl, (h.lookup k (ch 0)).1⟩
  | evict =>
    refine ⟨_, rfl, ?_⟩
    split_ifs
    · exact (demotes_evictOne cfg s _).holds h
    · exact (demotes_evictABunch cfg s).holds h

end

/-- The calls of a run, each within the contract. -/
def AdmissibleRun (ops : List (Op V × (ℕ → Choices V))) : Prop :=
  Admits (fun m i => i.1.Admissible m) (fun m i => i.1.apply m) (fun _ => none) ops

/-- **The adapter keeps the values last written.**  Every run of `insert` of absent keys, `update`
and `put` of present ones, `lookup` and evictions of either kind returns, whatever the draws and
the memory pressure were, and after it a lookup finds exactly the keys that were inserted, with the
value last written to them. -/
theorem run_keeps_last_written (cfg : Config) (fuel : ℕ) {ops : List (Op V × (ℕ → Choices V))}
    (hops : AdmissibleRun ops) :
    ∃ s, init.run cfg (fuel + 2) ops = some s ∧
      (∀ k ch, (s.lookup cfg k ch).2 = contents (ops.map Prod.fst) k) ∧
      ∀ k, (contents (ops.map Prod.fst) k).isSome ↔ ∃ v, Op.insert k v ∈ ops.map Prod.fst := by
  have hstep : ∀ s m (i : Op V × (ℕ → Choices V)), Refines cfg s m → i.1.Admissible m →
      ∃ s', Adapter.step cfg (fuel + 2) s i = some s' ∧ Refines cfg s' (i.1.apply m) :=
    fun s m i h hi => h.step fuel i.2 hi
  obtain ⟨s, hs, h⟩ := foldlM_simulates hstep (refines_init cfg) hops
  refine ⟨s, hs, fun k ch => ?_, isSome_contents_iff (Admits.map hops)⟩
  rw [contents, List.foldl_map]
  exact (h.lookup k ch).2

/-- An exclusive adapter that evicts a record and updates it in the tree. -/
theorem run_keeps_last_written_updated :
    let ch : ℕ → Choices ℕ := fun _ => ⟨0, false, true, false, false, 0⟩
    let ops := [(Op.insert 1 10, ch), (.evict, ch), (.evict, ch), (.update 1 20, ch), (.evict, ch)]
    AdmissibleRun ops ∧ ∃ s, init.run ⟨false, false, 10⟩ 2 ops = some s ∧
      (s.lookup ⟨false, false, 10⟩ 1 (ch 0)).2 = some 20 := by
  intro ch ops
  have hops : AdmissibleRun ops := by
    simp [ops, AdmissibleRun, Admits, Op.Admissible, Op.apply]
  obtain ⟨s, hs, hlookup, -⟩ := run_keeps_last_written ⟨false, false, 10⟩ 0 hops
  exact ⟨hops, s, hs, hlookup 1 (ch 0)⟩

end Adapter

end TwoTree.BTreeCachedVS
