import TwoTree.TwoLSMT.Adapter

/-!
# The adapter over two RocksDB instances is a map

What the two instances hold for a key is a cell, and an eviction flushes some cells and leaves the
others alone (`flushes_evictABunch`, `flushes_evictAllItems`).  The invariant is weaker than that of
the two-tree adapters: only an inclusive adapter promises anything about the bottom record of a key
that is in the top, namely that it is the same if the top record is clean.  In an exclusive adapter
the bottom record may be an old one; it is never read, because the top record comes first, and when
the top record leaves it overwrites the bottom one.
-/

namespace TwoTree.TwoLSMT

open Std Lib Lib.OrderedMap Function Cell TaggedPayload

variable {V : Type*}

/-- What matters about a record to a reader and to an eviction. -/
def TaggedPayload.data (tp : TaggedPayload V) : V × Bool := (tp.payload, tp.modified)

namespace Adapter

/-- What the two instances hold for a key. -/
def cell (s : Adapter V) (k : ℕ) : Cell V :=
  ⟨s.topDb[k]?.map TaggedPayload.data, s.bottomDb[k]?⟩

/-- The adapter holds the map `m`. -/
structure Refines (cfg : Config) (s : Adapter V) (m : ℕ → Option V) : Prop where
  backed : ∀ k, (s.cell k).Backed cfg.inclusive
  view : ∀ k, (s.cell k).view = m k

lemma refines_init (cfg : Config) : Refines cfg (init : Adapter V) (fun _ => none) where
  backed := fun _ => backed_of_hot_none _ (by simp [cell, init])
  view := fun _ => by simp [cell, init]

variable {cfg : Config} {s s' : Adapter V} {m : ℕ → Option V} {k : ℕ} {v : V}

lemma cell_of_top_none (h : s.topDb[k]? = none) : s.cell k = ⟨none, s.bottomDb[k]?⟩ := by
  simp [cell, h]

lemma cell_of_top {tp : TaggedPayload V} (h : s.topDb[k]? = some tp) :
    s.cell k = ⟨some tp.data, s.bottomDb[k]?⟩ := by
  simp [cell, h]

/-! ## Evictions -/

/-- Some records have been moved down. -/
abbrev Flushes (cfg : Config) : (ℕ → Cell V) → (ℕ → Cell V) → Prop :=
  Applied (Cell.flush cfg.inclusive)

lemma Refines.flushes (h : Refines cfg s m) (hflush : Flushes cfg s.cell s'.cell) :
    Refines cfg s' m where
  backed := fun k => by
    rcases hflush k with hk | hk
    · exact hk ▸ h.backed k
    · exact hk ▸ backed_of_hot_none _ (flush_hot _ _)
  view := fun k => by
    rcases hflush k with hk | hk
    · exact hk ▸ h.view k
    · rw [hk, view_flush (h.backed k), h.view k]

lemma topDb_evictVictim (cfg : Config) (s : Adapter V) (e : ℕ × TaggedPayload V) :
    (s.evictVictim cfg e).topDb = s.topDb.erase e.1 := by
  simp only [evictVictim]
  split_ifs <;> rfl

lemma bottomDb_evictVictim (cfg : Config) (s : Adapter V) (e : ℕ × TaggedPayload V) (a : ℕ) :
    (s.evictVictim cfg e).bottomDb[a]? =
      if e.1 = a then (flush cfg.inclusive ⟨some e.2.data, s.bottomDb[a]?⟩).cold
      else s.bottomDb[a]? := by
  cases hinc : cfg.inclusive <;> cases hmod : e.2.modified <;>
    simp [evictVictim, hinc, hmod, flush, data, putBottomDb, getElem?_insert]

lemma flushes_victims (f : Adapter V → ℕ × TaggedPayload V → Adapter V)
    (hf : ∀ s e, (f s e).cell = (s.evictVictim cfg e).cell)
    {victims : List (ℕ × TaggedPayload V)}
    (hl : ∀ e ∈ victims, s.topDb[e.1]?.map data = some e.2.data)
    (hdistinct : victims.Pairwise (fun e e' => e.1 ≠ e'.1)) :
    Flushes cfg s.cell (victims.foldl f s).cell := by
  refine Applied.foldl (P := fun e c => c.hot = some e.2.data) (fun s e hhot => ?_)
    (fun s e a ha => ?_) (flush_flush _) hl hdistinct
  · have hcell : s.cell e.1 = ⟨some e.2.data, s.bottomDb[e.1]?⟩ := by rw [← hhot]; rfl
    rw [hf, hcell]
    refine Cell.ext ?_ ?_
    · simp [cell, topDb_evictVictim, Cell.flush_hot]
    · simp [cell, bottomDb_evictVictim]
  · rw [hf]
    simp [cell, topDb_evictVictim, getElem?_erase, bottomDb_evictVictim, if_neg ha.symm]

lemma walks_walk (l : List (ℕ × TaggedPayload V)) (w : Walk V) :
    ∃ victims, Clock.Walks referenced unreference l w.top
      (walk l w).top victims ∧ (walk l w).victims = w.victims ++ victims := by
  induction l generalizing w with
  | nil => exact ⟨[], .stop _ _, by simp [walk]⟩
  | cons e l ih =>
    obtain ⟨key, tp⟩ := e
    simp only [walk]
    split_ifs with href hmany
    · obtain ⟨victims, hwalk, hvictims⟩ := ih { w with top := w.top.insert key tp.unreference }
      exact ⟨victims, .skip href hwalk, hvictims⟩
    · exact ⟨[(key, tp)], .pick (by simpa using href) (.stop _ _), rfl⟩
    · obtain ⟨victims, hwalk, hvictims⟩ := ih
        { w with hand := key, victims := w.victims ++ [(key, tp)] }
      exact ⟨(key, tp) :: victims, .pick (by simpa using href) hwalk, by simpa using hvictims⟩

/-- **An eviction moves some records down and leaves the others alone.** -/
lemma flushes_evictABunch (cfg : Config) (s : Adapter V) :
    Flushes cfg s.cell (s.evictABunch cfg).cell := by
  obtain ⟨victims, hwalks, hvictims⟩ :=
    walks_walk (scanFrom s.topDb s.startKey) ⟨s.topDb, s.clockHand, []⟩
  obtain ⟨htop, hl, hdistinct⟩ :=
    hwalks.victims_spec data (fun _ => rfl)
  simp only [evictABunch, hvictims, List.nil_append]
  split_ifs
  · refine Applied.trans (flush_flush _) (.of_eq (fun a => ?_))
      (flushes_victims (evictVictimCounted cfg) (fun _ _ => rfl) hl hdistinct)
    simp [cell, htop]
  · exact .of_eq (fun a => by simp [cell, htop])

lemma flushes_evictAllItems (cfg : Config) (s : Adapter V) :
    Flushes cfg s.cell (s.evictAllItems cfg).cell := by
  simp only [evictAllItems]
  split
  · refine flushes_victims (s := { s with clockHand := _ }) (evictVictim cfg) (fun _ _ => rfl)
      (fun e he => ?_) ((pairwise_scanFrom _ _).imp Nat.ne_of_lt)
    rw [(mem_scanFrom.1 he).2, Option.map_some]
  · exact .of_eq (fun _ => rfl)

/-! ## Admissions -/

section

variable (h : Refines cfg s m)
include h

lemma Refines.set {x : Option V}
    (hother : ∀ a, a ≠ k → s'.cell a = s.cell a) (hbacked : (s'.cell k).Backed cfg.inclusive)
    (hview : (s'.cell k).view = x) : Refines cfg s' (Function.update m k x) := by
  refine ⟨fun a => ?_, fun a => ?_⟩ <;> rcases eq_or_ne a k with rfl | ha
  · exact hbacked
  · exact hother a ha ▸ h.backed a
  · rw [hview, update_self]
  · rw [hother a ha, h.view a, update_of_ne ha]

/-- **An admission.**  The eviction it begins with may move the old record of the key down. -/
lemma Refines.admitElement (ch : Choices) (k : ℕ) (v : V) (dirty : Bool)
    (hclean : cfg.inclusive = true → dirty = false →
      (s.cell k).cold = some v ∧ ((s.cell k).flush true).cold = some v) :
    Refines cfg (s.admitElement cfg ch k v dirty) (Function.update m k (some v)) := by
  simp only [Adapter.admitElement]
  set s₁ := if s.emptySlots ≤ 0 ∧ ch.pressure then s.evictABunch cfg else s with hs₁
  have hflush : Flushes cfg s.cell s₁.cell := by
    rw [hs₁]
    split_ifs
    · exact flushes_evictABunch cfg s
    · exact .of_eq (fun _ => rfl)
  refine (h.flushes hflush).set (fun a ha => ?_) (fun hinc w hw => ?_) ?_
  · simp [cell, getElem?_insert, ha.symm]
  · -- a clean record is a copy of the bottom one, before and after the eviction
    obtain ⟨rfl, rfl⟩ : v = w ∧ dirty = false := by simpa [cell, data] using hw
    obtain ⟨hstay, hmoved⟩ := hclean hinc rfl
    rcases hflush k with hk | hk
    · exact (congrArg cold hk).trans hstay
    · rw [hinc] at hk
      exact (congrArg cold hk).trans hmoved
  · simp [cell, data]

lemma Refines.deleteBottomDb (hk : s.topDb[k]? = none) :
    Refines cfg (s.deleteBottomDb k) (Function.update m k none) := by
  refine h.set (fun a ha => ?_) (backed_of_hot_none _ ?_) ?_
  · simp [cell, Adapter.deleteBottomDb, getElem?_erase, ha.symm]
  · simp [cell, Adapter.deleteBottomDb, hk]
  · simp [cell, Adapter.deleteBottomDb, hk]

lemma Refines.migrate (ch : Choices) (hk : s.topDb[k]? = none) (v : V)
    (dirty : Bool) (hclean : dirty = false → m k = some v) :
    Refines cfg (s.migrate cfg ch k v dirty) (Function.update m k (some v)) := by
  simp only [Adapter.migrate]
  cases hinc : cfg.inclusive
  · have hmove := (h.deleteBottomDb hk).admitElement ch k v dirty (by simp [hinc])
    rwa [update_idem] at hmove
  refine h.admitElement ch k v dirty (fun _ hdirty => ?_)
  have hcold : (s.cell k).cold = some v := by
    have hview := h.view k
    rw [cell_of_top_none hk, hclean hdirty] at hview
    exact hview
  rw [flush_of_hot_none true (by simp [cell, hk])]
  exact ⟨hcold, hcold⟩

/-! ## The calls -/

lemma Refines.write (ch : Choices) (k : ℕ) (v : V) :
    Refines cfg (s.admitElement cfg ch k v true) (Function.update m k (some v)) :=
  h.admitElement ch k v true (by simp)

lemma Refines.lookup (k : ℕ) (ch : Choices) :
    Refines cfg (s.lookup cfg k ch).1 m ∧ (s.lookup cfg k ch).2 = m k := by
  have hview := h.view k
  unfold Adapter.lookup
  rcases hk : s.topDb[k]? with _ | tp
  · rw [cell_of_top_none hk, view_none_hot] at hview
    rcases hv : s.bottomDb[k]? with _ | v
    · exact ⟨h, hview ▸ hv.symm⟩
    have hm : m k = some v := hview ▸ hv
    dsimp only
    split_ifs with hmigrate
    · have hmove := h.migrate ch hk v false (fun _ => hm)
      rw [update_eq_self_iff.2 hm.symm] at hmove
      exact ⟨hmove, hm.symm⟩
    · exact ⟨h, hm.symm⟩
  · rw [cell_of_top hk, view_some_hot] at hview
    dsimp only
    split_ifs with href
    · have hadm := h.admitElement ch k tp.payload tp.modified (fun hinc hclean => by
        have hhot : (s.cell k).hot = some (tp.payload, false) := by
          rw [cell_of_top hk, ← hclean]
          rfl
        have hcold := h.backed k hinc tp.payload hhot
        exact ⟨hcold, (cold_flush_of_clean hhot).trans hcold⟩)
      rw [update_eq_self_iff.2 hview] at hadm
      exact ⟨hadm, hview⟩
    · exact ⟨h, hview⟩

lemma Refines.putBottomDb (hk : s.topDb[k]? = none) (v : V) :
    Refines cfg (s.putBottomDb k v) (Function.update m k (some v)) := by
  refine h.set (fun a ha => ?_) (backed_of_hot_none _ ?_) ?_
  · simp [cell, Adapter.putBottomDb, getElem?_insert, ha.symm]
  · simp [cell, Adapter.putBottomDb, hk]
  · simp [cell, Adapter.putBottomDb, hk]

lemma Refines.update (hm : m k ≠ none) (v : V) (ch : Choices) :
    Refines cfg (s.update cfg k v ch) (Function.update m k (some v)) := by
  have hview := h.view k
  unfold Adapter.update
  rcases hk : s.topDb[k]? with _ | tp
  · rw [cell_of_top_none hk, view_none_hot] at hview
    rcases hv : s.bottomDb[k]? with _ | w
    · exact absurd (hview ▸ hv) hm
    · dsimp only
      split_ifs with hmigrate
      · exact h.migrate ch hk v true (by simp)
      · exact h.putBottomDb hk v
  · exact h.write ch k v

end

/-! ## Runs -/

/-- The contract of the calls: an `update` is one of a key that has been written. -/
def Contract (m : ℕ → Option V) : Op V → Prop
  | .update k _ => m k ≠ none
  | _ => True

/-- **One call.**  A call the contract allows keeps the adapter in step with the map. -/
lemma Refines.step (h : Refines cfg s m) {op : Op V} (ch : Choices) (hop : Contract m op) :
    Refines cfg (s.step cfg (op, ch)) (op.apply m) := by
  cases op with
  | insert k v => exact h.write ch k v
  | update k v => exact h.update hop v ch
  | put k v => exact h.write ch k v
  | lookup k => exact (h.lookup k ch).1
  | evict =>
    simp only [Adapter.step]
    split_ifs
    · exact h.flushes (flushes_evictAllItems cfg s)
    · exact h.flushes (flushes_evictABunch cfg s)

/-- The calls of a run, each within the contract. -/
def AdmissibleRun (ops : List (Op V × Choices)) : Prop :=
  Admits (fun m i => Contract m i.1) (fun m i => i.1.apply m) (fun _ => none) ops

/-- **The adapter keeps the values last written.**  After every run of `insert` and `put`, `update`
of keys that have been written, `lookup` and evictions, whatever the draws and the pressure were, a
lookup finds exactly the keys that have been written, with the value last written to them. -/
theorem lookup_last_written (cfg : Config) {ops : List (Op V × Choices)}
    (hops : AdmissibleRun ops) (k : ℕ) (ch : Choices) :
    ((init.run cfg ops).lookup cfg k ch).2 = contents (ops.map Prod.fst) k := by
  have h : Refines cfg (ops.foldl (Adapter.step cfg) init) _ := foldl_simulates
    (fun s m i (h : Refines cfg s m) hi => h.step i.2 hi) (refines_init cfg) hops
  rw [contents, List.foldl_map]
  exact (h.lookup k ch).2

/-- An exclusive adapter in which the second write of a key begins with the eviction of the
first. -/
theorem lookup_last_written_twice :
    let ch : Choices := ⟨0, true, false⟩
    let ops := [(Op.insert 1 10, ch), (.evict, ch), (.put 1 20, ch), (.evict, ch)]
    AdmissibleRun ops ∧
      ((init.run ⟨false, false, 10⟩ ops).lookup ⟨false, false, 10⟩ 1 ch).2 = some 20 := by
  intro ch ops
  have hops : AdmissibleRun ops := by
    simp [ops, AdmissibleRun, Admits, Contract]
  exact ⟨hops, lookup_last_written ⟨false, false, 10⟩ hops 1 ch⟩

end Adapter

end TwoTree.TwoLSMT
