import TwoTree.Tiered.Cells

/-!
# Stores that hold a map, and updates that last

A store refines the map a client believes in if no lock is held, every cell keeps the discipline
of its mode, and its value is the map's.  This file says so for the shared operations: evictions
and lookups are maintenance, and an operation that sets a cell to a coherent one writes its value
into the map.

The one operation that may leave an incoherent cell is `update`.  Of a key that is in the cold
map only it makes a *clean* hot entry with the new value, when it migrates: an inclusive store
then holds the new value above the old one, with nothing to say that the old one is stale, and
the next eviction drops the new value.  If the admission is refused, the value is not written at
all.  `UpdateLasts` is the condition under which neither happens, and `lasting_updateCell_iff`
says that it is exact.
-/

namespace TwoTree.Tiered

open Std Lib Lib.OrderedMap LockManager Function Cell

variable {V : Type*}

/-! ## The cell an update leaves -/

/-- What `update` makes of the cell of its key: it overwrites a hot entry in place; a cold one is
migrated with the new value, if the admission takes place, or overwritten where it is. -/
def updateCell (inclusive migrates ok : Bool) (v : V) (c : Cell V) : Cell V :=
  match c.hot with
  | some _ => ⟨some (v, true), c.cold⟩
  | none =>
    if migrates then Store.movedCell inclusive ok v c else ⟨none, c.cold.map (fun _ => v)⟩

/-- **When an update lasts**: the key is hot, or it does not migrate, or it is admitted by an
exclusive store, or the new value is the one it has. -/
def UpdateLasts (inclusive migrates ok : Bool) (v : V) (c : Cell V) : Prop :=
  c.hot ≠ none ∨ migrates = false ∨ (ok = true ∧ inclusive = false) ∨ c.view = some v

/-- **The condition is exact.**  Of a coherent cell with a value, the value an update leaves is
read now and after any maintenance exactly if `UpdateLasts` holds. -/
lemma lasting_updateCell_iff {inclusive : Bool} {c : Cell V} (hc : c.Coherent inclusive)
    (hk : c.view ≠ none) (migrates ok : Bool) (v : V) :
    (updateCell inclusive migrates ok v c).Lasting inclusive v ↔
      UpdateLasts inclusive migrates ok v c := by
  obtain ⟨_ | p, cold⟩ := c
  · obtain ⟨w, rfl⟩ := Option.ne_none_iff_exists'.1 hk
    cases inclusive <;> cases migrates <;> cases ok <;>
      simp [updateCell, UpdateLasts, Store.movedCell, Cell.Lasting, demote]
  · cases inclusive
    · obtain rfl := coherent_exclusive_some.1 hc
      simp [updateCell, UpdateLasts, Cell.Lasting, demote]
    · simp [updateCell, UpdateLasts, Cell.Lasting, demote]

/-- An update that lasts leaves a coherent cell. -/
lemma coherent_updateCell {inclusive migrates ok : Bool} {c : Cell V} {v : V}
    (hc : c.Coherent inclusive) (h : UpdateLasts inclusive migrates ok v c) :
    (updateCell inclusive migrates ok v c).Coherent inclusive := by
  obtain ⟨_ | p, cold⟩ := c
  · cases migrates with
    | false => exact coherent_of_hot_none rfl
    | true =>
      cases ok with
      | false => exact hc
      | true =>
        cases inclusive with
        | false => exact coherent_exclusive_some.2 rfl
        | true =>
          have hcold : cold = some v := by simpa [UpdateLasts] using h
          exact coherent_inclusive_some.2 (fun _ => hcold)
  · cases inclusive with
    | false =>
      exact coherent_exclusive_some.2 (coherent_exclusive_some.1 hc)
    | true => exact coherent_inclusive_some.2 (by simp)

namespace Store

/-! ## Refinement -/

/-- The store holds the map `m`. -/
structure Refines (inclusive : Bool) (s : Store V) (m : ℕ → Option V) : Prop where
  unlocked : s.Unlocked
  holds : Holds inclusive s.cell m

lemma refines_init (inclusive : Bool) : Refines inclusive (init : Store V) (fun _ => none) where
  unlocked := OptimisticLockTable.unlocked_init
  holds := ⟨fun k => coherent_of_hot_none (by simp [cell, init]),
    fun k => by simp [cell, init, view]⟩

variable {inclusive : Bool} {s s' : Store V} {m : ℕ → Option V} {k : ℕ} {v : V} {cfg : Config}

lemma Refines.set (h : Refines inclusive s m) {c : Cell V} {x : Option V}
    (hunlocked : s'.Unlocked) (hcell : s'.cell = update s.cell k c)
    (hcoherent : c.Coherent inclusive) (hview : c.view = x) :
    Refines inclusive s' (update m k x) := by
  refine ⟨hunlocked, h.holds.set (fun a ha => ?_) ?_ ?_⟩
  · rw [hcell, update_of_ne ha]
  · rwa [hcell, update_self]
  · rwa [hcell, update_self]

/-- An eviction is maintenance of every cell. -/
lemma Refines.evictKeys (h : Refines inclusive s m)
    {move : Store V → ℕ → TaggedPayload V → Store V} (hmove : IsMove inclusive move)
    {keys : List ℕ} (hkeys : keys.Nodup) : Refines inclusive (evictKeys move s keys) m := by
  obtain ⟨hunlocked, hcells⟩ := evictKeys_spec hmove h.unlocked hkeys
  refine ⟨hunlocked, h.holds.maint (fun a => ?_)⟩
  rcases hcells a with ha | ha
  · exact .of_eq ha
  · exact ha ▸ .demote _ _

/-- **A lookup returns the value of the map**, which stays as it is. -/
lemma Refines.lookupLoop (h : Refines cfg.inclusive s m) {ok : Bool}
    {admission : Store V → ℕ → V → Bool × Store V} (hadm : IsAdmission ok admission)
    (migrates : Bool) (fuel k : ℕ) :
    ∃ s', lookupLoop cfg migrates admission k (fuel + 1) s = some (s', m k) ∧
      Refines cfg.inclusive s' m := by
  obtain ⟨s', hrun, hunlocked, c, hcell, hc⟩ :=
    lookupLoop_spec hadm cfg migrates h.unlocked fuel k
  refine ⟨s', by rw [hrun, h.holds.view k], hunlocked, h.holds.maint (fun a => ?_)⟩
  rw [hcell]
  rcases eq_or_ne a k with rfl | ha
  · rw [update_self]
    rcases hc with rfl | rfl
    · exact .refl _
    · exact .promote _ _
  · rw [update_of_ne ha]
    exact .refl _

variable (h : Refines inclusive s m)
include h

lemma Refines.insert (fuel : ℕ) (hk : m k = none) (v : V) :
    ∃ s', s.underWriteLock (fuel + 1) k (insertLocked k v) = some s' ∧
      Refines inclusive s' (update m k (some v)) := by
  have habsent := h.holds.absent hk
  obtain ⟨s', hrun, hunlocked, hcell⟩ :=
    underWriteLock_spec h.unlocked fuel k (insertLocked k v) (fun _ => rfl) (fun t ht => by
      rw [cell_insertLocked (s := t) (hot_none_iff.1 (by rw [ht, habsent])) v, ht])
  refine ⟨s', hrun, h.set hunlocked hcell ?_ rfl⟩
  rw [habsent]
  cases inclusive
  · exact coherent_exclusive_some.2 rfl
  · exact coherent_inclusive_some.2 (by simp)

lemma Refines.put (fuel k : ℕ) (v : V) {body : Store V → Store V}
    (hbody : ∀ t, (body t).lockTable = t.lockTable)
    (hcell : ∀ t, (body t).cell = update t.cell k ((t.cell k).put inclusive v)) :
    ∃ s', s.underWriteLock (fuel + 1) k body = some s' ∧
      Refines inclusive s' (update m k (some v)) := by
  obtain ⟨s', hrun, hunlocked, hcell'⟩ := underWriteLock_spec h.unlocked fuel k body
    (c := (s.cell k).put inclusive v) hbody (fun t ht => by rw [hcell, ht])
  rw [put_of_coherent (h.holds.coherent k)] at hcell'
  exact ⟨s', hrun, h.set hunlocked hcell' (coherent_write _ v _) (view_write _ v _)⟩

/-- **A writing operation whose body updates its key** returns.  If the update lasts, the store
holds the updated map. -/
lemma Refines.update (fuel k : ℕ) (v : V) {migrates ok : Bool}
    {body : Store V → Store V} (hbody : ∀ t, (body t).lockTable = t.lockTable)
    (hcell : ∀ t : Store V, (t.cell k).view ≠ none → (body t).cell =
      update t.cell k (updateCell inclusive migrates ok v (t.cell k))) (hk : m k ≠ none) :
    ∃ s', s.underWriteLock (fuel + 1) k body = some s' ∧
      ((s'.cell k).Lasting inclusive v ↔ UpdateLasts inclusive migrates ok v (s.cell k)) ∧
      (UpdateLasts inclusive migrates ok v (s.cell k) →
        Refines inclusive s' (update m k (some v))) := by
  have hview : (s.cell k).view ≠ none := by rwa [h.holds.view k]
  obtain ⟨s', hrun, hunlocked, hcell'⟩ := underWriteLock_spec h.unlocked fuel k body hbody
    (fun t ht => by rw [hcell t (by rwa [ht]), ht])
  have hlasting := lasting_updateCell_iff (h.holds.coherent k) hview migrates ok v
  refine ⟨s', hrun, ?_, fun hlasts => h.set hunlocked hcell'
    (coherent_updateCell (h.holds.coherent k) hlasts) (hlasting.2 hlasts).1⟩
  rw [hcell', update_self]
  exact hlasting

end Store

end TwoTree.Tiered
