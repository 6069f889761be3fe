import TwoTree.ConcurrentTwoBTree.Refinement

/-!
# Which updates last

`update` of a key that is in the cold tree only migrates it, and under soft memory pressure it
does so through `admit_element_might_fail` with the default arguments.  The admission may be
refused, in which case the new value is written nowhere; and if it is not, the entry is admitted
as unmodified, so that an inclusive adapter drops the new value at the next eviction.

This file says which updates last.  `QuietRun` are the evictions and lookups that follow an
update, and `Survives` says that the value is still read after any of them.  In an idle state
that is a matter of one cell (`survives_iff_lasting`): the value must outlive a demotion.  One
direction is that evictions and lookups are maintenance; the other exhibits an eviction, as three
sweeps of the clock over the whole hot tree.  `update_survives_iff` is the resulting exact
condition.
-/

namespace TwoTree.ConcurrentTwoBTree

open Std Lib Lib.OrderedMap LockManager Cell

variable {V : Type*}

namespace Adapter

variable {cfg : Config} {s s' s'' : Adapter V} {k : ℕ} {v : V} {ch : Choices V}

/-! ## Evictions and lookups -/

/-- The states that evictions and lookups lead to.  The boundaries are those the search can
answer with. -/
inductive QuietRun (fuel : ℕ) (cfg : Config) : Adapter V → Adapter V → Prop
  | refl (s : Adapter V) : QuietRun fuel cfg s s
  | evict {s s' : Adapter V} {ch : Choices V} : QuietRun fuel cfg s s' → s'.Feasible ch →
      QuietRun fuel cfg s (s'.evictABunch cfg ch)
  | lookup {s s' s'' : Adapter V} {ch : Choices V} {k : ℕ} {res : Option V} :
      QuietRun fuel cfg s s' → s'.Feasible ch →
      s'.lookup fuel cfg k ch = some (s'', res) → QuietRun fuel cfg s s''

/-- The key is read as `v` now and after any evictions and lookups. -/
def Survives (fuel : ℕ) (cfg : Config) (s : Adapter V) (k : ℕ) (v : V) : Prop :=
  ∀ s', QuietRun fuel cfg s s' → ∀ ch, s'.Feasible ch →
    ∃ s'', s'.lookup fuel cfg k ch = some (s'', some v)

lemma maint_tryEviction (hs : s.Unlocked) (hk : ¬ s.Marked k) (cfg : Config) (ch : Choices V) :
    Cell.Maint cfg.inclusive (s.cell k) ((s.tryEviction cfg ch).cell k) ∧
      ¬ (s.tryEviction cfg ch).Marked k :=
  maint_of_kept_or_evicted ((tryEviction_at cfg ch hs).2 k) hk

/-- **Evictions and lookups are maintenance** of every key without a deletion mark. -/
lemma QuietRun.maint {fuel : ℕ} (hrun : QuietRun (fuel + 1) cfg s s') (hs : s.Idle)
    (hk : ¬ s.Marked k) :
    s'.Idle ∧ Cell.Maint cfg.inclusive (s.cell k) (s'.cell k) ∧ ¬ s'.Marked k := by
  induction hrun with
  | refl => exact ⟨hs, Cell.Maint.refl _, hk⟩
  | @evict s' ch _ _ ih =>
    obtain ⟨hidle, hmaint, hmark⟩ := ih
    obtain ⟨hmaint', hmark'⟩ :=
      maint_of_kept_or_evicted ((evictABunch_at cfg ch hidle.unlocked).2 k) hmark
    exact ⟨hidle.evictABunch cfg ch, hmaint.trans hmaint', hmark'⟩
  | @lookup s' s'' ch a res _ _ hlookup ih =>
    obtain ⟨hidle, hmaint, hmark⟩ := ih
    have htry := hidle.tryEviction cfg ch
    obtain ⟨hmaint', hmark'⟩ := maint_tryEviction hidle.unlocked hmark cfg ch
    obtain ⟨t, hrun, htouch, hlooked⟩ := lookupLoop_spec cfg ch htry.unlocked fuel a
    obtain ⟨rfl, -⟩ := Prod.mk.inj (Option.some.inj (hrun.symm.trans hlookup))
    obtain ⟨hmaint'', hmark''⟩ := maint_of_lookup htouch hlooked hmark'
    exact ⟨htry.of_onlyTouches htouch, (hmaint.trans hmaint').trans hmaint'', hmark''⟩

lemma lookup_eq_view (hs : s.Idle) (hk : ¬ s.Marked k) (fuel : ℕ) (cfg : Config)
    (ch : Choices V) :
    ∃ s', s.lookup (fuel + 1) cfg k ch =
      some (s', ((s.tryEviction cfg ch).cell k).view) := by
  obtain ⟨hmaint, hmark⟩ := maint_tryEviction hs.unlocked hk cfg ch
  obtain ⟨s', hrun, -⟩ := lookupLoop_spec cfg ch (hs.tryEviction cfg ch).unlocked fuel k
  exact ⟨s', by rw [Adapter.lookup, hrun, find_of_not_marked hmark]⟩

/-! ## A sweep of the clock -/

/-- The search can always answer with the end of the tree. -/
lemma exists_boundaryFound (hot : TreeMap ℕ (HotRecord V)) (start : ℕ) :
    ∃ endKey, BoundaryFound hot start (endKey, true) ∧ ∀ a ∈ hot, start ≤ a → a ≤ endKey := by
  by_cases hempty : ∀ a ∈ hot, a < start
  · exact ⟨start, Or.inl ⟨hempty, rfl⟩, fun a ha _ => (hempty a ha).le⟩
  push Not at hempty
  obtain ⟨b, hb, hle⟩ := hempty
  obtain ⟨e, he, hmax⟩ := hot.keys.toFinset.exists_max_image id ⟨b, by simpa using hb⟩
  have hmax' : ∀ a ∈ hot, a ≤ e := fun a ha => hmax a (by simpa using ha)
  refine ⟨e, Or.inr ⟨hle.trans (hmax' b hb), by simpa using he, by simpa using hmax'⟩,
    fun a ha _ => hmax' a ha⟩

/-- Choices under which nothing happens but a sweep to the end of the tree, with given bytes
behind the deletion marks. -/
def sweepChoices (overread : TaggedPayload V) (endKey : ℕ) : Choices V :=
  ⟨false, some (endKey, true), fun _ => overread, 0, false, false, 0, true⟩

/-- One sweep from the clock hand to the end of the tree. -/
lemma exists_sweep (hs : s.Idle) (cfg : Config) (overread : TaggedPayload V) :
    ∃ endKey range, s.Feasible (sweepChoices overread endKey) ∧
      Sweeps cfg (sweepChoices overread endKey) s range
        (s.evictABunch cfg (sweepChoices overread endKey)) ∧
      (s.evictABunch cfg (sweepChoices overread endKey)).clock.clockHand = 0 ∧
      range.startKey = s.clock.clockHand ∧
      ∀ a ∈ s.hotBtree, s.clock.clockHand ≤ a → a ≤ range.endKey := by
  obtain ⟨endKey, hfound, hmax⟩ := exists_boundaryFound s.hotBtree s.clock.clockHand
  obtain ⟨c', hclaim, -, hhand⟩ := hs.drained.claim endKey true
  have hsweep := evictABunch_sweeps cfg (sweepChoices overread endKey) hs.unlocked hclaim
  refine ⟨endKey, _, ⟨_, rfl, hfound⟩, hsweep.1, ?_, rfl, hmax⟩
  rw [hsweep.2]
  exact hhand

/-- A sweep from the start of the tree evicts the key, or clears its reference bit. -/
lemma Sweeps.from_zero {range : ClaimedRange} (hsweep : Sweeps cfg ch s range s')
    (hstart : range.startKey = 0) (hend : ∀ a ∈ s.hotBtree, a ≤ range.endKey)
    (hk : ¬ s.Marked k) :
    s'.hotBtree[k]? = none ∨
      ∃ tp tp', s.hotBtree[k]? = some (.tagged tp) ∧ tp.referenced = true ∧
        s'.hotBtree[k]? = some (.tagged tp') ∧ tp'.referenced = false := by
  rcases hr : s.hotBtree[k]? with _ | (tp | _)
  · exact Or.inl ((hsweep.outside k (fun _ _ => hr)).1.trans hr)
  · have hle : k ≤ range.endKey :=
      hend k (by rw [TreeMap.mem_iff_isSome_getElem?, hr]; rfl)
    cases href : tp.referenced
    · obtain ⟨-, -, hhot, -⟩ := hsweep.notReferenced k _ (by omega) hle hr href
      exact Or.inl hhot
    · obtain ⟨hhot, -⟩ := hsweep.referenced k _ (by omega) hle hr href
      exact Or.inr ⟨tp, _, rfl, href, hhot, by simp⟩
  · exact absurd hr hk

/-- A sweep keeps the cell of a key without a deletion mark or demotes it. -/
lemma Sweeps.cell_demote {range : ClaimedRange} (hsweep : Sweeps cfg ch s range s')
    (hk : ¬ s.Marked k) :
    ¬ s'.Marked k ∧ (s'.cell k).demote cfg.inclusive = (s.cell k).demote cfg.inclusive := by
  refine ⟨(maint_of_kept_or_evicted (hsweep.at k) hk).2, ?_⟩
  rcases hsweep.at k with hkept | hevicted
  · rw [hkept.cell_eq]
  · rw [hevicted.cell_eq hk, demote_demote]

/-- **Some sequence of evictions evicts a given key.**  The first sweep rewinds the hand, the
second clears the reference bit of the key, the third evicts it. -/
lemma exists_evicted (hs : s.Idle) (hk : ¬ s.Marked k) (v : V) (fuel : ℕ) (cfg : Config) :
    ∃ s', QuietRun fuel cfg s s' ∧ s'.Idle ∧ ¬ s'.Marked k ∧
      s'.cell k = (s.cell k).demote cfg.inclusive := by
  obtain ⟨e₁, range₁, hf₁, hsweep₁, hhand₁, -⟩ := exists_sweep hs cfg ⟨v, 0#8⟩
  set s₁ := s.evictABunch cfg (sweepChoices ⟨v, 0#8⟩ e₁) with hs₁_def
  have hs₁ : s₁.Idle := hs.evictABunch cfg _
  obtain ⟨hk₁, hcell₁⟩ := hsweep₁.cell_demote hk
  obtain ⟨e₂, range₂, hf₂, hsweep₂, hhand₂, hstart₂, hend₂⟩ := exists_sweep hs₁ cfg ⟨v, 0#8⟩
  set s₂ := s₁.evictABunch cfg (sweepChoices ⟨v, 0#8⟩ e₂) with hs₂_def
  have hs₂ : s₂.Idle := hs₁.evictABunch cfg _
  obtain ⟨hk₂, hcell₂⟩ := hsweep₂.cell_demote hk₁
  obtain ⟨e₃, range₃, hf₃, hsweep₃, hhand₃, hstart₃, hend₃⟩ := exists_sweep hs₂ cfg ⟨v, 0#8⟩
  obtain ⟨hk₃, hcell₃⟩ := hsweep₃.cell_demote hk₂
  have hrun₂ : QuietRun fuel cfg s s₂ := (QuietRun.evict (.refl s) hf₁).evict hf₂
  refine ⟨_, hrun₂.evict hf₃, hs₂.evictABunch cfg _, hk₃, ?_⟩
  rw [← hcell₁, ← hcell₂, ← hcell₃]
  have hgone : (s₂.evictABunch cfg (sweepChoices ⟨v, 0#8⟩ e₃)).hotBtree[k]? = none := by
    rcases hsweep₃.from_zero (hstart₃.trans hhand₂) (fun a ha => hend₃ a ha (by omega)) hk₂ with
      hnone | ⟨tp₃, -, htp₃, href₃, -⟩
    · exact hnone
    -- a record still referenced at the third sweep would have kept its bit through the second
    rcases hsweep₂.from_zero (hstart₂.trans hhand₁) (fun a ha => hend₂ a ha (by omega)) hk₁ with
      hnone | ⟨-, tp₂, -, -, htp₂, href₂⟩
    · simp [hnone] at htp₃
    · rw [htp₂] at htp₃
      obtain rfl : tp₂ = tp₃ := by simpa using htp₃
      simp [href₂] at href₃
  exact (demote_of_hot_none _ (by rw [cell_of_none hgone])).symm

/-! ## The value that survives -/

lemma exists_lookup_view (hs : s.Idle) (hk : ¬ s.Marked k) (v : V) (fuel : ℕ) (cfg : Config) :
    ∃ ch s', s.Feasible ch ∧ s.lookup (fuel + 1) cfg k ch = some (s', (s.cell k).view) := by
  obtain ⟨endKey, hfound, -⟩ := exists_boundaryFound s.hotBtree s.clock.clockHand
  obtain ⟨s', hs'⟩ := lookup_eq_view hs hk fuel cfg (sweepChoices ⟨v, 0#8⟩ endKey)
  exact ⟨sweepChoices ⟨v, 0#8⟩ endKey, s', ⟨_, rfl, hfound⟩, hs'⟩

/-- **A value survives exactly if it outlives a demotion of its cell.** -/
lemma survives_iff_lasting (hs : s.Idle) (hk : ¬ s.Marked k) (v : V) (fuel : ℕ)
    (cfg : Config) :
    Survives (fuel + 1) cfg s k v ↔ (s.cell k).Lasting cfg.inclusive v := by
  constructor
  · intro h
    have hread : ∀ s', QuietRun (fuel + 1) cfg s s' → s'.Idle → ¬ s'.Marked k →
        (s'.cell k).view = some v := by
      intro s' hrun hidle hmark
      obtain ⟨ch, t, hf, hlookup⟩ := exists_lookup_view hidle hmark v fuel cfg
      obtain ⟨t', hlookup'⟩ := h s' hrun ch hf
      rw [hlookup] at hlookup'
      exact (Prod.mk.inj (Option.some.inj hlookup')).2
    obtain ⟨s', hrun, hidle, hmark, hcell⟩ := exists_evicted hs hk v (fuel + 1) cfg
    exact ⟨hread s (.refl s) hs hk, hcell ▸ hread s' hrun hidle hmark⟩
  · intro h s' hrun ch _
    obtain ⟨hidle, hmaint, hmark⟩ := hrun.maint hs hk
    obtain ⟨t, ht⟩ := lookup_eq_view hidle hmark fuel cfg ch
    have hmaint' := (maint_tryEviction hidle.unlocked hmark cfg ch).1
    exact ⟨t, by rw [ht, lasting_iff.1 h _ (hmaint.trans hmaint')]⟩

/-- **When an update lasts**, as a condition on the cell of the key after the eviction the call
begins with.  If the key is hot, an exclusive adapter must not hold another value below it.  If
it is cold and migrates under soft pressure, the entry must be admitted by an exclusive adapter,
or hold the new value already; without pressure it lasts in any case.  If it does not migrate,
there must be a cold entry to write to. -/
def UpdateLasts (cfg : Config) (ch : Choices V) (v : V) (c : Cell V) : Prop :=
  match c.hot with
  | some _ => cfg.inclusive = true ∨ c.cold = none ∨ c.cold = some v
  | none =>
    if shouldMigrate cfg ch then
      ch.softPressure = false ∨ (ch.room = true ∧ cfg.inclusive = false) ∨ c.cold = some v
    else c.cold ≠ none

lemma lasting_updateCell_iff (cfg : Config) (ch : Choices V) (v : V) (c : Cell V) :
    (updateCell cfg ch v c).Lasting cfg.inclusive v ↔ UpdateLasts cfg ch v c := by
  obtain ⟨_ | p, cold⟩ := c
  · by_cases hmig : shouldMigrate cfg ch = true
    · cases hsoft : ch.softPressure <;> cases hroom : ch.room <;> cases hinc : cfg.inclusive <;>
        simp [updateCell, UpdateLasts, hmig, hsoft, hroom, hinc, Cell.Lasting, write,
          demote]
    · rcases cold with _ | w <;> simp [updateCell, UpdateLasts, hmig, Cell.Lasting, demote]
  · cases hinc : cfg.inclusive <;> rcases cold with _ | w <;>
      simp [updateCell, UpdateLasts, hinc, Cell.Lasting, demote]

/-- **Which updates last.**  In every state that calls lead to, for every key a lookup finds,
every value and every outcome of the choices: `update` returns, and its value is read now and
after any later evictions and lookups, exactly if `UpdateLasts` holds of the key's cell. -/
theorem update_survives_iff (cfg : Config) (fuel : ℕ) {s : Adapter V} (hs : Reachable cfg s)
    {k : ℕ} (hk : (s.find k).isSome) (v : V) (ch : Choices V) :
    (∃ s', s.update (fuel + 1) cfg k v ch = some s' ∧ Survives (fuel + 1) cfg s' k v) ↔
      UpdateLasts cfg ch v ((s.tryEviction cfg ch).cell k) := by
  have hidle := hs.idle
  have hmark : ¬ s.Marked k := fun h => by simp [find_of_marked h] at hk
  have htry := hidle.tryEviction cfg ch
  have hmark' := (maint_tryEviction hidle.unlocked hmark cfg ch).2
  obtain ⟨s', hrun, hset⟩ := update_spec cfg ch htry.unlocked fuel hmark' v
  have hsurvives : Survives (fuel + 1) cfg s' k v ↔
      UpdateLasts cfg ch v ((s.tryEviction cfg ch).cell k) := by
    rw [survives_iff_lasting (htry.of_onlyTouches hset.toOnlyTouches) hset.not_marked,
      hset.cell_eq, lasting_updateCell_iff]
  constructor
  · rintro ⟨t, ht, hlasts⟩
    obtain rfl := Option.some.inj (ht.symm.trans hrun)
    exact hsurvives.1 hlasts
  · intro h
    exact ⟨s', hrun, hsurvives.2 h⟩

/-- **Two updates that are lost.**  The record of key 1 is inserted with value 10 and evicted,
and then updated to 20 under soft pressure.  An inclusive adapter that admits it reads 10 again
after two more evictions; an exclusive one whose leaf is full never reads 20 at all. -/
theorem update_lost :
    let calm : Choices ℕ := sweepChoices ⟨0, 0⟩ 1
    let soft : Choices ℕ := { calm with softPressure := true }
    let full : Choices ℕ := { soft with room := false }
    let read := fun (cfg : Config) (s : Adapter ℕ) => (s.lookup 1 cfg 1 calm).map Prod.snd
    ((init.run 1 ⟨true, false, 10⟩
        [(.insert 1 10, calm), (.evict, calm), (.update 1 20, soft)]).bind
        (read ⟨true, false, 10⟩) = some (some 20) ∧
      (init.run 1 ⟨true, false, 10⟩ [(.insert 1 10, calm), (.evict, calm), (.update 1 20, soft),
        (.evict, calm), (.evict, calm)]).bind (read ⟨true, false, 10⟩) = some (some 10)) ∧
    (init.run 1 ⟨false, false, 10⟩
        [(.insert 1 10, calm), (.evict, calm), (.update 1 20, full)]).bind
        (read ⟨false, false, 10⟩) = some (some 10) := by
  decide

/-- An update of a hot record lasts. -/
theorem update_survives_iff_hot :
    let calm : Choices ℕ := sweepChoices ⟨0, 0⟩ 1
    ∃ s s', Reachable ⟨true, false, 10⟩ s ∧ s.find 1 = some 10 ∧
      s.update 1 ⟨true, false, 10⟩ 1 20 calm = some s' ∧ Survives 1 ⟨true, false, 10⟩ s' 1 20 := by
  intro calm
  obtain ⟨s, hs⟩ : ∃ s, [(Call.op (.insert 1 10), calm)].foldlM (call 1 ⟨true, false, 10⟩)
      (init : Adapter ℕ) = some s := ⟨_, rfl⟩
  have hreach : Reachable ⟨true, false, 10⟩ s := ⟨1, _, hs⟩
  obtain rfl := Option.some.inj hs
  obtain ⟨s', hrun, hsurvives⟩ := (update_survives_iff _ 0 hreach (k := 1) rfl 20 calm).2
    (Or.inl rfl)
  exact ⟨_, s', hreach, rfl, hrun, hsurvives⟩

end Adapter

end TwoTree.ConcurrentTwoBTree
