import TwoTree.ConcurrentTwoBTree.Refinement
import TwoTree.ConcurrentTwoBTree.Steps

/-!
# No record is lost between threads

The invariant of any number of threads on one adapter (`Threads.Inv`): the evictors have claimed
disjoint ranges, the owners of locks exclude each other, every thread knows what `Pc.Knows` says,
the cells that nobody owns are coherent, and the value of a key is that of the put completed last,
unless a put is just being carried out.  One step keeps it (`Inv.of_stepSpec`), because what a
thread does is interference to the others, and so it holds along every run in which no lock word
wraps around.

The threads start on an adapter at rest (`Quiescent`), such as the calls of a single thread leave
behind (`run_quiescent`).  The result is that lookups and puts behave as if each took place at one
moment, the lookup when it validates its result and the put when it gives its lock back; that a key
that was written is always in one of the trees; and that the cold tree, where it is the only one to
hold a key, holds the payload of the put completed last (`no_record_lost`).

The lock words are 64 bits wide.  If one of them is taken `2 ^ 63` times between the scan of an
evictor and its attempt to lock the victim, it returns to the version the evictor took down, and
the evictor replaces the record by its outdated copy (`record_lost_by_wrap`).
-/

namespace TwoTree.ConcurrentTwoBTree

open Std Lib Lib.OrderedMap Lib.Locking LockManager Function Pc OptimisticLockGuard Adapter Event

variable {V : Type*}

/-! ## Adapters at rest -/

/-- The adapter holds the map `m`, and no eviction is under way. -/
structure Quiescent (cfg : Config) (a : Adapter V) (m : ℕ → Option V) : Prop
    extends Adapter.Refines cfg a m where
  drained : a.clock.Drained

lemma quiescent_init (cfg : Config) : Quiescent cfg (init : Adapter V) (fun _ => none) where
  toRefines := refines_init cfg
  drained := EvictionClock.drained_init

/-! ## The invariant -/

namespace Threads

variable {a : Adapter V}

/-- The invariant of the threads; `m` is the map of the puts completed last. -/
structure Inv (cfg : Config) (m : ℕ → Option V) (s : Threads V) : Prop where
  rounds : Rounds.Inv ⟨s.adapter.clock, fun t => (s.pc t).range⟩
  exclusive : Exclusive wordPos (fun t => (s.pc t).held) s.adapter.world
  unmarked : s.adapter.Unmarked
  knows : ∀ t, (s.pc t).Knows cfg s.adapter.world
  coherent : ∀ k, (∀ t, (s.pc t).held ≠ some k) → (s.adapter.cell k).Coherent cfg.inclusive
  view : ∀ k, (∀ t v, (s.pc t).applied ≠ some (k, v)) → (s.adapter.cell k).view = m k

lemma inv_start {cfg : Config} {m : ℕ → Option V} (h : Quiescent cfg a m) :
    Inv cfg m (start a) where
  rounds :=
    { finite := fun p => by simp [start, Rounds.atParity, range, sweep]
      count := fun p => by simp [start, Rounds.atParity, range, sweep, h.drained.counter]
      round_lt := ⟨h.drained.round_lt, by simp [start, range, sweep]⟩
      current := Or.inl (by simp [start, range, sweep])
      ranges := by simp [start, range, sweep]
      disjoint := by simp [start, range, sweep] }
  exclusive := ⟨by simp [start, held, owned], by simp [start, held, owned]⟩
  unmarked := h.not_marked
  knows := fun t => knows_of_nothing rfl rfl rfl trivial
  coherent := fun k _ => h.holds.coherent k
  view := fun k _ => h.holds.view k

variable {cfg : Config} {m : ℕ → Option V} {s : Threads V} {ch : Choices V} {a' : Adapter V}
  {pc pc' : Pc V} {event : Option (Event V)} {t k : ℕ} {v : V} {es : List (Event V)}
  {s₀ : Threads V} {call : ThreadCall V} {f : ℕ → Pc V}

lemma held_of_applied (h : pc.applied = some (k, v)) : pc.held = some k := by
  cases pc <;> simp_all [applied, held, owned]

lemma exists_sweep_of_pending (h : k ∈ pc.pending) : ∃ e, pc.sweep = some e := by
  cases pc <;> first | exact ⟨_, rfl⟩ | simp [pending] at h

section

variable (h : Inv cfg m s)
include h

/-- A thread that moves can assume what `Pc.stepSpec` asks for. -/
lemma Inv.ready (hwrap : s.NoWrap) (t : ℕ) : (s.pc t).Ready cfg s.adapter where
  knows := h.knows t
  unmarked := h.unmarked
  locked := fun k hk => h.exclusive.locked t k hk
  coherent := fun k heven => h.coherent k (fun t => h.exclusive.ne_of_even heven t)
  noWrap := fun k => hwrap (wordPos k)

/-! ## One step -/

lemma Inv.rounds_step (hclock : ClockStep ch.boundary s.adapter.clock a'.clock (s.pc t).range pc'.range)
    (hb : ∀ b ∈ ch.boundary, BoundaryOk s.adapter.clock.clockHand b) :
    Rounds.Inv ⟨a'.clock, fun t' => (update s.pc t pc' t').range⟩ := by
  have hupdate : (fun t' => (update s.pc t pc' t').range) =
      update (fun t' => (s.pc t').range) t pc'.range := comp_update range _ _ _
  rw [hupdate]
  rcases hclock with ⟨hclock, hrange⟩ | ⟨b, range, hboundary, hnone, hclaim, hrange⟩ |
    ⟨range, hsome, hclock, hrange⟩
  · have hself : update (fun t' => (s.pc t').range) t (s.pc t).range =
        fun t' => (s.pc t').range := update_eq_self _ _
    rw [hclock, hrange, hself]
    exact h.rounds
  · rw [hrange]
    exact h.rounds.enter hnone (hb b hboundary) hclaim
  · rw [hclock, hrange]
    exact h.rounds.leave hsome

/-- No two threads evict the same key. -/
lemma Inv.not_pending {t t' : ℕ} (hne : t ≠ t') (hk : k ∈ (s.pc t).pending) :
    k ∉ (s.pc t').pending := by
  intro hk'
  obtain ⟨e, he⟩ := exists_sweep_of_pending hk
  obtain ⟨e', he'⟩ := exists_sweep_of_pending hk'
  have hrange := (h.knows t).inRange e he k hk
  have hrange' := (h.knows t').inRange e' he' k hk'
  have hdisjoint := h.rounds.disjoint t t' e.range e'.range hne
    (by simp [range, he]) (by simp [range, he'])
  omega

variable (hstep : StepSpec cfg ch s.adapter (s.pc t) a' pc' event)
include hstep

lemma Inv.knows_step (t' : ℕ) : (update s.pc t pc' t').Knows cfg a'.world := by
  rcases eq_or_ne t' t with rfl | hne
  · rw [update_self]
    exact hstep.knows
  · rw [update_of_ne hne]
    refine (h.knows t').interferes (h.exclusive.interferes hstep.effect hne) (fun k hk hhot => ?_)
    intro hgone
    exact h.not_pending hne hk (hstep.hot k hhot hgone)

lemma Inv.coherent_step (hk : ∀ t', (update s.pc t pc' t').held ≠ some k) : (a'.cell k).Coherent cfg.inclusive := by
  have hself := hk t
  rw [update_self] at hself
  by_cases hheld : (s.pc t).held = some k
  · exact hstep.coherent k hheld ((hstep.effect.held_cases hheld).resolve_left hself)
  have hcell : a'.cell k = s.adapter.cell k := hstep.effect.cell_eq hheld
  rw [hcell]
  refine h.coherent k (fun t' => ?_)
  rcases eq_or_ne t' t with rfl | hne
  · exact hheld
  · have hother := hk t'
    rwa [update_of_ne hne] at hother

lemma Inv.view_step (hk : ∀ t' v, (update s.pc t pc' t').applied ≠ some (k, v)) :
    (a'.cell k).view = completed m event.toList k := by
  have hself : ∀ v, pc'.applied ≠ some (k, v) := fun v => by simpa using hk t v
  by_cases hput : ∃ v, event = some (.put k v)
  · obtain ⟨v, rfl⟩ := hput
    rw [hstep.put k v rfl]
    simp [completed, apply]
  have hnone : ∀ v, event ≠ some (.put k v) := fun v hv => hput ⟨v, hv⟩
  have hcompleted : completed m event.toList k = m k := by
    rcases event with _ | ⟨_ | ⟨k', v'⟩⟩
    · rfl
    · rfl
    · have hne : k ≠ k' := fun hkk => hnone v' (by rw [hkk])
      simp [completed, apply, hne]
  rw [hcompleted, hstep.view k hself hnone]
  refine h.view k (fun t' v hv => ?_)
  rcases eq_or_ne t' t with rfl | hne
  · exact (hstep.applied k v hv).elim (hnone v) (hself v)
  · exact hk t' v (by rwa [update_of_ne hne])

/-- **One step keeps the invariant.** -/
lemma Inv.of_stepSpec (hb : ∀ b ∈ ch.boundary, BoundaryOk s.adapter.clock.clockHand b) :
    Inv cfg (completed m event.toList) ⟨a', update s.pc t pc'⟩ where
  rounds := h.rounds_step hstep.clock hb
  exclusive := by
    have hupdate : (fun t' => (update s.pc t pc' t').held) =
        update (fun t' => (s.pc t').held) t pc'.held := comp_update held _ _ _
    change Exclusive wordPos (fun t' => (update s.pc t pc' t').held) a'.world
    rw [hupdate]
    exact h.exclusive.step hstep.effect
  unmarked := hstep.unmarked
  knows := h.knows_step hstep
  coherent := fun _ hk => h.coherent_step hstep hk
  view := fun _ hk => h.view_step hstep hk

/-- A lookup that validates its result returns the value of the put completed last. -/
lemma Inv.lookup_eq {res : Option V} (hevent : event = some (.lookup k res)) : res = m k := by
  obtain ⟨hview, happlied, hfree⟩ := hstep.lookup k res hevent
  rw [← hview]
  refine h.view k (fun t' v hv => ?_)
  have hheld := held_of_applied hv
  rcases hfree with hself | heven
  · obtain rfl := h.exclusive.unique t' t k k hheld hself rfl
    simp [happlied] at hv
  · exact h.exclusive.ne_of_even heven t' hheld

end

/-! ## Runs -/

lemma step_eq (s : Threads V) (t : ℕ) (call : ThreadCall V) (ch : Choices V) :
    s.step cfg t call ch =
      (⟨((s.pc t).step cfg call ch s.adapter).1,
        update s.pc t ((s.pc t).step cfg call ch s.adapter).2.1⟩,
        ((s.pc t).step cfg call ch s.adapter).2.2) := rfl

lemma Inv.step (h : Inv cfg m s) (hwrap : s.NoWrap) (t : ℕ) (call : ThreadCall V)
    (hb : ∀ b ∈ ch.boundary, BoundaryOk s.adapter.clock.clockHand b) :
    Inv cfg (completed m (s.step cfg t call ch).2.toList) (s.step cfg t call ch).1 := by
  rw [step_eq]
  exact h.of_stepSpec (stepSpec (h.ready hwrap t) call ch) hb

lemma Inv.explained_step (h : Inv cfg m s) (hwrap : s.NoWrap) (t : ℕ) (call : ThreadCall V)
    (ch : Choices V) : Explained m (s.step cfg t call ch).2.toList := by
  have hstep := stepSpec (h.ready hwrap t) call ch
  rcases hevent : (s.step cfg t call ch).2 with _ | ⟨k, res⟩ | ⟨k, v⟩
  · trivial
  · rw [step_eq] at hevent
    exact ⟨h.lookup_eq hstep hevent, trivial⟩
  · trivial

/-- **The invariant holds along every run in which no lock word wraps around**, and the lookups
returned the values of the puts completed before them. -/
lemma Run.inv (ha : Quiescent cfg a m)
    (h : Run cfg NoWrap (start a) es s) : Inv cfg (completed m es) s ∧ Explained m es := by
  induction h with
  | nil => exact ⟨inv_start ha, trivial⟩
  | snoc t call ch _ hwrap hb ih =>
    rw [completed_append]
    exact ⟨ih.1.step hwrap t call hb, explained_append ih.2 (ih.1.explained_step hwrap t call ch)⟩

/-- A key that is in the cold tree only has the value of the put completed last. -/
lemma Inv.cold_eq (h : Inv cfg m s) (hhot : s.adapter.hotBtree[k]? = none) :
    s.adapter.coldBtree[k]? = m k := by
  have hcell := h.unmarked.hot_eq_none_iff.2 hhot
  rw [← h.view k (fun t v hv => ?_), Cell.view_of_hot_none hcell]
  · rfl
  -- a put that has been carried out has left its entry in the hot tree
  obtain ⟨g, hg⟩ := exists_owned (held_of_applied hv)
  have hfact := ((h.knows t).owned k g hg).2
  rw [cell_world] at hfact
  cases hpc : s.pc t <;> simp_all [applied, Pc.CellFact]

/-! ## A lookup that is left alone -/

lemma exists_solo_of_step {e : Event V}
    (a' : Adapter V) (pc' : Pc V) (hstep : pc.step cfg call ch a = (a', pc', none))
    (h : ∃ n, e ∈ solo cfg call ch n a' pc') : ∃ n, e ∈ solo cfg call ch n a pc := by
  obtain ⟨n, hn⟩ := h
  refine ⟨n + 1, ?_⟩
  rw [solo, hstep]
  exact hn

lemma exists_solo_validating {g : OptimisticLockGuard}
    (hvalid : a.word k = g.version) (res : Option V) :
    ∃ n, lookup k res ∈ Pc.solo cfg call ch n a (.validating k g res) := by
  refine ⟨1, ?_⟩
  simp [Pc.solo, Pc.step, Pc.evictStep, Pc.lookupStep, validate, hvalid]

/-- The migration of a key, once its lock is taken. -/
lemma exists_solo_admitting {g : OptimisticLockGuard}
    (hmiss : a.hotBtree[k]? = none) (hversion : a.word k = g.version) (v : V) :
    ∃ n, lookup k (some v) ∈ solo cfg call ch n a (.admitting k g v) := by
  obtain ⟨admitted, hup⟩ := migrateUp_of_none ch hmiss v
  have hword : (a.migrateUp ch k v).2.word k = g.version := by
    rw [hup]
    cases admitted <;> exact hversion
  by_cases hremove : (!cfg.inclusive && admitted) = true
  · refine exists_solo_of_step (a.migrateUp ch k v).2 (.removingCold k g v)
      (by simp [Pc.step, Pc.evictStep, Pc.lookupStep, hup, hremove]) ?_
    exact exists_solo_of_step ((a.migrateUp ch k v).2.removeCold k) (.validating k g (some v)) rfl
      (exists_solo_validating (a := (a.migrateUp ch k v).2.removeCold k) hword _)
  · exact exists_solo_of_step (a.migrateUp ch k v).2 (.validating k g (some v))
      (by simp [Pc.step, Pc.evictStep, Pc.lookupStep, hup, hremove])
      (exists_solo_validating hword _)

/-- **A lookup of a key whose lock is free**, left alone and without memory pressure, returns the
value of the key. -/
lemma exists_solo_lookup (ha : a.Unmarked) (heven : a.word k % 2 = 0)
    (hpressure : ch.pressure = false) :
    ∃ n, lookup k (a.cell k).view ∈ solo cfg (.lookup k) ch n a .idle := by
  refine exists_solo_of_step a (.lookupLock k)
    (by simp [Pc.step, ThreadCall.start, ThreadCall.proceed, hpressure]) ?_
  refine exists_solo_of_step a (.hotLookup k ⟨a.word k, .readLocked⟩)
    (by simp [Pc.step, Pc.evictStep, Pc.lookupStep,
      readLock_of_even _ heven]) ?_
  rcases hr : a.hotBtree[k]? with _ | r
  · have hview : (a.cell k).view = a.coldBtree[k]? := by rw [cell_of_none hr]; rfl
    rw [hview]
    refine exists_solo_of_step a (.coldLookup k ⟨a.word k, .readLocked⟩)
      (by simp [Pc.step, Pc.evictStep, Pc.lookupStep, hr]) ?_
    rcases hcold : a.coldBtree[k]? with _ | v
    · exact exists_solo_of_step a (.validating k ⟨a.word k, .readLocked⟩ none)
        (by simp [Pc.step, Pc.evictStep, Pc.lookupStep, hcold]) (exists_solo_validating rfl _)
    by_cases hmigrate : shouldMigrate cfg ch
    · refine exists_solo_of_step a (.upgrading k ⟨a.word k, .readLocked⟩ v)
        (by simp [Pc.step, Pc.evictStep, Pc.lookupStep, hcold, hmigrate]) ?_
      refine exists_solo_of_step (a.setWord k (u64 (a.word k + 1)))
        (.admitting k ⟨u64 (a.word k + 1), .writeLocked⟩ v)
        (by simp [Pc.step, Pc.evictStep, Pc.lookupStep, upgradeToWriteLock,
          acquire_of_eq]) ?_
      exact exists_solo_admitting (a := a.setWord k (u64 (a.word k + 1)))
        (g := ⟨u64 (a.word k + 1), .writeLocked⟩) hr (word_setWord _ _ _) v
    · exact exists_solo_of_step a
        (.validating k ⟨a.word k, .readLocked⟩ (some v))
        (by simp [Pc.step, Pc.evictStep, Pc.lookupStep, hcold, hmigrate])
        (exists_solo_validating rfl _)
  · obtain ⟨tp, rfl, hhot⟩ := ha.tagged hr
    rw [Cell.view_of_hot hhot]
    exact exists_solo_of_step
      { a with hotBtree := a.hotBtree.insert k (.tagged (touch tp)) }
      (.validating k ⟨a.word k, .readLocked⟩ (some tp.payload))
      (by simp [Pc.step, Pc.evictStep, Pc.lookupStep, hr]) (exists_solo_validating rfl _)

/-- The value of a key whose lock is free is that of the put completed last. -/
lemma Inv.view_of_even (h : Inv cfg m s) (heven : s.adapter.word k % 2 = 0) :
    (s.adapter.cell k).view = m k :=
  h.view k (fun t _ hv => h.exclusive.ne_of_even heven t (held_of_applied hv))

/-! ## Schedules -/

lemma step_word_le (h : Inv cfg m s) (hwrap : s.NoWrap) (t : ℕ) (call : ThreadCall V)
    (ch : Choices V) (p : ℕ) :
    (s.step cfg t call ch).1.adapter.lockTable p ≤ s.adapter.lockTable p + 1 :=
  (stepSpec (h.ready hwrap t) call ch).effect.word_le_succ p

/-- **A run is free of wrapped lock words if it is not too long.** -/
lemma Run.exec_noWrap {m₀ : ℕ → Option V} (ha : Quiescent cfg a m₀)
    {schedule : List (ℕ × ThreadCall V × Choices V)}
    (h : Run cfg NoWrap (start a) es s) (hb : BoundariesOk cfg s schedule)
    (hwords : ∀ p, s.adapter.lockTable p + schedule.length < 2 ^ 64) :
    Run cfg NoWrap (start a) (exec cfg (s, es) schedule).2 (exec cfg (s, es) schedule).1 := by
  induction schedule generalizing s es with
  | nil => exact h
  | cons i schedule ih =>
    obtain ⟨t, call, ch⟩ := i
    have hwrap : s.NoWrap := fun p => by
      have := hwords p
      simp only [List.length_cons] at this
      omega
    refine ih (.snoc t call ch h hwrap hb.1) hb.2 (fun p => ?_)
    change (s.step cfg t call ch).1.adapter.lockTable p + schedule.length < 2 ^ 64
    have hword := step_word_le (h.inv ha).1 hwrap t call ch p
    have := hwords p
    simp only [List.length_cons] at this
    omega

/-- **No record is lost.**  Start any number of threads on an adapter that holds the map `m`, and
let them call `lookup`, `put` and `evict_a_bunch` in any interleaving in which no lock word wraps
around.  Then, in every state this leads to:

* every lookup has returned the value of the put to its key completed last, at the moment it
  validated its result;
* every key that was written is in one of the trees;
* a key that only the cold tree holds has the payload of the put completed last;
* a lookup of a key whose lock is free returns that payload, if it is left alone. -/
theorem no_record_lost (cfg : Config) {a : Adapter V} {m : ℕ → Option V} (ha : Quiescent cfg a m)
    {es : List (Event V)} {s : Threads V} (h : Run cfg NoWrap (start a) es s) :
    Explained m es ∧
    (∀ k, completed m es k ≠ none →
      s.adapter.hotBtree[k]? ≠ none ∨ s.adapter.coldBtree[k]? ≠ none) ∧
    (∀ k, s.adapter.hotBtree[k]? = none → s.adapter.coldBtree[k]? = completed m es k) ∧
    (∀ k ch, s.adapter.word k % 2 = 0 → ch.pressure = false →
      ∃ n, Event.lookup k (completed m es k) ∈
        Pc.solo cfg (.lookup k) ch n s.adapter .idle) := by
  obtain ⟨hinv, hexplained⟩ := h.inv ha
  refine ⟨hexplained, fun k hk => ?_, fun k hhot => hinv.cold_eq hhot,
    fun k ch heven hpressure => ?_⟩
  · by_cases hhot : s.adapter.hotBtree[k]? = none
    · exact Or.inr (by rwa [hinv.cold_eq hhot])
    · exact Or.inl hhot
  · rw [← hinv.view_of_even heven]
    exact exists_solo_lookup hinv.unmarked heven hpressure

/-- Choices under which nothing is evicted before a call, everything migrates, and an eviction
claims the keys up to 1. -/
def calm : Choices ℕ := ⟨false, some (1, true), fun _ => ⟨0, 0⟩, 0, false, false, 0, true⟩

/-- The configuration of the examples: exclusive, everything migrates. -/
def exclusiveCfg : Config := ⟨false, false, 10⟩

/-- Thread 1 puts the value 10, and thread 0 begins to evict it: it has copied the payload. -/
def scanned : List (ℕ × ThreadCall ℕ × Choices ℕ) :=
  List.replicate 7 (1, .put 1 10, calm) ++ List.replicate 5 (0, .evictABunch, calm)

/-- A put that overtakes the eviction: the evictor reads the record again, and the cold tree gets
the new value. -/
theorem no_record_lost_overtaken :
    let schedule := scanned ++ List.replicate 5 (1, .put 1 20, calm) ++
      List.replicate 6 (0, .evictABunch, calm)
    let out := exec exclusiveCfg (start Adapter.init, []) schedule
    Run exclusiveCfg NoWrap (start Adapter.init) out.2 out.1 ∧
      out.1.adapter.hotBtree[1]? = none ∧ out.1.adapter.coldBtree[1]? = some 20 := by
  intro schedule out
  have hrun : Run exclusiveCfg NoWrap (start Adapter.init) out.2 out.1 :=
    Run.exec_noWrap (quiescent_init exclusiveCfg) .nil (by decide)
      (fun p => by simp [start, Adapter.init, OptimisticLockTable.init, schedule, scanned])
  have hhot : out.1.adapter.hotBtree[1]? = none := by decide
  have hcold := (no_record_lost exclusiveCfg (quiescent_init exclusiveCfg) hrun).2.2.1 1 hhot
  exact ⟨hrun, hhot, hcold.trans (by decide)⟩

/-! ## Lock words that wrap around -/

/-- All interleavings, whether or not lock words wrap around. -/
abbrev AnyRun (cfg : Config) (s₀ : Threads V) : List (Event V) → Threads V → Prop :=
  Run cfg (fun _ => True) s₀

lemma AnyRun.exec (h : AnyRun cfg s₀ es s)
    (schedule : List (ℕ × ThreadCall V × Choices V)) (hb : BoundariesOk cfg s schedule) :
    AnyRun cfg s₀ (Threads.exec cfg (s, es) schedule).2 (Threads.exec cfg (s, es) schedule).1 := by
  induction schedule generalizing s es with
  | nil => exact h
  | cons i schedule ih => exact ih (.snoc i.1 i.2.1 i.2.2 h trivial hb.1) hb.2

/-- The same state, with the place of thread `t` written out. -/
lemma AnyRun.at_place (h : AnyRun cfg s₀ es s)
    (hpc : s.pc t = pc) : AnyRun cfg s₀ es ⟨s.adapter, update s.pc t pc⟩ := by
  rwa [← hpc, update_eq_self]

lemma AnyRun.step (h : AnyRun cfg s₀ es ⟨a, update f t pc⟩)
    (hb : ch.boundary = none) (hstep : pc.step cfg call ch a = (a', pc', event)) :
    AnyRun cfg s₀ (es ++ event.toList) ⟨a', update f t pc'⟩ := by
  have hrun := Run.snoc t call ch h trivial (by simp [hb])
  rw [step_eq] at hrun
  simp only [update_self, update_idem, hstep] at hrun
  exact hrun

/-- A put to a key of the hot tree whose lock is free, carried out without interruption: the lock
word grows by two, up to wrapping around. -/
lemma AnyRun.put {tp : TaggedPayload V} (h : AnyRun cfg s₀ es ⟨a, update f t .idle⟩)
    (heven : a.word k % 2 = 0) (hhot : a.hotBtree[k]? = some (.tagged tp)) (ch : Choices V)
    (hb : ch.boundary = none) (hpressure : ch.pressure = false) (v : V) :
    ∃ a', AnyRun cfg s₀ (es ++ [.put k v]) ⟨a', update f t .idle⟩ ∧
      a'.word k = u64 (u64 (a.word k + 1) + 1) ∧
      a'.hotBtree[k]? = some (.tagged (tp.overwrite v)) ∧ a'.coldBtree = a.coldBtree := by
  let g : OptimisticLockGuard := ⟨u64 (a.word k + 1), .writeLocked⟩
  let locked := a.setWord k (u64 (a.word k + 1))
  let written : Adapter V :=
    { locked with hotBtree := a.hotBtree.insert k (.tagged (tp.overwrite v)) }
  have hodd : a.word k % 2 ≠ 1 := by omega
  have hstart : Pc.idle.step cfg (.put k v) ch a = (a, .putLock k v, none) := by
    simp [Pc.step, ThreadCall.start, ThreadCall.proceed, hpressure]
  have hload : (Pc.putLock k v).step cfg (.put k v) ch a =
      (a, .putCas k v ⟨a.word k, .uninitialized⟩, none) := by
    simp [Pc.step, Pc.evictStep, Pc.lookupStep, Pc.putStep, construct,
      writeLockLoad, hodd]
  have hcas : (Pc.putCas k v ⟨a.word k, .uninitialized⟩).step cfg (.put k v) ch a =
      (locked, .putting k v g, none) := by
    simp [Pc.step, Pc.evictStep, Pc.lookupStep, Pc.putStep, writeLockCas,
      acquire_of_eq, locked, g]
  have hwrite : (Pc.putting k v g).step cfg (.put k v) ch locked =
      (written, .putReleasing k v g, none) := by
    have hupdate := updateInPlace_of_some hhot (HotRecord.mapTagged (TaggedPayload.overwrite v))
    simp [Pc.step, Pc.evictStep, Pc.lookupStep, Pc.putStep, locked, hupdate, written,
      HotRecord.mapTagged]
  have hrelease : (Pc.putReleasing k v g).step cfg (.put k v) ch written =
      (written.release k g, .idle, some (.put k v)) := rfl
  have hrun := ((((h.step hb hstart).step hb hload).step hb hcas).step hb hwrite).step hb hrelease
  refine ⟨written.release k g, by simpa using hrun, ?_, ?_, rfl⟩
  · simp [written, locked, g, word, release, setWord,
      OptimisticLockTable.release, destroy_writeLocked]
  · simp [written]

/-- The same put, `n` times over. -/
lemma AnyRun.puts {tp : TaggedPayload V} (h : AnyRun cfg s₀ es ⟨a, update f t .idle⟩)
    (heven : a.word k % 2 = 0) (hlt : a.word k < 2 ^ 64)
    (hhot : a.hotBtree[k]? = some (.tagged tp)) (ch : Choices V)
    (hb : ch.boundary = none) (hpressure : ch.pressure = false) (v : V) (n : ℕ) :
    ∃ a' tp', AnyRun cfg s₀ (es ++ List.replicate n (.put k v)) ⟨a', update f t .idle⟩ ∧
      a'.word k = u64 (a.word k + 2 * n) ∧ a'.hotBtree[k]? = some (.tagged tp') ∧
      a'.coldBtree = a.coldBtree := by
  induction n with
  | zero => exact ⟨a, tp, by simpa using h, by simp [u64_of_lt hlt], hhot, rfl⟩
  | succ n ih =>
    obtain ⟨a', tp', hrun, hword, hhot', hcold⟩ := ih
    have heven' : a'.word k % 2 = 0 := by
      rw [hword, u64]
      omega
    obtain ⟨a'', hrun', hword', hhot'', hcold'⟩ := hrun.put heven' hhot' ch hb hpressure v
    refine ⟨a'', _, ?_, ?_, hhot'', hcold'.trans hcold⟩
    · rw [List.replicate_succ', ← List.append_assoc]
      exact hrun'
    · rw [hword', hword]
      simp only [u64]
      omega

lemma completed_replicate_put (m : ℕ → Option V) (es : List (Event V)) {n : ℕ} (hn : n ≠ 0) :
    completed m (es ++ List.replicate n (.put k v)) k = some v := by
  obtain ⟨n, rfl⟩ := Nat.exists_eq_succ_of_ne_zero hn
  rw [List.replicate_succ', ← List.append_assoc, completed_append]
  simp [completed, apply]

/-- An evictor that finds the lock word of its victim as the scan left it replaces the record by the
copy the scan made. -/
lemma AnyRun.evict (e : Sweep V) (victim : Adapter.Victim V) (rest : List (Adapter.Victim V))
    (h : AnyRun cfg s₀ es ⟨a, update f t (.evicting { e with victims := victim :: rest })⟩)
    (hcfg : cfg.inclusive = false) (heven : a.word victim.key % 2 = 0)
    (hword : a.word victim.key = victim.lockVersion) (hlt : victim.lockVersion + 1 < 2 ^ 64)
    (hcold : a.coldBtree[victim.key]? = none) (ch : Choices V) (hb : ch.boundary = none) :
    ∃ a', AnyRun cfg s₀ es ⟨a', update f t (.evicting { e with victims := rest })⟩ ∧
      a'.hotBtree[victim.key]? = none ∧
      a'.coldBtree[victim.key]? = some victim.payload.payload := by
  let e' : Sweep V := { e with victims := rest }
  let g : OptimisticLockGuard := ⟨victim.lockVersion + 1, .writeLocked⟩
  let locked := a.setWord victim.key (victim.lockVersion + 1)
  let written := writeBack cfg locked victim.key victim.payload
  have hodd : victim.lockVersion % 2 ≠ 1 := by omega
  have hsole : g.moreThanOneWriterSince victim.lockVersion = false := by
    have hsub : u64Sub (victim.lockVersion + 1) victim.lockVersion = 1 := by
      rw [u64Sub]
      omega
    simp [moreThanOneWriterSince, g, hsub]
  have hload : (Pc.evicting { e with victims := victim :: rest }).step cfg .evictABunch ch a =
      (a, .locking e' victim ⟨victim.lockVersion, .uninitialized⟩, none) := by
    simp [Pc.step, Pc.evictStep, construct, writeLockLoad,
      hword, hodd, e']
  have hcas : (Pc.locking e' victim ⟨victim.lockVersion, .uninitialized⟩).step cfg .evictABunch ch
      a = (locked, .writingBack e' victim g, none) := by
    simp only [Pc.step, Pc.evictStep, writeLockCas, hword,
      acquire_of_eq, u64_of_lt hlt, if_true]
    rw [if_neg (by simpa [g] using hsole)]
  have hwrite : (Pc.writingBack e' victim g).step cfg .evictABunch ch locked =
      (written, .removingHot e' victim.key g, none) := rfl
  have hremove : (Pc.removingHot e' victim.key g).step cfg .evictABunch ch written =
      (written.removeHot victim.key, .releasing e' victim.key g, none) := rfl
  have hrelease : (Pc.releasing e' victim.key g).step cfg .evictABunch ch
      (written.removeHot victim.key) =
      ((written.removeHot victim.key).release victim.key g, .evicting e', none) := rfl
  have hrun := ((((h.step hb hload).step hb hcas).step hb hwrite).step hb hremove).step hb hrelease
  refine ⟨_, by simpa using hrun, ?_, ?_⟩
  · simp [removeHot, getElem?_removeKey]
  · simp [removeHot, written, locked, writeBack, hcfg, insertColdPartition,
      getElem?_insertNew, hcold]

/-- What `scanned` leads to: thread 0 is about to lock its victim, whose lock word is 2. -/
lemma exists_scanned : ∃ es s, AnyRun exclusiveCfg (start init) es s ∧
    s.pc 0 = .evicting ⟨.evictABunch, ⟨0, 1, 0⟩, [⟨1, ⟨10, 1⟩, 2⟩]⟩ ∧ s.pc 1 = .idle ∧
    s.adapter.word 1 = 2 ∧ (∃ tp, s.adapter.hotBtree[1]? = some (.tagged tp)) ∧
    s.adapter.coldBtree[1]? = none :=
  ⟨_, _, AnyRun.exec .nil scanned (by decide), rfl, rfl, by decide, ⟨_, rfl⟩,
    by decide⟩

/-- **A record is lost when a lock word wraps around.**  Thread 0 has copied the payload 10 of key 1
when its lock word was 2.  Then thread 1 puts the payload 20, `2 ^ 63` times.  This takes the lock
word back to 2, so that thread 0 finds no other writer and evicts the payload 10. -/
theorem record_lost_by_wrap :
    ∃ es s, Run exclusiveCfg (fun _ => True) (start Adapter.init) es s ∧
      completed (fun _ => none) es 1 = some 20 ∧
      s.adapter.hotBtree[1]? = none ∧ s.adapter.coldBtree[1]? = some 10 := by
  let quiet : Choices ℕ := { calm with boundary := none }
  obtain ⟨es, s, hrun, hevictor, hidle, hword, ⟨tp, hhot⟩, hcold⟩ := exists_scanned
  obtain ⟨a, tp', hputs, hword', -, hcold'⟩ := (hrun.at_place hidle).puts
    (by rw [hword]) (by rw [hword]; norm_num) hhot quiet rfl rfl 20 (2 ^ 63)
  have hback : a.word 1 = 2 := by
    rw [hword', hword]
    norm_num [u64]
  have hevictor' : update s.pc 1 .idle 0 = s.pc 0 := by simp
  have hready := hputs.at_place (t := 0) (hevictor'.trans hevictor)
  obtain ⟨a', hevicted, hhot', hcold''⟩ := AnyRun.evict ⟨.evictABunch, ⟨0, 1, 0⟩, []⟩
    ⟨1, ⟨10, 1⟩, 2⟩ [] hready rfl (by rw [hback]) hback (by norm_num) (by rw [hcold', hcold]) quiet
    rfl
  exact ⟨_, _, hevicted, completed_replicate_put _ _ (by norm_num), hhot', hcold''⟩

end Threads

end TwoTree.ConcurrentTwoBTree
