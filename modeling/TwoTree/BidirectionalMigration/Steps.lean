import TwoTree.BidirectionalMigration.Migrations

/-!
# What a step does

A step of a thread follows the protocol of the lock words, with one exception, the `Put` of a
`put`.  `StepSpec` says what every other step does, and `Pc.stepsTo_program` that it does so, place
by place.  In particular the `Put` of a migration writes what a reader sees already.
-/

namespace TwoTree.BidirectionalMigration

open Std Lib Lib.Levels Lib.Locking LockManager ConcurrentTwoBTree Function OptimisticLockGuard
open Adapter

variable {V : Type*}

/-- No lock word is about to wrap around. -/
def Adapter.NoWrap (a : Adapter V) : Prop := ∀ p, a.lockTable p + 1 < 2 ^ 64

/-- The memtables the flush of the thread has taken: the first one, and how many. -/
def Pc.span (pc : Pc V) : Option (ℕ × ℕ) := pc.flush.map (fun p => (p.1.first, p.1.num))

/-- Two flushes take different memtables. -/
def Pc.Apart (pc pc' : Pc V) : Prop :=
  ∀ r ∈ pc.span, ∀ r' ∈ pc'.span, r.1 + r.2 ≤ r'.1 ∨ r'.1 + r'.2 ≤ r.1

/-- What a step does that follows the protocol of the locks.  If it ends a flush, `gone` is that
flush. -/
structure StepSpec (gone : Option Flush) (a : Adapter V) (pc : Pc V) (a' : Adapter V) (pc' : Pc V)
    (event : Option (Event V)) : Prop where
  effect : Effect wordPos a.world pc.held a'.world pc'.held
  shift : Adapter.Shift gone a a'
  knows : pc'.Knows a'
  base : a'.Base
  picked_le : a.picked ≤ a'.picked
  gone : ∀ f ∈ gone, ∃ keys, pc.flush = some (f, keys)
  apart : ∀ q : Pc V, q.Knows a → q.Apart pc → q.Apart pc'
  view : a'.view = completed a.view event.toList

/-- The same of a step and the place it leads to. -/
def StepsTo (gone : Option Flush) (a : Adapter V) (pc : Pc V)
    (r : Adapter V × Pc V × Option (Event V)) : Prop :=
  StepSpec gone a pc r.1 r.2.1 r.2.2

variable {a a' : Adapter V} {pc pc' : Pc V} {k : ℕ} {v : V} {g : OptimisticLockGuard}

/-! ## Steps that change nothing but the words -/

lemma Pc.Apart.of_span {q : Pc V} (h : q.Apart pc) (hspan : pc'.span = none ∨ pc'.span = pc.span) :
    q.Apart pc' := by
  intro r hr r' hr'
  rcases hspan with hnone | hsame
  · simp [hnone] at hr'
  · exact h r hr r' (hsame ▸ hr')

/-- A step with an effect on the words and on what a reader sees, that leaves the memtables as they
are. -/
lemma StepsTo.of_effect {event : Option (Event V)} (hbase : a.Base)
    (hodd : ∀ k, pc.held = some k → a.word k % 2 = 1)
    (heffect : Effect wordPos a.world pc.held a'.world pc'.held)
    (hshift : Adapter.Shift none a a') (hactive : a'.active = a.active)
    (hpicked : a'.picked = a.picked)
    (hsnapshots : a'.lockTableSnapshots = a.lockTableSnapshots)
    (hspan : pc'.span = none ∨ pc'.span = pc.span) (hknows : pc'.Knows a')
    (hview : a'.view = completed a.view event.toList) :
    StepsTo none a pc (a', pc', event) where
  effect := heffect
  shift := hshift
  knows := hknows
  base := by
    refine hbase.sees hshift ⟨fun k => heffect.word_le (wordPos k), fun k heven => ?_, ?_⟩
      (by simp) hactive hpicked hsnapshots
    · refine heffect.cell_eq (fun hk => ?_)
      have := hodd k hk
      omega
    · intro k k' hk
      simp at hk
  picked_le := hpicked.ge
  gone := by simp
  apart := fun q _ hq => hq.of_span hspan
  view := hview

/-- A step that changes the place of the thread only. -/
lemma StepsTo.still (hbase : a.Base) (hodd : ∀ k, pc.held = some k → a.word k % 2 = 1)
    (hheld : pc'.held = pc.held) (hspan : pc'.span = none ∨ pc'.span = pc.span)
    (hknows : pc'.Knows a) : StepsTo none a pc (a, pc', none) :=
  .of_effect hbase hodd (hheld ▸ .keep _) (.of_tables_eq rfl rfl) rfl rfl rfl hspan hknows rfl

namespace Adapter

lemma setWord_word (a : Adapter V) (k : ℕ) : a.setWord k (a.word k) = a := by
  simp [setWord, word, OptimisticLockTable.setWord, OptimisticLockTable.word]

lemma word_setWord (a : Adapter V) (k w k' : ℕ) :
    (a.setWord k w).word k' = if wordPos k' = wordPos k then w else a.word k' := by
  simp [setWord, word, OptimisticLockTable.word, OptimisticLockTable.setWord, update_apply]

lemma release_writeLocked (hwrap : a.NoWrap) (hg : g = ⟨a.word k, .writeLocked⟩) :
    a.release k g = a.setWord k (a.word k + 1) := by
  have hu64 : u64 (a.word k + 1) = a.word k + 1 := u64_of_lt (hwrap (wordPos k))
  rw [hg, release, setWord, OptimisticLockTable.release,
    destroy_writeLocked]
  exact congrArg (fun w => { a with lockTable := a.lockTable.setWord k w }) hu64

lemma release_of_not_writeLocked (a : Adapter V) (k : ℕ) (hg : g.state ≠ .writeLocked) :
    a.release k g = a := by
  have hdestroy : g.destroy (a.lockTable.word k) = (a.lockTable.word k, g) := by
    simp [destroy, hg]
  rw [release, OptimisticLockTable.release, hdestroy]
  exact setWord_word a k

end Adapter

namespace Pc

variable {f : Flush} {keys : List ℕ} {call : Call V}

/-- The places at which a thread knows nothing. -/
def Quiet : Pc V → Prop
  | .idle | .readLock .. | .updateLock .. | .putting .. => True
  | _ => False

lemma Quiet.held_eq (h : pc.Quiet) : pc.held = none := by
  cases pc <;> first | rfl | exact h.elim

lemma Quiet.span_eq (h : pc.Quiet) : pc.span = none := by
  cases pc <;> first | rfl | exact h.elim

lemma Quiet.flush_eq (h : pc.Quiet) : pc.flush = none := by
  cases pc <;> first | rfl | exact h.elim

lemma Quiet.not_live (h : pc.Quiet) : ¬ pc.Live a k v := by
  intro hlive
  cases hlive with
  | upgrading | migrating | flushUpgrading | flushPutting => exact h.elim
  | waits hf => simp [h.flush_eq] at hf

lemma knows_of_quiet (pc : Pc V) (h : pc.Quiet) (a : Adapter V) : pc.Knows a := by
  have hflush : pc.flush = none := h.flush_eq
  have hreads : pc.reads = none := by cases pc <;> first | rfl | exact h.elim
  refine ⟨fun k g hg => ?_, fun k g hg => ?_, fun f keys k hf => ?_, fun f keys hf => ?_,
    fun f keys k hf => ?_, ?_, fun k v hlive => absurd hlive h.not_live⟩
  · have hheld := h.held_eq
    rw [held, hg] at hheld
    cases hheld
  · simp [hreads] at hg
  · simp [hflush] at hf
  · simp [hflush] at hf
  · simp [hflush] at hf
  · cases pc <;> trivial

lemma quiet_proceed (call : Call V) : call.proceed.Quiet := by
  cases call <;> trivial

/-- A place outside of flushes, at which no migration is under way. -/
lemma Knows.of_lock (howned : ∀ k g, pc.owned = some (k, g) → g = ⟨a.word k, .writeLocked⟩)
    (hreads : ∀ k g, pc.reads = some (k, g) →
      g.version % 2 = 0 ∧ g.version ≤ a.word k ∧ g.state ≠ .writeLocked)
    (hflush : pc.flush = none) (hown : pc.OwnFact) (hlive : ∀ k v, pc.Live a k v → a.view k = some v) :
    pc.Knows a where
  owned := howned
  reads := hreads
  table := fun f keys k hf => by simp [hflush] at hf
  range := fun f keys hf => by simp [hflush] at hf
  dropped := fun f keys k hf => by simp [hflush] at hf
  ownFact := hown
  live := hlive

/-- A place at which no migration is under way has none that is live. -/
lemma not_live_of (hflush : pc.flush = none) (hrecord : ∀ call k g v,
    pc ≠ .upgrading call k g v ∧ pc ≠ .migrating call k g v) : ¬ pc.Live a k v := by
  intro hlive
  cases hlive with
  | upgrading => exact (hrecord _ _ _ _).1 rfl
  | migrating => exact (hrecord _ _ _ _).2 rfl
  | flushUpgrading | flushPutting => cases hflush
  | waits hf => simp [hflush] at hf

lemma held_none_odd (h : pc.held = none) (k : ℕ) (hk : pc.held = some k) : a.word k % 2 = 1 := by
  simp [h] at hk

/-- A step to a place at which the thread knows nothing. -/
lemma stepsTo_quiet (hbase : a.Base) (hheld : pc.held = none) (h : pc'.Quiet) :
    StepsTo none a pc (a, pc', none) :=
  .still hbase (held_none_odd hheld) (h.held_eq.trans hheld.symm) (Or.inl h.span_eq)
    (knows_of_quiet pc' h a)

/-! ## Locks -/

lemma effect_acquire (heven : a.word k % 2 = 0) :
    Effect wordPos a.world none (a.setWord k (a.word k + 1)).world (some k) :=
  .acquire k heven

lemma effect_release (a : Adapter V) (k : ℕ) :
    Effect wordPos a.world (some k) (a.setWord k (a.word k + 1)).world none :=
  .release k

lemma acquire_of_current (hwrap : a.NoWrap) (hg : g.version = a.word k) :
    g.acquire (a.word k) = (true, a.word k + 1, ⟨a.word k + 1, .writeLocked⟩) := by
  have hu64 : u64 (a.word k + 1) = a.word k + 1 := u64_of_lt (hwrap (wordPos k))
  rw [acquire_of_eq hg.symm, hg, hu64]

lemma stepsTo_acquire (hbase : a.Base) (hheld : pc.held = none) (heven : a.word k % 2 = 0)
    (hheld' : pc'.held = some k) (hspan : pc'.span = none ∨ pc'.span = pc.span)
    (hknows : pc'.Knows (a.setWord k (a.word k + 1))) :
    StepsTo none a pc (a.setWord k (a.word k + 1), pc', none) := by
  have heffect : Effect wordPos a.world pc.held (a.setWord k (a.word k + 1)).world pc'.held := by
    rw [hheld, hheld']
    exact effect_acquire heven
  exact .of_effect hbase (held_none_odd hheld) heffect (.of_tables_eq rfl rfl) rfl rfl rfl hspan
    hknows rfl

lemma stepsTo_release (hbase : a.Base) (hodd : ∀ k, pc.held = some k → a.word k % 2 = 1)
    (hwrap : a.NoWrap) (h : pc.Knows a) (howned : pc.owned = some (k, g))
    (hheld' : pc'.held = none) (hspan : pc'.span = none ∨ pc'.span = pc.span)
    (hknows : pc'.Knows (a.setWord k (a.word k + 1))) :
    StepsTo none a pc (a.release k g, pc', none) := by
  have hheld : pc.held = some k := by rw [held, howned]; rfl
  have heffect : Effect wordPos a.world pc.held (a.setWord k (a.word k + 1)).world pc'.held := by
    rw [hheld, hheld']
    exact effect_release a k
  rw [release_writeLocked hwrap (h.owned k g howned)]
  exact .of_effect hbase hodd heffect (.of_tables_eq rfl rfl) rfl rfl rfl hspan hknows rfl

/-- What a thread knows that owns a lock, outside of flushes. -/
lemma knows_owner (howned : pc.owned = some (k, g)) (hg : g = ⟨a.word k, .writeLocked⟩)
    (hreads : pc.reads = none) (hflush : pc.flush = none) (hown : pc.OwnFact)
    (hlive : ∀ k v, pc.Live a k v → a.view k = some v) : pc.Knows a := by
  refine .of_lock (fun k' g' hg' => ?_) (fun k' g' hg' => by simp [hreads] at hg') hflush hown hlive
  obtain ⟨rfl, rfl⟩ : k = k' ∧ g = g' := by simpa [howned] using hg'
  exact hg

/-- What a thread knows that is about to ask for a lock, outside of flushes. -/
lemma knows_reader (howned : pc.owned = none) (hreads : pc.reads = some (k, g))
    (hg : g.version % 2 = 0 ∧ g.version ≤ a.word k ∧ g.state ≠ .writeLocked)
    (hflush : pc.flush = none) (hown : pc.OwnFact)
    (hlive : ∀ k v, pc.Live a k v → a.view k = some v) : pc.Knows a := by
  refine .of_lock (fun k' g' hg' => by simp [howned] at hg') (fun k' g' hg' => ?_) hflush hown hlive
  obtain ⟨rfl, rfl⟩ : k = k' ∧ g = g' := by simpa [hreads] using hg'
  exact hg

/-! ## The steps of `lookup` -/

/-- A thread with a guard that does not own its lock. -/
lemma knows_validating (a : Adapter V) (call : Call V) (k : ℕ) (hg : g.state ≠ .writeLocked) :
    (validating call k g).Knows a := by
  refine .of_lock (fun k' g' hg' => ?_) (fun k' g' hg' => by cases hg') rfl trivial
    (fun k' v' hlive => (not_live_of rfl (by simp) hlive).elim)
  simp [owned, hg] at hg'

lemma stepsTo_readLock (hbase : a.Base) (call : Call V) (k : ℕ) (ch : Choices) :
    StepsTo none a (.readLock call k) (lookupStep ch a (.readLock call k)) := by
  rcases Nat.mod_two_eq_zero_or_one (a.word k) with heven | hodd
  · simp only [lookupStep, readLock_of_even _ heven, if_true]
    refine .still hbase (held_none_odd rfl) rfl (Or.inl rfl)
      (knows_reader rfl rfl ⟨heven, le_rfl, by simp⟩ rfl trivial ?_)
    exact fun k' v' hlive => (not_live_of rfl (by simp) hlive).elim
  · simp only [lookupStep, readLock_of_odd _ hodd]
    exact stepsTo_quiet hbase rfl trivial

/-- What a reader has found it may write once more, as long as the lock word is the same. -/
lemma stepsTo_getting (hbase : a.Base) (h : (getting call k g).Knows a)
    (ch : Choices) : StepsTo none a (.getting call k g) (lookupStep ch a (.getting call k g)) := by
  obtain ⟨hres, hview, hshift, hlocks, hactive, hpicked, hsnapshots⟩ := a.get_spec k
  obtain ⟨heven, hle, hstate⟩ := h.reads k g rfl
  have hworld : (a.get k).1.world = a.world := World.ext hlocks hview
  have hspec : ∀ pc' : Pc V, pc'.held = none → pc'.span = none → pc'.Knows (a.get k).1 →
      StepsTo none a (.getting call k g) ((a.get k).1, pc', none) := by
    intro pc' hheld hspan hknows
    refine .of_effect hbase (held_none_odd rfl) ?_ hshift hactive hpicked hsnapshots (Or.inl hspan)
      hknows hview
    rw [hworld, hheld]
    exact .keep none
  have hvalidating := hspec (.validating call k g) (by simp [held, owned, hstate]) rfl
    (knows_validating _ call k hstate)
  rcases hget : a.get k with ⟨a', _ | v⟩
  · rw [hget] at hvalidating
    simpa [lookupStep, hget] using hvalidating
  rw [hget] at hspec hview hres hlocks hvalidating
  simp only [lookupStep, hget]
  split_ifs
  · have hle' : g.version ≤ a'.word k := by
      rw [Adapter.word, hlocks]
      exact hle
    refine hspec (.upgrading call k g v) rfl rfl
      (knows_reader rfl rfl ⟨heven, hle', hstate⟩ rfl trivial (fun k' v' hlive => ?_))
    cases hlive with
    | upgrading => exact (congrFun hview k).trans hres.symm
    | waits hf => cases hf
  · exact hvalidating

lemma stepsTo_upgrading (hbase : a.Base) (hwrap : a.NoWrap)
    (h : (upgrading call k g v).Knows a) (ch : Choices) :
    StepsTo none a (.upgrading call k g v) (lookupStep ch a (.upgrading call k g v)) := by
  obtain ⟨heven, -, hstate⟩ := h.reads k g rfl
  by_cases hg : g.version = a.word k
  · simp only [lookupStep, upgradeToWriteLock, acquire_of_current hwrap hg,
      if_true]
    refine stepsTo_acquire hbase rfl (hg ▸ heven) rfl (Or.inl rfl)
      (knows_owner rfl ?_ rfl rfl trivial (fun k' v' hlive => ?_))
    · rw [Adapter.word_setWord, if_pos rfl]
    · cases hlive with
      | migrating => exact h.live k v (.upgrading hg)
      | waits hf => cases hf
  · simp only [lookupStep, upgradeToWriteLock,
      acquire_of_ne (fun heq => hg heq.symm), setWord_word]
    exact .still hbase (held_none_odd rfl) (by simp [held, owned, hstate]) (Or.inl rfl)
      (knows_validating a call k hstate)

/-- **The `Put` of a migration writes what a reader sees.** -/
lemma view_put_same {tp : TaggedPayload V} (h : a.view k = some tp.payload) :
    (a.dbPut k tp).view = a.view := by
  rw [view_dbPut, ← h, update_eq_self]

section

variable (hbase : a.Base)
include hbase

lemma stepsTo_migrating (hodd : ∀ k', (migrating call k g v).held = some k' → a.word k' % 2 = 1)
    (h : (migrating call k g v).Knows a) (ch : Choices) :
    StepsTo none a (.migrating call k g v) (lookupStep ch a (.migrating call k g v)) := by
  have hg := h.owned k g rfl
  have hview : (a.doPut k v true).view = a.view := view_put_same (h.live k v .migrating)
  have hworld : (a.doPut k v true).world = a.world := World.ext rfl hview
  have howned : (validating call k g).owned = some (k, g) := by simp [owned, hg]
  have heffect : Effect wordPos a.world (migrating call k g v).held (a.doPut k v true).world
      (validating call k g).held := by
    have hheld : (validating call k g).held = some k := by rw [held, howned]; rfl
    rw [hworld, hheld]
    exact .keep (some k)
  simp only [lookupStep]
  exact .of_effect hbase hodd heffect (shift_dbPut a k _) rfl rfl rfl (Or.inl rfl)
    (knows_owner howned hg rfl rfl trivial
      (fun k' v' hlive => (not_live_of rfl (by simp) hlive).elim)) hview

lemma stepsTo_validating (hodd : ∀ k', (validating call k g).held = some k' → a.word k' % 2 = 1)
    (h : (validating call k g).Knows a) (ch : Choices) :
    StepsTo none a (.validating call k g) (lookupStep ch a (.validating call k g)) := by
  simp only [lookupStep]
  exact .still hbase hodd rfl (Or.inl rfl) (.of_lock (fun k' g' hg' => h.owned k' g' hg')
    (fun k' g' hg' => by cases hg') rfl trivial
    (fun k' v' hlive => (not_live_of rfl (by simp) hlive).elim))

lemma stepsTo_unguarding (hwrap : a.NoWrap) {valid : Bool}
    (hodd : ∀ k', (unguarding call k g valid).held = some k' → a.word k' % 2 = 1)
    (h : (unguarding call k g valid).Knows a) (ch : Choices) :
    StepsTo none a (.unguarding call k g valid) (lookupStep ch a (.unguarding call k g valid)) := by
  have hquiet : (if valid then call.proceed else .readLock call k).Quiet := by
    split_ifs
    · exact quiet_proceed call
    · trivial
  by_cases hg : g.state = .writeLocked
  · exact stepsTo_release hbase hodd hwrap h (by simp [owned, hg]) hquiet.held_eq
      (Or.inl hquiet.span_eq) (knows_of_quiet _ hquiet _)
  · rw [lookupStep, release_of_not_writeLocked a k hg]
    exact stepsTo_quiet hbase (by simp [held, owned, hg]) hquiet

/-! ## The steps of `update` -/

lemma stepsTo_updateLock (k : ℕ) (v : V) :
    StepsTo none a (.updateLock k v) (writeStep a (.updateLock k v)) := by
  rcases Nat.mod_two_eq_zero_or_one (a.word k) with heven | hodd
  · have heven' : a.word k % 2 ≠ 1 := by omega
    simp only [writeStep, writeLockLoad, decide_eq_true heven', if_true]
    exact .still hbase (held_none_odd rfl) rfl (Or.inl rfl)
      (knows_reader rfl rfl ⟨heven, le_rfl, by simp [construct]⟩ rfl trivial
        (fun k' v' hlive => (not_live_of rfl (by simp) hlive).elim))
  · have hodd' : ¬ a.word k % 2 ≠ 1 := by omega
    simp only [writeStep, writeLockLoad, decide_eq_false hodd']
    exact stepsTo_quiet hbase rfl trivial

lemma stepsTo_updateCas (hwrap : a.NoWrap) (h : (updateCas k v g).Knows a) :
    StepsTo none a (.updateCas k v g) (writeStep a (.updateCas k v g)) := by
  obtain ⟨heven, -, -⟩ := h.reads k g rfl
  by_cases hg : g.version = a.word k
  · simp only [writeStep, writeLockCas, acquire_of_current hwrap hg, if_true]
    refine stepsTo_acquire hbase rfl (hg ▸ heven) rfl (Or.inl rfl)
      (knows_owner rfl ?_ rfl rfl trivial
        (fun k' v' hlive => (not_live_of rfl (by simp) hlive).elim))
    rw [Adapter.word_setWord, if_pos rfl]
  · simp only [writeStep, writeLockCas,
      acquire_of_ne (fun heq => hg heq.symm), setWord_word]
    exact stepsTo_quiet hbase rfl trivial

/-- The `Put` of an `update`: no migration of the key is live, since the lock is taken. -/
lemma stepsTo_updating (hodd : ∀ k', (updating k v g).held = some k' → a.word k' % 2 = 1)
    (h : (updating k v g).Knows a) :
    StepsTo none a (.updating k v g) (writeStep a (.updating k v g)) := by
  have hview : (a.doPut k v false).view = update a.view k (some v) :=
    view_dbPut a k _
  have hworld : (a.doPut k v false).world =
      ⟨a.world.word, update a.world.cell k (some v)⟩ := World.ext rfl hview
  have heffect : Effect wordPos a.world (updating k v g).held (a.doPut k v false).world
      (updateReleasing k g : Pc V).held := by
    rw [hworld]
    exact .write k (some v)
  simp only [writeStep]
  exact .of_effect hbase hodd heffect (shift_dbPut a k _) rfl rfl rfl (Or.inl rfl)
    (knows_owner rfl (h.owned k g rfl) rfl rfl trivial
      (fun k' v' hlive => (not_live_of rfl (by simp) hlive).elim)) hview

lemma stepsTo_updateReleasing (hwrap : a.NoWrap)
    (hodd : ∀ k', (updateReleasing k g : Pc V).held = some k' → a.word k' % 2 = 1)
    (h : (updateReleasing k g : Pc V).Knows a) :
    StepsTo none a (.updateReleasing k g) (writeStep a (.updateReleasing k g)) :=
  stepsTo_release hbase hodd hwrap h rfl rfl (Or.inl rfl) (knows_of_quiet .idle trivial _)

end

/-! ## The steps of a flush -/

/-- What a thread knows in a flush, put together. -/
lemma Knows.of_flush (hflush : pc.flush = some (f, keys))
    (howned : ∀ k g, pc.owned = some (k, g) → g = ⟨a.word k, .writeLocked⟩)
    (hreads : ∀ k g, pc.reads = some (k, g) →
      g.version % 2 = 0 ∧ g.version ≤ a.word k ∧ g.state ≠ .writeLocked)
    (htable : ∀ k, (∀ k', pc.held = some k' → wordPos k' ≠ wordPos k) → f.table.word k ≤ a.word k)
    (hrange : f.first + f.num ≤ a.picked)
    (hdropped : ∀ k ∈ f.dropped, a.SupersededFrom (f.first + f.num) k) (hown : pc.OwnFact)
    (hupgrading : ∀ k g v, pc = .flushUpgrading f k g keys → g.version = a.word k →
      a.CarriesAt f.first f.num k v → a.view k = some v)
    (hputting : ∀ k g v, pc = .flushPutting f k g keys → a.CarriesAt f.first f.num k v →
      a.view k = some v)
    (hwaits : ∀ k ∈ keys, ∀ v, a.OffersAt f.first f.num k v → pc.Current a f k →
      a.view k = some v) : pc.Knows a where
  owned := howned
  reads := hreads
  table := fun f' keys' k hf hk => by
    obtain ⟨rfl, rfl⟩ : f = f' ∧ keys = keys' := by simpa [hflush] using hf
    exact htable k hk
  range := fun f' keys' hf => by
    obtain ⟨rfl, rfl⟩ : f = f' ∧ keys = keys' := by simpa [hflush] using hf
    exact hrange
  dropped := fun f' keys' k hf hk => by
    obtain ⟨rfl, rfl⟩ : f = f' ∧ keys = keys' := by simpa [hflush] using hf
    exact hdropped k hk
  ownFact := hown
  live := fun k v hlive => by
    cases hlive with
    | upgrading | migrating => cases hflush
    | flushUpgrading hv hc =>
      obtain ⟨rfl, rfl⟩ : _ = f ∧ _ = keys := by simpa [flush] using hflush
      exact hupgrading k _ v rfl hv hc
    | flushPutting hc =>
      obtain ⟨rfl, rfl⟩ : _ = f ∧ _ = keys := by simpa [flush] using hflush
      exact hputting k _ v rfl hc
    | waits hf hk ho hcurrent =>
      obtain ⟨rfl, rfl⟩ : f = _ ∧ keys = _ := by simpa [hflush] using hf
      exact hwaits k hk v ho hcurrent

lemma Current.of_held_none (h : Current a pc f k) (hheld : pc.held = none) :
    f.table.word k % 2 = 0 ∧ f.table.word k = a.word k :=
  h.resolve_right (fun ⟨k', hk', _⟩ => by simp [hheld] at hk')

/-- The flush goes on with the next key. -/
lemma Knows.skip {keys keys' : List ℕ} (h : pc.Knows a)
    (hflush : pc.flush = some (f, keys')) (hheld : pc.held = none) (hsub : keys ⊆ keys') :
    (flushing f keys : Pc V).Knows a := by
  refine .of_flush rfl (fun k g hg => by cases hg) (fun k g hg => by cases hg) (fun k _ => ?_)
    (h.range f keys' hflush) (fun k => h.dropped f keys' k hflush) trivial
    (fun k g v hpc => by cases hpc) (fun k g v hpc => by cases hpc) (fun k hk v ho hcurrent => ?_)
  · exact h.table f keys' k hflush (fun k' hk' => by simp [hheld] at hk')
  · exact h.live k v (.waits hflush (hsub hk) ho (Or.inl (hcurrent.of_held_none rfl)))

lemma stepsTo_flushEnd (hbase : a.Base) (h : (flushing f [] : Pc V).Knows a)
    (ch : Choices) : StepsTo (some f) a (.flushing f []) (flushStep ch a (.flushing f [])) := by
  have hview : (a.flushEnd f).view = a.view :=
    view_flushEnd (fun k => h.dropped f [] k rfl)
  have hworld : (a.flushEnd f).world = a.world := World.ext rfl hview
  simp only [flushStep]
  refine ⟨?_, shift_flushEnd a f, knows_of_quiet .idle trivial _, ?_, le_rfl, ?_, ?_, hview⟩
  · show Effect wordPos a.world none (a.flushEnd f).world none
    rw [hworld]
    exact .keep none
  · refine hbase.sees (shift_flushEnd a f) ⟨fun _ => le_rfl, fun k _ => congrFun hview k,
      fun k k' hk => by cases hk⟩ (fun f' hf' => ?_) rfl rfl rfl
    obtain rfl := Option.some.inj hf'
    exact h.range f [] rfl
  · intro f' hf'
    obtain rfl := Option.some.inj hf'
    exact ⟨[], rfl⟩
  · exact fun q _ hq => hq.of_span (Or.inl rfl)

/-- The callback on a record: it gives up, or is going to ask for the lock of the key with the
version its context has. -/
lemma stepsTo_flushing (hbase : a.Base)
    (h : (flushing f (k :: keys) : Pc V).Knows a) (ch : Choices) :
    StepsTo none a (.flushing f (k :: keys)) (flushStep ch a (.flushing f (k :: keys))) := by
  have hskip : StepsTo none a (.flushing f (k :: keys)) (a, .flushing f keys, none) :=
    .still hbase (held_none_odd rfl) rfl (Or.inr rfl) (h.skip rfl rfl (List.subset_cons_self k keys))
  rcases hrecord : a.flushRecord f k with _ | ⟨i, tp⟩
  · simpa [flushStep, hrecord] using hskip
  simp only [flushStep, hrecord]
  split_ifs with hflags hodd
  · exact hskip
  · exact hskip
  have heven : f.table.word k % 2 = 0 := by omega
  have htable : ∀ k, f.table.word k ≤ a.word k :=
    fun k => h.table f _ k rfl (fun k' hk' => by cases hk')
  obtain ⟨hmigrated, href, -⟩ : tp.migrated = true ∧ tp.ref = true ∧ ch.budgetUsed = false := by
    simpa [and_assoc] using hflags
  refine .still hbase (held_none_odd rfl) rfl (Or.inr rfl) (.of_flush rfl
    (fun k' g' hg' => by cases hg') (fun k' g' hg' => ?_) (fun k' _ => htable k')
    (h.range f _ rfl) (fun k' => h.dropped f _ k' rfl) rfl ?_ (fun k' g' v' hpc => by cases hpc)
    (fun k' hk' v' ho hcurrent => ?_))
  · obtain ⟨rfl, rfl⟩ : k = k' ∧ _ = g' := by simpa [reads] using hg'
    exact ⟨heven, htable k, by simp [setSnapshotReadVersion]⟩
  · intro k' g' v' hpc hv hc
    obtain ⟨rfl, rfl⟩ : k = k' ∧ _ = g' := by simpa using hpc
    obtain ⟨i', tp', hnewest, rfl⟩ := hc
    obtain ⟨rfl, rfl⟩ : i = i' ∧ tp = tp' := by simpa using hrecord.symm.trans hnewest
    exact h.live k _ (.waits rfl List.mem_cons_self ⟨i, tp, hrecord, hmigrated, href, rfl⟩
      (Or.inl ⟨heven, hv⟩))
  · exact h.live k' v' (.waits rfl (List.mem_cons_of_mem k hk') ho
      (Or.inl (hcurrent.of_held_none rfl)))

/-- The flush has taken the lock: what it is going to write, with the flags of the record reset. -/
lemma knows_flushPutting
    (h : (flushUpgrading f k g keys : Pc V).Knows a) (hg : g.version = a.word k)
    (hwords : ∀ k', a'.word k' = (a.setWord k (a.word k + 1)).word k') (hview : a'.view = a.view)
    (hshift : Adapter.Shift none a a') (hbase : a.Base) (hpicked : a'.picked = a.picked) :
    (flushPutting f k ⟨a.word k + 1, .writeLocked⟩ keys : Pc V).Knows a' := by
  have hin : f.first + f.num ≤ a.active := (h.range f keys rfl).trans hbase.picked_le
  obtain ⟨heven, -, -⟩ := h.reads k g rfl
  refine .of_flush rfl (fun k' g' hg' => ?_) (fun k' g' hg' => by cases hg') (fun k' hk' => ?_)
    (hpicked ▸ h.range f keys rfl)
    (fun k' hk' => hshift.superseded _ k' (by simp) (h.dropped f keys k' rfl hk')) trivial
    (fun k' g' v' hpc => by cases hpc) (fun k' g' v' hpc hc => ?_) (fun k' hk' v' ho hcurrent => ?_)
  · obtain ⟨rfl, rfl⟩ : k = k' ∧ _ = g' := by simpa [owned] using hg'
    rw [hwords, Adapter.word_setWord, if_pos rfl]
  · rw [hwords, Adapter.word_setWord, if_neg (fun hpos => hk' k rfl hpos.symm)]
    exact h.table f keys k' rfl (fun k'' hk'' => by cases hk'')
  · obtain ⟨rfl, -⟩ : k = k' ∧ _ = g' := by simpa using hpc
    rw [hview]
    exact h.live k v' (.flushUpgrading hg ((hshift.carries _ _ k v' hin (by simp)).1 hc))
  rw [hview]
  refine (hshift.offers _ _ k' v' hin (by simp) ho).elim (fun ho => ?_) id
  refine h.live k' v' (.waits rfl hk' ho (Or.inl ?_))
  by_cases hpos : wordPos k' = wordPos k
  · -- the key shares the word that has been taken, and the context had it right
    have hword : a.word k' = a.word k := congrArg a.lockTable hpos
    have htable : f.table.word k' = f.table.word k := congrArg f.table hpos
    rw [hword, htable, ← show g.version = f.table.word k from h.ownFact]
    exact ⟨heven, hg⟩
  · rcases hcurrent with hcurrent | ⟨k'', hk'', hpos'⟩
    · rwa [hwords, Adapter.word_setWord, if_neg hpos] at hcurrent
    · obtain rfl : k = k'' := by simpa [held, owned] using hk''
      exact absurd hpos'.symm hpos

variable (hbase : a.Base)
include hbase

lemma stepsTo_flushUpgrading (hwrap : a.NoWrap)
    (h : (flushUpgrading f k g keys : Pc V).Knows a) (ch : Choices) :
    StepsTo none a (.flushUpgrading f k g keys) (flushStep ch a (.flushUpgrading f k g keys)) := by
  obtain ⟨heven, -, -⟩ := h.reads k g rfl
  by_cases hg : g.version = a.word k
  · have hspec : ∀ a' : Adapter V, a'.lockTable = (a.setWord k (a.word k + 1)).lockTable →
        a'.view = a.view → Adapter.Shift none a a' → a'.active = a.active →
        a'.picked = a.picked → a'.lockTableSnapshots = a.lockTableSnapshots →
        StepsTo none a (.flushUpgrading f k g keys)
          (a', .flushPutting f k ⟨a.word k + 1, .writeLocked⟩ keys, none) := by
      intro a' hlocks hview hshift hactive hpicked hsnapshots
      have hworld : a'.world = (a.setWord k (a.word k + 1)).world := World.ext hlocks hview
      refine .of_effect hbase (held_none_odd rfl) ?_ hshift hactive hpicked hsnapshots (Or.inr rfl)
        (knows_flushPutting h hg (fun k' => congrFun hlocks (wordPos k')) hview hshift hbase
          hpicked) hview
      rw [hworld]
      exact effect_acquire (hg ▸ heven)
    simp only [flushStep, upgradeToWriteLock, acquire_of_current hwrap hg]
    rcases hrecord : (a.setWord k (a.word k + 1)).flushRecord f k with _ | ⟨i, tp⟩
    · exact hspec _ rfl rfl (.of_tables_eq rfl rfl) rfl rfl rfl
    -- the record is the one of the tables before, since taking a lock does not change them
    have htable : (a.tables i)[k]? = some tp := (newest_mem hrecord).2.2
    have hpayload : ({ tp with ref := false, migrated := true } : TaggedPayload V).payload =
        tp.payload := rfl
    have hview := view_setRecord htable hpayload
    have hshift := shift_setRecord htable hpayload (fun href => by cases href)
    refine hspec _ rfl ?_ ?_ rfl rfl rfl
    · exact (view_of_tables_eq rfl rfl).trans hview
    · exact ⟨hshift.active_le, hshift.carries, hshift.offers, hshift.superseded⟩
  · simp only [flushStep, upgradeToWriteLock,
      acquire_of_ne (fun heq => hg heq.symm), setWord_word]
    exact .still hbase (held_none_odd rfl) rfl (Or.inr rfl) (h.skip rfl rfl (List.Subset.refl keys))

lemma stepsTo_flushPutting (hodd : ∀ k', (flushPutting f k g keys : Pc V).held = some k' → a.word k' % 2 = 1)
    (h : (flushPutting f k g keys : Pc V).Knows a) (ch : Choices) :
    StepsTo none a (.flushPutting f k g keys) (flushStep ch a (.flushPutting f k g keys)) := by
  have hin : f.first + f.num ≤ a.active := (h.range f keys rfl).trans hbase.picked_le
  have hstill : StepsTo none a (.flushPutting f k g keys) (a, .flushStoring f k g keys, none) := by
    refine .still hbase hodd rfl (Or.inr rfl) (.of_flush rfl (fun k' g' hg' => h.owned k' g' hg')
      (fun k' g' hg' => by cases hg') (fun k' => h.table f keys k' rfl) (h.range f keys rfl)
      (fun k' => h.dropped f keys k' rfl) trivial (fun k' g' v' hpc => by cases hpc)
      (fun k' g' v' hpc => by cases hpc) (fun k' hk' v' ho hcurrent => ?_))
    exact h.live k' v' (.waits rfl hk' ho hcurrent)
  rcases hrecord : a.flushRecord f k with _ | ⟨i, tp⟩
  · simpa [flushStep, hrecord] using hstill
  simp only [flushStep, hrecord]
  split_ifs
  · exact hstill
  have hview : (a.dbPut k tp).view = a.view :=
    view_put_same (h.live k tp.payload (.flushPutting ⟨i, tp, hrecord, rfl⟩))
  have hworld : (a.dbPut k tp).world = a.world := World.ext rfl hview
  have hshift := shift_dbPut a k tp
  have hknows : (flushStoring { f with dropped := k :: f.dropped } k g keys : Pc V).Knows
      (a.dbPut k tp) := by
    refine .of_flush rfl (fun k' g' hg' => h.owned k' g' hg') (fun k' g' hg' => by cases hg')
      (fun k' => h.table f keys k' rfl) (h.range f keys rfl) (fun k' hk' => ?_) trivial
      (fun k' g' v' hpc => by cases hpc) (fun k' g' v' hpc => by cases hpc)
      (fun k' hk' v' ho hcurrent => ?_)
    · rcases List.mem_cons.1 hk' with rfl | hk'
      · exact supersededFrom_dbPut a k' tp hin
      · exact hshift.superseded _ k' (by simp) (h.dropped f keys k' rfl hk')
    · rw [hview]
      exact h.live k' v' (.waits rfl hk' ((offersAt_dbPut a k tp hin).1 ho) hcurrent)
  refine .of_effect hbase hodd ?_ hshift rfl rfl rfl (Or.inr rfl) hknows hview
  rw [hworld]
  exact .keep (some k)

/-- `update_key_version`: the context of the flush gets the word the release is going to leave. -/
lemma stepsTo_flushStoring (hodd : ∀ k', (flushStoring f k g keys : Pc V).held = some k' → a.word k' % 2 = 1)
    (h : (flushStoring f k g keys : Pc V).Knows a) (ch : Choices) :
    StepsTo none a (.flushStoring f k g keys) (flushStep ch a (.flushStoring f k g keys)) := by
  have hother : ∀ k' w, wordPos k' ≠ wordPos k → (f.table.setWord k w).word k' = f.table.word k' :=
    fun k' w hpos => update_of_ne hpos _ _
  simp only [flushStep]
  refine .still hbase hodd rfl (Or.inr rfl) (.of_flush rfl (fun k' g' hg' => h.owned k' g' hg')
    (fun k' g' hg' => by cases hg') (fun k' hk' => ?_) (h.range f keys rfl)
    (fun k' => h.dropped f keys k' rfl) ?_ (fun k' g' v' hpc => by cases hpc)
    (fun k' g' v' hpc => by cases hpc) (fun k' hk' v' ho hcurrent => ?_))
  · rw [hother k' _ (fun hpos => hk' k rfl hpos.symm)]
    exact h.table f keys k' rfl hk'
  · rw [OwnFact, OptimisticLockTable.word_setWord, h.owned k g rfl]
  · refine h.live k' v' (.waits rfl hk' ho ?_)
    by_cases hpos : wordPos k' = wordPos k
    · exact Or.inr ⟨k, rfl, hpos.symm⟩
    · rwa [Current, hother k' _ hpos] at hcurrent

lemma stepsTo_flushReleasing (hwrap : a.NoWrap)
    (hodd : ∀ k', (flushReleasing f k g keys : Pc V).held = some k' → a.word k' % 2 = 1)
    (h : (flushReleasing f k g keys : Pc V).Knows a) (ch : Choices) :
    StepsTo none a (.flushReleasing f k g keys) (flushStep ch a (.flushReleasing f k g keys)) := by
  have hu64 : u64 (a.word k + 1) = a.word k + 1 := u64_of_lt (hwrap (wordPos k))
  have hstored : f.table.word k = a.word k + 1 := by
    have hown : f.table.word k = u64 (g.version + 1) := h.ownFact
    rw [hown, h.owned k g rfl, hu64]
  simp only [flushStep]
  refine stepsTo_release hbase hodd hwrap h rfl rfl (Or.inr rfl) (.of_flush rfl
    (fun k' g' hg' => by cases hg') (fun k' g' hg' => by cases hg') (fun k' _ => ?_)
    (h.range f keys rfl) (fun k' => h.dropped f keys k' rfl) trivial
    (fun k' g' v' hpc => by cases hpc) (fun k' g' v' hpc => by cases hpc)
    (fun k' hk' v' ho hcurrent => ?_))
  · rw [Adapter.word_setWord]
    split_ifs with hpos
    · exact (congrArg f.table hpos).le.trans hstored.le
    · refine h.table f keys k' rfl (fun k'' hk'' hpos' => ?_)
      obtain rfl : k = k'' := by simpa [held, owned] using hk''
      exact hpos hpos'.symm
  · refine h.live k' v' (.waits rfl hk' ho ?_)
    by_cases hpos : wordPos k' = wordPos k
    · exact Or.inr ⟨k, rfl, hpos.symm⟩
    · have hcurrent' := hcurrent.of_held_none rfl
      rw [Adapter.word_setWord, if_neg hpos] at hcurrent'
      exact Or.inl hcurrent'

/-! ## The calls -/

lemma stepsTo_flushStart (num : ℕ) :
    StepsTo none a .idle ((a.flushStart num).1, (a.flushStart num).2, none) := by
  unfold flushStart
  split_ifs with hnum
  · obtain ⟨hpos, hle⟩ := hnum
    have hshift : Adapter.Shift none a { a with picked := a.picked + num } := .of_tables_eq rfl rfl
    have hview : ({ a with picked := a.picked + num } : Adapter V).view = a.view :=
      view_of_tables_eq rfl rfl
    have hworld : ({ a with picked := a.picked + num } : Adapter V).world = a.world :=
      World.ext rfl hview
    refine ⟨?_, hshift, .of_flush rfl (fun k' g' hg' => by cases hg') (fun k' g' hg' => by cases hg')
      (fun k' _ => hbase.snapshots _ k' (by omega)) le_rfl (fun k' hk' => by cases hk') trivial
      (fun k' g' v' hpc => by cases hpc) (fun k' g' v' hpc => by cases hpc)
      (fun k' _ v' ho hcurrent => ?_), hbase.pick hle, Nat.le_add_right _ _, by simp, ?_, hview⟩
    · show Effect wordPos a.world none ({ a with picked := a.picked + num } : Adapter V).world none
      rw [hworld]
      exact .keep none
    · rw [hview]
      obtain ⟨heven, hword⟩ := hcurrent.of_held_none rfl
      exact hbase.waiting k' v' ⟨num, hpos, hle, ho, heven, hword⟩
    · intro q hq _ r hr r' hr'
      obtain ⟨⟨f, keys⟩, hflush, rfl⟩ := Option.map_eq_some_iff.1 hr
      obtain rfl := Option.some.inj hr'
      exact Or.inl (hq.range f keys hflush)
  · exact stepsTo_quiet hbase rfl trivial

lemma stepsTo_memtableSwitch : StepsTo none a .idle (a.memtableSwitch, .idle, none) := by
  have hworld : a.memtableSwitch.world = a.world := World.ext rfl a.view_memtableSwitch
  refine ⟨?_, a.shift_memtableSwitch, knows_of_quiet .idle trivial _, hbase.memtableSwitch, le_rfl,
    by simp, fun q _ hq => hq, a.view_memtableSwitch⟩
  show Effect wordPos a.world none a.memtableSwitch.world none
  rw [hworld]
  exact .keep none

lemma stepsTo_start (call : Call V) :
    StepsTo none a .idle ((call.start a).1, (call.start a).2, none) := by
  cases call with
  | lookup k => exact stepsTo_quiet hbase rfl trivial
  | insert k v => exact stepsTo_quiet hbase rfl trivial
  | update k v => exact stepsTo_quiet hbase rfl trivial
  | put k v => exact stepsTo_quiet hbase rfl trivial
  | memtableSwitch => exact stepsTo_memtableSwitch hbase
  | flush num => exact stepsTo_flushStart hbase num

/-- **Every step but the `Put` of a `put` follows the protocol of the locks.** -/
lemma stepsTo_program (hwrap : a.NoWrap)
    (hodd : ∀ k, pc.held = some k → a.word k % 2 = 1) (h : pc.Knows a)
    (hput : ∀ k v, pc ≠ .putting k v) (i : Call V × Choices) :
    ∃ gone, StepsTo gone a pc (program i a pc) := by
  cases pc with
  | idle => exact ⟨none, stepsTo_start hbase i.1⟩
  | readLock call k => exact ⟨none, stepsTo_readLock hbase call k i.2⟩
  | getting => exact ⟨none, stepsTo_getting hbase h i.2⟩
  | upgrading => exact ⟨none, stepsTo_upgrading hbase hwrap h i.2⟩
  | migrating => exact ⟨none, stepsTo_migrating hbase hodd h i.2⟩
  | validating => exact ⟨none, stepsTo_validating hbase hodd h i.2⟩
  | unguarding => exact ⟨none, stepsTo_unguarding hbase hwrap hodd h i.2⟩
  | updateLock k v => exact ⟨none, stepsTo_updateLock hbase k v⟩
  | updateCas => exact ⟨none, stepsTo_updateCas hbase hwrap h⟩
  | updating => exact ⟨none, stepsTo_updating hbase hodd h⟩
  | updateReleasing => exact ⟨none, stepsTo_updateReleasing hbase hwrap hodd h⟩
  | putting k v => exact absurd rfl (hput k v)
  | flushing f keys =>
    cases keys with
    | nil => exact ⟨some f, stepsTo_flushEnd hbase h i.2⟩
    | cons k keys => exact ⟨none, stepsTo_flushing hbase h i.2⟩
  | flushUpgrading => exact ⟨none, stepsTo_flushUpgrading hbase hwrap h i.2⟩
  | flushPutting => exact ⟨none, stepsTo_flushPutting hbase hodd h i.2⟩
  | flushStoring => exact ⟨none, stepsTo_flushStoring hbase hodd h i.2⟩
  | flushReleasing => exact ⟨none, stepsTo_flushReleasing hbase hwrap hodd h i.2⟩

end Pc

end TwoTree.BidirectionalMigration
