import TwoTree.ConcurrentTwoBTree.Adapter

/-!
# Any number of threads on one adapter

The adapter of `ConcurrentTwoBTree.Adapter` is run by one thread.  This file runs any number of
threads on it, each calling `lookup`, `put` or `evict_a_bunch` as often as it likes.  A thread is
where it stands in its call (`Pc`), with the local variables it still needs.  One `step` is one
operation on a tree, one load or compare-and-swap of a lock word, the destructor of a guard, the
section protected by `eviction_mutex`, or the final decrement of an eviction.

The scan of an eviction is one step for each record it comes by, and two more for a record it
picks: the load of the lock word and, after it, the copy of the payload.  The load of a guard's
constructor is left out, since `read_lock` and `write_lock`, of which one is always called next,
overwrite the version it reads.

A run (`Run`) is any interleaving of steps.  It records an `Event` when a `put` completes, which is
when it gives its lock back, and when a `lookup` validates what it found, which is what it then
returns.  `completed` is the map that the recorded puts leave behind.
-/

namespace TwoTree.ConcurrentTwoBTree

open Std Lib Lib.OrderedMap LockManager

variable {V : Type*}

/-- The calls of a thread. -/
inductive ThreadCall (V : Type*)
  | lookup (k : ℕ)
  | put (k : ℕ) (v : V)
  | evictABunch
  deriving DecidableEq, Repr

/-- The local variables of `evict_a_bunch` behind its section: the claimed range, the victims that
are not evicted yet, and the call it is part of. -/
structure Sweep (V : Type*) where
  call : ThreadCall V
  range : ClaimedRange
  victims : List (Adapter.Victim V)

/-- Where a thread stands.  A guard `g` is one on the lock word of the key it comes with. -/
inductive Pc (V : Type*)
  /-- Between two calls. -/
  | idle
  /-- In `evict_a_bunch`: before the section. -/
  | entering (call : ThreadCall V)
  /-- The scan is about to look for the next record from `cursor` on. -/
  | scanning (e : Sweep V) (cursor : ℕ)
  /-- The scan has come by a record that is not referenced. -/
  | reading (e : Sweep V) (key : ℕ)
  /-- The scan has found the lock word of the record even. -/
  | copying (e : Sweep V) (key version : ℕ)
  /-- At the head of the eviction loop. -/
  | evicting (e : Sweep V)
  /-- In `write_lock` of a victim, before the compare-and-swap. -/
  | locking (e : Sweep V) (victim : Adapter.Victim V) (g : OptimisticLockGuard)
  /-- The victim is locked, and there have been other writers since the scan. -/
  | rereading (e : Sweep V) (victim : Adapter.Victim V) (g : OptimisticLockGuard)
  | writingBack (e : Sweep V) (victim : Adapter.Victim V) (g : OptimisticLockGuard)
  | removingHot (e : Sweep V) (key : ℕ) (g : OptimisticLockGuard)
  | releasing (e : Sweep V) (key : ℕ) (g : OptimisticLockGuard)
  /-- Before the final decrement. -/
  | leaving (e : Sweep V)
  /-- In `lookup`: before `read_lock`. -/
  | lookupLock (k : ℕ)
  | hotLookup (k : ℕ) (g : OptimisticLockGuard)
  | coldLookup (k : ℕ) (g : OptimisticLockGuard)
  | upgrading (k : ℕ) (g : OptimisticLockGuard) (v : V)
  | admitting (k : ℕ) (g : OptimisticLockGuard) (v : V)
  | removingCold (k : ℕ) (g : OptimisticLockGuard) (v : V)
  | validating (k : ℕ) (g : OptimisticLockGuard) (res : Option V)
  /-- Before the destructor of the guard; the loop is left or goes on. -/
  | unguarding (k : ℕ) (g : OptimisticLockGuard) (valid : Bool)
  /-- In `put`: before the load of `write_lock`. -/
  | putLock (k : ℕ) (v : V)
  | putCas (k : ℕ) (v : V) (g : OptimisticLockGuard)
  | putting (k : ℕ) (v : V) (g : OptimisticLockGuard)
  | putAdmitting (k : ℕ) (v : V) (g : OptimisticLockGuard)
  | putRemovingCold (k : ℕ) (v : V) (g : OptimisticLockGuard)
  | putReleasing (k : ℕ) (v : V) (g : OptimisticLockGuard)

/-- What a run records of its calls. -/
inductive Event (V : Type*)
  /-- A lookup validated its result and returns it. -/
  | lookup (k : ℕ) (res : Option V)
  /-- A put is complete. -/
  | put (k : ℕ) (v : V)
  deriving DecidableEq, Repr

/-- What follows once `try_eviction`, or the eviction that was called for, is over. -/
def ThreadCall.proceed : ThreadCall V → Pc V
  | .lookup k => .lookupLock k
  | .put k v => .putLock k v
  | .evictABunch => .idle

/-- Where a call starts: `lookup` and `put` evict under memory pressure only. -/
def ThreadCall.start (call : ThreadCall V) (pressure : Bool) : Pc V :=
  match call with
  | .evictABunch => .entering call
  | _ => if pressure then .entering call else call.proceed

/-- The scan is done with the record of `key`. -/
def Sweep.behind (e : Sweep V) (key : ℕ) : Pc V :=
  if key ≥ e.range.endKey then .evicting e else .scanning e (key + 1)

namespace Pc

variable (cfg : Config)

/-- The steps of `put`, its `try_eviction` apart. -/
def putStep (a : Adapter V) : Pc V → Adapter V × Pc V × Option (Event V)
  | .putLock k v =>
    let (even, g) := (OptimisticLockGuard.construct (a.word k)).writeLockLoad (a.word k)
    (a, if even then .putCas k v g else .putLock k v, none)
  | .putCas k v g =>
    let (locked, w, g') := g.writeLockCas (a.word k)
    (a.setWord k w, if locked then .putting k v g' else .putLock k v, none)
  | .putting k v g =>
    match updateInPlace a.hotBtree k (HotRecord.mapTagged (TaggedPayload.overwrite v)) with
    | (.ok, hot) => ({ a with hotBtree := hot }, .putReleasing k v g, none)
    | _ => (a, .putAdmitting k v g, none)
  | .putAdmitting k v g =>
    (a.admitElement k v true false,
      if cfg.inclusive then .putReleasing k v g else .putRemovingCold k v g, none)
  | .putRemovingCold k v g => (a.removeCold k, .putReleasing k v g, none)
  | .putReleasing k v g => (a.release k g, .idle, some (.put k v))
  | pc => (a, pc, none)

/-- The steps of `lookup`, its `try_eviction` apart. -/
def lookupStep (ch : Choices V) (a : Adapter V) : Pc V → Adapter V × Pc V × Option (Event V)
  | .lookupLock k =>
    let (readable, g) := (OptimisticLockGuard.construct (a.word k)).readLock (a.word k)
    (a, if readable then .hotLookup k g else .lookupLock k, none)
  | .hotLookup k g =>
    match a.hotBtree[k]? with
    | some .deletedMark => (a, .validating k g none, none)
    | some (.tagged tp) =>
      ({ a with hotBtree := a.hotBtree.insert k (.tagged (Adapter.touch tp)) },
        .validating k g (some tp.payload), none)
    | none => (a, .coldLookup k g, none)
  | .coldLookup k g =>
    match a.coldBtree[k]? with
    | none => (a, .validating k g none, none)
    | some v =>
      (a, if shouldMigrate cfg ch then .upgrading k g v else .validating k g (some v), none)
  | .upgrading k g v =>
    let (upgraded, w, g') := g.upgradeToWriteLock (a.word k)
    (a.setWord k w, if upgraded then .admitting k g' v else .validating k g' none, none)
  | .admitting k g v =>
    let (admitted, a') := a.migrateUp ch k v
    (a', if !cfg.inclusive && admitted then .removingCold k g v else .validating k g (some v),
      none)
  | .removingCold k g v => (a.removeCold k, .validating k g (some v), none)
  | .validating k g res =>
    if g.validate (a.word k) then (a, .unguarding k g true, some (.lookup k res))
    else (a, .unguarding k g false, none)
  | .unguarding k g valid => (a.release k g, if valid then .idle else .lookupLock k, none)
  | pc => putStep cfg a pc

/-- One step of the scan of an eviction: the callback on the next record, up to the test of its
reference bit. -/
def scanStep (ch : Choices V) (a : Adapter V) (e : Sweep V) (cursor : ℕ) : Adapter V × Pc V :=
  match (scanFrom a.hotBtree cursor).head? with
  | none => (a, .evicting e)
  | some (key, r) =>
    let unreferenced := r.mapTagged (fun tp => tp.decReferenceCount.clearReferenced)
    let decremented := r.mapTagged TaggedPayload.decReferenceCount
    if key > e.range.endKey then (a, .evicting e)
    else if (r.asTagged (ch.overread key)).decReferenceCount.referenced then
      ({ a with hotBtree := a.hotBtree.insert key unreferenced }, e.behind key)
    else ({ a with hotBtree := a.hotBtree.insert key decremented }, .reading e key)

/-- The steps of `evict_a_bunch`. -/
def evictStep (ch : Choices V) (a : Adapter V) : Pc V → Adapter V × Pc V × Option (Event V)
  | .entering call =>
    match a.clock.claim ch.boundary with
    | none => (a, call.proceed, none)
    | some (range, clock) =>
      ({ a with clock := clock }, .scanning ⟨call, range, []⟩ range.startKey, none)
  | .scanning e cursor => let (a', pc) := scanStep ch a e cursor; (a', pc, none)
  | .reading e key =>
    let (readable, g) := (OptimisticLockGuard.construct (a.word key)).readLock (a.word key)
    (a, if readable then .copying e key g.version else e.behind key, none)
  | .copying e key version =>
    match a.hotBtree[key]? with
    | some r =>
      let victim := ⟨key, r.asTagged (ch.overread key), version⟩
      (a, Sweep.behind { e with victims := e.victims ++ [victim] } key, none)
    | none => (a, e.behind key, none)
  | .evicting e =>
    match e.victims with
    | [] => (a, .leaving e, none)
    | victim :: rest =>
      let (even, g) := (OptimisticLockGuard.construct (a.word victim.key)).writeLockLoad
        (a.word victim.key)
      (a, if even then .locking { e with victims := rest } victim g
        else .evicting { e with victims := rest }, none)
  | .locking e victim g =>
    let (locked, w, g') := g.writeLockCas (a.word victim.key)
    (a.setWord victim.key w,
      if locked then
        if g'.moreThanOneWriterSince victim.lockVersion then .rereading e victim g'
        else .writingBack e victim g'
      else .evicting e, none)
  | .rereading e victim g =>
    match a.hotBtree[victim.key]? with
    | some r =>
      let victim' := { victim with payload := r.asTagged (ch.overread victim.key) }
      (a, .writingBack e victim' g, none)
    | none => (a, .writingBack e victim g, none)
  | .writingBack e victim g =>
    (Adapter.writeBack cfg a victim.key victim.payload, .removingHot e victim.key g, none)
  | .removingHot e key g => (a.removeHot key, .releasing e key g, none)
  | .releasing e key g => (a.release key g, .evicting e, none)
  | .leaving e => ({ a with clock := a.clock.finish e.range.round }, e.call.proceed, none)
  | pc => lookupStep cfg ch a pc

/-- One step of a thread.  An idle thread starts the call `call`. -/
def step (call : ThreadCall V) (ch : Choices V) (a : Adapter V) :
    Pc V → Adapter V × Pc V × Option (Event V)
  | .idle => (a, call.start ch.pressure, none)
  | pc => evictStep cfg ch a pc

/-- The events a thread records in its next `n` steps, if the other threads stand still. -/
def solo (cfg : Config) (call : ThreadCall V) (ch : Choices V) :
    ℕ → Adapter V → Pc V → List (Event V)
  | 0, _, _ => []
  | n + 1, a, pc =>
    let (a', pc', event) := pc.step cfg call ch a
    event.toList ++ solo cfg call ch n a' pc'

end Pc

/-- The adapter and the threads that run on it. -/
structure Threads (V : Type*) where
  adapter : Adapter V
  pc : ℕ → Pc V

namespace Threads

/-- No thread has started a call. -/
def start (a : Adapter V) : Threads V := ⟨a, fun _ => .idle⟩

/-- One step of thread `t`. -/
def step (cfg : Config) (s : Threads V) (t : ℕ) (call : ThreadCall V) (ch : Choices V) :
    Threads V × Option (Event V) :=
  let (a, pc, event) := (s.pc t).step cfg call ch s.adapter
  (⟨a, Function.update s.pc t pc⟩, event)

/-- A schedule of steps, carried out; the events are those recorded so far. -/
def exec (cfg : Config) (p : Threads V × List (Event V))
    (schedule : List (ℕ × ThreadCall V × Choices V)) : Threads V × List (Event V) :=
  schedule.foldl (fun p i =>
    ((p.1.step cfg i.1 i.2.1 i.2.2).1, p.2 ++ (p.1.step cfg i.1 i.2.1 i.2.2).2.toList)) p

/-- The boundary searches of a schedule answer with keys at or above their start keys. -/
def BoundariesOk (cfg : Config) : Threads V → List (ℕ × ThreadCall V × Choices V) → Prop
  | _, [] => True
  | s, (t, call, ch) :: schedule =>
    (∀ b ∈ ch.boundary, BoundaryOk s.adapter.clock.clockHand b) ∧
      BoundariesOk cfg (s.step cfg t call ch).1 schedule

instance decidableBoundariesOk (cfg : Config) :
    (s : Threads V) → (schedule : List (ℕ × ThreadCall V × Choices V)) →
      Decidable (BoundariesOk cfg s schedule)
  | _, [] => isTrue trivial
  | s, (t, call, ch) :: schedule =>
    have := decidableBoundariesOk cfg (s.step cfg t call ch).1 schedule
    inferInstanceAs (Decidable (_ ∧ _))

/-- No lock word is about to wrap around. -/
def NoWrap (s : Threads V) : Prop := ∀ p, s.adapter.lockTable p + 1 < 2 ^ 64

/-- The interleavings of steps that start at `s₀`, with the events they record; all states a step
starts from satisfy `ok`.  Of the boundary search in the hot tree nothing is used but that it
answers with a key at or above its start key. -/
inductive Run (cfg : Config) (ok : Threads V → Prop) (s₀ : Threads V) :
    List (Event V) → Threads V → Prop
  | nil : Run cfg ok s₀ [] s₀
  | snoc {es : List (Event V)} {s : Threads V} (t : ℕ) (call : ThreadCall V) (ch : Choices V) :
      Run cfg ok s₀ es s → ok s →
      (∀ b ∈ ch.boundary, BoundaryOk s.adapter.clock.clockHand b) →
      Run cfg ok s₀ (es ++ (s.step cfg t call ch).2.toList) (s.step cfg t call ch).1

end Threads

/-- What an event does to the map of the completed puts. -/
def Event.apply (m : ℕ → Option V) : Event V → ℕ → Option V
  | .lookup _ _ => m
  | .put k v => Function.update m k (some v)

/-- The values of the puts completed last, over the map `m` a run starts with. -/
def completed (m : ℕ → Option V) (es : List (Event V)) : ℕ → Option V :=
  es.foldl Event.apply m

/-- Every lookup returned the value of the put completed last. -/
def Explained : (ℕ → Option V) → List (Event V) → Prop
  | _, [] => True
  | m, .lookup k res :: es => res = m k ∧ Explained m es
  | m, .put k v :: es => Explained (Function.update m k (some v)) es

lemma completed_append (m : ℕ → Option V) (es es' : List (Event V)) :
    completed m (es ++ es') = completed (completed m es) es' := List.foldl_append

lemma explained_append {m : ℕ → Option V} {es es' : List (Event V)} (h : Explained m es)
    (h' : Explained (completed m es) es') : Explained m (es ++ es') := by
  induction es generalizing m with
  | nil => exact h'
  | cons e es ih =>
    cases e with
    | lookup k res => exact ⟨h.1, ih h.2 h'⟩
    | put k v => exact ih h h'

end TwoTree.ConcurrentTwoBTree
