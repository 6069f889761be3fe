import TwoTree.BidirectionalMigration.Steps

/-!
# Migrations are invisible

In every run, what a reader sees of a key is the value last written to it: a migration is the copy
of a value that a reader sees at that moment (`migrations_invisible`).

There is one condition.  A `put` or `insert` writes without the lock of its key, so that a migration
of the key that is under way does not give up.  If it carries another value, it puts that value back
on top of the newer one (`older_value_visible`); so the unlocked write has to wait until no live
migration of its key carries another value (`PutSafe`).
-/

namespace TwoTree.BidirectionalMigration

open Std Lib Lib.Levels Lib.Locking LockManager ConcurrentTwoBTree Function OptimisticLockGuard Pc

variable {V : Type*}

/-- The adapter and the places of the threads. -/
abbrev State (V : Type*) := Interleaving.State (Adapter V) (Pc V)

/-- A write of `k` without its lock: every migration of `k` that is still going to take place carries
the value that is written. -/
def PutSafe (s : State V) (k : ℕ) (v : V) : Prop :=
  (∀ t v', (s.place t).Live s.shared k v' → v' = v) ∧ ∀ v', s.shared.Waiting k v' → v' = v

/-- A step at which no lock word wraps around and no unlocked write overtakes a migration. -/
def Admitted (s : State V) (t : ℕ) : Prop :=
  s.shared.NoWrap ∧ ∀ k v, s.place t = .putting k v → PutSafe s k v

/-- What holds in every state of a run, with the events recorded so far. -/
structure Inv (es : List (Event V)) (s : State V) : Prop where
  view : s.shared.view = completed (fun _ => none) es
  knows : ∀ t, (s.place t).Knows s.shared
  exclusive : Exclusive wordPos (fun t => (s.place t).held) s.shared.world
  apart : ∀ t t', t ≠ t' → (s.place t).Apart (s.place t')
  base : s.shared.Base

variable {s : State V} {es : List (Event V)} {t : ℕ}

lemma Pc.Apart.symm {pc pc' : Pc V} (h : pc.Apart pc') : pc'.Apart pc :=
  fun r hr r' hr' => (h r' hr' r hr).symm

/-- The locks of the threads after one of them has moved. -/
lemma held_update (place : ℕ → Pc V) (t : ℕ) (pc : Pc V) :
    (fun t' => (update place t pc t').held) =
      update (fun t' => (place t').held) t pc.held :=
  funext (fun t' => apply_update (fun _ => held) place t pc t')

lemma inv_start : Inv [] (start Adapter.init : State V) where
  view := by
    funext k
    simp [start, Adapter.init, Adapter.view, Adapter.record, newest, completed]
  knows := fun t => knows_of_quiet .idle trivial _
  exclusive := ⟨fun t k hk => (by cases hk), fun t t' k k' hk => (by cases hk)⟩
  apart := fun t t' _ r hr => by cases hr
  base := by
    refine ⟨le_rfl, fun i k hi => ?_, fun k v hwaiting => ?_⟩
    · exact absurd hi (Nat.not_lt_zero i)
    · obtain ⟨num, hnum, hle, -⟩ := hwaiting
      have hle' : 0 + num ≤ 0 := hle
      omega

/-- A step that follows the protocol. -/
lemma Inv.stepsTo (h : Inv es s) {gone : Option Flush}
    {r : Adapter V × Pc V × Option (Event V)} (hr : StepsTo gone s.shared (s.place t) r) :
    Inv (es ++ r.2.2.toList) ⟨r.1, update s.place t r.2.1⟩ where
  view := by
    rw [completed_append, ← h.view]
    exact hr.view
  knows := fun t' => by
    rcases eq_or_ne t' t with rfl | hne
    · simpa using hr.knows
    simp only [update_of_ne hne]
    refine (h.knows t').sees h.base hr.shift (sees_of_effect h.exclusive hr.effect hne)
      hr.picked_le (fun f' hf' => ?_)
    obtain ⟨keys', hflush'⟩ := hr.gone f' hf'
    refine ⟨fun k => (h.knows t).dropped f' keys' k hflush', fun f keys hflush => ?_⟩
    exact h.apart t' t hne (f.first, f.num) (by simp [span, hflush]) (f'.first, f'.num)
      (by simp [span, hflush'])
  exclusive := by
    have hx := h.exclusive.step hr.effect
    rwa [← held_update] at hx
  apart := fun t₁ t₂ hne => by
    rcases eq_or_ne t₁ t with rfl | hne₁
    · simp only [update_self, update_of_ne hne.symm]
      exact (hr.apart _ (h.knows t₂) (h.apart t₂ t₁ hne.symm)).symm
    rcases eq_or_ne t₂ t with rfl | hne₂
    · simp only [update_self, update_of_ne hne₁]
      exact hr.apart _ (h.knows t₁) (h.apart t₁ t₂ hne)
    · simp only [update_of_ne hne₁, update_of_ne hne₂]
      exact h.apart t₁ t₂ hne
  base := hr.base

lemma Inv.put (h : Inv es s) {k : ℕ} {v : V} (hplace : s.place t = .putting k v)
    (hsafe : PutSafe s k v) :
    Inv (es ++ [.put k v]) ⟨s.shared.doPut k v false, update s.place t .idle⟩ where
  view := by
    rw [completed_append, ← h.view]
    exact Adapter.view_dbPut s.shared k _
  knows := fun t' => by
    rcases eq_or_ne t' t with rfl | hne
    · simpa using knows_of_quiet .idle trivial _
    · simp only [update_of_ne hne]
      exact (h.knows t').put h.base (hsafe.1 t')
  exclusive := by
    -- the thread holds no lock, neither before nor after the write
    have hsame : update (fun t' => (s.place t').held) t none =
        fun t' => (s.place t').held :=
      update_eq_self_iff.2 (by simp only [hplace]; rfl)
    have hheld := held_update s.place t .idle
    rw [show (idle : Pc V).held = none from rfl, hsame] at hheld
    rw [hheld]
    exact ⟨h.exclusive.locked, h.exclusive.unique⟩
  apart := fun t₁ t₂ hne => by
    rcases eq_or_ne t₁ t with rfl | hne₁
    · simp only [update_self]
      exact fun r hr => by cases hr
    rcases eq_or_ne t₂ t with rfl | hne₂
    · simp only [update_self]
      exact fun r _ r' hr' => by cases hr'
    · simp only [update_of_ne hne₁, update_of_ne hne₂]
      exact h.apart t₁ t₂ hne
  base := h.base.put hsafe.2

/-- **One step keeps the invariant.** -/
lemma Inv.step (h : Inv es s) (hok : Admitted s t) (i : Call V × Choices) :
    Inv (es ++ (s.step program t i).2.toList) (s.step program t i).1 := by
  obtain ⟨hwrap, hput⟩ := hok
  by_cases hplace : ∃ k v, s.place t = .putting k v
  · obtain ⟨k, v, hplace⟩ := hplace
    rw [Interleaving.State.step_eq, hplace]
    exact h.put hplace (hput k v hplace)
  · obtain ⟨gone, hr⟩ := stepsTo_program h.base hwrap (h.exclusive.locked t) (h.knows t)
      (fun k v hpc => hplace ⟨k, v, hpc⟩) i
    exact h.stepsTo hr

lemma inv_of_run
    (h : Interleaving.Run program (fun s t _ => Admitted s t) (start Adapter.init) es s) :
    Inv es s :=
  h.invariant inv_start (fun _ _ _ i hinv hok => hinv.step hok i)

/-! ## Schedules -/

lemma acquire_word_le (g : OptimisticLockGuard) (w : ℕ) : (g.acquire w).2.1 ≤ w + 1 := by
  by_cases hw : w = g.version
  · rw [acquire_of_eq hw, ← hw]
    exact Nat.mod_le _ _
  · rw [acquire_of_ne hw]
    exact Nat.le_succ w

lemma destroy_word_le (g : OptimisticLockGuard) (w : ℕ) : (g.destroy w).1 ≤ w + 1 := by
  unfold destroy
  split_ifs
  · exact Nat.mod_le _ _
  · exact Nat.le_succ w

lemma setWord_le (a : Adapter V) (k : ℕ) {w : ℕ} (hw : w ≤ a.word k + 1) (p : ℕ) :
    (a.setWord k w).lockTable p ≤ a.lockTable p + 1 := by
  simp only [Adapter.setWord, OptimisticLockTable.setWord, update_apply]
  split_ifs with hp
  · exact hp ▸ hw
  · exact Nat.le_succ _

/-- A step advances a lock word by one at most. -/
lemma word_program_le (i : Call V × Choices) (a : Adapter V) (pc : Pc V) (p : ℕ) :
    (program i a pc).1.lockTable p ≤ a.lockTable p + 1 := by
  have hacquire : ∀ k (g : OptimisticLockGuard),
      (a.setWord k (g.acquire (a.word k)).2.1).lockTable p ≤ a.lockTable p + 1 :=
    fun k g => setWord_le a k (acquire_word_le g _) p
  have hrelease : ∀ k g, (a.release k g).lockTable p ≤ a.lockTable p + 1 :=
    fun k g => setWord_le a k (destroy_word_le g _) p
  have hsame : ∀ a' : Adapter V, a'.lockTable = a.lockTable → a'.lockTable p ≤ a.lockTable p + 1 :=
    fun a' h => h ▸ Nat.le_succ _
  cases pc with
  | upgrading | updateCas => exact hacquire _ _
  | unguarding | updateReleasing | flushReleasing => exact hrelease _ _
  | idle =>
    obtain ⟨call, ch⟩ := i
    cases call with
    | flush num =>
      refine hsame _ ?_
      simp only [program, Call.start, Adapter.flushStart]
      split_ifs <;> rfl
    | lookup | insert | update | put | memtableSwitch => exact hsame _ rfl
  | getting call k g =>
    refine hsame _ ?_
    have hlocks := (a.get_spec k).2.2.2.1
    rcases hget : a.get k with ⟨a', _ | v⟩ <;> rw [hget] at hlocks <;>
      simpa [program, Pc.flushStep, Pc.lookupStep, hget] using hlocks
  | flushing f keys =>
    refine hsame _ ?_
    cases keys with
    | nil => rfl
    | cons k keys =>
      simp only [program, flushStep]
      rcases a.flushRecord f k with _ | ⟨_, tp⟩
      · rfl
      · dsimp only
        split_ifs <;> rfl
  | flushUpgrading f k g keys =>
    have hword := hacquire k g
    simp only [program, flushStep, upgradeToWriteLock]
    split <;> exact hword
  | flushPutting f k g keys =>
    refine hsame _ ?_
    simp only [program, flushStep]
    rcases a.flushRecord f k with _ | ⟨_, tp⟩
    · rfl
    · dsimp only
      split_ifs <;> rfl
  | _ => exact hsame _ rfl

/-- **No lock word wraps around in a run that is not too long.** -/
lemma noWrap_step {n : ℕ} (h : ∀ p, s.shared.lockTable p + (n + 1) < 2 ^ 64) (t : ℕ)
    (i : Call V × Choices) :
    s.shared.NoWrap ∧ ∀ p, (s.step program t i).1.shared.lockTable p + n < 2 ^ 64 := by
  refine ⟨fun p => ?_, fun p => ?_⟩
  · have := h p
    omega
  have := h p
  have hword := word_program_le i s.shared (s.place t) p
  rw [Interleaving.State.step_eq]
  dsimp only
  omega

/-- The thread is not about to write without a lock. -/
def Pc.locks : Pc V → Bool
  | .putting _ _ => false
  | _ => true

lemma allows_noWrap {schedule : List (ℕ × (Call V × Choices))}
    (hwords : ∀ p, s.shared.lockTable p + schedule.length < 2 ^ 64) :
    Interleaving.Allows program (fun s _ _ => s.shared.NoWrap) s schedule := by
  induction schedule generalizing s with
  | nil => trivial
  | cons i schedule ih =>
    obtain ⟨hwrap, hnext⟩ := noWrap_step hwords i.1 i.2
    exact ⟨hwrap, ih hnext⟩

/-- A schedule without unlocked writes is admitted if it is not too long. -/
lemma allows_of_locks {schedule : List (ℕ × (Call V × Choices))}
    (hwords : ∀ p, s.shared.lockTable p + schedule.length < 2 ^ 64)
    (hlocks : Interleaving.Allows program (fun s t _ => (s.place t).locks) s schedule) :
    Interleaving.Allows program (fun s t _ => Admitted s t) s schedule := by
  induction schedule generalizing s with
  | nil => trivial
  | cons i schedule ih =>
    obtain ⟨hlock, hlocks⟩ := hlocks
    obtain ⟨hwrap, hnext⟩ := noWrap_step hwords i.1 i.2
    refine ⟨⟨hwrap, fun k v hplace => ?_⟩, ih hnext hlocks⟩
    rw [hplace] at hlock
    cases hlock

/-- **A migration never makes an older value visible.**  In every run in which no unlocked write
overtakes a migration that carries another value, a reader sees the value last written. -/
theorem migrations_invisible {es : List (Event V)} {s : State V}
    (h : Interleaving.Run program (fun s t _ => Admitted s t) (start Adapter.init) es s) (k : ℕ) :
    s.shared.view k = completed (fun _ => none) es k :=
  congrFun (inv_of_run h).view k

/-- A step of a call in which everything migrates that may. -/
def eager (call : Call ℕ) : Call ℕ × Choices := (call, ⟨true, false, false⟩)

/-- A step of a call in which a lookup does not migrate. -/
def calm (call : Call ℕ) : Call ℕ × Choices := (call, ⟨false, false, false⟩)

/-- Thread 0 puts the value 10. -/
def putFirst : List (ℕ × (Call ℕ × Choices)) := List.replicate 2 (0, calm (.put 1 10))

/-- A lookup migrates the record upwards, another one marks it, a flush migrates it once more, and an
update overwrites it. -/
def upAndDown : List (ℕ × (Call ℕ × Choices)) :=
  List.replicate 7 (1, eager (.lookup 1)) ++ List.replicate 5 (1, calm (.lookup 1)) ++
    [(0, calm .memtableSwitch)] ++ List.replicate 7 (0, calm (.flush 1)) ++
    List.replicate 9 (1, calm (.update 1 20))

/-- A thread reads the value 10, another one puts the value 20, and the first one goes on. -/
def overtaken : List (ℕ × (Call ℕ × Choices)) :=
  putFirst ++ List.replicate 3 (1, eager (.lookup 1)) ++ List.replicate 2 (0, calm (.put 1 20)) ++
    List.replicate 4 (1, eager (.lookup 1))

/-- The first write finds no migration under way. -/
lemma admitted_putFirst : Interleaving.Allows program (fun s t _ => Admitted s t)
    (start (Adapter.init : Adapter ℕ)) putFirst := by
  have hwrap : (Adapter.init : Adapter ℕ).NoWrap := fun p => by
    simp [Adapter.init, OptimisticLockTable.init]
  refine ⟨⟨hwrap, fun k v hplace => by cases hplace⟩, ⟨hwrap, fun k v hplace => ?_⟩, trivial⟩
  refine ⟨fun t v' hlive => absurd hlive (Pc.Quiet.not_live ?_), fun v' hwaiting => ?_⟩
  · rcases eq_or_ne t 0 with rfl | ht
    · trivial
    · rw [Interleaving.place_step_of_ne _ _ ht]
      trivial
  · obtain ⟨num, hnum, hle, -⟩ := hwaiting
    have hle' : 0 + num ≤ 0 := hle
    omega

/-- A record that is migrated in both directions and then updated. -/
theorem migrations_invisible_updated :
    let out := Interleaving.exec program (start Adapter.init, []) (putFirst ++ upAndDown)
    Interleaving.Run program (fun s t _ => Admitted s t) (start Adapter.init) out.2 out.1 ∧
      out.1.shared.view 1 = some 20 := by
  have hwords : ∀ p, (Interleaving.exec program (start (Adapter.init : Adapter ℕ), [])
      putFirst).1.shared.lockTable p + upAndDown.length < 2 ^ 64 := by
    intro p
    change 0 + upAndDown.length < 2 ^ 64
    decide
  have hallows := Interleaving.allows_append [] admitted_putFirst
    (allows_of_locks hwords (by decide +kernel))
  have hrun := Interleaving.Run.of_exec program _ (start Adapter.init) _ hallows
  exact ⟨hrun, (migrations_invisible hrun 1).trans (by decide +kernel)⟩

/-- **An older value becomes visible**: a lookup reads the value 10, a put of the value 20 completes,
and the migration of the lookup puts the value 10 on top. -/
theorem older_value_visible :
    ∃ es s, Interleaving.Run program (fun s _ _ => s.shared.NoWrap)
        (start (Adapter.init : Adapter ℕ)) es s ∧
      (∀ t, s.place t = .idle) ∧ completed (fun _ => none) es 1 = some 20 ∧
      s.shared.view 1 = some 10 := by
  have hrun := Interleaving.Run.of_exec program (fun s _ _ => s.shared.NoWrap)
    (start (Adapter.init : Adapter ℕ)) overtaken
    (allows_noWrap (fun p => by simp [start, Adapter.init, OptimisticLockTable.init, overtaken,
      putFirst]))
  have hthreads : ∀ t ∈ overtaken.map Prod.fst, t = 0 ∨ t = 1 := by decide
  refine ⟨_, _, hrun, Interleaving.place_exec_eq [] (fun _ => rfl) (fun t ht => ?_), by decide,
    by decide⟩
  rcases hthreads t ht with rfl | rfl <;> rfl

end TwoTree.BidirectionalMigration
