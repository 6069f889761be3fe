import TwoTree.Lib.OptimisticLocks
import TwoTree.BidirectionalMigration.Tables

/-!
# Migrations that are under way

A migration is under way from the moment its record is read until it is written once more: a
`lookup` between its `Get` and its `Put`, a flush from the switch of its memtable on.  It is *live*
(`Pc.Live`, `Adapter.Waiting`) as long as nothing has happened that would make it give up, which is
that the lock word of the key has advanced.

What a thread knows (`Pc.Knows`) is above all that a live migration carries the value a reader sees.
A write under the lock makes every migration of its key give up, so it cannot make this wrong
(`Pc.Knows.sees`).  A `put` takes no lock, and no migration notices it.
-/

namespace TwoTree.BidirectionalMigration

open Std Lib Lib.Levels Lib.Locking LockManager ConcurrentTwoBTree Function Adapter

variable {V : Type*}

/-- The lock words, and what a reader sees. -/
def Adapter.world (a : Adapter V) : World ℕ ℕ (Option V) := ⟨a.lockTable, a.view⟩

namespace Pc

/-- The lock the thread owns: a key and the guard on its word. -/
def owned : Pc V → Option (ℕ × OptimisticLockGuard)
  | .migrating _ k g _ | .updating k _ g | .updateReleasing k g | .flushPutting _ k g _
  | .flushStoring _ k g _ | .flushReleasing _ k g _ => some (k, g)
  | .validating _ k g | .unguarding _ k g _ => if g.state = .writeLocked then some (k, g) else none
  | _ => none

/-- The key whose lock the thread owns. -/
def held (pc : Pc V) : Option ℕ := pc.owned.map Prod.fst

/-- The guard with which the thread is going to ask for the lock of a key. -/
def reads : Pc V → Option (ℕ × OptimisticLockGuard)
  | .getting _ k g | .upgrading _ k g _ | .updateCas k _ g | .flushUpgrading _ k g _ => some (k, g)
  | _ => none

/-- The flush the thread is in, with the keys it still has to examine. -/
def flush : Pc V → Option (Flush × List ℕ)
  | .flushing f keys | .flushUpgrading f _ _ keys | .flushPutting f _ _ keys
  | .flushStoring f _ _ keys | .flushReleasing f _ _ keys => some (f, keys)
  | _ => none

/-- The flush is going to find the lock word of the key as its context has it.  While it owns the
lock of a word, it is going to bring its context up to date. -/
def Current (a : Adapter V) (pc : Pc V) (f : Flush) (k : ℕ) : Prop :=
  (f.table.word k % 2 = 0 ∧ f.table.word k = a.word k) ∨
    ∃ k', pc.held = some k' ∧ wordPos k' = wordPos k

/-- The thread is going to write the record of `k` once more, with the payload `v`, unless somebody
takes the lock of the key. -/
inductive Live (a : Adapter V) : Pc V → ℕ → V → Prop
  | upgrading {call : Call V} {k : ℕ} {g : OptimisticLockGuard} {v : V} : g.version = a.word k →
      Live a (.upgrading call k g v) k v
  | migrating {call : Call V} {k : ℕ} {g : OptimisticLockGuard} {v : V} :
      Live a (.migrating call k g v) k v
  | flushUpgrading {f : Flush} {k : ℕ} {g : OptimisticLockGuard} {keys : List ℕ} {v : V} :
      g.version = a.word k → a.CarriesAt f.first f.num k v →
      Live a (.flushUpgrading f k g keys) k v
  | flushPutting {f : Flush} {k : ℕ} {g : OptimisticLockGuard} {keys : List ℕ} {v : V} :
      a.CarriesAt f.first f.num k v → Live a (.flushPutting f k g keys) k v
  | waits {pc : Pc V} {f : Flush} {k : ℕ} {keys : List ℕ} {v : V} : pc.flush = some (f, keys) →
      k ∈ keys → a.OffersAt f.first f.num k v → pc.Current a f k → Live a pc k v

/-- What the thread knows of its own variables. -/
def OwnFact : Pc V → Prop
  | .flushUpgrading f k g _ => g.version = f.table.word k
  | .flushReleasing f k g _ => f.table.word k = u64 (g.version + 1)
  | _ => True

/-- What a thread knows. -/
structure Knows (a : Adapter V) (pc : Pc V) : Prop where
  owned : ∀ k g, pc.owned = some (k, g) → g = ⟨a.word k, .writeLocked⟩
  reads : ∀ k g, pc.reads = some (k, g) →
    g.version % 2 = 0 ∧ g.version ≤ a.word k ∧ g.state ≠ .writeLocked
  table : ∀ f keys k, pc.flush = some (f, keys) →
    (∀ k', pc.held = some k' → wordPos k' ≠ wordPos k) → f.table.word k ≤ a.word k
  range : ∀ f keys, pc.flush = some (f, keys) → f.first + f.num ≤ a.picked
  dropped : ∀ f keys k, pc.flush = some (f, keys) → k ∈ f.dropped →
    a.SupersededFrom (f.first + f.num) k
  ownFact : pc.OwnFact
  live : ∀ k v, pc.Live a k v → a.view k = some v

end Pc

/-- A flush of memtables that no flush has taken yet would write the record of `k` once more, with
the payload `v`. -/
def Adapter.Waiting (a : Adapter V) (k : ℕ) (v : V) : Prop :=
  ∃ num, 0 < num ∧ a.picked + num ≤ a.active ∧ a.OffersAt a.picked num k v ∧
    (a.lockTableSnapshots (a.picked + num - 1)).word k % 2 = 0 ∧
    (a.lockTableSnapshots (a.picked + num - 1)).word k = a.word k

/-- What is known of the memtables that no flush has taken yet. -/
structure Adapter.Base (a : Adapter V) : Prop where
  picked_le : a.picked ≤ a.active
  snapshots : ∀ i k, i < a.active → (a.lockTableSnapshots i).word k ≤ a.word k
  waiting : ∀ k v, a.Waiting k v → a.view k = some v

/-! ## The steps of the others -/

/-- What a thread that owns the lock of the key `held` sees of a step of another thread. -/
structure Sees (held : Option ℕ) (a a' : Adapter V) : Prop where
  word_le : ∀ k, a.word k ≤ a'.word k
  view_of_even : ∀ k, a.word k % 2 = 0 → a'.view k = a.view k
  owned : ∀ k k', held = some k → wordPos k = wordPos k' →
    a'.word k' = a.word k' ∧ a'.view k' = a.view k'

variable {a a' : Adapter V} {pc pc' : Pc V} {k : ℕ} {v : V}

/-- **What the others see of a step that follows the protocol of the locks.** -/
lemma sees_of_effect {held : ℕ → Option ℕ} {t t' : ℕ} {h' : Option ℕ}
    (hx : Exclusive wordPos held a.world) (he : Effect wordPos a.world (held t) a'.world h')
    (hne : t' ≠ t) : Sees (held t') a a' where
  word_le := fun k => he.word_le (wordPos k)
  view_of_even := fun k heven => he.cell_eq (hx.ne_of_even heven t)
  owned := fun k k' hk hpos => by
    refine ⟨?_, hx.cell_of_pos he hne hk hpos⟩
    have hword := ((hx.interferes he hne).owned k hk).1
    rw [hpos] at hword
    exact hword

namespace Pc

/-- The word of a live migration is the one it was, and so is what a reader sees. -/
lemma Live.unchanged (h : Live a' pc k v) (hknows : pc.Knows a) (hsees : Sees pc.held a a') :
    a'.word k = a.word k ∧ a'.view k = a.view k := by
  -- a version that was current before and after
  have hversion : ∀ version, version % 2 = 0 → version ≤ a.word k → version = a'.word k →
      a'.word k = a.word k ∧ a'.view k = a.view k := by
    intro version heven hle heq
    have hword : a'.word k = a.word k := Nat.le_antisymm (heq ▸ hle) (hsees.word_le k)
    exact ⟨hword, hsees.view_of_even k (by rw [← hword, ← heq]; exact heven)⟩
  cases h with
  | upgrading hv =>
    obtain ⟨heven, hle, -⟩ := hknows.reads _ _ rfl
    exact hversion _ heven hle hv
  | migrating => exact hsees.owned k k rfl rfl
  | flushUpgrading hv _ =>
    obtain ⟨heven, hle, -⟩ := hknows.reads _ _ rfl
    exact hversion _ heven hle hv
  | flushPutting _ => exact hsees.owned k k rfl rfl
  | waits hflush _ _ hcurrent =>
    by_cases hheld : ∃ k', pc.held = some k' ∧ wordPos k' = wordPos k
    · obtain ⟨k', hk', hpos⟩ := hheld
      exact hsees.owned k' k hk' hpos
    · obtain ⟨heven, heq⟩ := hcurrent.resolve_right hheld
      refine hversion _ heven (hknows.table _ _ k hflush (fun k' hk' hpos => ?_)) heq
      exact hheld ⟨k', hk', hpos⟩

/-- A migration that is live after a step was live before, unless the record got its mark in
between. -/
lemma Live.before {P : Prop} (h : Live a' pc k v) (hword : a'.word k = a.word k)
    (hcarries : ∀ f keys, pc.flush = some (f, keys) → a'.CarriesAt f.first f.num k v →
      a.CarriesAt f.first f.num k v)
    (hoffers : ∀ f keys, pc.flush = some (f, keys) → a'.OffersAt f.first f.num k v →
      a.OffersAt f.first f.num k v ∨ P) : Live a pc k v ∨ P := by
  cases h with
  | upgrading hv => exact Or.inl (.upgrading (hv.trans hword))
  | migrating => exact Or.inl .migrating
  | flushUpgrading hv hc =>
    exact Or.inl (.flushUpgrading (hv.trans hword) (hcarries _ _ rfl hc))
  | flushPutting hc => exact Or.inl (.flushPutting (hcarries _ _ rfl hc))
  | waits hflush hk ho hcurrent =>
    refine (hoffers _ _ hflush ho).imp_left (fun ho => .waits hflush hk ho ?_)
    rwa [Current, hword] at hcurrent

/-- **What a thread knows survives the steps of the others.** -/
lemma Knows.sees (h : pc.Knows a) (hbase : a.Base) {gone : Option Flush}
    (hshift : Adapter.Shift gone a a') (hsees : Sees pc.held a a') (hpicked : a.picked ≤ a'.picked)
    (hgone : ∀ f' ∈ gone, (∀ k ∈ f'.dropped, a.SupersededFrom (f'.first + f'.num) k) ∧
      ∀ f keys, pc.flush = some (f, keys) →
        f.first + f.num ≤ f'.first ∨ f'.first + f'.num ≤ f.first) :
    pc.Knows a' where
  owned := fun k g hg => by
    have hheld : pc.held = some k := by rw [held, hg]; rfl
    rw [(hsees.owned k k hheld rfl).1]
    exact h.owned k g hg
  reads := fun k g hg => by
    obtain ⟨heven, hle, hstate⟩ := h.reads k g hg
    exact ⟨heven, hle.trans (hsees.word_le k), hstate⟩
  table := fun f keys k hf hpos => (h.table f keys k hf hpos).trans (hsees.word_le k)
  range := fun f keys hf => (h.range f keys hf).trans hpicked
  dropped := fun f keys k hf hk =>
    hshift.superseded _ k (fun f' hf' => (hgone f' hf').1) (h.dropped f keys k hf hk)
  ownFact := h.ownFact
  live := fun k v hlive => by
    obtain ⟨hword, hview⟩ := hlive.unchanged h hsees
    have hin : ∀ f keys, pc.flush = some (f, keys) → f.first + f.num ≤ a.active :=
      fun f keys hf => (h.range f keys hf).trans hbase.picked_le
    have hapart : ∀ f keys, pc.flush = some (f, keys) → ∀ f' ∈ gone,
        f.first + f.num ≤ f'.first ∨ f'.first + f'.num ≤ f.first :=
      fun f keys hf f' hf' => (hgone f' hf').2 f keys hf
    rw [hview]
    refine (hlive.before hword (fun f keys hf => ?_) (fun f keys hf => ?_)).elim (h.live k v) id
    · exact (hshift.carries _ _ k v (hin f keys hf) (hapart f keys hf)).1
    · exact hshift.offers _ _ k v (hin f keys hf) (hapart f keys hf)

/-- **Nor does a write without a lock make it wrong, if it writes what the live migrations of its
key carry.** -/
lemma Knows.put (h : pc.Knows a) (hbase : a.Base) {tp : TaggedPayload V}
    (hsafe : ∀ v', pc.Live a k v' → v' = tp.payload) : pc.Knows (a.dbPut k tp) where
  owned := h.owned
  reads := h.reads
  table := h.table
  range := h.range
  dropped := fun f keys k' hf hk' => (shift_dbPut a k tp).superseded _ k' (by simp)
    (h.dropped f keys k' hf hk')
  ownFact := h.ownFact
  live := fun k' v' hlive => by
    have hin : ∀ f keys, pc.flush = some (f, keys) → f.first + f.num ≤ a.active :=
      fun f keys hf => (h.range f keys hf).trans hbase.picked_le
    have hbefore : pc.Live a k' v' := by
      refine (hlive.before (a := a) (P := False) rfl (fun f keys hf => ?_)
        (fun f keys hf => ?_)).resolve_right id
      · exact ((shift_dbPut a k tp).carries _ _ k' v' (hin f keys hf) (by simp)).1
      · exact fun ho => Or.inl ((offersAt_dbPut a k tp (hin f keys hf)).1 ho)
    rw [view_dbPut]
    rcases eq_or_ne k' k with rfl | hk
    · rw [update_self, hsafe v' hbefore]
    · rw [update_of_ne hk]
      exact h.live k' v' hbefore

end Pc

/-! ## Memtables that wait for a flush -/

namespace Adapter

variable {a a' : Adapter V}

/-- What is known of the waiting memtables survives as well. -/
lemma Base.sees (h : a.Base) {gone : Option Flush} (hshift : Shift gone a a')
    (hsees : Sees none a a') (hgone : ∀ f ∈ gone, f.first + f.num ≤ a.picked)
    (hactive : a'.active = a.active) (hpicked : a'.picked = a.picked)
    (hsnapshots : a'.lockTableSnapshots = a.lockTableSnapshots) : a'.Base where
  picked_le := by rw [hpicked, hactive]; exact h.picked_le
  snapshots := fun i k hi => by
    rw [hactive] at hi
    rw [hsnapshots]
    exact (h.snapshots i k hi).trans (hsees.word_le k)
  waiting := fun k v hwaiting => by
    obtain ⟨num, hnum, hle, hoffers, heven, heq⟩ := hwaiting
    rw [hpicked, hactive] at hle
    rw [hpicked] at hoffers
    rw [hpicked, hsnapshots] at heven heq
    have hbefore := h.snapshots (a.picked + num - 1) k (by omega)
    have hword : a'.word k = a.word k := Nat.le_antisymm (heq ▸ hbefore) (hsees.word_le k)
    rw [hsees.view_of_even k (by rw [← hword, ← heq]; exact heven)]
    refine (hshift.offers _ _ k v hle (fun f hf => Or.inr (hgone f hf)) hoffers).elim
      (fun hoffers => h.waiting k v ⟨num, hnum, hle, hoffers, heven, heq.trans hword⟩) id

lemma Base.put (h : a.Base) {k : ℕ} {tp : TaggedPayload V}
    (hsafe : ∀ v', a.Waiting k v' → v' = tp.payload) : (a.dbPut k tp).Base where
  picked_le := h.picked_le
  snapshots := h.snapshots
  waiting := fun k' v' hwaiting => by
    have hbefore : a.Waiting k' v' := by
      obtain ⟨num, hnum, hle, hoffers, hversion⟩ := hwaiting
      exact ⟨num, hnum, hle, (offersAt_dbPut a k tp hle).1 hoffers, hversion⟩
    rw [view_dbPut]
    rcases eq_or_ne k' k with rfl | hk
    · rw [update_self, hsafe v' hbefore]
    · rw [update_of_ne hk]
      exact h.waiting k' v' hbefore

lemma Base.memtableSwitch (h : a.Base) : a.memtableSwitch.Base where
  picked_le := Nat.le_succ_of_le h.picked_le
  snapshots := fun i k hi => by
    have hi' : i < a.active + 1 := hi
    simp only [Adapter.memtableSwitch, update_apply]
    split_ifs with heq
    · exact le_rfl
    · exact h.snapshots i k (by omega)
  waiting := fun k v hwaiting => by
    obtain ⟨num, hnum, hle, hoffers, heven, heq⟩ := hwaiting
    have hle' : a.picked + num ≤ a.active + 1 := hle
    have hsame : newest a.memtableSwitch.tables k a.picked num = newest a.tables k a.picked num :=
      newest_congr (fun j _ hj => by
        simp only [Adapter.memtableSwitch]
        rw [update_of_ne (by omega)])
    have hoffers' : a.OffersAt a.picked num k v := by
      have hmoved : a.memtableSwitch.OffersAt a.picked num k v := hoffers
      rwa [OffersAt, hsame] at hmoved
    rw [view_memtableSwitch]
    rcases Nat.eq_or_lt_of_le hle' with hall | hlt
    · exact hoffers'.carries.view_eq hall
    · refine h.waiting k v ⟨num, hnum, by omega, hoffers', ?_⟩
      simp only [Adapter.memtableSwitch, update_apply,
        if_neg (by omega : a.picked + num - 1 ≠ a.active)] at heven heq
      exact ⟨heven, heq⟩

lemma Base.pick (h : a.Base) {num : ℕ} (hle : a.picked + num ≤ a.active) :
    { a with picked := a.picked + num : Adapter V }.Base where
  picked_le := hle
  snapshots := h.snapshots
  waiting := fun k v hwaiting => by
    obtain ⟨num', hnum', hle', ⟨i, tp, hnewest, hflags⟩, hversion⟩ := hwaiting
    -- the newest record of the upper part is the newest one of the whole
    have hnewest' : newest a.tables k a.picked (num + num') = some (i, tp) := by
      rw [newest_add]
      exact Option.or_eq_some_iff.2 (Or.inl hnewest)
    have hle'' : a.picked + (num + num') ≤ a.active := by
      rw [← add_assoc]
      exact hle'
    refine h.waiting k v ⟨num + num', by omega, hle'', ⟨i, tp, hnewest', hflags⟩, ?_⟩
    rw [← add_assoc]
    exact hversion

end Adapter

end TwoTree.BidirectionalMigration
