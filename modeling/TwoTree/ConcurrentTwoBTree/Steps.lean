import TwoTree.ConcurrentTwoBTree.Interference

/-!
# One step of one thread

What one step of a thread does to the adapter, whatever the other threads are doing: `StepSpec`
says what happens to the locks and cells, to the clock, to the put the thread may be carrying out
and to what it knows.  There are four kinds of steps.  Most leave locks and cells alone
(`StepSpec.still`), the others take a lock, give it back, or write the cell of the key whose lock
the thread owns.  The rest of the file goes through the places of the program, one lemma each, and
`stepSpec` collects them.
-/

namespace TwoTree.ConcurrentTwoBTree

open Std Lib Lib.OrderedMap Lib.Locking LockManager Function List OptimisticLockGuard Adapter Pc
open Option
open TaggedPayload
open Cell

variable {V : Type*}

/-- The put the thread has carried out but not completed. -/
def Pc.applied : Pc V → Option (ℕ × V)
  | .putRemovingCold k v _ | .putReleasing k v _ => some (k, v)
  | _ => none

/-- What a step does to the clock and to the range the thread has claimed. -/
def ClockStep (boundary : Option (ℕ × Bool)) (c c' : EvictionClock)
    (r r' : Option ClaimedRange) : Prop :=
  (c' = c ∧ r' = r) ∨
    (∃ b range, boundary = some b ∧ r = none ∧ c.claim (some b) = some (range, c') ∧
      r' = some range) ∨
    ∃ range, r = some range ∧ c' = c.finish range.round ∧ r' = none

/-- What one step of a thread does. -/
structure StepSpec (cfg : Config) (ch : Choices V) (a : Adapter V) (pc : Pc V) (a' : Adapter V)
    (pc' : Pc V) (event : Option (Event V)) : Prop where
  effect : Effect wordPos a.world pc.held a'.world pc'.held
  knows : pc'.Knows cfg a'.world
  unmarked : a'.Unmarked
  clock : ClockStep ch.boundary a.clock a'.clock pc.range pc'.range
  /-- Only an evictor takes an entry out of the hot tree. -/
  hot : ∀ k, (a.cell k).hot ≠ none → (a'.cell k).hot = none → k ∈ pc.pending
  /-- The thread leaves a coherent cell behind when it gives its lock back. -/
  coherent : ∀ k, pc.held = some k → pc'.held = none → (a'.cell k).Coherent cfg.inclusive
  /-- Only puts change the value of a key. -/
  view : ∀ k, (∀ v, pc'.applied ≠ some (k, v)) → (∀ v, event ≠ some (.put k v)) →
    (a'.cell k).view = (a.cell k).view
  applied : ∀ k v, pc.applied = some (k, v) →
    event = some (.put k v) ∨ pc'.applied = some (k, v)
  put : ∀ k v, event = some (.put k v) → (a'.cell k).view = some v
  lookup : ∀ k res, event = some (.lookup k res) →
    (a.cell k).view = res ∧ pc.applied = none ∧ (pc.held = some k ∨ a.word k % 2 = 0)

/-- What a thread can assume when it makes a step. -/
structure Pc.Ready (cfg : Config) (a : Adapter V) (pc : Pc V) : Prop where
  knows : pc.Knows cfg a.world
  unmarked : a.Unmarked
  locked : ∀ k, pc.held = some k → a.word k % 2 = 1
  coherent : ∀ k, a.word k % 2 = 0 → (a.cell k).Coherent cfg.inclusive
  noWrap : ∀ k, a.word k + 1 < 2 ^ 64

lemma Pc.Ready.owned {cfg : Config} {a : Adapter V} {pc : Pc V} (h : pc.Ready cfg a) {k : ℕ}
    {g : OptimisticLockGuard} (hg : pc.owned = some (k, g)) :
    g = ⟨a.word k, .writeLocked⟩ ∧ pc.CellFact cfg (a.cell k) := h.knows.owned k g hg

namespace StepSpec

variable {cfg : Config} {ch : Choices V} {a a' : Adapter V} {pc pc' : Pc V} {k : ℕ}

/-! ## The four kinds of steps -/

/-- A step that leaves locks and cells alone. -/
lemma still (hworld : a'.world = a.world) (hunmarked : a'.Unmarked)
    (hclock : ClockStep ch.boundary a.clock a'.clock pc.range pc'.range)
    (hheld : pc'.held = pc.held) (happlied : pc'.applied = pc.applied)
    (hknows : pc'.Knows cfg a.world) : StepSpec cfg ch a pc a' pc' none := by
  have hcell : ∀ k, a'.cell k = a.cell k := fun k => congrFun (congrArg World.cell hworld) k
  refine ⟨?_, hworld ▸ hknows, hunmarked, hclock, fun k hk hk' => ?_, fun k hk hk' => ?_,
    fun k _ _ => by rw [hcell], fun k v hv => Or.inr (happlied.trans hv), by simp, by simp⟩
  · rw [hworld, hheld]
    exact .keep _
  · rw [hcell] at hk'
    exact absurd hk' hk
  · rw [hheld, hk] at hk'
    simp at hk'

lemma goOn (hready : pc.Ready cfg a) (hrange : pc'.range = pc.range)
    (hheld : pc'.held = pc.held) (happlied : pc'.applied = pc.applied)
    (hknows : pc'.Knows cfg a.world) : StepSpec cfg ch a pc a pc' none :=
  still rfl hready.unmarked (Or.inl ⟨rfl, hrange⟩) hheld happlied hknows

lemma acquire (hready : pc.Ready cfg a) (hword : a.word k % 2 = 0)
    (hrange : pc'.range = pc.range) (hheld : pc.held = none) (hheld' : pc'.held = some k)
    (happlied : pc.applied = none)
    (hknows : (∀ x ∈ pc.seen, x.Valid wordPos (a.setWord k (a.word k + 1)).world) →
      pc'.Knows cfg (a.setWord k (a.word k + 1)).world) :
    StepSpec cfg ch a pc (a.setWord k (u64 (a.word k + 1))) pc' none := by
  rw [u64_of_lt (hready.noWrap k)]
  have heffect : Effect wordPos a.world pc.held (a.setWord k (a.word k + 1)).world pc'.held := by
    rw [hheld, hheld']
    exact .acquire k hword
  refine ⟨heffect, hknows (fun x hx => heffect.valid hready.locked (hready.knows.seen x hx)),
    hready.unmarked, Or.inl ⟨rfl, hrange⟩, fun k hk hk' => absurd hk' hk, fun k hk => ?_,
    fun k _ _ => rfl, fun k v hv => ?_, by simp, by simp⟩
  · rw [hheld] at hk
    simp at hk
  · rw [happlied] at hv
    simp at hv

lemma release {g : OptimisticLockGuard} {event : Option (Event V)} (hready : pc.Ready cfg a)
    (howned : pc.owned = some (k, g)) (hrange : pc'.range = pc.range) (hheld' : pc'.held = none)
    (hcoherent : (a.cell k).Coherent cfg.inclusive)
    (hevent : (event = none ∧ pc.applied = none) ∨
      ∃ v, event = some (.put k v) ∧ pc.applied = some (k, v) ∧ (a.cell k).view = some v)
    (hknows : (∀ x ∈ pc.seen, x.Valid wordPos (a.setWord k (a.word k + 1)).world) →
      pc'.Knows cfg (a.setWord k (a.word k + 1)).world) :
    StepSpec cfg ch a pc (a.release k g) pc' event := by
  have hheld := held_of_owned howned
  have hrelease : a.release k g = a.setWord k (a.word k + 1) := by
    rw [(hready.knows.owned k g howned).1, Adapter.release, OptimisticLockTable.release,
      destroy_writeLocked]
    change a.setWord k (u64 (a.word k + 1)) = _
    rw [u64_of_lt (hready.noWrap k)]
  rw [hrelease]
  have heffect : Effect wordPos a.world pc.held (a.setWord k (a.word k + 1)).world pc'.held := by
    rw [hheld, hheld']
    exact .release k
  refine ⟨heffect, hknows (fun x hx => heffect.valid hready.locked (hready.knows.seen x hx)),
    hready.unmarked, Or.inl ⟨rfl, hrange⟩, fun k hk hk' => absurd hk' hk, fun k' hk' _ => ?_,
    fun k _ _ => rfl, fun k' v hv => ?_, fun k' v hv => ?_, fun k' res hres => ?_⟩
  · obtain rfl := some.inj (hheld.symm.trans hk')
    exact hcoherent
  · rcases hevent with ⟨-, hnone⟩ | ⟨v', rfl, hsome, -⟩
    · simp [hnone] at hv
    · obtain ⟨rfl, rfl⟩ : k = k' ∧ v' = v := by simpa using hsome.symm.trans hv
      exact Or.inl rfl
  · rcases hevent with ⟨rfl, -⟩ | ⟨v', rfl, -, hview⟩
    · simp at hv
    · obtain ⟨rfl, rfl⟩ : k = k' ∧ v' = v := by simpa using hv
      exact hview
  · rcases hevent with ⟨rfl, -⟩ | ⟨v', rfl, -, -⟩ <;> simp at hres

/-- A step that writes the cell of the key whose lock the thread owns. -/
lemma write {c : Cell V} (hready : pc.Ready cfg a) (hwrites : a.Writes k c a')
    (hrange : pc'.range = pc.range) (hheld : pc.held = some k) (hheld' : pc'.held = some k)
    (hview : c.view = (a.cell k).view ∧ pc.applied = none ∨ ∃ v, pc'.applied = some (k, v) ∧
      (pc.applied = none ∨ pc.applied = pc'.applied))
    (hhot : c.hot = none → (a.cell k).hot ≠ none → k ∈ pc.pending)
    (hknows : (∀ x ∈ pc.seen, x.Valid wordPos a'.world) → a'.cell k = c → a'.word k = a.word k →
      pc'.Knows cfg a'.world) : StepSpec cfg ch a pc a' pc' none := by
  have heffect : Effect wordPos a.world pc.held a'.world pc'.held := by
    rw [hheld, hheld', hwrites.world]
    exact .write k c
  have hself : a'.cell k = c := by rw [hwrites.cell_eq, update_self]
  have hother : ∀ b, b ≠ k → a'.cell b = a.cell b := fun b hb => by
    rw [hwrites.cell_eq, update_of_ne hb]
  have hword : a'.word k = a.word k := congrFun (congrArg World.word hwrites.world) (wordPos k)
  refine ⟨heffect,
    hknows (fun x hx => heffect.valid hready.locked (hready.knows.seen x hx)) hself hword,
    hwrites.unmarked hready.unmarked, Or.inl ⟨hwrites.clock, hrange⟩, fun b hb hb' => ?_,
    fun b _ hb' => ?_, fun b hb _ => ?_, fun b v hb => ?_, by simp, by simp⟩
  · rcases eq_or_ne b k with rfl | hne
    · rw [hself] at hb'
      exact hhot hb' hb
    · rw [hother b hne] at hb'
      exact absurd hb' hb
  · rw [hheld'] at hb'
    simp at hb'
  · rcases eq_or_ne b k with rfl | hne
    · rcases hview with ⟨hview, -⟩ | ⟨v, hv, -⟩
      · rw [hself, hview]
      · exact absurd hv (hb v)
    · rw [hother b hne]
  · rcases hview with ⟨-, hnone⟩ | ⟨v', hv', hnone | hsame⟩
    · simp [hnone] at hb
    · simp [hnone] at hb
    · exact Or.inr (hsame ▸ hb)

end StepSpec

namespace Pc

variable {cfg : Config} {ch : Choices V} {a : Adapter V} {w : World ℕ ℕ (Cell V)} {pc : Pc V}
  {e : Sweep V} {k key : ℕ} {v : V} {g : OptimisticLockGuard} {call : ThreadCall V} {res : Option V}
  {victim : Adapter.Victim V}

lemma forall_owned {P : ℕ → OptimisticLockGuard → Prop} (h : pc.owned = some (k, g))
    (hP : P k g) : ∀ k g, pc.owned = some (k, g) → P k g := by
  intro k' g' h'
  obtain ⟨rfl, rfl⟩ := Prod.mk.inj (some.inj (h.symm.trans h'))
  exact hP

/-- A thread that owns no lock, has read nothing and has nothing to evict. -/
lemma knows_of_nothing (howned : pc.owned = none) (hseen : pc.seen = [])
    (hpending : pc.pending = [])
    (hown : pc.OwnFact) : pc.Knows cfg w where
  owned := by simp [howned]
  seen := by simp [hseen]
  present := by simp [hpending]
  sorted := by simp [hpending]
  inRange := by simp [hpending]
  ownFact := hown

lemma knows_proceed (call : ThreadCall V) : call.proceed.Knows cfg w := by
  cases call <;> exact knows_of_nothing rfl rfl rfl trivial

lemma range_proceed (call : ThreadCall V) : call.proceed.range = none := by
  cases call <;> rfl

lemma held_proceed (call : ThreadCall V) : call.proceed.held = none := by
  cases call <;> rfl

lemma applied_proceed (call : ThreadCall V) : call.proceed.applied = none := by
  cases call <;> rfl

/-! ## Starting a call -/

lemma stepSpec_idle (hready : idle.Ready cfg a) (call : ThreadCall V) (pressure : Bool) :
    StepSpec cfg ch a .idle a (call.start pressure) none := by
  have hstart : call.start pressure = .entering call ∨ call.start pressure = call.proceed := by
    cases call <;> cases pressure <;> simp [ThreadCall.start]
  rcases hstart with h | h <;> rw [h]
  · exact .goOn hready rfl rfl rfl (knows_of_nothing rfl rfl rfl trivial)
  · exact .goOn hready (range_proceed call) (held_proceed call) (applied_proceed call)
      (knows_proceed call)

/-! ## The section and the scan of an eviction -/

lemma stepSpec_entering (hready : (entering call).Ready cfg a) :
    let out := evictStep cfg ch a (.entering call)
    StepSpec cfg ch a (.entering call) out.1 out.2.1 out.2.2 := by
  intro out
  rcases hclaim : a.clock.claim ch.boundary with _ | ⟨range, clock⟩
  · have hout : out = (a, call.proceed, none) := by simp [out, evictStep, hclaim]
    rw [hout]
    exact .goOn hready (range_proceed call) (held_proceed call) (applied_proceed call)
      (knows_proceed call)
  · have hout : out = ({ a with clock := clock }, .scanning ⟨call, range, []⟩ range.startKey,
        none) := by simp [out, evictStep, hclaim]
    rw [hout]
    obtain ⟨b, hb⟩ : ∃ b, ch.boundary = some b := by
      rcases hb : ch.boundary with _ | b
      · simp [EvictionClock.claim, hb] at hclaim
      · exact ⟨b, rfl⟩
    exact .still rfl hready.unmarked
      (Or.inr (Or.inl ⟨b, range, hb, rfl, hb ▸ hclaim, rfl⟩)) rfl rfl
      (knows_of_nothing rfl rfl rfl ⟨le_rfl, by simp [Sweep.keys]⟩)

lemma range_behind (e : Sweep V) (key : ℕ) : (e.behind key).range = some e.range := by
  unfold Sweep.behind
  split_ifs <;> rfl

lemma held_behind (e : Sweep V) (key : ℕ) : (e.behind key).held = none := by
  unfold Sweep.behind
  split_ifs <;> rfl

lemma applied_behind (e : Sweep V) (key : ℕ) : (e.behind key).applied = none := by
  unfold Sweep.behind
  split_ifs <;> rfl

/-- What the scan knows behind a record. -/
lemma knows_behind (hseen : ∀ x ∈ e.snapshots, x.Valid wordPos w)
    (hpresent : ∀ k ∈ e.keys, (w.cell k).hot ≠ none) (hsorted : e.keys.Pairwise (· < ·))
    (hrange : ∀ k ∈ e.keys, e.range.startKey ≤ k ∧ k ≤ e.range.endKey)
    (hkey : e.range.startKey ≤ key) (hlt : ∀ k ∈ e.keys, k ≤ key) :
    (e.behind key).Knows cfg w := by
  have hrange' : ∀ e', some e = some e' →
      ∀ k ∈ e.keys, e'.range.startKey ≤ k ∧ k ≤ e'.range.endKey := by
    rintro e' h
    obtain rfl := some.inj h
    exact hrange
  unfold Sweep.behind
  split_ifs
  · exact ⟨by simp [owned], hseen, hpresent, hsorted, hrange', trivial⟩
  · exact ⟨by simp [owned], hseen, hpresent, hsorted, hrange',
      by omega, fun k hk => Nat.lt_succ_of_le (hlt k hk)⟩

lemma stepSpec_scanning {cursor : ℕ} (hready : (scanning e cursor).Ready cfg a) :
    let out := evictStep cfg ch a (.scanning e cursor)
    StepSpec cfg ch a (.scanning e cursor) out.1 out.2.1 out.2.2 := by
  have hknows := hready.knows
  obtain ⟨hcursor, hbefore⟩ := hknows.ownFact
  have hevicting : (evicting e).Knows cfg a.world :=
    ⟨by simp [owned], hknows.seen, hknows.present, hknows.sorted, hknows.inRange, trivial⟩
  rcases hnext : (scanFrom a.hotBtree cursor).head? with _ | ⟨key, r⟩
  · simp only [evictStep, scanStep, hnext]
    exact .goOn hready rfl rfl rfl hevicting
  obtain ⟨hle, hr⟩ := mem_scanFrom.1 (mem_of_head? hnext)
  simp only [evictStep, scanStep, hnext]
  by_cases hend : key > e.range.endKey
  · simp only [hend, if_true]
    exact .goOn hready rfl rfl rfl hevicting
  have hrange : e.range.startKey ≤ key ∧ key ≤ e.range.endKey := by omega
  have hlt : ∀ k ∈ e.keys, k < key := fun k hk => (hbefore k hk).trans_le hle
  simp only [hend, if_false]
  split_ifs
  · have hwrites := writes_bookkeeping hready.unmarked hr
      (f := fun tp => tp.decReferenceCount.clearReferenced)
      (fun tp => by simp [data])
    exact .still hwrites.world_of_eq (hwrites.unmarked hready.unmarked)
      (Or.inl ⟨rfl, range_behind e key⟩) (held_behind e key) (applied_behind e key)
      (knows_behind hknows.seen hknows.present hknows.sorted (hknows.inRange e rfl) hrange.1
        (fun k hk => (hlt k hk).le))
  · have hwrites := writes_bookkeeping hready.unmarked hr
      (f := decReferenceCount) (fun tp => by simp [data])
    obtain ⟨tp, -, hhot⟩ := hready.unmarked.tagged hr
    refine .still hwrites.world_of_eq (hwrites.unmarked hready.unmarked) (Or.inl ⟨rfl, rfl⟩)
      rfl rfl ⟨by simp [owned], hknows.seen, ?_, ?_, ?_, trivial⟩
    · intro k hk
      rcases mem_append.1 hk with hk | hk
      · exact hknows.present k hk
      · obtain rfl := mem_singleton.1 hk
        simp [hhot]
    · exact pairwise_append.2 ⟨hknows.sorted, pairwise_singleton _ _,
        fun k hk k' hk' => mem_singleton.1 hk' ▸ hlt k hk⟩
    · rintro e' he' k hk
      obtain rfl := some.inj he'
      rcases mem_append.1 hk with hk | hk
      · exact hknows.inRange e rfl k hk
      · obtain rfl := mem_singleton.1 hk
        exact hrange

/-- What an evictor knows of the victims it had before the record of `key`. -/
lemma Knows.behind_of_append (h : pc.Knows cfg w) (hsweep : pc.sweep = some e)
    (hseen : ∀ x ∈ e.snapshots, x ∈ pc.seen) (hpending : pc.pending = e.keys ++ [key]) :
    (e.behind key).Knows cfg w := by
  have hmem : ∀ k ∈ e.keys, k ∈ pc.pending := fun k hk => by
    rw [hpending]
    exact mem_append_left _ hk
  have hsorted := h.sorted
  rw [hpending] at hsorted
  obtain ⟨hkeys, -, hlt⟩ := pairwise_append.1 hsorted
  exact knows_behind (fun x hx => h.seen x (hseen x hx)) (fun k hk => h.present k (hmem k hk))
    hkeys (fun k hk => h.inRange e hsweep k (hmem k hk))
    (h.inRange e hsweep key (by rw [hpending]; simp)).1
    (fun k hk => (hlt k hk key (by simp)).le)

lemma stepSpec_reading (hready : (reading e key).Ready cfg a) :
    let out := evictStep cfg ch a (.reading e key)
    StepSpec cfg ch a (.reading e key) out.1 out.2.1 out.2.2 := by
  have hknows := hready.knows
  by_cases heven : a.word key % 2 = 0
  · simp only [evictStep, readLock_of_even _ heven, if_true]
    refine .goOn hready rfl rfl rfl ⟨by simp [owned], fun x hx => ?_, hknows.present,
      hknows.sorted, hknows.inRange, trivial⟩
    rcases mem_cons.1 hx with rfl | hx
    · exact ⟨heven, le_rfl, fun _ => trivial⟩
    · exact hknows.seen x hx
  · have hodd : a.word key % 2 = 1 := by omega
    simp only [evictStep, readLock_of_odd _ hodd]
    exact .goOn hready (range_behind e key) (held_behind e key) (applied_behind e key)
      (hknows.behind_of_append rfl (fun x hx => hx) rfl)

lemma stepSpec_copying {version : ℕ} (hready : (copying e key version).Ready cfg a) :
    let out := evictStep cfg ch a (.copying e key version)
    StepSpec cfg ch a (.copying e key version) out.1 out.2.1 out.2.2 := by
  have hknows := hready.knows
  have hkeep : ∀ x ∈ e.snapshots, x ∈ (copying e key version).seen :=
    fun x hx => mem_cons_of_mem _ hx
  rcases hr : a.hotBtree[key]? with _ | r
  · simp only [evictStep, hr]
    exact .goOn hready (range_behind e key) (held_behind e key) (applied_behind e key)
      (hknows.behind_of_append rfl hkeep rfl)
  obtain ⟨tp, rfl, hhot⟩ := hready.unmarked.tagged hr
  simp only [evictStep, hr, HotRecord.asTagged]
  set e' : Sweep V := { e with victims := e.victims ++ [⟨key, tp, version⟩] } with he'
  have hkeys : e'.keys = e.keys ++ [key] := by simp [he', Sweep.keys]
  refine .goOn hready (range_behind e' key) (held_behind e' key) (applied_behind e' key)
    (knows_behind (fun x hx => ?_) ?_ ?_ ?_ (hknows.inRange e rfl key (by simp [pending])).1 ?_)
  · have hsnap : x ∈ e.snapshots ∨ x = Adapter.Victim.snapshot ⟨key, tp, version⟩ := by
      simpa [he', Sweep.snapshots] using hx
    rcases hsnap with hx | rfl
    · exact hknows.seen x (hkeep x hx)
    · exact (hknows.seen ⟨key, version, fun _ => True⟩ (by simp [seen])).learn
        (fun _ _ => hhot)
  · rw [hkeys]
    exact hknows.present
  · rw [hkeys]
    exact hknows.sorted
  · rw [hkeys]
    exact hknows.inRange e rfl
  · rw [hkeys]
    obtain ⟨-, -, hlt⟩ := pairwise_append.1 hknows.sorted
    intro k hk
    rcases mem_append.1 hk with hk | hk
    · exact (hlt k hk key (by simp)).le
    · exact (mem_singleton.1 hk).le

/-! ## The eviction loop -/

lemma stepSpec_evicting (hready : (evicting e).Ready cfg a) :
    let out := evictStep cfg ch a (.evicting e)
    StepSpec cfg ch a (.evicting e) out.1 out.2.1 out.2.2 := by
  have hknows := hready.knows
  obtain ⟨call, range, _ | ⟨victim, rest⟩⟩ := e
  · exact .goOn hready rfl rfl rfl (knows_of_nothing rfl rfl rfl trivial)
  have hrange := hknows.inRange _ rfl
  by_cases heven : a.word victim.key % 2 = 0
  · have hne : a.word victim.key % 2 ≠ 1 := by omega
    simp only [evictStep, writeLockLoad, hne, ne_eq, not_false_eq_true,
      decide_true, if_true]
    refine .goOn hready rfl rfl rfl ⟨by simp [owned], fun x hx => ?_, hknows.present,
      hknows.sorted, fun e' he' => some.inj he' ▸ hrange, trivial⟩
    rcases mem_cons.1 hx with rfl | hx
    · exact ⟨heven, le_rfl, fun _ => trivial⟩
    · exact hknows.seen x hx
  · have hodd : a.word victim.key % 2 = 1 := by omega
    simp only [evictStep, writeLockLoad, hodd, ne_eq, not_true_eq_false,
      decide_false, Bool.false_eq_true, if_false]
    exact .goOn hready rfl rfl rfl ⟨by simp [owned],
      fun x hx => hknows.seen x (mem_cons_of_mem _ hx),
      fun k hk => hknows.present k (mem_cons_of_mem _ hk),
      (pairwise_cons.1 hknows.sorted).2,
      fun e' he' k hk => some.inj he' ▸ hrange k (mem_cons_of_mem _ hk), trivial⟩

/-- A victim that was locked by nobody since the scan. -/
lemma eq_of_not_moreThanOneWriterSince {v version : ℕ} (hle : version ≤ v) (hv : v + 1 < 2 ^ 64)
    (h : moreThanOneWriterSince ⟨v + 1, .writeLocked⟩ version = false) :
    v = version := by
  simp only [moreThanOneWriterSince, u64Sub, gt_iff_lt,
    decide_eq_false_iff_not, Nat.not_lt] at h
  omega

lemma setWord_self (a : Adapter V) (k : ℕ) : a.setWord k (a.word k) = a := by
  simp [setWord, OptimisticLockTable.setWord, word, OptimisticLockTable.word]

lemma stepSpec_locking (hready : (locking e victim g).Ready cfg a) :
    let out := evictStep cfg ch a (.locking e victim g)
    StepSpec cfg ch a (.locking e victim g) out.1 out.2.1 out.2.2 := by
  have hknows := hready.knows
  have hversion := hknows.seen ⟨victim.key, g.version, fun _ => True⟩ (by simp [seen])
  have hsnapshot := hknows.seen victim.snapshot (by simp [seen])
  have hrest : ∀ x ∈ e.snapshots, x ∈ (locking e victim g).seen :=
    fun x hx => mem_cons_of_mem _ (mem_cons_of_mem _ hx)
  by_cases hcas : a.word victim.key = g.version
  · have heven : a.word victim.key % 2 = 0 := hcas ▸ hversion.even
    have hwrap := hready.noWrap victim.key
    have hcoherent := hready.coherent _ heven
    have hguard : (⟨u64 (a.word victim.key + 1), .writeLocked⟩ : OptimisticLockGuard) =
        ⟨(a.setWord victim.key (a.word victim.key + 1)).word victim.key, .writeLocked⟩ := by
      rw [word_setWord, u64_of_lt hwrap]
    simp only [evictStep, writeLockCas, acquire_of_eq hcas,
      if_true]
    rw [← hcas]
    split_ifs with hwriters
    · exact .acquire hready heven rfl rfl rfl rfl (fun hseen =>
        ⟨forall_owned rfl ⟨hguard, hcoherent, hknows.present _ (by simp [pending])⟩,
          fun x hx => hseen x (hrest x hx), hknows.present, hknows.sorted, hknows.inRange, trivial⟩)
    -- nobody else has held the lock since the scan, so the copy is what the hot tree holds
    have hsame : a.word victim.key = victim.lockVersion := by
      rw [u64_of_lt hwrap] at hwriters
      exact eq_of_not_moreThanOneWriterSince hsnapshot.le hwrap (Bool.eq_false_iff.2 hwriters)
    exact .acquire hready heven rfl rfl rfl rfl (fun hseen =>
      ⟨forall_owned rfl ⟨hguard, hcoherent, hsnapshot.fact_of_eq hsame⟩,
        fun x hx => hseen x (hrest x hx), hknows.present, hknows.sorted, hknows.inRange, trivial⟩)
  · simp only [evictStep, writeLockCas, acquire_of_ne hcas,
      Bool.false_eq_true, if_false, setWord_self]
    exact .goOn hready rfl rfl rfl ⟨by simp [owned], fun x hx => hknows.seen x (hrest x hx),
      fun k hk => hknows.present k (mem_cons_of_mem _ hk),
      (pairwise_cons.1 hknows.sorted).2,
      fun e' he' k hk => hknows.inRange e' he' k (mem_cons_of_mem _ hk), trivial⟩

lemma stepSpec_rereading (hready : (rereading e victim g).Ready cfg a) :
    let out := evictStep cfg ch a (.rereading e victim g)
    StepSpec cfg ch a (.rereading e victim g) out.1 out.2.1 out.2.2 := by
  have hknows := hready.knows
  obtain ⟨hg, hcoherent, hpresent⟩ := hready.owned rfl
  rcases hr : a.hotBtree[victim.key]? with _ | r
  · exact absurd (hready.unmarked.hot_eq_none_iff.2 hr) hpresent
  · obtain ⟨tp, rfl, hhot⟩ := hready.unmarked.tagged hr
    simp only [evictStep, hr, HotRecord.asTagged]
    exact .goOn hready rfl rfl rfl ⟨forall_owned rfl ⟨hg, hcoherent, hhot⟩, hknows.seen,
      hknows.present, hknows.sorted, hknows.inRange, trivial⟩

/-- What the write-back of a coherent entry leaves in the cold tree. -/
lemma demoted_of_coherent {inclusive : Bool} {c : Cell V} {d : V × Bool}
    (hc : c.Coherent inclusive) (hhot : c.hot = some d) :
    demoted inclusive d c.cold = some d.1 := by
  have hview := view_demote hc
  have hcell : c = ⟨some d, c.cold⟩ := Cell.ext hhot rfl
  rw [hcell, demote_some] at hview
  exact hview

lemma stepSpec_writingBack (hready : (writingBack e victim g).Ready cfg a) :
    StepSpec cfg ch a (.writingBack e victim g)
      (writeBack cfg a victim.key victim.payload) (.removingHot e victim.key g) none := by
  have hknows := hready.knows
  obtain ⟨hg, hcoherent, hhot⟩ := hready.owned rfl
  have hwrites := writes_writeBack cfg hready.unmarked victim.key victim.payload
  rw [demoted_of_coherent hcoherent hhot, hhot] at hwrites
  refine .write hready hwrites rfl rfl rfl (Or.inl ⟨(view_of_hot hhot).symm, rfl⟩) (by simp)
    (fun hseen hcell hword => ⟨forall_owned rfl ⟨hg.trans (by rw [← hword]; rfl), _, hcell⟩, hseen,
      fun k hk => ?_, hknows.sorted, hknows.inRange, trivial⟩)
  rw [cell_world, hwrites.cell_eq]
  rcases eq_or_ne k victim.key with rfl | hne
  · simp
  · rw [update_of_ne hne]
    exact hknows.present k hk

lemma stepSpec_removingHot (hready : (removingHot e key g).Ready cfg a) :
    StepSpec cfg ch a (.removingHot e key g) (a.removeHot key) (.releasing e key g) none := by
  have hknows := hready.knows
  obtain ⟨hg, d, hcell⟩ := hready.owned rfl
  have hwrites := writes_removeHot a key
  obtain ⟨hlt, hsorted⟩ := pairwise_cons.1 hknows.sorted
  refine .write hready hwrites rfl rfl rfl (Or.inl ⟨by simp [hcell], rfl⟩)
    (fun _ _ => by simp [pending])
    (fun hseen hcell' hword => ⟨forall_owned rfl ⟨hg.trans (by rw [← hword]; rfl), ?_⟩, hseen,
      fun k hk => ?_, hsorted,
      fun e' he' k hk => hknows.inRange e' he' k (mem_cons_of_mem _ hk), trivial⟩)
  · rw [cell_world, hcell']
    exact coherent_of_hot_none rfl
  · rw [cell_world, hwrites.cell_eq, update_of_ne (hlt k hk).ne']
    exact hknows.present k (mem_cons_of_mem _ hk)

lemma stepSpec_releasing (hready : (releasing e key g).Ready cfg a) :
    StepSpec cfg ch a (.releasing e key g) (a.release key g) (.evicting e) none := by
  have hknows := hready.knows
  exact .release hready rfl rfl rfl (hready.owned rfl).2 (Or.inl ⟨rfl, rfl⟩)
    (fun hseen => ⟨by simp [owned], hseen, hknows.present, hknows.sorted, hknows.inRange, trivial⟩)

lemma stepSpec_leaving (hready : (leaving e).Ready cfg a) :
    StepSpec cfg ch a (.leaving e) { a with clock := a.clock.finish e.range.round }
      e.call.proceed none :=
  .still rfl hready.unmarked (Or.inr (Or.inr ⟨e.range, rfl, rfl, range_proceed e.call⟩))
    (held_proceed e.call) (applied_proceed e.call) (knows_proceed e.call)

/-! ## Lookup -/

/-- A thread that owns no lock, has nothing to evict and has read one cell. -/
lemma knows_of_snapshot {x : Snapshot ℕ (Cell V)} (howned : pc.owned = none)
    (hseen : pc.seen = [x]) (hpending : pc.pending = []) (hown : pc.OwnFact)
    (hx : x.Valid wordPos w) : pc.Knows cfg w where
  owned := by simp [howned]
  seen := by simpa [hseen] using hx
  present := by simp [hpending]
  sorted := by simp [hpending]
  inRange := by simp [hpending]
  ownFact := hown

/-- A thread that owns the lock of `k` and knows nothing else. -/
lemma knows_of_owned (howned : pc.owned = some (k, g)) (hseen : pc.seen = [])
    (hpending : pc.pending = []) (hown : pc.OwnFact)
    (hg : g = ⟨w.word (wordPos k), .writeLocked⟩) (hfact : pc.CellFact cfg (w.cell k)) :
    pc.Knows cfg w where
  owned := forall_owned howned ⟨hg, hfact⟩
  seen := by simp [hseen]
  present := by simp [hpending]
  sorted := by simp [hpending]
  inRange := by simp [hpending]
  ownFact := hown

lemma stepSpec_lookupLock (hready : (lookupLock k).Ready cfg a) :
    let out := lookupStep cfg ch a (.lookupLock k)
    StepSpec cfg ch a (.lookupLock k) out.1 out.2.1 out.2.2 := by
  by_cases heven : a.word k % 2 = 0
  · simp only [lookupStep, readLock_of_even _ heven, if_true]
    exact .goOn hready rfl rfl rfl (knows_of_snapshot rfl rfl rfl (by simp [OwnFact])
      ⟨heven, le_rfl, fun _ => trivial⟩)
  · have hodd : a.word k % 2 = 1 := by omega
    simp only [lookupStep, readLock_of_odd _ hodd]
    exact .goOn hready rfl rfl rfl hready.knows

/-- A reader that does not own the lock and is about to validate its result. -/
lemma knows_validating (hstate : g.state ≠ .writeLocked)
    (hx : Snapshot.Valid wordPos w ⟨k, g.version, fun c : Cell V => c.view = res⟩) :
    (validating k g res).Knows cfg w :=
  knows_of_snapshot (by simp [owned, hstate]) (by simp [seen, hstate]) rfl trivial hx

lemma held_validating (hstate : g.state ≠ .writeLocked) :
    (validating k g res).held = none := by
  simp [held, owned, hstate]

lemma stepSpec_hotLookup (hready : (hotLookup k g).Ready cfg a) :
    let out := lookupStep cfg ch a (.hotLookup k g)
    StepSpec cfg ch a (.hotLookup k g) out.1 out.2.1 out.2.2 := by
  have hstate : g.state ≠ .writeLocked := hready.knows.ownFact
  have hversion := hready.knows.seen ⟨k, g.version, fun _ => True⟩ (by simp [seen])
  rcases hr : a.hotBtree[k]? with _ | r
  · simp only [lookupStep, hr]
    exact .goOn hready rfl rfl rfl (knows_of_snapshot rfl rfl rfl hstate
      (hversion.learn (fun _ _ => hready.unmarked.hot_eq_none_iff.2 hr)))
  obtain ⟨tp, rfl, hhot⟩ := hready.unmarked.tagged hr
  simp only [lookupStep, hr]
  have hwrites := writes_bookkeeping hready.unmarked hr data_touch
  exact .still hwrites.world_of_eq (hwrites.unmarked hready.unmarked) (Or.inl ⟨rfl, rfl⟩)
    (held_validating hstate) rfl
    (knows_validating hstate (hversion.learn (fun _ _ => view_of_hot hhot)))

lemma stepSpec_coldLookup (hready : (coldLookup k g).Ready cfg a) :
    let out := lookupStep cfg ch a (.coldLookup k g)
    StepSpec cfg ch a (.coldLookup k g) out.1 out.2.1 out.2.2 := by
  have hstate : g.state ≠ .writeLocked := hready.knows.ownFact
  have hmiss := hready.knows.seen ⟨k, g.version, fun c => c.hot = none⟩ (by simp [seen])
  -- as long as the word has not advanced, the value is what the cold tree holds
  have hview : Snapshot.Valid wordPos a.world
      ⟨k, g.version, fun c : Cell V => c.view = a.coldBtree[k]?⟩ :=
    hmiss.learn (fun _ hhot => view_of_hot_none hhot)
  rcases hcold : a.coldBtree[k]? with _ | v
  · simp only [lookupStep, hcold]
    exact .goOn hready rfl (held_validating hstate) rfl (knows_validating hstate (hcold ▸ hview))
  simp only [lookupStep, hcold]
  split_ifs
  · exact .goOn hready rfl rfl rfl (knows_of_snapshot rfl rfl rfl hstate
      (hmiss.learn (fun _ hhot => Cell.ext hhot hcold)))
  · exact .goOn hready rfl (held_validating hstate) rfl
      (knows_validating hstate (hcold ▸ hview))

lemma stepSpec_upgrading (hready : (upgrading k g v).Ready cfg a) :
    let out := lookupStep cfg ch a (.upgrading k g v)
    StepSpec cfg ch a (.upgrading k g v) out.1 out.2.1 out.2.2 := by
  have hstate : g.state ≠ .writeLocked := hready.knows.ownFact
  have hcell := hready.knows.seen ⟨k, g.version, fun c => c = ⟨none, some v⟩⟩ (by simp [seen])
  by_cases hcas : a.word k = g.version
  · simp only [lookupStep, upgradeToWriteLock,
      acquire_of_eq hcas, if_true]
    rw [← hcas]
    refine .acquire hready (hcas ▸ hcell.even) rfl rfl rfl rfl (fun _ =>
      knows_of_owned rfl rfl rfl trivial ?_ (hcell.fact_of_eq hcas))
    rw [word_world, word_setWord, u64_of_lt (hready.noWrap k)]
  · simp only [lookupStep, upgradeToWriteLock,
      acquire_of_ne hcas, Bool.false_eq_true, if_false, setWord_self]
    exact .goOn hready rfl (held_validating hstate) rfl
      (knows_validating hstate (hcell.learn (fun heq => absurd heq hcas)))

/-- A lookup that owns the lock and is about to validate its result. -/
lemma knows_validating_owned (hg : g = ⟨w.word (wordPos k), .writeLocked⟩)
    (hcoherent : (w.cell k).Coherent cfg.inclusive) (hview : (w.cell k).view = res) :
    (validating k g res).Knows cfg w := by
  have hstate : g.state = .writeLocked := by rw [hg]
  exact knows_of_owned (by rw [owned, if_pos hstate]) (by rw [seen, if_pos hstate]) rfl trivial hg
    ⟨hcoherent, hview⟩

lemma held_validating_owned (hg : g = ⟨a.word k, .writeLocked⟩) :
    (validating k g res).held = some k := by
  simp [held, owned, hg]

lemma stepSpec_admitting (hready : (admitting k g v).Ready cfg a) :
    let out := lookupStep cfg ch a (.admitting k g v)
    StepSpec cfg ch a (.admitting k g v) out.1 out.2.1 out.2.2 := by
  obtain ⟨hg, hcell⟩ := hready.owned rfl
  have hmiss : a.hotBtree[k]? = none := hready.unmarked.hot_eq_none_iff.1 (by rw [hcell])
  obtain ⟨admitted, hup⟩ := migrateUp_of_none ch hmiss v
  cases admitted with
  | false =>
    simp only [lookupStep, hup, Bool.and_false, Bool.false_eq_true, if_false]
    refine .goOn hready rfl (held_validating_owned hg) rfl (knows_validating_owned hg ?_ ?_) <;>
      rw [cell_world, hcell]
    · exact coherent_of_hot_none rfl
    · rfl
  | true =>
    have hwrites := writes_admitElement hmiss v false false
    rw [hcell] at hwrites
    simp only [lookupStep, hup, Bool.and_true, if_true]
    cases hinc : cfg.inclusive with
    | false =>
      simp only [Bool.not_false, if_true]
      exact .write hready hwrites rfl rfl rfl (Or.inl ⟨by rw [hcell]; rfl, rfl⟩) (by simp)
        (fun _ hcell' hword => knows_of_owned rfl rfl rfl trivial
          (hg.trans (by rw [← hword]; rfl)) ⟨hinc, hcell'⟩)
    | true =>
      simp only [Bool.not_true, Bool.false_eq_true, if_false]
      refine .write hready hwrites rfl rfl (held_validating_owned hg)
        (Or.inl ⟨by rw [hcell]; rfl, rfl⟩) (by simp) (fun _ hcell' hword =>
          knows_validating_owned (hg.trans (by rw [← hword]; rfl)) ?_ ?_) <;>
        rw [cell_world, hcell']
      · exact hinc ▸ coherent_inclusive_some.2 (fun _ => rfl)
      · rfl

lemma stepSpec_removingCold (hready : (removingCold k g v).Ready cfg a) :
    StepSpec cfg ch a (.removingCold k g v) (a.removeCold k) (.validating k g (some v)) none := by
  obtain ⟨hg, hexclusive, hcell⟩ := hready.owned rfl
  have hwrites := writes_removeCold hready.unmarked k
  rw [hcell] at hwrites
  refine .write hready hwrites rfl rfl (held_validating_owned hg)
    (Or.inl ⟨by rw [hcell]; rfl, rfl⟩) (by simp) (fun _ hcell' hword =>
      knows_validating_owned (hg.trans (by rw [← hword]; rfl)) ?_ ?_) <;>
    rw [cell_world, hcell']
  · exact hexclusive ▸ coherent_exclusive_some.2 rfl
  · rfl

/-- What a reader knows once it has compared the word with its version. -/
lemma knows_unguarding {valid : Bool}
    (h : (validating k g res).Knows cfg w) : (unguarding k g valid).Knows cfg w where
  owned := fun k' g' hg' => by
    obtain ⟨hg, hcoherent, -⟩ := h.owned k' g' hg'
    exact ⟨hg, hcoherent⟩
  seen := by simp [seen]
  present := by simp [pending]
  sorted := by simp [pending]
  inRange := by simp [pending]
  ownFact := trivial

/-- A lookup that validates its result returns the value of the key, at a moment at which nobody
else owns the lock. -/
lemma stepSpec_validating (hready : (validating k g res).Ready cfg a) :
    let out := lookupStep cfg ch a (.validating k g res)
    StepSpec cfg ch a (.validating k g res) out.1 out.2.1 out.2.2 := by
  have hgoOn : ∀ valid, StepSpec cfg ch a (.validating k g res) a (.unguarding k g valid) none :=
    fun valid => .goOn hready rfl rfl rfl (knows_unguarding hready.knows)
  by_cases hvalid : a.word k = g.version
  · have hlookup : (a.cell k).view = res ∧
        ((validating k g res).held = some k ∨ a.word k % 2 = 0) := by
      by_cases hstate : g.state = .writeLocked
      · have howned : (validating k g res).owned = some (k, g) := by simp [owned, hstate]
        exact ⟨(hready.owned howned).2.2, Or.inl (held_of_owned howned)⟩
      · have hx := hready.knows.seen ⟨k, g.version, fun c => c.view = res⟩
          (by simp [seen, hstate])
        exact ⟨hx.fact_of_eq hvalid, Or.inr (hvalid ▸ hx.even)⟩
    simp only [lookupStep, validate, hvalid, beq_self_eq_true, if_true]
    exact { hgoOn true with
      view := fun _ _ _ => rfl
      applied := by simp [applied]
      put := by simp
      lookup := fun k' res' hevent => by
        obtain ⟨rfl, rfl⟩ : k = k' ∧ res = res' := by simpa using hevent
        exact ⟨hlookup.1, rfl, hlookup.2⟩ }
  · simp only [lookupStep, validate, beq_iff_eq, hvalid, if_false]
    exact hgoOn false

lemma stepSpec_unguarding {valid : Bool} (hready : (unguarding k g valid).Ready cfg a) :
    StepSpec cfg ch a (.unguarding k g valid) (a.release k g)
      (if valid then .idle else .lookupLock k) none := by
  have hknows : ∀ w : World ℕ ℕ (Cell V),
      (if valid then .idle else .lookupLock k : Pc V).Knows cfg w := by
    intro w
    split_ifs <;> exact knows_of_nothing rfl rfl rfl trivial
  have hrange : (if valid then .idle else .lookupLock k : Pc V).range = none := by
    split_ifs <;> rfl
  have hheld : (if valid then .idle else .lookupLock k : Pc V).held = none := by
    split_ifs <;> rfl
  have happlied : (if valid then .idle else .lookupLock k : Pc V).applied = none := by
    split_ifs <;> rfl
  by_cases hstate : g.state = .writeLocked
  · have howned : (unguarding k g valid : Pc V).owned = some (k, g) := by simp [owned, hstate]
    exact .release hready howned hrange hheld (hready.owned howned).2 (Or.inl ⟨rfl, rfl⟩)
      (fun _ => hknows _)
  have hsame : a.release k g = a := by
    simp [release, OptimisticLockTable.release, destroy, hstate,
      OptimisticLockTable.setWord, OptimisticLockTable.word]
  rw [hsame]
  exact .goOn hready hrange (hheld.trans (by simp [held, owned, hstate])) happlied (hknows _)

/-! ## Put -/

lemma stepSpec_putLock (hready : (putLock k v).Ready cfg a) :
    let out := putStep cfg a (.putLock k v)
    StepSpec cfg ch a (.putLock k v) out.1 out.2.1 out.2.2 := by
  by_cases heven : a.word k % 2 = 0
  · have hne : a.word k % 2 ≠ 1 := by omega
    simp only [putStep, writeLockLoad, hne, ne_eq, not_false_eq_true,
      decide_true, if_true]
    exact .goOn hready rfl rfl rfl (knows_of_snapshot rfl rfl rfl trivial
      ⟨heven, le_rfl, fun _ => trivial⟩)
  · have hodd : a.word k % 2 = 1 := by omega
    simp only [putStep, writeLockLoad, hodd, ne_eq, not_true_eq_false,
      decide_false, Bool.false_eq_true, if_false]
    exact .goOn hready rfl rfl rfl hready.knows

lemma stepSpec_putCas (hready : (putCas k v g).Ready cfg a) :
    let out := putStep cfg a (.putCas k v g)
    StepSpec cfg ch a (.putCas k v g) out.1 out.2.1 out.2.2 := by
  have hversion := hready.knows.seen ⟨k, g.version, fun _ => True⟩ (by simp [seen])
  by_cases hcas : a.word k = g.version
  · have heven : a.word k % 2 = 0 := hcas ▸ hversion.even
    simp only [putStep, writeLockCas, acquire_of_eq hcas,
      if_true]
    rw [← hcas]
    refine .acquire hready heven rfl rfl rfl rfl (fun _ =>
      knows_of_owned rfl rfl rfl trivial ?_ (hready.coherent k heven))
    rw [word_world, word_setWord, u64_of_lt (hready.noWrap k)]
  · simp only [putStep, writeLockCas, acquire_of_ne hcas,
      Bool.false_eq_true, if_false, setWord_self]
    exact .goOn hready rfl rfl rfl (knows_of_nothing rfl rfl rfl trivial)

lemma coherent_overwrite {inclusive : Bool} {c : Cell V} {d : V × Bool}
    (hc : c.Coherent inclusive) (hhot : c.hot = some d) (v : V) :
    (⟨some (v, true), c.cold⟩ : Cell V).Coherent inclusive := by
  have hput := put_of_coherent hc v
  simp only [Cell.put, hhot] at hput
  rw [hput]
  exact coherent_write inclusive v c

lemma stepSpec_putting (hready : (putting k v g).Ready cfg a) :
    let out := putStep cfg a (.putting k v g)
    StepSpec cfg ch a (.putting k v g) out.1 out.2.1 out.2.2 := by
  obtain ⟨hg, hcoherent⟩ := hready.owned rfl
  rcases hr : a.hotBtree[k]? with _ | r
  · simp only [putStep, updateInPlace_of_none hr]
    exact .goOn hready rfl rfl rfl (knows_of_owned rfl rfl rfl trivial hg
      ⟨hcoherent, hready.unmarked.hot_eq_none_iff.2 hr⟩)
  obtain ⟨tp, rfl, hhot⟩ := hready.unmarked.tagged hr
  simp only [putStep, updateInPlace_of_some hr, HotRecord.mapTagged]
  have hwrites := writes_insert a k (tp.overwrite v)
  rw [data_overwrite] at hwrites
  refine .write hready hwrites rfl rfl rfl (Or.inr ⟨v, rfl, Or.inl rfl⟩) (by simp)
    (fun _ hcell' hword => knows_of_owned rfl rfl rfl trivial
      (hg.trans (by rw [← hword]; rfl)) ?_)
  rw [cell_world, hcell']
  exact ⟨coherent_overwrite hcoherent hhot v, rfl⟩

lemma stepSpec_putAdmitting (hready : (putAdmitting k v g).Ready cfg a) :
    StepSpec cfg ch a (.putAdmitting k v g) (a.admitElement k v true false)
      (if cfg.inclusive then .putReleasing k v g else .putRemovingCold k v g) none := by
  obtain ⟨hg, -, hhot⟩ := hready.owned rfl
  have hwrites := writes_admitElement (hready.unmarked.hot_eq_none_iff.1 hhot) v true false
  cases hinc : cfg.inclusive with
  | true =>
    refine .write hready hwrites rfl rfl rfl (Or.inr ⟨v, rfl, Or.inl rfl⟩) (by simp)
      (fun _ hcell' hword => knows_of_owned rfl rfl rfl trivial
        (hg.trans (by rw [← hword]; rfl)) ?_)
    rw [cell_world, hcell']
    refine ⟨?_, rfl⟩
    rw [hinc]
    exact coherent_inclusive_some.2 (by simp)
  | false =>
    refine .write hready hwrites rfl rfl rfl (Or.inr ⟨v, rfl, Or.inl rfl⟩) (by simp)
      (fun _ hcell' hword => knows_of_owned rfl rfl rfl trivial
        (hg.trans (by rw [← hword]; rfl)) ?_)
    rw [cell_world, hcell']
    exact ⟨hinc, rfl⟩

lemma stepSpec_putRemovingCold (hready : (putRemovingCold k v g).Ready cfg a) :
    StepSpec cfg ch a (.putRemovingCold k v g) (a.removeCold k) (.putReleasing k v g) none := by
  obtain ⟨hg, hexclusive, hhot⟩ := hready.owned rfl
  have hwrites := writes_removeCold hready.unmarked k
  rw [hhot] at hwrites
  refine .write hready hwrites rfl rfl rfl (Or.inr ⟨v, rfl, Or.inr rfl⟩) (by simp)
    (fun _ hcell' hword => knows_of_owned rfl rfl rfl trivial
      (hg.trans (by rw [← hword]; rfl)) ?_)
  rw [cell_world, hcell']
  exact ⟨hexclusive ▸ coherent_exclusive_some.2 rfl, rfl⟩

lemma stepSpec_putReleasing (hready : (putReleasing k v g).Ready cfg a) :
    StepSpec cfg ch a (.putReleasing k v g) (a.release k g) .idle (some (.put k v)) := by
  obtain ⟨-, hcoherent, hhot⟩ := hready.owned rfl
  exact .release hready rfl rfl rfl hcoherent
    (Or.inr ⟨v, rfl, rfl, view_of_hot hhot⟩)
    (fun _ => knows_of_nothing rfl rfl rfl trivial)

/-- **One step of one thread**, wherever it stands. -/
lemma stepSpec (hready : pc.Ready cfg a) (call : ThreadCall V) (ch : Choices V) :
    let out := pc.step cfg call ch a
    StepSpec cfg ch a pc out.1 out.2.1 out.2.2 := by
  cases pc with
  | idle => exact stepSpec_idle hready call ch.pressure
  | entering call => exact stepSpec_entering hready
  | scanning e cursor => exact stepSpec_scanning hready
  | reading e key => exact stepSpec_reading hready
  | copying e key version => exact stepSpec_copying hready
  | evicting e => exact stepSpec_evicting hready
  | locking e victim g => exact stepSpec_locking hready
  | rereading e victim g => exact stepSpec_rereading hready
  | writingBack e victim g => exact stepSpec_writingBack hready
  | removingHot e key g => exact stepSpec_removingHot hready
  | releasing e key g => exact stepSpec_releasing hready
  | leaving e => exact stepSpec_leaving hready
  | lookupLock k => exact stepSpec_lookupLock hready
  | hotLookup k g => exact stepSpec_hotLookup hready
  | coldLookup k g => exact stepSpec_coldLookup hready
  | upgrading k g v => exact stepSpec_upgrading hready
  | admitting k g v => exact stepSpec_admitting hready
  | removingCold k g v => exact stepSpec_removingCold hready
  | validating k g res => exact stepSpec_validating hready
  | unguarding k g valid => exact stepSpec_unguarding hready
  | putLock k v => exact stepSpec_putLock hready
  | putCas k v g => exact stepSpec_putCas hready
  | putting k v g => exact stepSpec_putting hready
  | putAdmitting k v g => exact stepSpec_putAdmitting hready
  | putRemovingCold k v g => exact stepSpec_putRemovingCold hready
  | putReleasing k v g => exact stepSpec_putReleasing hready

end Pc

end TwoTree.ConcurrentTwoBTree
