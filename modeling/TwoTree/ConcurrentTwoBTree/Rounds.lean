import Mathlib
import TwoTree.Units

/-!
# Eviction rounds

`evict_a_bunch` of the concurrent two-tree adapter sweeps a clock hand over the keys of the
hot tree.  Every call first passes a section protected by `eviction_mutex`: it claims the key
range from the hand to a boundary found in the hot tree, moves the hand behind it, and
registers itself in one of two reference counters, chosen by the parity of the current round.
A call whose boundary is the end of the tree rewinds the hand and opens the next round.  While
evictors of the previous round are still at work, which the other counter tells, a call gives
up in the section.  When it is done evicting, a call decrements the counter it incremented.

This file is that mechanism on its own.  `EvictionClock.claim` is the section,
`EvictionClock.finish` the final decrement, and a `Rounds` state records which evictors are in
between.  The evictors of such a state come from one round and have claimed disjoint ranges
(`evictors_share_round_and_are_disjoint`): two counters suffice because an evictor can only
open a round after the one before the last has drained.

The hot tree may change in any way between and during the calls; all that is used of the
boundary search is that it answers with a key at or above its start key.
-/

namespace TwoTree.ConcurrentTwoBTree

open Function

instance neZero_two : NeZero 2 := ⟨two_ne_zero⟩

/-- The parity of a round, which selects its reference counter. -/
def parity (round : ℕ) : Fin 2 := ⟨round % 2, Nat.mod_lt _ two_pos⟩

/-- The state the evictors share: `clock_hand`, `eviction_round` and
`eviction_round_ref_counter`. -/
structure EvictionClock where
  clockHand : ℕ
  evictionRound : ℕ
  refCounter : Fin 2 → ℕ

/-- The clock a constructor leaves behind. -/
def EvictionClock.init : EvictionClock := ⟨0, 0, fun _ => 0⟩

/-- What an evictor carries out of the section: the range it claimed and its round. -/
structure ClaimedRange where
  startKey : ℕ
  endKey : ℕ
  round : ℕ
  deriving DecidableEq, Repr

namespace EvictionClock

/-- The section protected by `eviction_mutex`.  The boundary search answers with a key and
whether the tree ends there, or not at all; `none` is a call that returns from the section. -/
def claim (c : EvictionClock) (boundary : Option (ℕ × Bool)) :
    Option (ClaimedRange × EvictionClock) :=
  if c.refCounter (1 - parity c.evictionRound) ≠ 0 then none
  else
    match boundary with
    | none => none
    | some (endKey, rewind) =>
      some (⟨c.clockHand, endKey, c.evictionRound⟩,
        { clockHand := if rewind then 0 else u64 (endKey + 1)
          evictionRound := if rewind then u64 (c.evictionRound + 1) else c.evictionRound
          refCounter := update c.refCounter (parity c.evictionRound)
            (c.refCounter (parity c.evictionRound) + 1) })

/-- A call passes the section exactly when the other counter is zero and a boundary was found. -/
lemma claim_eq_some {c c' : EvictionClock} {r : ClaimedRange} {endKey : ℕ} {rewind : Bool}
    (h : c.claim (some (endKey, rewind)) = some (r, c')) :
    c.refCounter (1 - parity c.evictionRound) = 0 ∧
      r = ⟨c.clockHand, endKey, c.evictionRound⟩ ∧
      c' = { clockHand := if rewind then 0 else u64 (endKey + 1)
             evictionRound := if rewind then u64 (c.evictionRound + 1) else c.evictionRound
             refCounter := update c.refCounter (parity c.evictionRound)
               (c.refCounter (parity c.evictionRound) + 1) } := by
  by_cases hzero : c.refCounter (1 - parity c.evictionRound) = 0
  · simp only [claim, hzero, ne_eq, not_true_eq_false, if_false, Option.some.injEq,
      Prod.mk.injEq] at h
    exact ⟨hzero, h.1.symm, h.2.symm⟩
  · simp [claim, hzero] at h

/-- The decrement an evictor ends with. -/
def finish (c : EvictionClock) (round : ℕ) : EvictionClock :=
  { c with refCounter :=
      update c.refCounter (parity round) (c.refCounter (parity round) - 1) }

/-- No evictor is registered. -/
structure Drained (c : EvictionClock) : Prop where
  counter : ∀ p, c.refCounter p = 0
  round_lt : c.evictionRound < 2 ^ 64

lemma drained_init : init.Drained := ⟨fun _ => rfl, by norm_num [init]⟩

/-- The section of an eviction that runs alone, and its decrement. -/
lemma Drained.claim {c : EvictionClock} (h : c.Drained) (endKey : ℕ) (rewind : Bool) :
    ∃ c', c.claim (some (endKey, rewind)) =
        some (⟨c.clockHand, endKey, c.evictionRound⟩, c') ∧
      (c'.finish c.evictionRound).Drained ∧
      c'.clockHand = if rewind then 0 else u64 (endKey + 1) := by
  refine ⟨_, by simp only [EvictionClock.claim, h.counter, ne_eq, not_true_eq_false, if_false]; rfl,
    ⟨fun p => ?_, ?_⟩, rfl⟩
  · by_cases hp : p = parity c.evictionRound
    · simp [finish, hp]
    · simp [finish, hp, h.counter]
  have hnext : u64 (c.evictionRound + 1) < 2 ^ 64 := Nat.mod_lt _ (by norm_num)
  simp only [finish]
  split_ifs
  · exact hnext
  · exact h.round_lt

end EvictionClock

/-- The boundary search starting at `start` answered with a key at or above it.  The keys of the
tree are below `2 ^ 63`; past the last of them the search answers with its start key and says
that the tree has ended. -/
def BoundaryOk (start : ℕ) (boundary : ℕ × Bool) : Prop :=
  start ≤ boundary.1 ∧ (boundary.2 = false → boundary.1 < 2 ^ 63)

instance (start : ℕ) (boundary : ℕ × Bool) : Decidable (BoundaryOk start boundary) :=
  inferInstanceAs (Decidable (_ ∧ _))

/-- The clock and the evictors between their section and their decrement. -/
structure Rounds where
  clock : EvictionClock
  evictors : ℕ → Option ClaimedRange

namespace Rounds

variable {s : Rounds}

/-- No evictor is at work. -/
def init : Rounds := ⟨.init, fun _ => none⟩

/-- A call passes the section, or finishes.  A call that returns from the section changes
nothing. -/
inductive Step : Rounds → Rounds → Prop
  | enter {s : Rounds} {t : ℕ} {boundary : ℕ × Bool} {r : ClaimedRange} {c : EvictionClock} :
      s.evictors t = none → BoundaryOk s.clock.clockHand boundary →
      s.clock.claim (some boundary) = some (r, c) →
      Step s ⟨c, update s.evictors t (some r)⟩
  | giveUp {s : Rounds} {t : ℕ} {boundary : Option (ℕ × Bool)} :
      s.evictors t = none → s.clock.claim boundary = none → Step s s
  | leave {s : Rounds} {t : ℕ} {r : ClaimedRange} :
      s.evictors t = some r →
      Step s ⟨s.clock.finish r.round, update s.evictors t none⟩

/-- The states of all interleavings of calls. -/
inductive Reachable : Rounds → Prop
  | init : Reachable init
  | step {s s' : Rounds} : Reachable s → Step s s' → Reachable s'

/-! ## The invariant -/

/-- The evictors whose round has a given parity. -/
def atParity (s : Rounds) (p : Fin 2) : Set ℕ :=
  {t | ∃ r, s.evictors t = some r ∧ parity r.round = p}

/-- The invariant of the rounds. -/
structure Inv (s : Rounds) : Prop where
  /-- Only finitely many evictors are at work. -/
  finite : ∀ p, (s.atParity p).Finite
  /-- Each counter counts the evictors whose round has its parity. -/
  count : ∀ p, s.clock.refCounter p = (s.atParity p).ncard
  /-- The rounds are `u64`s. -/
  round_lt : s.clock.evictionRound < 2 ^ 64 ∧ ∀ t r, s.evictors t = some r → r.round < 2 ^ 64
  /-- Either all evictors are of the current round, and the hand is behind their ranges, or
  all are of the round before it. -/
  current : (∀ t r, s.evictors t = some r →
      r.round = s.clock.evictionRound ∧ r.endKey < s.clock.clockHand) ∨
    ∀ t r, s.evictors t = some r → u64 (r.round + 1) = s.clock.evictionRound
  /-- The claimed ranges are not empty and do not meet. -/
  ranges : ∀ t r, s.evictors t = some r → r.startKey ≤ r.endKey
  disjoint : ∀ t t' r r', t ≠ t' → s.evictors t = some r → s.evictors t' = some r' →
    r.endKey < r'.startKey ∨ r'.endKey < r.startKey

lemma inv_init : Inv init where
  finite := by simp [init, atParity]
  count := by simp [init, atParity, EvictionClock.init]
  round_lt := by simp [init, EvictionClock.init]
  current := Or.inl (by simp [init])
  ranges := by simp [init]
  disjoint := by simp [init]

lemma parity_succ {round next : ℕ} (h : u64 (round + 1) = next) :
    parity round = 1 - parity next := by
  have hmod : next % 2 = (round + 1) % 2 := by
    simp only [u64] at h
    omega
  have h01 : round % 2 = 0 ∨ round % 2 = 1 := by omega
  rcases h01 with h0 | h1
  · have : next % 2 = 1 := by omega
    simp [parity, h0, this]
  · have : next % 2 = 0 := by omega
    simp [parity, h1, this]

/-- An evictor that gets past the check of the other counter finds evictors of its own round
only, and the hand behind their ranges. -/
lemma Inv.current_of_zero (hs : s.Inv)
    (hzero : s.clock.refCounter (1 - parity s.clock.evictionRound) = 0) :
    ∀ t r, s.evictors t = some r →
      r.round = s.clock.evictionRound ∧ r.endKey < s.clock.clockHand := by
  rcases hs.current with h | h
  · exact h
  intro t r hr
  -- a straggler of the previous round would be counted at the other parity
  have hempty : s.atParity (1 - parity s.clock.evictionRound) = ∅ :=
    (Set.ncard_eq_zero (hs.finite _)).1 ((hs.count _).symm.trans hzero)
  have hmem : t ∈ s.atParity (1 - parity s.clock.evictionRound) :=
    ⟨r, hr, parity_succ (h t r hr)⟩
  simp [hempty] at hmem

/-! ## The counters follow the evictors -/

lemma atParity_enter {c : EvictionClock} {t : ℕ} {r : ClaimedRange}
    (ht : s.evictors t = none) (p : Fin 2) :
    atParity ⟨c, update s.evictors t (some r)⟩ p =
      if parity r.round = p then insert t (s.atParity p) else s.atParity p := by
  ext t'
  by_cases htt : t' = t
  · subst htt
    split_ifs with hp <;> simp [atParity, hp, ht]
  · split_ifs with hp <;> simp [atParity, htt]

lemma notMem_atParity {t : ℕ} (ht : s.evictors t = none) (p : Fin 2) :
    t ∉ s.atParity p := by
  simp [atParity, ht]

lemma atParity_leave {c : EvictionClock} {t : ℕ} (p : Fin 2) :
    atParity ⟨c, update s.evictors t none⟩ p = s.atParity p \ {t} := by
  ext t'
  by_cases htt : t' = t
  · subst htt
    simp [atParity]
  · simp [atParity, htt]

/-! ## One step -/

lemma Inv.enter {t : ℕ} {boundary : ℕ × Bool} {r : ClaimedRange}
    {c : EvictionClock} (hs : s.Inv) (ht : s.evictors t = none)
    (hb : BoundaryOk s.clock.clockHand boundary)
    (hc : s.clock.claim (some boundary) = some (r, c)) :
    Inv ⟨c, update s.evictors t (some r)⟩ := by
  obtain ⟨endKey, rewind⟩ := boundary
  obtain ⟨hle, hlt⟩ := hb
  obtain ⟨hzero, rfl, rfl⟩ := EvictionClock.claim_eq_some hc
  have hcur := hs.current_of_zero hzero
  have hold : ∀ {t' r'}, t' ≠ t → update s.evictors t (some
      (⟨s.clock.clockHand, endKey, s.clock.evictionRound⟩ : ClaimedRange)) t' = some r' →
      s.evictors t' = some r' := by
    intro t' r' htt hr'
    simpa [htt] using hr'
  refine ⟨fun p => ?_, fun p => ?_, ⟨?_, fun t' r' hr' => ?_⟩, ?_, fun t' r' hr' => ?_,
    fun t₁ t₂ r₁ r₂ hne h₁ h₂ => ?_⟩
  · rw [atParity_enter ht]
    split_ifs
    · exact (hs.finite p).insert t
    · exact hs.finite p
  · rw [atParity_enter ht]
    by_cases hp : parity s.clock.evictionRound = p
    · subst hp
      simp [Set.ncard_insert_of_notMem (notMem_atParity ht _) (hs.finite _), hs.count]
    · simp [hp, Ne.symm hp, hs.count]
  · cases rewind
    · exact hs.round_lt.1
    · exact Nat.mod_lt _ (by norm_num)
  · by_cases htt : t' = t
    · subst htt
      obtain rfl : _ = r' := by simpa using hr'
      exact hs.round_lt.1
    · exact hs.round_lt.2 t' r' (hold htt hr')
  · cases rewind
    · left
      intro t' r' hr'
      have hend : u64 (endKey + 1) = endKey + 1 := by
        have hkey := hlt rfl
        exact u64_of_lt (by simp only at hkey; omega)
      simp only [Bool.false_eq_true, if_false, hend]
      by_cases htt : t' = t
      · subst htt
        obtain rfl : _ = r' := by simpa using hr'
        exact ⟨rfl, Nat.lt_succ_self _⟩
      · obtain ⟨hround, hkey⟩ := hcur t' r' (hold htt hr')
        exact ⟨hround, by simp only at hle; omega⟩
    · right
      intro t' r' hr'
      simp only [if_true]
      by_cases htt : t' = t
      · subst htt
        obtain rfl : _ = r' := by simpa using hr'
        rfl
      · rw [(hcur t' r' (hold htt hr')).1]
  · by_cases htt : t' = t
    · subst htt
      obtain rfl : _ = r' := by simpa using hr'
      exact hle
    · exact hs.ranges t' r' (hold htt hr')
  · by_cases h1 : t₁ = t
    · subst h1
      obtain rfl : _ = r₁ := by simpa using h₁
      exact Or.inr (hcur t₂ r₂ (hold (Ne.symm hne) h₂)).2
    by_cases h2 : t₂ = t
    · subst h2
      obtain rfl : _ = r₂ := by simpa using h₂
      exact Or.inl (hcur t₁ r₁ (hold h1 h₁)).2
    · exact hs.disjoint t₁ t₂ r₁ r₂ hne (hold h1 h₁) (hold h2 h₂)

lemma Inv.leave {t : ℕ} {r : ClaimedRange} (hs : s.Inv) (ht : s.evictors t = some r) :
    Inv ⟨s.clock.finish r.round, update s.evictors t none⟩ := by
  have hold : ∀ {t' r'}, update s.evictors t none t' = some r' →
      s.evictors t' = some r' := by
    intro t' r' hr'
    by_cases htt : t' = t
    · subst htt
      simp at hr'
    · simpa [htt] using hr'
  refine ⟨fun p => ?_, fun p => ?_,
    ⟨hs.round_lt.1, fun t' r' hr' => hs.round_lt.2 t' r' (hold hr')⟩, ?_,
    fun t' r' hr' => hs.ranges t' r' (hold hr'),
    fun t₁ t₂ r₁ r₂ hne h₁ h₂ => hs.disjoint t₁ t₂ r₁ r₂ hne (hold h₁) (hold h₂)⟩
  · rw [atParity_leave]
    exact (hs.finite p).sdiff
  · rw [atParity_leave]
    by_cases hp : parity r.round = p
    · subst hp
      have hmem : t ∈ s.atParity (parity r.round) := ⟨r, ht, rfl⟩
      simp [EvictionClock.finish, hs.count, Set.ncard_sdiff_singleton_of_mem hmem]
    · have hnot : t ∉ s.atParity p := by
        simpa [atParity, ht] using hp
      rw [Set.sdiff_singleton_eq_self hnot]
      simp [EvictionClock.finish, hs.count, Ne.symm hp]
  · rcases hs.current with h | h
    · exact Or.inl (fun t' r' hr' => h t' r' (hold hr'))
    · exact Or.inr (fun t' r' hr' => h t' r' (hold hr'))

/-- **One step keeps the invariant.** -/
lemma Inv.step {s s' : Rounds} (hs : s.Inv) (h : Step s s') : s'.Inv := by
  cases h with
  | enter ht hb hc => exact hs.enter ht hb hc
  | giveUp _ _ => exact hs
  | leave ht => exact hs.leave ht

/-- **The invariant holds in every reachable state.** -/
lemma Reachable.inv (h : Reachable s) : s.Inv := by
  induction h with
  | init => exact inv_init
  | step _ hstep ih => exact ih.step hstep

lemma Inv.same_round (hs : s.Inv) {t t' : ℕ} {r r' : ClaimedRange}
    (hr : s.evictors t = some r) (hr' : s.evictors t' = some r') : r.round = r'.round := by
  rcases hs.current with h | h
  · rw [(h t r hr).1, (h t' r' hr').1]
  have h₁ := h t r hr
  have h₂ := h t' r' hr'
  have hlt₁ := hs.round_lt.2 t r hr
  have hlt₂ := hs.round_lt.2 t' r' hr'
  simp only [u64] at h₁ h₂
  omega

/-- **Evictors share a round and claim disjoint ranges.**  In every interleaving of any number
of `evict_a_bunch` calls, with the hot tree changing arbitrarily in between, any two evictors
between their section and their decrement are of one round, and no key lies in the ranges of
two of them. -/
theorem evictors_share_round_and_are_disjoint {s : Rounds} (h : Reachable s) {t t' : ℕ}
    {r r' : ClaimedRange} (hr : s.evictors t = some r) (hr' : s.evictors t' = some r') :
    r.round = r'.round ∧
      (t ≠ t' → Disjoint (Set.Icc r.startKey r.endKey) (Set.Icc r'.startKey r'.endKey)) := by
  refine ⟨h.inv.same_round hr hr', fun hne => Set.disjoint_left.2 ?_⟩
  rintro k ⟨hk₁, hk₂⟩ ⟨hk₁', hk₂'⟩
  rcases h.inv.disjoint t t' r r' hne hr hr' with hlt | hlt <;> omega

/-- Two evictors of the first round at work at the same time. -/
theorem evictors_share_round_and_are_disjoint_two :
    ∃ s, Reachable s ∧ s.evictors 0 = some ⟨0, 5, 0⟩ ∧ s.evictors 1 = some ⟨6, 9, 0⟩ ∧
      Disjoint (Set.Icc 0 5) (Set.Icc 6 9) := by
  let c₁ : EvictionClock := ⟨6, 0, update (fun _ => 0) 0 1⟩
  let c₂ : EvictionClock := ⟨10, 0, update c₁.refCounter 0 2⟩
  let s₁ : Rounds := ⟨c₁, update (fun _ => none) 0 (some ⟨0, 5, 0⟩)⟩
  let s₂ : Rounds := ⟨c₂, update s₁.evictors 1 (some ⟨6, 9, 0⟩)⟩
  have hc₁ : EvictionClock.init.claim (some (5, false)) = some (⟨0, 5, 0⟩, c₁) := rfl
  have hc₂ : c₁.claim (some (9, false)) = some (⟨6, 9, 0⟩, c₂) := by
    simp [c₁, c₂, EvictionClock.claim, parity, u64]
  have h₁ : Reachable s₁ := .step .init (.enter (t := 0) rfl ⟨by decide, by decide⟩ hc₁)
  have h₂ : Reachable s₂ := .step h₁ (.enter (t := 1) rfl ⟨by decide, by decide⟩ hc₂)
  exact ⟨s₂, h₂, rfl, rfl,
    (evictors_share_round_and_are_disjoint h₂ (r := ⟨0, 5, 0⟩) (t := 0) rfl rfl).2 zero_ne_one⟩

end Rounds

end TwoTree.ConcurrentTwoBTree
