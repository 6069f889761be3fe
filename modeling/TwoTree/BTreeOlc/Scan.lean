import TwoTree.BTreeOlc.Runs

/-!
# Scans of the optimistic B+-tree

`scan` as one thread runs it.

The iterator of `scan` counts itself among the readers of the leaf it stands on, in the lock word of
that leaf.  `forward` enters the next leaf and leaves the one before, and the end of the scan leaves
the last one, but nobody enters the first.  So every scan that makes an iterator takes one from the
lock word of its first leaf, and the borrow sets the lock bit (`scan_keeps_words_iff`).
-/

namespace TwoTree.BTreeOlc

open Lib Std List Function

variable {K V : Type}

/-! ## Lock words -/

/-- `NodeLock::word` of each leaf, by address: readers in the ten lowest bits, then the lock bit. -/
abbrev Words := ℕ → BitVec 64

/-- `isLocked`: the bit of `kLockMask`. -/
def isLocked (word : BitVec 64) : Bool := word.toNat / 1024 % 2 = 1

namespace Words

def iteratorEnter (w : Words) (a : ℕ) : Words := Function.update w a (w a + 1)

def iteratorLeave (w : Words) (a : ℕ) : Words := Function.update w a (w a - 1)

/-- No reader and no lock anywhere. -/
def Quiet (w : Words) : Prop := ∀ a, (w a).toNat % 2048 = 0

end Words

/-! ## `scan` -/

/-- The arguments of `scan`. -/
structure Range (K : Type) where
  low : K
  high : K
  leftExist : Bool
  rightExist : Bool
  limit : ℕ

/-- What stands at a position of a leaf.  Behind the entries it is what an earlier entry left there;
`behind` says so, as far as it is known. -/
def Leaf.entryAt (behind : ℕ → ℕ → Option (K × V)) (l : Leaf K V) (pos : ℕ) : Option (K × V) :=
  l.entries[pos]?.or (behind l.address pos)

/-- The leaf that `next_` points to. -/
def Tree.nextOf (t : Tree K V) (l : Leaf K V) : Option (Leaf K V) := l.next.bind t.leafAt

section Scan

variable [LinearOrder K] (t : Tree K V) (behind : ℕ → ℕ → Option (K × V)) (r : Range K)

/-- The test of the upper end. -/
def Range.inside (k : K) : Bool := if r.rightExist then k ≤ r.high else k < r.high

/-- Where the iterator starts, if there is a leaf to start in. -/
def scanStart : Option (Option (Leaf K V × ℕ)) :=
  let leaf := t.root.findLeaf r.low
  let pos := lowerBound leaf.keys r.low
  if r.leftExist then some (some (leaf, pos))
  else (leaf.entryAt behind pos).map fun e =>
    if e.1 = r.low then
      if pos + 1 = leaf.count then (t.nextOf leaf).map fun next => (next, 0)
      else some (leaf, pos + 1)
    else some (leaf, pos)

/-- The loop with the iterator at a position: what is found, or nothing if the iterator asks for a
restart, and the lock words when the iterator is gone. -/
def scanLoop : ℕ → Words → Leaf K V → ℕ → List (K × V) →
    Option (Option (List (K × V)) × Words)
  | 0, _, _, _, _ => none
  | fuel + 1, w, leaf, pos, res =>
    if r.limit ≠ 0 ∧ r.limit ≤ res.length then some (some res, w.iteratorLeave leaf.address)
    else (leaf.entryAt behind pos).bind fun e =>
      if r.inside e.1 then
        -- `forward`
        if pos + 1 < leaf.count then scanLoop fuel w leaf (pos + 1) (res ++ [e])
        else match t.nextOf leaf with
          | none => some (some (res ++ [e]), w.iteratorLeave leaf.address)
          | some next =>
            if isLocked (w next.address) then some (none, w.iteratorLeave leaf.address)
            else scanLoop fuel ((w.iteratorEnter next.address).iteratorLeave leaf.address) next 0
              (res ++ [e])
      else some (some res, w.iteratorLeave leaf.address)

/-- From the label `restart` to the return or to the next `goto restart`. -/
def scanAttempt (fuel : ℕ) (w : Words) : Option (Option (List (K × V)) × Words) :=
  if isLocked (w (t.root.findLeaf r.low).address) then some (none, w)
  else (scanStart t behind r).bind fun start =>
    match start with
    | none => some (some [], w)
    | some (leaf, pos) =>
      if leaf.count = pos then some (some [], w.iteratorLeave leaf.address)
      else scanLoop t behind r fuel w leaf pos []

/-- `scan`: what is found and the lock words afterwards. -/
def scan : ℕ → Words → Option (List (K × V) × Words)
  | 0, _ => none
  | fuel + 1, w => (scanAttempt t behind r fuel w).bind fun out =>
    match out.1 with
    | none => scan fuel out.2
    | some res => some (res, out.2)

end Scan

/-! ## What a scan does to the lock words -/

namespace Words

variable {w D : Words} {a b : ℕ}

lemma enter_leave : (w.iteratorLeave a).iteratorEnter a = w := by
  simp [iteratorLeave, iteratorEnter, BitVec.sub_add_cancel]

lemma leave_enter : (D.iteratorEnter a).iteratorLeave a = D := by
  simp [iteratorLeave, iteratorEnter, BitVec.add_sub_cancel]

/-- A step of the iterator from one leaf to another. -/
lemma leave_enter_enter :
    ((D.iteratorEnter a).iteratorEnter b).iteratorLeave a = D.iteratorEnter b := by
  by_cases hab : b = a
  · rw [hab, leave_enter]
  · simp [iteratorEnter, iteratorLeave, hab, Ne.symm hab, update_comm hab,
      BitVec.add_sub_cancel]

/-- The lock words when `k` readers too many have left the leaf at `a`. -/
def less (w : Words) (a k : ℕ) : Words := Function.update w a (w a - BitVec.ofNat 64 k)

lemma iteratorLeave_less {k : ℕ} : (w.less a k).iteratorLeave a = w.less a (k + 1) := by
  simp only [less, iteratorLeave, update_self, update_idem, BitVec.ofNat_add]
  grind

/-- No leaf is found locked once the borrow has passed the lock bit. -/
lemma Quiet.lt_of_isLocked (hw : w.Quiet) {c k : ℕ} (hk : k ≤ 1025)
    (hlocked : isLocked ((w.less a (k + 1)).iteratorEnter b c)) : k < 1025 := by
  refine hk.lt_of_ne ?_
  rintro rfl
  have hc := hw c
  by_cases hcb : c = b <;> by_cases hca : c = a <;>
    simp [iteratorEnter, less, isLocked, update_apply, hcb,
      hca] at hlocked hc <;> grind

end Words

section Words

variable [LinearOrder K] {t : Tree K V} {behind : ℕ → ℕ → Option (K × V)} {r : Range K}
  {w D w' : Words} {out : Option (List (K × V))} {leaf : Leaf K V}

/-- The loop leaves the leaf it stands on when it ends, and all others as they were. -/
lemma scanLoop_words {fuel pos : ℕ} {res : List (K × V)}
    (h : scanLoop t behind r fuel (D.iteratorEnter leaf.address) leaf pos res = some (out, w')) :
    w' = D ∧ (out = none → ∃ a b, isLocked (D.iteratorEnter a b)) := by
  induction fuel generalizing leaf pos res with
  | zero => simp [scanLoop] at h
  | succ fuel ih =>
    have hdone : ∀ {found}, some (some found, D) = some (out, w') →
        w' = D ∧ (out = none → ∃ a b, isLocked (D.iteratorEnter a b)) := by
      rintro found ⟨⟩
      exact ⟨rfl, nofun⟩
    rw [scanLoop, Words.leave_enter] at h
    split at h
    · exact hdone h
    obtain ⟨e, -, h⟩ := Option.bind_eq_some_iff.1 h
    split at h
    · split at h
      · exact ih h
      split at h
      · exact hdone h
      split at h
      · rename_i hlocked
        cases h
        exact ⟨rfl, fun _ => ⟨_, _, hlocked⟩⟩
      · rw [Words.leave_enter_enter] at h
        exact ih h
    · exact hdone h

/-- An attempt with an iterator takes one from the lock word of the leaf it starts in. -/
lemma scanAttempt_words {fuel pos : ℕ} (hstart : scanStart t behind r = some (some (leaf, pos)))
    (h : scanAttempt t behind r fuel w = some (out, w')) : out = none ∧ w' = w ∨
      w' = w.iteratorLeave leaf.address ∧
        (out = none → ∃ a b, isLocked ((w.iteratorLeave leaf.address).iteratorEnter a b)) := by
  rw [scanAttempt, hstart, Option.bind_some] at h
  split at h
  · cases h
    exact .inl ⟨rfl, rfl⟩
  simp only at h
  split at h
  · cases h
    exact .inr ⟨rfl, nofun⟩
  · rw [← Words.enter_leave (w := w) (a := leaf.address)] at h
    exact .inr (scanLoop_words h)

/-- However often it starts again, a scan with an iterator leaves a reader too few. -/
lemma ne_of_scan_less {fuel pos k : ℕ} {res : List (K × V)}
    (hstart : scanStart t behind r = some (some (leaf, pos))) (hw : w.Quiet) (hk : k ≤ 1025)
    (h : scan t behind r fuel (w.less leaf.address k) = some (res, w')) : w' ≠ w := by
  induction fuel generalizing k with
  | zero => simp [scan] at h
  | succ fuel ih =>
    obtain ⟨⟨out, w₁⟩, hattempt, h⟩ := Option.bind_eq_some_iff.1 h
    rcases scanAttempt_words hstart hattempt with ⟨rfl, rfl⟩ | ⟨rfl, hlocked⟩
    · exact ih hk h
    rw [Words.iteratorLeave_less] at h hlocked
    cases out with
    | none =>
      obtain ⟨a, b, hlocked⟩ := hlocked rfl
      exact ih (hw.lt_of_isLocked hk hlocked) h
    | some found =>
      cases h
      intro heq
      have hword := congrArg BitVec.toNat (congrFun heq leaf.address)
      simp only [Words.less, update_self, BitVec.toNat_sub, BitVec.toNat_ofNat] at hword
      omega

lemma eq_of_scan_none {fuel : ℕ} {res : List (K × V)} (hstart : scanStart t behind r = some none)
    (h : scan t behind r fuel w = some (res, w')) : w' = w := by
  induction fuel with
  | zero => simp [scan] at h
  | succ fuel ih =>
    rw [scan, scanAttempt, hstart] at h
    split at h
    · exact ih h
    · cases h
      rfl

lemma scan_eq_none (hstart : scanStart t behind r = none) (fuel : ℕ) :
    scan t behind r fuel w = none := by
  induction fuel with
  | zero => rfl
  | succ fuel ih =>
    rw [scan, scanAttempt, hstart]
    split
    · exact ih
    · rfl

/-- **A scan leaves the lock words as they were only when it makes no iterator**, that is when the
lower end is open and its key is the last of the tree; else the leaf where it starts has lost one. -/
theorem scan_keeps_words_iff {fuel : ℕ} {res : List (K × V)} (hw : w.Quiet)
    (h : scan t behind r fuel w = some (res, w')) : w' = w ↔ scanStart t behind r = some none := by
  rcases hstart : scanStart t behind r with _ | _ | ⟨leaf, pos⟩
  · simp [scan_eq_none hstart] at h
  · simpa using eq_of_scan_none hstart h
  · have hless : w.less leaf.address 0 = w := by simp [Words.less]
    rw [← hless] at h
    simpa using ne_of_scan_less hstart hw (Nat.zero_le _) h

end Words

theorem scan_keeps_words_iff_skipped :
    let t : Tree ℕ ℕ := ⟨0, (⟨0, [(1, 10)], none⟩ : Leaf ℕ ℕ), 1⟩
    let r : Range ℕ := ⟨1, 9, false, true, 0⟩
    scan t (fun _ _ => none) r 1 (fun _ => 2048) = some ([], fun _ => 2048) ∧
      scanStart t (fun _ _ => none) r = some none :=
  have hscan : scan _ _ _ 1 (fun _ => 2048) = some ([], fun _ => 2048) := rfl
  ⟨hscan, (scan_keeps_words_iff (fun _ => rfl) hscan).1 rfl⟩

/-- **The word of a leaf goes below zero readers**: a scan of the empty tree leaves its leaf locked. -/
theorem scan_locks_empty : ∃ w', scan (Tree.empty : Tree ℕ ℕ) (fun _ _ => none) ⟨0, 9, true, true, 0⟩
    1 (fun _ => 2048) = some ([], w') ∧ isLocked (w' 0) :=
  ⟨_, rfl, by decide⟩

end TwoTree.BTreeOlc
