import Mathlib.Tactic

/-!
# Binary search with a three-way comparison

`order i` is how the key that is looked for compares with entry `i`.  The search keeps a window of
positions and stops at an equal entry, or when the window is empty.  `Cut order n p` says that `p` is
the answer: the entries before `p` are smaller than the key, the entry at `p` is not, and all behind it
are greater.  From any window that holds the cut the search finds it (`search_eq`).
-/

namespace TwoTree.Lib.BinarySearch

open List

/-- The search in the window from `lower` to `upper`: the position, and whether it is of an equal
entry. -/
def search (order : ℕ → Ordering) : ℕ → ℕ → ℕ → ℕ × Bool
  | 0, lower, _ => (lower, false)
  | fuel + 1, lower, upper =>
    if lower < upper then
      let mid := (upper - lower) / 2 + lower
      match order mid with
      | .lt => search order fuel lower mid
      | .gt => search order fuel (mid + 1) upper
      | .eq => (mid, true)
    else (lower, false)

/-- `p` is where the key belongs among the first `n` entries. -/
structure Cut (order : ℕ → Ordering) (n p : ℕ) : Prop where
  le : p ≤ n
  before : ∀ i < p, order i = .gt
  here : p < n → order p ≠ .gt
  behind : ∀ i, p < i → i < n → order i = .lt

/-- A window outside of which the comparison is decided. -/
structure Window (order : ℕ → Ordering) (n lower upper : ℕ) : Prop where
  le : upper ≤ n
  below : ∀ i < lower, order i = .gt
  above : ∀ i, upper ≤ i → i < n → order i = .lt

namespace Cut

variable {order : ℕ → Ordering} {n p i : ℕ}

variable (h : Cut order n p)
include h

lemma lt_of_gt (hi : i < n) (hgt : order i = .gt) : i < p := by
  rcases lt_trichotomy i p with hlt | rfl | hlt
  · exact hlt
  · exact absurd hgt (h.here hi)
  · rw [h.behind i hlt hi] at hgt
    cases hgt

lemma le_of_lt (hlt : order i = .lt) : p ≤ i := by
  by_contra hip
  rw [h.before i (by omega)] at hlt
  cases hlt

lemma eq_of_eq (hi : i < n) (heq : order i = .eq) : i = p := by
  rcases lt_trichotomy i p with hlt | hip | hlt
  · rw [h.before i hlt] at heq
    cases heq
  · exact hip
  · rw [h.behind i hlt hi] at heq
    cases heq

/-- An entry that is smaller than the key: so are all before it. -/
lemma below (hi : i < n) (hgt : order i = .gt) : ∀ j < i + 1, order j = .gt := by
  intro j hj
  exact h.before j (by have := h.lt_of_gt hi hgt; omega)

/-- An entry that is greater than the key: so are all behind it. -/
lemma above (hlt : order i = .lt) : ∀ j, i ≤ j → j < n → order j = .lt := by
  intro j hij hj
  have hpi := h.le_of_lt hlt
  rcases Nat.eq_or_lt_of_le hij with rfl | hij
  · exact hlt
  · exact h.behind j (by omega) hj

end Cut

/-- An empty window leaves one place for the cut. -/
lemma eq_of_empty {order : ℕ → Ordering} {n p lower upper : ℕ} (hcut : Cut order n p)
    (hwin : Window order n lower upper) (hempty : upper ≤ lower) (hle : lower ≤ n) :
    (lower, false) = (p, decide (p < n ∧ order p = .eq)) := by
  have hp : lower = p := by
    rcases lt_trichotomy lower p with hlt | heq | hgt
    · have hlow := hwin.above lower hempty (lt_of_lt_of_le hlt hcut.le)
      rw [hcut.before lower hlt] at hlow
      cases hlow
    · exact heq
    · have hhigh := hwin.below p hgt
      exact absurd hhigh (hcut.here (by omega))
  subst hp
  have hne : ¬(lower < n ∧ order lower = .eq) := by
    rintro ⟨hn, heq⟩
    rw [hwin.above lower hempty hn] at heq
    cases heq
  simp [hne]

/-- **The search finds the cut** from every window around it. -/
lemma search_eq {order : ℕ → Ordering} {n p : ℕ} (hcut : Cut order n p) {fuel lower upper : ℕ}
    (hwin : Window order n lower upper) (hfuel : upper - lower ≤ fuel) (hle : lower ≤ n) :
    search order fuel lower upper = (p, decide (p < n ∧ order p = .eq)) := by
  induction fuel generalizing lower upper with
  | zero =>
    rw [search]
    exact eq_of_empty hcut hwin (by omega) hle
  | succ fuel ih =>
    rw [search]
    by_cases hlt : lower < upper
    · rw [if_pos hlt]
      have hmid : (upper - lower) / 2 + lower < upper := by omega
      have hn : (upper - lower) / 2 + lower < n := lt_of_lt_of_le hmid hwin.le
      generalize hm : (upper - lower) / 2 + lower = mid at hmid hn ⊢
      cases hord : order mid with
      | lt =>
        simp only [hord]
        exact ih ⟨by omega, hwin.below, hcut.above hord⟩ (by omega) hle
      | gt =>
        simp only [hord]
        exact ih ⟨hwin.le, hcut.below hn hord, hwin.above⟩ (by omega) (by omega)
      | eq =>
        obtain rfl := hcut.eq_of_eq hn hord
        simp [hn, hord]
    · rw [if_neg hlt]
      exact eq_of_empty hcut hwin (by omega) hle

lemma window_all (order : ℕ → Ordering) (n : ℕ) : Window order n 0 n where
  le := le_refl n
  below := by simp
  above i hi hn := absurd hn (by omega)

/-! ## Sorted lists -/

section Sorted

variable {α : Type*} [LinearOrder α] {keys : List α} {key : α} {order : ℕ → Ordering}

/-- In a sorted list the first entry that is not below the key is a cut. -/
lemma cut_findIdx (hsorted : keys.Pairwise (· < ·))
    (horder : ∀ i k, keys[i]? = some k → (order i).Compares key k) :
    Cut order keys.length (keys.findIdx fun k => key ≤ k) where
  le := findIdx_le_length
  before i hi := by
    have hlen : i < keys.length := lt_of_lt_of_le hi findIdx_le_length
    have hlt := not_of_lt_findIdx hi
    rw [decide_eq_false_iff_not, not_le] at hlt
    exact (horder i _ (List.getElem?_eq_getElem hlen)).eq_gt.2 hlt
  here hlen := by
    have hle : key ≤ keys[keys.findIdx fun k => key ≤ k] := by
      simpa using findIdx_getElem (w := hlen)
    intro hgt
    exact absurd ((horder _ _ (List.getElem?_eq_getElem hlen)).eq_gt.1 hgt) (not_lt.2 hle)
  behind i hi hlen := by
    have hp : (keys.findIdx fun k => key ≤ k) < keys.length := lt_trans hi hlen
    have hle : key ≤ keys[keys.findIdx fun k => key ≤ k] := by
      simpa using findIdx_getElem (w := hp)
    have hlt := pairwise_iff_getElem.1 hsorted _ i hp hlen hi
    exact (horder i _ (List.getElem?_eq_getElem hlen)).eq_lt.2 (lt_of_le_of_lt hle hlt)

/-- The key is found at the cut if it is in the list at all. -/
lemma eq_at_findIdx_iff (hsorted : keys.Pairwise (· < ·))
    (horder : ∀ i k, keys[i]? = some k → (order i).Compares key k) :
    ((keys.findIdx fun k => key ≤ k) < keys.length ∧
      order (keys.findIdx fun k => key ≤ k) = .eq) ↔ key ∈ keys := by
  constructor
  · rintro ⟨hlen, heq⟩
    have hkey := (horder _ _ (List.getElem?_eq_getElem hlen)).eq_eq.1 heq
    rw [hkey]
    exact getElem_mem hlen
  · intro hmem
    obtain ⟨i, hi⟩ := List.getElem?_of_mem hmem
    obtain ⟨hlen, -⟩ := List.getElem?_eq_some_iff.1 hi
    have heq := (horder i key hi).eq_eq.2 rfl
    obtain rfl := (cut_findIdx hsorted horder).eq_of_eq hlen heq
    exact ⟨hlen, heq⟩

/-- In a sorted list a key that is there is the first entry that is not below it. -/
lemma idxOf_eq_findIdx [BEq α] [LawfulBEq α] (hsorted : keys.Pairwise (· < ·))
    (hmem : key ∈ keys) :
    keys.idxOf key = keys.findIdx fun k => key ≤ k := by
  have hlen : keys.idxOf key < keys.length := idxOf_lt_length_of_mem hmem
  rw [eq_comm, findIdx_eq hlen]
  constructor
  · simp
  · intro j hj
    have hlt := pairwise_iff_getElem.1 hsorted j _ (lt_trans hj hlen) hlen hj
    rw [getElem_idxOf hlen] at hlt
    simpa using hlt

end Sorted

end TwoTree.Lib.BinarySearch
