import TwoTree.Lib.Visit

/-!
# Scans through a buffer

A scan that copies into a buffer what it needs on the way: the key of each record before the callback
gets it, and what leads it from one page to the next.  Such a scan is a list of steps, each with the
number of bytes written and the record that is handed over, if any.  With a buffer that is too short for
one of the steps that are made the scan has no result; otherwise it is a visit of its records
(`walk_fst_eq_some_iff`).
-/

namespace TwoTree.Lib.Visit

open List

variable {σ κ ρ : Type*}

/-! ## Visits -/

/-- The records visited decide the state. -/
lemma visit_visited (fn : Callback σ κ ρ) (s : σ) (l : List (κ × ρ)) :
    visit fn s (visited fn s l) = visit fn s l := by
  induction l generalizing s with
  | nil => rfl
  | cons p l ih =>
    obtain ⟨k, r⟩ := p
    by_cases hgo : (fn s k r).2 = true
    · simp [visited, visit, hgo, ih]
    · simp [visited, visit, hgo]

lemma mem_of_mem_visited {fn : Callback σ κ ρ} {s : σ} {l : List (κ × ρ)} {e : κ × ρ}
    (he : e ∈ visited fn s l) : e ∈ l := by
  induction l generalizing s with
  | nil => simp [visited] at he
  | cons q l ih =>
    obtain ⟨k, r⟩ := q
    rw [visited, mem_cons] at he
    rcases he with rfl | he
    · exact mem_cons_self
    · split at he
      · exact mem_cons_of_mem _ (ih he)
      · exact absurd he not_mem_nil

/-- **Records left out of a scan are missed** if the callback would have been called on them. -/
lemma visited_filter_eq_iff (fn : Callback σ κ ρ) (p : κ × ρ → Bool) (s : σ) (l : List (κ × ρ)) :
    visited fn s (l.filter p) = visited fn s l ↔ ∀ e ∈ visited fn s l, p e = true := by
  constructor
  · intro heq e he
    rw [← heq] at he
    exact (mem_filter.1 (mem_of_mem_visited he)).2
  intro hall
  induction l generalizing s with
  | nil => rfl
  | cons q l ih =>
    obtain ⟨k, r⟩ := q
    rw [visited] at hall
    rw [filter_cons_of_pos (hall _ mem_cons_self), visited, visited]
    by_cases hgo : (fn s k r).2 = true
    · rw [if_pos hgo] at hall
      rw [if_pos hgo, if_pos hgo, ih _ fun e he => hall e (mem_cons_of_mem _ he)]
    · rw [if_neg hgo, if_neg hgo]

/-! ## Walks -/

/-- A step of a scan: the bytes it writes, and the record it hands over. -/
abbrev Step (κ ρ : Type*) := ℕ × Option (κ × ρ)

/-- The records of the steps. -/
def records (l : List (Step κ ρ)) : List (κ × ρ) := l.filterMap Prod.snd

@[simp] lemma records_nil : records ([] : List (Step κ ρ)) = [] := rfl

lemma records_append (l l' : List (Step κ ρ)) : records (l ++ l') = records l ++ records l' :=
  filterMap_append

/-- What is written until the callback does not want more. -/
def writes (fn : Callback σ κ ρ) : σ → List (Step κ ρ) → List ℕ
  | _, [] => []
  | s, (n, none) :: l => n :: writes fn s l
  | s, (n, some (k, r)) :: l => n :: if (fn s k r).2 then writes fn (fn s k r).1 l else []

/-- A scan with a buffer of so many bytes: the state, and whether there were no more records. -/
def walk (limit : ℕ) (fn : Callback σ κ ρ) : σ → List (Step κ ρ) → Option (σ × Bool)
  | s, [] => some (s, true)
  | s, (n, none) :: l => if n ≤ limit then walk limit fn s l else none
  | s, (n, some (k, r)) :: l =>
    if n ≤ limit then
      if (fn s k r).2 then walk limit fn (fn s k r).1 l else some ((fn s k r).1, false)
    else none

/-- The steps from the next record on. -/
def reach (limit : ℕ) : List (Step κ ρ) → Option (List (Step κ ρ))
  | [] => some []
  | (n, none) :: l => if n ≤ limit then reach limit l else none
  | (n, some e) :: l => some ((n, some e) :: l)

variable {limit : ℕ} {fn : Callback σ κ ρ} {s s' : σ} {l l' : List (Step κ ρ)}

lemma walk_eq_bind_reach : walk limit fn s l = (reach limit l).bind (walk limit fn s) := by
  induction l with
  | nil => rfl
  | cons x l ih =>
    obtain ⟨n, _ | e⟩ := x
    · by_cases hn : n ≤ limit
      · rw [walk, reach, if_pos hn, if_pos hn, ih]
      · rw [walk, reach, if_neg hn, if_neg hn, Option.bind_none]
    · rfl

lemma length_le_of_reach (h : reach limit l = some l') : l'.length ≤ l.length := by
  induction l with
  | nil =>
    obtain rfl : l' = [] := by simpa [reach] using h.symm
    exact le_refl _
  | cons x l ih =>
    obtain ⟨n, _ | e⟩ := x
    · rw [reach] at h
      split at h
      · exact (ih h).trans (Nat.le_succ _)
      · exact absurd h (by simp)
    · obtain rfl : (n, some e) :: l = l' := by simpa [reach] using h
      exact le_refl _

/-- **A walk is a visit of its records**, if the buffer is long enough for what is written. -/
lemma walk_fst_eq_some_iff : (walk limit fn s l).map Prod.fst = some s' ↔
    (∀ n ∈ writes fn s l, n ≤ limit) ∧ visit fn s (records l) = s' := by
  induction l generalizing s with
  | nil => simp [walk, writes, visit]
  | cons x l ih =>
    obtain ⟨n, _ | ⟨k, r⟩⟩ := x
    · have hrecords : records ((n, none) :: l) = records l := rfl
      rw [walk, writes, hrecords, forall_mem_cons, and_assoc]
      by_cases hn : n ≤ limit
      · rw [if_pos hn, ih]
        exact (and_iff_right hn).symm
      · simp [hn]
    · have hrecords : records ((n, some (k, r)) :: l) = (k, r) :: records l := rfl
      rw [walk, writes, hrecords, visit, forall_mem_cons, and_assoc]
      by_cases hn : n ≤ limit
      · rw [if_pos hn]
        by_cases hgo : (fn s k r).2 = true
        · rw [if_pos hgo, if_pos hgo, if_pos hgo, ih]
          exact (and_iff_right hn).symm
        · rw [if_neg hgo, if_neg hgo, if_neg hgo]
          simp [hn]
      · simp [hn]

/-- Noting the calls changes nothing about what is written. -/
lemma writes_logged (fn : Callback σ κ ρ) (s : σ) (log : List (κ × ρ)) (l : List (Step κ ρ)) :
    writes (logged fn) (s, log) l = writes fn s l := by
  induction l generalizing s log with
  | nil => rfl
  | cons x l ih =>
    obtain ⟨n, _ | ⟨k, r⟩⟩ := x
    · rw [writes, writes, ih]
    · rw [writes, writes]
      simp [logged, ih]

/-- The state that the callback itself keeps. -/
lemma visit_logged_fst (fn : Callback σ κ ρ) (s : σ) (log l : List (κ × ρ)) :
    (visit (logged fn) (s, log) l).1 = visit fn s l := by
  induction l generalizing s log with
  | nil => rfl
  | cons p l ih =>
    obtain ⟨k, r⟩ := p
    by_cases hgo : (fn s k r).2 = true
    · simp only [visit, logged, hgo, if_true]
      exact ih ..
    · simp [visit, logged, hgo]

lemma visit_logged (fn : Callback σ κ ρ) (s : σ) (l : List (κ × ρ)) :
    visit (logged fn) (s, []) l = (visit fn s l, visited fn s l) := by
  refine Prod.ext (visit_logged_fst fn s [] l) ?_
  rw [visit_logged_snd, nil_append]

end TwoTree.Lib.Visit
