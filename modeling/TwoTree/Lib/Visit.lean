import Mathlib.Tactic

/-!
# Callbacks

A scan hands records to a callback, one after the other, until the callback does not want more.  The
callback may keep a state.
-/

namespace TwoTree.Lib.Visit

variable {σ κ ρ : Type*}

/-- A callback changes some state, and says whether the scan shall go on. -/
abbrev Callback (σ κ ρ : Type*) := σ → κ → ρ → σ × Bool

/-- The callback is called on the records one after the other, until it returns `false`. -/
def visit (fn : Callback σ κ ρ) : σ → List (κ × ρ) → σ
  | s, [] => s
  | s, (k, r) :: l => if (fn s k r).2 then visit fn (fn s k r).1 l else (fn s k r).1

/-- The records on which the callback is called. -/
def visited (fn : Callback σ κ ρ) : σ → List (κ × ρ) → List (κ × ρ)
  | _, [] => []
  | s, (k, r) :: l => (k, r) :: if (fn s k r).2 then visited fn (fn s k r).1 l else []

/-- A callback that also notes its calls. -/
def logged (fn : Callback σ κ ρ) : Callback (σ × List (κ × ρ)) κ ρ :=
  fun s k r => (((fn s.1 k r).1, s.2 ++ [(k, r)]), (fn s.1 k r).2)

lemma visit_logged_snd (fn : Callback σ κ ρ) (s : σ) (log l : List (κ × ρ)) :
    (visit (logged fn) (s, log) l).2 = log ++ visited fn s l := by
  induction l generalizing s log with
  | nil => simp [visit, visited]
  | cons p l ih =>
    obtain ⟨k, r⟩ := p
    by_cases hgo : (fn s k r).2 = true
    · simp only [visit, visited, logged, hgo, if_true]
      rw [ih, List.append_assoc, List.singleton_append]
    · simp [visit, visited, logged, hgo]

/-- A scan of other records by a callback that translates them. -/
lemma visit_map {ρ' : Type*} {fn : Callback σ κ ρ} {fn' : Callback σ κ ρ'} {g : κ × ρ' → ρ}
    {l : List (κ × ρ')} (h : ∀ p ∈ l, ∀ s, fn' s p.1 p.2 = fn s p.1 (g p)) (s : σ) :
    visit fn' s l = visit fn s (l.map fun p => (p.1, g p)) := by
  induction l generalizing s with
  | nil => rfl
  | cons p l ih =>
    have hp := h p List.mem_cons_self s
    have hl : ∀ q ∈ l, ∀ s, fn' s q.1 q.2 = fn s q.1 (g q) :=
      fun q hq => h q (List.mem_cons_of_mem p hq)
    rw [List.map_cons, visit, visit, hp, ih hl]

end TwoTree.Lib.Visit
