import Mathlib.Tactic

/-!
# Threads that take turns

Any number of threads work on one shared state.  Each thread stands at some place of its own
program, with its local variables, and a step of the program moves the thread whose turn it is: it
changes the shared state and that thread's place, and may record an event.  What the step does
beyond that is decided by an input, which stands for the choices of the environment.

A `Run` is any interleaving of steps, each allowed by a predicate on the state it starts from.  An
invariant is established by `Run.invariant`; a concrete run is carried out by `exec` and is one by
`Run.exec`.
-/

namespace TwoTree.Lib.Interleaving

open Function Interleaving

variable {σ ρ ι ε : Type*}

/-- What the threads share, and the place where each of them stands. -/
structure State (σ ρ : Type*) where
  shared : σ
  place : ℕ → ρ

/-- A program: what one step does to the shared state and to the place of the thread. -/
abbrev Program (σ ρ ι ε : Type*) := ι → σ → ρ → σ × ρ × Option ε

variable {f : Program σ ρ ι ε} {ok : State σ ρ → ℕ → ι → Prop} {s s₀ : State σ ρ}
  {es : List ε} {schedule : List (ℕ × ι)}

/-- One step of thread `t`. -/
def State.step (f : Program σ ρ ι ε) (s : State σ ρ) (t : ℕ) (i : ι) : State σ ρ × Option ε :=
  let (a, p, e) := f i s.shared (s.place t)
  (⟨a, update s.place t p⟩, e)

/-- The interleavings of steps that start at `s₀`, with the events they record. -/
inductive Run (f : Program σ ρ ι ε) (ok : State σ ρ → ℕ → ι → Prop) (s₀ : State σ ρ) :
    List ε → State σ ρ → Prop
  | nil : Run f ok s₀ [] s₀
  | snoc {es : List ε} {s : State σ ρ} (t : ℕ) (i : ι) : Run f ok s₀ es s → ok s t i →
      Run f ok s₀ (es ++ (s.step f t i).2.toList) (s.step f t i).1

lemma State.step_eq (s : State σ ρ) (t : ℕ) (i : ι) :
    s.step f t i = (⟨(f i s.shared (s.place t)).1,
      update s.place t (f i s.shared (s.place t)).2.1⟩,
      (f i s.shared (s.place t)).2.2) := rfl

/-- **The rule of invariants**: what holds at the start and is kept by every allowed step holds
along every run. -/
lemma Run.invariant {P : List ε → State σ ρ → Prop} (h : Run f ok s₀ es s) (hinit : P [] s₀)
    (hstep : ∀ es s t i, P es s → ok s t i →
      P (es ++ (s.step f t i).2.toList) (s.step f t i).1) : P es s := by
  induction h with
  | nil => exact hinit
  | snoc t i _ hok ih => exact hstep _ _ t i ih hok

lemma Run.step_of {t : ℕ} {i : ι} {a : σ} {p q : ρ} {e : Option ε} (h : Run f ok s₀ es s)
    (hok : ok s t i) (hplace : s.place t = p) (hstep : f i s.shared p = (a, q, e)) :
    Run f ok s₀ (es ++ e.toList) ⟨a, update s.place t q⟩ := by
  have hrun := Run.snoc t i h hok
  rwa [State.step_eq, hplace, hstep] at hrun

/-! ## Schedules -/

/-- A schedule, carried out; the events are those recorded so far. -/
def exec (f : Program σ ρ ι ε) (p : State σ ρ × List ε) (schedule : List (ℕ × ι)) :
    State σ ρ × List ε :=
  schedule.foldl (fun p i => ((p.1.step f i.1 i.2).1, p.2 ++ (p.1.step f i.1 i.2).2.toList)) p

/-- Every step of the schedule is allowed. -/
def Allows (f : Program σ ρ ι ε) (ok : State σ ρ → ℕ → ι → Prop) :
    State σ ρ → List (ℕ × ι) → Prop
  | _, [] => True
  | s, (t, i) :: schedule => ok s t i ∧ Allows f ok (s.step f t i).1 schedule

instance decidableAllows (f : Program σ ρ ι ε) (ok : State σ ρ → ℕ → ι → Prop)
    [∀ s t i, Decidable (ok s t i)] :
    (s : State σ ρ) → (schedule : List (ℕ × ι)) → Decidable (Allows f ok s schedule)
  | _, [] => isTrue trivial
  | s, (t, i) :: schedule =>
    have := decidableAllows f ok (s.step f t i).1 schedule
    inferInstanceAs (Decidable (_ ∧ _))

lemma allows_append {l l' : List (ℕ × ι)} (es : List ε) (h : Allows f ok s l)
    (h' : Allows f ok (exec f (s, es) l).1 l') : Allows f ok s (l ++ l') := by
  induction l generalizing s es with
  | nil => exact h'
  | cons i l ih => exact ⟨h.1, ih _ h.2 h'⟩

lemma Run.exec (h : Run f ok s₀ es s) (hok : Allows f ok s schedule) :
    Run f ok s₀ (exec f (s, es) schedule).2
      (exec f (s, es) schedule).1 := by
  induction schedule generalizing s es with
  | nil => exact h
  | cons i schedule ih => exact ih (.snoc i.1 i.2 h hok.1) hok.2

lemma Run.of_exec (f : Program σ ρ ι ε) (ok : State σ ρ → ℕ → ι → Prop) (s : State σ ρ)
    (schedule : List (ℕ × ι)) (hok : Allows f ok s schedule) :
    Run f ok s (Interleaving.exec f (s, []) schedule).2
      (Interleaving.exec f (s, []) schedule).1 :=
  Run.exec .nil hok

lemma place_step_of_ne {t t' : ℕ} (s : State σ ρ) (i : ι) (h : t' ≠ t) :
    (s.step f t i).1.place t' = s.place t' := by
  rw [State.step_eq]
  exact update_of_ne h _ _

/-- A thread that has no turn stays where it is. -/
lemma place_exec_of_notMem {t : ℕ} (h : t ∉ schedule.map Prod.fst) (s : State σ ρ) (es : List ε) :
    (exec f (s, es) schedule).1.place t = s.place t := by
  induction schedule generalizing s es with
  | nil => rfl
  | cons i schedule ih =>
    simp only [List.map_cons, List.mem_cons, not_or] at h
    exact (ih h.2 _ _).trans (place_step_of_ne s i.2 h.1)

/-- If the threads that have a turn end up at a place where all threads were, all threads are there
again. -/
lemma place_exec_eq {p : ρ} (es : List ε) (hs : ∀ t, s.place t = p)
    (h : ∀ t ∈ schedule.map Prod.fst, (exec f (s, es) schedule).1.place t = p) (t : ℕ) :
    (exec f (s, es) schedule).1.place t = p := by
  by_cases ht : t ∈ schedule.map Prod.fst
  · exact h t ht
  · rw [place_exec_of_notMem ht]
    exact hs t

end TwoTree.Lib.Interleaving
