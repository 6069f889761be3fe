import Mathlib.Tactic

/-!
# Chains of linked nodes

Nodes with one pointer each, which may be null.  `IsChain next p l` says that the pointer `p` leads
through the nodes `l`, the last of which points nowhere.  Such a chain visits no node twice
(`IsChain.nodup`), and `follow` finds it if it is allowed enough steps.

The pointers are changed one at a time, and one rule covers what that does to a chain: if the
pointer of a node is redirected to another chain, the nodes up to it are followed by that chain
(`IsChain.relink`).

A part of a chain that leads to another pointer instead of ending is a `IsSegment next p l q`.
-/

namespace TwoTree.Lib.Chain

open Function List

variable {α : Type*} {next next' : α → Option α} {p q : Option α} {a : α} {l l' l₁ l₂ : List α}

/-- The pointer `p` leads through the nodes of the list, and no further. -/
def IsChain (next : α → Option α) : Option α → List α → Prop
  | p, [] => p = none
  | p, a :: l => p = some a ∧ IsChain next (next a) l

/-- The nodes that a pointer leads to, as far as the number of steps allows. -/
def follow (next : α → Option α) : ℕ → Option α → List α
  | 0, _ => []
  | _ + 1, none => []
  | n + 1, some a => a :: follow next n (next a)

instance decidableIsChain [DecidableEq α] (next : α → Option α) :
    (p : Option α) → (l : List α) → Decidable (IsChain next p l)
  | p, [] => inferInstanceAs (Decidable (p = none))
  | _, a :: l =>
    have := decidableIsChain next (next a) l
    inferInstanceAs (Decidable (_ ∧ _))

@[simp] lemma isChain_nil : IsChain next p [] ↔ p = none := Iff.rfl

@[simp] lemma isChain_cons : IsChain next p (a :: l) ↔ p = some a ∧ IsChain next (next a) l :=
  Iff.rfl

lemma IsChain.unique (h : IsChain next p l) (h' : IsChain next p l') : l = l' := by
  induction l generalizing p l' with
  | nil =>
    cases l' with
    | nil => rfl
    | cons a l' => exact absurd (h.symm.trans h'.1) (by simp)
  | cons a l ih =>
    cases l' with
    | nil => exact absurd (h'.symm.trans h.1) (by simp)
    | cons b l' =>
      obtain rfl : a = b := Option.some.inj (h.1.symm.trans h'.1)
      rw [ih h.2 h'.2]

lemma IsChain.suffix (h : IsChain next p (l₁ ++ l₂)) : ∃ q, IsChain next q l₂ := by
  induction l₁ generalizing p with
  | nil => exact ⟨p, h⟩
  | cons a l₁ ih => exact ih h.2

/-- From a node of a chain, its pointer leads through the nodes behind it. -/
lemma IsChain.tail (h : IsChain next p (l₁ ++ a :: l₂)) : IsChain next (next a) l₂ := by
  obtain ⟨q, hq⟩ := h.suffix
  exact hq.2

section

variable (h : IsChain next p l)
include h

/-- The node behind a node of a chain. -/
lemma IsChain.append_of_next {b : α} (ha : a ∈ l) (hnext : next a = some b) :
    ∃ l₁ l₂, l = l₁ ++ a :: b :: l₂ := by
  obtain ⟨l₁, l₂, rfl⟩ := append_of_mem ha
  have htail := h.tail
  rw [hnext] at htail
  cases l₂ with
  | nil => cases htail
  | cons b' l₂ => exact ⟨l₁, l₂, by rw [Option.some.inj htail.1]⟩

/-- A node that points nowhere is the last of its chain. -/
lemma IsChain.append_of_last (ha : a ∈ l) (hnext : next a = none) : ∃ l₁, l = l₁ ++ [a] := by
  obtain ⟨l₁, l₂, rfl⟩ := append_of_mem ha
  have htail := h.tail
  rw [hnext] at htail
  obtain rfl : l₂ = [] := htail.unique rfl
  exact ⟨l₁, rfl⟩

/-- A chain visits no node twice: the nodes behind the two visits would be the same. -/
lemma IsChain.nodup : l.Nodup := by
  induction l generalizing p with
  | nil => exact nodup_nil
  | cons a l ih =>
    refine nodup_cons.2 ⟨fun ha => ?_, ih h.2⟩
    obtain ⟨l₁, l₂, rfl⟩ := append_of_mem ha
    have hlen := congrArg List.length (h.2.unique h.2.tail)
    simp only [length_append, length_cons] at hlen
    omega

/-- Only the pointers of its own nodes matter to a chain. -/
lemma IsChain.congr (hnext : ∀ a ∈ l, next' a = next a) : IsChain next' p l := by
  induction l generalizing p with
  | nil => exact h
  | cons a l ih =>
    refine ⟨h.1, ?_⟩
    rw [hnext a mem_cons_self]
    exact ih h.2 (fun b hb => hnext b (mem_cons_of_mem _ hb))

lemma follow_eq {n : ℕ} (hn : l.length ≤ n) : follow next n p = l := by
  induction l generalizing p n with
  | nil =>
    obtain rfl : p = none := h
    cases n <;> rfl
  | cons a l ih =>
    obtain ⟨n, rfl⟩ : ∃ j, n = j + 1 := ⟨n - 1, by simp at hn; omega⟩
    rw [h.1, follow, ih h.2 (by simpa using hn)]

end

/-! ## Changing a pointer -/

section Relink

variable [DecidableEq α]

lemma IsChain.update_of_notMem (h : IsChain next p l) (ha : a ∉ l) :
    IsChain (update next a q) p l :=
  h.congr (fun _ hb => update_of_ne (ne_of_mem_of_not_mem hb ha) _ _)

/-- **The pointer of one node is redirected**: the chain goes on as the new pointer says. -/
lemma IsChain.relink (h : IsChain next p (l₁ ++ a :: l₂))
    (hq : IsChain (update next a q) q l) :
    IsChain (update next a q) p (l₁ ++ a :: l) := by
  induction l₁ generalizing p with
  | nil => exact ⟨h.1, by rwa [update_self]⟩
  | cons b l₁ ih =>
    have hne : b ≠ a := by
      rintro rfl
      exact (nodup_cons.1 h.nodup).1 (by simp)
    refine ⟨h.1, ?_⟩
    rw [update_of_ne hne]
    exact ih h.2

end Relink

/-! ## Segments -/

/-- The pointer `p` leads through the nodes of the list, and then to `q`. -/
def IsSegment (next : α → Option α) : Option α → List α → Option α → Prop
  | p, [], q => p = q
  | p, a :: l, q => p = some a ∧ IsSegment next (next a) l q

instance decidableIsSegment [DecidableEq α] (next : α → Option α) :
    (p : Option α) → (l : List α) → (q : Option α) → Decidable (IsSegment next p l q)
  | p, [], q => inferInstanceAs (Decidable (p = q))
  | _, a :: l, q =>
    have := decidableIsSegment next (next a) l q
    inferInstanceAs (Decidable (_ ∧ _))

lemma IsSegment.append (h : IsSegment next p l q) (hq : IsChain next q l') :
    IsChain next p (l ++ l') := by
  induction l generalizing p with
  | nil =>
    obtain rfl : p = q := h
    exact hq
  | cons a l ih => exact ⟨h.1, ih h.2⟩

/-- Only the pointers of its own nodes matter to a segment. -/
lemma IsSegment.congr (h : IsSegment next p l q) (hnext : ∀ a ∈ l, next' a = next a) :
    IsSegment next' p l q := by
  induction l generalizing p with
  | nil => exact h
  | cons a l ih =>
    refine ⟨h.1, ?_⟩
    rw [hnext a mem_cons_self]
    exact ih h.2 (fun b hb => hnext b (mem_cons_of_mem _ hb))

/-- **The last pointer of a segment is redirected.** -/
lemma IsSegment.relink [DecidableEq α] {q' : Option α} (h : IsSegment next p (l ++ [a]) q)
    (ha : a ∉ l) : IsSegment (update next a q') p (l ++ [a]) q' := by
  induction l generalizing p with
  | nil => exact ⟨h.1, update_self _ _ _⟩
  | cons b l ih =>
    rw [mem_cons, not_or] at ha
    refine ⟨h.1, ?_⟩
    rw [update_of_ne (Ne.symm ha.1)]
    exact ih h.2 ha.2

end TwoTree.Lib.Chain
