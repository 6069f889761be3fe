import Mathlib.Tactic

/-!
# Lists cut in two

A list written as `A ++ B` or `A ++ x :: B`: what stands at the cut, what goes in there and what comes
out, and where a sorted list is cut by a key.
-/

namespace TwoTree.Lib.ListCut

open List

section Place

variable {α : Type*} {A B : List α} {a : α}

lemma getElem?_cut : (A ++ a :: B)[A.length]? = some a := by simp

lemma insertIdx_cut : (A ++ B).insertIdx A.length a = A ++ a :: B := by
  induction A with
  | nil => rfl
  | cons x A ih => simp [ih]

lemma eraseIdx_cut : (A ++ a :: B).eraseIdx A.length = A ++ B := by
  rw [eraseIdx_append_of_length_le le_rfl, Nat.sub_self, eraseIdx_cons_zero]

lemma modify_cut (f : α → α) : (A ++ a :: B).modify A.length f = A ++ f a :: B := by
  induction A with
  | nil => rfl
  | cons x A ih => simp [ih]

lemma map_modify {β : Type*} {g : α → β} {f : α → α} (h : ∀ a, g (f a) = g a) (l : List α) (i : ℕ) :
    (l.modify i f).map g = l.map g := by
  refine ext_getElem? fun j => ?_
  rw [List.getElem?_map, List.getElem?_map, List.getElem?_modify, Option.map_eq_map, Option.map_map]
  congr 1
  funext a
  rw [Function.comp_apply]
  split
  · exact h a
  · rfl

lemma exists_eq_cut {l : List α} {i : ℕ} (h : l[i]? = some a) :
    ∃ A B, l = A ++ a :: B ∧ A.length = i := by
  obtain ⟨hi, rfl⟩ := List.getElem?_eq_some_iff.1 h
  refine ⟨l.take i, l.drop (i + 1), ?_, length_take_of_le hi.le⟩
  rw [← drop_eq_getElem_cons hi, take_append_drop]

end Place

/-! ## Sorted lists cut at a key -/

section Sorted

variable {α : Type*} [LinearOrder α] {key : α}

/-- **A list cut at a key**: the first entry that is not below the key stands behind the cut. -/
lemma findIdx_append {A B : List α} (hA : ∀ a ∈ A, a < key) (hB : ∀ b ∈ B.head?, key ≤ b) :
    ((A ++ B).findIdx fun k => key ≤ k) = A.length := by
  have hnone : (A.findIdx fun k => key ≤ k) = A.length := by
    rw [findIdx_eq_length]
    simpa using hA
  have hfirst : (B.findIdx fun k => key ≤ k) = 0 := by
    cases B with
    | nil => rfl
    | cons b B => simp [findIdx_cons, hB b rfl]
  rw [List.findIdx_append, hnone, if_neg (lt_irrefl _), hfirst, zero_add]

/-- Entries with sorted keys can be cut at a key. -/
lemma exists_cut {ρ : Type*} {f : ρ → α} {l : List ρ} (hsorted : (l.map f).Pairwise (· < ·))
    (key : α) : ∃ A B, l = A ++ B ∧ (∀ a ∈ A, f a < key) ∧ ∀ b ∈ B, key ≤ f b := by
  refine ⟨l.takeWhile fun r => f r < key, l.dropWhile fun r => f r < key,
    takeWhile_append_dropWhile.symm, ?_, ?_⟩
  · intro a ha
    simpa using all_eq_true.1 all_takeWhile a ha
  intro b hb
  have hdrop : ((l.dropWhile fun r => f r < key).map f).Pairwise (· < ·) :=
    hsorted.sublist ((dropWhile_sublist _).map f)
  cases hl : l.dropWhile fun r => f r < key with
  | nil =>
    rw [hl] at hb
    exact absurd hb not_mem_nil
  | cons x rest =>
    have hx : key ≤ f x := by
      have hne : l.dropWhile (fun r => f r < key) ≠ [] := by simp [hl]
      have hhead := head_dropWhile_not (fun r => decide (f r < key)) hne
      simpa [hl] using hhead
    rw [hl] at hb hdrop
    rw [map_cons, pairwise_cons] at hdrop
    rcases mem_cons.1 hb with rfl | hb
    · exact hx
    · exact hx.trans (hdrop.1 _ (mem_map_of_mem hb)).le

section Filter

variable {ρ : Type*} {f : ρ → α} {l : List ρ}

/-- The cut of a list by a key, and its place. -/
lemma exists_cut_findIdx (hsorted : (l.map f).Pairwise (· < ·)) (key : α) :
    ∃ A B, l = A ++ B ∧ (∀ a ∈ A, f a < key) ∧ (∀ b ∈ B, key ≤ f b) ∧
      ((l.map f).findIdx fun k => key ≤ k) = A.length := by
  obtain ⟨A, B, rfl, hA, hB⟩ := exists_cut hsorted key
  refine ⟨A, B, rfl, hA, hB, ?_⟩
  rw [map_append, findIdx_append, length_map]
  · simpa using hA
  · intro b hb
    obtain ⟨r, hr, rfl⟩ := mem_map.1 (mem_of_mem_head? hb)
    exact hB r hr

lemma filter_le_eq_drop (hsorted : (l.map f).Pairwise (· < ·)) (key : α) :
    (l.filter fun r => key ≤ f r) = l.drop ((l.map f).findIdx fun k => key ≤ k) := by
  obtain ⟨A, B, rfl, hA, hB, hidx⟩ := exists_cut_findIdx hsorted key
  have hnone : (A.filter fun r => key ≤ f r) = [] := by simpa using hA
  have hall : (B.filter fun r => key ≤ f r) = B := by simpa using hB
  rw [hidx, filter_append, hnone, hall, drop_left, nil_append]

end Filter

end Sorted

end TwoTree.Lib.ListCut
