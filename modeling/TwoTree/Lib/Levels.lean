import TwoTree.Lib.OrderedMap

/-!
# Tables that shadow each other

A log-structured store is a stack of tables.  A write goes into the table on top, and a read takes
the record of the uppermost table that has one.  The tables are numbered from the bottom, and
`newest tables k lo n` is what a read finds for `k` among the `n` tables from number `lo` on.

The lemmas say what a change of one table means for such a read: a table outside the range does not
matter (`newest_congr`), a range is read from its upper part first (`newest_add`), and a record that
is replaced where it is, is found in its place (`newest_replace`).
-/

namespace TwoTree.Lib.Levels

open Std OrderedMap Function

variable {β : Type*} {tables tables' : ℕ → TreeMap ℕ β} {k lo n i : ℕ} {b : β}

/-- The record of the uppermost table that has one, with the number of that table. -/
def newest (tables : ℕ → TreeMap ℕ β) (k lo : ℕ) : ℕ → Option (ℕ × β)
  | 0 => none
  | n + 1 =>
    match (tables (lo + n))[k]? with
    | some b => some (lo + n, b)
    | none => newest tables k lo n

lemma newest_succ (tables : ℕ → TreeMap ℕ β) (k lo n : ℕ) :
    newest tables k lo (n + 1) =
      ((tables (lo + n))[k]?.map (fun b => (lo + n, b))).or (newest tables k lo n) := by
  rw [newest]
  rcases (tables (lo + n))[k]? with _ | b <;> rfl

lemma newest_mem (h : newest tables k lo n = some (i, b)) :
    lo ≤ i ∧ i < lo + n ∧ (tables i)[k]? = some b := by
  induction n with
  | zero => cases h
  | succ n ih =>
    rw [newest_succ] at h
    rcases hb : (tables (lo + n))[k]? with _ | b'
    · rw [hb] at h
      obtain ⟨hlo, hi, hrecord⟩ := ih h
      exact ⟨hlo, by omega, hrecord⟩
    · obtain ⟨rfl, rfl⟩ : lo + n = i ∧ b' = b := by simpa [hb] using h
      exact ⟨by omega, by omega, hb⟩

lemma newest_congr (h : ∀ j, lo ≤ j → j < lo + n → (tables' j)[k]? = (tables j)[k]?) :
    newest tables' k lo n = newest tables k lo n := by
  induction n with
  | zero => rfl
  | succ n ih =>
    rw [newest_succ, newest_succ, h (lo + n) (by omega) (by omega),
      ih (fun j hlo hj => h j hlo (by omega))]

/-- A range is read from its upper part first. -/
lemma newest_add (tables : ℕ → TreeMap ℕ β) (k lo n n' : ℕ) :
    newest tables k lo (n + n') = (newest tables k (lo + n) n').or (newest tables k lo n) := by
  induction n' with
  | zero => rfl
  | succ n' ih => rw [← add_assoc, newest_succ, ih, newest_succ, Option.or_assoc, add_assoc]

/-- A range with a record has a newest one. -/
lemma newest_ne_none (hlo : lo ≤ i) (hi : i < lo + n) (h : (tables i)[k]? ≠ none) :
    newest tables k lo n ≠ none := by
  obtain ⟨d, rfl⟩ := Nat.exists_eq_add_of_le hlo
  obtain ⟨e, rfl⟩ : ∃ e, n = d + 1 + e := Nat.exists_eq_add_of_lt (by omega : d < n) |>.imp
    (fun e he => by omega)
  obtain ⟨b, hb⟩ := Option.ne_none_iff_exists'.1 h
  rw [newest_add, newest_succ, hb]
  rcases newest tables k (lo + (d + 1)) e <;> simp

/-- A record is replaced where it is. -/
lemma newest_replace {k' : ℕ} {b' : β} (h : (tables i)[k]? = some b) (lo n : ℕ) :
    newest (update tables i ((tables i).insert k b')) k' lo n =
      (newest tables k' lo n).map (fun r => if k' = k ∧ r.1 = i then (i, b') else r) := by
  have htables : ∀ j, (update tables i ((tables i).insert k b') j)[k']? =
      if k' = k ∧ j = i then some b' else (tables j)[k']? := by
    intro j
    rcases eq_or_ne j i with rfl | hj
    · rw [update_self, getElem?_insert]
      simp [eq_comm]
    · rw [update_of_ne hj, if_neg (fun hc => hj hc.2)]
  induction n with
  | zero => rfl
  | succ n ih =>
    rw [newest_succ, newest_succ, ih, htables]
    split_ifs with hki
    · obtain ⟨rfl, rfl⟩ := hki
      simp [h]
    · rcases (tables (lo + n))[k']? with _ | c
      · rfl
      · simp [hki]

end TwoTree.Lib.Levels
