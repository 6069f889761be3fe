import TwoTree.Lib.Bytes

/-!
# The order of byte strings

Byte strings are ordered lexicographically.  Three ways to compare less than the whole strings:

* strings between two strings that share their first bytes share them too (`isPrefix_of_between`), and
  strings that share them are ordered by the rest (`compares_append_iff`);
* `headValue n` reads the first `n` bytes as a number, filled up with zeros.  A smaller number means a
  smaller string (`lt_of_headValue_lt`);
* where the numbers agree and one of the strings has no more than `n` bytes, the lengths decide
  (`compares_of_headValue_eq`).
-/

namespace TwoTree.Lib.ByteOrder

open Lib.Bytes List

section Words

variable {α : Type*} [LinearOrder α] {l l' : List UInt8}

lemma cons_lt_cons_self_iff (a : α) (l l' : List α) : a :: l < a :: l' ↔ l < l' := by
  rw [cons_lt_cons_iff]
  simp

lemma append_lt_append_iff (p l l' : List α) : p ++ l < p ++ l' ↔ l < l' := by
  induction p with
  | nil => rfl
  | cons a p ih => rw [cons_append, cons_append, cons_lt_cons_self_iff, ih]

lemma compares_append_iff (o : Ordering) (p l l' : List α) :
    o.Compares (p ++ l) (p ++ l') ↔ o.Compares l l' := by
  cases o with
  | lt => exact append_lt_append_iff p l l'
  | eq => exact append_right_inj p
  | gt => exact append_lt_append_iff p l' l

/-- **A string with a least element appended is the next one.** -/
lemma append_singleton_le_iff {z : α} (hz : ∀ a, z ≤ a) (l l' : List α) :
    l ++ [z] ≤ l' ↔ l < l' := by
  induction l generalizing l' with
  | nil =>
    cases l' with
    | nil => simp
    | cons b l' =>
      have hle : [z] ≤ b :: l' := by
        rw [← not_lt, cons_lt_cons_iff]
        rintro (hlt | ⟨-, hlt⟩)
        · exact absurd hlt (not_lt.2 (hz b))
        · exact not_lt_nil _ hlt
      exact iff_of_true hle (nil_lt_cons b l')
  | cons a l ih =>
    cases l' with
    | nil => simp
    | cons b l' =>
      rw [cons_append, ← not_lt, cons_lt_cons_iff, cons_lt_cons_iff, not_or,
        not_and, not_lt, not_lt, ih]
      constructor
      · rintro ⟨hab, hl⟩
        rcases hab.lt_or_eq with hlt | rfl
        · exact .inl hlt
        · exact .inr ⟨rfl, hl rfl⟩
      · rintro (hlt | ⟨rfl, hl⟩)
        · exact ⟨hlt.le, fun heq => absurd heq.symm hlt.ne⟩
        · exact ⟨le_refl _, fun _ => hl⟩

/-- **Strings between two that begin alike begin like them.** -/
lemma isPrefix_of_between {p lo hi k : List α} (hlo : p <+: lo) (hhi : p <+: hi) (hlt : lo < k)
    (hle : k ≤ hi) : p <+: k := by
  induction p generalizing lo hi k with
  | nil => exact nil_prefix
  | cons a p ih =>
    obtain ⟨lo', rfl⟩ := hlo
    obtain ⟨hi', rfl⟩ := hhi
    cases k with
    | nil => exact absurd hlt (not_lt_nil _)
    | cons b k =>
      rw [cons_append, cons_lt_cons_iff] at hlt
      rw [← not_lt, cons_append, cons_lt_cons_iff, not_or, not_and, not_lt] at hle
      have hab : a = b := by
        rcases hlt with hab | ⟨hab, -⟩
        · exact absurd hab (not_lt.2 hle.1)
        · exact hab
      subst hab
      have hlt' : p ++ lo' < k := by simpa using hlt
      have hle' : k ≤ p ++ hi' := not_lt.1 (hle.2 rfl)
      exact cons_prefix_cons.2
        ⟨rfl, ih (prefix_append _ _) (prefix_append _ _) hlt' hle'⟩

end Words

/-! ## The first bytes as a number -/

/-- The number that the first `n` bytes are, the most significant one first; missing bytes are zeros. -/
def headValue : ℕ → List UInt8 → ℕ
  | 0, _ => 0
  | _ + 1, [] => 0
  | n + 1, b :: l => b.toNat * 256 ^ n + headValue n l

lemma headValue_lt (n : ℕ) (l : List UInt8) : headValue n l < 256 ^ n := by
  induction n generalizing l with
  | zero => exact Nat.one_pos
  | succ n ih =>
    cases l with
    | nil => exact Nat.pow_pos (by norm_num)
    | cons b l =>
      have hb : b.toNat + 1 ≤ 256 := b.toNat_lt
      calc b.toNat * 256 ^ n + headValue n l < b.toNat * 256 ^ n + 256 ^ n := by
            have := ih l
            omega
        _ = (b.toNat + 1) * 256 ^ n := by ring
        _ ≤ 256 * 256 ^ n := Nat.mul_le_mul_right _ hb
        _ = 256 ^ (n + 1) := by ring

/-- The first byte and the rest can be read off the number. -/
lemma headValue_cons_lt_iff {n : ℕ} {b b' : UInt8} :
    headValue (n + 1) (b :: l) < headValue (n + 1) (b' :: l') ↔
      b < b' ∨ b = b' ∧ headValue n l < headValue n l' := by
  have hl := headValue_lt n l
  have hl' := headValue_lt n l'
  rw [headValue, headValue, UInt8.lt_iff_toNat_lt]
  rcases lt_trichotomy b.toNat b'.toNat with hlt | heq | hgt
  · have hmul : (b.toNat + 1) * 256 ^ n ≤ b'.toNat * 256 ^ n := Nat.mul_le_mul_right _ hlt
    rw [add_mul, one_mul] at hmul
    constructor
    · intro _
      exact Or.inl hlt
    · intro _
      omega
  · obtain rfl := UInt8.toNat_inj.1 heq
    simp
  · have hmul : (b'.toNat + 1) * 256 ^ n ≤ b.toNat * 256 ^ n := Nat.mul_le_mul_right _ hgt
    rw [add_mul, one_mul] at hmul
    constructor
    · intro h
      omega
    · rintro (h | ⟨rfl, -⟩)
      · omega
      · omega

/-- **A smaller number means a smaller string.** -/
lemma lt_of_headValue_lt {n : ℕ} (h : headValue n l < headValue n l') :
    l < l' := by
  induction n generalizing l l' with
  | zero => exact absurd h (by simp [headValue])
  | succ n ih =>
    cases l' with
    | nil => exact absurd h (by simp [headValue])
    | cons b' l' =>
      cases l with
      | nil => exact nil_lt_cons b' l'
      | cons b l =>
        rcases headValue_cons_lt_iff.1 h with hlt | ⟨rfl, hlt⟩
        · exact cons_lt_cons_iff.2 (Or.inl hlt)
        · exact cons_lt_cons_iff.2 (Or.inr ⟨rfl, ih hlt⟩)

lemma headValue_mono {n : ℕ} (h : l ≤ l') : headValue n l ≤ headValue n l' := by
  by_contra hlt
  exact absurd (lt_of_headValue_lt (not_le.1 hlt)) (not_lt.2 h)

/-- Only the empty string is not greater than the empty string. -/
lemma compares_nil (l : List UInt8) : (compare l.length ([] : List UInt8).length).Compares l [] := by
  cases l with
  | nil => rfl
  | cons b l => exact nil_lt_cons b l

/-- **Equal numbers**: if one of the strings is read completely, the shorter one is the smaller. -/
lemma compares_of_headValue_eq {n : ℕ} (h : headValue n l = headValue n l')
    (hn : l'.length ≤ n) : (compare l.length l'.length).Compares l l' := by
  induction n generalizing l l' with
  | zero =>
    obtain rfl := length_eq_zero_iff.1 (Nat.le_zero.1 hn)
    exact compares_nil l
  | succ n ih =>
    cases l' with
    | nil => exact compares_nil l
    | cons b' l' =>
      cases l with
      | nil => exact nil_lt_cons b' l'
      | cons b l =>
        have hnot := headValue_cons_lt_iff.not.1 h.not_lt
        have hnot' := headValue_cons_lt_iff.not.1 h.symm.not_lt
        simp only [not_or, not_and, not_lt] at hnot hnot'
        obtain rfl : b = b' := le_antisymm hnot'.1 hnot.1
        have heq : headValue n l = headValue n l' := le_antisymm (hnot'.2 rfl) (hnot.2 rfl)
        have hcmp : compare (b :: l).length (b :: l').length = compare l.length l'.length := by
          simp [Nat.compare_eq_ite_lt]
        rw [hcmp]
        exact (compares_append_iff _ [b] l l').2 (ih heq (by simpa using hn))

end TwoTree.Lib.ByteOrder
