import Mathlib.Tactic

/-!
# Ring buffers with two cursors

A buffer of bytes that one party fills and another one drains.  The reader's cursor `r` runs behind
the writer's cursor `w`; if it is above, the writer has gone back to the start and the reader has not.
`Pending size r w` are the positions that are filled, and `Within r c w` says that a cursor `c`, which
the reader has noted and not yet reached, lies on its way.

The cursors alone do not tell a full buffer from an empty one.  A writer that has `Room size slack r w n`
for `n` more bytes does not catch up with the reader, and keeps `slack` bytes free at the end.
-/

namespace TwoTree.Lib.RingBuffer

variable {size slack r c w n k i : ℕ}

/-- The positions from the reader to the writer. -/
def Pending (size r w i : ℕ) : Prop :=
  if r ≤ w then r ≤ i ∧ i < w else (r ≤ i ∧ i < size) ∨ i < w

/-- The cursor `c` lies on the way from the reader to the writer. -/
def Within (r c w : ℕ) : Prop := if r ≤ w then r ≤ c ∧ c ≤ w else r ≤ c ∨ c ≤ w

instance : Decidable (Pending size r w i) := inferInstanceAs (Decidable (ite _ _ _))

instance : Decidable (Within r c w) := inferInstanceAs (Decidable (ite _ _ _))

/-- The writer can fill `n` positions without going back to the start. -/
structure Room (size slack r w n : ℕ) : Prop where
  inside : w + n + slack ≤ size
  below : w < r → w + n < r

lemma within_self (r w : ℕ) : Within r w w := by
  unfold Within
  split <;> omega

/-- If the reader is behind the writer on the same lap, so is every cursor on its way. -/
lemma Within.le (h : Within r c w) (hle : r ≤ w) : r ≤ c ∧ c ≤ w := by
  simpa [Within, if_pos hle] using h

lemma Within.or_of_lt (h : Within r c w) (hlt : w < r) : r ≤ c ∨ c ≤ w := by
  simpa [Within, if_neg (not_le.2 hlt)] using h

lemma Within.append (h : Within r c w) (hroom : Room size slack r w n) (hk : k ≤ n) :
    Within r c (w + k) := by
  have hbelow := hroom.below
  unfold Within at h ⊢
  split_ifs at h ⊢ <;> omega

lemma Within.wrap (h : Within r c w) (hr : 0 < r) (hle : r ≤ w ∨ w = 0) : Within r c 0 := by
  unfold Within at h ⊢
  split_ifs at h ⊢ <;> omega

lemma Within.le_of_le (h : Within r c w) (hle : r ≤ w) : c ≤ w := (h.le hle).2

variable (h : Room size slack r w n)
include h

/-- **The reader makes room.** -/
lemma Room.advance (hc : Within r c w) : Room size slack c w n := by
  refine ⟨h.inside, fun hlt => ?_⟩
  rcases le_or_gt r w with hle | hgt
  · exact absurd (hc.le_of_le hle) (by omega)
  · have hbelow := h.below hgt
    rcases hc.or_of_lt hgt with hrc | hcw
    · omega
    · omega

lemma Room.use (hk : k ≤ n) : Room size slack r (w + k) (n - k) := by
  have hinside := h.inside
  have hbelow := h.below
  refine ⟨by omega, fun hlt => ?_⟩
  omega

lemma Room.not_pending (hi : w ≤ i) (hin : i < w + n) : ¬ Pending size r w i := by
  have hbelow := h.below
  unfold Pending
  split_ifs <;> omega

/-- The cursors meet only if there was nothing between them, and nothing is written. -/
lemma Room.apart (heq : w + n = r) : n = 0 ∧ w = r := by
  have hbelow := h.below
  omega

end TwoTree.Lib.RingBuffer
