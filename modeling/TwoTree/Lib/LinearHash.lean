import Mathlib.Tactic

/-!
# The address function of linear hashing

A table of linear hashing has `n * 2 ^ i` buckets at the start of round `i`, and splits them one
after the other: the buckets below the split position `s` have been split.  `address n i s h` is the
bucket of the hash `h`.

Splitting bucket `s` changes the addresses of that bucket only, and leaves each of them where it was
or moves it to the new bucket (`address_succ_of_ne`, `address_succ_eq_or`).  When all buckets of a
round have been split, the addresses are those of the next round's start (`address_round`).
-/

namespace TwoTree.Lib.LinearHash

variable {n i s h : ℕ}

/-- The bucket of a hash. -/
def address (n i s h : ℕ) : ℕ :=
  if h % (n * 2 ^ i) < s then h % (n * 2 ^ (i + 1)) else h % (n * 2 ^ i)

lemma address_of_lt (hs : h % (n * 2 ^ i) < s) : address n i s h = h % (n * 2 ^ (i + 1)) :=
  if_pos hs

lemma address_of_le (hs : s ≤ h % (n * 2 ^ i)) : address n i s h = h % (n * 2 ^ i) :=
  if_neg (not_lt.2 hs)

lemma mod_double (n i h : ℕ) : h % (n * 2 ^ (i + 1)) = h % (n * 2 ^ i) ∨
    h % (n * 2 ^ (i + 1)) = n * 2 ^ i + h % (n * 2 ^ i) := by
  have hmod : h % (n * 2 ^ (i + 1)) = h % (n * 2 ^ i) + n * 2 ^ i * (h / (n * 2 ^ i) % 2) := by
    rw [pow_succ, ← mul_assoc, Nat.mod_mul]
  rcases Nat.mod_two_eq_zero_or_one (h / (n * 2 ^ i)) with h0 | h1
  · left
    rw [hmod, h0, mul_zero, add_zero]
  · right
    rw [hmod, h1, mul_one, add_comm]

lemma address_lt (hn : 0 < n) : address n i s h < n * 2 ^ i + s := by
  have hlt : h % (n * 2 ^ i) < n * 2 ^ i := Nat.mod_lt _ (by positivity)
  rcases lt_or_ge (h % (n * 2 ^ i)) s with hs | hs
  · rw [address_of_lt hs]
    rcases mod_double n i h with heq | heq <;> omega
  · rw [address_of_le hs]
    omega

/-! ## Splitting one more bucket -/

lemma address_succ_of_ne (hs : h % (n * 2 ^ i) ≠ s) :
    address n i (s + 1) h = address n i s h := by
  rcases lt_or_gt_of_ne hs with hlt | hgt
  · rw [address_of_lt hlt, address_of_lt (by omega)]
  · rw [address_of_le (by omega), address_of_le (by omega)]

lemma address_of_eq (hs : h % (n * 2 ^ i) = s) : address n i s h = s := by
  rw [address_of_le hs.ge, hs]

lemma address_succ_of_eq (hs : h % (n * 2 ^ i) = s) :
    address n i (s + 1) h = h % (n * 2 ^ (i + 1)) :=
  address_of_lt (by omega)

/-- What belongs to the bucket about to be split has its position as address in this round. -/
lemma mod_eq_of_address_eq (hs : s < n * 2 ^ i) (h' : address n i s h = s) :
    h % (n * 2 ^ i) = s := by
  rcases lt_or_ge (h % (n * 2 ^ i)) s with hlt | hge
  · rw [address_of_lt hlt] at h'
    rcases mod_double n i h with heq | heq <;> omega
  · rwa [address_of_le hge] at h'

/-- What belongs to the bucket being split stays or moves to the new bucket. -/
lemma address_succ_eq_or (hs : h % (n * 2 ^ i) = s) :
    address n i (s + 1) h = s ∨ address n i (s + 1) h = n * 2 ^ i + s := by
  rw [address_succ_of_eq hs]
  rcases mod_double n i h with heq | heq <;> omega

/-! ## The end of a round -/

/-- **Nothing moves at the end of a round**: with all buckets split, the addresses are those of the
next round, in which no bucket has been split. -/
lemma address_round (hn : 0 < n) : address n (i + 1) 0 h = address n i (n * 2 ^ i) h := by
  rw [address_of_le (Nat.zero_le _), address_of_lt (Nat.mod_lt _ (by positivity))]

end TwoTree.Lib.LinearHash
