import Mathlib.Tactic

/-!
# Machine words

The stores of this repository are keyed and versioned by 64-bit unsigned integers.  They are
natural numbers here, and the two operations that can leave the range reduce explicitly.
-/

namespace TwoTree

/-- Reduction to the range of a `u64`. -/
def u64 (n : ℕ) : ℕ := n % 2 ^ 64

/-- Subtraction of `u64`s, which wraps below zero. -/
def u64Sub (a b : ℕ) : ℕ := (a + (2 ^ 64 - b)) % 2 ^ 64

lemma u64_of_lt {n : ℕ} (h : n < 2 ^ 64) : u64 n = n := Nat.mod_eq_of_lt h

/-- `numeric_limits<Key>::max()`: the adapters are instantiated at 64-bit keys. -/
def maxKey : ℕ := 2 ^ 64 - 1

end TwoTree
