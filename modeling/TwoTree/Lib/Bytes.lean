import Mathlib.Tactic

/-!
# Numbers in memory

The bytes of a number, the least significant one first, and back; and the order of bytes.
-/

namespace TwoTree.Lib.Bytes

instance linearOrderUInt8 : LinearOrder UInt8 where
  le_refl := UInt8.le_refl
  le_trans _ _ _ := UInt8.le_trans
  lt_iff_le_not_ge a b := by
    rw [UInt8.lt_iff_toNat_lt, UInt8.le_iff_toNat_le, UInt8.le_iff_toNat_le]
    exact lt_iff_le_not_ge
  le_antisymm _ _ := UInt8.le_antisymm
  le_total := UInt8.le_total
  toDecidableLE := inferInstance
  toDecidableEq := inferInstance
  toDecidableLT := inferInstance

/-- The `n` bytes of a number in memory, the least significant one first. -/
def leBytes : ℕ → ℕ → List UInt8
  | 0, _ => []
  | n + 1, k => UInt8.ofNat k :: leBytes n (k / 256)

/-- The number with the given bytes. -/
def ofLeBytes : List UInt8 → ℕ
  | [] => 0
  | b :: bs => b.toNat + 256 * ofLeBytes bs

lemma length_leBytes (n k : ℕ) : (leBytes n k).length = n := by
  induction n generalizing k with
  | zero => rfl
  | succ n ih => simp [leBytes, ih]

lemma ofLeBytes_leBytes {n k : ℕ} (h : k < 256 ^ n) : ofLeBytes (leBytes n k) = k := by
  induction n generalizing k with
  | zero =>
    have hk : k = 0 := by simpa using h
    simp [leBytes, ofLeBytes, hk]
  | succ n ih =>
    have hdiv : k / 256 < 256 ^ n := by
      rw [pow_succ] at h
      exact Nat.div_lt_of_lt_mul (by omega)
    have hbyte : (UInt8.ofNat k).toNat = k % 256 := by simp
    rw [leBytes, ofLeBytes, ih hdiv, hbyte]
    omega

lemma leBytes_ofLeBytes (l : List UInt8) : leBytes l.length (ofLeBytes l) = l := by
  induction l with
  | nil => rfl
  | cons b l ih =>
    have hlt : b.toNat < 256 := b.toNat_lt
    have hdiv : (b.toNat + 256 * ofLeBytes l) / 256 = ofLeBytes l := by omega
    have hmod : UInt8.ofNat (b.toNat + 256 * ofLeBytes l) = b := by
      refine UInt8.toNat_inj.1 ?_
      rw [UInt8.toNat_ofNat']
      omega
    rw [List.length_cons, leBytes, ofLeBytes, hdiv, hmod, ih]

lemma ofLeBytes_lt (l : List UInt8) : ofLeBytes l < 256 ^ l.length := by
  induction l with
  | nil => exact Nat.one_pos
  | cons b l ih =>
    have hlt : b.toNat < 256 := b.toNat_lt
    rw [ofLeBytes, List.length_cons, pow_succ]
    omega

end TwoTree.Lib.Bytes
