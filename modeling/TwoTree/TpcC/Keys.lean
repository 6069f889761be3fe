import TwoTree.Lib.OrderedCode

/-!
# The keys of the TPC-C tables

The key of a table is a list of fields, each an `Integer` or a `Varchar`.  `foldRecord` writes the fields
one after the other as bytes, for a tree that compares bytes: an integer with its sign bit flipped and
its most significant byte first, a string with a zero behind it.  `unfoldRecord` reads them back.

The encoding of a field is an ordered code, so that the encoding of a key is one for the order of the
keys field by field (`foldRecord_orderedCode`).
-/

namespace TwoTree.TpcC

open Lib.Bytes Lib.OrderedCode List

/-! ## Fields -/

/-- The types of the fields of a key. -/
inductive FieldType where
  | integer
  | varchar (maxLength : ℕ)
deriving DecidableEq, Repr

/-- `Varchar`, without zero bytes. -/
structure Varchar (maxLength : ℕ) where
  data : List UInt8
  length_le : data.length ≤ maxLength
  zeroFree : 0 ∉ data
deriving DecidableEq

/-- `memcmp` of as many bytes as both have. -/
def memcmp : List UInt8 → List UInt8 → Ordering
  | a :: as, b :: bs => if a < b then .lt else if b < a then .gt else memcmp as bs
  | _, _ => .eq

/-- `Varchar::operator<`. -/
def Varchar.lt {maxLength : ℕ} (x other : Varchar maxLength) : Bool :=
  let n := if x.data.length < other.data.length then x.data.length else other.data.length
  match memcmp (x.data.take n) (other.data.take n) with
  | .lt => true
  | .gt => false
  | .eq => x.data.length < other.data.length

/-- The values of a field. -/
def FieldType.Value : FieldType → Type
  | .integer => Int32
  | .varchar maxLength => Varchar maxLength

/-- The order of the values of a field: integers by value, strings by `operator<`. -/
def FieldType.lt : (t : FieldType) → t.Value → t.Value → Prop
  | .integer => fun x y : Int32 => x < y
  | .varchar _ => fun x y : Varchar _ => x.lt y = true

/-- `__builtin_bswap32`. -/
def bswap32 (x : UInt32) : UInt32 := UInt32.ofNat (ofLeBytes (leBytes 4 x.toNat).reverse)

/-- `fold` of an integer: the bytes of a `u32` in memory. -/
def foldInteger (x : Int32) : List UInt8 := leBytes 4 (bswap32 (x.toUInt32 ^^^ 0x80000000)).toNat

/-- `unfold` of an integer. -/
def unfoldInteger (input : List UInt8) : Option (Int32 × ℕ) :=
  some ((bswap32 (UInt32.ofNat (ofLeBytes (input.take 4))) ^^^ 0x80000000).toInt32, 4)

/-- `fold` of a string. -/
def foldVarchar {maxLength : ℕ} (x : Varchar maxLength) : List UInt8 := x.data ++ [0]

lemma zero_notMem_takeWhile (input : List UInt8) : 0 ∉ input.takeWhile (· ≠ 0) := by
  intro hmem
  have hall := all_eq_true.1 (all_takeWhile (p := fun b : UInt8 => decide (b ≠ 0))) 0 hmem
  simp at hall

/-- `unfold` of a string; it must fit. -/
def unfoldVarchar (maxLength : ℕ) (input : List UInt8) : Option (Varchar maxLength × ℕ) :=
  let data := input.takeWhile (· ≠ 0)
  if h : data.length ≤ maxLength then
    some (⟨data, h, zero_notMem_takeWhile input⟩, data.length + 1)
  else none

/-- `fold`: the bytes of a field. -/
def fold : (t : FieldType) → t.Value → List UInt8
  | .integer => foldInteger
  | .varchar _ => foldVarchar

/-- `unfold`: the value of a field, and the number of bytes that were read. -/
def unfold : (t : FieldType) → List UInt8 → Option (t.Value × ℕ)
  | .integer => unfoldInteger
  | .varchar maxLength => unfoldVarchar maxLength

/-! ## Keys -/

/-- The keys with the given fields. -/
def Key : List FieldType → Type
  | [] => Unit
  | t :: ts => t.Value × Key ts

/-- The order of the keys, field by field. -/
def Key.lt : (ts : List FieldType) → Key ts → Key ts → Prop
  | [] => fun _ _ => False
  | t :: ts => Prod.Lex t.lt (Key.lt ts)

instance : (t : FieldType) → DecidableEq t.Value
  | .integer => inferInstanceAs (DecidableEq Int32)
  | .varchar maxLength => inferInstanceAs (DecidableEq (Varchar maxLength))

instance : (t : FieldType) → DecidableRel t.lt
  | .integer => inferInstanceAs (DecidableRel (fun x y : Int32 => x < y))
  | .varchar n => inferInstanceAs (DecidableRel (fun x y : Varchar n => x.lt y = true))

instance decidableKeyLt : (ts : List FieldType) → DecidableRel (Key.lt ts)
  | [] => fun _ _ => isFalse id
  | t :: ts =>
    have := decidableKeyLt ts
    inferInstanceAs (DecidableRel (Prod.Lex t.lt (Key.lt ts)))

/-- `foldRecord`. -/
def foldRecord : (ts : List FieldType) → Key ts → List UInt8
  | [] => fun _ => []
  | t :: ts => fun k : t.Value × Key ts => fold t k.1 ++ foldRecord ts k.2

/-- `unfoldRecord`. -/
def unfoldRecord : (ts : List FieldType) → List UInt8 → Option (Key ts)
  | [], _ => some ()
  | t :: ts, input =>
    (unfold t input).bind fun (x, pos) => (unfoldRecord ts (input.drop pos)).map fun k => (x, k)

/-! ## Integers -/

/-- Reversing the bytes puts the most significant one first. -/
lemma leBytes_bswap32 (x : UInt32) : leBytes 4 (bswap32 x).toNat = beBytes 4 x.toNat := by
  have hlength : (leBytes 4 x.toNat).reverse.length = 4 := by
    rw [length_reverse, length_leBytes]
  have hlt := ofLeBytes_lt (leBytes 4 x.toNat).reverse
  rw [hlength] at hlt
  have hbytes := leBytes_ofLeBytes (leBytes 4 x.toNat).reverse
  rw [hlength] at hbytes
  rw [bswap32, UInt32.toNat_ofNat', Nat.mod_eq_of_lt (by omega), hbytes]
  rfl

lemma bswap32_bswap32 (x : UInt32) : bswap32 (bswap32 x) = x := by
  refine UInt32.toNat_inj.1 ?_
  have hlt : x.toNat < 256 ^ 4 := by
    have := x.toNat_lt
    omega
  rw [bswap32, leBytes_bswap32, beBytes, reverse_reverse, ofLeBytes_leBytes hlt,
    UInt32.ofNat_toNat]

/-- Flipping the highest bit of a word. -/
lemma xor_two_pow_31 {a : ℕ} (h : a < 2 ^ 32) : a ^^^ 2 ^ 31 = (a + 2 ^ 31) % 2 ^ 32 := by
  have hdiv : (a ^^^ 2 ^ 31) / 2 ^ 31 = a / 2 ^ 31 ^^^ 1 := by
    rw [Nat.xor_div_two_pow, Nat.div_self (by positivity)]
  have hmod : (a ^^^ 2 ^ 31) % 2 ^ 31 = a % 2 ^ 31 := by
    rw [Nat.xor_mod_two_pow, Nat.mod_self, Nat.xor_zero]
  have hsplit := Nat.div_add_mod (a ^^^ 2 ^ 31) (2 ^ 31)
  rw [hdiv, hmod] at hsplit
  obtain hzero | hone : a / 2 ^ 31 = 0 ∨ a / 2 ^ 31 = 1 := by omega
  · rw [hzero] at hsplit
    have hxor : 0 ^^^ 1 = 1 := rfl
    rw [hxor] at hsplit
    omega
  · rw [hone] at hsplit
    have hxor : 1 ^^^ 1 = 0 := rfl
    rw [hxor] at hsplit
    omega

/-- The integer as an unsigned word that has the same order. -/
lemma toNat_flip (x : Int32) : ((x.toUInt32 ^^^ 0x80000000).toNat : ℤ) = x.toInt + 2 ^ 31 := by
  have hlt : x.toUInt32.toNat < 2 ^ 32 := x.toUInt32.toNat_lt
  have hxor : (x.toUInt32 ^^^ 0x80000000).toNat = (x.toUInt32.toNat + 2 ^ 31) % 2 ^ 32 := by
    rw [UInt32.toNat_xor]
    exact xor_two_pow_31 hlt
  have hint : x.toInt = if 2 * x.toUInt32.toNat < 2 ^ 32 then (x.toUInt32.toNat : ℤ)
      else (x.toUInt32.toNat : ℤ) - (2 ^ 32 : ℕ) := BitVec.toInt_eq_toNat_cond _
  rw [hxor, hint]
  split_ifs <;> omega

lemma foldInteger_eq (x : Int32) : foldInteger x = beBytes 4 (x.toUInt32 ^^^ 0x80000000).toNat :=
  leBytes_bswap32 _

/-- **Integers**: the order of the words is that of the values. -/
lemma orderedCode_foldInteger : OrderedCode (fun x y : Int32 => x < y) foldInteger where
  mono x y s t hlt := by
    rw [foldInteger_eq, foldInteger_eq]
    refine beBytes_append_lt ?_ ?_ s t
    · have hx := toNat_flip x
      have hy := toNat_flip y
      rw [Int32.lt_iff_toInt_lt] at hlt
      omega
    · have hbound := (y.toUInt32 ^^^ 0x80000000).toNat_lt
      omega
  trichotomy x y := by
    rcases lt_trichotomy x.toInt y.toInt with hlt | heq | hgt
    · exact Or.inl (Int32.lt_iff_toInt_lt.2 hlt)
    · exact Or.inr (Or.inl (Int32.toInt_inj.1 heq))
    · exact Or.inr (Or.inr (Int32.lt_iff_toInt_lt.2 hgt))

lemma unfoldInteger_append (x : Int32) (rest : List UInt8) :
    unfoldInteger (foldInteger x ++ rest) = some (x, (foldInteger x).length) := by
  have hlength : (foldInteger x).length = 4 := length_leBytes 4 _
  have hlt : (bswap32 (x.toUInt32 ^^^ 0x80000000)).toNat < 256 ^ 4 := by
    have hbound := (bswap32 (x.toUInt32 ^^^ 0x80000000)).toNat_lt
    omega
  rw [unfoldInteger, take_left' hlength, foldInteger, ofLeBytes_leBytes hlt, UInt32.ofNat_toNat,
    bswap32_bswap32, UInt32.xor_assoc, UInt32.xor_self, UInt32.xor_zero, length_leBytes]
  rfl

/-! ## Strings -/

/-- `operator<` is the lexicographic order. -/
lemma memcmp_take_min (l l' : List UInt8) :
    (match memcmp (l.take (if l.length < l'.length then l.length else l'.length))
        (l'.take (if l.length < l'.length then l.length else l'.length)) with
      | .lt => true
      | .gt => false
      | .eq => decide (l.length < l'.length)) = decide (l < l') := by
  induction l generalizing l' with
  | nil =>
    cases l' with
    | nil => rfl
    | cons b l' => simp [memcmp]
  | cons a l ih =>
    cases l' with
    | nil => simp [memcmp]
    | cons b l' =>
      have hmin : (if (a :: l).length < (b :: l').length then (a :: l).length
          else (b :: l').length) = (if l.length < l'.length then l.length else l'.length) + 1 := by
        simp only [length_cons]
        split_ifs <;> omega
      rw [hmin, take_succ_cons, take_succ_cons, memcmp]
      rcases lt_trichotomy a b with hlt | rfl | hgt
      · have hcons : a :: l < b :: l' := cons_lt_cons_iff.2 (Or.inl hlt)
        simp [hlt, hcons]
      · simpa using ih l'
      · have hcons : b :: l' < a :: l := cons_lt_cons_iff.2 (Or.inl hgt)
        simp [hgt, hgt.not_gt, hcons.le]

lemma Varchar.lt_iff {maxLength : ℕ} (x y : Varchar maxLength) : x.lt y = true ↔ x.data < y.data := by
  rw [Varchar.lt, memcmp_take_min, decide_eq_true_eq]

/-- **Strings**: the order of the words is `operator<`. -/
lemma orderedCode_foldVarchar (maxLength : ℕ) :
    OrderedCode (fun x y : Varchar maxLength => x.lt y = true) foldVarchar where
  mono x y s t hlt := append_zero_lt ((Varchar.lt_iff x y).1 hlt) y.zeroFree s t
  trichotomy x y := by
    rcases lt_trichotomy x.data y.data with hlt | heq | hgt
    · exact Or.inl ((Varchar.lt_iff x y).2 hlt)
    · refine Or.inr (Or.inl ?_)
      cases x
      cases y
      simpa using heq
    · exact Or.inr (Or.inr ((Varchar.lt_iff y x).2 hgt))

/-- The bytes before the first zero. -/
lemma takeWhile_append_zero {l : List UInt8} (h : 0 ∉ l) (rest : List UInt8) :
    (l ++ 0 :: rest).takeWhile (· ≠ 0) = l := by
  induction l with
  | nil => simp
  | cons b l ih =>
    rw [mem_cons, not_or] at h
    have hb : b ≠ 0 := Ne.symm h.1
    simpa [hb] using ih h.2

lemma unfoldVarchar_append {maxLength : ℕ} (x : Varchar maxLength) (rest : List UInt8) :
    unfoldVarchar maxLength (foldVarchar x ++ rest) = some (x, (foldVarchar x).length) := by
  have hdata : (foldVarchar x ++ rest).takeWhile (· ≠ 0) = x.data := by
    rw [foldVarchar, append_assoc]
    exact takeWhile_append_zero x.zeroFree rest
  have hlength : (foldVarchar x).length = x.data.length + 1 := by simp [foldVarchar]
  simp only [unfoldVarchar, hdata, dif_pos x.length_le, hlength]

/-! ## Fields and keys -/

/-- **A field is encoded by an ordered code.** -/
lemma orderedCode_fold (t : FieldType) : OrderedCode t.lt (fold t) := by
  cases t with
  | integer => exact orderedCode_foldInteger
  | varchar maxLength => exact orderedCode_foldVarchar maxLength

lemma unfold_append (t : FieldType) (x : t.Value) (rest : List UInt8) :
    unfold t (fold t x ++ rest) = some (x, (fold t x).length) := by
  cases t with
  | integer => exact unfoldInteger_append x rest
  | varchar maxLength => exact unfoldVarchar_append x rest

/-- **A key is encoded by an ordered code**, for the order field by field. -/
lemma foldRecord_orderedCode (ts : List FieldType) : OrderedCode (Key.lt ts) (foldRecord ts) := by
  induction ts with
  | nil => exact ⟨fun _ _ _ _ hlt => hlt.elim, fun _ _ => Or.inr (Or.inl rfl)⟩
  | cons t ts ih => exact (orderedCode_fold t).prod ih

lemma unfoldRecord_append (ts : List FieldType) (k : Key ts) (rest : List UInt8) :
    unfoldRecord ts (foldRecord ts k ++ rest) = some k := by
  induction ts with
  | nil => rfl
  | cons t ts ih =>
    obtain ⟨x, k⟩ := k
    rw [unfoldRecord, foldRecord, append_assoc, unfold_append, Option.bind_some]
    dsimp only
    rw [drop_left, ih k]
    rfl

/-- **The encoding of keys.**  Whatever the fields of a key are: the bytes of a key give the key back, the
bytes of a key are no prefix of those of another one, and the order of the bytes is that of the keys. -/
theorem foldRecord_faithful (ts : List FieldType) :
    (∀ k : Key ts, ∀ rest, unfoldRecord ts (foldRecord ts k ++ rest) = some k) ∧
    (∀ k k' : Key ts, k ≠ k' → ¬ foldRecord ts k <+: foldRecord ts k') ∧
    ∀ k k' : Key ts, foldRecord ts k < foldRecord ts k' ↔ Key.lt ts k k' := by
  refine ⟨unfoldRecord_append ts, ?_, (foldRecord_orderedCode ts).lt_iff⟩
  intro k k' hne hprefix
  exact hne ((foldRecord_orderedCode ts).eq_of_isPrefix hprefix)

end TwoTree.TpcC
