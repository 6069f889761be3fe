import TwoTree.Lib.Bytes

/-!
# Codes that keep the order

A code maps values to words over an ordered alphabet.  It is an `OrderedCode` for a relation if the
smaller value has the smaller word, whatever is appended to the two words, and any two different values
are comparable.  Such a code is prefix-free (`OrderedCode.eq_of_isPrefix`), the lexicographic order of
the words is the order of the values (`OrderedCode.lt_iff`), and the concatenation of two codes is a code
for the lexicographic order of pairs (`OrderedCode.prod`).

Two codes to start from: numbers of fixed size, the most significant byte first, and strings without
zero bytes, ended by one.
-/

namespace TwoTree.Lib.OrderedCode

open Lib.Bytes List

variable {α β γ : Type*} [LinearOrder γ]

/-- Smaller values have smaller words, also in front of other words. -/
structure OrderedCode (lt : α → α → Prop) (enc : α → List γ) : Prop where
  mono : ∀ a b s t, lt a b → enc a ++ s < enc b ++ t
  trichotomy : ∀ a b, lt a b ∨ a = b ∨ lt b a

namespace OrderedCode

variable {lt : α → α → Prop} {enc : α → List γ}

/-- **The code is prefix-free.** -/
lemma eq_of_isPrefix (h : OrderedCode lt enc) {a b : α} (hab : enc a <+: enc b) : a = b := by
  obtain ⟨s, hs⟩ := hab
  rcases h.trichotomy a b with hlt | heq | hgt
  · have hmono := h.mono a b s [] hlt
    rw [hs, append_nil] at hmono
    exact absurd hmono (lt_irrefl _)
  · exact heq
  · have hmono := h.mono b a [] s hgt
    rw [hs, append_nil] at hmono
    exact absurd hmono (lt_irrefl _)

/-- **The order of the words is the order of the values.** -/
lemma lt_iff (h : OrderedCode lt enc) (a b : α) : enc a < enc b ↔ lt a b := by
  constructor
  · intro hlt
    rcases h.trichotomy a b with hab | rfl | hba
    · exact hab
    · exact absurd hlt (lt_irrefl _)
    · have hmono := h.mono b a [] [] hba
      rw [append_nil, append_nil] at hmono
      exact absurd hlt hmono.asymm
  · intro hlt
    have hmono := h.mono a b [] [] hlt
    rwa [append_nil, append_nil] at hmono

lemma append_lt_append_left {s t : List γ} (l : List γ) (h : s < t) : l ++ s < l ++ t := by
  induction l with
  | nil => exact h
  | cons a l ih => exact cons_lt_cons_iff.2 (Or.inr ⟨rfl, ih⟩)

/-- **One code after another**, for the lexicographic order of pairs. -/
lemma prod {lt' : β → β → Prop} {enc' : β → List γ} (h : OrderedCode lt enc)
    (h' : OrderedCode lt' enc') :
    OrderedCode (Prod.Lex lt lt') (fun p : α × β => enc p.1 ++ enc' p.2) where
  mono p q s t hlt := by
    rw [append_assoc, append_assoc]
    rcases Prod.lex_def.1 hlt with hfst | ⟨heq, hsnd⟩
    · exact h.mono p.1 q.1 _ _ hfst
    · rw [heq]
      exact append_lt_append_left _ (h'.mono p.2 q.2 s t hsnd)
  trichotomy := by
    rintro ⟨a, b⟩ ⟨a', b'⟩
    rcases h.trichotomy a a' with hlt | rfl | hgt
    · exact Or.inl (Prod.Lex.left _ _ hlt)
    · rcases h'.trichotomy b b' with hlt | rfl | hgt
      · exact Or.inl (Prod.Lex.right _ hlt)
      · exact Or.inr (Or.inl rfl)
      · exact Or.inr (Or.inr (Prod.Lex.right _ hgt))
    · exact Or.inr (Or.inr (Prod.Lex.left _ _ hgt))

end OrderedCode

/-! ## Numbers -/

/-- The bytes of a number, the most significant one first. -/
def beBytes (n k : ℕ) : List UInt8 := (leBytes n k).reverse

lemma beBytes_succ (n k : ℕ) : beBytes (n + 1) k = beBytes n (k / 256) ++ [UInt8.ofNat k] := by
  simp [beBytes, leBytes]

/-- The smaller number has the smaller bytes. -/
lemma beBytes_append_lt {n k k' : ℕ} (h : k < k') (hk' : k' < 256 ^ n) (s t : List UInt8) :
    beBytes n k ++ s < beBytes n k' ++ t := by
  induction n generalizing k k' s t with
  | zero =>
    rw [pow_zero] at hk'
    omega
  | succ n ih =>
    rw [beBytes_succ, beBytes_succ, append_assoc, append_assoc]
    have hdiv : k' / 256 < 256 ^ n := by
      rw [pow_succ] at hk'
      exact Nat.div_lt_of_lt_mul (by omega)
    rcases Nat.lt_or_ge (k / 256) (k' / 256) with hlt | hge
    · exact ih hlt hdiv _ _
    -- the first bytes agree, and the last one decides
    have heq : k / 256 = k' / 256 := by omega
    rw [heq]
    refine OrderedCode.append_lt_append_left _ (cons_lt_cons_iff.2 (Or.inl ?_))
    rw [UInt8.lt_iff_toNat_lt, UInt8.toNat_ofNat', UInt8.toNat_ofNat']
    omega

/-! ## Strings -/

/-- The smaller string is smaller when it is ended by a zero. -/
lemma append_zero_lt {l l' : List UInt8} (h : l < l') (hl' : 0 ∉ l') (s t : List UInt8) :
    (l ++ [0]) ++ s < (l' ++ [0]) ++ t := by
  induction l generalizing l' with
  | nil =>
    cases l' with
    | nil => exact absurd h (lt_irrefl _)
    | cons b l' =>
      have hb : 0 < b := by
        rw [mem_cons, not_or] at hl'
        exact UInt8.pos_iff_ne_zero.2 (Ne.symm hl'.1)
      exact cons_lt_cons_iff.2 (Or.inl hb)
  | cons a l ih =>
    cases l' with
    | nil => exact absurd h (not_lt_nil _)
    | cons b l' =>
      rcases cons_lt_cons_iff.1 h with hlt | ⟨rfl, hlt⟩
      · exact cons_lt_cons_iff.2 (Or.inl hlt)
      · exact cons_lt_cons_iff.2
          (Or.inr ⟨rfl, ih hlt (fun hmem => hl' (mem_cons_of_mem _ hmem))⟩)

end TwoTree.Lib.OrderedCode
