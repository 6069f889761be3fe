import Mathlib.Data.Prod.Lex
import TwoTree.Lib.ListCut

/-!
# Sequences with separators, and the line of their marks

A search tree's inner node is a nonempty sequence of parts with a separator between neighbours.  It is
opened at a part to work on it and its neighbours, and closed again; written out from left to right it
is what stands before the part, the part, and what stands behind it (`flatten_close`).

The order of a whole tree is a statement about one list.  A key that is stored leaves the mark `key k`
on the line, a separator the mark `cut k` directly behind it, and the tree is in order when its marks
increase from left to right.  Going to the part between the separators around a key then leaves only
smaller marks before the part and only greater ones behind it (`Opened.before_lt`,
`Opened.lt_behind`).
-/

namespace TwoTree.Lib

open List

/-! ## Marks -/

/-- A place on the line of keys: a key, or the cut directly behind it. -/
abbrev Mark (K : Type*) := K ×ₗ Bool

namespace Mark

variable {K : Type*}

/-- The place of a key. -/
def key (k : K) : Mark K := toLex (k, false)

/-- The cut behind a key. -/
def cut (k : K) : Mark K := toLex (k, true)

@[simp] lemma key_inj {k l : K} : key k = key l ↔ k = l := by
  simp [key]

@[simp] lemma key_ne_cut {k l : K} : key k ≠ cut l := by
  simp [key, cut]

variable [LinearOrder K] {k l : K}

@[simp] lemma key_lt_key : key k < key l ↔ k < l := by
  simp [key, Prod.Lex.lt_iff]

@[simp] lemma cut_lt_cut : cut k < cut l ↔ k < l := by
  simp [cut, Prod.Lex.lt_iff]

@[simp] lemma key_lt_cut : key k < cut l ↔ k ≤ l := by
  simp [key, cut, Prod.Lex.lt_iff, le_iff_lt_or_eq]

@[simp] lemma cut_lt_key : cut k < key l ↔ k < l := by
  simp [key, cut, Prod.Lex.lt_iff]

end Mark

/-! ## Exchanging a segment of an increasing list -/

section Segments

variable {R : Type*} [LinearOrder R] {A M M' B : List R}

/-- Every element of `M'` lies between two elements of `M`. -/
def Covers (M M' : List R) : Prop :=
  ∀ x ∈ M', (∃ a ∈ M, a ≤ x) ∧ ∃ b ∈ M, x ≤ b

lemma Covers.of_subset (h : M' ⊆ M) : Covers M M' := by
  intro x hx
  exact ⟨⟨x, h hx, le_refl x⟩, x, h hx, le_refl x⟩

lemma Covers.trans {M₁ M₂ M₃ : List R} (h : Covers M₁ M₂) (h' : Covers M₂ M₃) : Covers M₁ M₃ := by
  intro x hx
  obtain ⟨⟨a, ha, hax⟩, b, hb, hxb⟩ := h' x hx
  obtain ⟨⟨a', ha', haa⟩, -⟩ := h a ha
  obtain ⟨-, b', hb', hbb⟩ := h b hb
  exact ⟨⟨a', ha', haa.trans hax⟩, b', hb', hxb.trans hbb⟩

lemma Covers.context (h : Covers M M') : Covers (A ++ M ++ B) (A ++ M' ++ B) := by
  intro x hx
  rw [mem_append, mem_append] at hx
  rcases hx with (hx | hx) | hx
  · exact Covers.of_subset (by simp) x hx
  · obtain ⟨⟨a, ha, hax⟩, b, hb, hxb⟩ := h x hx
    exact ⟨⟨a, by simp [ha], hax⟩, b, by simp [hb], hxb⟩
  · exact Covers.of_subset (by simp) x hx

omit [LinearOrder R] in
lemma pairwise_append₃ {r : R → R → Prop} :
    (A ++ M ++ B).Pairwise r ↔
      A.Pairwise r ∧ M.Pairwise r ∧ B.Pairwise r ∧ (∀ a ∈ A, ∀ m ∈ M, r a m) ∧
        (∀ m ∈ M, ∀ b ∈ B, r m b) ∧ ∀ a ∈ A, ∀ b ∈ B, r a b := by
  simp only [pairwise_append, mem_append]
  constructor
  · rintro ⟨⟨hA, hM, hAM⟩, hB, hAMB⟩
    exact ⟨hA, hM, hB, hAM, fun m hm => hAMB m (.inr hm), fun a ha => hAMB a (.inl ha)⟩
  rintro ⟨hA, hM, hB, hAM, hMB, hAB⟩
  refine ⟨⟨hA, hM, hAM⟩, hB, ?_⟩
  rintro x (hx | hx)
  · exact hAB x hx
  · exact hMB x hx

/-- A segment may be exchanged for an increasing one that it covers. -/
lemma pairwise_context (h : (A ++ M ++ B).Pairwise (· < ·)) (hM' : M'.Pairwise (· < ·))
    (hcov : Covers M M') : (A ++ M' ++ B).Pairwise (· < ·) := by
  obtain ⟨hA, -, hB, hAM, hMB, hAB⟩ := pairwise_append₃.1 h
  refine pairwise_append₃.2 ⟨hA, hM', hB, ?_, ?_, hAB⟩
  · intro a ha x hx
    obtain ⟨⟨m, hm, hmx⟩, -⟩ := hcov x hx
    exact lt_of_lt_of_le (hAM a ha m hm) hmx
  · intro x hx b hb
    obtain ⟨-, m, hm, hxm⟩ := hcov x hx
    exact lt_of_le_of_lt hxm (hMB m hm b hb)

end Segments

/-! ## Sequences with separators -/

/-- A nonempty sequence of parts with a separator between neighbours. -/
structure Separated (σ α : Type*) where
  first : α
  rest : List (σ × α)

/-- A sequence opened at one of its parts; what lies to its left is listed nearest first. -/
structure Opened (σ α : Type*) where
  left : List (α × σ)
  part : α
  right : List (σ × α)

namespace Separated

variable {σ α β : Type*} (n : Separated σ α)

/-- The separators from left to right. -/
def seps : List σ := n.rest.map Prod.fst

/-- The parts from left to right. -/
def parts : List α := n.first :: n.rest.map Prod.snd

/-- Go `i` parts to the right, as far as there are parts. -/
def openFrom : ℕ → List (α × σ) → α → List (σ × α) → Opened σ α
  | i + 1, left, a, (s, b) :: right => openFrom i ((a, s) :: left) b right
  | _, left, a, right => ⟨left, a, right⟩

/-- Open a sequence at part `i`. -/
def openAt (i : ℕ) : Opened σ α := openFrom i [] n.first n.rest

/-- The last part. -/
def last : α := (n.openAt n.rest.length).part

/-- Put the left side back. -/
def closeFrom : List (α × σ) → α → List (σ × α) → Separated σ α
  | [], a, right => ⟨a, right⟩
  | (b, s) :: left, a, right => closeFrom left b ((s, a) :: right)

end Separated

/-- The sequence again. -/
def Opened.close {σ α : Type*} (o : Opened σ α) : Separated σ α :=
  Separated.closeFrom o.left o.part o.right

namespace Separated

variable {σ α β : Type*}

lemma closeFrom_openFrom (i : ℕ) (left : List (α × σ)) (a : α) (right : List (σ × α)) :
    (openFrom i left a right).close = closeFrom left a right := by
  induction i generalizing left a right with
  | zero => cases right <;> rfl
  | succ i ih =>
    cases right with
    | nil => rfl
    | cons p right =>
      rw [openFrom, ih, closeFrom]

@[simp] lemma close_openAt (n : Separated σ α) (i : ℕ) : (n.openAt i).close = n :=
  closeFrom_openFrom i [] n.first n.rest

lemma length_left_openFrom {i : ℕ} {left : List (α × σ)} {a : α} {right : List (σ × α)}
    (h : i ≤ right.length) : (openFrom i left a right).left.length = left.length + i := by
  induction i generalizing left a right with
  | zero => cases right <;> rfl
  | succ i ih =>
    cases right with
    | nil => simp at h
    | cons p right =>
      rw [openFrom, ih (by simpa using h), length_cons]
      omega

lemma openFrom_right_of_le {i : ℕ} {left : List (α × σ)} {a : α} {right : List (σ × α)}
    (h : right.length ≤ i) : (openFrom i left a right).right = [] := by
  induction i generalizing left a right with
  | zero =>
    rw [length_eq_zero_iff.1 (Nat.le_zero.1 h)]
    rfl
  | succ i ih =>
    cases right with
    | nil => rfl
    | cons p right =>
      rw [openFrom]
      exact ih (by simpa using h)

/-- What the right side holds does not matter for the parts to its left. -/
lemma closeFrom_eq (left : List (α × σ)) (a : α) (right : List (σ × α)) :
    closeFrom left a right =
      ⟨(closeFrom left a []).first, (closeFrom left a []).rest ++ right⟩ := by
  induction left generalizing a right with
  | nil => rfl
  | cons p left ih =>
    rw [closeFrom, closeFrom, ih p.1 ((p.2, a) :: right), ih p.1 [(p.2, a)]]
    simp

@[simp] lemma length_closeFrom_rest (left : List (α × σ)) (a : α) (right : List (σ × α)) :
    (closeFrom left a right).rest.length = left.length + right.length := by
  induction left generalizing a right with
  | nil => simp [closeFrom]
  | cons p left ih =>
    rw [closeFrom, ih]
    simp only [length_cons]
    omega

lemma seps_closeFrom (left : List (α × σ)) (a : α) (right : List (σ × α)) :
    (closeFrom left a right).seps = (left.map Prod.snd).reverse ++ right.map Prod.fst := by
  induction left generalizing a right with
  | nil => rfl
  | cons p left ih =>
    rw [closeFrom, ih]
    simp

lemma parts_closeFrom (left : List (α × σ)) (a : α) (right : List (σ × α)) :
    (closeFrom left a right).parts =
      (left.map Prod.fst).reverse ++ a :: right.map Prod.snd := by
  induction left generalizing a right with
  | nil => rfl
  | cons p left ih =>
    rw [closeFrom, ih]
    simp

/-- Part `i` is where a sequence opened at `i` stands. -/
lemma getElem?_parts {n : Separated σ α} {i : ℕ} (h : i ≤ n.rest.length) :
    n.parts[i]? = some (n.openAt i).part := by
  have hlen : (n.openAt i).left.length = i := by
    rw [openAt, length_left_openFrom h]
    simp
  conv_lhs => rw [← close_openAt n i, Opened.close, parts_closeFrom]
  rw [getElem?_append_right (by simp [hlen])]
  simp [hlen]

lemma openAt_closeFrom (left : List (α × σ)) (a : α) (right : List (σ × α)) (i : ℕ) :
    (closeFrom left a right).openAt (left.length + i) = openFrom i left a right := by
  induction left generalizing a right i with
  | nil => simp [closeFrom, openAt]
  | cons p left ih =>
    have hlen : (p :: left).length + i = left.length + (i + 1) := by
      simp only [length_cons]
      omega
    rw [closeFrom, hlen, ih, openFrom]

/-- A part that goes in behind the opened one. -/
lemma insertIdx_closeFrom (left : List (α × σ)) (a : α) (right : List (σ × α)) (p : σ × α) :
    (⟨(closeFrom left a right).first,
        (closeFrom left a right).rest.insertIdx left.length p⟩ : Separated σ α) =
      closeFrom left a (p :: right) := by
  have hlen : (closeFrom left a []).rest.length = left.length := by simp
  rw [closeFrom_eq left a (p :: right), closeFrom_eq left a right, ← hlen]
  simp only [ListCut.insertIdx_cut]

/-! ## Written out from left to right -/

/-- The parts and separators written out. -/
def flatten (sep : σ → β) (f : α → List β) (n : Separated σ α) : List β :=
  f n.first ++ n.rest.flatMap fun p => sep p.1 :: f p.2

end Separated

namespace Opened

variable {σ α β : Type*}

/-- What is written before the opened part. -/
def before (sep : σ → β) (f : α → List β) (o : Opened σ α) : List β :=
  o.left.reverse.flatMap fun p => f p.1 ++ [sep p.2]

/-- What is written behind the opened part. -/
def behind (sep : σ → β) (f : α → List β) (o : Opened σ α) : List β :=
  o.right.flatMap fun p => sep p.1 :: f p.2

lemma flatten_close (sep : σ → β) (f : α → List β) (o : Opened σ α) :
    o.close.flatten sep f = o.before sep f ++ f o.part ++ o.behind sep f := by
  obtain ⟨left, a, right⟩ := o
  induction left generalizing a right with
  | nil => simp [close, Separated.closeFrom, Separated.flatten, before, behind]
  | cons p left ih =>
    have hih := ih p.1 ((p.2, a) :: right)
    simp only [close, Separated.closeFrom] at hih ⊢
    rw [hih]
    simp [before, behind]

end Opened

/-! ## Going to the part of a key -/

section Route

variable {K α β : Type*} [LinearOrder K] {k : K}

namespace Separated

lemma openFrom_findIdx (left : List (α × K)) (a : α) (right : List (K × α))
    (hleft : ∀ p ∈ left, p.2 < k) :
    let o := openFrom ((right.map Prod.fst).findIdx fun s => k ≤ s) left a right
    (∀ p ∈ o.left, p.2 < k) ∧ ∀ p ∈ o.right.head?, k ≤ p.1 := by
  induction right generalizing left a with
  | nil => exact ⟨hleft, by simp [openFrom]⟩
  | cons p right ih =>
    by_cases hp : k ≤ p.1
    · have hzero : ((p :: right).map Prod.fst).findIdx (fun s => decide (k ≤ s)) = 0 := by
        simp [findIdx_cons, hp]
      rw [hzero]
      exact ⟨hleft, by simpa [openFrom] using hp⟩
    · have hsucc : ((p :: right).map Prod.fst).findIdx (fun s => decide (k ≤ s)) =
          (right.map Prod.fst).findIdx (fun s => decide (k ≤ s)) + 1 := by
        simp [findIdx_cons, hp]
      rw [hsucc]
      have hleft' : ∀ q ∈ (a, p.1) :: left, q.2 < k := by
        intro q hq
        rcases mem_cons.1 hq with rfl | hq
        · exact not_le.1 hp
        · exact hleft q hq
      exact ih ((a, p.1) :: left) p.2 hleft'

variable (n : Separated K α)

lemma left_openAt_lt : ∀ p ∈ (n.openAt (n.seps.findIdx fun s => k ≤ s)).left, p.2 < k :=
  (openFrom_findIdx [] n.first n.rest (by simp)).1

lemma le_right_openAt : ∀ p ∈ (n.openAt (n.seps.findIdx fun s => k ≤ s)).right.head?, k ≤ p.1 :=
  (openFrom_findIdx [] n.first n.rest (by simp)).2

end Separated

namespace Opened

/-- The place of a key in a sequence that is closed again: between the separators around it. -/
lemma findIdx_seps_close {o : Opened K α} (hleft : ∀ p ∈ o.left, p.2 < k)
    (hright : ∀ p ∈ o.right.head?, k ≤ p.1) :
    (o.close.seps.findIdx fun s => k ≤ s) = o.left.length := by
  rw [close, Separated.seps_closeFrom, findIdx_append]
  have hnone : (o.left.map Prod.snd).reverse.findIdx (fun s => decide (k ≤ s)) =
      (o.left.map Prod.snd).reverse.length := by
    rw [findIdx_eq_length]
    intro s hs
    obtain ⟨p, hp, rfl⟩ := mem_map.1 (mem_reverse.1 hs)
    simpa using hleft p hp
  have hfirst : (o.right.map Prod.fst).findIdx (fun s => decide (k ≤ s)) = 0 := by
    rcases hr : o.right with _ | ⟨p, right⟩
    · rfl
    · have hp : k ≤ p.1 := hright p (by simp [hr])
      simp [findIdx_cons, hp]
  rw [hnone, if_neg (lt_irrefl _), hfirst]
  simp

variable {marks : β → List (Mark K)} {sep : K → β} {f : α → List β} {o : Opened K α}

/-- The marks before the opened part are smaller than a key behind the separator to its left. -/
lemma before_lt (hsep : ∀ s, marks (sep s) = [Mark.cut s]) (hleft : ∀ p ∈ o.left.head?, p.2 < k)
    (hord : ((o.before sep f).flatMap marks).Pairwise (· < ·)) :
    ∀ x ∈ (o.before sep f).flatMap marks, x < Mark.key k := by
  rcases hl : o.left with _ | ⟨p, left⟩
  · simp [before, hl]
  rw [before, hl] at hord ⊢
  rw [hl] at hleft
  have hp : p.2 < k := hleft p (by simp)
  simp only [reverse_cons, flatMap_append, flatMap_cons, flatMap_nil,
    append_nil, hsep, ← append_assoc] at hord ⊢
  intro x hx
  rcases mem_append.1 hx with hx | hx
  · have hlt := (pairwise_append.1 hord).2.2 x hx (Mark.cut p.2) (by simp)
    exact hlt.trans (by simpa using hp)
  · rw [mem_singleton.1 hx]
    simpa using hp

/-- The marks behind the opened part are greater than a key up to the separator to its right. -/
lemma lt_behind (hsep : ∀ s, marks (sep s) = [Mark.cut s]) (hright : ∀ p ∈ o.right.head?, k ≤ p.1)
    (hord : ((o.behind sep f).flatMap marks).Pairwise (· < ·)) :
    ∀ x ∈ (o.behind sep f).flatMap marks, Mark.key k < x := by
  rcases hr : o.right with _ | ⟨p, right⟩
  · simp [behind, hr]
  rw [behind, hr] at hord ⊢
  rw [hr] at hright
  have hp : k ≤ p.1 := hright p (by simp)
  simp only [flatMap_cons, hsep, cons_append, nil_append] at hord ⊢
  intro x hx
  rcases mem_cons.1 hx with rfl | hx
  · simpa using hp
  · have hlt := (pairwise_cons.1 hord).1 x hx
    exact lt_trans (by simpa using hp) hlt

end Opened

end Route

end TwoTree.Lib
