import TwoTree.Lib.ListCut

/-!
# Cells next to each other

A cell has a lower bound, which is not in it, and an upper bound, which is; a missing bound is
infinite.  Cells tile the range from `a` to `b` if each begins where the one before it ends, and `ks`
are the bounds between them.  Such a row of cells may be cut at a cell (`Tiles.cut`) and the cell
exchanged for a row that tiles it (`Cut.replace`), two cells may be exchanged for one (`Cut.fuse`), and
each cell of a row may be exchanged for a row (`Tiles.flatMap`).  A key of the range is in exactly one
cell, the one with as many bounds before it as there are smaller than the key (`Tiles.findIdx_eq`).
-/

namespace TwoTree.Lib.Tiling

open List

section Rows

variable {α κ : Type*} (lo hi : α → Option κ)

/-- The row `L` of cells from `a` to `b`, with the bounds `ks` between them. -/
structure Tiles (a : Option κ) (ks : List κ) (b : Option κ) (L : List α) : Prop where
  lower : L.map lo = a :: ks.map some
  upper : L.map hi = ks.map some ++ [b]

/-- A row of cells cut at the cell `x`, with the bounds `K` before it and `K'` behind it. -/
structure Cut (a : Option κ) (K : List κ) (X : List α) (x : α) (Y : List α) (K' : List κ)
    (b : Option κ) : Prop where
  lower : X.map lo ++ [lo x] = a :: K.map some
  upper : X.map hi = K.map some
  lower' : Y.map lo = K'.map some
  upper' : hi x :: Y.map hi = K'.map some ++ [b]

variable {lo hi} {a b : Option κ} {ks K K' M : List κ} {L X Y Z : List α} {x y z : α}

lemma Tiles.length_eq (h : Tiles lo hi a ks b L) : L.length = ks.length + 1 := by
  simpa using congrArg List.length h.lower

lemma Tiles.ne_nil (h : Tiles lo hi a ks b L) : L ≠ [] := by
  intro hnil
  have hlen := h.length_eq
  simp [hnil] at hlen

lemma tiles_singleton (x : α) : Tiles lo hi (lo x) [] (hi x) [x] := ⟨rfl, rfl⟩

lemma Tiles.append {k : κ} (h : Tiles lo hi a K (some k) X) (h' : Tiles lo hi (some k) K' b Y) :
    Tiles lo hi a (K ++ k :: K') b (X ++ Y) where
  lower := by simp [h.lower, h'.lower]
  upper := by simp [h.upper, h'.upper]

lemma Tiles.of_append {k : κ} (h : Tiles lo hi a (K ++ k :: K') b (X ++ Y))
    (hlen : X.length = K.length + 1) :
    Tiles lo hi a K (some k) X ∧ Tiles lo hi (some k) K' b Y := by
  have hlower := h.lower
  have hupper := h.upper
  rw [map_append, map_append, ← cons_append] at hlower
  rw [map_append, map_append, map_cons, append_assoc, cons_append,
    append_cons] at hupper
  obtain ⟨hl, hl'⟩ := append_inj hlower (by simpa using hlen)
  obtain ⟨hu, hu'⟩ := append_inj hupper (by simpa using hlen)
  exact ⟨⟨hl, hu⟩, ⟨hl', hu'⟩⟩

lemma Tiles.cut (h : Tiles lo hi a ks b (X ++ x :: Y)) :
    ∃ K K', ks = K ++ K' ∧ Cut lo hi a K X x Y K' b := by
  have hlen : X.length ≤ ks.length := by
    have := h.length_eq
    simp only [length_append, length_cons] at this
    omega
  have hcut : ks.map some = (ks.take X.length).map some ++ (ks.drop X.length).map some := by
    rw [← map_append, take_append_drop]
  have hlower := h.lower
  have hupper := h.upper
  rw [hcut] at hlower hupper
  rw [map_append, map_cons, append_cons, ← cons_append] at hlower
  rw [map_append, map_cons, append_assoc] at hupper
  obtain ⟨hl, hl'⟩ := append_inj hlower (by simpa using hlen)
  obtain ⟨hu, hu'⟩ := append_inj hupper (by simpa using hlen)
  exact ⟨_, _, (take_append_drop X.length ks).symm, hl, hu, hl', hu'⟩

namespace Cut

lemma length_eq (h : Cut lo hi a K X x Y K' b) : K.length = X.length := by
  simpa using (congrArg List.length h.upper).symm

/-- **A cell exchanged for a row that tiles it.** -/
lemma replace (h : Cut lo hi a K X x Y K' b) (hZ : Tiles lo hi (lo x) M (hi x) Z) :
    Tiles lo hi a (K ++ M ++ K') b (X ++ Z ++ Y) where
  lower := by
    calc (X ++ Z ++ Y).map lo = (X.map lo ++ [lo x]) ++ M.map some ++ Y.map lo := by
          simp [hZ.lower]
      _ = a :: (K ++ M ++ K').map some := by
          rw [h.lower, h.lower']
          simp
  upper := by
    calc (X ++ Z ++ Y).map hi = X.map hi ++ M.map some ++ (hi x :: Y.map hi) := by
          simp [hZ.upper]
      _ = (K ++ M ++ K').map some ++ [b] := by
          rw [h.upper, h.upper']
          simp

/-- A cell with another one behind it ends where that one begins. -/
lemma exists_bound (h : Cut lo hi a K X x (y :: Y) K' b) :
    ∃ k K'', K' = k :: K'' ∧ hi x = some k ∧ lo y = some k := by
  have hlower := h.lower'
  have hupper := h.upper'
  cases K' with
  | nil => simp at hlower
  | cons k K'' =>
    simp only [map_cons, cons_append, List.cons.injEq] at hlower hupper
    exact ⟨k, K'', rfl, hupper.1, hlower.1⟩

end Cut

/-- **Each cell exchanged for a row that tiles it.** -/
lemma Tiles.flatMap {β : Type*} {lo' hi' : β → Option κ} {f : α → List β}
    (h : Tiles lo hi a ks b L) (hf : ∀ x ∈ L, ∃ M, Tiles lo' hi' (lo x) M (hi x) (f x)) :
    ∃ M, Tiles lo' hi' a M b (L.flatMap f) := by
  induction L generalizing a ks with
  | nil => exact absurd rfl h.ne_nil
  | cons x L ih =>
    obtain ⟨M, hM⟩ := hf x mem_cons_self
    obtain ⟨K, K', rfl, hcut⟩ := Tiles.cut (X := []) h
    have hK : K = [] := length_eq_zero_iff.1 hcut.length_eq
    subst hK
    have ha : lo x = a := by simpa using hcut.lower
    cases L with
    | nil =>
      have hb : K' = [] := by simpa using hcut.lower'.symm
      subst hb
      have hbx : hi x = b := by simpa using hcut.upper'
      refine ⟨M, ?_⟩
      rw [← ha, ← hbx]
      simpa using hM
    | cons y L =>
      obtain ⟨k, K'', rfl, hhi, hlo⟩ := hcut.exists_bound
      have hrest : Tiles lo hi (some k) K'' b (y :: L) := by
        refine ⟨hcut.lower', ?_⟩
        have hupper := hcut.upper'
        simp only [map_cons, cons_append, List.cons.injEq] at hupper
        exact hupper.2
      obtain ⟨M', hM'⟩ := ih hrest fun x hx => hf x (mem_cons_of_mem _ hx)
      rw [hhi, ha] at hM
      exact ⟨_, hM.append hM'⟩

end Rows

/-! ## Where a key is -/

section Keys

variable {α κ : Type*} [LinearOrder κ] {lo hi : α → Option κ} {a b : Option κ} {ks K K' : List κ}
  {L X Y : List α} {x y : α} {k : κ}

/-- A key in a range. -/
def Between (a b : Option κ) (k : κ) : Prop := (∀ l ∈ a, l < k) ∧ ∀ u ∈ b, k ≤ u

/-- Bounds of cells with room for keys increase. -/
lemma Tiles.sorted (h : Tiles lo hi a ks b L)
    (hroom : ∀ x ∈ L, ∀ l ∈ lo x, ∀ u ∈ hi x, l < u) : ks.Pairwise (· < ·) := by
  rw [← isChain_iff_pairwise]
  induction ks generalizing a L with
  | nil => exact isChain_nil
  | cons k ks ih =>
    cases L with
    | nil => exact absurd rfl h.ne_nil
    | cons x L =>
      have hlower := h.lower
      have hupper := h.upper
      simp only [map_cons, cons_append, List.cons.injEq] at hlower hupper
      have hrest : Tiles lo hi (some k) ks b L := ⟨hlower.2, hupper.2⟩
      have htail := ih hrest fun x hx => hroom x (mem_cons_of_mem _ hx)
      cases ks with
      | nil => exact isChain_singleton k
      | cons k' ks =>
        refine isChain_cons_cons.2 ⟨?_, htail⟩
        cases L with
        | nil => simp at hlower
        | cons y L =>
          have hlo : lo y = some k := by simpa using (List.cons.inj hlower.2).1
          have hhi : hi y = some k' := by simpa using (List.cons.inj hupper.2).1
          exact hroom y (by simp) k (by simp [hlo]) k' (by simp [hhi])

namespace Cut

/-- The bounds before a cell are at most its lower bound. -/
lemma le_lower (h : Cut lo hi a K X x Y K' b) (hsorted : K.Pairwise (· < ·)) {u : κ} (hu : u ∈ K) :
    ∃ l ∈ lo x, u ≤ l := by
  obtain ⟨K, l, rfl⟩ := eq_nil_or_concat' K |>.resolve_left (ne_nil_of_mem hu)
  have hl : lo x = some l := by
    have hlower := h.lower
    rw [map_append, ← cons_append] at hlower
    exact (List.cons.inj (append_inj' hlower rfl).2).1
  refine ⟨l, by simp [hl], ?_⟩
  rcases mem_append.1 hu with hu | hu
  · exact ((pairwise_append.1 hsorted).2.2 u hu l (by simp)).le
  · exact (mem_singleton.1 hu).le

/-- The bounds behind a cell are at least its upper bound. -/
lemma upper_le (h : Cut lo hi a K X x Y K' b) (hsorted : K'.Pairwise (· < ·)) {l : κ} (hl : l ∈ K') :
    ∃ u ∈ hi x, u ≤ l := by
  cases K' with
  | nil => exact absurd hl not_mem_nil
  | cons u K' =>
    have hu : hi x = some u := by simpa using (List.cons.inj h.upper').1
    refine ⟨u, by simp [hu], ?_⟩
    rcases mem_cons.1 hl with rfl | hl
    · exact le_refl _
    · exact ((pairwise_cons.1 hsorted).1 l hl).le

end Cut

/-- **The cell of a key**: as many bounds are smaller than the key as cells stand before it. -/
lemma Tiles.findIdx_eq (h : Tiles lo hi a ks b (X ++ x :: Y)) (hsorted : ks.Pairwise (· < ·))
    (hk : Between (lo x) (hi x) k) : (ks.findIdx fun s => k ≤ s) = X.length := by
  obtain ⟨K, K', rfl, hcut⟩ := h.cut
  obtain ⟨hK, hK', -⟩ := pairwise_append.1 hsorted
  rw [← hcut.length_eq]
  refine ListCut.findIdx_append ?_ ?_
  · intro u hu
    obtain ⟨l, hl, hle⟩ := hcut.le_lower hK hu
    exact hle.trans_lt (hk.1 l hl)
  · intro l hl
    obtain ⟨u, hu, hle⟩ := hcut.upper_le hK' (mem_of_mem_head? hl)
    exact (hk.2 u hu).trans hle

/-- A key is in one cell only. -/
lemma Tiles.cell_unique {X' Y' : List α} (h : Tiles lo hi a ks b (X ++ x :: Y))
    (hsorted : ks.Pairwise (· < ·)) (hcut : X ++ x :: Y = X' ++ y :: Y')
    (hx : Between (lo x) (hi x) k) (hy : Between (lo y) (hi y) k) : x = y := by
  have hX := h.findIdx_eq hsorted hx
  rw [hcut] at h
  have htail := (append_inj hcut (hX.symm.trans (h.findIdx_eq hsorted hy))).2
  exact (List.cons.inj htail).1

/-- Every key of the range is in a cell. -/
lemma Tiles.exists_cell (h : Tiles lo hi a ks b L) (hk : Between a b k) :
    ∃ X x Y, L = X ++ x :: Y ∧ Between (lo x) (hi x) k := by
  induction ks generalizing a L with
  | nil =>
    obtain ⟨x, rfl⟩ := length_eq_one_iff.1 h.length_eq
    have hlower : lo x = a := by simpa using h.lower
    have hupper : hi x = b := by simpa using h.upper
    refine ⟨[], x, [], rfl, ?_⟩
    rwa [hlower, hupper]
  | cons s ks ih =>
    cases L with
    | nil => exact absurd rfl h.ne_nil
    | cons x L =>
      have hlower := h.lower
      have hupper := h.upper
      simp only [map_cons, cons_append, List.cons.injEq] at hlower hupper
      by_cases hks : k ≤ s
      · refine ⟨[], x, L, rfl, ?_⟩
        rw [hlower.1, hupper.1]
        exact ⟨hk.1, by simpa using hks⟩
      · obtain ⟨X, y, Y, rfl, hy⟩ := ih ⟨hlower.2, hupper.2⟩
          ⟨by simpa using not_le.1 hks, hk.2⟩
        exact ⟨x :: X, y, Y, rfl, hy⟩

end Keys

end TwoTree.Lib.Tiling
