import TwoTree.BTreeOlc.Remove

/-!
# How full the nodes of an optimistic B+-tree are

No node ever holds more entries than its page has room for.  Where an inner page has room for at
least five, every leaf but a lone root and every inner node holds an entry: a full inner node is split
into two that have keys, and a node that has lost its last entry finds a sibling to borrow from or to
merge with.  Then no leaf that `_getSubTreeMaxKey` comes to is empty, and every remove returns without
looking in front of a leaf's keys (`Tree.isSome_remove`).

With room for three or four, a full inner node is split into one without keys and one with the rest,
and the node without keys may stay behind with an empty leaf.
-/

namespace TwoTree.BTreeOlc

open Lib List Separated Node Opened

/-- How many entries every node below the root has. -/
def Capacity.least (cap : Capacity) : ℕ := if 5 ≤ cap.innerMax then 1 else 0

lemma Capacity.least_le_one (cap : Capacity) : cap.least ≤ 1 := by
  rw [least]
  split <;> omega

lemma Capacity.five_le_of_least_pos {cap : Capacity} (h : 0 < cap.least) : 5 ≤ cap.innerMax := by
  rw [least] at h
  split at h
  · assumption
  · exact absurd h (lt_irrefl 0)

variable {K V : Type} {cap : Capacity} {before : ℕ → Option K} {h : ℕ}

namespace Node

/-- Every node below and including this one holds what it should, and no more than it has room for. -/
def Sized (cap : Capacity) : (h : ℕ) → Node K V h → Prop
  | 0, l => cap.least ≤ Leaf.count l ∧ Leaf.count l ≤ cap.leafMax
  | h + 1, n => cap.least ≤ Inner.count n ∧ Inner.count n ≤ cap.innerMax - 1 ∧
      ∀ c ∈ Separated.parts n, Sized cap h c

/-- The same, but for the number of entries of the node itself. -/
def Fits (cap : Capacity) : (h : ℕ) → Node K V h → Prop
  | 0, l => Leaf.count l ≤ cap.leafMax
  | h + 1, n => Inner.count n ≤ cap.innerMax - 1 ∧ ∀ c ∈ Separated.parts n, Sized cap h c

lemma sized_iff : (h : ℕ) → (n : Node K V h) →
    (n.Sized cap ↔ cap.least ≤ n.count ∧ n.Fits cap)
  | 0, _ => Iff.rfl
  | _ + 1, _ => Iff.rfl

lemma Sized.fits {n : Node K V h} (hn : n.Sized cap) : n.Fits cap := ((sized_iff h n).1 hn).2

lemma Sized.least_le {n : Node K V h} (hn : n.Sized cap) : cap.least ≤ n.count :=
  ((sized_iff h n).1 hn).1

/-- The nodes around an opened child. -/
structure Siblings (cap : Capacity) (o : Opened K (Node K V h)) : Prop where
  left : ∀ p ∈ o.left, p.1.Sized cap
  right : ∀ p ∈ o.right, p.2.Sized cap

lemma fits_close {o : Opened K (Node K V h)} : Fits cap (h + 1) o.close ↔
    o.left.length + o.right.length ≤ cap.innerMax - 1 ∧ Siblings cap o ∧ o.part.Sized cap := by
  simp only [Fits, Inner.count, close, length_closeFrom_rest,
    parts_closeFrom, mem_append, mem_reverse, mem_map, mem_cons]
  constructor
  · rintro ⟨hcount, hall⟩
    exact ⟨hcount, ⟨fun p hp => hall _ (.inl ⟨p, hp, rfl⟩),
      fun p hp => hall _ (.inr (.inr ⟨p, hp, rfl⟩))⟩, hall _ (.inr (.inl rfl))⟩
  rintro ⟨hcount, ⟨hleft, hright⟩, hpart⟩
  refine ⟨hcount, ?_⟩
  rintro c (⟨p, hp, rfl⟩ | rfl | ⟨p, hp, rfl⟩)
  · exact hleft p hp
  · exact hpart
  · exact hright p hp

end Node

/-! ## Insert -/

section Insert

variable [LinearOrder K] {k : K} {v : V} {fresh : ℕ}

lemma Leaf.count_insert (l : Leaf K V) (k : K) (v : V) :
    l.count ≤ (l.insert k v).1.count ∧ (l.insert k v).1.count ≤ l.count + 1 := by
  rw [insert]
  split
  · exact ⟨le_refl _, Nat.le_succ _⟩
  · simp only [count, length_insertIdx]
    split <;> omega

namespace Node

/-- The parent after the descent through a child. -/
lemma Pass.fits_into {o : Opened K (Node K V h)} {p : Pass K (Node K V h)}
    (hroom : o.left.length + o.right.length < cap.innerMax - 1) (hsib : Siblings cap o)
    (hnode : p.node.Sized cap) (hprom : ∀ s ∈ p.promoted, s.2.Sized cap) :
    Node.Fits cap (h + 1) (p.into o) ∧ o.left.length + o.right.length ≤ Inner.count (p.into o) := by
  have hclose : Node.Fits cap (h + 1) (close { o with part := p.node }) :=
    fits_close.2 ⟨hroom.le, ⟨hsib.left, hsib.right⟩, hnode⟩
  have hcount : Inner.count (close { o with part := p.node }) =
      o.left.length + o.right.length := by
    simp [Inner.count, close]
  rcases hp : p.promoted with _ | s
  · simp only [Pass.into, hp]
    exact ⟨hclose, hcount.ge⟩
  simp only [Pass.into, hp]
  have hlen : Inner.count (Inner.insert (close { o with part := p.node }) s.1 s.2) ≤
      o.left.length + o.right.length + 1 ∧ o.left.length + o.right.length ≤
      Inner.count (Inner.insert (close { o with part := p.node }) s.1 s.2) := by
    rw [← hcount, Inner.insert, Inner.count, length_insertIdx, Inner.count]
    split <;> omega
  refine ⟨⟨by omega, ?_⟩, hlen.2⟩
  intro c hc
  have hmem : c = s.2 ∨ c ∈ (close { o with part := p.node }).parts := by
    rw [Inner.insert, parts, mem_cons, mem_map] at hc
    rw [parts, mem_cons, mem_map]
    rcases hc with rfl | ⟨q, hq, rfl⟩
    · exact .inr (.inl rfl)
    · rcases mem_cons.1 (insertIdx_subset_cons _ _ _ hq) with rfl | hq
      · exact .inl rfl
      · exact .inr (.inr ⟨q, hq, rfl⟩)
  rcases hmem with rfl | hmem
  · exact hprom s hp
  · exact hclose.2 c hmem

/-- **A descent of `insert` keeps every node within its bounds.** -/
lemma insertPass_fits (cap : Capacity) (fresh : ℕ) (k : K) (v : V) :
    (h : ℕ) → (n : Node K V h) → n.Fits cap →
    match (n.insertPass cap fresh k v).promoted with
    | none => (n.insertPass cap fresh k v).node.Fits cap ∧
        n.count ≤ (n.insertPass cap fresh k v).node.count
    | some s => (n.insertPass cap fresh k v).node.Sized cap ∧ s.2.Sized cap
  | 0, l, hfits => by
    have hleast := cap.least_le_one
    have hthree := cap.three_le_leafMax
    by_cases hfull : Leaf.count l = cap.leafMax
    · have htwo : 2 ≤ Leaf.count l := by omega
      have hleft : (Leaf.split l fresh htwo).left.count = Leaf.count l / 2 := by
        simp only [Leaf.split, Leaf.count, length_take]
        omega
      have hright : (Leaf.split l fresh htwo).right.count = Leaf.count l - Leaf.count l / 2 := by
        simp [Leaf.split, Leaf.count]
      by_cases hsep : (Leaf.split l fresh htwo).sep < k
      · have hins := Leaf.count_insert (Leaf.split l fresh htwo).right k v
        simp only [insertPass, dif_pos hfull, if_pos hsep, Sized]
        omega
      · have hins := Leaf.count_insert (Leaf.split l fresh htwo).left k v
        simp only [insertPass, dif_pos hfull, if_neg hsep, Sized]
        omega
    · have hins := Leaf.count_insert l k v
      simp only [Fits] at hfits
      simp only [insertPass, dif_neg hfull, Fits, count]
      omega
  | h + 1, n, hfits => by
    by_cases hfull : Inner.count n = cap.innerMax - 1
    · have hthree := cap.three_le_innerMax
      have htwo : 2 ≤ Inner.count n := by omega
      have hcount := count_split htwo
      have hparts := parts_split htwo
      have hleast : cap.least ≤ Inner.count n / 2 - 1 := by
        have := cap.least_le_one
        rcases Nat.eq_zero_or_pos cap.least with hzero | hpos
        · omega
        · have := Capacity.five_le_of_least_pos hpos
          omega
      simp only [insertPass, dif_pos hfull, Sized]
      refine ⟨⟨by omega, by omega, fun c hc => hfits.2 c ?_⟩, by omega, by omega,
        fun c hc => hfits.2 c ?_⟩
      · rw [hparts]
        exact mem_append_left _ hc
      · rw [hparts]
        exact mem_append_right _ hc
    · have hclose : (openFor k n).close = n := close_openAt n _
      rw [← hclose, fits_close] at hfits
      obtain ⟨hroom, hsib, hpart⟩ := hfits
      have hcount : Inner.count n = (openFor k n).left.length + (openFor k n).right.length := by
        conv_lhs => rw [← hclose]
        simp [Inner.count, close]
      have ih := insertPass_fits cap fresh k v h (openFor k n).part hpart.fits
      simp only [insertPass, dif_neg hfull]
      have hlt : (openFor k n).left.length + (openFor k n).right.length < cap.innerMax - 1 := by
        omega
      have hinto := Pass.fits_into (p := insertPass cap fresh k v h (openFor k n).part) hlt hsib
        ?_ ?_
      · exact ⟨hinto.1, hcount.le.trans hinto.2⟩
      · rcases hp : (insertPass cap fresh k v h (openFor k n).part).promoted with _ | s
        · simp only [hp] at ih
          exact (sized_iff h _).2 ⟨hpart.least_le.trans ih.2, ih.1⟩
        · simp only [hp] at ih
          exact ih.1
      · intro s hs
        rw [Option.mem_def] at hs
        simp only [hs] at ih
        exact ih.2

end Node

/-- The nodes of a tree; a root that is a leaf may be empty. -/
def Tree.Sized (cap : Capacity) (t : Tree K V) : Prop :=
  t.root.Fits cap ∧ (0 < t.height → t.root.Sized cap)

namespace Tree

variable {t t' : Tree K V} {success : Bool}

lemma sized_insertPass (hsized : t.Sized cap) : (t.insertPass cap k v).1.Sized cap := by
  have hthree := cap.three_le_innerMax
  have hleast := cap.least_le_one
  have hpass := insertPass_fits cap t.allocated k v t.height t.root hsized.1
  rcases hprom : (t.root.insertPass cap t.allocated k v).promoted with _ | s
  · simp only [hprom] at hpass
    rw [insertPass_of_none hprom]
    refine ⟨hpass.1, fun hpos => (sized_iff _ _).2 ⟨?_, hpass.1⟩⟩
    exact (hsized.2 hpos).least_le.trans hpass.2
  · simp only [hprom] at hpass
    rw [insertPass_of_some hprom]
    have hroot : Node.Sized cap (t.height + 1)
        (⟨(t.root.insertPass cap t.allocated k v).node, [s]⟩ : Inner K (Node K V t.height)) := by
      refine ⟨by simpa [Inner.count] using hleast, by simp [Inner.count]; omega, ?_⟩
      intro c hc
      simp only [parts, map_cons, map_nil, mem_cons, not_mem_nil,
        or_false] at hc
      rcases hc with rfl | rfl
      · exact hpass.1
      · exact hpass.2
    exact ⟨hroot.fits, fun _ => hroot⟩

/-- **`insert` keeps every node within its bounds.** -/
lemma sized_insert {fuel : ℕ} (hsized : t.Sized cap)
    (hins : t.insert cap fuel k v = some (t', success)) : t'.Sized cap := by
  induction fuel generalizing t with
  | zero => cases hins
  | succ fuel ih =>
    have hpass := sized_insertPass (k := k) (v := v) hsized
    rw [insert] at hins
    rcases hres : t.insertPass cap k v with ⟨t₁, _ | b⟩
    · rw [hres] at hpass
      simp only [hres] at hins
      exact ih hpass hins
    · rw [hres] at hpass
      simp only [hres, Option.some.injEq, Prod.mk.injEq] at hins
      obtain ⟨rfl, rfl⟩ := hins
      exact hpass

end Tree

end Insert

/-! ## Remove -/

section Thresholds

variable {count maxEntries : ℕ}

lemma needMerge_zero (h : 3 ≤ maxEntries) : needMerge 0 maxEntries := by
  simp only [needMerge, decide_eq_true_eq]
  omega

lemma one_le_of_not_needMerge (h : 3 ≤ maxEntries) (hn : needMerge count maxEntries = false) :
    1 ≤ count := by
  simp only [needMerge, decide_eq_false_iff_not] at hn
  omega

lemma add_two_le_of_needMerge (h : 3 ≤ maxEntries) (hn : needMerge count maxEntries) :
    count + 2 ≤ maxEntries := by
  simp only [needMerge, decide_eq_true_eq] at hn
  omega

end Thresholds

namespace Node

lemma three_le_maxEntries (cap : Capacity) : (h : ℕ) → 3 ≤ maxEntries cap h
  | 0 => cap.three_le_leafMax
  | _ + 1 => cap.three_le_innerMax

section Neighbours

variable {a b a' b' m : Node K V h} {s s' : K} {o : Opened K (Node K V h)}

/-- A neighbour that spares an entry, and the child that takes it. -/
lemma borrowFromLeft_sized (ha : a.Sized cap) (hb : b.Fits cap) (hspare : Spares cap a)
    (hunder : needMerge b.count (maxEntries cap h))
    (hborrow : a.borrowFromLeft before h s b = some (a', s', b')) : a'.Sized cap ∧ b'.Sized cap := by
  have hleast := cap.least_le_one
  have hthree := three_le_count hspare
  have htwo := add_two_le_of_needMerge (three_le_maxEntries cap h) hunder
  cases h with
  | zero =>
    simp only [borrowFromLeft, Leaf.borrowFromLeft] at hborrow
    split at hborrow
    · cases hborrow
    obtain ⟨key, -, heq⟩ := Option.map_eq_some_iff.1 hborrow
    obtain ⟨rfl, rfl, rfl⟩ : _ ∧ _ ∧ _ := by simpa using heq
    simp only [Sized, Fits, count, maxEntries, Leaf.count, length_dropLast,
      length_cons] at *
    omega
  | succ h =>
    simp only [borrowFromLeft, Inner.borrowFromLeft] at hborrow
    cases hlast : (rest a).getLast? with
    | none => simp [hlast] at hborrow
    | some p =>
      simp only [hlast, Option.some.injEq, Prod.mk.injEq] at hborrow
      obtain ⟨rfl, rfl, rfl⟩ := hborrow
      simp only [count, maxEntries] at hthree htwo
      have hmem : p ∈ rest a := mem_of_getLast? hlast
      refine ⟨⟨?_, ?_, fun c hc => ha.2.2 c ?_⟩, ⟨?_, ?_, fun c hc => ?_⟩⟩
      · simp only [Inner.count, length_dropLast] at *
        omega
      · have := ha.2.1
        simp only [Inner.count, length_dropLast] at *
        omega
      · simp only [parts, mem_cons, mem_map] at hc ⊢
        rcases hc with rfl | ⟨q, hq, rfl⟩
        · exact .inl rfl
        · exact .inr ⟨q, mem_of_mem_dropLast hq, rfl⟩
      · simp only [Inner.count, length_cons]
        omega
      · simp only [Inner.count, length_cons] at *
        omega
      · simp only [parts, map_cons, mem_cons] at hc
        rcases hc with rfl | hc
        · exact ha.2.2 _ (by simp [parts, mem_map_of_mem hmem])
        · exact hb.2 c (by simpa [parts] using hc)

lemma borrowFromRight_sized (ha : a.Fits cap) (hb : b.Sized cap) (hspare : Spares cap b)
    (hunder : needMerge a.count (maxEntries cap h))
    (hborrow : a.borrowFromRight before h s b = some (a', s', b')) : a'.Sized cap ∧ b'.Sized cap := by
  have hleast := cap.least_le_one
  have hthree := three_le_count hspare
  have htwo := add_two_le_of_needMerge (three_le_maxEntries cap h) hunder
  cases h with
  | zero =>
    simp only [borrowFromRight, Leaf.borrowFromRight] at hborrow
    split at hborrow
    · cases hborrow
    rename_i e es hentries
    obtain ⟨key, -, heq⟩ := Option.map_eq_some_iff.1 hborrow
    obtain ⟨rfl, rfl, rfl⟩ : _ ∧ _ ∧ _ := by simpa using heq
    simp only [Sized, Fits, count, maxEntries, Leaf.count, length_append, hentries,
      length_cons, length_nil] at *
    omega
  | succ h =>
    simp only [borrowFromRight, Inner.borrowFromRight] at hborrow
    rcases hrest : rest b with _ | ⟨⟨key, child⟩, rest⟩
    · simp [hrest] at hborrow
    simp only [hrest, Option.some.injEq, Prod.mk.injEq] at hborrow
    obtain ⟨rfl, rfl, rfl⟩ := hborrow
    simp only [count, maxEntries, Inner.count, hrest, length_cons] at hthree htwo
    refine ⟨⟨?_, ?_, fun c hc => ?_⟩, ⟨?_, ?_, fun c hc => hb.2.2 c ?_⟩⟩
    · simp only [Inner.count, length_append, length_singleton]
      omega
    · simp only [Inner.count, length_append, length_singleton]
      omega
    · simp only [parts, map_append, map_cons, map_nil, mem_cons,
        mem_append, not_mem_nil, or_false] at hc
      rcases hc with rfl | hc | rfl
      · exact ha.2 _ (by simp [parts])
      · exact ha.2 c (mem_cons_of_mem _ hc)
      · exact hb.2.2 _ (by simp [parts])
    · simp only [Inner.count]
      omega
    · have := hb.2.1
      simp only [Inner.count, hrest, length_cons] at this ⊢
      omega
    · simp only [parts, mem_cons] at hc ⊢
      rw [hrest]
      exact .inr (by simpa using hc)

/-- Two neighbours with room for both in one page. -/
lemma merge_sized (ha : a.Fits cap) (hb : b.Fits cap) (hroom : hasEnoughSpace cap h a b.count)
    (hleast : cap.least ≤ a.count + b.count) (hmerge : a.merge before h b = some m) :
    m.Sized cap := by
  have hone := cap.least_le_one
  cases h with
  | zero =>
    simp only [merge, Option.some.injEq] at hmerge
    subst hmerge
    simp only [hasEnoughSpace, decide_eq_true_eq] at hroom
    simp only [Sized, Leaf.merge, count, Leaf.count, length_append] at *
    omega
  | succ h =>
    simp only [merge, Option.map_eq_some_iff] at hmerge
    obtain ⟨key, -, rfl⟩ := hmerge
    simp only [hasEnoughSpace, decide_eq_true_eq] at hroom
    refine ⟨?_, ?_, fun c hc => ?_⟩
    · simp only [Inner.merge, Inner.count, length_append, length_cons]
      omega
    · simp only [Inner.merge, count, Inner.count, length_append, length_cons] at *
      omega
    simp only [parts, Inner.merge, map_append, map_cons, mem_cons,
      mem_append] at hc
    rcases hc with rfl | hc | rfl | hc
    · exact ha.2 _ (by simp [parts])
    · exact ha.2 c (mem_cons_of_mem _ hc)
    · exact hb.2 _ (by simp [parts])
    · exact hb.2 c (mem_cons_of_mem _ hc)

lemma hasEnoughSpace_comm (hroom : hasEnoughSpace cap h b a.count) :
    hasEnoughSpace cap h a b.count := by
  cases h with
  | zero =>
    simp only [hasEnoughSpace, decide_eq_true_eq] at hroom ⊢
    simp only [count] at hroom ⊢
    omega
  | succ h =>
    simp only [hasEnoughSpace, decide_eq_true_eq] at hroom ⊢
    simp only [count] at hroom ⊢
    omega

/-- A child that has lost its last entry can always be merged with a sibling that spares none. -/
lemma hasEnoughSpace_of_not_spares (hpos : 0 < cap.least) (hn : a.Sized cap)
    (hspare : ¬Spares cap a) : hasEnoughSpace cap h a 0 := by
  have hfive := Capacity.five_le_of_least_pos hpos
  cases h with
  | zero =>
    have := hn.2
    simpa [hasEnoughSpace] using this
  | succ h =>
    simp only [Spares, getSurplus, maxEntries, count] at hspare
    simp only [hasEnoughSpace, decide_eq_true_eq]
    omega

end Neighbours

end Node

/-- What `EraseMerge` and `_remove` leave of a node: within its bounds, and without entries only if
`EraseMerge` goes on with it. -/
structure Node.LeftBy (cap : Capacity) (n : Node K V h) (goesOn changeRoot : Bool) : Prop where
  fits : n.Fits cap
  settled : goesOn = false → cap.least ≤ n.count
  underfull : goesOn → needMerge n.count (Node.maxEntries cap h)
  root : 0 < h → changeRoot = false → cap.least ≤ n.count

/-- A child that may stay as it is has an entry. -/
lemma least_le_of_noMerge (hsib : Node.Siblings cap o)
    (hleast : cap.least ≤ o.left.length + o.right.length)
    (hchoice : chooseOneSibling cap h o = .noMerge) : cap.least ≤ o.part.count := by
  have hone := cap.least_le_one
  rcases Nat.eq_zero_or_pos cap.least with hzero | hpos
  · omega
  have hspec := chooseOneSibling_spec cap o
  simp only [hchoice] at hspec
  by_contra hlt
  have hcount : o.part.count = 0 := by omega
  rw [hcount] at hspec
  rcases hl : o.left with _ | ⟨p, left⟩
  · rcases hr : o.right with _ | ⟨p, right⟩
    · simp only [hl, hr, length_nil] at hleast
      omega
    · obtain ⟨hspare, hroom⟩ := hspec.2 p (by simp [hr])
      exact hroom (hasEnoughSpace_of_not_spares hpos (hsib.right p (by simp [hr])) hspare)
  · obtain ⟨hspare, hroom⟩ := hspec.1 p (by simp [hl])
    exact hroom (hasEnoughSpace_of_not_spares hpos (hsib.left p (by simp [hl])) hspare)

/-- The parent after a merge. -/
lemma leftBy_mergedInto (hfits : Node.Fits cap (h + 1) o.close) :
    Node.LeftBy cap (h := h + 1) (mergedInto cap h o).parent (mergedInto cap h o).goesOn
      (mergedInto cap h o).changeRoot := by
  have hone := cap.least_le_one
  refine ⟨hfits, fun hgo => ?_, id, fun _ hroot => ?_⟩
  · exact hone.trans (one_le_of_not_needMerge cap.three_le_innerMax hgo)
  · have hne : Inner.count o.close ≠ 0 := by simpa [mergedInto] using hroot
    exact hone.trans (Nat.one_le_iff_ne_zero.2 hne)

/-- **`EraseMerge` keeps every node within its bounds.** -/
lemma EraseMerges.leftBy {m : Merged (Inner K (Node K V h))}
    (hm : EraseMerges cap before o m) (hsib : Node.Siblings cap o) (hpart : o.part.Fits cap)
    (hunder : needMerge o.part.count (maxEntries cap h))
    (hleast : cap.least ≤ o.left.length + o.right.length)
    (hmost : o.left.length + o.right.length ≤ cap.innerMax - 1) :
    Node.LeftBy cap (h := h + 1) m.parent m.goesOn m.changeRoot := by
  -- a parent that has as many keys as before
  have hsame : ∀ o' : Opened K (Node K V h), Node.Siblings cap o' → o'.part.Sized cap →
      o'.left.length + o'.right.length = o.left.length + o.right.length →
      Node.LeftBy cap (h := h + 1) o'.close false false := by
    intro o' hsib' hpart' hlen
    have hfits : Node.Fits cap (h + 1) o'.close :=
      fits_close.2 ⟨by omega, hsib', hpart'⟩
    have hcount : cap.least ≤ count (h + 1) o'.close := by
      simpa [Node.count, Inner.count, close, hlen] using hleast
    exact ⟨hfits, fun _ => hcount, by simp, fun _ _ => hcount⟩
  cases hm with
  | @borrowFromLeft left right a s c a' s' c' hspare hborrow =>
    obtain ⟨ha', hc'⟩ := borrowFromLeft_sized (hsib.left (a, s) (by simp)) hpart hspare hunder
      hborrow
    refine hsame ⟨(a', s') :: left, c', right⟩ ⟨?_, hsib.right⟩ hc' (by simp)
    rintro p hp
    rcases List.mem_cons.1 hp with rfl | hp
    · exact ha'
    · exact hsib.left p (by simp [hp])
  | @borrowFromRight left right c s b c' s' b' hspare hborrow =>
    obtain ⟨hc', hb'⟩ := borrowFromRight_sized hpart (hsib.right (s, b) (by simp)) hspare
      hunder hborrow
    refine hsame ⟨left, c', (s', b') :: right⟩ ⟨hsib.left, ?_⟩ hc' (by simp)
    rintro p hp
    rcases List.mem_cons.1 hp with rfl | hp
    · exact hb'
    · exact hsib.right p (by simp [hp])
  | @rightToLeft left right a s c m hroom hmerge =>
    have ha := hsib.left (a, s) (by simp)
    have hm' := merge_sized ha.fits hpart hroom (ha.least_le.trans (Nat.le_add_right _ _))
      hmerge
    refine leftBy_mergedInto (fits_close.2 ⟨?_, ⟨?_, hsib.right⟩, hm'⟩)
    · simp only [List.length_cons] at hmost ⊢
      omega
    · exact fun p hp => hsib.left p (by simp [hp])
  | @leftToRight left right c s b m hroom hmerge =>
    have hb := hsib.right (s, b) (by simp)
    have hm' := merge_sized hpart hb.fits (hasEnoughSpace_comm hroom)
      (hb.least_le.trans (Nat.le_add_left _ _)) hmerge
    refine leftBy_mergedInto (fits_close.2 ⟨?_, ⟨hsib.left, ?_⟩, hm'⟩)
    · simp only [List.length_cons] at hmost ⊢
      omega
    · exact fun p hp => hsib.right p (by simp [hp])
  | noMerge hchoice =>
    have hsized : o.part.Sized cap :=
      (sized_iff h _).2 ⟨least_le_of_noMerge hsib hleast hchoice, hpart⟩
    have hclose := hsame o hsib hsized rfl
    refine ⟨hclose.fits, fun _ => hclose.settled rfl, ?_, fun hpos _ => hclose.root hpos rfl⟩
    intro hempty
    simp only [Bool.and_eq_true, List.isEmpty_iff] at hempty
    have hcount : Node.count (h + 1) o.close = 0 := by
      simp [Node.count, Inner.count, close, hempty]
    rw [hcount]
    exact needMerge_zero cap.three_le_innerMax

section Remove

variable [LinearOrder K] {k : K}

lemma Leaf.count_remove_le (l : Leaf K V) (k : K) : (l.remove k).1.count ≤ l.count := by
  rw [remove]
  split
  · simp only [count]
    exact length_eraseIdx_le _ _
  · exact le_refl _

/-- **`_remove` keeps every node within its bounds.** -/
lemma Node.leftBy_remove : (h : ℕ) → (n : Node K V h) → n.Fits cap →
    (0 < h → cap.least ≤ n.count) → {r : Removed (Node K V h)} →
    n.remove cap before k = some r → Node.LeftBy cap r.node r.underfull r.changeRoot
  | 0, l, hfits, _, r, hr => by
    simp only [remove, Option.some.injEq] at hr
    subst hr
    have hthree := cap.three_le_leafMax
    refine ⟨(Leaf.count_remove_le l k).trans hfits, fun hno => ?_, id, fun hpos => ?_⟩
    · exact cap.least_le_one.trans (one_le_of_not_needMerge hthree hno)
    · exact absurd hpos (lt_irrefl 0)
  | h + 1, n, hfits, hleast, r, hr => by
    have hclose : (openFor k n).close = n := close_openAt n _
    have hcount : n.count = (openFor k n).left.length + (openFor k n).right.length := by
      conv_lhs => rw [← hclose]
      simp [count, Inner.count, close]
    have hleast' := hleast (Nat.succ_pos h)
    rw [hcount] at hleast'
    rw [← hclose, fits_close] at hfits
    obtain ⟨hmost, hsib, hpart⟩ := hfits
    simp only [remove] at hr
    rcases hc : remove cap before k h (openFor k n).part with _ | c
    · simp [hc] at hr
    simp only [hc] at hr
    have hchild := leftBy_remove h (openFor k n).part hpart.fits (fun _ => hpart.least_le) hc
    cases hunder : c.underfull with
    | true =>
      simp only [hunder, if_true, Option.map_eq_some_iff] at hr
      obtain ⟨m, hm, rfl⟩ := hr
      exact (eraseMerge_eraseMerges hm).leftBy ⟨hsib.left, hsib.right⟩ hchild.fits
        (hchild.underfull hunder) hleast' hmost
    | false =>
      simp only [hunder, Bool.false_eq_true, if_false, Option.some.injEq] at hr
      subst hr
      have hsized : c.node.Sized cap :=
        (sized_iff h _).2 ⟨hchild.settled hunder, hchild.fits⟩
      have hcount' : cap.least ≤ count (h + 1)
          (close { openFor k n with part := c.node }) := by
        simpa [count, Inner.count, close] using hleast'
      exact ⟨fits_close.2 ⟨hmost, ⟨hsib.left, hsib.right⟩, hsized⟩, fun _ => hcount', by simp,
        fun _ _ => hcount'⟩

omit [LinearOrder K] in
lemma Tree.sized_ofRemoved (allocated : ℕ) : (h : ℕ) → (r : Node.Removed (Node K V h)) →
    Node.LeftBy cap r.node r.underfull r.changeRoot → (ofRemoved allocated h r).Sized cap
  | 0, _, hr => ⟨hr.fits, fun hpos => absurd hpos (lt_irrefl 0)⟩
  | h + 1, r, hr => by
    rw [ofRemoved]
    cases hroot : r.changeRoot with
    | true =>
      have hfirst := hr.fits.2 (first r.node) (by simp [parts])
      exact ⟨hfirst.fits, fun _ => hfirst⟩
    | false =>
      exact ⟨hr.fits, fun hpos => (sized_iff _ _).2 ⟨hr.root hpos hroot, hr.fits⟩⟩

/-- **`remove` keeps every node within its bounds.** -/
lemma Tree.sized_remove {t t' : Tree K V} {success : Bool} (hsized : t.Sized cap)
    (hr : t.remove cap before k = some (t', success)) : t'.Sized cap := by
  obtain ⟨r, hr', heq⟩ := Option.map_eq_some_iff.1 hr
  obtain ⟨rfl, rfl⟩ := Prod.mk.inj heq
  exact sized_ofRemoved t.allocated t.height r (leftBy_remove t.height t.root hsized.1
    (fun hpos => (hsized.2 hpos).least_le) hr')

/-! ## Where no leaf is empty, every remove returns -/

namespace Node

omit [LinearOrder K] in
lemma isSome_getSubTreeMaxKey (hpos : 0 < cap.least) : (h : ℕ) → (n : Node K V h) → n.Sized cap →
    (n.getSubTreeMaxKey unknown).isSome
  | 0, l, hn => by
    have hne : Leaf.entries l ≠ [] := by
      intro hnil
      have := hn.1
      simp only [Leaf.count, hnil, length_nil] at this
      omega
    simp [getSubTreeMaxKey, Leaf.maxKey, List.getLast?_eq_some_getLast hne]
  | h + 1, n, hn => by
    refine isSome_getSubTreeMaxKey hpos h (last n) (hn.2.2 _ ?_)
    exact mem_of_getElem? (getElem?_parts (le_refl _))

variable {a b : Node K V h} {s : K}

omit [LinearOrder K] in
lemma isSome_merge (hpos : 0 < cap.least) (ha : a.Fits cap) : (a.merge unknown h b).isSome := by
  cases h with
  | zero => rfl
  | succ h =>
    rw [merge, Option.isSome_map]
    refine isSome_getSubTreeMaxKey hpos h (last a) (ha.2 _ ?_)
    exact mem_of_getElem? (getElem?_parts (le_refl _))

omit [LinearOrder K] in
lemma isSome_borrowFromRight (hspare : Spares cap b) :
    (a.borrowFromRight unknown h s b).isSome := by
  have hthree := three_le_count hspare
  cases h with
  | zero =>
    rcases hb : Leaf.entries b with _ | ⟨e, es⟩
    · simp [count, Leaf.count, hb] at hthree
    · simp [borrowFromRight, Leaf.borrowFromRight, hb, Leaf.maxKey]
  | succ h =>
    rcases hb : rest b with _ | ⟨p, rest⟩
    · simp [count, Inner.count, hb] at hthree
    · simp [borrowFromRight, Inner.borrowFromRight, hb]

omit [LinearOrder K] in
lemma isSome_borrowFromLeft (hspare : Spares cap a) :
    (a.borrowFromLeft unknown h s b).isSome := by
  have hthree := three_le_count hspare
  cases h with
  | zero =>
    simp only [count, Leaf.count] at hthree
    -- three entries: one to lend, and one that becomes the separator
    obtain ⟨X, e, e', hentries⟩ : ∃ X e e', Leaf.entries a = X ++ [e] ++ [e'] := by
      obtain ⟨Y, e', hY⟩ : ∃ Y e', Leaf.entries a = Y ++ [e'] := by
        refine ⟨_, _, (dropLast_append_getLast ?_).symm⟩
        exact ne_nil_of_length_pos (by omega)
      have hlen := congrArg List.length hY
      simp only [length_append, length_singleton] at hlen
      refine ⟨_, _, e', hY.trans (congrArg (· ++ [e']) (dropLast_append_getLast ?_).symm)⟩
      exact ne_nil_of_length_pos (by omega)
    simp [borrowFromLeft, Leaf.borrowFromLeft, hentries, Leaf.maxKey]
  | succ h =>
    simp only [count, Inner.count] at hthree
    obtain ⟨rest, p, hrest⟩ : ∃ rest p, Separated.rest a = rest ++ [p] := by
      refine ⟨_, _, (dropLast_append_getLast ?_).symm⟩
      exact ne_nil_of_length_pos (by omega)
    simp [borrowFromLeft, Inner.borrowFromLeft, hrest]

end Node

omit [LinearOrder K] in
/-- `EraseMerge` returns without looking in front of a leaf's keys. -/
lemma isSome_eraseMerge (hpos : 0 < cap.least) {o : Opened K (Node K V h)}
    (hsib : Node.Siblings cap o) (hpart : o.part.Fits cap) :
    (eraseMerge cap unknown h o).isSome := by
  have hspec := chooseOneSibling_spec cap o
  obtain ⟨left, c, right⟩ := o
  rcases hc : chooseOneSibling cap h (⟨left, c, right⟩ : Opened K (Node K V h)) with
    _ | _ | _ | _ | _
  · simp only [hc] at hspec
    obtain ⟨⟨a, s⟩, left', rfl, hspare⟩ := hspec
    simp only [eraseMerge, hc, Option.isSome_map]
    exact isSome_borrowFromLeft hspare
  · simp only [hc] at hspec
    obtain ⟨⟨s, b⟩, right', rfl, hspare⟩ := hspec
    simp only [eraseMerge, hc, Option.isSome_map]
    exact isSome_borrowFromRight hspare
  · simp only [hc] at hspec
    obtain ⟨⟨s, b⟩, right', rfl, -⟩ := hspec
    simp only [eraseMerge, hc, Option.isSome_map]
    exact isSome_merge hpos hpart
  · simp only [hc] at hspec
    obtain ⟨⟨a, s⟩, left', rfl, -⟩ := hspec
    simp only [eraseMerge, hc, Option.isSome_map]
    exact isSome_merge hpos (hsib.left (a, s) (by simp)).fits
  · simp [eraseMerge, hc]

lemma Node.isSome_remove (hpos : 0 < cap.least) : (h : ℕ) → (n : Node K V h) → n.Fits cap →
    (n.remove cap unknown k).isSome
  | 0, _, _ => rfl
  | h + 1, n, hfits => by
    have hclose : (openFor k n).close = n := close_openAt n _
    rw [← hclose, fits_close] at hfits
    obtain ⟨-, hsib, hpart⟩ := hfits
    obtain ⟨c, hc⟩ := Option.isSome_iff_exists.1
      (isSome_remove hpos h (openFor k n).part hpart.fits)
    have hchild := leftBy_remove h (openFor k n).part hpart.fits (fun _ => hpart.least_le) hc
    cases hunder : c.underfull with
    | true =>
      have hsib' : Siblings cap { openFor k n with part := c.node } := ⟨hsib.left, hsib.right⟩
      simp only [remove, hc, hunder, if_true, Option.isSome_map]
      exact isSome_eraseMerge hpos hsib' hchild.fits
    | false => simp [remove, hc, hunder]

/-- **Where an inner page has room for five, every `remove` returns** without looking in front of a
leaf's keys. -/
lemma Tree.isSome_remove {t : Tree K V} (hfive : 5 ≤ cap.innerMax) (hsized : t.Sized cap) (k : K) :
    (t.remove cap unknown k).isSome := by
  have hpos : 0 < cap.least := by
    rw [Capacity.least, if_pos hfive]
    exact Nat.one_pos
  rw [Tree.remove, Option.isSome_map]
  exact Node.isSome_remove hpos t.height t.root hsized.1

end Remove

end TwoTree.BTreeOlc
