import TwoTree.BTreeOlc.Occupancy
import TwoTree.Lib.OrderedMap

/-!
# Runs of an optimistic B+-tree

The tree as an ordered map.  Starting from the empty tree, one thread inserts keys that are absent and
removes keys that are present; `Reaches` pairs each tree that can come about with the map that the
same calls make.

Every call of `insert` returns, and so does every call of `remove`, but what `remove` leaves is only
right as long as it reads inside the key arrays of leaves (`ReadsInside`).  `EraseMerge` of two inner
nodes asks for the greatest key of the last leaf below the left one, and that leaf may be empty: then
`max_key` reads what stands in front of the array, and the separator between the two halves becomes
that.  It cannot happen where an inner page has room for five entries or more.
-/

namespace TwoTree.BTreeOlc

open Lib Std List Node Mark

variable {K V : Type}

/-! ## What one expects of a tree -/

namespace Node

/-- The depth of each leaf. -/
def leafDepths : (h : ℕ) → Node K V h → List ℕ
  | 0, _ => [0]
  | h + 1, n => ((Separated.parts n).flatMap (leafDepths h)).map (· + 1)

/-- All keys below a node: the keys of entries and the separators. -/
def keysBelow : (h : ℕ) → Node K V h → List K
  | 0, l => Leaf.keys l
  | h + 1, n => Separated.seps n ++ (Separated.parts n).flatMap (keysBelow h)

/-- All keys below a child are above the separator to its left and up to the one to its right. -/
def Respects [LinearOrder K] : (h : ℕ) → Node K V h → Prop
  | 0, _ => True
  | h + 1, n => ∀ i,
      (∀ p ∈ (Separated.openAt n i).left.head?, ∀ k ∈ keysBelow h (Separated.openAt n i).part,
        p.2 < k) ∧
      (∀ p ∈ (Separated.openAt n i).right.head?, ∀ k ∈ keysBelow h (Separated.openAt n i).part,
        k ≤ p.1) ∧
      Respects h (Separated.openAt n i).part

/-- The leftmost leaf. -/
def leftmost : (h : ℕ) → Node K V h → Leaf K V
  | 0, l => l
  | h + 1, n => leftmost h (Separated.first n)

end Node

namespace Tree

/-- The leaf at an address. -/
def leafAt (t : Tree K V) (a : ℕ) : Option (Leaf K V) :=
  (leaves t.spine).find? fun l => l.address = a

/-- The leaves that are met on the `next_` links from the leftmost leaf. -/
def followLinks (t : Tree K V) (fuel : ℕ) : List (Leaf K V) :=
  follow Leaf.next t.leafAt fuel (some t.root.leftmost.address)

end Tree

section Runs

variable [LinearOrder K]

/-- `remove` of a key reads nothing in front of the keys of an empty leaf. -/
def ReadsInside (cap : Capacity) (t : Tree K V) (k : K) : Prop := (t.remove cap unknown k).isSome

/-- The trees that one thread can make, with the ordered map under the same calls; `P` is asked of
every call of `remove`, and `before` says what stands in front of the keys of an empty leaf. -/
inductive Reaches (cap : Capacity) (P : Tree K V → K → Prop) : Tree K V → TreeMap K V → Prop
  | empty : Reaches cap P Tree.empty ∅
  | insert {t t' m fuel k v success} (h : Reaches cap P t m) (habsent : k ∉ m)
      (hins : t.insert cap fuel k v = some (t', success)) : Reaches cap P t' (m.insert k v)
  | remove {t t' m before k success} (h : Reaches cap P t m) (hpresent : k ∈ m) (hP : P t k)
      (hrem : t.remove cap before k = some (t', success)) : Reaches cap P t' (m.erase k)

/-- **The tree is the ordered map.** -/
structure Agrees (cap : Capacity) (t : Tree K V) (m : TreeMap K V) : Prop where
  /-- A lookup finds what the map holds. -/
  lookup : ∀ k, t.lookup k = m[k]?
  /-- Every node's keys respect the separators of its ancestors. -/
  separators : t.root.Respects
  /-- All leaves are at the same depth. -/
  depth : ∀ d ∈ t.root.leafDepths, d = t.height
  /-- The links list all entries, once and in key order. -/
  links : ∃ n, ∀ fuel, n ≤ fuel → (t.followLinks fuel).flatMap Leaf.entries = m.toList
  /-- Every insert of an absent key returns, with success. -/
  insert : ∀ k v, k ∉ m → ∃ fuel t', t.insert cap fuel k v = some (t', true)
  /-- Every remove of a present key returns, with success, if it reads inside. -/
  remove : ∀ before k, k ∈ m → 5 ≤ cap.innerMax ∨ ReadsInside cap t k →
    ∃ t', t.remove cap before k = some (t', true)

/-! ## The invariant -/

/-- What holds of every tree that is reached. -/
structure Inv (cap : Capacity) (t : Tree K V) (m : TreeMap K V) : Prop where
  ordered : Ordered t.spine
  sized : t.Sized cap
  mem_entries : ∀ k v, (k, v) ∈ entries t.spine ↔ m[k]? = some v
  linked : Linked Leaf.address Leaf.next (leaves t.spine)
  last : (leaves t.spine).getLast?.map Leaf.next = some none
  nodup : ((leaves t.spine).map Leaf.address).Nodup
  allocated : ∀ l ∈ leaves t.spine, l.address < t.allocated

namespace Inv

variable {cap : Capacity} {t t' : Tree K V} {m : TreeMap K V} {k : K} {v : V}

lemma empty : Inv cap (Tree.empty : Tree K V) ∅ where
  ordered := by simp [Tree.spine, Tree.empty, spine, Ordered, Leaf.keys]
  sized := ⟨Nat.zero_le _, fun hpos => absurd hpos (lt_irrefl 0)⟩
  mem_entries := by simp [Tree.spine, Tree.empty, spine]
  linked := isChain_singleton _
  last := rfl
  nodup := by simp [Tree.spine, Tree.empty, spine]
  allocated := by simp [Tree.spine, Tree.empty, spine]

lemma not_mem_entries (h : Inv cap t m) (habsent : k ∉ m) (w : V) : (k, w) ∉ entries t.spine := by
  rw [h.mem_entries]
  simp [TreeMap.getElem?_eq_none habsent]

lemma insert (h : Inv cap t m) (habsent : k ∉ m) {fuel : ℕ} {success : Bool}
    (hins : t.insert cap fuel k v = some (t', success)) :
    success = true ∧ Inv cap t' (m.insert k v) := by
  obtain ⟨fresh, hle, hlt, hinserts⟩ := Tree.insert_inserts h.ordered hins
  obtain ⟨hsuccess, hentries⟩ := hinserts.mem_entries (h.not_mem_entries habsent)
  have hfresh : ∀ l ∈ leaves t.spine, l.address ≠ fresh := by
    intro l hl
    have := h.allocated l hl
    omega
  refine ⟨hsuccess, hinserts.ordered, Tree.sized_insert h.sized hins, ?_,
    hinserts.relinks.linked h.linked, hinserts.relinks.last.trans h.last, ?_, ?_⟩
  · intro k' v'
    rw [hentries, h.mem_entries, TreeMap.getElem?_insert]
    by_cases hk : k = k'
    · subst hk
      simp [TreeMap.getElem?_eq_none habsent, eq_comm]
    · simp [hk, Ne.symm hk]
  · have hcons : (fresh :: (leaves t.spine).map Leaf.address).Nodup := by
      rw [nodup_cons]
      refine ⟨?_, h.nodup⟩
      simpa using hfresh
    obtain ⟨l, hperm, hsub⟩ := hinserts.addresses
    exact hperm.nodup_iff.1 (hcons.sublist hsub)
  · intro l hl
    have hmem := hinserts.addresses.subset (mem_map_of_mem hl)
    rcases mem_cons.1 hmem with hfr | hmem
    · omega
    · obtain ⟨l', hl', haddr⟩ := mem_map.1 hmem
      have := h.allocated l' hl'
      omega

lemma remove (h : Inv cap t m) (hpresent : k ∈ m) {success : Bool}
    (hrem : t.remove cap unknown k = some (t', success)) :
    success = true ∧ Inv cap t' (m.erase k) := by
  obtain ⟨halloc, hremoves⟩ := Tree.remove_removes h.ordered hrem
  obtain ⟨w, hw⟩ := Option.isSome_iff_exists.1 (TreeMap.mem_iff_isSome_getElem?.1 hpresent)
  obtain ⟨hsuccess, hentries⟩ := hremoves.mem_entries h.ordered ((h.mem_entries k w).2 hw)
  refine ⟨hsuccess, hremoves.ordered, Tree.sized_remove h.sized hrem, ?_,
    hremoves.relinks.linked h.linked, hremoves.relinks.last.trans h.last, ?_, ?_⟩
  · intro k' v'
    rw [hentries, h.mem_entries, TreeMap.getElem?_erase]
    by_cases hk : k = k'
    · simp [hk]
    · simp [hk, Ne.symm hk]
  · obtain ⟨l, hperm, hsub⟩ := hremoves.addresses
    exact hperm.nodup_iff.1 (h.nodup.sublist hsub)
  · intro l hl
    obtain ⟨l', hl', haddr⟩ := mem_map.1 (hremoves.addresses.subset (mem_map_of_mem hl))
    have := h.allocated l' hl'
    omega

/-- Whatever stands in front of the keys of an empty leaf. -/
lemma remove_eq (h : Inv cap t m) (hreads : 5 ≤ cap.innerMax ∨ ReadsInside cap t k)
    (before : ℕ → Option K) : ∃ r, t.remove cap unknown k = some r ∧
      t.remove cap before k = some r := by
  have hsome : (t.remove cap unknown k).isSome := by
    rcases hreads with hfive | hreads
    · exact Tree.isSome_remove hfive h.sized k
    · exact hreads
  obtain ⟨r, hr⟩ := Option.isSome_iff_exists.1 hsome
  exact ⟨r, hr, Tree.remove_of_unknown hr⟩

/-- **Every tree that is reached keeps the invariant.** -/
lemma of_reaches
    (h : Reaches cap (fun t k => 5 ≤ cap.innerMax ∨ ReadsInside cap t k) t m) : Inv cap t m := by
  induction h with
  | empty => exact Inv.empty
  | insert _ habsent hins ih => exact (ih.insert habsent hins).2
  | remove _ hpresent hP hrem ih =>
    obtain ⟨r, hunknown, hr⟩ := ih.remove_eq hP _
    rw [hrem, Option.some.injEq] at hr
    rw [← hr] at hunknown
    exact (ih.remove hpresent hunknown).2

end Inv

end Runs

/-! ## What the invariant gives -/

section Agrees

variable {K V : Type}

namespace Node

lemma leafDepths_eq : (h : ℕ) → (n : Node K V h) → ∀ d ∈ n.leafDepths, d = h
  | 0, _ => by simp [leafDepths]
  | h + 1, n => by
    intro d hd
    simp only [leafDepths, mem_map, mem_flatMap] at hd
    obtain ⟨d', ⟨c, -, hd'⟩, rfl⟩ := hd
    rw [leafDepths_eq h c d' hd']

/-- The spine starts with the leftmost leaf. -/
lemma head?_leaves : (h : ℕ) → (n : Node K V h) → (leaves n.spine).head? = some n.leftmost
  | 0, _ => rfl
  | h + 1, n => by
    rw [spine, Separated.flatten, leaves_append, head?_append, head?_leaves h]
    rfl

/-- Every key below a node leaves a mark on its spine. -/
lemma mark_of_mem_keysBelow {k : K} : (h : ℕ) → (n : Node K V h) → k ∈ n.keysBelow →
    key k ∈ marks n.spine ∨ cut k ∈ marks n.spine
  | 0, l, hk => .inl (by simpa [spine, keysBelow] using hk)
  | h + 1, n, hk => by
    have hflat : ∀ x, x ∈ marks n.spine ↔ x ∈ marks (Separated.first n).spine ∨
        ∃ p ∈ Separated.rest n, x = cut p.1 ∨ x ∈ marks p.2.spine := by
      intro x
      simp only [spine, Separated.flatten, marks_append, mem_append]
      rw [marks, marks, flatMap_assoc]
      simp [marks, Item.marks]
    rw [hflat, hflat]
    simp only [keysBelow, Separated.seps, Separated.parts, mem_append, mem_map,
      mem_flatMap, mem_cons] at hk
    rcases hk with ⟨p, hp, rfl⟩ | ⟨c, rfl | ⟨p, hp, rfl⟩, hk⟩
    · exact .inr (.inr ⟨p, hp, .inl rfl⟩)
    · exact (mark_of_mem_keysBelow h _ hk).imp .inl .inl
    · exact (mark_of_mem_keysBelow h _ hk).imp (fun hm => .inr ⟨p, hp, .inr hm⟩)
        fun hm => .inr ⟨p, hp, .inr hm⟩

/-- **On an ordered spine every node's keys respect the separators of its ancestors.** -/
lemma respects_of_ordered [LinearOrder K] : (h : ℕ) → (n : Node K V h) → Ordered n.spine →
    n.Respects
  | 0, _, _ => trivial
  | h + 1, n, hord => by
    intro i
    have hspine := spine_close (Separated.openAt n i)
    rw [Separated.close_openAt] at hspine
    rw [hspine] at hord
    have hmarks := hord
    rw [Ordered, marks_append, marks_append] at hmarks
    obtain ⟨-, -, -, hAM, hMB, -⟩ := pairwise_append₃.1 hmarks
    refine ⟨?_, ?_, respects_of_ordered h _ hord.middle⟩
    · intro p hp k hk
      have hcut := cut_mem_before (mem_of_mem_head? hp)
      rcases mark_of_mem_keysBelow h _ hk with hm | hm
      · exact cut_lt_key.1 (hAM _ hcut _ hm)
      · exact cut_lt_cut.1 (hAM _ hcut _ hm)
    · intro p hp k hk
      have hcut := cut_mem_behind (mem_of_mem_head? hp)
      rcases mark_of_mem_keysBelow h _ hk with hm | hm
      · exact key_lt_cut.1 (hMB _ hm _ hcut)
      · exact (cut_lt_cut.1 (hMB _ hm _ hcut)).le

end Node

variable [LinearOrder K] {cap : Capacity} {t : Tree K V} {m : TreeMap K V}

namespace Inv

variable (h : Inv cap t m)
include h

lemma lookup_eq (k : K) : t.lookup k = m[k]? := by
  refine Option.ext fun v => ?_
  rw [Tree.lookup, lookup_eq_some_iff h.ordered, h.mem_entries]

lemma entries_eq : entries t.spine = m.toList :=
  OrderedMap.eq_toList h.ordered.pairwise_entries h.mem_entries

lemma followLinks_eq {fuel : ℕ} (hfuel : (leaves t.spine).length ≤ fuel) :
    t.followLinks fuel = leaves t.spine := by
  have hlast : ∀ l ∈ (leaves t.spine).getLast?, l.next = none := by
    intro l hl
    have := h.last
    rw [Option.mem_def.1 hl] at this
    simpa using this
  have hfind : ∀ l ∈ leaves t.spine, t.leafAt l.address = some l :=
    fun l hl => find?_address h.nodup hl
  have hfollow := follow_eq h.linked hlast hfind hfuel
  rw [head?_leaves] at hfollow
  exact hfollow

lemma agrees : Agrees cap t m where
  lookup := h.lookup_eq
  separators := respects_of_ordered _ _ h.ordered
  depth := leafDepths_eq _ _
  links := by
    refine ⟨(leaves t.spine).length, fun fuel hfuel => ?_⟩
    rw [h.followLinks_eq hfuel, ← entries_eq_leaves, h.entries_eq]
  insert k v habsent := by
    obtain ⟨fuel, ⟨t', success⟩, hins⟩ := Tree.exists_insert cap t k v h.ordered
    exact ⟨fuel, t', (h.insert habsent hins).1 ▸ hins⟩
  remove before k hpresent hreads := by
    obtain ⟨⟨t', success⟩, hunknown, hrem⟩ := h.remove_eq hreads before
    exact ⟨t', (h.remove hpresent hunknown).1 ▸ hrem⟩

end Inv

end Agrees

/-! ## Runs of inserts -/

section Load

variable {K V : Type} [LinearOrder K] {cap : Capacity} {P : Tree K V → K → Prop}

/-- Insert entries one after the other. -/
def Tree.load (cap : Capacity) (fuel : ℕ) : Tree K V → List (K × V) → Option (Tree K V)
  | t, [] => some t
  | t, e :: es => (t.insert cap fuel e.1 e.2).bind fun r => load cap fuel r.1 es

lemma Reaches.load {fuel : ℕ} {t t' : Tree K V} {m : TreeMap K V} {es : List (K × V)}
    (h : Reaches cap P t m) (habsent : ∀ e ∈ es, e.1 ∉ m) (hnodup : (es.map Prod.fst).Nodup)
    (hload : t.load cap fuel es = some t') :
    Reaches cap P t' (es.foldl (fun m e => m.insert e.1 e.2) m) := by
  induction es generalizing t m with
  | nil =>
    rw [Tree.load, Option.some.injEq] at hload
    exact hload ▸ h
  | cons e es ih =>
    obtain ⟨⟨t₁, success⟩, hins, hrest⟩ := Option.bind_eq_some_iff.1 hload
    rw [map_cons, nodup_cons] at hnodup
    refine ih (h.insert (habsent e (by simp)) hins) ?_ hnodup.2 hrest
    intro e' he' hmem
    rcases TreeMap.mem_insert.1 hmem with heq | hmem
    · rw [Std.compare_eq_iff_eq] at heq
      exact hnodup.1 (heq ▸ mem_map_of_mem he')
    · exact habsent e' (by simp [he']) hmem

end Load

/-- Pages with room for three entries in a leaf and four in an inner node. -/
def smallPages : Capacity := ⟨3, 4, by decide, by decide⟩

/-- Seven entries: the last insert splits the full root into a node without keys and one with two. -/
def sevenEntries : List (ℕ × ℕ) := [(3, 30), (0, 0), (8, 80), (7, 70), (10, 100), (9, 90), (2, 20)]

/-! ## The tree and the map -/

/-- **The optimistic B+-tree is an ordered map** in every run in which no remove reads in front of an
empty leaf's keys: every run, if an inner page has room for at least five entries. -/
theorem tree_agrees_with_map {K V : Type} [LinearOrder K] {cap : Capacity} {t : Tree K V}
    {m : TreeMap K V}
    (h : Reaches cap (fun t k => 5 ≤ cap.innerMax ∨ ReadsInside cap t k) t m) : Agrees cap t m :=
  (Inv.of_reaches h).agrees

theorem tree_agrees_with_map_smallPages : ∃ (t : Tree ℕ ℕ) (m : TreeMap ℕ ℕ),
    Reaches smallPages (fun t k => 5 ≤ smallPages.innerMax ∨ ReadsInside smallPages t k) t m ∧
      m.size = 6 ∧ Agrees smallPages t m := by
  have hrun : ((Tree.empty.load smallPages 2 sevenEntries).bind fun t =>
      t.remove smallPages unknown 9).isSome := by
    decide +kernel
  obtain ⟨⟨t', success⟩, hr⟩ := Option.isSome_iff_exists.1 hrun
  obtain ⟨t, hload, hrem⟩ := Option.bind_eq_some_iff.1 hr
  have hreach := Reaches.empty.load
    (P := fun t k => 5 ≤ smallPages.innerMax ∨ ReadsInside smallPages t k) (by simp) (by decide) hload
  have hinside : ReadsInside smallPages t 9 := by
    rw [ReadsInside, hrem]
    rfl
  have hreach' := hreach.remove (by simp [sevenEntries]) (.inr hinside) hrem
  exact ⟨t', _, hreach', by decide +kernel, tree_agrees_with_map hreach'⟩

/-- **A separator from outside.**  The node without keys has one leaf with one entry.  Removing that
entry merges the node with its sibling, and the separator between them is what stands in front of the
keys of the empty leaf, here 4096: no lookup finds a smaller key any more. -/
theorem lookup_lost : ∃ (t : Tree ℕ ℕ) (m : TreeMap ℕ ℕ), Reaches smallPages (fun _ _ => True) t m ∧
    t.lookup 2 = none ∧ m[2]? = some 20 := by
  have hrun : ((Tree.empty.load smallPages 2 sevenEntries).bind fun t =>
      (t.remove smallPages (fun _ => some 4096) 0).map fun r => r.1.lookup 2) = some none := by
    decide +kernel
  obtain ⟨t, hload, hrem⟩ := Option.bind_eq_some_iff.1 hrun
  obtain ⟨⟨t', success⟩, hrem, hlookup⟩ := Option.map_eq_some_iff.1 hrem
  have hreach := Reaches.empty.load (P := fun _ _ => True) (by simp) (by decide) hload
  refine ⟨t', _, hreach.remove ?_ trivial hrem, hlookup, ?_⟩
  · simp [sevenEntries]
  · simp [sevenEntries]

/-! ## The height -/

/-- Where every node holds an entry, every level doubles the number of entries below. -/
lemma Node.two_pow_le_length {cap : Capacity} (hpos : 0 < cap.least) : (h : ℕ) → (n : Node K V h) →
    n.Sized cap → 2 ^ h ≤ (entries n.spine).length
  | 0, l, hsized => by
    have hcount := hpos.trans_le hsized.1
    simpa [spine, Leaf.count, Nat.one_le_iff_ne_zero, Nat.pos_iff_ne_zero] using hcount
  | h + 1, ⟨first, rest⟩, ⟨hcount, _, hparts⟩ => by
    obtain _ | ⟨p, ps⟩ := rest
    · exact absurd (hpos.trans_le hcount) (lt_irrefl 0)
    have hfirst := two_pow_le_length hpos h first (hparts _ (by simp [Separated.parts]))
    have hsecond := two_pow_le_length hpos h p.2 (hparts _ (by simp [Separated.parts]))
    simp only [spine, Separated.flatten, entries, flatMap_cons, flatMap_append, length_append] at *
    omega

/-- **The tree is balanced.**  After every run of inserts and removes, if an inner page has room for
at least five entries, a search passes no more inner nodes than the logarithm of the number of
entries. -/
theorem height_le_log [LinearOrder K] {cap : Capacity} {t : Tree K V} {m : TreeMap K V}
    (hfive : 5 ≤ cap.innerMax)
    (h : Reaches cap (fun t k => 5 ≤ cap.innerMax ∨ ReadsInside cap t k) t m) :
    t.height ≤ Nat.log 2 m.size := by
  have hinv := Inv.of_reaches h
  rcases Nat.eq_zero_or_pos t.height with hzero | hpos
  · rw [hzero]
    exact Nat.zero_le _
  · have hleast : 0 < cap.least := by simp [Capacity.least, hfive]
    have hle := t.root.two_pow_le_length hleast _ (hinv.sized.2 hpos)
    rw [← Tree.spine, hinv.entries_eq, TreeMap.length_toList] at hle
    exact Nat.le_log_of_pow_le one_lt_two hle

theorem height_le_log_sevenEntries : ∃ (t : Tree ℕ ℕ) (m : TreeMap ℕ ℕ),
    Tree.empty.load ⟨3, 5, by decide, by decide⟩ 2 sevenEntries = some t ∧ t.height = 1 ∧
      1 ≤ Nat.log 2 m.size := by
  have hrun : (Tree.empty.load ⟨3, 5, by decide, by decide⟩ 2 sevenEntries).map Tree.height =
      some 1 := by
    decide +kernel
  obtain ⟨t, hload, hone⟩ := Option.map_eq_some_iff.1 hrun
  have hreach := height_le_log (by decide) (Reaches.empty.load (by simp) (by decide) hload)
  exact ⟨t, _, hload, hone, hone ▸ hreach⟩

end TwoTree.BTreeOlc
