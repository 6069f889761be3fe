import TwoTree.BTreeOlc.Insert

/-!
# Remove from an optimistic B+-tree

`_remove` erases the entry from the leaf where its key belongs and then works its way up: as long as a
node has too few entries, `EraseMerge` lets it borrow from a sibling or merges it with one.  Each of
these steps rebuilds the spine around the same entries (`EraseMerges.rebuilds`):

* two leaves are parted anew, or become one;
* a child that goes from one inner node to the next takes its place on the spine along;
* two inner nodes become one, and the separator between them is replaced by the greatest key to its
  left, which `_getSubTreeMaxKey` reads from the last leaf.

The last of these is only true if that leaf has a greatest key.  The lemmas are about calls that do
not look at the place in front of an empty leaf's keys, that is, calls that return when what stands
there is `unknown`; those calls return the same whatever stands there (`Tree.remove_of_unknown`).
-/

namespace TwoTree.BTreeOlc

open Lib List Option Separated Node Leaf Mark Opened

/-- Nothing is known of what stands in front of the keys of an empty leaf. -/
def unknown {K : Type} : ℕ → Option K := fun _ => none

variable {K V : Type} {cap : Capacity} {before : ℕ → Option K} {h : ℕ}

/-! ## What one call of `EraseMerge` can do -/

/-- A sibling that can spare an entry. -/
def Spares (cap : Capacity) (n : Node K V h) : Prop :=
  0 < getSurplus (n.count) (Node.maxEntries cap h)

/-- The five outcomes of `EraseMerge` at a parent opened at the child. -/
inductive EraseMerges (cap : Capacity) (before : ℕ → Option K) {h : ℕ} :
    Opened K (Node K V h) → Merged (Inner K (Node K V h)) → Prop
  | borrowFromLeft {left right a s c a' s' c'} (hspare : Spares cap a)
      (hborrow : Node.borrowFromLeft before h a s c = some (a', s', c')) :
      EraseMerges cap before ⟨(a, s) :: left, c, right⟩
        ⟨Opened.close ⟨(a', s') :: left, c', right⟩, false, false⟩
  | borrowFromRight {left right c s b c' s' b'} (hspare : Spares cap b)
      (hborrow : Node.borrowFromRight before h c s b = some (c', s', b')) :
      EraseMerges cap before ⟨left, c, (s, b) :: right⟩
        ⟨Opened.close ⟨left, c', (s', b') :: right⟩, false, false⟩
  | rightToLeft {left right a s c m} (hroom : Node.hasEnoughSpace cap h a (Node.count h c))
      (hmerge : Node.merge before h a c = some m) :
      EraseMerges cap before ⟨(a, s) :: left, c, right⟩ (mergedInto cap h ⟨left, m, right⟩)
  | leftToRight {left right c s b m} (hroom : Node.hasEnoughSpace cap h b (Node.count h c))
      (hmerge : Node.merge before h c b = some m) :
      EraseMerges cap before ⟨left, c, (s, b) :: right⟩ (mergedInto cap h ⟨left, m, right⟩)
  | noMerge {o} (hchoice : chooseOneSibling cap h o = .noMerge) :
      EraseMerges cap before o ⟨o.close, o.left.isEmpty && o.right.isEmpty, false⟩

lemma any_head?_iff {α : Type} {l : List α} {f : α → Bool} :
    l.head?.any f ↔ ∃ p rest, l = p :: rest ∧ f p := by
  cases l <;> simp

/-- What the choice says about the sibling that is chosen. -/
lemma chooseOneSibling_spec (cap : Capacity) (o : Opened K (Node K V h)) :
    match chooseOneSibling cap h o with
    | .borrowFromLeft => ∃ p left, o.left = p :: left ∧ Spares cap p.1
    | .borrowFromRight => ∃ p right, o.right = p :: right ∧ Spares cap p.2
    | .rightToLeft => ∃ p left, o.left = p :: left ∧
        Node.hasEnoughSpace cap h p.1 (Node.count h o.part)
    | .leftToRight => ∃ p right, o.right = p :: right ∧
        Node.hasEnoughSpace cap h p.2 (Node.count h o.part)
    | .noMerge =>
      (∀ p ∈ o.left.head?, ¬Spares cap p.1 ∧ ¬Node.hasEnoughSpace cap h p.1 (Node.count h o.part)) ∧
      ∀ p ∈ o.right.head?, ¬Spares cap p.2 ∧
        ¬Node.hasEnoughSpace cap h p.2 (Node.count h o.part) := by
  simp only [chooseOneSibling]
  by_cases hleft : o.left.head?.any fun p =>
      decide (0 < getSurplus (Node.count h p.1) (Node.maxEntries cap h))
  · simp only [hleft, if_true]
    simpa [Spares] using any_head?_iff.1 hleft
  by_cases hright : o.right.head?.any fun p =>
      decide (0 < getSurplus (Node.count h p.2) (Node.maxEntries cap h))
  · simp only [hleft, hright, if_true, if_false, Bool.false_eq_true]
    simpa [Spares] using any_head?_iff.1 hright
  by_cases hleft' : o.left.head?.any fun p => Node.hasEnoughSpace cap h p.1 (Node.count h o.part)
  · simp only [hleft, hright, hleft', if_true, if_false, Bool.false_eq_true]
    exact any_head?_iff.1 hleft'
  by_cases hright' : o.right.head?.any fun p => Node.hasEnoughSpace cap h p.2 (Node.count h o.part)
  · simp only [hleft, hright, hleft', hright', if_true, if_false, Bool.false_eq_true]
    exact any_head?_iff.1 hright'
  simp only [hleft, hright, hleft', hright', if_false, Bool.false_eq_true]
  refine ⟨fun p hp => ⟨?_, ?_⟩, fun p hp => ⟨?_, ?_⟩⟩
  · intro hspare
    exact hleft ((any_eq_true _ _).2 ⟨p, hp, by simpa [Spares] using hspare⟩)
  · intro hroom
    exact hleft' ((any_eq_true _ _).2 ⟨p, hp, hroom⟩)
  · intro hspare
    exact hright ((any_eq_true _ _).2 ⟨p, hp, by simpa [Spares] using hspare⟩)
  · intro hroom
    exact hright' ((any_eq_true _ _).2 ⟨p, hp, hroom⟩)

/-- **One call of `EraseMerge` does one of five things.** -/
lemma eraseMerge_eraseMerges {o : Opened K (Node K V h)} {m : Merged (Inner K (Node K V h))}
    (hm : eraseMerge cap before h o = some m) : EraseMerges cap before o m := by
  have hchoice := chooseOneSibling_spec cap o
  obtain ⟨left, c, right⟩ := o
  rcases hc : chooseOneSibling cap h (⟨left, c, right⟩ : Opened K (Node K V h)) with
    _ | _ | _ | _ | _
  · simp only [hc] at hchoice
    obtain ⟨⟨a, s⟩, left', rfl, hspare⟩ := hchoice
    simp only [eraseMerge, hc, map_eq_some_iff] at hm
    obtain ⟨⟨a', s', c'⟩, hborrow, rfl⟩ := hm
    exact .borrowFromLeft hspare hborrow
  · simp only [hc] at hchoice
    obtain ⟨⟨s, b⟩, right', rfl, hspare⟩ := hchoice
    simp only [eraseMerge, hc, map_eq_some_iff] at hm
    obtain ⟨⟨c', s', b'⟩, hborrow, rfl⟩ := hm
    exact .borrowFromRight hspare hborrow
  · simp only [hc] at hchoice
    obtain ⟨⟨s, b⟩, right', rfl, hroom⟩ := hchoice
    simp only [eraseMerge, hc, map_eq_some_iff] at hm
    obtain ⟨m', hmerge, rfl⟩ := hm
    exact .leftToRight hroom hmerge
  · simp only [hc] at hchoice
    obtain ⟨⟨a, s⟩, left', rfl, hroom⟩ := hchoice
    simp only [eraseMerge, hc, map_eq_some_iff] at hm
    obtain ⟨m', hmerge, rfl⟩ := hm
    exact .rightToLeft hroom hmerge
  · simp only [eraseMerge, hc, some.injEq] at hm
    subst hm
    exact .noMerge hc

/-! ## Calls that do not look in front of an empty leaf's keys -/

lemma Leaf.maxKey_of_unknown {l : Leaf K V} {m : K} (hm : l.maxKey unknown = some m) :
    l.maxKey before = some m := by
  rw [maxKey] at hm ⊢
  cases hlast : l.entries.getLast? with
  | some e => simpa [hlast] using hm
  | none => simp [hlast, unknown] at hm

namespace Node

lemma getSubTreeMaxKey_of_unknown {m : K} : (h : ℕ) → (n : Node K V h) →
    n.getSubTreeMaxKey unknown = some m → n.getSubTreeMaxKey before = some m
  | 0, _, hm => maxKey_of_unknown hm
  | h + 1, _, hm => getSubTreeMaxKey_of_unknown h _ hm

variable {a b m : Node K V h} {s : K} {r : Node K V h × K × Node K V h}

lemma merge_of_unknown (hm : a.merge unknown h b = some m) : a.merge before h b = some m := by
  cases h with
  | zero => exact hm
  | succ h =>
    simp only [merge, map_eq_some_iff] at hm ⊢
    obtain ⟨key, hkey, rfl⟩ := hm
    exact ⟨key, getSubTreeMaxKey_of_unknown h _ hkey, rfl⟩

lemma borrowFromRight_of_unknown (hr : a.borrowFromRight unknown h s b = some r) :
    a.borrowFromRight before h s b = some r := by
  cases h with
  | zero =>
    simp only [borrowFromRight, Leaf.borrowFromRight] at hr ⊢
    split at hr
    · cases hr
    · obtain ⟨key, hkey, rfl⟩ := map_eq_some_iff.1 hr
      exact map_eq_some_iff.2 ⟨key, Leaf.maxKey_of_unknown hkey, rfl⟩
  | succ h => exact hr

lemma borrowFromLeft_of_unknown (hr : a.borrowFromLeft unknown h s b = some r) :
    a.borrowFromLeft before h s b = some r := by
  cases h with
  | zero =>
    simp only [borrowFromLeft, Leaf.borrowFromLeft] at hr ⊢
    split at hr
    · cases hr
    · obtain ⟨key, hkey, rfl⟩ := map_eq_some_iff.1 hr
      exact map_eq_some_iff.2 ⟨key, Leaf.maxKey_of_unknown hkey, rfl⟩
  | succ h => exact hr

end Node

lemma eraseMerge_of_unknown {o : Opened K (Node K V h)} {m : Merged (Inner K (Node K V h))}
    (hm : eraseMerge cap unknown h o = some m) : eraseMerge cap before h o = some m := by
  rw [eraseMerge] at hm ⊢
  split at hm
  · obtain ⟨r, hr, rfl⟩ := map_eq_some_iff.1 hm
    exact map_eq_some_iff.2 ⟨r, borrowFromLeft_of_unknown hr, rfl⟩
  · obtain ⟨r, hr, rfl⟩ := map_eq_some_iff.1 hm
    exact map_eq_some_iff.2 ⟨r, borrowFromRight_of_unknown hr, rfl⟩
  · obtain ⟨r, hr, rfl⟩ := map_eq_some_iff.1 hm
    exact map_eq_some_iff.2 ⟨r, merge_of_unknown hr, rfl⟩
  · obtain ⟨r, hr, rfl⟩ := map_eq_some_iff.1 hm
    exact map_eq_some_iff.2 ⟨r, merge_of_unknown hr, rfl⟩
  · exact hm

/-- **A call of `_remove` that returns without looking there returns the same whatever stands
there.** -/
lemma Node.remove_of_unknown [LinearOrder K] {k : K} : (h : ℕ) → (n : Node K V h) →
    {r : Removed (Node K V h)} → n.remove cap unknown k = some r → n.remove cap before k = some r
  | 0, _, _, hr => hr
  | h + 1, n, r, hr => by
    simp only [remove] at hr ⊢
    rcases hc : remove cap unknown k h (openAt n (lowerBound (seps n) k)).part
      with _ | c
    · simp [hc] at hr
    rw [remove_of_unknown h _ hc]
    simp only [hc] at hr ⊢
    cases hunder : c.underfull with
    | true =>
      simp only [hunder, if_true] at hr ⊢
      obtain ⟨m, hm, rfl⟩ := map_eq_some_iff.1 hr
      exact map_eq_some_iff.2 ⟨m, eraseMerge_of_unknown hm, rfl⟩
    | false => simpa [hunder] using hr

lemma Tree.remove_of_unknown [LinearOrder K] {t : Tree K V} {k : K} {r : Tree K V × Bool}
    (hr : t.remove cap unknown k = some r) : t.remove cap before k = some r := by
  obtain ⟨r', hr', rfl⟩ := map_eq_some_iff.1 hr
  exact map_eq_some_iff.2 ⟨r', Node.remove_of_unknown t.height t.root hr', rfl⟩

/-! ## Each outcome rebuilds the spine -/

section Rebuild

variable [LinearOrder K]

namespace Leaf

variable {a b a' b' : Leaf K V} {s s' : K}

lemma merge_rebuilds (hord : Ordered [.leaf a, .sep s, .leaf b]) :
    Rebuilds [] [.leaf a, .sep s, .leaf b] [.leaf (a.merge b)] := by
  have hsub : (marks [Item.leaf (a.merge b)]).Sublist (marks [Item.leaf a, .sep s, .leaf b]) := by
    simp only [marks_leaf, marks_sep, marks_nil, keys, merge, map_append, append_nil]
    exact (sublist_cons_self _ _).append_left _
  constructor
  · simp [merge]
  · exact List.Pairwise.sublist hsub hord
  · exact Covers.of_subset hsub.subset
  · exact ⟨rfl, rfl, fun _ => isChain_singleton _⟩
  · exact ((nil_sublist _).cons_cons a.address).subperm

omit [LinearOrder K] in
lemma maxKey_unknown {l : Leaf K V} {m : K} (hm : l.maxKey unknown = some m) :
    ∃ X e, l.entries = X ++ [e] ∧ m = e.1 := by
  rw [maxKey] at hm
  cases hlast : l.entries.getLast? with
  | none => simp [hlast, unknown] at hm
  | some e =>
    simp only [hlast, some.injEq] at hm
    obtain ⟨X, hX⟩ := getLast?_eq_some_iff.1 hlast
    exact ⟨X, e, hX, hm.symm⟩

variable (hord : Ordered [.leaf a, .sep s, .leaf b])
include hord

/-- Parting two leaves anew at the last key of the left one. -/
lemma parted_rebuilds (hentries : a'.entries ++ b'.entries = a.entries ++ b.entries)
    (ha : a'.address = a.address ∧ a'.next = a.next) (hb : b'.address = b.address ∧ b'.next = b.next)
    (hparted : Parted a' s' b') :
    Rebuilds [] [.leaf a, .sep s, .leaf b] [.leaf a', .sep s', .leaf b'] := by
  refine hparted.rebuilds hord (by simpa using hentries) ⟨?_, ?_, ?_⟩ ?_
  · simp [ha.1]
  · simp [hb.2]
  · simp [Linked, ha.2, hb.1]
  · simp [ha.1, hb.1, List.Subperm.refl]

lemma borrowFromRight_rebuilds (htwo : 2 ≤ b.count)
    (h : a.borrowFromRight unknown b = some (a', s', b')) :
    Rebuilds [] [.leaf a, .sep s, .leaf b] [.leaf a', .sep s', .leaf b'] := by
  rw [borrowFromRight] at h
  rcases hb : b.entries with _ | ⟨e, es⟩
  · simp [hb] at h
  simp only [hb, map_eq_some_iff, Prod.mk.injEq] at h
  obtain ⟨m, hm, rfl, rfl, rfl⟩ := h
  refine parted_rebuilds hord (by simp [hb]) ⟨rfl, rfl⟩ ⟨rfl, rfl⟩ ⟨maxKey_unknown hm, ?_⟩
  intro hnil
  simp only at hnil
  simp [count, hb, hnil] at htwo

lemma borrowFromLeft_rebuilds (h : a.borrowFromLeft unknown b = some (a', s', b')) :
    Rebuilds [] [.leaf a, .sep s, .leaf b] [.leaf a', .sep s', .leaf b'] := by
  rw [borrowFromLeft] at h
  cases hlast : a.entries.getLast? with
  | none => simp [hlast] at h
  | some e =>
    simp only [hlast, map_eq_some_iff, Prod.mk.injEq] at h
    obtain ⟨m, hm, rfl, rfl, rfl⟩ := h
    refine parted_rebuilds hord ?_ ⟨rfl, rfl⟩ ⟨rfl, rfl⟩ ⟨maxKey_unknown hm, by simp⟩
    obtain ⟨X, hX⟩ := getLast?_eq_some_iff.1 hlast
    simp [hX]

end Leaf

namespace Node

variable {a b a' b' : Node K V h} {s s' : K}

omit [LinearOrder K] in
/-- The greatest key below a node is the last mark of its spine. -/
lemma getSubTreeMaxKey_unknown {m : K} : (h : ℕ) → (n : Node K V h) →
    n.getSubTreeMaxKey unknown = some m → ∃ M, marks n.spine = M ++ [key m]
  | 0, l, hm => by
    obtain ⟨X, e, hentries, rfl⟩ := maxKey_unknown hm
    exact ⟨X.map fun e => key e.1, by simp [spine, Leaf.keys, hentries, Function.comp_def]⟩
  | h + 1, n, hm => by
    obtain ⟨M, hM⟩ := getSubTreeMaxKey_unknown h _ hm
    have hspine := spine_close (openAt n (rest n).length)
    have hbehind : behindOf (openAt n (rest n).length) = [] := by
      rw [behindOf, behind, openAt, openFrom_right_of_le (le_refl _)]
      rfl
    rw [close_openAt, hbehind, append_nil] at hspine
    exact ⟨marks (beforeOf (openAt n (rest n).length)) ++ M, by
      rw [hspine, marks_append, append_assoc, ← hM]
      rfl⟩

/-- **The separator between two nodes may be replaced by the greatest key to its left.** -/
lemma sep_rebuilds {S T : List (Item K V)} {m : K} (hord : Ordered (S ++ .sep s :: T))
    (hlast : ∃ M, marks S = M ++ [key m]) :
    Rebuilds [] (S ++ .sep s :: T) (S ++ .sep m :: T) := by
  obtain ⟨M, hM⟩ := hlast
  have hmarks := hord
  rw [Ordered, marks_append, marks_sep] at hmarks
  obtain ⟨hS, hT, hST⟩ := pairwise_append.1 hmarks
  have hms : key m < cut s := hST _ (by simp [hM]) _ (by simp)
  have hle : cut m ≤ cut s := by
    rcases (key_lt_cut.1 hms).eq_or_lt with rfl | hlt
    · exact le_refl _
    · exact (cut_lt_cut.2 hlt).le
  constructor
  · simp
  · rw [Ordered, marks_append, marks_sep]
    refine pairwise_append.2 ⟨hS, pairwise_cons.2 ⟨?_, (pairwise_cons.1 hT).2⟩, ?_⟩
    · intro x hx
      exact lt_of_le_of_lt hle ((pairwise_cons.1 hT).1 x hx)
    intro x hx y hy
    rcases mem_cons.1 hy with rfl | hy
    · -- everything to the left is at or below the greatest key there
      have hxm : x ≤ key m := by
        rw [hM] at hS hx
        rcases mem_append.1 hx with hx | hx
        · exact ((pairwise_append.1 hS).2.2 x hx _ (by simp)).le
        · rw [mem_singleton.1 hx]
      exact lt_of_le_of_lt hxm (key_lt_cut.2 (le_refl m))
    · exact hST x hx y (by simp [hy])
  · rw [marks_append, marks_append, marks_sep, marks_sep]
    intro x hx
    rcases mem_append.1 hx with hx | hx
    · exact Covers.of_subset (subset_append_left _ _) x hx
    · rcases mem_cons.1 hx with rfl | hx
      · refine ⟨⟨key m, by simp [hM], (key_lt_cut.2 (le_refl m)).le⟩, cut s, by simp, hle⟩
      · exact Covers.of_subset (List.Subset.refl _) x (by simp [hx])
  · simpa using Relinks.refl _
  · simpa using List.Subperm.refl _

lemma merge_rebuilds {m : Node K V h} (hord : Ordered (a.spine ++ .sep s :: b.spine))
    (hmerge : a.merge unknown h b = some m) :
    Rebuilds [] (a.spine ++ .sep s :: b.spine) m.spine := by
  cases h with
  | zero =>
    simp only [merge, some.injEq] at hmerge
    subst hmerge
    exact merge_rebuilds hord
  | succ h =>
    simp only [merge, map_eq_some_iff] at hmerge
    obtain ⟨key, hkey, rfl⟩ := hmerge
    have hspine : spine (h + 1) (Inner.merge a b key) = a.spine ++ .sep key :: b.spine := by
      simp [spine, Separated.flatten, Inner.merge]
    rw [hspine]
    exact sep_rebuilds hord (getSubTreeMaxKey_unknown (h + 1) a hkey)

omit [LinearOrder K] in
lemma three_le_count {n : Node K V h} (hspare : Spares cap n) : 3 ≤ n.count := by
  have hleaf := cap.three_le_leafMax
  have hinner := cap.three_le_innerMax
  rw [Spares, getSurplus] at hspare
  cases h <;> simp only [maxEntries] at hspare <;> omega

variable (hord : Ordered (a.spine ++ .sep s :: b.spine))
include hord

lemma borrowFromRight_rebuilds (hspare : Spares cap b) (hborrow : a.borrowFromRight unknown h s b = some (a', s', b')) :
    Rebuilds [] (a.spine ++ .sep s :: b.spine) (a'.spine ++ .sep s' :: b'.spine) := by
  have hthree := three_le_count hspare
  cases h with
  | zero =>
    simp only [count] at hthree
    exact borrowFromRight_rebuilds hord (by omega) hborrow
  | succ h =>
    simp only [borrowFromRight, Inner.borrowFromRight] at hborrow
    rcases hrest : Separated.rest b with _ | ⟨⟨key, child⟩, rest⟩
    · simp [hrest] at hborrow
    simp only [hrest, some.injEq, Prod.mk.injEq] at hborrow
    obtain ⟨rfl, rfl, rfl⟩ := hborrow
    have hspine : spine (h + 1) (⟨Separated.first a, Separated.rest a ++ [(s, Separated.first b)]⟩ :
        Inner K (Node K V h)) ++
        .sep key :: spine (h + 1) (⟨child, rest⟩ : Inner K (Node K V h)) =
        a.spine ++ .sep s :: b.spine := by
      simp [spine, Separated.flatten, hrest]
    rw [hspine]
    exact Rebuilds.refl [] hord

lemma borrowFromLeft_rebuilds (hborrow : a.borrowFromLeft unknown h s b = some (a', s', b')) :
    Rebuilds [] (a.spine ++ .sep s :: b.spine) (a'.spine ++ .sep s' :: b'.spine) := by
  cases h with
  | zero => exact borrowFromLeft_rebuilds hord hborrow
  | succ h =>
    simp only [borrowFromLeft, Inner.borrowFromLeft] at hborrow
    cases hlast : (Separated.rest a).getLast? with
    | none => simp [hlast] at hborrow
    | some p =>
      simp only [hlast, some.injEq, Prod.mk.injEq] at hborrow
      obtain ⟨rfl, rfl, rfl⟩ := hborrow
      obtain ⟨rest, hrest⟩ := getLast?_eq_some_iff.1 hlast
      have hspine : spine (h + 1) (⟨Separated.first a, (Separated.rest a).dropLast⟩ :
          Inner K (Node K V h)) ++ .sep p.1 :: spine (h + 1)
            (⟨p.2, (s, Separated.first b) :: Separated.rest b⟩ : Inner K (Node K V h)) =
          a.spine ++ .sep s :: b.spine := by
        simp [spine, Separated.flatten, hrest]
      rw [hspine]
      exact Rebuilds.refl [] hord

end Node

section Neighbours

variable {left : List (Node K V h × K)} {right : List (K × Node K V h)} {a b a' b' m : Node K V h}
  {s s' : K}

omit [LinearOrder K] in
/-- Two neighbours with the separator between them, and what stands around them. -/
lemma Node.spine_pair :
    spine (h + 1) (close ⟨(a, s) :: left, b, right⟩) =
      beforeOf ⟨left, a, right⟩ ++ (a.spine ++ .sep s :: b.spine) ++
        behindOf ⟨left, a, right⟩ := by
  rw [spine_close]
  simp [beforeOf, behindOf, before, behind]

variable (hord : Ordered (spine (h + 1) (close ⟨(a, s) :: left, b, right⟩)))
include hord

lemma Rebuilds.neighbours (hreb : Ordered (a.spine ++ .sep s :: b.spine) →
      Rebuilds [] (a.spine ++ .sep s :: b.spine) (a'.spine ++ .sep s' :: b'.spine)) :
    Rebuilds [] (spine (h + 1) (close ⟨(a, s) :: left, b, right⟩))
      (spine (h + 1) (close ⟨(a', s') :: left, b', right⟩)) := by
  rw [spine_pair (a := a)] at hord ⊢
  rw [spine_pair (a := a')]
  exact (hreb hord.middle).context hord

lemma Rebuilds.merged (hmerge : a.merge unknown h b = some m) :
    Rebuilds [] (spine (h + 1) (close ⟨(a, s) :: left, b, right⟩))
      (spine (h + 1) (close ⟨left, m, right⟩)) := by
  rw [spine_close ⟨left, m, right⟩]
  rw [spine_pair] at hord ⊢
  exact (merge_rebuilds hord.middle hmerge).context hord

end Neighbours

/-- **`EraseMerge` rebuilds the spine.** -/
lemma EraseMerges.rebuilds {o : Opened K (Node K V h)} {m : Merged (Inner K (Node K V h))}
    (hm : EraseMerges cap unknown o m) (hord : Ordered (spine (h + 1) o.close)) :
    Rebuilds [] (spine (h + 1) o.close) (spine (h + 1) m.parent) := by
  cases hm with
  | borrowFromLeft hspare hborrow =>
    exact Rebuilds.neighbours hord fun hpair => borrowFromLeft_rebuilds hpair hborrow
  | borrowFromRight hspare hborrow =>
    exact Rebuilds.neighbours hord fun hpair => borrowFromRight_rebuilds hpair hspare hborrow
  | rightToLeft hroom hmerge => exact Rebuilds.merged hord hmerge
  | leftToRight hroom hmerge => exact Rebuilds.merged hord hmerge
  | noMerge hchoice => exact Rebuilds.refl [] hord

/-! ## The whole call -/

/-- The entry goes from the leaf where its key belongs, and the spine is rebuilt. -/
def Removes (k : K) (S S' : List (Item K V)) (success : Bool) : Prop :=
  ∃ A l B, S = A ++ [.leaf l] ++ B ∧ Around k A B ∧ success = (l.remove k).2 ∧
    Rebuilds [] (A ++ [.leaf (l.remove k).1] ++ B) S'

lemma Leaf.keys_remove {l : Leaf K V} (hsorted : l.keys.Pairwise (· < ·)) (k : K) :
    (l.remove k).1.keys.Pairwise (· < ·) ∧ ∀ x ∈ (l.remove k).1.keys, x = k ∨ x ∈ l.keys := by
  obtain ⟨below, here, above, hcut⟩ := exists_cutAt hsorted k
  have hsub : (l.remove k).1.keys.Sublist l.keys := by
    rw [hcut.remove_eq, keys, keys, hcut.entries_eq]
    exact (((sublist_append_left _ _).append_right _)).map _
  exact ⟨hsorted.sublist hsub, fun x hx => .inr (hsub.subset hx)⟩

lemma Leaf.remove_address (l : Leaf K V) (k : K) : (l.remove k).1.address = l.address := by
  rw [remove]
  split <;> rfl

lemma Leaf.remove_next (l : Leaf K V) (k : K) : (l.remove k).1.next = l.next := by
  rw [remove]
  split <;> rfl

namespace Removes

variable {k : K} {S S' S'' A B : List (Item K V)} {success : Bool}

lemma context (h : Removes k S S' success) (hord : Ordered (A ++ S ++ B)) (haround : Around k A B) :
    Removes k (A ++ S ++ B) (A ++ S' ++ B) success := by
  obtain ⟨A', l, B', rfl, haround', rfl, hreb⟩ := h
  have hboth := haround.append haround'
  refine ⟨A ++ A', l, B' ++ B, by simp, hboth, rfl, ?_⟩
  have hassoc : ∀ x : Leaf K V, A ++ A' ++ [Item.leaf x] ++ (B' ++ B) =
      A ++ (A' ++ [Item.leaf x] ++ B') ++ B := by
    simp
  rw [← hassoc] at hord
  obtain ⟨hsorted, hkeys⟩ := keys_remove hord.middle.keys k
  have hord' := hord.exchange hboth hsorted hkeys
  rw [hassoc] at hord' ⊢
  exact hreb.context hord'

lemma rebuilds (h : Removes k S S' success) (hreb : Rebuilds [] S' S'') :
    Removes k S S'' success := by
  obtain ⟨A, l, B, hS, haround, hsuccess, hreb'⟩ := h
  exact ⟨A, l, B, hS, haround, hsuccess, hreb'.trans hreb⟩

lemma ordered (h : Removes k S S' success) : Ordered S' := by
  obtain ⟨_, _, _, _, _, _, hreb⟩ := h
  exact hreb.ordered

lemma mem_entries (h : Removes k S S' success) (hord : Ordered S) {w : V}
    (hpresent : (k, w) ∈ entries S) :
    success = true ∧ ∀ e, e ∈ entries S' ↔ e ∈ entries S ∧ e.1 ≠ k := by
  obtain ⟨A, l, B, rfl, haround, rfl, hreb⟩ := h
  obtain ⟨below, here, above, hcut⟩ := exists_cutAt hord.middle.keys k
  rw [hreb.entries_eq]
  rw [haround.mem_entries_iff] at hpresent
  have hentries := hcut.entries_eq
  have hother : ∀ e, e ∈ entries A ++ below ++ above ++ entries B → e.1 ≠ k := by
    rintro e he rfl
    simp only [mem_append] at he
    rcases he with ((he | he) | he) | he
    · exact lt_irrefl _ (haround.before _ (key_mem_marks_iff.2 (mem_map_of_mem he)))
    · exact lt_irrefl _ (hcut.below_lt e he)
    · exact lt_irrefl _ (hcut.lt_above e he)
    · exact lt_irrefl _ (haround.behind _ (key_mem_marks_iff.2 (mem_map_of_mem he)))
  have hhere : ∃ w', here = some w' := by
    have hlookup : l.lookup k = some w :=
      (lookup_eq_some_iff hord.middle.keys w).2 (by simpa using hpresent)
    rw [hcut.lookup_eq] at hlookup
    exact ⟨w, hlookup⟩
  obtain ⟨w', rfl⟩ := hhere
  rw [hcut.remove_eq]
  refine ⟨rfl, fun e => ?_⟩
  have hmem := hother e
  simp only [entries_append, entries_leaf, entries_nil, append_nil, mem_append,
    hentries, map_some, toList_some, mem_singleton] at hmem ⊢
  constructor
  · intro he
    exact ⟨by tauto, hmem (by tauto)⟩
  · rintro ⟨he, hne⟩
    have hek : e ≠ (k, w') := fun heq => hne (by rw [heq])
    tauto

lemma relinks (h : Removes k S S' success) :
    Relinks address next (leaves S) (leaves S') := by
  obtain ⟨A, l, B, rfl, -, -, hreb⟩ := h
  exact (relinks_exchange (remove_address l k) (remove_next l k)).trans hreb.relinks

lemma addresses (h : Removes k S S' success) :
    ((leaves S').map address).Subperm ((leaves S).map address) := by
  obtain ⟨A, l, B, rfl, -, -, hreb⟩ := h
  have haddr := hreb.addresses
  simp only [leaves_append, leaves_leaf, leaves_nil, map_append, map_cons,
    remove_address, nil_append] at haddr ⊢
  exact haddr

end Removes

/-- **`_remove` takes the entry from where its key belongs.** -/
lemma Node.remove_removes {k : K} : (h : ℕ) → (n : Node K V h) → Ordered n.spine →
    {r : Removed (Node K V h)} → n.remove cap unknown k = some r →
    Removes k n.spine r.node.spine r.success
  | 0, l, hord, r, hr => by
    simp only [remove, some.injEq] at hr
    subst hr
    obtain ⟨hsorted, hkeys⟩ := keys_remove hord.keys k
    refine ⟨[], l, [], rfl, ⟨by simp, by simp⟩, rfl, Rebuilds.refl [] ?_⟩
    exact Ordered.exchange (A := []) (B := []) hord ⟨by simp, by simp⟩ hsorted hkeys
  | h + 1, n, hord, r, hr => by
    have hspine := spine_openFor k n
    have haround := around_openFor hord k
    rw [hspine] at hord
    simp only [remove] at hr
    rcases hc : remove cap unknown k h (openFor k n).part with _ | c
    · simp [hc] at hr
    simp only [hc] at hr
    have hchild := (remove_removes h (openFor k n).part hord.middle hc).context hord haround
    have hclose := spine_close { openFor k n with part := c.node }
    rw [← hspine] at hchild
    have hparent : Removes k n.spine (spine (h + 1) (close
        { openFor k n with part := c.node })) c.success := by
      rw [hclose]
      exact hchild
    cases hunder : c.underfull with
    | true =>
      simp only [hunder, if_true, map_eq_some_iff] at hr
      obtain ⟨m, hm, rfl⟩ := hr
      exact hparent.rebuilds ((eraseMerge_eraseMerges hm).rebuilds hparent.ordered)
    | false =>
      simp only [hunder, Bool.false_eq_true, if_false, some.injEq] at hr
      subst hr
      exact hparent

omit [LinearOrder K] in
lemma EraseMerges.changeRoot {o : Opened K (Node K V h)} {m : Merged (Inner K (Node K V h))}
    (hm : EraseMerges cap before o m) (hroot : m.changeRoot) : Inner.count m.parent = 0 := by
  cases hm with
  | rightToLeft => simpa [mergedInto] using hroot
  | leftToRight => simpa [mergedInto] using hroot
  | borrowFromLeft => cases hroot
  | borrowFromRight => cases hroot
  | noMerge => cases hroot

/-- The root only changes when a merge has left it without keys. -/
lemma Node.changeRoot_of_remove {k : K} : (h : ℕ) → (n : Node K V h) →
    {r : Removed (Node K V h)} → n.remove cap before k = some r → r.changeRoot → 0 < h →
    r.node.count = 0
  | 0, _, _, _, _, hpos => absurd hpos (lt_irrefl 0)
  | h + 1, n, r, hr, hroot, _ => by
    simp only [remove] at hr
    split at hr
    · cases hr
    split at hr
    · obtain ⟨m, hm, rfl⟩ := map_eq_some_iff.1 hr
      exact (eraseMerge_eraseMerges hm).changeRoot hroot
    · cases hr
      cases hroot

namespace Tree

variable {t t' : Tree K V} {k : K} {success : Bool}

omit [LinearOrder K] in
lemma allocated_ofRemoved (allocated : ℕ) : (h : ℕ) → (r : Node.Removed (Node K V h)) →
    (ofRemoved allocated h r).allocated = allocated
  | 0, _ => rfl
  | h + 1, r => by
    rw [ofRemoved]
    split <;> rfl

omit [LinearOrder K] in
/-- A root that gives way to its only child leaves the spine as it is. -/
lemma spine_ofRemoved (allocated : ℕ) : (h : ℕ) → (r : Node.Removed (Node K V h)) →
    (r.changeRoot → 0 < h → r.node.count = 0) → (ofRemoved allocated h r).spine = r.node.spine
  | 0, _, _ => rfl
  | h + 1, r, hzero => by
    rw [ofRemoved]
    cases hroot : r.changeRoot with
    | false => rfl
    | true =>
      have hcount := hzero hroot (Nat.succ_pos h)
      simp only [Node.count, Inner.count, length_eq_zero_iff] at hcount
      simp only [if_true]
      simp [spine, Node.spine, Separated.flatten, hcount]

/-- **`remove` takes the entry from where its key belongs.** -/
lemma remove_removes (hord : Ordered t.spine) (hr : t.remove cap unknown k = some (t', success)) :
    t'.allocated = t.allocated ∧ Removes k t.spine t'.spine success := by
  obtain ⟨r, hr', heq⟩ := map_eq_some_iff.1 hr
  obtain ⟨rfl, rfl⟩ := Prod.mk.inj heq
  refine ⟨allocated_ofRemoved t.allocated t.height r, ?_⟩
  rw [spine_ofRemoved t.allocated t.height r (changeRoot_of_remove t.height t.root hr')]
  exact remove_removes t.height t.root hord hr'

end Tree

end Rebuild

end TwoTree.BTreeOlc
