import TwoTree.BTreeOlc.Spine

/-!
# Insert into an optimistic B+-tree

A descent that meets a full inner node splits it and starts again: the spine stays as it is, and the
full nodes on the path become fewer, or the first of them comes to lie higher up (`Pass.lt_path`), so
that some descent reaches a leaf (`Tree.exists_insert`).  That descent puts the entry into the leaf
where its key belongs, after splitting the leaf if it is full (`Node.insertPass_inserts`).
-/

namespace TwoTree.BTreeOlc

open Lib List Separated Inner Opened Leaf Node Mark

variable {K V : Type} [LinearOrder K] {k : K} {v : V} {fresh : ℕ}

/-! ## Splitting a leaf -/

namespace Leaf

variable {l : Leaf K V}

omit [LinearOrder K] in
lemma split_parted (l : Leaf K V) (fresh : ℕ) (h : 2 ≤ l.count) :
    Parted (l.split fresh h).left (l.split fresh h).sep (l.split fresh h).right := by
  rw [count] at h
  have hpos : l.entries.length / 2 - 1 < l.entries.length := by omega
  refine ⟨⟨l.entries.take (l.entries.length / 2 - 1), l.entries[l.entries.length / 2 - 1], ?_, rfl⟩,
    ?_⟩
  · rw [← take_succ_eq_append_getElem hpos]
    simp only [split, count]
    congr 1
    omega
  · simp only [split, count, ne_eq, drop_eq_nil_iff]
    omega

/-- **Splitting a leaf rebuilds the spine.** -/
lemma split_rebuilds (fresh : ℕ) (hord : Ordered [.leaf l]) (h : 2 ≤ l.count) :
    Rebuilds [fresh] [.leaf l] [.leaf (l.split fresh h).left, .sep (l.split fresh h).sep,
      .leaf (l.split fresh h).right] := by
  refine (split_parted l fresh h).rebuilds hord ?_ ?_ ?_
  · simp [split]
  · exact ⟨rfl, rfl, fun _ => by simp [Linked, split]⟩
  · exact (List.Perm.swap _ _ _).subperm

end Leaf

/-! ## What a descent that reaches a leaf does -/

/-- The entry goes into the leaf where its key belongs, on a spine that may have been rebuilt. -/
def Inserts (fresh : ℕ) (k : K) (v : V) (S S' : List (Item K V)) (success : Bool) : Prop :=
  ∃ A l B, Rebuilds [fresh] S (A ++ [.leaf l] ++ B) ∧ Around k A B ∧
    S' = A ++ [.leaf (l.insert k v).1] ++ B ∧ success = (l.insert k v).2

lemma Leaf.keys_insert {l : Leaf K V} (hsorted : l.keys.Pairwise (· < ·)) (k : K) (v : V) :
    (l.insert k v).1.keys.Pairwise (· < ·) ∧ ∀ x ∈ (l.insert k v).1.keys, x = k ∨ x ∈ l.keys := by
  obtain ⟨below, here, above, hcut⟩ := exists_cutAt hsorted k
  have hentries := hcut.entries_eq
  rw [hcut.insert_eq]
  rw [keys, hentries] at hsorted
  simp only [keys, hentries, map_append, map_cons] at hsorted ⊢
  obtain ⟨hbelow, habove, hlt⟩ := pairwise_append.1 hsorted
  constructor
  · refine pairwise_append.2 ⟨(pairwise_append.1 hbelow).1,
      pairwise_cons.2 ⟨?_, habove⟩, ?_⟩
    · intro x hx
      obtain ⟨e, he, rfl⟩ := mem_map.1 hx
      exact hcut.lt_above e he
    intro x hx y hy
    obtain ⟨e, he, rfl⟩ := mem_map.1 hx
    rcases mem_cons.1 hy with rfl | hy
    · exact hcut.below_lt e he
    · exact hlt e.1 (by simp [mem_map_of_mem he]) y hy
  · intro x hx
    simp only [mem_append, mem_cons] at hx ⊢
    tauto

lemma Leaf.insert_address (l : Leaf K V) (k : K) (v : V) :
    (l.insert k v).1.address = l.address := by
  rw [insert]
  split <;> rfl

lemma Leaf.insert_next (l : Leaf K V) (k : K) (v : V) : (l.insert k v).1.next = l.next := by
  rw [insert]
  split <;> rfl

namespace Inserts

variable {S S' A B : List (Item K V)} {success : Bool}

variable (h : Inserts fresh k v S S' success)
include h

lemma context (hord : Ordered (A ++ S ++ B))
    (haround : Around k A B) : Inserts fresh k v (A ++ S ++ B) (A ++ S' ++ B) success := by
  obtain ⟨A', l, B', hreb, haround', rfl, rfl⟩ := h
  refine ⟨A ++ A', l, B' ++ B, ?_, haround.append haround', by simp, rfl⟩
  simpa using hreb.context hord

lemma ordered : Ordered S' := by
  obtain ⟨A, l, B, hreb, haround, rfl, rfl⟩ := h
  obtain ⟨hsorted, hkeys⟩ := keys_insert hreb.ordered.middle.keys k v
  exact hreb.ordered.exchange haround hsorted hkeys

lemma mem_entries (habsent : ∀ w, (k, w) ∉ entries S) :
    success = true ∧ ∀ e, e ∈ entries S' ↔ e = (k, v) ∨ e ∈ entries S := by
  obtain ⟨A, l, B, hreb, haround, rfl, rfl⟩ := h
  obtain ⟨below, here, above, hcut⟩ := exists_cutAt hreb.ordered.middle.keys k
  have hentries := hcut.entries_eq
  rw [← hreb.entries_eq] at habsent ⊢
  cases here with
  | some w =>
    refine absurd ?_ (habsent w)
    rw [haround.mem_entries_iff]
    simp [hentries]
  | none =>
    rw [hcut.insert_eq]
    refine ⟨rfl, fun e => ?_⟩
    simp only [Option.map_none, Option.toList_none, append_nil] at hentries
    simp only [entries_append, entries_leaf, entries_nil, append_nil, mem_append,
      mem_cons, Option.getD_none, hentries]
    tauto

lemma relinks : Relinks address next (leaves S) (leaves S') := by
  obtain ⟨A, l, B, hreb, -, rfl, -⟩ := h
  exact hreb.relinks.trans (relinks_exchange (insert_address l k v) (insert_next l k v))

lemma addresses :
    ((leaves S').map address).Subperm (fresh :: (leaves S).map address) := by
  obtain ⟨A, l, B, hreb, -, rfl, -⟩ := h
  have haddr := hreb.addresses
  simp only [leaves_append, leaves_leaf, leaves_nil, map_append, map_cons,
    insert_address] at haddr ⊢
  exact haddr

end Inserts

/-! ## The descent -/

/-- The spine of what a descent leaves of a node. -/
def Node.Pass.spine {h : ℕ} (p : Node.Pass K (Node K V h)) : List (Item K V) :=
  match p.promoted with
  | none => p.node.spine
  | some s => p.node.spine ++ .sep s.1 :: s.2.spine

/-- A key that belongs behind the opened child is put there by `BTreeInner::insert`. -/
lemma Inner.insert_close {α : Type} {o : Opened K α} {s : K} {child : α}
    (hsorted : o.close.seps.Pairwise (· < ·)) (hleft : ∀ p ∈ o.left, p.2 < s)
    (hright : ∀ p ∈ o.right.head?, s ≤ p.1) :
    insert o.close s child = close { o with right := (s, child) :: o.right } := by
  rw [insert, lowerBound_close hsorted hleft hright, close,
    insertIdx_closeFrom, close]

namespace Node

variable {h : ℕ} {o : Opened K (Node K V h)}

omit [LinearOrder K] in
lemma cut_mem_before {p : Node K V h × K} (hp : p ∈ o.left) :
    cut p.2 ∈ marks (beforeOf o) := by
  rw [marks, mem_flatMap]
  refine ⟨.sep p.2, ?_, by simp [Item.marks]⟩
  rw [beforeOf, before, mem_flatMap]
  exact ⟨p, by simpa using hp, by simp⟩

omit [LinearOrder K] in
lemma cut_mem_behind {p : K × Node K V h} (hp : p ∈ o.right) :
    cut p.1 ∈ marks (behindOf o) := by
  rw [marks, mem_flatMap]
  refine ⟨.sep p.1, ?_, by simp [Item.marks]⟩
  rw [behindOf, behind, mem_flatMap]
  exact ⟨p, hp, by simp⟩

/-- The new sibling of a child that has been split comes to stand behind it: the separator that comes
up belongs between its neighbours in the parent. -/
lemma Pass.into_eq {p : Pass K (Node K V h)} {s : K}
    {child : Node K V h} (hord : Ordered (beforeOf o ++ p.spine ++ behindOf o))
    (hprom : p.promoted = some (s, child)) :
    p.into o = close { o with part := p.node, right := (s, child) :: o.right } := by
  simp only [Pass.into, Pass.spine, hprom] at hord ⊢
  have hmarks := hord
  rw [Ordered] at hmarks
  simp only [marks_append, marks_sep] at hmarks
  obtain ⟨-, -, -, hAM, hMB, -⟩ := pairwise_append₃.1 hmarks
  have hleft : ∀ q ∈ o.left, q.2 < s := by
    intro q hq
    have hlt := hAM _ (cut_mem_before hq) (cut s) (by simp)
    simpa using hlt
  have hright : ∀ q ∈ o.right.head?, s ≤ q.1 := by
    intro q hq
    have hlt := hMB (cut s) (by simp) _ (cut_mem_behind (mem_of_mem_head? hq))
    exact (cut_lt_cut.1 hlt).le
  have hspine : Node.spine (h + 1)
      (close { o with part := p.node, right := (s, child) :: o.right }) =
      beforeOf o ++ (p.node.spine ++ Item.sep s :: child.spine) ++ behindOf o := by
    rw [spine_close]
    simp [beforeOf, behindOf, before, behind]
  have hsorted : (close { o with part := p.node }).seps.Pairwise (· < ·) := by
    have hall : (close
        { o with part := p.node, right := (s, child) :: o.right }).seps.Pairwise (· < ·) :=
      Ordered.seps (by rw [hspine]; exact hord)
    rw [close, seps_closeFrom] at hall ⊢
    exact hall.sublist ((sublist_cons_self _ _).append_left _)
  exact insert_close hsorted hleft hright

/-- What a descent through a child leaves stands in the place of the child. -/
lemma Pass.spine_into {p : Pass K (Node K V h)}
    (hord : Ordered (beforeOf o ++ p.spine ++ behindOf o)) :
    Node.spine (h + 1) (p.into o) = beforeOf o ++ p.spine ++ behindOf o := by
  rcases hprom : p.promoted with _ | ⟨s, child⟩
  · simp only [Pass.into, Pass.spine, hprom]
    exact spine_close { o with part := p.node }
  · rw [Pass.into_eq hord hprom, spine_close, Pass.spine, hprom]
    simp [beforeOf, behindOf, before, behind]

omit [LinearOrder K] in
lemma rest_split {n : Node K V (h + 1)} (htwo : 2 ≤ Inner.count n) :
    rest n = (split n htwo).left.rest ++
      ((split n htwo).sep, (split n htwo).right.first) ::
        (split n htwo).right.rest := by
  rw [Inner.count] at htwo
  have hpos : (rest n).length / 2 - 1 < (rest n).length := by omega
  have hsucc : (rest n).length / 2 - 1 + 1 = (rest n).length / 2 := by omega
  conv_lhs => rw [← take_append_drop ((rest n).length / 2 - 1) (rest n)]
  rw [drop_eq_getElem_cons hpos, hsucc]
  rfl

omit [LinearOrder K] in
lemma parts_split {n : Node K V (h + 1)} (htwo : 2 ≤ Inner.count n) : parts n =
    (split n htwo).left.parts ++ (split n htwo).right.parts := by
  have hfirst : (split n htwo).left.first = first n := rfl
  simp [parts, rest_split htwo, hfirst]

omit [LinearOrder K] in
lemma count_split {n : Node K V (h + 1)} (htwo : 2 ≤ Inner.count n) :
    Inner.count (Inner.split n htwo).left = Inner.count n / 2 - 1 ∧
      Inner.count (Inner.split n htwo).right = Inner.count n - Inner.count n / 2 := by
  simp only [Inner.split, Inner.count, length_take, length_drop, and_true]
  omega

omit [LinearOrder K] in
lemma spine_split (n : Node K V (h + 1)) (htwo : 2 ≤ Inner.count n) :
    spine (h + 1) (split n htwo).left ++
      .sep (split n htwo).sep :: spine (h + 1) (split n htwo).right = n.spine := by
  have hfirst : (split n htwo).left.first = Separated.first n := rfl
  conv_rhs => rw [spine, Separated.flatten, rest_split htwo]
  simp [spine, Separated.flatten, hfirst]

/-- **One descent of `insert`:** either it leaves the spine as it is and starts again, or the entry is
where it belongs. -/
lemma insertPass_spec (cap : Capacity) (fresh : ℕ) (k : K) (v : V) :
    (h : ℕ) → (n : Node K V h) → Ordered n.spine →
    match (n.insertPass cap fresh k v).result with
    | none => (n.insertPass cap fresh k v).spine = n.spine
    | some success => Inserts fresh k v n.spine (n.insertPass cap fresh k v).spine success
  | 0, l, hord => by
    by_cases hfull : Leaf.count l = cap.leafMax
    · have htwo : 2 ≤ Leaf.count l := by
        have := cap.three_le_leafMax
        omega
      have hreb := split_rebuilds fresh hord htwo
      have hmarks := hreb.ordered
      rw [Ordered] at hmarks
      simp only [marks_leaf, marks_sep, marks_nil] at hmarks
      obtain ⟨-, hright, hleft⟩ := pairwise_append.1 hmarks
      by_cases hsep : (split l fresh htwo).sep < k
      · have hcut := cut_lt_key.2 hsep
        simp only [insertPass, dif_pos hfull, if_pos hsep, Pass.spine]
        refine ⟨[.leaf (split l fresh htwo).left, .sep (split l fresh htwo).sep], _, [],
          hreb, ⟨?_, by simp⟩, rfl, rfl⟩
        intro x hx
        simp only [marks_leaf, marks_sep, marks_nil, mem_append, mem_singleton] at hx
        rcases hx with hx | rfl
        · exact (hleft x hx _ (by simp)).trans hcut
        · exact hcut
      · have hcut := key_lt_cut.2 (not_lt.1 hsep)
        simp only [insertPass, dif_pos hfull, if_neg hsep, Pass.spine]
        refine ⟨[], _, [.sep (split l fresh htwo).sep, .leaf (split l fresh htwo).right],
          hreb, ⟨by simp, ?_⟩, rfl, rfl⟩
        intro x hx
        simp only [marks_leaf, marks_sep, marks_nil, mem_cons] at hx
        rcases hx with rfl | hx
        · exact hcut
        · exact hcut.trans ((pairwise_cons.1 hright).1 x hx)
    · simp only [insertPass, dif_neg hfull, Pass.spine]
      exact ⟨[], l, [], Rebuilds.refl _ hord, ⟨by simp, by simp⟩, rfl, rfl⟩
  | h + 1, n, hord => by
    by_cases hfull : Inner.count n = cap.innerMax - 1
    · simp only [insertPass, dif_pos hfull, Pass.spine]
      exact spine_split n _
    have hspine := spine_openFor k n
    have haround := around_openFor hord k
    rw [hspine] at hord
    have ih := insertPass_spec cap fresh k v h (openFor k n).part hord.middle
    simp only [insertPass, dif_neg hfull, Pass.spine]
    rcases hres : ((openFor k n).part.insertPass cap fresh k v).result with _ | success
    · simp only [hres] at ih
      simp only
      rw [Pass.spine_into (by rw [ih]; exact hord), ih, ← hspine]
    simp only [hres] at ih
    simp only
    have hins := ih.context hord haround
    rw [Pass.spine_into hins.ordered, hspine]
    exact hins

end Node

/-! ## Every insert comes to an end -/

namespace Node

variable {h : ℕ}

/-- How many inner nodes on the path of a key are full. -/
def fullOnPath (cap : Capacity) (k : K) : (h : ℕ) → Node K V h → ℕ
  | 0, _ => 0
  | h + 1, n =>
    (if Inner.count n = cap.innerMax - 1 then 1 else 0) + fullOnPath cap k h (openFor k n).part

/-- How far below the node the first full inner node on the path of a key is. -/
def firstFull (cap : Capacity) (k : K) : (h : ℕ) → Node K V h → ℕ
  | 0, _ => 0
  | h + 1, n =>
    if Inner.count n = cap.innerMax - 1 then 0 else firstFull cap k h (openFor k n).part + 1

/-- What gets smaller with every restart. -/
def path (cap : Capacity) (k : K) {h : ℕ} (n : Node K V h) : ℕ ×ₗ ℕ :=
  toLex (n.fullOnPath cap k, n.firstFull cap k)

lemma getElem?_openFor {n : Node K V (h + 1)} (hsorted : (seps n).Pairwise (· < ·)) :
    (parts n)[lowerBound (seps n) k]? = some (openFor k n).part := by
  refine getElem?_parts ?_
  have hle : ((seps n).findIdx fun s => k ≤ s) ≤ (seps n).length :=
    findIdx_le_length
  rw [lowerBound_eq hsorted]
  simpa [seps] using hle

/-- Below a node that is split the path of a key stays as it is. -/
lemma openFor_split {n : Node K V (h + 1)} (hsorted : (seps n).Pairwise (· < ·))
    (htwo : 2 ≤ Inner.count n) :
    (openFor k (if k ≤ (split n htwo).sep then (split n htwo).left
      else (split n htwo).right)).part = (openFor k n).part := by
  have hseps : seps n = (split n htwo).left.seps ++
      (split n htwo).sep :: (split n htwo).right.seps := by
    simp [seps, rest_split htwo]
  have hparts := parts_split htwo
  generalize split n htwo = s at hseps hparts ⊢
  have hlen : s.left.parts.length = s.left.seps.length + 1 := by
    simp [parts, seps]
  have hall := hsorted
  rw [hseps] at hall
  obtain ⟨hleft, hcons, hlt⟩ := pairwise_append.1 hall
  obtain ⟨-, hright⟩ := pairwise_cons.1 hcons
  have hpart := getElem?_openFor (k := k) hsorted
  have hle : (s.left.seps.findIdx fun t => k ≤ t) ≤ s.left.seps.length := findIdx_le_length
  rw [lowerBound_eq hsorted, hseps, hparts, findIdx_append] at hpart
  by_cases hk : k ≤ s.sep
  · have hpart' := getElem?_openFor (k := k) (n := s.left) hleft
    rw [lowerBound_eq hleft] at hpart'
    have hidx : (if (s.left.seps.findIdx fun t => decide (k ≤ t)) < s.left.seps.length then
        s.left.seps.findIdx fun t => decide (k ≤ t)
        else ((s.sep :: s.right.seps).findIdx fun t => decide (k ≤ t)) + s.left.seps.length) =
        s.left.seps.findIdx fun t => decide (k ≤ t) := by
      split
      · rfl
      · simp only [findIdx_cons, hk, decide_true, cond_true]
        omega
    rw [hidx, getElem?_append_left (by omega), hpart'] at hpart
    rw [if_pos hk]
    exact Option.some.inj hpart
  · have hpart' := getElem?_openFor (k := k) (n := s.right) hright
    rw [lowerBound_eq hright] at hpart'
    have hnone : (s.left.seps.findIdx fun t => decide (k ≤ t)) = s.left.seps.length := by
      rw [findIdx_eq_length]
      intro t ht
      have := (hlt t ht s.sep (by simp)).trans (not_le.1 hk)
      simpa using this
    have hsucc : ((s.sep :: s.right.seps).findIdx fun t => decide (k ≤ t)) =
        (s.right.seps.findIdx fun t => decide (k ≤ t)) + 1 := by
      simp [findIdx_cons, hk]
    have hidx : (s.right.seps.findIdx fun t => decide (k ≤ t)) + 1 + s.left.seps.length -
        s.left.parts.length = s.right.seps.findIdx fun t => decide (k ≤ t) := by
      omega
    rw [hnone, if_neg (lt_irrefl _), hsucc, getElem?_append_right (by omega), hidx,
      hpart'] at hpart
    rw [if_neg hk]
    exact Option.some.inj hpart

end Node

namespace Node

variable {h : ℕ} {cap : Capacity}

lemma path_lt_path {h' : ℕ} {n : Node K V h} {n' : Node K V h'} :
    n.path cap k < n'.path cap k ↔ n.fullOnPath cap k < n'.fullOnPath cap k ∨
      n.fullOnPath cap k = n'.fullOnPath cap k ∧ n.firstFull cap k < n'.firstFull cap k := by
  simp [path, Prod.Lex.lt_iff]

/-- A full node that is split: one full node less on the path. -/
lemma fullOnPath_split {n : Node K V (h + 1)} (hsorted : (seps n).Pairwise (· < ·))
    (hfull : Inner.count n = cap.innerMax - 1) (htwo : 2 ≤ Inner.count n) :
    n.fullOnPath cap k = fullOnPath cap k (h + 1) (if k ≤ (split n htwo).sep
      then (Inner.split n htwo).left else (Inner.split n htwo).right) + 1 := by
  have hnot : Inner.count (if k ≤ (Inner.split n htwo).sep then (Inner.split n htwo).left
      else (split n htwo).right) ≠ cap.innerMax - 1 := by
    have hcount := count_split htwo
    split <;> omega
  rw [fullOnPath, fullOnPath, if_pos hfull, if_neg hnot, openFor_split hsorted htwo]
  omega

/-- The child of the parent that the path goes through after the descent. -/
lemma openFor_into {n : Node K V (h + 1)} {p : Pass K (Node K V h)}
    (hsorted : (seps n).Pairwise (· < ·))
    (hord : Ordered (beforeOf (openFor k n) ++ p.spine ++ behindOf (openFor k n))) :
    (openFor k (p.into (openFor k n))).part =
      match p.promoted with
      | none => p.node
      | some s => if k ≤ s.1 then p.node else s.2 := by
  have hleft := openFor_left hsorted k
  have hright := openFor_right hsorted k
  have hspine := Pass.spine_into hord
  rcases hprom : p.promoted with _ | ⟨s, child⟩
  · have hinto : p.into (openFor k n) = close { openFor k n with part := p.node } := by
      simp [Pass.into, hprom]
    have hseps : (p.into (openFor k n)).seps.Pairwise (· < ·) :=
      Ordered.seps (by rw [hspine]; exact hord)
    rw [hinto] at hseps ⊢
    rw [openFor_close hseps hleft hright]
  · have hseps : (p.into (openFor k n)).seps.Pairwise (· < ·) :=
      Ordered.seps (by rw [hspine]; exact hord)
    rw [Pass.into_eq hord hprom] at hseps ⊢
    by_cases hk : k ≤ s
    · rw [openFor_close hseps hleft (by simpa using hk)]
      simp [hk]
    -- the same node, opened one child further to the right
    have hclose : close { openFor k n with
        part := p.node, right := (s, child) :: (openFor k n).right } =
        close ⟨(p.node, s) :: (openFor k n).left, child, (openFor k n).right⟩ := rfl
    rw [hclose] at hseps ⊢
    rw [openFor_close hseps (by simpa [not_le.1 hk] using hleft) hright]
    simp [hk]

/-- **A descent that starts again has made the path smaller.** -/
lemma insertPass_restart : (h : ℕ) → (n : Node K V h) → Ordered n.spine →
    (n.insertPass cap fresh k v).result = none →
    match (n.insertPass cap fresh k v).promoted with
    | none => (n.insertPass cap fresh k v).node.path cap k < n.path cap k
    | some s => n.firstFull cap k = 0 ∧ n.fullOnPath cap k =
        (if k ≤ s.1 then (n.insertPass cap fresh k v).node else s.2).fullOnPath cap k + 1
  | 0, l, _, hres => by
    by_cases hfull : Leaf.count l = cap.leafMax
    · simp only [insertPass, dif_pos hfull] at hres
      split at hres <;> cases hres
    · simp [insertPass, hfull] at hres
  | h + 1, n, hord, hres => by
    by_cases hfull : Inner.count n = cap.innerMax - 1
    · simp only [insertPass, dif_pos hfull]
      exact ⟨by rw [firstFull, if_pos hfull], fullOnPath_split hord.seps hfull _⟩
    have hmid := hord
    rw [spine_openFor k n] at hmid
    simp only [insertPass, dif_neg hfull] at hres ⊢
    have ih := insertPass_restart h (openFor k n).part hmid.middle hres
    have hspec := insertPass_spec cap fresh k v h (openFor k n).part hmid.middle
    simp only [hres] at hspec
    have hinto := openFor_into (p := insertPass cap fresh k v h (openFor k n).part) hord.seps
      (by rw [hspec]; exact hmid)
    have hn : n.fullOnPath cap k = (openFor k n).part.fullOnPath cap k := by
      rw [fullOnPath, if_neg hfull, Nat.zero_add]
    have hn' : n.firstFull cap k = (openFor k n).part.firstFull cap k + 1 := by
      rw [firstFull, if_neg hfull]
    rw [path_lt_path, hn, hn', fullOnPath, firstFull, hinto]
    rcases hprom : (insertPass cap fresh k v h (openFor k n).part).promoted with _ | s
    · simp only [hprom] at ih ⊢
      have hcount : Inner.count
          ((insertPass cap fresh k v h (openFor k n).part).into (openFor k n)) ≠
          cap.innerMax - 1 := by
        have hsame : Inner.count n = Inner.count (openFor k n).close := by
          rw [openFor, close_openAt]
        rw [hsame] at hfull
        simpa [Pass.into, hprom, Inner.count, close] using hfull
      rw [if_neg hcount, if_neg hcount]
      have hlt := path_lt_path.1 ih
      omega
    · simp only [hprom] at ih ⊢
      obtain ⟨hzero, hone⟩ := ih
      rw [hzero, hone]
      split
      · exact .inr ⟨Nat.add_comm _ _, Nat.one_pos⟩
      · exact .inl (by omega)

end Node

namespace Tree

variable {cap : Capacity} {t t' : Tree K V} {success : Bool}

/-- The tree written out from left to right. -/
abbrev spine (t : Tree K V) : List (Item K V) := t.root.spine

lemma insertPass_of_none (h : (t.root.insertPass cap t.allocated k v).promoted = none) :
    t.insertPass cap k v = (⟨t.height, (t.root.insertPass cap t.allocated k v).node,
      t.allocated + 1⟩, (t.root.insertPass cap t.allocated k v).result) := by
  simp [insertPass, h]

lemma insertPass_of_some {s : K × Node K V t.height}
    (h : (t.root.insertPass cap t.allocated k v).promoted = some s) :
    t.insertPass cap k v = (⟨t.height + 1, (⟨(t.root.insertPass cap t.allocated k v).node, [s]⟩ :
      Inner K (Node K V t.height)), t.allocated + 1⟩,
      (t.root.insertPass cap t.allocated k v).result) := by
  simp [insertPass, h]

lemma insertPass_spec (cap : Capacity) (k : K) (v : V) (hord : Ordered t.spine) :
    match (t.insertPass cap k v).2 with
    | none => (t.insertPass cap k v).1.spine = t.spine
    | some success => Inserts t.allocated k v t.spine (t.insertPass cap k v).1.spine success := by
  have hspec := Node.insertPass_spec cap t.allocated k v t.height t.root hord
  have hspine : (t.insertPass cap k v).1.spine =
      (t.root.insertPass cap t.allocated k v).spine := by
    rcases hprom : (t.root.insertPass cap t.allocated k v).promoted with _ | s
    · simp [insertPass, Node.Pass.spine, hprom]
    · simp [insertPass, Node.Pass.spine, hprom, Node.spine, Separated.flatten]
  have hres : (t.insertPass cap k v).2 = (t.root.insertPass cap t.allocated k v).result := by
    rw [insertPass]
    split <;> rfl
  rw [hspine, hres]
  exact hspec

lemma allocated_insertPass (cap : Capacity) (t : Tree K V) (k : K) (v : V) :
    (t.insertPass cap k v).1.allocated = t.allocated + 1 := by
  rw [insertPass]
  split <;> rfl

/-- A descent that starts again at the root has made the path smaller. -/
lemma path_insertPass_lt (hord : Ordered t.spine) (hres : (t.insertPass cap k v).2 = none) :
    (t.insertPass cap k v).1.root.path cap k < t.root.path cap k := by
  have hnone : (t.root.insertPass cap t.allocated k v).result = none := by
    rw [← hres, insertPass]
    split <;> rfl
  have hrestart := insertPass_restart t.height t.root hord hnone
  rcases hprom : (t.root.insertPass cap t.allocated k v).promoted with _ | s
  · simp only [hprom] at hrestart
    rw [insertPass_of_none hprom]
    exact hrestart
  simp only [hprom] at hrestart
  rw [insertPass_of_some hprom]
  -- the new root has one key and is not full
  have hcap := cap.three_le_innerMax
  have hcount : count (⟨(t.root.insertPass cap t.allocated k v).node, [s]⟩ :
      Inner K (Node K V t.height)) ≠ cap.innerMax - 1 := by
    simp only [Inner.count, length_singleton]
    omega
  have hpart : (openFor k (⟨(t.root.insertPass cap t.allocated k v).node, [s]⟩ :
      Inner K (Node K V t.height))).part =
      if k ≤ s.1 then (t.root.insertPass cap t.allocated k v).node else s.2 := by
    by_cases hk : k ≤ s.1
    · simp [openFor, openAt, seps, lowerBound, findIdx_cons,
        openFrom, hk]
    · simp [openFor, openAt, seps, lowerBound, findIdx_cons,
        openFrom, hk]
  rw [path_lt_path, fullOnPath, if_neg hcount, hpart, hrestart.2]
  exact .inl (by omega)

/-- **Every `insert` returns.** -/
lemma exists_insert (cap : Capacity) (t : Tree K V) (k : K) (v : V) (hord : Ordered t.spine) :
    ∃ fuel r, t.insert cap fuel k v = some r := by
  induction hp : t.root.path cap k using
    (wellFounded_lt (α := ℕ ×ₗ ℕ)).induction generalizing t with
  | h p ih =>
    subst hp
    rcases hres : t.insertPass cap k v with ⟨t', _ | success⟩
    · have hspec := insertPass_spec cap k v hord
      have hlt : (t.insertPass cap k v).1.root.path cap k < t.root.path cap k :=
        path_insertPass_lt hord (by rw [hres])
      rw [hres] at hspec hlt
      obtain ⟨fuel, r, hr⟩ := ih _ hlt t' (by rw [hspec]; exact hord) rfl
      exact ⟨fuel + 1, r, by simp [insert, hres, hr]⟩
    · exact ⟨1, (t', success), by simp [insert, hres]⟩

/-- **`insert` puts the entry where its key belongs.** -/
lemma insert_inserts {fuel : ℕ} (hord : Ordered t.spine)
    (hins : t.insert cap fuel k v = some (t', success)) :
    ∃ fresh, t.allocated ≤ fresh ∧ fresh < t'.allocated ∧
      Inserts fresh k v t.spine t'.spine success := by
  induction fuel generalizing t with
  | zero => cases hins
  | succ fuel ih =>
    have hspec := insertPass_spec cap k v hord
    have halloc := allocated_insertPass cap t k v
    rw [insert] at hins
    rcases hres : t.insertPass cap k v with ⟨t₁, _ | b⟩
    · simp only [hres] at hins hspec halloc
      obtain ⟨fresh, hle, hlt, hinserts⟩ := ih (by rw [hspec]; exact hord) hins
      refine ⟨fresh, by omega, hlt, ?_⟩
      rw [← hspec]
      exact hinserts
    · simp only [hres, Option.some.injEq, Prod.mk.injEq] at hins hspec halloc
      obtain ⟨rfl, rfl⟩ := hins
      exact ⟨t.allocated, le_refl _, by omega, hspec⟩

end Tree

end TwoTree.BTreeOlc
