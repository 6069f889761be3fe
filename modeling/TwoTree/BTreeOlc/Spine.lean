import TwoTree.BTreeOlc.Tree
import TwoTree.Lib.BinarySearch
import TwoTree.Lib.Links

/-!
# The spine of an optimistic B+-tree

Written out from left to right, a tree is its leaves with separators between them: its *spine*.  How
the separators are spread over the inner nodes does not show, so that splitting an inner node, giving
the tree a new root and moving children between inner nodes leave the spine as it is.  The order of
the tree, its entries and the links of its leaves are facts about the spine:

* the marks of the entries and separators increase from left to right (`Ordered`);
* the descent with a key ends in a leaf with only smaller marks before it and only greater marks
  behind it (`Node.findLeaf_routed`), so that a lookup finds what the spine holds
  (`Node.lookup_eq_some_iff`).
-/

namespace TwoTree.BTreeOlc

open Lib List Separated Mark Option Leaf

/-! ## The search in a node -/

section Search

variable {K : Type} [LinearOrder K] {keys : List K} {k : K}

open BinarySearch in
lemma binarySearch_eq {p : ℕ} {order : ℕ → Ordering} (hcut : Cut order keys.length p)
    (horder : ∀ i key, keys[i]? = some key → (order i).Compares k key) {fuel left stop : ℕ}
    (hwin : Window order keys.length left stop) (hfuel : stop - left ≤ fuel)
    (hle : left ≤ keys.length) : binarySearch keys k fuel left stop = p := by
  induction fuel generalizing left stop with
  | zero =>
    rw [binarySearch]
    exact (Prod.ext_iff.1 (eq_of_empty hcut hwin (by omega) hle)).1
  | succ fuel ih =>
    rw [binarySearch]
    by_cases hlt : left < stop
    · rw [if_pos hlt]
      have hmid : left + (stop - 1 - left) / 2 < stop := by omega
      generalize hm : left + (stop - 1 - left) / 2 = mid at hmid ⊢
      have hn : mid < keys.length := lt_of_lt_of_le hmid hwin.le
      have hkey := getElem?_eq_getElem hn
      have hcmp := horder mid _ hkey
      simp only [hkey]
      rcases hc : compare keys[mid] k with _ | _ | _
      · have hgt := hcmp.eq_gt.2 (compare_lt_iff_lt.1 hc)
        exact ih ⟨hwin.le, hcut.below hn hgt, hwin.above⟩ (by omega) (by omega)
      · exact hcut.eq_of_eq hn (hcmp.eq_eq.2 (compare_eq_iff_eq.1 hc).symm)
      · have hltm := hcmp.eq_lt.2 (compare_gt_iff_gt.1 hc)
        exact ih ⟨by omega, hwin.below, hcut.above hltm⟩ (by omega) hle
    · rw [if_neg hlt]
      exact (Prod.ext_iff.1 (eq_of_empty hcut hwin (by omega) hle)).1

open BinarySearch in
/-- **`lowerBound` finds the first key that is not below the one it is called with.** -/
lemma lowerBound_eq (hsorted : keys.Pairwise (· < ·)) (k : K) :
    lowerBound keys k = keys.findIdx fun key => k ≤ key := by
  rw [lowerBound]
  by_cases hshort : keys.length < 128
  · rw [if_pos hshort]
    simp
  rw [if_neg hshort]
  let order : ℕ → Ordering := fun i => keys[i]?.elim .eq (cmp k)
  have horder : ∀ i key, keys[i]? = some key → (order i).Compares k key := by
    intro i key hi
    have hcmp : order i = cmp k key := congrArg (Option.elim · .eq (cmp k)) hi
    rw [hcmp]
    exact cmp_compares k key
  exact binarySearch_eq (cut_findIdx hsorted horder) horder (window_all order _) (by omega)
    (Nat.zero_le _)

end Search

/-! ## Spines -/

/-- What stands on a spine. -/
inductive Item (K V : Type)
  | leaf (l : Leaf K V)
  | sep (k : K)

namespace Item

variable {K V : Type}

/-- An entry leaves the mark of its key, a separator the cut behind it. -/
def marks : Item K V → List (Mark K)
  | leaf l => l.keys.map Mark.key
  | sep k => [Mark.cut k]

def entries : Item K V → List (K × V)
  | leaf l => l.entries
  | sep _ => []

def leaves : Item K V → List (Leaf K V)
  | leaf l => [l]
  | sep _ => []

end Item

/-- The tree below a node, written out from left to right. -/
def Node.spine {K V : Type} : (h : ℕ) → Node K V h → List (Item K V)
  | 0, l => [.leaf l]
  | h + 1, n => Separated.flatten Item.sep (spine h) n

section Spine

variable {K V : Type}

def marks (S : List (Item K V)) : List (Mark K) := S.flatMap Item.marks

def entries (S : List (Item K V)) : List (K × V) := S.flatMap Item.entries

def leaves (S : List (Item K V)) : List (Leaf K V) := S.flatMap Item.leaves

section Simp

variable (S T : List (Item K V)) (l : Leaf K V) (k : K)

@[simp] lemma marks_nil : marks ([] : List (Item K V)) = [] := rfl
@[simp] lemma marks_append : marks (S ++ T) = marks S ++ marks T := flatMap_append
@[simp] lemma marks_leaf : marks (.leaf l :: S) = l.keys.map key ++ marks S := rfl
@[simp] lemma marks_sep : marks (.sep k :: S) = cut k :: marks S := rfl

@[simp] lemma entries_nil : entries ([] : List (Item K V)) = [] := rfl
@[simp] lemma entries_append : entries (S ++ T) = entries S ++ entries T := flatMap_append
@[simp] lemma entries_leaf : entries (.leaf l :: S) = l.entries ++ entries S := rfl
@[simp] lemma entries_sep : entries (.sep k :: S) = entries S := rfl

@[simp] lemma leaves_nil : leaves ([] : List (Item K V)) = [] := rfl
@[simp] lemma leaves_append : leaves (S ++ T) = leaves S ++ leaves T := flatMap_append
@[simp] lemma leaves_leaf : leaves (.leaf l :: S) = l :: leaves S := rfl
@[simp] lemma leaves_sep : leaves (.sep k :: S) = leaves S := rfl

end Simp

lemma entries_eq_leaves (S : List (Item K V)) : entries S = (leaves S).flatMap Leaf.entries := by
  induction S with
  | nil => rfl
  | cons i S ih => cases i <;> simp [ih]

lemma key_mem_marks_iff {S : List (Item K V)} {k : K} :
    key k ∈ marks S ↔ k ∈ (entries S).map Prod.fst := by
  induction S with
  | nil => simp
  | cons i S ih =>
    cases i with
    | leaf l => simp [ih, Leaf.keys]
    | sep s => simpa using ih

variable [LinearOrder K]

/-- The marks increase from left to right. -/
def Ordered (S : List (Item K V)) : Prop := (marks S).Pairwise (· < ·)

lemma Ordered.left {S T : List (Item K V)} (h : Ordered (S ++ T)) : Ordered S := by
  rw [Ordered, marks_append] at h
  exact (pairwise_append.1 h).1

lemma Ordered.right {S T : List (Item K V)} (h : Ordered (S ++ T)) : Ordered T := by
  rw [Ordered, marks_append] at h
  exact (pairwise_append.1 h).2.1

lemma Ordered.middle {A S B : List (Item K V)} (h : Ordered (A ++ S ++ B)) : Ordered S :=
  h.left.right

lemma Ordered.keys {l : Leaf K V} (h : Ordered [.leaf l]) : l.keys.Pairwise (· < ·) := by
  simpa [Ordered, pairwise_map] using h

lemma Ordered.pairwise_entries {S : List (Item K V)} (h : Ordered S) :
    (entries S).Pairwise fun e e' => e.1 < e'.1 := by
  have hsub : ((entries S).map fun e => key e.1).Sublist (marks S) := by
    clear h
    induction S with
    | nil => simp
    | cons i S ih =>
      cases i with
      | leaf l => simpa [Leaf.keys, Function.comp_def] using ih
      | sep s => simpa using ih.cons (cut s)
  have hpair := List.Pairwise.sublist hsub h
  simpa [pairwise_map] using hpair

lemma Ordered.seps {h : ℕ} {n : Node K V (h + 1)} (hord : Ordered n.spine) :
    (Separated.seps n).Pairwise (· < ·) := by
  have hsub : ((Separated.seps n).map cut).Sublist (marks n.spine) := by
    rw [Node.spine, Separated.flatten, marks_append, Separated.seps]
    refine List.Sublist.trans ?_ (sublist_append_right _ _)
    induction rest n with
    | nil => simp
    | cons p rest ih =>
      simp only [map_cons, flatMap_cons, cons_append, marks_sep, marks_append]
      exact (ih.trans (sublist_append_right _ _)).cons_cons _
  have hpair := List.Pairwise.sublist hsub hord
  simpa [pairwise_map] using hpair

/-! ## The leaf of a key -/

/-- A segment of a spine where a key belongs: only smaller marks before it, greater ones behind. -/
structure Around (k : K) (A B : List (Item K V)) : Prop where
  before : ∀ x ∈ marks A, x < Mark.key k
  behind : ∀ x ∈ marks B, Mark.key k < x

lemma Around.append {k : K} {A A' B B' : List (Item K V)} (h : Around k A B) (h' : Around k A' B') :
    Around k (A ++ A') (B' ++ B) where
  before x hx := by
    rw [marks_append, mem_append] at hx
    exact hx.elim (h.before x) (h'.before x)
  behind x hx := by
    rw [marks_append, mem_append] at hx
    exact hx.elim (h'.behind x) (h.behind x)

/-- A node opened at the child of a key. -/
abbrev Node.openFor (k : K) {h : ℕ} (n : Node K V (h + 1)) : Opened K (Node K V h) :=
  Separated.openAt n (lowerBound (Separated.seps n) k)

/-- A closed node is opened again where it was. -/
lemma lowerBound_close {α : Type} {o : Opened K α} {k : K} (hsorted : o.close.seps.Pairwise (· < ·))
    (hleft : ∀ p ∈ o.left, p.2 < k) (hright : ∀ p ∈ o.right.head?, k ≤ p.1) :
    lowerBound o.close.seps k = o.left.length := by
  rw [lowerBound_eq hsorted, Opened.findIdx_seps_close hleft hright]

namespace Node

variable {h : ℕ} {n : Node K V (h + 1)} (o : Opened K (Node K V h))

lemma openFor_close {o : Opened K (Node K V h)} {k : K} (hsorted : o.close.seps.Pairwise (· < ·))
    (hleft : ∀ p ∈ o.left, p.2 < k) (hright : ∀ p ∈ o.right.head?, k ≤ p.1) :
    openFor k o.close = o := by
  have hopen := openAt_closeFrom o.left o.part o.right 0
  rw [openFor, lowerBound_close hsorted hleft hright]
  refine hopen.trans ?_
  cases o with
  | mk left a right => cases right <;> rfl

/-- The separators around the child of a key. -/
lemma openFor_left (hord : (seps n).Pairwise (· < ·)) (k : K) :
    ∀ p ∈ (openFor k n).left, p.2 < k := by
  rw [openFor, lowerBound_eq hord]
  exact left_openAt_lt n

lemma openFor_right (hord : (seps n).Pairwise (· < ·)) (k : K) :
    ∀ p ∈ (openFor k n).right.head?, k ≤ p.1 := by
  rw [openFor, lowerBound_eq hord]
  exact le_right_openAt n

/-- What the spine shows before and behind an opened child. -/
abbrev beforeOf : List (Item K V) := o.before Item.sep (spine h)

abbrev behindOf : List (Item K V) := o.behind Item.sep (spine h)

omit [LinearOrder K] in
lemma spine_close : spine (h + 1) o.close = beforeOf o ++ o.part.spine ++ behindOf o :=
  Opened.flatten_close Item.sep (spine h) o

lemma spine_openFor (k : K) (n : Node K V (h + 1)) :
    n.spine = beforeOf (openFor k n) ++ (openFor k n).part.spine ++ behindOf (openFor k n) := by
  rw [← spine_close, openFor, close_openAt]

/-- **The descent goes to the child where the key belongs.** -/
lemma around_openFor (hord : Ordered n.spine) (k : K) :
    Around k (beforeOf (openFor k n)) (behindOf (openFor k n)) := by
  have hordered := hord
  rw [spine_openFor k n] at hordered
  constructor
  · refine Opened.before_lt (fun s => rfl) ?_ hordered.left.left
    intro p hp
    exact openFor_left hord.seps k p (mem_of_mem_head? hp)
  · exact Opened.lt_behind (fun s => rfl) (openFor_right hord.seps k) hordered.right

end Node

/-- **The descent ends in the leaf where the key belongs.** -/
lemma Node.findLeaf_routed (k : K) : (h : ℕ) → (n : Node K V h) → Ordered n.spine →
    ∃ A B, n.spine = A ++ [.leaf (n.findLeaf k)] ++ B ∧ Around k A B
  | 0, l, _ => ⟨[], [], rfl, by constructor <;> simp⟩
  | h + 1, n, hord => by
    have hspine := spine_openFor k n
    have haround := around_openFor hord k
    rw [hspine] at hord
    obtain ⟨A, B, hpart, hAB⟩ := findLeaf_routed k h (openFor k n).part hord.middle
    refine ⟨beforeOf (openFor k n) ++ A, B ++ behindOf (openFor k n), ?_, haround.append hAB⟩
    rw [hspine, hpart]
    simp [findLeaf]

/-! ## What a leaf does with its key -/

namespace Leaf

variable {l : Leaf K V} {k : K} {v : V}

/-- A leaf cut at a key: the entries below it, its entry if there is one, the entries above it. -/
structure CutAt (l : Leaf K V) (k : K) (below : List (K × V)) (here : Option V)
    (above : List (K × V)) : Prop where
  entries_eq : l.entries = below ++ (here.map (k, ·)).toList ++ above
  lowerBound_eq : lowerBound l.keys k = below.length
  below_lt : ∀ e ∈ below, e.1 < k
  lt_above : ∀ e ∈ above, k < e.1

/-- A leaf whose keys increase can be cut at every key. -/
lemma exists_cutAt (hsorted : l.keys.Pairwise (· < ·)) (k : K) :
    ∃ below here above, CutAt l k below here above := by
  have hbelow : ∀ e ∈ l.entries.take (lowerBound l.keys k), e.1 < k := by
    intro e he
    rw [BTreeOlc.lowerBound_eq hsorted] at he
    obtain ⟨i, hi, rfl⟩ := mem_take_iff_getElem.1 he
    have hlt : i < l.keys.findIdx fun key => k ≤ key := by omega
    have hnot := not_of_lt_findIdx hlt
    simpa [keys] using hnot
  have hlen : lowerBound l.keys k ≤ l.entries.length := by
    have hle : (l.keys.findIdx fun key => k ≤ key) ≤ l.keys.length := findIdx_le_length
    rw [BTreeOlc.lowerBound_eq hsorted]
    simpa [keys] using hle
  have hsplit := take_append_drop (lowerBound l.keys k) l.entries
  rcases hd : l.entries.drop (lowerBound l.keys k) with _ | ⟨e, above⟩
  · refine ⟨_, none, [], ⟨?_, by simp [hlen], hbelow, by simp⟩⟩
    simpa [hd] using hsplit.symm
  have hsorted' : (e :: above).Pairwise fun e e' => e.1 < e'.1 := by
    rw [keys, pairwise_map] at hsorted
    rw [← hd]
    exact hsorted.sublist (drop_sublist _ _)
  obtain ⟨habove, -⟩ := pairwise_cons.1 hsorted'
  have hke : k ≤ e.1 := by
    have hlt : lowerBound l.keys k < l.entries.length := by
      by_contra hge
      rw [drop_eq_nil_of_le (by omega)] at hd
      cases hd
    have hget : l.entries[lowerBound l.keys k] = e := by
      rw [drop_eq_getElem_cons hlt] at hd
      exact (List.cons.inj hd).1
    have hidx := BTreeOlc.lowerBound_eq hsorted k
    have hfind : (l.keys.findIdx fun key => k ≤ key) < l.keys.length := by
      rw [← hidx]
      simpa [keys] using hlt
    have hle := of_decide_eq_true (findIdx_getElem (w := hfind))
    simp only [← hidx] at hle
    rw [← hget]
    simpa [keys] using hle
  rcases hke.eq_or_lt with heq | hlt
  · have he : (k, e.2) = e := by rw [heq]
    refine ⟨_, some e.2, above, ⟨?_, by simp [hlen], hbelow, heq ▸ habove⟩⟩
    simpa [hd, he] using hsplit.symm
  refine ⟨_, none, e :: above, ⟨?_, by simp [hlen], hbelow, ?_⟩⟩
  · simpa [hd] using hsplit.symm
  · intro e' he'
    rcases mem_cons.1 he' with rfl | he'
    · exact hlt
    · exact hlt.trans (habove e' he')

variable {below above : List (K × V)} {here : Option V}

variable (h : CutAt l k below here above)
include h

lemma CutAt.keys_getElem? : l.keys[lowerBound l.keys k]? = some k ↔ here.isSome := by
  rw [h.lowerBound_eq, keys, h.entries_eq]
  cases here with
  | some w => simp
  | none =>
    simp only [map_none, toList_none, append_nil, map_append,
      isSome_none, Bool.false_eq_true, iff_false]
    rw [getElem?_append_right (by simp)]
    intro heq
    have hmem := mem_of_getElem? heq
    obtain ⟨e, he, rfl⟩ := mem_map.1 hmem
    exact lt_irrefl _ (h.lt_above e he)

lemma CutAt.lookup_eq : l.lookup k = here := by
  rw [lookup]
  have hkey := h.keys_getElem?
  simp only [h.lowerBound_eq] at hkey ⊢
  cases here with
  | some w => simp [h.entries_eq]
  | none =>
    rcases he : l.entries[below.length]? with _ | e
    · rfl
    · have hne : e.1 ≠ k := by
        intro heq
        simp [keys, he, heq] at hkey
      simp [hne]

/-- `insert` puts an absent key where it belongs and leaves a present one. -/
lemma CutAt.insert_eq : l.insert k v =
      ({ l with entries := below ++ (k, here.getD v) :: above }, here.isNone) := by
  have hkey := h.keys_getElem?
  have hentries := h.entries_eq
  rw [insert, h.lowerBound_eq] at *
  cases here with
  | some w =>
    rw [if_pos (hkey.2 rfl)]
    simp only [map_some, toList_some, append_assoc, cons_append,
      nil_append] at hentries
    rw [getD_some, ← hentries]
    rfl
  | none =>
    rw [if_neg (by simp [hkey])]
    simp only [map_none, toList_none, append_nil] at hentries
    rw [hentries, ListCut.insertIdx_cut]
    rfl

/-- `remove` takes the key out if it is there. -/
lemma CutAt.remove_eq : l.remove k = ({ l with entries := below ++ above }, here.isSome) := by
  have hkey := h.keys_getElem?
  have hentries := h.entries_eq
  rw [remove, h.lowerBound_eq] at *
  cases here with
  | some w =>
    rw [if_pos (hkey.2 rfl), hentries, append_assoc,
      eraseIdx_append_of_length_le (le_refl _)]
    simp
  | none =>
    rw [if_neg (by simp [hkey])]
    simp only [map_none, toList_none, append_nil] at hentries
    rw [← hentries]
    rfl

end Leaf

/-! ## Lookups -/

variable {k : K} {A B S : List (Item K V)} {l l' : Leaf K V}

/-- An entry with the key can only stand where the key belongs. -/
lemma Around.mem_entries_iff (h : Around k A B) (v : V) :
    (k, v) ∈ entries (A ++ S ++ B) ↔ (k, v) ∈ entries S := by
  have hA : (k, v) ∉ entries A := by
    intro hmem
    exact lt_irrefl _ (h.before _ (key_mem_marks_iff.2 (mem_map_of_mem hmem)))
  have hB : (k, v) ∉ entries B := by
    intro hmem
    exact lt_irrefl _ (h.behind _ (key_mem_marks_iff.2 (mem_map_of_mem hmem)))
  simp [hA, hB]

lemma Leaf.lookup_eq_some_iff (hsorted : l.keys.Pairwise (· < ·)) (v : V) :
    l.lookup k = some v ↔ (k, v) ∈ l.entries := by
  obtain ⟨below, here, above, hcut⟩ := exists_cutAt hsorted k
  rw [hcut.lookup_eq, hcut.entries_eq]
  have hbelow : (k, v) ∉ below := fun h => lt_irrefl _ (hcut.below_lt _ h)
  have habove : (k, v) ∉ above := fun h => lt_irrefl _ (hcut.lt_above _ h)
  cases here <;> simp [hbelow, habove, eq_comm]

/-- **A lookup finds what the spine holds.** -/
lemma Node.lookup_eq_some_iff {h : ℕ} {n : Node K V h} (hord : Ordered n.spine) (v : V) :
    (n.findLeaf k).lookup k = some v ↔ (k, v) ∈ entries n.spine := by
  obtain ⟨A, B, hspine, haround⟩ := n.findLeaf_routed k h hord
  rw [hspine] at hord ⊢
  rw [haround.mem_entries_iff, Leaf.lookup_eq_some_iff hord.middle.keys]
  simp

/-! ## Changing the leaf of a key -/

/-- The leaf where a key belongs may be exchanged for one with keys of its own and that key. -/
lemma Ordered.exchange (hord : Ordered (A ++ [.leaf l] ++ B)) (haround : Around k A B)
    (hsorted : l'.keys.Pairwise (· < ·)) (hkeys : ∀ x ∈ l'.keys, x = k ∨ x ∈ l.keys) :
    Ordered (A ++ [.leaf l'] ++ B) := by
  have hall := hord
  rw [Ordered, marks_append, marks_append] at hall ⊢
  obtain ⟨hA, -, hB, hAl, hlB, hAB⟩ := pairwise_append₃.1 hall
  refine pairwise_append₃.2 ⟨hA, ?_, hB, ?_, ?_, hAB⟩
  · simpa [pairwise_map] using hsorted
  · intro a ha m hm
    obtain ⟨x, hx, rfl⟩ : ∃ x ∈ l'.keys, key x = m := by simpa using hm
    rcases hkeys x hx with rfl | hx
    · exact haround.before a ha
    · exact hAl a ha _ (by simpa using hx)
  · intro m hm b hb
    obtain ⟨x, hx, rfl⟩ : ∃ x ∈ l'.keys, key x = m := by simpa using hm
    rcases hkeys x hx with rfl | hx
    · exact haround.behind b hb
    · exact hlB _ (by simpa using hx) b hb

omit [LinearOrder K] in
/-- Exchanging a leaf for one at the same address with the same link keeps the links. -/
lemma relinks_exchange (haddress : l'.address = l.address) (hnext : l'.next = l.next) :
    Relinks address next (leaves (A ++ [.leaf l] ++ B)) (leaves (A ++ [.leaf l'] ++ B)) := by
  simp only [leaves_append, leaves_leaf, leaves_nil]
  exact Relinks.context ⟨by simp [haddress], by simp [hnext], fun _ => isChain_singleton _⟩

/-! ## Rebuilding a spine around the same entries -/

/-- `S'` is `S` with separators and leaves arranged anew: the same entries in the same order, nothing
outside the range of `S`, and leaves that can stand in for those of `S`; addresses in `fresh` may have
been added. -/
structure Rebuilds (fresh : List ℕ) (S S' : List (Item K V)) : Prop where
  entries_eq : entries S' = entries S
  ordered : Ordered S'
  covers : Covers (marks S) (marks S')
  relinks : Relinks Leaf.address Leaf.next (leaves S) (leaves S')
  addresses : ((leaves S').map Leaf.address).Subperm (fresh ++ (leaves S).map Leaf.address)

namespace Rebuilds

variable {fresh : List ℕ} {S' S'' : List (Item K V)}

lemma refl (fresh : List ℕ) (hord : Ordered S) : Rebuilds fresh S S where
  entries_eq := rfl
  ordered := hord
  covers := Covers.of_subset (List.Subset.refl _)
  relinks := Relinks.refl _
  addresses := (sublist_append_right _ _).subperm

lemma trans (h : Rebuilds [] S S') (h' : Rebuilds [] S' S'') : Rebuilds [] S S'' where
  entries_eq := h'.entries_eq.trans h.entries_eq
  ordered := h'.ordered
  covers := h.covers.trans h'.covers
  relinks := h.relinks.trans h'.relinks
  addresses := h'.addresses.trans h.addresses

lemma context (h : Rebuilds fresh S S') (hord : Ordered (A ++ S ++ B)) :
    Rebuilds fresh (A ++ S ++ B) (A ++ S' ++ B) where
  entries_eq := by simp [h.entries_eq]
  ordered := by
    rw [Ordered, marks_append, marks_append] at hord ⊢
    exact pairwise_context hord h.ordered h.covers
  covers := by
    simp only [marks_append]
    exact h.covers.context
  relinks := by
    simp only [leaves_append]
    exact h.relinks.context
  addresses := by
    simp only [leaves_append, map_append]
    refine ((subperm_append_right _).2 ((subperm_append_left _).2 h.addresses)).trans ?_
    rw [← append_assoc, ← append_assoc, ← append_assoc]
    exact ((perm_append_comm.append_right _).append_right _).subperm

end Rebuilds

/-! ## Two leaves with a separator between them -/

/-- Two leaves side by side, parted at the last key of the left one. -/
structure Parted (a : Leaf K V) (s : K) (b : Leaf K V) : Prop where
  left : ∃ X e, a.entries = X ++ [e] ∧ s = e.1
  right : b.entries ≠ []

/-- **Entries may be parted anew:** leaves `a` and `b` with the entries of `S` in their order, the
separator being the last key of `a`. -/
lemma Parted.rebuilds {fresh : List ℕ} {a b : Leaf K V} {s : K} (h : Parted a s b) (hord : Ordered S)
    (hentries : a.entries ++ b.entries = entries S)
    (hrelinks : Relinks address next (leaves S) [a, b])
    (haddresses : [a.address, b.address].Subperm (fresh ++ (leaves S).map address)) :
    Rebuilds fresh S [.leaf a, .sep s, .leaf b] := by
  obtain ⟨⟨X, e, ha, rfl⟩, hright⟩ := h
  obtain ⟨y, Y, hb⟩ := exists_cons_of_ne_nil hright
  have hsorted := hord.pairwise_entries
  rw [← hentries] at hsorted
  obtain ⟨hA, hB, hAB⟩ := pairwise_append.1 hsorted
  have hle : ∀ x ∈ a.entries, x.1 ≤ e.1 := by
    rw [ha] at hA ⊢
    intro x hx
    rcases mem_append.1 hx with hx | hx
    · exact ((pairwise_append.1 hA).2.2 x hx e (by simp)).le
    · rw [mem_singleton.1 hx]
  have hlt : ∀ z ∈ b.entries, e.1 < z.1 := fun z hz => hAB e (by simp [ha]) z hz
  have hmem : ∀ x ∈ a.entries ++ b.entries, key x.1 ∈ marks S := by
    intro x hx
    rw [hentries] at hx
    exact key_mem_marks_iff.2 (mem_map_of_mem hx)
  have hmarks : marks [Item.leaf a, .sep e.1, .leaf b] =
      a.entries.map (fun x => key x.1) ++
        cut e.1 :: b.entries.map fun x => key x.1 := by
    simp [Leaf.keys, Function.comp_def]
  refine ⟨by simpa using hentries, ?_, ?_, hrelinks, haddresses⟩
  · rw [Ordered, hmarks]
    refine pairwise_append.2 ⟨?_, pairwise_cons.2 ⟨?_, ?_⟩, ?_⟩
    · simpa [pairwise_map] using hA
    · intro m hm
      obtain ⟨z, hz, rfl⟩ := mem_map.1 hm
      simpa using hlt z hz
    · simpa [pairwise_map] using hB
    intro m hm m' hm'
    obtain ⟨x, hx, rfl⟩ := mem_map.1 hm
    rcases mem_cons.1 hm' with rfl | hm'
    · simpa using hle x hx
    · obtain ⟨z, hz, rfl⟩ := mem_map.1 hm'
      simpa using hAB x hx z hz
  · rw [hmarks]
    intro m hm
    rcases mem_append.1 hm with hm | hm
    · obtain ⟨x, hx, rfl⟩ := mem_map.1 hm
      exact Covers.of_subset (List.Subset.refl _) _ (hmem x (by simp [hx]))
    rcases mem_cons.1 hm with rfl | hm
    · -- the new cut lies between the entries on its two sides
      refine ⟨⟨key e.1, hmem e (by simp [ha]), ?_⟩, key y.1, hmem y (by simp [hb]), ?_⟩
      · exact (key_lt_cut.2 (le_refl _)).le
      · exact (cut_lt_key.2 (hlt y (by simp [hb]))).le
    · obtain ⟨z, hz, rfl⟩ := mem_map.1 hm
      exact Covers.of_subset (List.Subset.refl _) _ (hmem z (by simp [hz]))

end Spine

end TwoTree.BTreeOlc
