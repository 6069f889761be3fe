import TwoTree.BTree.Split
import TwoTree.Lib.Tiling

/-!
# Trees of pages

`BTreeGeneric` and the reads of `BTreeLL`.  A tree of height zero is a leaf page; in a tree of height
`h + 1` the payloads of the root's slots are trees of height `h`, the subtrees that the swips of the
page lead to.  In a well-formed tree the fences of every child are the separators around it in its
parent, so that the leaves of the whole tree stand next to each other (`tiles_leaves`), and the descent
with a key ends in the leaf between whose fences it is (`findLeaf_eq`).
-/

namespace TwoTree.BTree

open Lib Lib.Tiling List Record

/-- What the slots of a page of a given height hold: the bytes of a record, or a child. -/
@[reducible] def Payload : ℕ → Type
  | 0 => List UInt8
  | h + 1 => Node (Payload h)

/-- A tree, as its root page. -/
abbrev Tree (h : ℕ) : Type := Node (Payload h)

/-- A leaf. -/
abbrev Leaf : Type := Tree 0

/-! ## The code -/

namespace Tree

/-- `findLeafCanJump`: the descent with a key. -/
def findLeaf : (h : ℕ) → Tree h → Key → Option Leaf
  | 0, n, _ => some n
  | h + 1, n, key => (n.lookupInner key).bind fun child => findLeaf h child key

end Tree

/-- `BTreeGeneric`: the root and its height. -/
structure BTreeGeneric where
  height : ℕ
  root : Tree height

/-- `OP_RESULT`. -/
inductive OpResult
  | ok
  | notFound
  | duplicate
deriving DecidableEq

namespace BTreeGeneric

/-- A new tree is an empty leaf. -/
def create : BTreeGeneric := ⟨0, { isLeaf := true }⟩

/-- `findLeafAndLatch`; no other thread holds a latch. -/
def findLeaf (t : BTreeGeneric) (key : Key) : Option Leaf := Tree.findLeaf t.height t.root key

end BTreeGeneric

namespace Node

/-- The payload that is found at a position of a leaf. -/
def payloadAt (leaf : Leaf) (pos : ℤ) : Option (List UInt8) :=
  if 0 ≤ pos then leaf.slots[pos.toNat]?.map Slot.payload else none

end Node

/-- `BTreeLL::lookup`: the payload that the callback gets. -/
def BTreeGeneric.lookup (t : BTreeGeneric) (key : Key) : Option (List UInt8) :=
  (t.findLeaf key).bind fun leaf => leaf.payloadAt (leaf.lowerBound true key).1

/-! ## Children of a page -/

namespace Contents

variable {κ : Type*}

/-- The children of an inner page, from left to right. -/
def children (c : Contents κ) : List κ := c.records.map Record.payload ++ c.upper.toList

variable {c : Contents κ} {A B : List (Record κ)} {x y : κ} {lower upper : Option Key}

/-- The children behind the one between `A` and `B`. -/
def childrenBehind (c : Contents κ) : List (Record κ) → List κ
  | [] => []
  | _ :: B => B.map Record.payload ++ c.upper.toList

namespace ChildAt

lemma children_eq (h : c.ChildAt A B x lower upper) :
    c.children = A.map payload ++ x :: c.childrenBehind B := by
  have hchild := h.child
  rw [children, h.records]
  cases B with
  | nil =>
    have hupper : c.upper = some x := by simpa using hchild
    simp [childrenBehind, hupper]
  | cons r B =>
    have hr : r.payload = x := by simpa using hchild
    simp [childrenBehind, hr]

end ChildAt

/-- The children of a page have the fences of their places. -/
def Fenced {π : Type*} (c : Contents (Node π)) : Prop :=
  Tiles Node.lowerFence Node.upperFence c.lowerFence c.keys c.upperFence c.children

/-- **Where a child is**, in a page whose children have the fences of their places. -/
lemma Fenced.childAt {π : Type*} {c : Contents (Node π)} {X Y : List (Node π)} {x : Node π}
    (h : c.Fenced) (hx : c.children = X ++ x :: Y) :
    ∃ A B, A.map payload = X ∧ c.childrenBehind B = Y ∧
      c.ChildAt A B x x.lowerFence x.upperFence := by
  have hx' := hx
  rw [Fenced, hx] at h
  obtain ⟨K, K', hkeys, hcut⟩ := h.cut
  obtain ⟨A, B, hAB, hA, hB⟩ : ∃ A B, c.records = A ++ B ∧ A.map key = K ∧
      B.map key = K' := by
    rw [keys, map_eq_append_iff] at hkeys
    exact hkeys
  have hlen : A.length = X.length := by
    rw [← hcut.length_eq, ← hA, length_map]
  have hlower : A.getLast?.elim c.lowerFence (fun r => some r.key) = x.lowerFence := by
    have hcl := hcut.lower
    rw [← hA] at hcl
    rcases eq_nil_or_concat' A with rfl | ⟨A, r, rfl⟩
    · obtain rfl : X = [] := length_eq_zero_iff.1 hlen.symm
      simpa using hcl.symm
    · rw [map_append, map_append, ← cons_append] at hcl
      simpa using (List.cons.inj (append_inj' hcl rfl).2).1.symm
  have hupper : B.head?.elim c.upperFence (fun r => some r.key) = x.upperFence := by
    have hcu := hcut.upper'
    rw [← hB] at hcu
    cases B with
    | nil => simpa using (List.cons.inj hcu).1.symm
    | cons r B => simpa using (List.cons.inj hcu).1.symm
  rw [children, hAB, map_append, append_assoc] at hx'
  obtain ⟨hX, hY⟩ := append_inj hx' (by simpa using hlen)
  refine ⟨A, B, hX, ?_, hAB, ?_, hlower, hupper⟩
  · cases B with
    | nil =>
      simp only [map_nil, nil_append] at hY
      cases hcu : c.upper with
      | none => simp [hcu] at hY
      | some u =>
        rw [hcu] at hY
        exact (List.cons.inj hY).2
    | cons r B => exact (List.cons.inj hY).2
  · cases B with
    | nil =>
      simp only [map_nil, nil_append] at hY
      cases hcu : c.upper with
      | none => simp [hcu] at hY
      | some u =>
        rw [hcu] at hY
        simpa [hcu] using (List.cons.inj hY).1
    | cons r B => simpa using (List.cons.inj hY).1

end Contents

/-! ## Well-formed trees -/

namespace Tree

/-- The leaves, from left to right. -/
def leaves : {h : ℕ} → Tree h → List Leaf
  | 0, n => [n]
  | _ + 1, n => n.contents.children.flatMap leaves

/-- **A well-formed tree**: pages below pages, each child with the fences of its place. -/
def WellFormed : {h : ℕ} → Tree h → Prop
  | 0, n => n.Page ∧ n.isLeaf = true ∧ ∀ r ∈ n.contents.records, r.payloadLen = r.payload.length
  | _ + 1, n => n.Page ∧ n.isLeaf = false ∧ n.contents.Fenced ∧
      ∀ c ∈ n.contents.children, WellFormed c

lemma leaves_succ {h : ℕ} (n : Tree (h + 1)) : n.leaves = n.contents.children.flatMap leaves := rfl

namespace WellFormed

variable {h : ℕ}

lemma page : {h : ℕ} → {n : Tree h} → n.WellFormed → n.Page
  | 0, _, hn => hn.1
  | _ + 1, _, hn => hn.1

lemma fenced {n : Tree (h + 1)} (hn : n.WellFormed) : n.contents.Fenced := hn.2.2.1

lemma child {n : Tree (h + 1)} (hn : n.WellFormed) {c : Tree h} (hc : c ∈ n.contents.children) :
    Tree.WellFormed c := hn.2.2.2 c hc

lemma leaf : {h : ℕ} → {n : Tree h} → n.WellFormed → ∀ l ∈ n.leaves, l.WellFormed
  | 0, n, hn, l, hl => by
    obtain rfl : l = n := by simpa [leaves] using hl
    exact hn
  | h + 1, n, hn, l, hl => by
    rw [leaves_succ, mem_flatMap] at hl
    obtain ⟨c, hc, hl⟩ := hl
    exact leaf (hn.child hc) l hl

/-- **The leaves stand next to each other.** -/
lemma tiles_leaves : {h : ℕ} → {n : Tree h} → n.WellFormed →
    ∃ ks, Tiles Node.lowerFence Node.upperFence n.lowerFence ks n.upperFence n.leaves
  | 0, n, _ => ⟨[], tiles_singleton n⟩
  | h + 1, n, hn => by
    rw [leaves_succ]
    exact hn.fenced.flatMap fun c hc => tiles_leaves (hn.child hc)

/-- The child of a key, and its place. -/
lemma exists_child {n : Tree (h + 1)} (hn : n.WellFormed) {key : Key} (hkey : n.InFences key) :
    ∃ A B, ∃ c : Tree h, n.contents.ChildAt A B c c.lowerFence c.upperFence ∧ c.WellFormed ∧
      c.InFences key ∧ n.lookupInner key = some c := by
  obtain ⟨X, c, Y, hchildren, hc⟩ := hn.fenced.exists_cell hkey
  obtain ⟨A, B, -, -, hat⟩ := hn.fenced.childAt hchildren
  have hmem : c ∈ n.contents.children := by simp [hchildren]
  exact ⟨A, B, c, hat, hn.child hmem, hc, Node.lookupInner_eq hn.page hat hc.1 hc.2⟩

/-- **The descent ends in the leaf between whose fences the key is.** -/
lemma findLeaf_eq : {h : ℕ} → {n : Tree h} → n.WellFormed → {key : Key} → n.InFences key →
    ∃ X l Y, n.leaves = X ++ l :: Y ∧ findLeaf h n key = some l ∧ l.InFences key
  | 0, n, _, _, hkey => ⟨[], n, [], rfl, rfl, hkey⟩
  | h + 1, n, hn, key, hkey => by
    obtain ⟨A, B, c, hat, hc, hck, hlookup⟩ := hn.exists_child hkey
    obtain ⟨X, l, Y, hleaves, hfind, hl⟩ := findLeaf_eq hc hck
    refine ⟨(A.map payload).flatMap leaves ++ X, l,
      Y ++ (n.contents.childrenBehind B).flatMap leaves, ?_, ?_, hl⟩
    · rw [leaves_succ, hat.children_eq, flatMap_append, flatMap_cons, hleaves]
      simp
    · rw [findLeaf, hlookup]
      exact hfind

end WellFormed

end Tree

/-! ## What a tree holds -/

namespace Node

/-- The entries of a leaf. -/
def entries (leaf : Leaf) : List (Key × List UInt8) :=
  leaf.contents.records.map fun r => (r.key, r.payload)

lemma keys_entries (leaf : Leaf) : leaf.entries.map Prod.fst = leaf.fullKeys := by
  rw [← keys_contents, entries, map_map]
  rfl

end Node

section Entries

open Node

/-- The entries of leaves one after the other. -/
def leafEntries (L : List Leaf) : List (Key × List UInt8) := L.flatMap Node.entries

lemma leafEntries_cons (l : Leaf) (L : List Leaf) :
    leafEntries (l :: L) = l.entries ++ leafEntries L := flatMap_cons

lemma leafEntries_append (L L' : List Leaf) :
    leafEntries (L ++ L') = leafEntries L ++ leafEntries L' := flatMap_append

lemma pairwise_entries {leaf : Leaf} (h : leaf.Page) :
    leaf.entries.Pairwise fun e e' => e.1 < e'.1 := by
  have hsorted := h.wf.sorted
  rwa [← keys_entries, pairwise_map] at hsorted

lemma inFences_of_mem_entries {leaf : Leaf} (h : leaf.Page) {e : Key × List UInt8}
    (he : e ∈ leaf.entries) : leaf.InFences e.1 := by
  refine h.wf.within _ ?_
  rw [← keys_entries]
  exact mem_map_of_mem he

variable {a b : Option Key} {ks : List Key} {L X Y : List Leaf} {l : Leaf}

section

variable (h : Tiles lowerFence upperFence a ks b (X ++ l :: Y))
  (hpage : ∀ m ∈ X ++ l :: Y, m.Page)
include h hpage

/-- The leaves before the leaf of a key end below the key. -/
lemma upperFence_lt_of_mem_before {key : Key} (hkey : l.InFences key) {m : Leaf} (hm : m ∈ X) :
    ∃ u, m.upperFence = some u ∧ u < key := by
  have hsorted := h.sorted fun m hm => (hpage m hm).valid.fences
  obtain ⟨K, K', rfl, hcut⟩ := h.cut
  have hmem : m.upperFence ∈ X.map upperFence := mem_map_of_mem hm
  rw [hcut.upper, mem_map] at hmem
  obtain ⟨u, hu, heq⟩ := hmem
  obtain ⟨lo, hlo, hle⟩ := hcut.le_lower (pairwise_append.1 hsorted).1 hu
  exact ⟨u, heq.symm, hle.trans_lt (hkey.1 lo hlo)⟩

lemma lt_of_mem_before {key : Key} (hkey : l.InFences key)
    {e : Key × List UInt8} (he : e ∈ leafEntries X) : e.1 < key := by
  obtain ⟨m, hm, he⟩ := mem_flatMap.1 he
  obtain ⟨u, hu, hlt⟩ := upperFence_lt_of_mem_before h hpage hkey hm
  have hle := (inFences_of_mem_entries (hpage m (by simp [hm])) he).2 u (by simp [hu])
  exact hle.trans_lt hlt

/-- The leaves behind the leaf of a key begin at the key or above it. -/
lemma le_lowerFence_of_mem_behind {key : Key} (hkey : l.InFences key) {m : Leaf} (hm : m ∈ Y) :
    ∃ lo, m.lowerFence = some lo ∧ key ≤ lo := by
  have hsorted := h.sorted fun m hm => (hpage m hm).valid.fences
  obtain ⟨K, K', rfl, hcut⟩ := h.cut
  have hmem : m.lowerFence ∈ Y.map lowerFence := mem_map_of_mem hm
  rw [hcut.lower', mem_map] at hmem
  obtain ⟨lo, hlo, heq⟩ := hmem
  obtain ⟨u, hu, hle⟩ := hcut.upper_le (pairwise_append.1 hsorted).2.1 hlo
  exact ⟨lo, heq.symm, (hkey.2 u hu).trans hle⟩

lemma lt_of_mem_behind {key : Key} (hkey : l.InFences key)
    {e : Key × List UInt8} (he : e ∈ leafEntries Y) : key < e.1 := by
  obtain ⟨m, hm, he⟩ := mem_flatMap.1 he
  obtain ⟨lo, hlo, hle⟩ := le_lowerFence_of_mem_behind h hpage hkey hm
  have hlt := (inFences_of_mem_entries (hpage m (by simp [hm])) he).1 lo (by simp [hlo])
  exact hle.trans_lt hlt

end

/-- **The entries of leaves that stand next to each other are sorted.** -/
lemma pairwise_leafEntries (h : Tiles lowerFence upperFence a ks b L) (hpage : ∀ m ∈ L, m.Page) :
    (leafEntries L).Pairwise fun e e' => e.1 < e'.1 := by
  suffices hsuffix : ∀ X Y, L = X ++ Y → (leafEntries Y).Pairwise fun e e' => e.1 < e'.1 from
    hsuffix [] L rfl
  intro X Y hXY
  induction Y generalizing X with
  | nil => exact List.Pairwise.nil
  | cons l Y ih =>
    have hrest := ih (X ++ [l]) (by simp [hXY])
    subst hXY
    rw [leafEntries_cons, pairwise_append]
    refine ⟨pairwise_entries (hpage l (by simp)), hrest, ?_⟩
    intro e he e' he'
    exact lt_of_mem_behind h hpage (inFences_of_mem_entries (hpage l (by simp)) he) he'

end Entries

namespace BTreeGeneric

/-- The leaves, from left to right. -/
def leaves (t : BTreeGeneric) : List Leaf := Tree.leaves t.root

/-- The entries, in the order of their keys. -/
def entries (t : BTreeGeneric) : List (Key × List UInt8) := leafEntries t.leaves

/-- **A well-formed tree**: nothing lies outside the root. -/
structure WellFormed (t : BTreeGeneric) : Prop where
  root : Tree.WellFormed t.root
  lower : t.root.lowerFence = none
  upper : t.root.upperFence = none

namespace WellFormed

variable {t : BTreeGeneric} {X Y : List Leaf} {l : Leaf} {key : Key}

variable (h : t.WellFormed)
include h

lemma tiles_leaves : ∃ ks, Tiles Node.lowerFence Node.upperFence none ks none t.leaves := by
  obtain ⟨ks, hks⟩ := h.root.tiles_leaves
  rw [h.lower, h.upper] at hks
  exact ⟨ks, hks⟩

lemma leaf (hl : l ∈ t.leaves) : Tree.WellFormed l := h.root.leaf l hl

lemma page (hl : l ∈ t.leaves) : l.Page := (h.leaf hl).1

lemma inFences_root (key : Key) : t.root.InFences key := by
  constructor
  · simp [h.lower]
  · simp [h.upper]

lemma findLeaf_eq (key : Key) :
    ∃ X l Y, t.leaves = X ++ l :: Y ∧ t.findLeaf key = some l ∧ l.InFences key :=
  h.root.findLeaf_eq (h.inFences_root key)

/-- **A key is found in the only leaf between whose fences it is.** -/
lemma findLeaf_of_inFences (hl : t.leaves = X ++ l :: Y) (hkey : l.InFences key) :
    t.findLeaf key = some l := by
  obtain ⟨X', l', Y', hl', hfind, hkey'⟩ := h.findLeaf_eq key
  obtain ⟨ks, htiles⟩ := h.tiles_leaves
  have hsorted := htiles.sorted fun m hm => (h.page hm).valid.fences
  rw [hl] at htiles
  rw [hfind, htiles.cell_unique hsorted (hl.symm.trans hl') hkey hkey']

lemma pairwise_entries : t.entries.Pairwise fun e e' => e.1 < e'.1 := by
  obtain ⟨ks, htiles⟩ := h.tiles_leaves
  exact pairwise_leafEntries htiles fun m hm => h.page hm

variable (hl : t.leaves = X ++ l :: Y)
include hl

lemma tiles_cut : (∃ ks, Tiles Node.lowerFence Node.upperFence none ks none (X ++ l :: Y)) ∧
      ∀ m ∈ X ++ l :: Y, m.Page := by
  rw [← hl]
  exact ⟨h.tiles_leaves, fun m hm => h.page hm⟩

lemma lt_of_mem_before (hkey : l.InFences key)
    {e : Key × List UInt8} (he : e ∈ leafEntries X) : e.1 < key := by
  obtain ⟨⟨ks, htiles⟩, hpage⟩ := h.tiles_cut hl
  exact BTree.lt_of_mem_before htiles hpage hkey he

lemma lt_of_mem_behind (hkey : l.InFences key)
    {e : Key × List UInt8} (he : e ∈ leafEntries Y) : key < e.1 := by
  obtain ⟨⟨ks, htiles⟩, hpage⟩ := h.tiles_cut hl
  exact BTree.lt_of_mem_behind htiles hpage hkey he

lemma upperFence_lt_of_mem_before (hkey : l.InFences key) {m : Leaf} (hm : m ∈ X) : ∃ u, m.upperFence = some u ∧ u < key := by
  obtain ⟨⟨ks, htiles⟩, hpage⟩ := h.tiles_cut hl
  exact BTree.upperFence_lt_of_mem_before htiles hpage hkey hm

lemma le_lowerFence_of_mem_behind (hkey : l.InFences key) {m : Leaf} (hm : m ∈ Y) : ∃ lo, m.lowerFence = some lo ∧ key ≤ lo := by
  obtain ⟨⟨ks, htiles⟩, hpage⟩ := h.tiles_cut hl
  exact BTree.le_lowerFence_of_mem_behind htiles hpage hkey hm

/-- The leaf behind a leaf begins at its upper fence. -/
lemma exists_next {fence : Key}
    (hfence : l.upperFence = some fence) : ∃ m Y', Y = m :: Y' ∧ m.lowerFence = some fence := by
  obtain ⟨ks, htiles⟩ := h.tiles_leaves
  rw [hl] at htiles
  obtain ⟨K, K', -, hcut⟩ := htiles.cut
  cases Y with
  | nil =>
    have hupper := hcut.upper'
    have hK : K' = [] := by simpa using hcut.lower'.symm
    simp [hK, hfence] at hupper
  | cons m Y' =>
    obtain ⟨k, -, -, hu, hlo⟩ := hcut.exists_bound
    exact ⟨m, Y', rfl, by rw [hlo, ← hu, hfence]⟩

/-- The leaf before a leaf ends at its lower fence. -/
lemma exists_prev {fence : Key} (hfence : l.lowerFence = some fence) :
    ∃ X' m, X = X' ++ [m] ∧ m.upperFence = some fence := by
  obtain ⟨ks, htiles⟩ := h.tiles_leaves
  rw [hl] at htiles
  rcases eq_nil_or_concat' X with rfl | ⟨X', m, rfl⟩
  · have hlower := htiles.lower
    simp [hfence] at hlower
  · rw [append_assoc, singleton_append] at htiles
    obtain ⟨K, K', -, hcut⟩ := htiles.cut
    obtain ⟨k, -, -, hu, hlo⟩ := hcut.exists_bound
    exact ⟨X', m, rfl, by rw [hu, ← hlo, hfence]⟩

end WellFormed

end BTreeGeneric

/-! ## Lookups -/

lemma eq_of_mem_entries {E : List (Key × List UInt8)} (hE : E.Pairwise fun e e' => e.1 < e'.1)
    {e e' : Key × List UInt8} (he : e ∈ E) (he' : e' ∈ E) (heq : e.1 = e'.1) : e = e' := by
  have hnodup : (E.map Prod.fst).Nodup := pairwise_map.2 (hE.imp fun h => h.ne)
  exact inj_on_of_nodup_map hnodup he he' heq

lemma Node.payloadAt_eq (leaf : Leaf) (i : ℕ) : leaf.payloadAt i = leaf.entries[i]?.map Prod.snd := by
  rw [payloadAt, if_pos (Int.natCast_nonneg i), Int.toNat_natCast, entries, contents]
  simp [record, Function.comp_def]

/-- **A lookup in the leaf of a key.** -/
lemma Node.payloadAt_lowerBound {leaf : Leaf} (h : leaf.Page) {key : Key} (hkey : leaf.InFences key)
    (v : List UInt8) :
    leaf.payloadAt (leaf.lowerBound true key).1 = some v ↔ (key, v) ∈ leaf.entries := by
  rw [lowerBound_true h.wf hkey]
  by_cases hmem : key ∈ leaf.fullKeys
  · rw [if_pos hmem, payloadAt_eq]
    have hidx : (leaf.entries.map Prod.fst)[leaf.fullKeys.idxOf key]? = some key := by
      rw [keys_entries, getElem?_eq_getElem (idxOf_lt_length_of_mem hmem),
        getElem_idxOf]
    rw [getElem?_map, Option.map_eq_some_iff] at hidx
    obtain ⟨⟨k, w⟩, hget, rfl⟩ := hidx
    rw [hget]
    have hw := mem_of_getElem? hget
    simp only [Option.map_some, Option.some.injEq]
    constructor
    · rintro rfl
      exact hw
    · intro hv
      exact congrArg Prod.snd (eq_of_mem_entries (pairwise_entries h) hw hv rfl)
  · rw [if_neg hmem]
    have hnone : (key, v) ∉ leaf.entries := by
      intro hv
      rw [← keys_entries] at hmem
      exact hmem (mem_map_of_mem hv)
    simp [payloadAt, hnone]

/-- **A lookup finds the entry of the key.** -/
lemma BTreeGeneric.WellFormed.lookup_eq_some_iff {t : BTreeGeneric} (h : t.WellFormed) (key : Key)
    (v : List UInt8) : t.lookup key = some v ↔ (key, v) ∈ t.entries := by
  obtain ⟨X, l, Y, hl, hfind, hkey⟩ := h.findLeaf_eq key
  have hpage : l.Page := h.page (by simp [hl])
  rw [lookup, hfind, Option.bind_some, Node.payloadAt_lowerBound hpage hkey, entries, hl]
  rw [leafEntries_append, leafEntries_cons, mem_append, mem_append]
  constructor
  · intro hmem
    exact .inr (.inl hmem)
  · rintro (hmem | hmem | hmem)
    · exact absurd (h.lt_of_mem_before hl hkey hmem) (lt_irrefl _)
    · exact hmem
    · exact absurd (h.lt_of_mem_behind hl hkey hmem) (lt_irrefl _)

/-! ## Trees from contents -/

namespace Tree

lemma wellFormed_leaf {c : Contents (List UInt8)} (hc : c.Valid) (hleaf : c.isLeaf = true)
    (hlen : ∀ r ∈ c.records, r.payloadLen = r.payload.length) (hsize : c.size ≤ effectivePageSize) :
    WellFormed (h := 0) c.pack.makeHint := by
  refine ⟨Node.page_pack hc hsize, hleaf, ?_⟩
  rwa [Node.contents_makeHint, Node.contents_pack hc.within]

lemma wellFormed_inner {h : ℕ} {c : Contents (Tree h)} (hc : c.Valid) (hinner : c.isLeaf = false)
    (hfenced : c.Fenced) (hchildren : ∀ x ∈ c.children, WellFormed x)
    (hsize : c.size ≤ effectivePageSize) : WellFormed (h := h + 1) c.pack.makeHint := by
  have hcontents := Node.contents_pack hc.within
  refine ⟨Node.page_pack hc hsize, hinner, ?_, ?_⟩
  · rwa [Node.contents_makeHint, hcontents]
  · rwa [Node.contents_makeHint, hcontents]

end Tree

/-- A leaf for the keys up to `[2]`, with one record. -/
def firstLeaf (key : Key) : Contents (List UInt8) := ⟨true, none, none, some [2], [⟨key, [10], 1⟩]⟩

/-- A leaf for the keys above `[2]`, with one record. -/
def secondLeaf : Contents (List UInt8) := ⟨true, none, some [2], none, [⟨[3], [30], 1⟩]⟩

/-- A root over both. -/
def rootOverTwo (key : Key) : Contents Leaf :=
  ⟨false, some secondLeaf.pack.makeHint, none, none, [⟨[2], (firstLeaf key).pack.makeHint, swipSize⟩]⟩

/-- A tree of two leaves with one record each. -/
def twoLeaves (key : Key) : BTreeGeneric := ⟨1, (rootOverTwo key).pack.makeHint⟩

lemma wellFormed_twoLeaves {key : Key} (hkey : key ≤ [2]) (hlen : key.length ≤ 16000) :
    (twoLeaves key).WellFormed := by
  have hfirst : Tree.WellFormed (h := 0) (firstLeaf key).pack.makeHint := by
    refine Tree.wellFormed_leaf ?_ rfl (by simp [firstLeaf]) ?_
    · constructor <;> simp [firstLeaf, Contents.keys, Contents.InFences, hkey]
    simp only [firstLeaf, Contents.size, Contents.space, Contents.fenceSpace, slotsOffset, slotSize,
      effectivePageSize, Contents.recordsSpace, Contents.recordSpace, map_cons, map_nil,
      sum_cons, sum_nil, length_cons, length_nil, Option.getD_none,
      Option.getD_some]
    omega
  have hsecond : Tree.WellFormed (h := 0) secondLeaf.pack.makeHint := by
    refine Tree.wellFormed_leaf ?_ rfl (by simp [secondLeaf]) (by decide)
    have hlt : ([2] : Key) < [3] := by decide
    constructor <;> simp [secondLeaf, Contents.keys, Contents.InFences, hlt]
  have hsize : (rootOverTwo key).size = 111 := rfl
  refine ⟨Tree.wellFormed_inner ?_ rfl ⟨rfl, rfl⟩ ?_ (hsize.trans_le (by decide)), rfl, rfl⟩
  · constructor <;> simp [rootOverTwo, Contents.keys, Contents.InFences, swipSize]
  · simpa [rootOverTwo, Contents.children] using ⟨hfirst, hsecond⟩

end TwoTree.BTree
