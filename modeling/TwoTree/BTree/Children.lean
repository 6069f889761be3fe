import TwoTree.BTree.Tree

/-!
# Pages behind swips

When a page changes, the swip in its parent stays as it is, so in a tree the parent gets another
payload and nothing else.  A child may be exchanged for any well-formed tree with the same fences
(`Tree.WellFormed.setChild`).
-/

namespace TwoTree.BTree

open Lib Lib.Tiling List Contents Record

/-! ## Another payload -/

namespace Contents

variable {κ : Type*} {c : Contents κ}

/-- Another payload of the same length in the record at a position. -/
def modifyPayload (c : Contents κ) (pos : ℕ) (f : κ → κ) : Contents κ :=
  { c with records := c.records.modify pos fun r => { r with payload := f r.payload } }

/-- All else stays. -/
lemma map_modifyPayload {β : Type*} {g : Record κ → β}
    (hg : ∀ r : Record κ, ∀ y, g { r with payload := y } = g r) (pos : ℕ) (f : κ → κ) :
    (c.modifyPayload pos f).records.map g = c.records.map g := by
  rw [modifyPayload]
  exact ListCut.map_modify (fun r => hg r _) _ _

lemma keys_modifyPayload (c : Contents κ) (pos : ℕ) (f : κ → κ) :
    (c.modifyPayload pos f).keys = c.keys :=
  map_modifyPayload (fun _ _ => rfl) pos f

lemma space_modifyPayload (c : Contents κ) (pos : ℕ) (f : κ → κ) :
    (c.modifyPayload pos f).space = c.space := by
  have hrecords : (c.modifyPayload pos f).records.map (recordSpace c.prefixLength) =
      c.records.map (recordSpace c.prefixLength) := map_modifyPayload (fun _ _ => rfl) pos f
  have hshared : (c.modifyPayload pos f).prefixLength = c.prefixLength := rfl
  rw [space, hshared, recordsSpace, hrecords]
  rfl

lemma Valid.modifyPayload (hc : c.Valid) (pos : ℕ) (f : κ → κ) : (c.modifyPayload pos f).Valid := by
  have hkeys := keys_modifyPayload c pos f
  refine { hc with sorted := ?_, within := ?_, swips := ?_, below := ?_ }
  · rw [hkeys]
    exact hc.sorted
  · rw [hkeys]
    exact hc.within
  · intro hinner r hr
    have hlens : (c.modifyPayload pos f).records.map payloadLen =
        c.records.map payloadLen := map_modifyPayload (fun _ _ => rfl) pos f
    have hmem : r.payloadLen ∈ c.records.map payloadLen := hlens ▸ mem_map_of_mem hr
    obtain ⟨r', hr', heq⟩ := mem_map.1 hmem
    rw [← heq]
    exact hc.swips hinner r' hr'
  · rw [hkeys]
    exact hc.below

end Contents

namespace Node

variable {κ : Type*} {n : Node κ}

/-- The payload at a position is another one of the same length now. -/
def modifyPayload (n : Node κ) (pos : ℕ) (f : κ → κ) : Node κ :=
  { n with slots := n.slots.modify pos fun s => { s with payload := f s.payload } }

lemma contents_modifyPayload (n : Node κ) (pos : ℕ) (f : κ → κ) :
    (n.modifyPayload pos f).contents = n.contents.modifyPayload pos f := by
  have hrecords : (n.slots.modify pos fun s => { s with payload := f s.payload }).map n.record =
      (n.slots.map n.record).modify pos fun r => { r with payload := f r.payload } := by
    refine ext_getElem? fun i => ?_
    simp only [getElem?_map, getElem?_modify, Option.map_eq_map, Option.map_map]
    congr 1
    funext s
    simp only [Function.comp_apply]
    split <;> rfl
  exact congrArg (fun rs => (⟨n.isLeaf, n.upper, n.lowerFence, n.upperFence, rs⟩ : Contents κ)) hrecords

lemma count_modifyPayload (n : Node κ) (pos : ℕ) (f : κ → κ) : (n.modifyPayload pos f).count = n.count :=
  length_modify ..

/-- **A page keeps its bytes** when a payload changes. -/
lemma Page.modifyPayload (hn : n.Page) (pos : ℕ) (f : κ → κ) : (n.modifyPayload pos f).Page := by
  have hcontents := contents_modifyPayload n pos f
  have hcount := count_modifyPayload n pos f
  -- keys and heads of the slots stay
  have hslot : ∀ (i : ℕ) (s' : Slot κ), (n.modifyPayload pos f).slots[i]? = some s' →
      ∃ s, n.slots[i]? = some s ∧ s'.key = s.key ∧ s'.head = s.head := by
    intro i s' hs'
    rw [Node.modifyPayload, getElem?_modify, Option.map_eq_map, Option.map_eq_some_iff] at hs'
    obtain ⟨s, hs, rfl⟩ := hs'
    refine ⟨s, hs, ?_⟩
    split <;> exact ⟨rfl, rfl⟩
  constructor
  · rw [hcontents]
    exact hn.valid.modifyPayload pos f
  · rw [hcontents]
    exact hn.exact
  · intro s' hs'
    obtain ⟨i, hi⟩ := getElem?_of_mem hs'
    obtain ⟨s, hs, hkey, hhead⟩ := hslot i s' hi
    rw [hkey, hhead]
    exact hn.heads s (mem_of_getElem? hs)
  · constructor
    · exact hn.hints.length
    intro i hi s' hs'
    have hdist : (n.modifyPayload pos f).dist = n.dist := by rw [dist, dist, hcount]
    rw [hdist] at hs'
    obtain ⟨s, hs, -, hhead⟩ := hslot _ s' hs'
    rw [hhead]
    exact hn.hints.head i hi s hs
  · rw [hcontents, space_modifyPayload]
    exact hn.space
  · rw [hcount]
    exact hn.slots_le
  · exact hn.data_le

end Node

/-! ## Another child -/

namespace Contents

variable {κ : Type*} {c : Contents κ} {A B : List (Record κ)} {x : κ} {lower upper : Option Key}

/-- Another child in its place. -/
def setChild (c : Contents κ) (A : List (Record κ)) (y : κ) : List (Record κ) → Contents κ
  | [] => { c with upper := some y }
  | r :: B => { c with records := A ++ { r with payload := y } :: B }

/-- A child with a record of its own is its payload. -/
lemma setChild_cons {r : Record κ} (h : c.ChildAt A (r :: B) x lower upper) (y : κ) :
    c.setChild A y (r :: B) = c.modifyPayload A.length fun _ => y := by
  rw [setChild, modifyPayload, h.records, ListCut.modify_cut]

variable (h : c.ChildAt A B x lower upper)
include h

lemma keys_setChild (y : κ) : (c.setChild A y B).keys = c.keys := by
  cases B with
  | nil => rfl
  | cons r B => rw [setChild_cons h, keys_modifyPayload]

lemma children_setChild (y : κ) :
    (c.setChild A y B).children = A.map payload ++ y :: c.childrenBehind B := by
  cases B with
  | nil => simp [children, childrenBehind, setChild, h.records]
  | cons r B => simp [children, childrenBehind, setChild]

lemma ChildAt.exists_setChild (y : κ) : ∃ B', (c.setChild A y B).ChildAt A B' y lower upper := by
  have hupper := h.upper
  cases B with
  | nil => exact ⟨[], h.records, rfl, h.lower, hupper⟩
  | cons r B => exact ⟨{ r with payload := y } :: B, rfl, rfl, h.lower, hupper⟩

lemma size_setChild (y : κ) : (c.setChild A y B).size = c.size := by
  cases B with
  | nil => rfl
  | cons r B =>
    rw [setChild_cons h, size, space_modifyPayload, size, modifyPayload, length_modify]

end Contents

namespace Node

variable {κ : Type*} {n : Node κ} {A B : List (Record κ)} {x : κ} {lower upper : Option Key}

/-- The position of the child for a key. -/
def childPos (n : Node κ) (key : Key) : ℕ := (n.lowerBound false key).1.toNat

/-- The page behind the swip at a position is another one now. -/
def setChild (n : Node κ) (pos : ℕ) (child : κ) : Node κ :=
  if pos = n.count then { n with upper := some child }
  else { n with slots := n.slots.modify pos fun s => { s with payload := child } }

lemma count_setChild (n : Node κ) (pos : ℕ) (y : κ) : (n.setChild pos y).count = n.count := by
  rw [setChild]
  split
  · rfl
  · exact length_modify ..

lemma contents_setChild (h : n.contents.ChildAt A B x lower upper) (y : κ) :
    (n.setChild A.length y).contents = n.contents.setChild A y B := by
  have hlen : n.count = A.length + B.length := by
    rw [← length_records, h.records, length_append]
  cases B with
  | nil =>
    rw [setChild, if_pos (by simpa using hlen.symm)]
    rfl
  | cons r B =>
    rw [setChild, if_neg (by simp [hlen]), setChild_cons h]
    exact contents_modifyPayload n A.length fun _ => y

/-- A page keeps its bytes when the page behind a swip changes. -/
lemma Page.setChild (hn : n.Page) (hinner : n.isLeaf = false) (pos : ℕ) (y : κ) :
    (n.setChild pos y).Page := by
  rw [Node.setChild]
  split
  · have hvalid : ({ n.contents with upper := some y } : Contents κ).Valid := by
      refine { hn.valid with hasUpper := ?_ }
      have hleaf : n.contents.isLeaf = false := hinner
      simp [hleaf]
    exact ⟨hvalid, hn.exact, hn.heads, ⟨hn.hints.length, hn.hints.head⟩, hn.space, hn.slots_le, hn.data_le⟩
  · exact hn.modifyPayload pos fun _ => y

end Node

namespace Tree.WellFormed

variable {h : ℕ} {n : Tree (h + 1)} {key : Key}

/-- **The child of a key**, and its place. -/
lemma exists_childPos (hn : n.WellFormed) (hkey : n.InFences key) :
    ∃ A B, ∃ c : Tree h, n.contents.ChildAt A B c c.lowerFence c.upperFence ∧ c.WellFormed ∧
      c.InFences key ∧ n.lookupInner key = some c ∧ n.childPos key = A.length := by
  obtain ⟨A, B, c, hat, hc, hin, hlookup⟩ := hn.exists_child hkey
  refine ⟨A, B, c, hat, hc, hin, hlookup, ?_⟩
  rw [Node.childPos, Node.lowerBound_childAt hn.page hat hin.1 hin.2, Int.toNat_natCast]

variable {A B : List (Record (Tree h))} {c c' : Tree h} {lower upper : Option Key}

lemma leaves_eq (hat : n.contents.ChildAt A B c lower upper) :
    n.leaves = (A.map payload).flatMap leaves ++ c.leaves ++
      (n.contents.childrenBehind B).flatMap leaves := by
  rw [leaves_succ, hat.children_eq, flatMap_append, flatMap_cons, append_assoc]

/-- **A child exchanged for one with the same fences.** -/
lemma setChild (hn : n.WellFormed) (hat : n.contents.ChildAt A B c c.lowerFence c.upperFence)
    (hc' : c'.WellFormed) (hlower : c'.lowerFence = c.lowerFence)
    (hupper : c'.upperFence = c.upperFence) :
    WellFormed (h := h + 1) (n.setChild A.length c') := by
  have hcontents := Node.contents_setChild hat c'
  have hchildren := children_setChild hat c'
  have hold := hat.children_eq
  refine ⟨hn.page.setChild hn.2.1 A.length c', ?_, ?_, ?_⟩
  · have hinner := hn.2.1
    rw [Node.setChild]
    split <;> exact hinner
  · have htiles := hn.fenced
    rw [Contents.Fenced, hold] at htiles
    rw [hcontents, Contents.Fenced, hchildren, keys_setChild hat]
    have hlo : (n.contents.setChild A c' B).lowerFence = n.contents.lowerFence := by cases B <;> rfl
    have hup : (n.contents.setChild A c' B).upperFence = n.contents.upperFence := by cases B <;> rfl
    rw [hlo, hup]
    refine ⟨?_, ?_⟩
    · rw [← htiles.lower, map_append, map_append, map_cons, map_cons, hlower]
    · rw [← htiles.upper, map_append, map_append, map_cons, map_cons, hupper]
  · intro z hz
    rw [hcontents, hchildren, mem_append, mem_cons] at hz
    have hmem : ∀ z, z ∈ A.map payload ∨ z ∈ n.contents.childrenBehind B →
        z ∈ n.contents.children := by
      intro z hz
      rw [hold, mem_append, mem_cons]
      tauto
    rcases hz with hz | rfl | hz
    · exact hn.child (hmem z (.inl hz))
    · exact hc'
    · exact hn.child (hmem z (.inr hz))

lemma fences_setChild (n : Tree (h + 1)) (pos : ℕ) (c' : Tree h) :
    (n.setChild pos c').lowerFence = n.lowerFence ∧ (n.setChild pos c').upperFence = n.upperFence := by
  rw [Node.setChild]
  split <;> exact ⟨rfl, rfl⟩

lemma leaves_setChild (hat : n.contents.ChildAt A B c lower upper) (c' : Tree h) :
    leaves (h := h + 1) (n.setChild A.length c') = (A.map payload).flatMap leaves ++ c'.leaves ++
      (n.contents.childrenBehind B).flatMap leaves := by
  rw [leaves_succ, Node.contents_setChild hat, children_setChild hat, flatMap_append,
    flatMap_cons, append_assoc]

end Tree.WellFormed

/-! ## Two children in the place of one -/

namespace Tree.WellFormed

variable {h : ℕ} {n : Tree (h + 1)} {key : Key} {A B : List (Record (Tree h))} {c left right : Tree h}
  {sep : Key}

lemma of_contents {m : Tree (h + 1)} (hn : n.WellFormed) (hm : m.Page) (heq : m.contents = n.contents) :
    m.WellFormed := by
  have hinner : m.contents.isLeaf = false := by
    rw [heq]
    exact hn.2.1
  refine ⟨hm, hinner, ?_, ?_⟩
  · rw [heq]
    exact hn.fenced
  · rw [heq]
    exact hn.2.2.2

lemma leaves_congr {m : Tree (h + 1)} (heq : m.contents = n.contents) : m.leaves = n.leaves := by
  rw [leaves_succ, leaves_succ, heq]

/-- The child of a key is the one between whose fences it is. -/
lemma lookupInner_of_mem (hn : n.WellFormed) (hc : c ∈ n.contents.children) (hkey : c.InFences key) :
    n.lookupInner key = some c := by
  obtain ⟨X, Y, hXY⟩ := append_of_mem hc
  obtain ⟨A, B, -, -, hat⟩ := hn.fenced.childAt hXY
  exact Node.lookupInner_eq hn.page hat hkey.1 hkey.2

/-- The page after a child is exchanged for two, with a separator between them. -/
lemma page_splitChild (hn : n.WellFormed) (left right : Tree h)
    (hat : n.contents.ChildAt A B c c.lowerFence c.upperFence)
    (hlower : ∀ l ∈ c.lowerFence, l < sep) (hupper : ∀ u ∈ c.upperFence, sep < u)
    (hroom : n.canInsert sep.length swipSize = true) :
    let m : Tree (h + 1) := (n.setChild A.length right).insert sep left swipSize
    m.Page ∧ m.isLeaf = false ∧ m.lowerFence = n.lowerFence ∧ m.upperFence = n.upperFence ∧
      m.contents.children = A.map payload ++ left :: right :: n.contents.childrenBehind B ∧
      m.contents.keys = A.map Record.key ++ sep :: B.map Record.key := by
  intro m
  have hset := Node.contents_setChild hat right
  have hpage := hn.page.setChild hn.2.1 A.length right
  obtain ⟨B', hat'⟩ := hat.exists_setChild right
  rw [← hset] at hat'
  have hinner : (n.setChild A.length right).isLeaf = false := by
    have hleaf := hn.2.1
    rw [Node.setChild]
    split <;> exact hleaf
  have hroom' : (n.setChild A.length right).canInsert sep.length swipSize = true := by
    have hshared : (n.setChild A.length right).prefixLength = n.prefixLength := by
      rw [Node.setChild]
      split <;> rfl
    rw [hpage.canInsert_iff, hset, size_setChild hat right, hshared]
    exact (hn.page.canInsert_iff _ _).1 hroom
  obtain ⟨hmpage, hmcontents⟩ := hpage.insert
    (hat'.accepts hpage.valid hinner hlower hupper left) hroom'
  have hcut := insert_of_cut (r := ⟨sep, left, swipSize⟩) hat'.records
    (fun r hr => hat'.lt_of_mem_left hpage.valid hlower hr)
    (fun r hr => by
      obtain ⟨u, hu, hle⟩ := hat'.exists_le_of_mem_right hpage.valid hr
      exact ((hupper u hu).trans_le hle).le)
  have hm : m.contents = { n.contents.setChild A right B with
      records := A ++ ⟨sep, left, swipSize⟩ :: B' } := by
    rw [hmcontents, hcut, hset]
  obtain ⟨hlo, hup⟩ := fences_setChild n A.length right
  refine ⟨hmpage, ?_, ?_, ?_, ?_, ?_⟩
  · have hleaf : m.contents.isLeaf = (n.setChild A.length right).contents.isLeaf := by rw [hmcontents]; rfl
    exact hleaf.trans hinner
  · rw [← hlo]
    exact Node.lowerFence_eq hmcontents
  · rw [← hup]
    exact Node.upperFence_eq hmcontents
  · have hold := children_setChild hat right
    rw [children, ← hset, hat'.records, map_append, append_assoc] at hold
    have htail := (append_inj hold rfl).2
    rw [hm, children, map_append, map_cons, append_assoc, cons_append,
      ← htail, hset]
  · have hold := keys_setChild hat right
    rw [← hset, hat'.keys_eq, hat.keys_eq] at hold
    rw [Contents.keys, hm, map_append, map_cons, (append_inj hold rfl).2]

/-- **A child exchanged for two**, with a separator between them. -/
lemma splitChild (hn : n.WellFormed) (hat : n.contents.ChildAt A B c c.lowerFence c.upperFence)
    (hleft : left.WellFormed) (hright : right.WellFormed)
    (hleftf : left.lowerFence = c.lowerFence ∧ left.upperFence = some sep)
    (hrightf : right.lowerFence = some sep ∧ right.upperFence = c.upperFence)
    (hlower : ∀ l ∈ c.lowerFence, l < sep) (hupper : ∀ u ∈ c.upperFence, sep < u)
    (hroom : n.canInsert sep.length swipSize = true) :
    let m : Tree (h + 1) := (n.setChild A.length right).insert sep left swipSize
    m.WellFormed ∧ m.lowerFence = n.lowerFence ∧ m.upperFence = n.upperFence ∧
      m.contents.children = A.map payload ++ left :: right :: n.contents.childrenBehind B ∧
      m.contents.keys = A.map Record.key ++ sep :: B.map Record.key := by
  intro m
  obtain ⟨hpage, hinner, hlo, hup, hchildren, hkeys⟩ :=
    hn.page_splitChild left right hat hlower hupper hroom
  refine ⟨⟨hpage, hinner, ?_, ?_⟩, hlo, hup, hchildren, hkeys⟩
  · have htiles := hn.fenced
    rw [Contents.Fenced, hat.children_eq] at htiles
    obtain ⟨K, K', hK, hcutc⟩ := htiles.cut
    have hlen : A.map key = K ∧ B.map key = K' := by
      rw [hat.keys_eq] at hK
      refine append_inj hK ?_
      rw [hcutc.length_eq, length_map, length_map]
    have hrow : Tiles Node.lowerFence Node.upperFence c.lowerFence [sep] c.upperFence [left, right] := by
      constructor
      · simp [hleftf.1, hrightf.1]
      · simp [hleftf.2, hrightf.2]
    have hnew := hcutc.replace hrow
    rw [Contents.Fenced, hchildren, hkeys, hlen.1, hlen.2]
    have hlo' : m.contents.lowerFence = n.contents.lowerFence := hlo
    have hup' : m.contents.upperFence = n.contents.upperFence := hup
    rw [hlo', hup']
    simpa using hnew
  · intro z hz
    have hold := hat.children_eq
    rw [hchildren] at hz
    simp only [mem_append, mem_cons] at hz
    rcases hz with hz | rfl | rfl | hz
    · exact hn.child (by rw [hold]; exact mem_append_left _ hz)
    · exact hleft
    · exact hright
    · exact hn.child (by rw [hold]; exact mem_append_right _ (mem_cons_of_mem _ hz))

end Tree.WellFormed

end TwoTree.BTree
