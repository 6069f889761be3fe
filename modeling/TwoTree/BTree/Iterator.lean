import TwoTree.BTree.Tree
import TwoTree.Lib.Walk

/-!
# Iterators and scans

`BTreePessimisticIterator` and the scans of `BTreeLL`.  An iterator holds a leaf and a position in it; it
reaches the next leaf by a descent with the upper fence of its leaf, extended by a zero byte, and the
one before by a descent with the lower fence.  Both are copied into a buffer of 1024 bytes on the way,
and so is every key that is handed to the callback.  Longer keys are written behind the end of the
iterator, after which nothing is known; the model has no result then.

A scan is therefore compared with a list of steps (`Lib.Visit.Step`), each with the bytes it writes.
`next` and `prev` are shown to reach the next record of such a list (`next_arrives`, `prev_arrives`),
and a loop over an iterator that does so walks through the list (`scanLoop_eq`).  For the ascending scan
these are the steps over all records from the start key on.  In the descending scan `prev` returns the
last record of the leaf before only if its key is the fence; otherwise the position is moved in front
of it, and moved once more before `prev` returns.
-/

namespace TwoTree.BTree

open Lib Lib.Tiling Lib.Visit List Node

/-! ## The code -/

/-- The bytes of `buffer`. -/
def bufferSize : ℕ := 1024

/-- `BTreePessimisticIterator`: the leaf that is latched, and the position in it. -/
structure Iterator where
  leaf : Leaf
  cur : ℤ

namespace Node

/-- The full key at a position of a leaf. -/
def fullKeyAt (leaf : Leaf) (pos : ℤ) : Option Key :=
  if 0 ≤ pos then leaf.slots[pos.toNat]?.map leaf.fullKey else none

end Node

namespace Iterator

variable (t : BTreeGeneric)

/-- A new iterator; there is no leaf yet. -/
def fresh : Iterator := ⟨{ isLeaf := true }, -1⟩

/-- The leaf in which a seek looks for a key. -/
def latch (it : Iterator) (key : Key) : Option Leaf :=
  if it.cur = -1 ∨ it.leaf.compareKeyWithBoundaries key ≠ 0 then t.findLeaf key else some it.leaf

/-- `next`. -/
def next (t : BTreeGeneric) : ℕ → Iterator → Option (Iterator × OpResult)
  | 0, _ => none
  | fuel + 1, it =>
    if it.cur + 1 < it.leaf.count then some ({ it with cur := it.cur + 1 }, .ok)
    else
      match it.leaf.upperFence with
      | none => some (it, .notFound)
      | some fence =>
        if fence.length + 1 ≤ bufferSize then
          (t.findLeaf (fence ++ [0])).bind fun leaf =>
            if leaf.count = 0 then next t fuel { it with leaf := leaf }
            else
              let cur := (leaf.lowerBound false (fence ++ [0])).1
              if cur = leaf.count then next t fuel ⟨leaf, cur⟩ else some (⟨leaf, cur⟩, .ok)
        else none

/-- `prev`; a position in front of which nothing was found is not returned, but moved once more. -/
def prev (t : BTreeGeneric) : ℕ → Iterator → Option (Iterator × OpResult)
  | 0, _ => none
  | fuel + 1, it =>
    if 0 ≤ it.cur - 1 then some ({ it with cur := it.cur - 1 }, .ok)
    else
      match it.leaf.lowerFence with
      | none => some (it, .notFound)
      | some fence =>
        if fence.length ≤ bufferSize then
          (t.findLeaf fence).bind fun leaf =>
            if leaf.count = 0 then prev t fuel { it with leaf := leaf }
            else
              let (cur, isEqual) := leaf.lowerBound false fence
              if isEqual then some (⟨leaf, cur⟩, .ok)
              else if 0 < cur then prev t fuel ⟨leaf, cur - 1⟩
              else prev t fuel ⟨leaf, cur⟩
        else none

/-- `seek`. -/
def seek (fuel : ℕ) (it : Iterator) (key : Key) : Option (Iterator × OpResult) :=
  (it.latch t key).bind fun leaf =>
    let cur := (leaf.lowerBound false key).1
    if cur < leaf.count then some (⟨leaf, cur⟩, .ok) else next t fuel ⟨leaf, cur⟩

/-- `seekForPrev`. -/
def seekForPrev (fuel : ℕ) (it : Iterator) (key : Key) : Option (Iterator × OpResult) :=
  (it.latch t key).bind fun leaf =>
    let (cur, isEqual) := leaf.lowerBound false key
    if isEqual then some (⟨leaf, cur⟩, .ok)
    else if cur = 0 then prev t fuel ⟨leaf, cur⟩
    else some (⟨leaf, cur - 1⟩, .ok)

/-- `key`: the full key, as it is copied into the buffer. -/
def key (it : Iterator) : Option Key :=
  (it.leaf.fullKeyAt it.cur).filter fun key => key.length ≤ bufferSize

/-- `value`. -/
def value (it : Iterator) : Option (List UInt8) := it.leaf.payloadAt it.cur

end Iterator

section Scans

variable {σ : Type*}

/-- The loop of a scan, with `next` or `prev`. -/
def scanLoop (advance : ℕ → Iterator → Option (Iterator × OpResult))
    (callback : Callback σ Key (List UInt8)) : ℕ → Iterator → σ → Option (σ × OpResult)
  | 0, _, _ => none
  | fuel + 1, it, s =>
    it.key.bind fun key => it.value.bind fun value =>
      let (s, more) := callback s key value
      if more then
        (advance fuel it).bind fun (it, ret) =>
          if ret = .ok then scanLoop advance callback fuel it s else some (s, .notFound)
      else some (s, .ok)

/-- A scan: the seek, and if it finds a record the loop. -/
def scanFrom (advance : ℕ → Iterator → Option (Iterator × OpResult))
    (callback : Callback σ Key (List UInt8)) (fuel : ℕ) (s : σ)
    (found : Option (Iterator × OpResult)) : Option (σ × OpResult) :=
  found.bind fun (it, ret) =>
    if ret = .ok then scanLoop advance callback fuel it s else some (s, ret)

namespace BTreeGeneric

/-- `BTreeLL::scanAsc`. -/
def scanAsc (t : BTreeGeneric) (start : Key) (callback : Callback σ Key (List UInt8)) (fuel : ℕ)
    (s : σ) : Option (σ × OpResult) :=
  scanFrom (Iterator.next t) callback fuel s (Iterator.fresh.seek t fuel start)

/-- `BTreeLL::scanDesc`. -/
def scanDesc (t : BTreeGeneric) (start : Key) (callback : Callback σ Key (List UInt8)) (fuel : ℕ)
    (s : σ) : Option (σ × OpResult) :=
  scanFrom (Iterator.prev t) callback fuel s (Iterator.fresh.seekForPrev t fuel start)

end BTreeGeneric

end Scans

/-! ## A loop over an iterator walks -/

/-- What a scan returns. -/
def OpResult.ofExhausted (exhausted : Bool) : OpResult := if exhausted then .notFound else .ok

/-- What is returned where the steps from the next record on are the given ones. -/
def Arrives (At : Iterator → List (Step Key (List UInt8)) → Prop)
    (returned : Option (Iterator × OpResult)) : Option (List (Step Key (List UInt8))) → Prop
  | none => returned = none
  | some [] => ∃ it, returned = some (it, .notFound)
  | some (x :: l) => ∃ it, returned = some (it, .ok) ∧ At it (x :: l)

/-- The step of a record: its key is written. -/
def recordStep (e : Key × List UInt8) : Step Key (List UInt8) := (e.1.length, some e)

/-- **An iterator over steps**: at a record it holds its key and value, and to advance is to reach the
next record. -/
structure Walks (advance : ℕ → Iterator → Option (Iterator × OpResult))
    (At Before : Iterator → List (Step Key (List UInt8)) → Prop) : Prop where
  record : ∀ it x l, At it (x :: l) → ∃ e, x = recordStep e ∧
    it.leaf.fullKeyAt it.cur = some e.1 ∧ it.leaf.payloadAt it.cur = some e.2 ∧ Before it l
  arrives : ∀ fuel it l, Before it l → l.length < fuel →
    Arrives At (advance fuel it) (reach bufferSize l)

section Loop

variable {σ : Type*} {advance : ℕ → Iterator → Option (Iterator × OpResult)}
  {At Before : Iterator → List (Step Key (List UInt8)) → Prop}
  {callback : Callback σ Key (List UInt8)} {s : σ} {l : List (Step Key (List UInt8))} {it : Iterator}
  {fuel : ℕ}

/-- What is done with the record that was reached. -/
lemma Arrives.bind_eq {found : Option (Iterator × OpResult)}
    (h : Arrives At found (reach bufferSize l))
    {f : Iterator × OpResult → Option (σ × OpResult)}
    (hend : ∀ it, f (it, .notFound) = some (s, .notFound))
    (hat : ∀ it x left, reach bufferSize l = some (x :: left) → At it (x :: left) →
      f (it, .ok) = (walk bufferSize callback s (x :: left)).map (Prod.map id OpResult.ofExhausted)) :
    found.bind f = (walk bufferSize callback s l).map (Prod.map id OpResult.ofExhausted) := by
  rw [walk_eq_bind_reach]
  rcases hreach : reach bufferSize l with _ | _ | ⟨x, left⟩
  · rw [hreach] at h
    have hnone : found = none := h
    simp [hnone]
  · rw [hreach] at h
    obtain ⟨it, rfl⟩ := h
    simp [hend, walk, OpResult.ofExhausted]
  · rw [hreach] at h
    obtain ⟨it, rfl, hit⟩ := h
    exact hat it x left hreach hit

/-- **The loop walks through the steps.** -/
lemma scanLoop_eq (h : Walks advance At Before) {x : Step Key (List UInt8)} (hat : At it (x :: l))
    (hfuel : (x :: l).length < fuel) :
    scanLoop advance callback fuel it s =
      (walk bufferSize callback s (x :: l)).map (Prod.map id OpResult.ofExhausted) := by
  induction fuel generalizing it x l s with
  | zero => exact absurd hfuel (Nat.not_lt_zero _)
  | succ fuel ih =>
    obtain ⟨⟨k, v⟩, rfl, hkey, hvalue, hbefore⟩ := h.record it x l hat
    have hlength : l.length < fuel := Nat.lt_of_succ_lt_succ hfuel
    rw [scanLoop, Iterator.key, Iterator.value, hkey, hvalue, recordStep, walk]
    by_cases hfits : k.length ≤ bufferSize
    · rw [if_pos hfits, Option.filter_some_pos (by simpa using hfits), Option.bind_some,
        Option.bind_some]
      rcases callback s k v with ⟨s', _ | _⟩
      · rfl
      · simp only [if_true]
        exact (h.arrives fuel it l hbefore hlength).bind_eq (fun _ => rfl) fun _ _ _ hreach hat' =>
          ih hat' ((length_le_of_reach hreach).trans_lt hlength)
    · rw [if_neg hfits, Option.filter_some_neg (by simpa using hfits)]
      rfl

lemma scanFrom_eq (h : Walks advance At Before) {found : Option (Iterator × OpResult)}
    (harrives : Arrives At found (reach bufferSize l)) (hfuel : l.length < fuel) :
    scanFrom advance callback fuel s found =
      (walk bufferSize callback s l).map (Prod.map id OpResult.ofExhausted) :=
  harrives.bind_eq (fun _ => rfl) fun _ _ _ hreach hat =>
    scanLoop_eq h hat ((length_le_of_reach hreach).trans_lt hfuel)

end Loop

/-! ## The steps of the ascending scan -/

namespace Node

/-- The steps through a leaf from a position on, and to the next one. -/
def stepsFrom (leaf : Leaf) (pos : ℕ) : List (Step Key (List UInt8)) :=
  (leaf.entries.drop pos).map recordStep ++
    (leaf.upperFence.map fun fence => (fence.length + 1, none)).toList

lemma fullKeyAt_eq (leaf : Leaf) (i : ℕ) : leaf.fullKeyAt i = leaf.entries[i]?.map Prod.fst := by
  rw [fullKeyAt, if_pos (Int.natCast_nonneg i), Int.toNat_natCast, entries, contents]
  simp [record, Function.comp_def]

lemma length_entries (leaf : Leaf) : leaf.entries.length = leaf.count := by
  rw [entries, length_map, length_records]

lemma stepsFrom_of_lt {leaf : Leaf} {pos : ℕ} (hpos : pos < leaf.count) :
    ∃ e, leaf.entries[pos]? = some e ∧ leaf.stepsFrom pos = recordStep e :: leaf.stepsFrom (pos + 1) := by
  rw [← length_entries] at hpos
  refine ⟨leaf.entries[pos], getElem?_eq_getElem hpos, ?_⟩
  rw [stepsFrom, drop_eq_getElem_cons hpos]
  rfl

lemma stepsFrom_of_le {leaf : Leaf} {pos : ℕ} (hpos : leaf.count ≤ pos) :
    leaf.stepsFrom pos = (leaf.upperFence.map fun fence => (fence.length + 1, none)).toList := by
  rw [← length_entries] at hpos
  rw [stepsFrom, drop_eq_nil_of_le hpos, map_nil, nil_append]

end Node

namespace Iterator

variable (t : BTreeGeneric)

/-- The steps from a position of a leaf to the end of the tree. -/
def StepsAt (leaf : Leaf) (pos : ℕ) (l : List (Step Key (List UInt8))) : Prop :=
  ∃ X Y, t.leaves = X ++ leaf :: Y ∧ l = leaf.stepsFrom pos ++ Y.flatMap fun m => m.stepsFrom 0

/-- The iterator is at the first of the steps, a record. -/
def AtStep (it : Iterator) (l : List (Step Key (List UInt8))) : Prop :=
  ∃ pos : ℕ, it.cur = pos ∧ pos < it.leaf.count ∧ StepsAt t it.leaf pos l

/-- The iterator is before the first of the steps. -/
def BeforeStep (it : Iterator) (l : List (Step Key (List UInt8))) : Prop :=
  ∃ pos : ℕ, it.cur + 1 = pos ∧ StepsAt t it.leaf pos l

variable {t} {it : Iterator} {fuel : ℕ} {l : List (Step Key (List UInt8))}

/-- There is a record at the first of the steps. -/
lemma atStep_of_lt {leaf : Leaf} {pos : ℕ} {X Y : List Leaf} (hl : t.leaves = X ++ leaf :: Y)
    (hpos : pos < leaf.count) :
    Arrives (AtStep t) (some (⟨leaf, pos⟩, .ok)) (reach bufferSize
      (leaf.stepsFrom pos ++ Y.flatMap fun m => m.stepsFrom 0)) := by
  obtain ⟨e, -, hsteps⟩ := stepsFrom_of_lt hpos
  have hat : AtStep t ⟨leaf, pos⟩ (leaf.stepsFrom pos ++ Y.flatMap fun m => m.stepsFrom 0) :=
    ⟨pos, rfl, hpos, X, Y, hl, rfl⟩
  rw [hsteps] at hat ⊢
  exact ⟨_, rfl, hat⟩

variable (h : t.WellFormed)
include h

lemma behind_eq_nil {X Y : List Leaf} {leaf : Leaf}
    (hl : t.leaves = X ++ leaf :: Y) (hupper : leaf.upperFence = none) : Y = [] := by
  obtain ⟨ks, htiles⟩ := h.tiles_leaves
  rw [hl] at htiles
  obtain ⟨K, K', -, hcut⟩ := htiles.cut
  cases Y with
  | nil => rfl
  | cons m Y' =>
    obtain ⟨k, -, -, hu, -⟩ := hcut.exists_bound
    rw [hupper] at hu
    exact absurd hu (by simp)

/-- The next key after the upper fence of a leaf belongs into the leaf behind it. -/
lemma inFences_next {m : Leaf} (hm : m ∈ t.leaves) {fence : Key}
    (hlower : m.lowerFence = some fence) : m.InFences (fence ++ [0]) := by
  have hnext := ByteOrder.append_singleton_le_iff (z := (0 : UInt8)) (fun a => UInt8.zero_le)
  constructor
  · intro lower hmem
    obtain rfl : fence = lower := by simpa [hlower] using hmem
    exact (hnext _ _).1 (le_refl _)
  · intro upper hmem
    exact (hnext _ _).2 ((h.page hm).valid.fences fence (by simp [contents, hlower]) upper hmem)

/-- There the search ends at the first slot. -/
lemma lowerBound_next {m : Leaf} (hm : m ∈ t.leaves) {fence : Key}
    (hlower : m.lowerFence = some fence) : (m.lowerBound false (fence ++ [0])).1 = 0 := by
  have hpage := h.page hm
  rw [lowerBound_false hpage.wf (inFences_next h hm hlower)]
  have hfind : (m.fullKeys.findIdx fun k => fence ++ [0] ≤ k) = ([] : List Key).length := by
    refine ListCut.findIdx_append (A := []) (by simp) ?_
    intro k hk
    have hlt := (hpage.wf.within k (mem_of_mem_head? hk)).1 fence (by simp [hlower])
    exact (ByteOrder.append_singleton_le_iff (fun a => UInt8.zero_le) _ _).2 hlt
  simpa using hfind

/-- **`next` reaches the next record**, past empty leaves. -/
lemma next_arrives (hbefore : BeforeStep t it l) (hfuel : l.length < fuel) :
    Arrives (AtStep t) (next t fuel it) (reach bufferSize l) := by
  induction fuel generalizing it l with
  | zero => exact absurd hfuel (Nat.not_lt_zero _)
  | succ fuel ih =>
    obtain ⟨pos, hcur, X, Y, hl, rfl⟩ := hbefore
    rw [next]
    by_cases hpos : pos < it.leaf.count
    · rw [if_pos (by omega), hcur]
      exact atStep_of_lt hl hpos
    rw [if_neg (by omega)]
    rw [stepsFrom_of_le (not_lt.1 hpos)] at hfuel ⊢
    cases hfence : it.leaf.upperFence with
    | none =>
      obtain rfl := behind_eq_nil h hl hfence
      exact ⟨it, rfl⟩
    | some fence =>
      obtain ⟨m, Y', rfl, hlower⟩ := h.exists_next hl hfence
      have hm : m ∈ t.leaves := by simp [hl]
      have hl' : t.leaves = (X ++ [it.leaf]) ++ m :: Y' := by simp [hl]
      simp only [hfence, Option.map_some, Option.toList_some, singleton_append,
        flatMap_cons, length_cons] at hfuel ⊢
      have hfuel' := Nat.lt_of_succ_lt_succ hfuel
      rw [reach]
      by_cases hfits : fence.length + 1 ≤ bufferSize
      · rw [if_pos hfits, if_pos hfits, h.findLeaf_of_inFences hl' (inFences_next h hm hlower),
          Option.bind_some, lowerBound_next h hm hlower]
        by_cases hcount : m.count = 0
        · -- the position is left as it was, and is behind the end of the empty leaf
          rw [if_pos hcount]
          have hempty : m.stepsFrom 0 = m.stepsFrom pos := by
            rw [stepsFrom_of_le hcount.le,
              stepsFrom_of_le (hcount.le.trans (Nat.zero_le pos))]
          exact ih ⟨pos, hcur, X ++ [it.leaf], Y', hl', by rw [hempty]⟩ hfuel'
        · rw [if_neg hcount, if_neg (by omega)]
          exact atStep_of_lt hl' (Nat.pos_of_ne_zero hcount)
      · rw [if_neg hfits, if_neg hfits]
        rfl

lemma walks_next : Walks (next t) (AtStep t) (BeforeStep t) where
  record := by
    rintro it x l ⟨pos, hcur, hpos, X, Y, hl, heq⟩
    obtain ⟨e, hget, hsteps⟩ := stepsFrom_of_lt hpos
    rw [hsteps, cons_append, List.cons.injEq] at heq
    refine ⟨e, heq.1, ?_, ?_, pos + 1, by simp [hcur], X, Y, hl, heq.2⟩
    · rw [hcur, fullKeyAt_eq, hget, Option.map_some]
    · rw [hcur, payloadAt_eq, hget, Option.map_some]
  arrives := fun _ _ _ hbefore hfuel => next_arrives h hbefore hfuel

end Iterator

section Ascending

/-- The steps through a leaf from a key on, and to the next leaf. -/
def Node.ascSteps (start : Key) (leaf : Leaf) : List (Step Key (List UInt8)) :=
  (leaf.entries.filter fun e => start ≤ e.1).map recordStep ++
    (leaf.upperFence.map fun fence => (fence.length + 1, none)).toList

namespace BTreeGeneric

/-- The entries from a key on. -/
def atOrAbove (t : BTreeGeneric) (start : Key) : List (Key × List UInt8) :=
  t.entries.filter fun e => start ≤ e.1

/-- **The steps of the ascending scan**: the records from the key on, and the upper fences. -/
def ascSteps (t : BTreeGeneric) (start : Key) : List (Step Key (List UInt8)) :=
  (t.leaves.dropWhile fun l => l.upperFence.any (· < start)).flatMap (Node.ascSteps start)

end BTreeGeneric

lemma keys_sorted_entries {leaf : Leaf} (h : leaf.Page) :
    (leaf.entries.map Prod.fst).Pairwise (· < ·) := by
  rw [keys_entries]
  exact h.wf.sorted

/-- They begin where `lowerBound` finds the key. -/
lemma Node.ascSteps_eq {leaf : Leaf} (h : leaf.Page) (start : Key) :
    leaf.ascSteps start = leaf.stepsFrom (leaf.fullKeys.findIdx fun k => start ≤ k) := by
  rw [ascSteps, stepsFrom, ListCut.filter_le_eq_drop (keys_sorted_entries h), keys_entries]

lemma records_map_recordStep (E : List (Key × List UInt8)) : records (E.map recordStep) = E := by
  rw [records, filterMap_map]
  exact filterMap_some

lemma records_ascSteps_leaf (start : Key) (leaf : Leaf) :
    records (leaf.ascSteps start) = leaf.entries.filter fun e => start ≤ e.1 := by
  rw [ascSteps, records_append, records_map_recordStep]
  cases leaf.upperFence <;> simp [records]

lemma records_flatMap_ascSteps (start : Key) (L : List Leaf) :
    records (L.flatMap (ascSteps start)) = (leafEntries L).filter fun e => start ≤ e.1 := by
  induction L with
  | nil => rfl
  | cons l L ih =>
    rw [flatMap_cons, records_append, ih, records_ascSteps_leaf, leafEntries_cons,
      filter_append]

namespace BTreeGeneric.WellFormed

variable {t : BTreeGeneric} {X Y : List Leaf} {l : Leaf} {start : Key}

/-- The first leaf that does not end below a key is the leaf of the key. -/
lemma dropWhile_leaves (h : t.WellFormed) (hl : t.leaves = X ++ l :: Y) (hstart : l.InFences start) :
    (t.leaves.dropWhile fun m => m.upperFence.any (· < start)) = l :: Y := by
  have hX : ∀ m ∈ X, (m.upperFence.any (· < start)) = true := by
    intro m hm
    obtain ⟨u, hu, hlt⟩ := h.upperFence_lt_of_mem_before hl hstart hm
    simpa [hu] using hlt
  have hnot : l.upperFence.any (· < start) = false := by
    cases hu : l.upperFence with
    | none => rfl
    | some u => simpa using hstart.2 u (by simp [hu])
  rw [hl, dropWhile_append_of_pos hX, dropWhile_cons_of_neg (by simp [hnot])]

lemma ascSteps_eq (h : t.WellFormed) (hl : t.leaves = X ++ l :: Y) (hstart : l.InFences start) :
    t.ascSteps start = l.stepsFrom (l.fullKeys.findIdx fun k => start ≤ k) ++
      Y.flatMap fun m => m.stepsFrom 0 := by
  have hY : ∀ m ∈ Y, m.ascSteps start = m.stepsFrom 0 := by
    intro m hm
    have hall : (m.entries.filter fun e => start ≤ e.1) = m.entries := by
      rw [filter_eq_self]
      intro e he
      exact decide_eq_true (h.lt_of_mem_behind hl hstart (mem_flatMap.2 ⟨m, hm, he⟩)).le
    rw [Node.ascSteps, Node.stepsFrom, hall, drop_zero]
  rw [ascSteps, h.dropWhile_leaves hl hstart, flatMap_cons,
    Node.ascSteps_eq (h.page (by simp [hl])), flatMap_congr hY]

lemma records_ascSteps (h : t.WellFormed) (start : Key) :
    records (t.ascSteps start) = t.atOrAbove start := by
  obtain ⟨X, l, Y, hl, -, hstart⟩ := h.findLeaf_eq start
  have hX : ((leafEntries X).filter fun e => start ≤ e.1) = [] := by
    rw [filter_eq_nil_iff]
    intro e he
    simpa using h.lt_of_mem_before hl hstart he
  rw [ascSteps, h.dropWhile_leaves hl hstart, records_flatMap_ascSteps, atOrAbove, entries, hl,
    leafEntries_append, filter_append, hX, nil_append]

lemma seek_arrives (h : t.WellFormed) (start : Key) {fuel : ℕ}
    (hfuel : (t.ascSteps start).length < fuel) :
    Arrives (Iterator.AtStep t) (Iterator.fresh.seek t fuel start)
      (reach bufferSize (t.ascSteps start)) := by
  obtain ⟨X, l, Y, hl, hfind, hstart⟩ := h.findLeaf_eq start
  have hpage : l.Page := h.page (by simp [hl])
  have hsteps := h.ascSteps_eq hl hstart
  have hle : (l.fullKeys.findIdx fun k => start ≤ k) ≤ l.count := by
    have hlength : l.fullKeys.length = l.count := length_map ..
    exact hlength ▸ findIdx_le_length
  rw [hsteps] at hfuel ⊢
  rw [Iterator.seek, Iterator.latch, if_pos (.inl rfl), hfind, Option.bind_some,
    lowerBound_false hpage.wf hstart]
  simp only []
  generalize (l.fullKeys.findIdx fun k => start ≤ k) = pos at hfuel hle ⊢
  by_cases hpos : pos < l.count
  · rw [if_pos (by omega)]
    exact Iterator.atStep_of_lt hl hpos
  · rw [if_neg (by omega)]
    refine Iterator.next_arrives h ⟨pos + 1, rfl, X, Y, hl, ?_⟩ hfuel
    rw [stepsFrom_of_le (not_lt.1 hpos), stepsFrom_of_le (by simp only; omega)]

/-- **The ascending scan walks through its steps.** -/
lemma scanAsc_eq {σ : Type*} (h : t.WellFormed) (start : Key)
    (callback : Callback σ Key (List UInt8)) (s : σ) {fuel : ℕ}
    (hfuel : (t.ascSteps start).length < fuel) :
    t.scanAsc start callback fuel s =
      (walk bufferSize callback s (t.ascSteps start)).map (Prod.map id OpResult.ofExhausted) :=
  scanFrom_eq (Iterator.walks_next h) (h.seek_arrives start hfuel) hfuel

end BTreeGeneric.WellFormed

end Ascending

/-- A scan that walks through steps returns a state if and only if what is written fits into the
buffer and the records of the steps lead to the state. -/
lemma exists_fuel_iff {σ : Type*} {scan : ℕ → Option (σ × OpResult)} {l : List (Step Key (List UInt8))}
    {callback : Callback σ Key (List UInt8)} {s s' : σ}
    (hscan : ∀ fuel, l.length < fuel →
      scan fuel = (walk bufferSize callback s l).map (Prod.map id OpResult.ofExhausted)) :
    (∃ n, ∀ fuel, n ≤ fuel → ∃ ret, scan fuel = some (s', ret)) ↔
      (∀ n ∈ writes callback s l, n ≤ bufferSize) ∧ visit callback s (records l) = s' := by
  rw [← walk_fst_eq_some_iff]
  constructor
  · rintro ⟨n, hn⟩
    obtain ⟨ret, hret⟩ := hn (max n (l.length + 1)) (le_max_left ..)
    rw [hscan _ (Nat.lt_of_succ_le (le_max_right ..)), Option.map_eq_some_iff] at hret
    obtain ⟨⟨s₁, exhausted⟩, hwalk, heq⟩ := hret
    obtain ⟨rfl, -⟩ := Prod.mk.inj heq
    rw [hwalk]
    rfl
  · intro hstate
    obtain ⟨⟨s₁, exhausted⟩, hwalk, rfl⟩ := Option.map_eq_some_iff.1 hstate
    refine ⟨l.length + 1, fun fuel hfuel => ⟨OpResult.ofExhausted exhausted, ?_⟩⟩
    rw [hscan fuel hfuel, hwalk]
    rfl

/-- **Ascending scans.**  For every well-formed tree and every start key, the records that the callback
has to be called on are those with a key at or above the start key, in strictly increasing order; the
scan terminates after it was called on exactly these, up to the one where it returned false, if and
only if every key it was to be called on and every upper fence passed, with one more byte, fits into the
1024 bytes of the iterator's buffer. -/
theorem BTreeGeneric.scanAsc_correct_iff {σ : Type*} (t : BTreeGeneric) (h : t.WellFormed)
    (start : Key) (callback : Callback σ Key (List UInt8)) (s : σ) :
    (t.atOrAbove start).Pairwise (fun e e' => e.1 < e'.1) ∧
    ((∃ n, ∀ fuel, n ≤ fuel → ∃ ret, t.scanAsc start (logged callback) fuel (s, []) =
        some ((visit callback s (t.atOrAbove start), visited callback s (t.atOrAbove start)), ret)) ↔
      ∀ n ∈ writes callback s (t.ascSteps start), n ≤ bufferSize) := by
  refine ⟨h.pairwise_entries.filter _, ?_⟩
  rw [exists_fuel_iff fun fuel hfuel => h.scanAsc_eq start (logged callback) (s, []) hfuel,
    writes_logged, h.records_ascSteps, visit_logged]
  exact and_iff_left rfl

/-- The theorem applies to a tree of two leaves: from `[1]` on there are both records. -/
theorem scanAsc_correct_iff_twoLeaves :
    ∃ n, ∀ fuel, n ≤ fuel → ∃ ret,
      (twoLeaves [1]).scanAsc [1] (logged fun s _ _ => (s, true)) fuel ((), []) =
        some (((), [([1], [10]), ([3], [30])]), ret) := by
  have hiff := ((twoLeaves [1]).scanAsc_correct_iff (wellFormed_twoLeaves (by decide) (by decide)) [1]
    (fun s _ _ => (s, true)) ()).2
  exact hiff.2 (by decide +kernel)

lemma leaves_twoLeaves (key : Key) :
    (twoLeaves key).leaves = [(firstLeaf key).pack.makeHint, secondLeaf.pack.makeHint] := rfl

lemma ascSteps_twoLeaves (key : Key) :
    ∃ l, (twoLeaves key).ascSteps [] = recordStep (key, [10]) :: l := by
  have hfirst : (firstLeaf key).pack.makeHint.entries = [(key, [10])] := rfl
  have hupper : (firstLeaf key).pack.makeHint.upperFence = some [2] := rfl
  have hle : [] ≤ key := not_lt.1 (not_lt_nil key)
  rw [BTreeGeneric.ascSteps, leaves_twoLeaves, dropWhile_cons_of_neg (by simp [hupper]),
    flatMap_cons, ascSteps, hfirst, filter_cons_of_pos (by simpa using hle),
    map_cons]
  exact ⟨_, rfl⟩

/-- A key of 1025 bytes is written behind the end of the buffer. -/
theorem scanAsc_overruns :
    (twoLeaves (zeros 1025)).WellFormed ∧
    ¬ ∃ n, ∀ fuel, n ≤ fuel → ∃ ret,
      (twoLeaves (zeros 1025)).scanAsc [] (logged fun s _ _ => (s, true)) fuel ((), []) =
        some ((visit (fun s _ _ => (s, true)) () ((twoLeaves (zeros 1025)).atOrAbove []),
          visited (fun s _ _ => (s, true)) () ((twoLeaves (zeros 1025)).atOrAbove [])), ret) := by
  have hwf : (twoLeaves (zeros 1025)).WellFormed := by
    refine wellFormed_twoLeaves (le_of_lt ?_) (by simp)
    exact cons_lt_cons_iff.2 (.inl (by decide))
  refine ⟨hwf, ?_⟩
  rw [exists_fuel_iff fun fuel hfuel => hwf.scanAsc_eq [] (logged _) ((), []) hfuel]
  rintro ⟨hwrites, -⟩
  obtain ⟨l, hl⟩ := ascSteps_twoLeaves (zeros 1025)
  rw [hl, recordStep, writes, length_zeros] at hwrites
  exact absurd (hwrites 1025 mem_cons_self) (by decide)

/-! ## The steps of the descending scan -/

namespace Node

/-- The steps back through a leaf from in front of a position, and to the leaf before. -/
def stepsTo (leaf : Leaf) (pos : ℕ) : List (Step Key (List UInt8)) :=
  (leaf.entries.take pos).reverse.map recordStep ++
    (leaf.lowerFence.map fun fence => (fence.length, none)).toList

/-- Where `prev` goes on in a leaf that it enters: the last record is passed over unless its key is the
fence. -/
def enterPos (leaf : Leaf) : ℕ :=
  if leaf.upperFence.any (· ∈ leaf.fullKeys) then leaf.count else leaf.count - 1

lemma stepsTo_succ {leaf : Leaf} {pos : ℕ} (hpos : pos < leaf.count) :
    ∃ e, leaf.entries[pos]? = some e ∧ leaf.stepsTo (pos + 1) = recordStep e :: leaf.stepsTo pos := by
  rw [← length_entries] at hpos
  refine ⟨leaf.entries[pos], getElem?_eq_getElem hpos, ?_⟩
  rw [stepsTo, take_succ_eq_append_getElem hpos, reverse_append]
  rfl

lemma stepsTo_zero (leaf : Leaf) :
    leaf.stepsTo 0 = (leaf.lowerFence.map fun fence => (fence.length, none)).toList := rfl

/-- The upper fence is found in the last slot, or nowhere. -/
lemma findIdx_upperFence {leaf : Leaf} (h : leaf.Page) {fence : Key}
    (hupper : leaf.upperFence = some fence) :
    (fence ∈ leaf.fullKeys → (leaf.fullKeys.findIdx fun k => fence ≤ k) + 1 = leaf.count) ∧
    (fence ∉ leaf.fullKeys → (leaf.fullKeys.findIdx fun k => fence ≤ k) = leaf.count) := by
  have hlength : leaf.fullKeys.length = leaf.count := length_map ..
  have hle : ∀ k ∈ leaf.fullKeys, k ≤ fence := fun k hk => (h.wf.within k hk).2 fence (by simp [hupper])
  rw [← hlength]
  constructor
  · intro hmem
    obtain ⟨A, B, hAB⟩ := append_of_mem hmem
    have hsorted := h.wf.sorted
    rw [hAB] at hsorted hle ⊢
    obtain ⟨-, hB, hA⟩ := pairwise_append.1 hsorted
    have hnil : B = [] := by
      refine eq_nil_iff_forall_not_mem.2 fun k hk => ?_
      exact absurd (hle k (by simp [hk])) (not_le.2 ((pairwise_cons.1 hB).1 k hk))
    subst hnil
    rw [ListCut.findIdx_append (fun a ha => hA a ha fence (by simp)) (by simp)]
    simp
  · intro hmem
    rw [findIdx_eq_length]
    intro k hk
    have hne : k ≠ fence := fun heq => hmem (heq ▸ hk)
    simpa using (hle k hk).lt_of_ne hne

end Node

namespace Iterator

variable (t : BTreeGeneric)

/-- The steps back from in front of a position of a leaf to the beginning of the tree. -/
def StepsBack (leaf : Leaf) (pos : ℕ) (l : List (Step Key (List UInt8))) : Prop :=
  ∃ X Y, t.leaves = X ++ leaf :: Y ∧
    l = leaf.stepsTo pos ++ X.reverse.flatMap fun m => m.stepsTo m.enterPos

/-- The iterator is at the first of the steps back, a record. -/
def AtStepBack (it : Iterator) (l : List (Step Key (List UInt8))) : Prop :=
  ∃ pos : ℕ, it.cur = pos ∧ pos < it.leaf.count ∧ StepsBack t it.leaf (pos + 1) l

/-- The iterator is behind the first of the steps back. -/
def BehindStep (it : Iterator) (l : List (Step Key (List UInt8))) : Prop :=
  ∃ pos : ℕ, it.cur = pos ∧ pos ≤ it.leaf.count ∧ StepsBack t it.leaf pos l

variable {t} {it : Iterator} {fuel : ℕ} {l : List (Step Key (List UInt8))}

lemma before_eq_nil (h : t.WellFormed) {X Y : List Leaf} {leaf : Leaf}
    (hl : t.leaves = X ++ leaf :: Y) (hlower : leaf.lowerFence = none) : X = [] := by
  obtain ⟨⟨ks, htiles⟩, -⟩ := h.tiles_cut hl
  rcases eq_nil_or_concat' X with rfl | ⟨X', m, rfl⟩
  · rfl
  rw [append_assoc, singleton_append] at htiles
  obtain ⟨K, K', -, hcut⟩ := htiles.cut
  obtain ⟨k, -, -, -, hlo⟩ := hcut.exists_bound
  rw [hlower] at hlo
  exact absurd hlo (by simp)

/-- The upper fence of a leaf belongs into it. -/
lemma inFences_upperFence (h : t.WellFormed) {m : Leaf} (hm : m ∈ t.leaves) {fence : Key}
    (hupper : m.upperFence = some fence) : m.InFences fence := by
  constructor
  · intro lower hlower
    exact (h.page hm).valid.fences lower hlower fence (by simp [contents, hupper])
  · intro upper hmem
    obtain rfl : fence = upper := by simpa [hupper] using hmem
    exact le_refl _

/-- There is a record at the first of the steps. -/
lemma atStepBack_of_lt {leaf : Leaf} {pos : ℕ} {X Y : List Leaf} (hl : t.leaves = X ++ leaf :: Y)
    (hpos : pos < leaf.count) :
    Arrives (AtStepBack t) (some (⟨leaf, pos⟩, .ok)) (reach bufferSize
      (leaf.stepsTo (pos + 1) ++ X.reverse.flatMap fun m => m.stepsTo m.enterPos)) := by
  obtain ⟨e, -, hsteps⟩ := stepsTo_succ hpos
  have hat : AtStepBack t ⟨leaf, pos⟩
      (leaf.stepsTo (pos + 1) ++ X.reverse.flatMap fun m => m.stepsTo m.enterPos) :=
    ⟨pos, rfl, hpos, X, Y, hl, rfl⟩
  rw [hsteps] at hat ⊢
  exact ⟨_, rfl, hat⟩

/-- **`prev` reaches the next of the steps back.** -/
lemma prev_arrives (h : t.WellFormed) (hbehind : BehindStep t it l) (hfuel : l.length < fuel) :
    Arrives (AtStepBack t) (prev t fuel it) (reach bufferSize l) := by
  induction fuel generalizing it l with
  | zero => exact absurd hfuel (Nat.not_lt_zero _)
  | succ fuel ih =>
    obtain ⟨pos, hcur, hle, X, Y, hl, rfl⟩ := hbehind
    rw [prev]
    cases pos with
    | succ pos =>
      have hback : it.cur - 1 = pos := by omega
      rw [if_pos (by omega), hback]
      exact atStepBack_of_lt hl hle
    | zero =>
      rw [if_neg (by omega)]
      rw [stepsTo_zero] at hfuel ⊢
      cases hfence : it.leaf.lowerFence with
      | none =>
        obtain rfl := before_eq_nil h hl hfence
        exact ⟨it, rfl⟩
      | some fence =>
        obtain ⟨X, m, rfl, hupper⟩ := h.exists_prev hl hfence
        have hm : m ∈ t.leaves := by simp [hl]
        have hl' : t.leaves = X ++ m :: it.leaf :: Y := by simp [hl]
        have hin := inFences_upperFence h hm hupper
        have hleaf : m.isLeaf = true := (h.leaf hm).2.1
        obtain ⟨hthere, habsent⟩ := findIdx_upperFence (h.page hm) hupper
        simp only [hfence, Option.map_some, Option.toList_some, singleton_append,
          reverse_append, reverse_cons, reverse_nil, nil_append,
          flatMap_cons, length_cons] at hfuel ⊢
        have hfuel' := Nat.lt_of_succ_lt_succ hfuel
        rw [reach]
        by_cases hfits : fence.length ≤ bufferSize
        · rw [if_pos hfits, if_pos hfits, h.findLeaf_of_inFences hl' hin, Option.bind_some,
            lowerBound_false (h.page hm).wf hin, hleaf, Bool.and_true]
          by_cases hcount : m.count = 0
          · rw [if_pos hcount]
            have henter : m.enterPos = 0 := by
              rw [enterPos, hcount]
              split <;> rfl
            rw [henter] at hfuel' ⊢
            exact ih ⟨0, hcur, Nat.zero_le _, X, it.leaf :: Y, hl', rfl⟩ hfuel'
          · rw [if_neg hcount]
            by_cases hmem : fence ∈ m.fullKeys
            · -- the last key is the fence
              have henter : m.enterPos = m.count := by simp [enterPos, hupper, hmem]
              simp only [hmem, decide_true, if_true]
              rw [henter, ← hthere hmem]
              refine atStepBack_of_lt hl' ?_
              have := hthere hmem
              omega
            · -- the position moves in front of the last record, and the loop goes on
              have henter : m.enterPos = m.count - 1 := by simp [enterPos, hupper, hmem]
              simp only [hmem, decide_false, Bool.false_eq_true, if_false, habsent hmem]
              rw [henter] at hfuel' ⊢
              rw [if_pos (by omega)]
              refine ih ⟨m.count - 1, ?_, Nat.sub_le .., X, it.leaf :: Y, hl', rfl⟩ hfuel'
              simp only
              omega
        · rw [if_neg hfits, if_neg hfits]
          rfl

lemma walks_prev (h : t.WellFormed) : Walks (prev t) (AtStepBack t) (BehindStep t) where
  record := by
    rintro it x l ⟨pos, hcur, hpos, X, Y, hl, heq⟩
    obtain ⟨e, hget, hsteps⟩ := stepsTo_succ hpos
    rw [hsteps, cons_append, List.cons.injEq] at heq
    refine ⟨e, heq.1, ?_, ?_, pos, hcur, hpos.le, X, Y, hl, heq.2⟩
    · rw [hcur, fullKeyAt_eq, hget, Option.map_some]
    · rw [hcur, payloadAt_eq, hget, Option.map_some]
  arrives := fun _ _ _ hbehind hfuel => prev_arrives h hbehind hfuel

end Iterator

section Descending

/-- The descending scan passes over a key: it is the last one of a leaf that ends below the start key,
and not its upper fence. -/
def Node.skips (start : Key) (leaf : Leaf) (key : Key) : Bool :=
  leaf.fullKeys.getLast? = some key && leaf.upperFence ≠ some key && leaf.upperFence.any (· < start)

/-- The steps back through a leaf from a key on, and to the leaf before. -/
def Node.descSteps (start : Key) (leaf : Leaf) : List (Step Key (List UInt8)) :=
  (leaf.entries.filter fun e => e.1 ≤ start && !leaf.skips start e.1).reverse.map recordStep ++
    (leaf.lowerFence.map fun fence => (fence.length, none)).toList

namespace BTreeGeneric

variable (t : BTreeGeneric)

/-- The entries from a key on, backwards. -/
def atOrBelow (start : Key) : List (Key × List UInt8) :=
  (t.entries.filter fun e => e.1 ≤ start).reverse

/-- **The steps of the descending scan**: the records from the key on that are not passed over, and the
lower fences. -/
def descSteps (start : Key) : List (Step Key (List UInt8)) :=
  (t.leaves.takeWhile fun l => l.lowerFence.all (· < start)).reverse.flatMap (Node.descSteps start)

/-- The descending scan passes over a key, in the leaf where it is. -/
def skips (start key : Key) : Bool := (t.findLeaf key).any fun leaf => leaf.skips start key

end BTreeGeneric

/-- Where the start key is, nothing is passed over. -/
lemma Node.skips_of_inFences {leaf : Leaf} {start : Key} (hstart : leaf.InFences start) (key : Key) :
    leaf.skips start key = false := by
  have hnot : leaf.upperFence.any (· < start) = false := by
    cases hu : leaf.upperFence with
    | none => rfl
    | some u => simpa using hstart.2 u (by simp [hu])
  rw [skips, hnot, Bool.and_false]

/-- In the leaf of the start key the steps begin at it, or in front of the place for it. -/
lemma Node.descSteps_of_inFences {leaf : Leaf} (h : leaf.Page) {start : Key}
    (hstart : leaf.InFences start) :
    leaf.descSteps start = leaf.stepsTo ((leaf.fullKeys.findIdx fun k => start ≤ k) +
      if start ∈ leaf.fullKeys then 1 else 0) := by
  have hskip : (leaf.entries.filter fun e => e.1 ≤ start && !leaf.skips start e.1) =
      leaf.entries.filter fun e => e.1 ≤ start := by
    simp [skips_of_inFences hstart]
  rw [descSteps, stepsTo, hskip]
  congr 3
  obtain ⟨A, B, hAB, hA, hB, hidx⟩ := ListCut.exists_cut_findIdx (keys_sorted_entries h) start
  have hsorted := pairwise_entries h
  have hall : (A.filter fun e => e.1 ≤ start) = A := by
    rw [filter_eq_self]
    exact fun e he => decide_eq_true (hA e he).le
  rw [keys_entries] at hidx
  rw [hidx, ← keys_entries, hAB, filter_append, hall]
  rw [hAB] at hsorted
  cases B with
  | nil =>
    have hnot : start ∉ A.map Prod.fst := by
      intro hmem
      obtain ⟨e, he, heq⟩ := mem_map.1 hmem
      exact (hA e he).ne heq
    simp [hnot]
  | cons b B =>
    obtain ⟨-, hsorted, -⟩ := pairwise_append.1 hsorted
    have hrest : (B.filter fun e => e.1 ≤ start) = [] := by
      rw [filter_eq_nil_iff]
      intro e he
      have hlt := (hB b mem_cons_self).trans_lt ((pairwise_cons.1 hsorted).1 e he)
      simpa using hlt
    by_cases hb : b.1 = start
    · have hmem : start ∈ (A ++ b :: B).map Prod.fst := by simp [← hb]
      rw [if_pos hmem, filter_cons_of_pos (by simp [hb]), hrest, take_length_add_append]
      rfl
    have hlt : start < b.1 := (hB b mem_cons_self).lt_of_ne (Ne.symm hb)
    have hmem : start ∉ (A ++ b :: B).map Prod.fst := by
      intro hmem
      obtain ⟨e, he, heq⟩ := mem_map.1 hmem
      rcases mem_append.1 he with he | he
      · exact (hA e he).ne heq
      · rcases mem_cons.1 he with rfl | he
        · exact hb heq
        · exact absurd heq (hlt.trans ((pairwise_cons.1 hsorted).1 e he)).ne'
    rw [if_neg hmem, filter_cons_of_neg (by simpa using hlt), hrest, Nat.add_zero,
      take_left, append_nil]

/-- A leaf below the start key is entered by `prev`. -/
lemma Node.descSteps_of_below {leaf : Leaf} (h : leaf.Page) {start fence : Key}
    (hupper : leaf.upperFence = some fence) (hlt : fence < start) :
    leaf.descSteps start = leaf.stepsTo leaf.enterPos := by
  have hwithin : ∀ e ∈ leaf.entries, e.1 ≤ fence := fun e he =>
    (inFences_of_mem_entries h he).2 fence (by simp [hupper])
  have hskips : ∀ key, leaf.skips start key =
      (decide (leaf.fullKeys.getLast? = some key) && decide (fence ≠ key)) := by
    intro key
    simp [skips, hupper, hlt]
  have hbelow : (leaf.entries.filter fun e => e.1 ≤ start && !leaf.skips start e.1) =
      leaf.entries.filter fun e => !leaf.skips start e.1 := by
    refine filter_congr fun e he => ?_
    rw [decide_eq_true ((hwithin e he).trans hlt.le), Bool.true_and]
  rw [descSteps, stepsTo, hbelow]
  congr 3
  rcases eq_nil_or_concat' leaf.entries with hnil | ⟨E, last, hE⟩
  · rw [hnil]
    simp
  have hsorted := pairwise_entries h
  have hlast : leaf.fullKeys.getLast? = some last.1 := by
    rw [← keys_entries, hE]
    simp
  have hcount : leaf.count = E.length + 1 := by
    rw [← length_entries, hE]
    simp
  rw [hE] at hsorted
  obtain ⟨-, -, hE'⟩ := pairwise_append.1 hsorted
  have hkeep : (E.filter fun e => !leaf.skips start e.1) = E := by
    rw [filter_eq_self]
    intro e he
    have hne : last.1 ≠ e.1 := (hE' e he last (by simp)).ne'
    simp [hskips, hlast, hne]
  rw [enterPos, hcount, hE, filter_append, hkeep]
  by_cases hmem : last.1 = fence
  · have hthere : leaf.upperFence.any (· ∈ leaf.fullKeys) = true := by
      rw [← keys_entries, hE]
      simp [hupper, hmem]
    have hlen : E.length + 1 = (E ++ [last]).length := by simp
    rw [if_pos hthere, hlen, take_length, filter_cons_of_pos (by simp [hskips, hmem])]
    rfl
  · have habsent : leaf.upperFence.any (· ∈ leaf.fullKeys) = false := by
      rw [hupper, Option.any_some, decide_eq_false_iff_not, ← keys_entries, hE]
      intro hf
      obtain ⟨e, he, heq⟩ := mem_map.1 hf
      rcases mem_append.1 he with he | he
      · -- a smaller key cannot be the fence, since the last one is not above it
        have hle := hwithin last (by simp [hE])
        exact absurd (heq ▸ hE' e he last (by simp)) (not_lt.2 hle)
      · exact hmem ((mem_singleton.1 he) ▸ heq)
    have hskip : leaf.skips start last.1 = true := by
      simp [hskips, hlast, Ne.symm hmem]
    rw [habsent, if_neg (by simp), Nat.add_sub_cancel, take_left,
      filter_cons_of_neg (by simp [hskip]), filter_nil, append_nil]

lemma records_descSteps_leaf (start : Key) (leaf : Leaf) :
    records (leaf.descSteps start) =
      (leaf.entries.filter fun e => e.1 ≤ start && !leaf.skips start e.1).reverse := by
  rw [descSteps, records_append, records_map_recordStep]
  cases leaf.lowerFence <;> simp [records]

namespace BTreeGeneric.WellFormed

variable {t : BTreeGeneric} {X Y : List Leaf} {l : Leaf} {start : Key}

/-- The leaves that begin below a key are those up to the leaf of the key. -/
lemma takeWhile_leaves (h : t.WellFormed) (hl : t.leaves = X ++ l :: Y) (hstart : l.InFences start) :
    (t.leaves.takeWhile fun m => m.lowerFence.all (· < start)) = X ++ [l] := by
  have hX : ∀ m ∈ X, (m.lowerFence.all (· < start)) = true := by
    intro m hm
    obtain ⟨u, hu, hlt⟩ := h.upperFence_lt_of_mem_before hl hstart hm
    have hfences := (h.page (l := m) (by simp [hl, hm])).valid.fences
    cases hlo : m.lowerFence with
    | none => rfl
    | some lo => simpa using (hfences lo hlo u hu).trans hlt
  have hin : (l.lowerFence.all (· < start)) = true := by
    cases hlo : l.lowerFence with
    | none => rfl
    | some lo => simpa using hstart.1 lo (by simp [hlo])
  have hY : (Y.takeWhile fun m => m.lowerFence.all (· < start)) = [] := by
    cases Y with
    | nil => rfl
    | cons m Y =>
      obtain ⟨lo, hlo, hle⟩ := h.le_lowerFence_of_mem_behind hl hstart mem_cons_self
      rw [takeWhile_cons_of_neg]
      simpa [hlo] using hle
  rw [hl, takeWhile_append_of_pos hX, takeWhile_cons, if_pos hin, hY]

lemma descSteps_eq (h : t.WellFormed) (hl : t.leaves = X ++ l :: Y) (hstart : l.InFences start) :
    t.descSteps start = l.stepsTo ((l.fullKeys.findIdx fun k => start ≤ k) +
        if start ∈ l.fullKeys then 1 else 0) ++
      X.reverse.flatMap fun m => m.stepsTo m.enterPos := by
  have hX : ∀ m ∈ X.reverse, m.descSteps start = m.stepsTo m.enterPos := by
    intro m hm
    have hm' := mem_reverse.1 hm
    obtain ⟨u, hu, hlt⟩ := h.upperFence_lt_of_mem_before hl hstart hm'
    exact descSteps_of_below (h.page (by simp [hl, hm'])) hu hlt
  rw [descSteps, h.takeWhile_leaves hl hstart, reverse_append, reverse_singleton,
    singleton_append, flatMap_cons,
    descSteps_of_inFences (h.page (by simp [hl])) hstart, flatMap_congr hX]

/-- A key is passed over in the leaf that holds it. -/
lemma skips_eq (h : t.WellFormed) {m : Leaf} (hm : m ∈ t.leaves) {e : Key × List UInt8}
    (he : e ∈ m.entries) (start : Key) : t.skips start e.1 = m.skips start e.1 := by
  obtain ⟨A, B, hAB⟩ := append_of_mem hm
  rw [skips, h.findLeaf_of_inFences hAB (inFences_of_mem_entries (h.page hm) he), Option.any_some]

lemma records_descSteps (h : t.WellFormed) (start : Key) :
    records (t.descSteps start) = (t.atOrBelow start).filter fun e => !t.skips start e.1 := by
  obtain ⟨X, l, Y, hl, -, hstart⟩ := h.findLeaf_eq start
  have hY : ((leafEntries Y).filter fun e => e.1 ≤ start) = [] := by
    rw [filter_eq_nil_iff]
    intro e he
    simpa using h.lt_of_mem_behind hl hstart he
  -- leaf by leaf, backwards
  have hleaves : ∀ L : List Leaf, (∀ m ∈ L, m ∈ t.leaves) →
      records (L.reverse.flatMap (Node.descSteps start)) =
        (((leafEntries L).filter fun e => e.1 ≤ start).reverse).filter
          fun e => !t.skips start e.1 := by
    intro L hL
    induction L with
    | nil => rfl
    | cons m L ih =>
      have hm : (m.entries.filter fun e => e.1 ≤ start && !m.skips start e.1) =
          (m.entries.filter fun e => e.1 ≤ start).filter fun e => !t.skips start e.1 := by
        rw [filter_filter]
        refine filter_congr fun e he => ?_
        rw [h.skips_eq (hL m mem_cons_self) he, Bool.and_comm]
      rw [reverse_cons, flatMap_append, flatMap_singleton, records_append,
        ih fun m hm => hL m (mem_cons_of_mem _ hm), records_descSteps_leaf, hm,
        leafEntries_cons, filter_append, reverse_append, filter_append,
        filter_reverse, filter_reverse]
  have hmem : ∀ m ∈ X ++ [l], m ∈ t.leaves := by
    intro m hm
    rw [hl]
    simp only [mem_append, mem_cons, not_mem_nil, or_false] at hm ⊢
    tauto
  rw [descSteps, h.takeWhile_leaves hl hstart, hleaves _ hmem, atOrBelow, entries, hl,
    append_cons X l Y, leafEntries_append (X ++ [l]), filter_append, hY, append_nil]

lemma seekForPrev_arrives (h : t.WellFormed) (start : Key) {fuel : ℕ}
    (hfuel : (t.descSteps start).length < fuel) :
    Arrives (Iterator.AtStepBack t) (Iterator.fresh.seekForPrev t fuel start)
      (reach bufferSize (t.descSteps start)) := by
  obtain ⟨X, l, Y, hl, hfind, hstart⟩ := h.findLeaf_eq start
  have hpage : l.Page := h.page (by simp [hl])
  have hleaf : l.isLeaf = true := (h.leaf (l := l) (by simp [hl])).2.1
  have hsteps := h.descSteps_eq hl hstart
  have hlength : l.fullKeys.length = l.count := length_map ..
  rw [hsteps] at hfuel ⊢
  rw [Iterator.seekForPrev, Iterator.latch, if_pos (.inl rfl), hfind, Option.bind_some,
    lowerBound_false hpage.wf hstart, hleaf, Bool.and_true]
  by_cases hmem : start ∈ l.fullKeys
  · have hlt : (l.fullKeys.findIdx fun k => start ≤ k) < l.count := by
      rw [← hlength]
      exact findIdx_lt_length_of_exists ⟨start, hmem, by simp⟩
    simp only [hmem, decide_true, if_true]
    exact Iterator.atStepBack_of_lt hl hlt
  · have hle : (l.fullKeys.findIdx fun k => start ≤ k) ≤ l.count :=
      hlength ▸ findIdx_le_length
    simp only [hmem, decide_false, Bool.false_eq_true, if_false, Nat.add_zero] at hfuel ⊢
    generalize (l.fullKeys.findIdx fun k => start ≤ k) = pos at hfuel hle ⊢
    cases pos with
    | zero => exact Iterator.prev_arrives h ⟨0, rfl, Nat.zero_le _, X, Y, hl, rfl⟩ hfuel
    | succ pos =>
      have hback : ((pos + 1 : ℕ) : ℤ) - 1 = pos := by omega
      rw [if_neg (by omega), hback]
      exact Iterator.atStepBack_of_lt hl hle

/-- **The descending scan walks through its steps.** -/
lemma scanDesc_eq {σ : Type*} (h : t.WellFormed) (start : Key)
    (callback : Callback σ Key (List UInt8)) (s : σ) {fuel : ℕ}
    (hfuel : (t.descSteps start).length < fuel) :
    t.scanDesc start callback fuel s =
      (walk bufferSize callback s (t.descSteps start)).map (Prod.map id OpResult.ofExhausted) :=
  scanFrom_eq (Iterator.walks_prev h) (h.seekForPrev_arrives start hfuel) hfuel

end BTreeGeneric.WellFormed

end Descending

/-- **Descending scans.**  For every well-formed tree and every start key, the records that the callback
has to be called on are those with a key at or below the start key, in strictly decreasing order; the
scan terminates after it was called on exactly these, up to the one where it returned false, if and
only if none of them is the last one of a leaf that ends below the start key and whose upper fence is
another key, and every key and every lower fence passed fits into the iterator's buffer. -/
theorem BTreeGeneric.scanDesc_correct_iff {σ : Type*} (t : BTreeGeneric) (h : t.WellFormed)
    (start : Key) (callback : Callback σ Key (List UInt8)) (s : σ) :
    (t.atOrBelow start).Pairwise (fun e e' => e'.1 < e.1) ∧
    ((∃ n, ∀ fuel, n ≤ fuel → ∃ ret, t.scanDesc start (logged callback) fuel (s, []) =
        some ((visit callback s (t.atOrBelow start), visited callback s (t.atOrBelow start)), ret)) ↔
      (∀ n ∈ writes callback s (t.descSteps start), n ≤ bufferSize) ∧
      ∀ e ∈ visited callback s (t.atOrBelow start), t.skips start e.1 = false) := by
  refine ⟨pairwise_reverse.2 (h.pairwise_entries.filter _), ?_⟩
  rw [exists_fuel_iff fun fuel hfuel => h.scanDesc_eq start (logged callback) (s, []) hfuel,
    writes_logged, h.records_descSteps, visit_logged]
  refine and_congr_right fun _ => ?_
  have hkept := visited_filter_eq_iff callback (fun e => !t.skips start e.1) s (t.atOrBelow start)
  simp only [Bool.not_eq_true'] at hkept
  rw [← hkept, Prod.mk.injEq]
  constructor
  · exact fun heq => heq.2
  · intro heq
    refine ⟨?_, heq⟩
    rw [← visit_visited, heq, visit_visited]

/-- The theorem applies to a tree whose first leaf ends with its fence: both records are found. -/
theorem scanDesc_correct_iff_twoLeaves :
    ∃ n, ∀ fuel, n ≤ fuel → ∃ ret,
      (twoLeaves [2]).scanDesc [9] (logged fun s _ _ => (s, true)) fuel ((), []) =
        some (((), [([3], [30]), ([2], [10])]), ret) := by
  have hiff := ((twoLeaves [2]).scanDesc_correct_iff (wellFormed_twoLeaves le_rfl (by decide)) [9]
    (fun s _ _ => (s, true)) ()).2
  exact hiff.2 (by decide +kernel)

/-- The last record before the fence `[2]` is passed over: of two records only one is found. -/
theorem scanDesc_skips :
    (twoLeaves [1]).WellFormed ∧ (twoLeaves [1]).atOrBelow [9] = [([3], [30]), ([1], [10])] ∧
    ∀ fuel, 5 ≤ fuel → (twoLeaves [1]).scanDesc [9] (logged fun s _ _ => (s, true)) fuel ((), []) =
      some (((), [([3], [30])]), .notFound) := by
  have hwf : (twoLeaves [1]).WellFormed := wellFormed_twoLeaves (by decide) (by decide)
  have hsteps : (twoLeaves [1]).descSteps [9] = [(1, some ([3], [30])), (1, none)] := by
    decide +kernel
  refine ⟨hwf, by decide +kernel, ?_⟩
  intro fuel hfuel
  rw [hwf.scanDesc_eq, hsteps]
  · rfl
  · rw [hsteps]
    exact Nat.lt_of_lt_of_le (by decide) hfuel

end TwoTree.BTree
