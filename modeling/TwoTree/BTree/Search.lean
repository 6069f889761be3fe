import TwoTree.BTree.Node

/-!
# Searching a node

`lowerBound` avoids comparing whole keys in four ways: it compares the prefix once, it compares heads
before keys, it compares only lengths where equal heads hold a whole key, and it narrows the slots down
by the hints.  Each of them keeps the order: `compareWithSlot` compares as the keys do
(`compareWithSlot_compares`), and the slots outside of the window are decided (`window_searchWindow`).

`Wf` is what the operations of a node maintain; `lowerBound_eq` says that on such a node, and for keys
between its fences, `lowerBound` answers as a search through all keys would.
-/

namespace TwoTree.BTree

open Lib Lib.Bytes Lib.ByteOrder List Option

/-! ## Comparing keys -/

/-- `memcmp` of as many bytes as both strings have decides, or the shorter string is the smaller. -/
lemma memcmp_then_length (a b : Key) :
    (match memcmp (min a.length b.length) a b with
      | .eq => compare a.length b.length
      | c => c).Compares a b := by
  induction a generalizing b with
  | nil =>
    cases b with
    | nil => rfl
    | cons y b => exact nil_lt_cons y b
  | cons x a ih =>
    cases b with
    | nil => exact nil_lt_cons x a
    | cons y b =>
      have hmin : min (x :: a).length (y :: b).length = min a.length b.length + 1 := by
        simp only [length_cons]
        omega
      rw [hmin, memcmp]
      rcases lt_trichotomy x y with hlt | rfl | hgt
      · rw [if_pos hlt]
        exact cons_lt_cons_iff.2 (Or.inl hlt)
      · rw [if_neg (lt_irrefl x), if_neg (lt_irrefl x)]
        have hcmp : compare (x :: a).length (x :: b).length = compare a.length b.length := by
          simp [Nat.compare_eq_ite_lt]
        rw [hcmp]
        exact (compares_append_iff _ [x] a b).2 (ih b)
      · rw [if_neg hgt.not_gt, if_pos hgt]
        exact cons_lt_cons_iff.2 (Or.inl hgt)

/-- **`cmpKeys` compares in lexicographic order.** -/
lemma cmpKeys_compares (a b : Key) : (cmpKeys a b).Compares a b := memcmp_then_length a b

lemma cmpKeys_self (a : Key) : cmpKeys a a = .eq := (cmpKeys_compares a a).eq_eq.2 rfl

lemma head_eq_headValue (key : Key) : head key = headValue 4 key := by
  match key with
  | [] => rfl
  | [a] => simp [head, headValue]
  | [a, b] => simp [head, headValue]; ring
  | [a, b, c] => simp [head, headValue]; ring
  | a :: b :: c :: d :: _ => simp [head, headValue]; ring

lemma head_mono {a b : Key} (h : a ≤ b) : head a ≤ head b := by
  rw [head_eq_headValue, head_eq_headValue]
  exact headValue_mono h

lemma lt_of_head_lt {a b : Key} (h : head a < head b) : a < b := by
  rw [head_eq_headValue, head_eq_headValue] at h
  exact lt_of_headValue_lt h

namespace Node

variable {π : Type*} {n : Node π} {key : Key} {i : ℕ}

/-- Equal heads that hold the whole second key: the lengths decide. -/
lemma compares_of_head_eq {a b : Key} (h : head a = head b) (hb : b.length ≤ 4) :
    (compare a.length b.length).Compares a b := by
  rw [head_eq_headValue, head_eq_headValue] at h
  exact compares_of_headValue_eq h hb

/-- **Heads and lengths compare as the keys do.** -/
lemma compareWithSlot_compares {s : Slot π} (hs : n.slots[i]? = some s)
    (hhead : s.head = head s.key) : (n.compareWithSlot key i).Compares key s.key := by
  rw [compareWithSlot, hs]
  simp only [hhead]
  rcases lt_trichotomy (head key) (head s.key) with hlt | heq | hgt
  · rw [if_pos hlt]
    exact lt_of_head_lt hlt
  · rw [if_neg heq.not_lt, if_neg heq.not_gt]
    by_cases hshort : s.key.length ≤ 4
    · have hcmp := compares_of_head_eq heq hshort
      rw [Nat.compare_eq_ite_lt] at hcmp
      rwa [if_pos hshort]
    · rw [if_neg hshort]
      exact cmpKeys_compares key s.key
  · rw [if_neg hgt.not_gt, if_pos hgt]
    exact lt_of_head_lt hgt

/-! ## Well-formed nodes -/

/-- A key that belongs into the node: above the lower fence, not above the upper one. -/
def InFences (n : Node π) (key : Key) : Prop :=
  (∀ lower ∈ n.lowerFence, lower < key) ∧ ∀ upper ∈ n.upperFence, key ≤ upper

instance (n : Node π) (key : Key) : Decidable (n.InFences key) :=
  inferInstanceAs (Decidable ((∀ lower ∈ n.lowerFence, lower < key) ∧
    ∀ upper ∈ n.upperFence, key ≤ upper))

/-- The hints are the heads of the slots at even distances. -/
structure HintsMatch (n : Node π) : Prop where
  length : n.hint.length = hintCount
  head : ∀ i < hintCount, ∀ s, n.slots[n.dist * (i + 1)]? = some s → n.hint[i]? = some s.head

/-- **What the operations of a node maintain**: the fences share the prefix, the keys are sorted,
distinct and between the fences, and heads and hints are up to date. -/
structure Wf (n : Node π) : Prop where
  common : n.prefixLength ≤
    commonPrefixLength (n.lowerFence.getD []) (n.upperFence.getD [])
  sorted : n.fullKeys.Pairwise (· < ·)
  within : ∀ k ∈ n.fullKeys, n.InFences k
  heads : ∀ s ∈ n.slots, s.head = head s.key
  hints : n.HintsMatch

/-! ## The prefix -/

lemma commonPrefixLength_le (a b : Key) : commonPrefixLength a b ≤ a.length := by
  fun_induction commonPrefixLength a b with
  | case1 => simpa
  | case2 => simp
  | case3 => simp

lemma take_eq_of_le_commonPrefixLength {a b : Key} {m : ℕ} (h : m ≤ commonPrefixLength a b) :
    a.take m = b.take m := by
  induction m generalizing a b with
  | zero => simp
  | succ m ih =>
    cases a with
    | nil => simp [commonPrefixLength] at h
    | cons x a =>
      cases b with
      | nil => simp [commonPrefixLength] at h
      | cons y b =>
        rw [commonPrefixLength] at h
        split_ifs at h with hxy
        · have htake : a.take m = b.take m := ih (by omega)
          rw [take_succ_cons, take_succ_cons, hxy, htake]
        · omega

lemma length_prefixBytes (hn : n.Wf) : n.prefixBytes.length = n.prefixLength := by
  rw [prefixBytes, length_take]
  exact min_eq_left (hn.common.trans (commonPrefixLength_le _ _))

/-- **A key between the fences begins with the prefix.** -/
lemma prefixBytes_isPrefix (hn : n.Wf) (hkey : n.InFences key) : n.prefixBytes <+: key := by
  have htake := take_eq_of_le_commonPrefixLength hn.common
  cases hlower : n.lowerFence with
  | none => simp [prefixBytes, hlower]
  | some lower =>
    cases hupper : n.upperFence with
    | none =>
      rw [hlower, hupper] at htake
      rw [prefixBytes, hlower, htake]
      simp
    | some upper =>
      rw [hlower, hupper] at htake
      have hlo : n.prefixBytes <+: lower := by
        rw [prefixBytes, hlower]
        exact take_prefix _ _
      have hhi : n.prefixBytes <+: upper := by
        rw [prefixBytes, hlower, htake]
        exact take_prefix _ _
      exact isPrefix_of_between hlo hhi (hkey.1 lower hlower) (hkey.2 upper hupper)

lemma prefixBytes_append_drop (hn : n.Wf) (hkey : n.InFences key) :
    n.prefixBytes ++ key.drop n.prefixLength = key := by
  obtain ⟨rest, rfl⟩ := prefixBytes_isPrefix hn hkey
  rw [← length_prefixBytes hn, drop_left]

/-! ## The hints -/

/-- The position of a hint is the position of a slot. -/
lemma dist_mul_lt (hcount : n.count > hintCount * 2) (hi : i < hintCount) :
    n.dist * (i + 1) < n.count := by
  rw [dist, hintCount] at *
  have hmul : n.count / (16 + 1) * (i + 1) ≤ n.count / 17 * 16 := Nat.mul_le_mul_left _ (by omega)
  omega

lemma slot_of_lt (hi : i < n.count) : ∃ s, n.slots[i]? = some s :=
  ⟨n.slots[i], List.getElem?_eq_getElem hi⟩

/-- Heads grow with the slots. -/
lemma head_le_head (hn : n.Wf) {i j : ℕ} {s t : Slot π} (hij : i ≤ j) (hs : n.slots[i]? = some s)
    (ht : n.slots[j]? = some t) : s.head ≤ t.head := by
  rcases Nat.eq_or_lt_of_le hij with rfl | hij
  · rw [hs] at ht
    cases ht
    exact le_refl _
  obtain ⟨hi, rfl⟩ := List.getElem?_eq_some_iff.1 hs
  obtain ⟨hj, rfl⟩ := List.getElem?_eq_some_iff.1 ht
  have hlt := pairwise_iff_getElem.1 hn.sorted i j (by simpa [fullKeys] using hi)
    (by simpa [fullKeys] using hj) hij
  simp only [fullKeys, getElem_map, fullKey, append_lt_append_iff] at hlt
  rw [hn.heads _ (getElem_mem hi), hn.heads _ (getElem_mem hj)]
  exact head_mono hlt.le

lemma compareWithSlot_of_head_lt {s : Slot π} (hs : n.slots[i]? = some s)
    (hlt : head key < s.head) : n.compareWithSlot key i = .lt := by
  simp [compareWithSlot, hs, hlt]

lemma compareWithSlot_of_head_gt {s : Slot π} (hs : n.slots[i]? = some s)
    (hlt : s.head < head key) : n.compareWithSlot key i = .gt := by
  simp [compareWithSlot, hs, hlt, hlt.not_gt]

/-- A hint below the head of the key: so are the slots up to the hint's. -/
lemma gt_of_hint_lt (hn : n.Wf) {i j h : ℕ} (hcount : n.count > hintCount * 2) (hi : i < hintCount)
    (hhint : n.hint[i]? = some h) (hlt : h < head key) (hj : j ≤ n.dist * (i + 1)) :
    n.compareWithSlot key j = .gt := by
  obtain ⟨t, ht⟩ := slot_of_lt (dist_mul_lt hcount hi)
  obtain ⟨s, hs⟩ := slot_of_lt (lt_of_le_of_lt hj (dist_mul_lt hcount hi))
  rw [hn.hints.head i hi t ht, some_inj] at hhint
  refine compareWithSlot_of_head_gt hs ?_
  calc s.head ≤ t.head := head_le_head hn hj hs ht
    _ = h := hhint
    _ < head key := hlt

/-- A hint above the head of the key: so are the slots from the hint's on. -/
lemma lt_of_lt_hint (hn : n.Wf) {i j h : ℕ} (hcount : n.count > hintCount * 2) (hi : i < hintCount)
    (hhint : n.hint[i]? = some h) (hlt : head key < h) (hj : n.dist * (i + 1) ≤ j)
    (hjc : j < n.count) : n.compareWithSlot key j = .lt := by
  obtain ⟨t, ht⟩ := slot_of_lt (dist_mul_lt hcount hi)
  obtain ⟨s, hs⟩ := slot_of_lt hjc
  rw [hn.hints.head i hi t ht, some_inj] at hhint
  refine compareWithSlot_of_head_lt hs ?_
  calc head key < h := hlt
    _ = t.head := hhint.symm
    _ ≤ s.head := head_le_head hn hj ht hs

lemma hint_le_hint (hn : n.Wf) {i j h h' : ℕ} (hcount : n.count > hintCount * 2) (hij : i ≤ j)
    (hj : j < hintCount) (hh : n.hint[i]? = some h) (hh' : n.hint[j]? = some h') : h ≤ h' := by
  have hi : i < hintCount := lt_of_le_of_lt hij hj
  obtain ⟨s, hs⟩ := slot_of_lt (dist_mul_lt hcount hi)
  obtain ⟨t, ht⟩ := slot_of_lt (dist_mul_lt hcount hj)
  rw [hn.hints.head i hi s hs, some_inj] at hh
  rw [hn.hints.head j hj t ht, some_inj] at hh'
  rw [← hh, ← hh']
  exact head_le_head hn (Nat.mul_le_mul_left _ (by omega)) hs ht

/-- What `searchHint` finds: hints before the first position are below the head, and the hint at the
second position is above it. -/
lemma searchHint_spec (hn : n.Wf) (hcount : n.count > hintCount * 2) (keyHead : ℕ) :
    (n.searchHint keyHead).1 ≤ hintCount ∧
    (∀ i < (n.searchHint keyHead).1, ∃ h, n.hint[i]? = some h ∧ h < keyHead) ∧
    ((n.searchHint keyHead).2 < hintCount →
      ∃ h, n.hint[(n.searchHint keyHead).2]? = some h ∧ keyHead < h) := by
  have hlen := hn.hints.length
  simp only [searchHint]
  set pos := n.hint.findIdx fun h => h ≥ keyHead with hpos
  refine ⟨?_, ?_, ?_⟩
  · rw [← hlen]
    exact findIdx_le_length
  · intro i hi
    have hil : i < n.hint.length := lt_of_lt_of_le hi findIdx_le_length
    refine ⟨n.hint[i], List.getElem?_eq_getElem hil, ?_⟩
    simpa using not_of_lt_findIdx hi
  · set off := (n.hint.drop pos).findIdx fun h => h ≠ keyHead with hoff
    intro hlt
    have hposlt : pos < n.hint.length := by omega
    have hofflt : off < (n.hint.drop pos).length := by
      rw [length_drop]
      omega
    have hge : keyHead ≤ n.hint[pos] := of_decide_eq_true (findIdx_getElem (w := hposlt))
    have hne : (n.hint.drop pos)[off] ≠ keyHead :=
      of_decide_eq_true (findIdx_getElem (w := hofflt))
    rw [getElem_drop] at hne
    have hpo : pos + off < n.hint.length := by omega
    have hmono := hint_le_hint hn hcount (Nat.le_add_right pos off) hlt
      (List.getElem?_eq_getElem hposlt) (List.getElem?_eq_getElem hpo)
    exact ⟨n.hint[pos + off], List.getElem?_eq_getElem hpo, by omega⟩

/-- **Outside of the window the comparison is decided.** -/
lemma window_searchWindow (hn : n.Wf) (key : Key) :
    BinarySearch.Window (n.compareWithSlot key) n.count (n.searchWindow (head key)).1
      (n.searchWindow (head key)).2 ∧ (n.searchWindow (head key)).1 ≤ n.count := by
  rw [searchWindow]
  by_cases hcount : n.count > hintCount * 2
  · rw [if_pos hcount]
    obtain ⟨hle, hbelow, habove⟩ := searchHint_spec hn hcount (head key)
    generalize n.searchHint (head key) = w at hle hbelow habove ⊢
    obtain ⟨pos, pos2⟩ := w
    simp only at hle hbelow habove ⊢
    refine ⟨⟨?_, ?_, ?_⟩, ?_⟩
    · split_ifs with hpos2
      · rw [mul_comm]
        exact (dist_mul_lt hcount hpos2).le
      · exact le_refl _
    · intro j hj
      have hpos : 0 < pos := Nat.pos_of_mul_pos_right (lt_of_le_of_lt (Nat.zero_le j) hj)
      obtain ⟨h, hh, hlt⟩ := hbelow (pos - 1) (by omega)
      refine gt_of_hint_lt hn hcount (by omega) hh hlt ?_
      rw [Nat.sub_add_cancel hpos, mul_comm]
      exact hj.le
    · intro j hj hjc
      split_ifs at hj with hpos2
      · obtain ⟨h, hh, hlt⟩ := habove hpos2
        rw [mul_comm] at hj
        exact lt_of_lt_hint hn hcount hpos2 hh hlt hj hjc
      · omega
    · rcases Nat.eq_zero_or_pos pos with rfl | hpos
      · simp
      · have hlt := dist_mul_lt hcount (i := pos - 1) (by omega)
        rw [Nat.sub_add_cancel hpos, mul_comm] at hlt
        exact hlt.le
  · rw [if_neg hcount]
    exact ⟨BinarySearch.window_all _ _, Nat.zero_le _⟩

/-! ## The search -/

lemma getElem?_fullKeys (n : Node π) (i : ℕ) : n.fullKeys[i]? = n.slots[i]?.map n.fullKey :=
  List.getElem?_map ..

lemma length_fullKeys (n : Node π) : n.fullKeys.length = n.count := length_map ..

/-- The comparison with a slot is the comparison with its full key. -/
lemma compareWithSlot_compares_fullKey (hn : n.Wf) (hkey : n.InFences key) {k : Key}
    (hk : n.fullKeys[i]? = some k) :
    (n.compareWithSlot (key.drop n.prefixLength) i).Compares key k := by
  rw [getElem?_fullKeys, map_eq_some_iff] at hk
  obtain ⟨s, hs, rfl⟩ := hk
  have hcmp : (n.compareWithSlot (key.drop n.prefixLength) i).Compares
      (key.drop n.prefixLength) s.key :=
    compareWithSlot_compares hs (hn.heads s (mem_of_getElem? hs))
  rw [← compares_append_iff _ n.prefixBytes, prefixBytes_append_drop hn hkey] at hcmp
  exact hcmp

/-- **The search finds the first key that is not below.** -/
lemma searchSlots_eq (hn : n.Wf) (hkey : n.InFences key) :
    n.searchSlots (key.drop n.prefixLength) =
      (n.fullKeys.findIdx fun k => key ≤ k, decide (key ∈ n.fullKeys)) := by
  have horder : ∀ i k, n.fullKeys[i]? = some k →
      (n.compareWithSlot (key.drop n.prefixLength) i).Compares key k := by
    intro i k hk
    exact compareWithSlot_compares_fullKey hn hkey hk
  have hcut := BinarySearch.cut_findIdx hn.sorted horder
  rw [length_fullKeys] at hcut
  obtain ⟨hwin, hle⟩ := window_searchWindow hn (key.drop n.prefixLength)
  have hmem := BinarySearch.eq_at_findIdx_iff hn.sorted horder
  rw [length_fullKeys] at hmem
  refine (BinarySearch.search_eq hcut hwin ?_ hle).trans ?_
  · have := hwin.le
    omega
  · rw [decide_eq_decide.2 hmem]

/-- The prefix of a key between the fences passes both checks. -/
lemma take_prefixLength (hn : n.Wf) (hkey : n.InFences key) :
    key.take n.prefixLength = n.prefixBytes ∧ n.prefixLength ≤ key.length := by
  have happ := prefixBytes_append_drop hn hkey
  have hlen := length_prefixBytes hn
  constructor
  · conv_lhs => rw [← happ, ← hlen, take_left]
  · rw [← hlen, ← happ]
    simp

/-- **`lowerBound` answers as a search through all keys.** -/
lemma lowerBound_false (hn : n.Wf) (hkey : n.InFences key) :
    n.lowerBound false key =
      (((n.fullKeys.findIdx fun k => key ≤ k : ℕ) : ℤ), decide (key ∈ n.fullKeys) && n.isLeaf) := by
  obtain ⟨htake, hle⟩ := take_prefixLength hn hkey
  rw [lowerBound, if_neg (by simp), min_eq_right hle, htake, cmpKeys_self, searchSlots_eq hn hkey]

lemma lowerBound_true (hn : n.Wf) (hkey : n.InFences key) :
    n.lowerBound true key =
      if key ∈ n.fullKeys then ((n.fullKeys.idxOf key : ℤ), n.isLeaf) else (-1, false) := by
  obtain ⟨htake, hle⟩ := take_prefixLength hn hkey
  rw [lowerBound, if_pos rfl, if_neg (by simp [htake, hle]), searchSlots_eq hn hkey]
  by_cases hmem : key ∈ n.fullKeys
  · rw [if_pos hmem, BinarySearch.idxOf_eq_findIdx hn.sorted hmem]
    simp [hmem]
  · simp [hmem]

/-! ## Hints are maintained -/

lemma headAt_of_slot {s : Slot π} (hs : n.slots[i]? = some s) : n.headAt i = s.head := by
  simp [headAt, hs]

lemma hintsMatch_makeHint (n : Node π) : n.makeHint.HintsMatch where
  length := by simp [makeHint]
  head i hi s hs := by
    have hhead : n.headAt (n.dist * (i + 1)) = s.head := headAt_of_slot hs
    simp [makeHint, List.getElem?_range hi, hhead]

/-- **`updateHint` leaves only hints alone whose slots have not moved.** -/
lemma hintsMatch_updateHint {slotId : ℕ} (hn : n.HintsMatch) (hslot : slotId ≤ n.count) (key : Key)
    (payload : π) (payloadLen : ℕ) :
    ((n.storeKeyValue slotId key payload payloadLen).updateHint slotId).HintsMatch where
  length := by simp [updateHint]
  head i hi s hs := by
    set m := n.storeKeyValue slotId key payload payloadLen with hm
    have hslots : m.slots =
        n.slots.insertIdx slotId (slotOf n.prefixLength key payload payloadLen) := rfl
    have hcount : m.count = n.count + 1 := by
      rw [count, hslots, length_insertIdx_of_le_length hslot, count]
    have hs' : m.slots[m.dist * (i + 1)]? = some s := hs
    have hhint : (m.updateHint slotId).hint[i]? = some (if m.updateHintBegin slotId ≤ i then
        m.headAt (m.dist * (i + 1)) else m.hint.getD i 0) := by
      simp [updateHint, List.getElem?_range hi]
    rw [hhint]
    by_cases hbegin : m.updateHintBegin slotId ≤ i
    · rw [if_pos hbegin, headAt_of_slot hs']
    rw [if_neg hbegin]
    -- the hints left alone are of slots in front of the new one, at the same distance as before
    rw [updateHintBegin] at hbegin
    split_ifs at hbegin with hcond
    · obtain ⟨-, hdist, -⟩ := hcond
      have hdist' : n.dist = m.dist := by
        rw [← hdist, hcount]
        rfl
      have hpos : m.dist * (i + 1) < slotId := by
        have hle : m.dist * (i + 2) ≤ m.dist * (slotId / m.dist) := Nat.mul_le_mul_left _ (by omega)
        have hmul := Nat.mul_div_le slotId m.dist
        have hpos : 0 < m.dist := by
          rcases Nat.eq_zero_or_pos m.dist with hzero | hpos
          · simp [hzero] at hbegin
          · exact hpos
        calc m.dist * (i + 1) < m.dist * (i + 2) := Nat.mul_lt_mul_of_pos_left (by omega) hpos
          _ ≤ m.dist * (slotId / m.dist) := hle
          _ ≤ slotId := hmul
      rw [hslots, List.getElem?_insertIdx_of_lt hpos, ← hdist'] at hs'
      rw [getD_eq_getElem?_getD]
      have hold := hn.head i hi s hs'
      simp [hm, storeKeyValue, hold]
    · omega

/-! ## The answer -/

/-- **The shortcuts never change the answer.**  For every key between the fences, `lowerBound` returns
the first slot whose full key is not below the key, or the count, and its exact variant the slot of the
key or -1; `is_equal` is set in a leaf that has the key. -/
theorem lowerBound_correct {π : Type*} (n : Node π) (hn : n.Wf) (key : Key) (hkey : n.InFences key) :
    (n.lowerBound false key).1 = (n.fullKeys.findIdx fun k => key ≤ k : ℕ) ∧
    (n.lowerBound false key).2 = (decide (key ∈ n.fullKeys) && n.isLeaf) ∧
    (n.lowerBound true key).1 = if key ∈ n.fullKeys then (n.fullKeys.idxOf key : ℤ) else -1 := by
  rw [lowerBound_false hn hkey, lowerBound_true hn hkey]
  refine ⟨rfl, rfl, ?_⟩
  split_ifs <;> rfl

end Node

/-- A leaf of forty records below and up to the fences `[7]` and `[7, 200]`. -/
def sampleLeaf : Node ℕ :=
  ({ isLeaf := true
     lowerFence := some [7]
     upperFence := some [7, 200]
     prefixLength := 1
     slots := (List.range 40).map fun i =>
       Node.slotOf 1 [7, UInt8.ofNat (i / 2), 9, 9, 9, UInt8.ofNat i] i 8 } :
    Node ℕ).makeHint

/-- The theorem applies to it, for a key that is there and one that is not. -/
theorem lowerBound_correct_sampleLeaf :
    (sampleLeaf.lowerBound true [7, 10, 9, 9, 9, 21]).1 = 21 ∧
    (sampleLeaf.lowerBound false [7, 10, 9, 9, 9]).1 = 20 := by
  have hwf : sampleLeaf.Wf := {
    common := by decide
    sorted := by decide +kernel
    within := by decide +kernel
    heads := by decide +kernel
    hints := Node.hintsMatch_makeHint _ }
  have hthere := Node.lowerBound_correct sampleLeaf hwf [7, 10, 9, 9, 9, 21] (by decide +kernel)
  have habsent := Node.lowerBound_correct sampleLeaf hwf [7, 10, 9, 9, 9] (by decide +kernel)
  refine ⟨?_, ?_⟩
  · rw [hthere.2.2]
    decide +kernel
  · rw [habsent.1]
    decide +kernel

end TwoTree.BTree
