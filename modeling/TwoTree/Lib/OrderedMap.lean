import Mathlib.Tactic

/-!
# Ordered maps with result codes

An index structure answers each call with a result code, and its callers branch on that code.
`Std.TreeMap` is the ordered map; this file gives its operations the result codes of an index
(`insertNew` refuses a key that is present, `removeKey` and `updateInPlace` one that is
absent), adds the ascending scan from a start key (`scanFrom`), and states what each of them
does to a point lookup.

Every lemma has its left side in the form `(operation)[a]?`, so that a goal about the contents
of a map after a sequence of operations is a `simp` away from a case split on keys.
-/

namespace TwoTree.Lib

open Std TreeMap List

/-- The result codes of an index. -/
inductive OpResult
  | ok
  | notFound
  | duplicate
  | notEnoughSpace
  deriving DecidableEq, Repr

namespace OrderedMap

variable {α β : Type*} {cmp : α → α → Ordering} (t : TreeMap α β cmp)

/-! ## Operations with result codes -/

/-- Insert a key that must be absent. -/
def insertNew (k : α) (v : β) : OpResult × TreeMap α β cmp :=
  if k ∈ t then (.duplicate, t) else (.ok, t.insert k v)

/-- Insert a key that must be absent into a node that may be full. -/
def insertMightFail (room : Bool) (k : α) (v : β) : OpResult × TreeMap α β cmp :=
  if k ∈ t then (.duplicate, t) else if room then (.ok, t.insert k v) else (.notEnoughSpace, t)

/-- Remove a key that must be present. -/
def removeKey (k : α) : OpResult × TreeMap α β cmp :=
  if k ∈ t then (.ok, t.erase k) else (.notFound, t)

/-- Change the value of a key that must be present. -/
def updateInPlace (k : α) (f : β → β) : OpResult × TreeMap α β cmp :=
  match t[k]? with
  | some v => (.ok, t.insert k (f v))
  | none => (.notFound, t)

lemma updateInPlace_of_some {t : TreeMap α β cmp} {k : α} {v : β} (h : t[k]? = some v)
    (f : β → β) : updateInPlace t k f = (.ok, t.insert k (f v)) := by
  simp [updateInPlace, h]

lemma updateInPlace_of_none {t : TreeMap α β cmp} {k : α} (h : t[k]? = none)
    (f : β → β) : updateInPlace t k f = (.notFound, t) := by
  simp [updateInPlace, h]

section Codes

variable [TransCmp cmp]

lemma insertNew_of_none {t : TreeMap α β cmp} {k : α} (h : t[k]? = none) (v : β) :
    insertNew t k v = (.ok, t.insert k v) := by
  rw [insertNew, if_neg (by simpa using h)]

lemma insertNew_of_some {t : TreeMap α β cmp} {k : α} {w : β} (h : t[k]? = some w) (v : β) :
    insertNew t k v = (.duplicate, t) := by
  rw [insertNew, if_pos (by rw [mem_iff_isSome_getElem?, h]; rfl)]

lemma insertMightFail_of_none {t : TreeMap α β cmp} {k : α} (h : t[k]? = none) (room : Bool)
    (v : β) :
    insertMightFail t room k v = if room then (.ok, t.insert k v) else (.notEnoughSpace, t) := by
  rw [insertMightFail, if_neg (by simpa using h)]

end Codes

/-! ## Point lookups -/

section Lookup

variable [TransCmp cmp] [LawfulEqCmp cmp] [DecidableEq α] (t : TreeMap α β cmp)

lemma getElem?_insert (k a : α) (v : β) : (t.insert k v)[a]? = if k = a then some v else t[a]? := by
  simp [TreeMap.getElem?_insert]

lemma getElem?_erase (k a : α) : (t.erase k)[a]? = if k = a then none else t[a]? := by
  simp [TreeMap.getElem?_erase]

lemma getElem?_insertNew (k a : α) (v : β) :
    (insertNew t k v).2[a]? = if k = a then some (t[k]?.getD v) else t[a]? := by
  rcases h : t[k]? with _ | w
  · rw [insertNew_of_none h]
    simp [getElem?_insert]
  rw [insertNew_of_some h]
  split_ifs with hka
  · rw [← hka, h]
    rfl
  · rfl

/-- Removing an absent key changes nothing, so the lookup does not depend on the code. -/
lemma getElem?_removeKey (k a : α) : (removeKey t k).2[a]? = if k = a then none else t[a]? := by
  by_cases h : k ∈ t
  · simp [removeKey, h, getElem?_erase]
  simp only [removeKey, h, if_false]
  split_ifs with hka
  · rw [← hka]
    simpa using h
  · rfl

lemma getElem?_updateInPlace (k a : α) (f : β → β) :
    (updateInPlace t k f).2[a]? = if k = a then t[k]?.map f else t[a]? := by
  rcases h : t[k]? with _ | w
  · rw [updateInPlace_of_none h]
    split_ifs with hka
    · rw [← hka, h]
      rfl
    · rfl
  · rw [updateInPlace_of_some h]
    simp [getElem?_insert]

end Lookup

/-! ## Sizes -/

section Size

variable [TransCmp cmp] {t : TreeMap α β cmp}

lemma mem_of_getElem? {k : α} {v : β} (h : t[k]? = some v) : k ∈ t :=
  mem_iff_isSome_getElem?.2 (by simp [h])

/-- Writing to a key that is present does not change the number of entries. -/
lemma size_insert_of_some {k : α} {v : β} (h : t[k]? = some v) (w : β) :
    (t.insert k w).size = t.size := by
  rw [size_insert, if_pos (mem_iff_contains.1 (mem_of_getElem? h))]

lemma size_insertNew_of_none {k : α} (h : t[k]? = none) (v : β) :
    (insertNew t k v).2.size = t.size + 1 := by
  have hmem : ¬k ∈ t := by simpa using h
  rw [insertNew_of_none h, size_insert,
    if_neg (fun hc => hmem (mem_iff_contains.2 hc))]

lemma size_removeKey_of_some {k : α} {v : β} (h : t[k]? = some v) :
    (removeKey t k).2.size + 1 = t.size := by
  have hmem := mem_of_getElem? h
  have hpos : t.size ≠ 0 := fun hzero => by
    have hempty : t.isEmpty = true := by simp [isEmpty_eq_size_eq_zero, hzero]
    exact not_mem_of_isEmpty hempty hmem
  rw [removeKey, if_pos hmem, size_erase, if_pos (mem_iff_contains.1 hmem)]
  omega

end Size

/-- Two maps with the same keys list them in the same order. -/
lemma map_fst_toList_congr {γ : Type*} [TransCmp cmp] [LawfulEqCmp cmp] {t : TreeMap α β cmp}
    {t' : TreeMap α γ cmp} (h : ∀ k, k ∈ t ↔ k ∈ t') :
    t.toList.map Prod.fst = t'.toList.map Prod.fst := by
  have hasymm : Std.Asymm (fun a b => cmp a b = .lt) := by
    refine ⟨fun a b hab hba => ?_⟩
    have hswap : cmp a b = (cmp b a).swap := OrientedCmp.eq_swap
    rw [hba, hab] at hswap
    cases hswap
  rw [map_fst_toList_eq_keys, map_fst_toList_eq_keys]
  refine ordered_keys.eq_of_mem_iff ordered_keys (fun k => ?_)
  rw [TreeMap.mem_keys, TreeMap.mem_keys, h]

/-- The entries of a map are the only list of them in which the keys increase. -/
lemma eq_toList {γ δ : Type*} [LinearOrder γ] {t : TreeMap γ δ} {l : List (γ × δ)}
    (hl : l.Pairwise fun a b => a.1 < b.1) (hmem : ∀ k v, (k, v) ∈ l ↔ t[k]? = some v) :
    l = t.toList := by
  have hasymm : Std.Asymm (fun a b : γ × δ => a.1 < b.1) := ⟨fun _ _ => lt_asymm⟩
  have ht : t.toList.Pairwise fun a b => a.1 < b.1 := by
    refine (ordered_keys_toList (t := t)).imp fun hab => ?_
    simpa [compare_lt_iff_lt] using hab
  refine hl.eq_of_mem_iff ht fun e => ?_
  rw [hmem e.1 e.2, mem_toList_iff_getElem?_eq_some]

/-! ## The ascending scan -/

section Scan

variable {γ : Type*} (t : TreeMap ℕ γ)

/-- The entries at or above a start key, in ascending order. -/
def scanFrom (start : ℕ) : List (ℕ × γ) := t.toList.filter (fun e => start ≤ e.1)

lemma mem_scanFrom {t : TreeMap ℕ γ} {start k : ℕ} {v : γ} :
    (k, v) ∈ scanFrom t start ↔ start ≤ k ∧ t[k]? = some v := by
  simp [scanFrom, mem_toList_iff_getElem?_eq_some, and_comm]

lemma pairwise_scanFrom (start : ℕ) : (scanFrom t start).Pairwise (fun a b => a.1 < b.1) := by
  have h : t.toList.Pairwise (fun a b => a.1 < b.1) := by
    refine (ordered_keys_toList (t := t)).imp (fun hab => ?_)
    simpa [compare_lt_iff_lt] using hab
  exact h.filter _

lemma scanFrom_restart {start start' : ℕ} (h : start ≤ start') :
    scanFrom t start' = (scanFrom t start).filter (fun e => start' ≤ e.1) := by
  rw [scanFrom, scanFrom, filter_filter]
  refine filter_congr (fun e _ => ?_)
  rw [← Bool.decide_and, decide_eq_decide]
  omega

lemma length_scanFrom_le (start : ℕ) : (scanFrom t start).length ≤ t.size :=
  (length_filter_le _ _).trans_eq length_toList

lemma length_scanFrom_zero : (scanFrom t 0).length = t.size := by
  rw [scanFrom, filter_eq_self.2 (by simp), length_toList]

lemma mem_map_fst_scanFrom {t : TreeMap ℕ γ} {start k : ℕ} :
    k ∈ (scanFrom t start).map Prod.fst ↔ start ≤ k ∧ k ∈ t := by
  simp only [mem_map, Prod.exists, exists_and_right, exists_eq_right, mem_scanFrom,
    exists_and_left, mem_iff_isSome_getElem?, Option.isSome_iff_exists]

/-- Two maps with the same keys are scanned in the same order. -/
lemma map_fst_scanFrom_congr {δ : Type*} {t : TreeMap ℕ γ} {t' : TreeMap ℕ δ}
    (h : ∀ k, k ∈ t ↔ k ∈ t') (start : ℕ) :
    (scanFrom t start).map Prod.fst = (scanFrom t' start).map Prod.fst := by
  refine (pairwise_map.2 (pairwise_scanFrom t start)).eq_of_mem_iff
    (pairwise_map.2 (pairwise_scanFrom t' start)) (fun k => ?_)
  rw [mem_map_fst_scanFrom, mem_map_fst_scanFrom, h]

end Scan

end OrderedMap

end TwoTree.Lib
