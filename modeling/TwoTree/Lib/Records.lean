import Mathlib.Tactic

/-!
# Lists of records

A list of pairs of a key and a value, in which a key is looked up from the front.  A store keeps such
a list spread over pages, and its operations replace one entry of it where it stands.  `Rewrites k x y
l l'` is that: `l` has the entry `x` of `k` at some place, or none there, and `l'` has `y` instead.

Adding an entry, changing one and taking one out are the cases in which one or both of `x` and `y`
are there.  What they do to lookups is said once for all of them, if no key has two entries.
-/

namespace TwoTree.Lib.Records

open List

variable {κ β : Type*} {k a : κ} {x y : Option β} {l l' l₁ l₂ : List (κ × β)}

/-- The entry of a key, if it has one. -/
def entry (k : κ) (x : Option β) : List (κ × β) := x.toList.map (k, ·)

/-- No key has two entries. -/
def Distinct (l : List (κ × β)) : Prop := (l.map Prod.fst).Nodup

/-- At one place of the list, the entry `x` of `k` is replaced by `y`. -/
def Rewrites (k : κ) (x y : Option β) (l l' : List (κ × β)) : Prop :=
  ∃ l₁ l₂, l = l₁ ++ entry k x ++ l₂ ∧ l' = l₁ ++ entry k y ++ l₂

lemma Rewrites.context (h : Rewrites k x y l l') (l₁ l₂ : List (κ × β)) :
    Rewrites k x y (l₁ ++ l ++ l₂) (l₁ ++ l' ++ l₂) := by
  obtain ⟨m₁, m₂, rfl, rfl⟩ := h
  exact ⟨l₁ ++ m₁, m₂ ++ l₂, by simp, by simp⟩

/-- The records of the other keys stay, and a record of the key is the new entry or an old one. -/
lemma Rewrites.mem_of_mem (h : Rewrites k x y l l') {r : κ × β} (hr : r ∈ l') :
    r ∈ l ∨ y = some r.2 ∧ r.1 = k := by
  obtain ⟨m₁, m₂, rfl, rfl⟩ := h
  simp only [mem_append] at hr ⊢
  rcases hr with (hr | hr) | hr
  · exact Or.inl (Or.inl (Or.inl hr))
  · obtain ⟨v, hv, rfl⟩ := mem_map.1 hr
    exact Or.inr ⟨by simpa using hv, rfl⟩
  · exact Or.inl (Or.inr hr)

lemma Rewrites.mem_of_ne (h : Rewrites k x y l l') {r : κ × β} (hne : r.1 ≠ k) (hr : r ∈ l) :
    r ∈ l' := by
  obtain ⟨m₁, m₂, rfl, rfl⟩ := h
  simp only [mem_append] at hr ⊢
  rcases hr with (hr | hr) | hr
  · exact Or.inl (Or.inl hr)
  · obtain ⟨v, -, rfl⟩ := mem_map.1 hr
    exact absurd rfl hne
  · exact Or.inr hr

/-! ## Keys with one entry -/

lemma Distinct.filter (h : Distinct l) (f : κ × β → Bool) : Distinct (l.filter f) :=
  h.sublist (filter_sublist.map _)

lemma Distinct.perm (h : Distinct l) (hperm : l'.Perm l) : Distinct l' :=
  (hperm.map Prod.fst).nodup_iff.2 h

/-- A list with an entry taken out, and the key of that entry. -/
lemma distinct_middle {v : β} :
    Distinct (l₁ ++ (k, v) :: l₂) ↔ Distinct (l₁ ++ l₂) ∧ k ∉ (l₁ ++ l₂).map Prod.fst := by
  have hperm : ((l₁ ++ (k, v) :: l₂).map Prod.fst).Perm (k :: (l₁ ++ l₂).map Prod.fst) := by
    simp
  rw [Distinct, hperm.nodup_iff, nodup_cons, and_comm, Distinct]

/-- The keys stay distinct, if a new entry is one for a new key. -/
lemma Rewrites.distinct (h : Rewrites k x y l l') (hl : Distinct l)
    (hnew : x = none → k ∉ l.map Prod.fst) : Distinct l' := by
  obtain ⟨m₁, m₂, rfl, rfl⟩ := h
  have hout : Distinct (m₁ ++ m₂) ∧ k ∉ (m₁ ++ m₂).map Prod.fst := by
    cases x with
    | none => simpa [entry] using And.intro hl (hnew rfl)
    | some v => exact distinct_middle.1 (by simpa [entry] using hl)
  cases y with
  | none => simpa [entry] using hout.1
  | some w => simpa [entry] using distinct_middle.2 hout

section Lookup

variable [BEq κ] [LawfulBEq κ]

lemma lookup_eq_none_of_notMem (h : k ∉ l.map Prod.fst) : l.lookup k = none := by
  rw [lookup_eq_none_iff]
  intro r hr
  rw [bne_iff_ne]
  rintro rfl
  exact h (mem_map_of_mem hr)

lemma mem_of_lookup_eq_some {v : β} (h : l.lookup k = some v) : (k, v) ∈ l := by
  obtain ⟨l₁, l₂, rfl, -⟩ := lookup_eq_some_iff.1 h
  simp

lemma lookup_eq_some_of_mem (hl : Distinct l) {v : β} (h : (k, v) ∈ l) : l.lookup k = some v := by
  obtain ⟨l₁, l₂, rfl⟩ := append_of_mem h
  have hk := (distinct_middle.1 hl).2
  rw [map_append, mem_append, not_or] at hk
  rw [lookup_append, lookup_eq_none_of_notMem hk.1, Option.none_or, lookup_cons_self]

lemma lookup_filter (hl : Distinct l) {f : κ × β → Bool} (hf : ∀ v, f (k, v) = true) :
    (l.filter f).lookup k = l.lookup k := by
  cases hk : l.lookup k with
  | none =>
    refine lookup_eq_none_of_notMem fun hmem => ?_
    obtain ⟨⟨_, v⟩, hr, rfl⟩ := mem_map.1 hmem
    rw [lookup_eq_some_of_mem hl (mem_filter.1 hr).1] at hk
    cases hk
  | some v =>
    exact lookup_eq_some_of_mem (hl.filter f)
      (mem_filter.2 ⟨mem_of_lookup_eq_some hk, hf v⟩)

/-- The order of the entries does not matter. -/
lemma lookup_eq_of_perm (hl : Distinct l) (hperm : l'.Perm l) : l'.lookup k = l.lookup k := by
  cases hk : l.lookup k with
  | none =>
    refine lookup_eq_none_of_notMem fun hmem => ?_
    obtain ⟨⟨_, v⟩, hr, rfl⟩ := mem_map.1 hmem
    rw [lookup_eq_some_of_mem hl (hperm.subset hr)] at hk
    cases hk
  | some v => exact lookup_eq_some_of_mem (hl.perm hperm) (hperm.symm.subset (mem_of_lookup_eq_some hk))

lemma Rewrites.lookup_self (h : Rewrites k x y l l') (hl : Distinct l)
    (hnew : x = none → k ∉ l.map Prod.fst) : l'.lookup k = y := by
  have hl' := h.distinct hl hnew
  obtain ⟨m₁, m₂, rfl, rfl⟩ := h
  cases y with
  | none =>
    refine lookup_eq_none_of_notMem ?_
    cases x with
    | none => simpa [entry] using hnew rfl
    | some v => simpa [entry] using (distinct_middle.1 (by simpa [entry] using hl)).2
  | some w => exact lookup_eq_some_of_mem hl' (by simp [entry])

lemma Rewrites.lookup_of_ne (h : Rewrites k x y l l') (ha : a ≠ k) : l'.lookup a = l.lookup a := by
  obtain ⟨m₁, m₂, rfl, rfl⟩ := h
  have hentry : ∀ z : Option β, (entry k z).lookup a = none := by
    intro z
    refine lookup_eq_none_of_notMem ?_
    cases z <;> simp [entry, ha]
  simp [lookup_append, hentry]

end Lookup

/-! ## Records spread over pages -/

section Pages

variable {π : Type*} {recs recs' : π → List (κ × β)} {ps : List π} {p : π}

/-- One page of the list is rewritten, and the others stay. -/
lemma Rewrites.flatMap (hps : ps.Nodup) (hp : p ∈ ps) (h : Rewrites k x y (recs p) (recs' p))
    (hother : ∀ q ∈ ps, q ≠ p → recs' q = recs q) :
    Rewrites k x y (ps.flatMap recs) (ps.flatMap recs') := by
  obtain ⟨ps₁, ps₂, rfl⟩ := append_of_mem hp
  have hnotMem := (nodup_middle.1 hps).notMem
  rw [mem_append, not_or] at hnotMem
  have h₁ : ps₁.flatMap recs' = ps₁.flatMap recs := flatMap_congr (fun q hq =>
    hother q (by simp [hq]) (ne_of_mem_of_not_mem hq hnotMem.1))
  have h₂ : ps₂.flatMap recs' = ps₂.flatMap recs := flatMap_congr (fun q hq =>
    hother q (by simp [hq]) (ne_of_mem_of_not_mem hq hnotMem.2))
  have hctx := h.context (ps₁.flatMap recs) (ps₂.flatMap recs)
  simpa [h₁, h₂] using hctx

variable [BEq κ]

/-- Looking a key up page by page is looking it up in the records of all pages. -/
lemma findSome?_eq_lookup {f : π → Option β} (h : ∀ p ∈ ps, f p = (recs p).lookup k) :
    ps.findSome? f = (ps.flatMap recs).lookup k := by
  induction ps with
  | nil => rfl
  | cons p ps ih =>
    rw [findSome?_cons, flatMap_cons, lookup_append, h p mem_cons_self,
      ← ih (fun q hq => h q (mem_cons_of_mem _ hq))]
    cases (recs p).lookup k <;> rfl

end Pages

end TwoTree.Lib.Records
