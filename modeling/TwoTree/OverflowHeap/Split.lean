import TwoTree.OverflowHeap.Buckets

/-!
# Splitting a bucket with overflow pages

A split gathers the records of the bucket in two parts, each a page and a row of overflow pages.  A
record goes to the page as long as it has room, also after overflow pages have been begun, so that a
part has its records in another order than the bucket had them (`Part.Filled`).

Then the first part is written over the bucket and its overflow pages, the overflow pages that are left
over are removed, and the second part is written to a new bucket, whose overflow pages may get the ids
of those just removed.  `Structured.moved` says what comes out.
-/

namespace TwoTree.OverflowHeap

open Hashing LinearHashing Lib.Records Function List Page

variable {cfg : Config} {t t' : Table} {n : Node} {id b : ℕ}

/-! ## Gathering the records -/

namespace Part

variable {p p' : Part} {recs : List (Bytes × Bytes)} {r : Bytes × Bytes}
  {recs : List (Bytes × Bytes)}

/-- The records of a part. -/
def records (p : Part) : List (Bytes × Bytes) :=
  p.page.records ++ p.overflows.flatMap Page.records

/-- The part has these records, on pages that are in order. -/
structure Filled (cfg : Config) (p : Part) (recs : List (Bytes × Bytes)) : Prop where
  page_ok : p.page.Ok (nodeLayout cfg)
  overflow_ok : ∀ q ∈ p.overflows, q.Ok (overflowLayout cfg)
  perm : p.records.Perm recs

lemma filled_init (cfg : Config) : (init cfg).Filled cfg [] :=
  ⟨init_ok, by simp [init], by simp [init, records]⟩

lemma ok_addOverflow {overflows : List Page} (hok : ∀ q ∈ overflows, q.Ok (overflowLayout cfg))
    (hfits : (Page.init (overflowLayout cfg)).canInsert (overflowLayout cfg) r.1 r.2) :
    ∀ q ∈ addOverflow cfg overflows r, q.Ok (overflowLayout cfg) := by
  unfold addOverflow
  intro q hq
  cases hback : overflows.getLast? with
  | none =>
    simp only [hback, mem_singleton] at hq
    rw [hq]
    exact init_ok.insert hfits
  | some back =>
    simp only [hback] at hq
    split_ifs at hq with hroom
    · rcases mem_append.1 hq with hq | hq
      · exact hok q (mem_of_mem_dropLast hq)
      · rw [mem_singleton.1 hq]
        exact (hok back (mem_of_getLast? hback)).insert hroom
    · rcases mem_append.1 hq with hq | hq
      · exact hok q hq
      · rw [mem_singleton.1 hq]
        exact init_ok.insert hfits

lemma records_addOverflow (cfg : Config) (overflows : List Page) (r : Bytes × Bytes) :
    (addOverflow cfg overflows r).flatMap Page.records = overflows.flatMap Page.records ++ [r] := by
  unfold addOverflow
  cases hback : overflows.getLast? with
  | none =>
    rw [getLast?_eq_none_iff] at hback
    simp [hback]
  | some back =>
    obtain ⟨front, rfl⟩ := getLast?_eq_some_iff.1 hback
    simp only
    split_ifs <;> simp

/-- **One more record.** -/
lemma Filled.add (h : p.Filled cfg recs) (hadd : p.add cfg r = some p') :
    p'.Filled cfg (recs ++ [r]) := by
  have hperm : ∀ l, p.records.Perm l → (p.records ++ [r]).Perm (l ++ [r]) :=
    fun l hl => hl.append_right [r]
  unfold Part.add at hadd
  split_ifs at hadd with hroom hfits
  · cases hadd
    refine ⟨h.page_ok.insert hroom, h.overflow_ok, List.Perm.trans ?_ (hperm _ h.perm)⟩
    simp only [records, Page.records_insert, append_assoc]
    exact (perm_append_comm.append_left _)
  · cases hadd
    refine ⟨h.page_ok, ok_addOverflow h.overflow_ok hfits, ?_⟩
    simp only [records, records_addOverflow, ← append_assoc]
    exact hperm _ h.perm

end Part

/-- **The records are divided**, and none is lost. -/
lemma filled_of_distribute {splitBucket power : ℕ} {s d : Part}
    (h : distribute cfg splitBucket power recs = some (s, d)) :
    s.Filled cfg (recs.filter (fun r => hash cfg.hashFunc r.1 (power + 1) = splitBucket)) ∧
      d.Filled cfg (recs.filter (fun r => ¬ hash cfg.hashFunc r.1 (power + 1) = splitBucket)) := by
  -- over the records still to come, with what the two parts have so far
  suffices hsuff : ∀ (recs l₁ l₂ : List (Bytes × Bytes)) (tmp : Part × Part),
      tmp.1.Filled cfg l₁ → tmp.2.Filled cfg l₂ →
      recs.foldlM (fun tmp r =>
        if hash cfg.hashFunc r.1 (power + 1) = splitBucket then
          (tmp.1.add cfg r).map (fun p => (p, tmp.2))
        else (tmp.2.add cfg r).map (fun p => (tmp.1, p))) tmp = some (s, d) →
      s.Filled cfg (l₁ ++ recs.filter (fun r => hash cfg.hashFunc r.1 (power + 1) = splitBucket)) ∧
        d.Filled cfg
          (l₂ ++ recs.filter (fun r => ¬ hash cfg.hashFunc r.1 (power + 1) = splitBucket)) by
    have hall := hsuff recs [] [] _ (Part.filled_init cfg) (Part.filled_init cfg) h
    simpa using hall
  intro recs
  induction recs with
  | nil =>
    intro l₁ l₂ tmp h₁ h₂ hrun
    cases hrun
    simpa using And.intro h₁ h₂
  | cons r recs ih =>
    intro l₁ l₂ tmp h₁ h₂ hrun
    rw [foldlM_cons] at hrun
    by_cases hhash : hash cfg.hashFunc r.1 (power + 1) = splitBucket
    · simp only [hhash, if_true] at hrun
      obtain ⟨tmp', htmp', hrun⟩ := Option.bind_eq_some_iff.1 hrun
      obtain ⟨p, hp, rfl⟩ := Option.map_eq_some_iff.1 htmp'
      have hrest := ih (l₁ ++ [r]) l₂ (p, tmp.2) (h₁.add hp) h₂ hrun
      simpa [hhash] using hrest
    · simp only [hhash, if_false] at hrun
      obtain ⟨tmp', htmp', hrun⟩ := Option.bind_eq_some_iff.1 hrun
      obtain ⟨p, hp, rfl⟩ := Option.map_eq_some_iff.1 htmp'
      have hrest := ih l₁ (l₂ ++ [r]) (tmp.1, p) h₁ (h₂.add hp) hrun
      simpa [hhash] using hrest

/-! ## Writing tuples -/

section Tuples

variable {heap : ℕ → Option Page} {ids : List ℕ} {pages : List Page}

lemma writeTuples_cons (heap : ℕ → Option Page) (id : ℕ) (ids : List ℕ) (page : Page)
    (pages : List Page) : writeTuples heap (id :: ids) (page :: pages) =
      writeTuples (update heap id (some page)) ids pages := rfl

lemma writeTuples_of_notMem (h : id ∉ ids) : writeTuples heap ids pages id = heap id := by
  induction ids generalizing heap pages with
  | nil => rfl
  | cons id' ids ih =>
    rw [mem_cons, not_or] at h
    cases pages with
    | nil => rfl
    | cons page pages => rw [writeTuples_cons, ih h.2, update_of_ne h.1]

lemma writeTuples_take (heap : ℕ → Option Page) (ids : List ℕ) (pages : List Page) :
    writeTuples heap ids pages = writeTuples heap (ids.take pages.length) pages := by
  induction ids generalizing heap pages with
  | nil => rw [take_nil]
  | cons id ids ih =>
    cases pages with
    | nil => rfl
    | cons page pages =>
      rw [writeTuples_cons, length_cons, take_succ_cons, writeTuples_cons, ← ih]

/-- **Each id has its page**, if no id comes twice. -/
lemma map_writeTuples (hnodup : ids.Nodup) (hlen : ids.length = pages.length) :
    ids.map (writeTuples heap ids pages) = pages.map some := by
  induction ids generalizing heap pages with
  | nil =>
    obtain rfl := length_eq_zero_iff.1 hlen.symm
    rfl
  | cons id ids ih =>
    cases pages with
    | nil => cases hlen
    | cons page pages =>
      obtain ⟨hid, hnodup⟩ := nodup_cons.1 hnodup
      rw [writeTuples_cons, map_cons, map_cons, ih hnodup (by simpa using hlen),
        writeTuples_of_notMem hid, update_self]

lemma removeTuples_of_notMem (h : id ∉ ids) : removeTuples heap ids id = heap id := by
  induction ids generalizing heap with
  | nil => rfl
  | cons id' ids ih =>
    rw [mem_cons, not_or] at h
    exact (ih h.2).trans (update_of_ne h.1 _ _)

end Tuples

/-- The records on tuples, by what the heap has for their ids. -/
lemma flatMap_tuple {ids : List ℕ} {pages : List Page} (h : ids.map t.heap = pages.map some) :
    ids.flatMap t.tuple = pages.flatMap records := by
  have htuple : ∀ id, t.tuple id = ((t.heap id).map records).getD [] := fun _ => rfl
  calc ids.flatMap t.tuple
      = (ids.map t.heap).flatMap (fun page => (page.map records).getD []) := by
        rw [flatMap_map]
        exact flatMap_congr (fun id _ => htuple id)
    _ = pages.flatMap records := by
        rw [h, flatMap_map]
        exact flatMap_congr (fun _ _ => rfl)

/-- What a list of ids has, each id has. -/
lemma exists_page {ids : List ℕ} {pages : List Page} (h : ids.map t.heap = pages.map some)
    (hid : id ∈ ids) : ∃ page ∈ pages, t.heap id = some page := by
  have hmem : t.heap id ∈ pages.map some := h ▸ mem_map_of_mem hid
  obtain ⟨page, hpage, heq⟩ := mem_map.1 hmem
  exact ⟨page, hpage, heq.symm⟩

/-! ## The two buckets -/

/-- A bucket that has just been written has the records of its part. -/
lemma recordsAt_of_part {p : Part} {n : Node} (hn : t.nodes b = some n) (hpage : n.page = p.page)
    (hheap : n.listed.map t.heap = p.overflows.map some) : t.recordsAt b = p.records := by
  rw [recordsAt_eq hn, hpage, flatMap_tuple hheap, Part.records]

lemma Node.listed_take (n : Node) (page : Page) {k : ℕ} (hk : k ≤ n.numOverflowPages) :
    ({ n with page := page, numOverflowPages := k } : Node).listed = n.listed.take k := by
  rw [Node.listed, Node.listed, ← map_take, take_range, min_eq_left hk]

/-- **The bucket that is split** keeps the records of its part. -/
lemma Structured.writeSplit (h : Structured cfg t) (hn : t.nodes b = some n) {s : Part}
    (hs : s.Filled cfg recs) (hle : s.overflows.length ≤ n.numOverflowPages) :
    Structured cfg (t.writeSplit b n s) ∧ (t.writeSplit b n s).recordsAt b = s.records ∧
      ∀ b', b' ≠ b → (t.writeSplit b n s).recordsAt b' = t.recordsAt b' := by
  set k := s.overflows.length with hk
  set n' : Node := { n with page := s.page, numOverflowPages := k } with hn'
  set t' := t.writeSplit b n s
  have hlisted : n'.listed = n.listed.take k := n.listed_take s.page hle
  have hself : t'.nodes b = some n' := update_self _ _ _
  have hother : ∀ b', b' ≠ b → t'.nodes b' = t.nodes b' :=
    fun b' hb' => update_of_ne hb' _ _
  have hsub : n'.listed.Sublist n.listed := hlisted ▸ take_sublist k n.listed
  have hnodup : n'.listed.Nodup := (h.nodup hn).sublist hsub
  -- the overflow pages that stay are not among those that are removed
  have hkept : ∀ id ∈ n'.listed, t'.heap id = writeTuples t.heap n'.listed s.overflows id := by
    intro id hid
    have hnodup' := h.nodup hn
    rw [← take_append_drop k n.listed, nodup_append] at hnodup'
    have hdrop : id ∉ n.listed.drop k := fun hid' => hnodup'.2.2 id (hlisted ▸ hid) id hid' rfl
    rw [hlisted, hk, ← writeTuples_take]
    exact removeTuples_of_notMem hdrop
  have hheap : n'.listed.map t'.heap = s.overflows.map some := by
    rw [map_congr_left hkept, map_writeTuples hnodup]
    rw [hlisted, length_take, Node.listed, length_map, length_range,
      min_eq_left hle]
  have hfar : ∀ {b' m id}, b' ≠ b → t.nodes b' = some m → id ∈ m.listed →
      t'.heap id = t.heap id := by
    intro b' m id hne hm hid
    have hid' : id ∉ n.listed := fun hid' => hne (h.apart hm hn hid hid')
    have hdrop : id ∉ n.listed.drop k := fun hid'' => hid' (mem_of_mem_drop hid'')
    exact (removeTuples_of_notMem hdrop).trans (writeTuples_of_notMem hid')
  obtain ⟨hs', hrecs⟩ := h.replace t' n' h.rounds (h.linked_of_replace hn hself hother) hself
    hother hfar hs.page_ok hnodup
    (fun hne hm hid hid' => hne (h.apart hm hn hid' (hsub.subset hid)))
    (fun id hid => by
      obtain ⟨page, hpage, heq⟩ := exists_page hheap hid
      exact ⟨page, heq, hs.overflow_ok page hpage⟩)
  exact ⟨hs', recordsAt_of_part hself rfl hheap, hrecs⟩

/-- **The new bucket** has the records of the other part, on tuples that were not in use. -/
lemma Structured.writeBuddy (h : Structured cfg t)
    (hsplit : t.rounds.startedSplits = t.rounds.finishedSplits + 1) {d : Part} {ids : ℕ → ℕ}
    (hd : d.Filled cfg recs) (hfree : ∀ i < d.overflows.length, t.heap (ids i) = none)
    (hnodup : ((List.range d.overflows.length).map ids).Nodup) :
    Structured cfg
        { t.writeBuddy t.rounds.linked d ids with rounds := t.rounds.finishSplit } ∧
      (t.writeBuddy t.rounds.linked d ids).recordsAt t.rounds.linked = d.records ∧
      ∀ b, b ≠ t.rounds.linked →
        (t.writeBuddy t.rounds.linked d ids).recordsAt b = t.recordsAt b := by
  set n' : Node := ⟨d.page, ids, d.overflows.length⟩
  set t' := t.writeBuddy t.rounds.linked d ids
  have hself : t'.nodes t.rounds.linked = some n' := update_self _ _ _
  have hother : ∀ b', b' ≠ t.rounds.linked → t'.nodes b' = t.nodes b' :=
    fun b' hb' => update_of_ne hb' _ _
  have hfree' : ∀ id ∈ n'.listed, t.heap id = none := by
    intro id hid
    obtain ⟨i, hi, rfl⟩ := mem_map.1 hid
    exact hfree i (mem_range.1 hi)
  have hnotMem : ∀ {b' m id}, t.nodes b' = some m → id ∈ n'.listed → id ∉ m.listed :=
    fun hm hid => h.notMem_listed hm (hfree' _ hid)
  have hheap : n'.listed.map t'.heap = d.overflows.map some :=
    map_writeTuples hnodup (by simp)
  have hlinked : ∀ b', t'.nodes b' ≠ none ↔ b' < t.rounds.finishSplit.linked := by
    intro b'
    rw [h.rounds.linked_finishSplit hsplit]
    by_cases hb : b' = t.rounds.linked
    · rw [hb, hself]
      simp
    · rw [hother b' hb, h.linked b']
      omega
  obtain ⟨hs, hrecs⟩ := h.replace { t' with rounds := t.rounds.finishSplit } n'
    (h.rounds.finishSplit hsplit).1 hlinked hself hother
    (fun _ hm hid => writeTuples_of_notMem (fun hid' => hnotMem hm hid' hid)) hd.page_ok hnodup
    (fun _ hm hid => hnotMem hm hid)
    (fun id hid => by
      obtain ⟨page, hpage, heq⟩ := exists_page hheap hid
      exact ⟨page, heq, hd.overflow_ok page hpage⟩)
  exact ⟨hs, recordsAt_of_part hself rfl hheap, hrecs⟩

end TwoTree.OverflowHeap
