import TwoTree.Hashing.Buckets
import TwoTree.OverflowHeap.Table

/-!
# The buckets of the table with an overflow heap

`Structured cfg t` says that the overflow pages listed by the buckets are tuples of the heap file, that
none is listed twice, and that all pages are in order.  What the operations do to it is said for the
few ways in which they change a bucket: its own page is rewritten (`Structured.setNode`), one of its
overflow pages is rewritten (`Structured.setTuple`), or an overflow page is added to its list
(`Structured.addOverflow`).  Each of these changes one record of the bucket (`Rewritten`).
-/

namespace TwoTree.OverflowHeap

open Hashing LinearHashing Lib.Records Function List Table Option

variable {cfg : Config} {t t' : Table} {b id new : ℕ} {n n' : Node} {key value : Bytes}
  {x y : Option Bytes} {page page' : Page}

/-- The buckets of the table, and what is on their pages. -/
structure Structured (cfg : Config) (t : Table) : Prop where
  rounds : t.rounds.Ok
  linked : ∀ b, t.nodes b ≠ none ↔ b < t.rounds.linked
  ok : ∀ {b n}, t.nodes b = some n → n.page.Ok (nodeLayout cfg)
  nodup : ∀ {b n}, t.nodes b = some n → n.listed.Nodup
  apart : ∀ {b b' n n' id}, t.nodes b = some n → t.nodes b' = some n' → id ∈ n.listed →
    id ∈ n'.listed → b = b'
  tuples : ∀ {b n id}, t.nodes b = some n → id ∈ n.listed →
    ∃ page, t.heap id = some page ∧ page.Ok (overflowLayout cfg)

/-- One record of the table is changed, in its home bucket. -/
structure Rewritten (cfg : Config) (t t' : Table) (key : Bytes) (x y : Option Bytes) : Prop where
  structured : Structured cfg t'
  rounds_eq : t'.rounds = t.rounds
  home : Rewrites key x y (t.recordsAt (t.rounds.home (cfg.hashFunc key)))
    (t'.recordsAt (t.rounds.home (cfg.hashFunc key)))
  other : ∀ b, b ≠ t.rounds.home (cfg.hashFunc key) → t'.recordsAt b = t.recordsAt b

/-! ## Reading the buckets -/

lemma recordsAt_eq (hn : t.nodes b = some n) :
    t.recordsAt b = n.page.records ++ n.listed.flatMap t.tuple := by
  rw [Table.recordsAt, hn]

lemma recordsAt_congr (hnodes : t'.nodes b = t.nodes b)
    (hheap : ∀ n, t.nodes b = some n → ∀ id ∈ n.listed, t'.heap id = t.heap id) :
    t'.recordsAt b = t.recordsAt b := by
  cases hn : t.nodes b with
  | none => rw [Table.recordsAt, Table.recordsAt, hnodes, hn]
  | some n =>
    rw [recordsAt_eq hn, recordsAt_eq (hnodes.trans hn)]
    refine congrArg _ (flatMap_congr (fun id hid => ?_))
    rw [tuple, tuple, hheap n hn id hid]

lemma tuple_eq (hpage : t.heap id = some page) : t.tuple id = page.records := by
  rw [tuple, hpage]
  rfl

/-- What the counter says changes nothing else. -/
lemma Rewritten.store (h : Rewritten cfg t t' key x y) (d : ℕ) :
    Rewritten cfg t { t' with dataStored := d } key x y :=
  have hs := h.structured
  ⟨⟨hs.rounds, hs.linked, hs.ok, hs.nodup, hs.apart, hs.tuples⟩, h.rounds_eq, h.home, h.other⟩

namespace Structured

variable (h : Structured cfg t)
include h

lemma bucket_eq (hidle : t.rounds.Idle) (key : Bytes) :
    t.bucket cfg key = t.rounds.home (cfg.hashFunc key) :=
  h.rounds.bucketOf_of_idle hidle cfg.hashFunc key

lemma exists_node (key : Bytes) : ∃ n, t.nodes (t.rounds.home (cfg.hashFunc key)) = some n :=
  ne_none_iff_exists'.1 ((h.linked _).2 (t.rounds.home_lt _))

/-- A tuple that is not in use is not listed. -/
lemma notMem_listed (hn : t.nodes b = some n) (hfree : t.heap id = none) : id ∉ n.listed := by
  intro hid
  obtain ⟨page, hpage, -⟩ := h.tuples hn hid
  rw [hfree] at hpage
  cases hpage

/-- **Lookup finds a key as in the list of the bucket's records.** -/
lemma lookup_eq (hidle : t.rounds.Idle) (key : Bytes) :
    t.lookup cfg key = some ((t.recordsAt (t.rounds.home (cfg.hashFunc key))).lookup key) := by
  obtain ⟨n, hn⟩ := h.exists_node key
  have hoverflow : n.listed.findSome? (fun id =>
      (t.heap id).bind (fun page => page.get (overflowLayout cfg) key)) =
      (n.listed.flatMap t.tuple).lookup key := by
    refine findSome?_eq_lookup (fun id hid => ?_)
    obtain ⟨page, hpage, hok⟩ := h.tuples hn hid
    rw [hpage, bind_some, hok.get_eq, tuple_eq hpage]
  rw [Table.lookup, h.bucket_eq hidle, hn, recordsAt_eq hn, lookup_append]
  simp only [(h.ok hn).get_eq, hoverflow]
  cases n.page.records.lookup key <;> rfl

/-! ## Changes of a bucket -/

/-- **One bucket is replaced**, or added, and the others keep their pages. -/
lemma replace (t' : Table) (n' : Node) (hrounds : t'.rounds.Ok)
    (hlinked : ∀ b', t'.nodes b' ≠ none ↔ b' < t'.rounds.linked) (hself : t'.nodes b = some n')
    (hother : ∀ b', b' ≠ b → t'.nodes b' = t.nodes b')
    (hheap : ∀ {b' m id}, b' ≠ b → t.nodes b' = some m → id ∈ m.listed → t'.heap id = t.heap id)
    (hok : n'.page.Ok (nodeLayout cfg)) (hnodup : n'.listed.Nodup)
    (hapart : ∀ {b' m id}, b' ≠ b → t.nodes b' = some m → id ∈ n'.listed → id ∉ m.listed)
    (htuples : ∀ id ∈ n'.listed, ∃ page, t'.heap id = some page ∧ page.Ok (overflowLayout cfg)) :
    Structured cfg t' ∧ ∀ b', b' ≠ b → t'.recordsAt b' = t.recordsAt b' := by
  -- a bucket is the one that is replaced, or it is as it was
  have hcases : ∀ {b' m}, t'.nodes b' = some m → b' = b ∧ m = n' ∨ b' ≠ b ∧ t.nodes b' = some m := by
    intro b' m hm
    by_cases hb : b' = b
    · subst hb
      rw [hself] at hm
      exact Or.inl ⟨rfl, (some.inj hm).symm⟩
    · exact Or.inr ⟨hb, (hother b' hb).symm.trans hm⟩
  refine ⟨⟨hrounds, hlinked, fun {b' m} hm => ?_, fun {b' m} hm => ?_,
    fun {b₁ b₂ m₁ m₂ id} h₁ h₂ hid₁ hid₂ => ?_, fun {b' m id} hm hid => ?_⟩, fun b' hb' => ?_⟩
  · rcases hcases hm with ⟨-, rfl⟩ | ⟨-, hm⟩
    · exact hok
    · exact h.ok hm
  · rcases hcases hm with ⟨-, rfl⟩ | ⟨-, hm⟩
    · exact hnodup
    · exact h.nodup hm
  · rcases hcases h₁ with ⟨rfl, rfl⟩ | ⟨hb₁, h₁⟩
    · rcases hcases h₂ with ⟨rfl, rfl⟩ | ⟨hb₂, h₂⟩
      · rfl
      · exact absurd hid₂ (hapart hb₂ h₂ hid₁)
    · rcases hcases h₂ with ⟨rfl, rfl⟩ | ⟨-, h₂⟩
      · exact absurd hid₁ (hapart hb₁ h₁ hid₂)
      · exact h.apart h₁ h₂ hid₁ hid₂
  · rcases hcases hm with ⟨-, rfl⟩ | ⟨hb, hm⟩
    · exact htuples id hid
    · rw [hheap hb hm hid]
      exact h.tuples hm hid
  · exact recordsAt_congr (hother b' hb') (fun m hm id hid => hheap hb' hm hid)

/-- The buckets stay the same if one that is there is replaced. -/
lemma linked_of_replace (hn : t.nodes b = some n)
    (hself : t'.nodes b = some n') (hother : ∀ b', b' ≠ b → t'.nodes b' = t.nodes b') (b' : ℕ) :
    t'.nodes b' ≠ none ↔ b' < t.rounds.linked := by
  rw [← h.linked b']
  by_cases hb : b' = b
  · rw [hb, hself, hn]
    simp
  · rw [hother b' hb]

variable (hn : t.nodes (t.rounds.home (cfg.hashFunc key)) = some n)
include hn

/-- **The bucket's own page is rewritten**, and some overflow pages may be dropped from its list. -/
lemma setNode (hok : n'.page.Ok (nodeLayout cfg)) (hsub : n'.listed.Sublist n.listed)
    (hrec : Rewrites key x y (n.page.records ++ n.listed.flatMap t.tuple)
      (n'.page.records ++ n'.listed.flatMap t.tuple)) :
    Rewritten cfg t (t.setNode (t.rounds.home (cfg.hashFunc key)) n') key x y := by
  set b := t.rounds.home (cfg.hashFunc key) with hb
  have hself : (t.setNode b n').nodes b = some n' := update_self _ _ _
  have hother : ∀ b', b' ≠ b → (t.setNode b n').nodes b' = t.nodes b' :=
    fun b' hb' => update_of_ne hb' _ _
  obtain ⟨hs, hrecs⟩ := h.replace (t.setNode b n') n' h.rounds
    (h.linked_of_replace hn hself hother) hself hother (fun _ _ _ => rfl) hok ((h.nodup hn).sublist hsub)
    (fun hne hm hid hid' => hne (h.apart hm hn hid' (hsub.subset hid)))
    (fun id hid => h.tuples hn (hsub.subset hid))
  refine ⟨hs, rfl, ?_, hrecs⟩
  rw [← hb, recordsAt_eq hn, recordsAt_eq hself]
  exact hrec

lemma setPage (hok : page.Ok (nodeLayout cfg)) (hrec : Rewrites key x y n.page.records page.records) :
    Rewritten cfg t (t.setNode (t.rounds.home (cfg.hashFunc key)) { n with page := page }) key x y :=
  h.setNode hn hok (List.Sublist.refl n.listed) (hrec.context [] (n.listed.flatMap t.tuple))

/-- **An overflow page of the bucket is rewritten.** -/
lemma setTuple (hid : id ∈ n.listed) (hpage : t.heap id = some page) (hok : page'.Ok (overflowLayout cfg))
    (hrec : Rewrites key x y page.records page'.records) :
    Rewritten cfg t (t.setTuple id page') key x y := by
  have hself : (t.setTuple id page').heap id = some page' := update_self _ _ _
  have hother : ∀ id', id' ≠ id → (t.setTuple id page').heap id' = t.heap id' :=
    fun id' hne => update_of_ne hne _ _
  have hn' : (t.setTuple id page').nodes (t.rounds.home (cfg.hashFunc key)) = some n := hn
  obtain ⟨hs, hrecs⟩ := h.replace (t.setTuple id page') n h.rounds h.linked hn' (fun _ _ => rfl)
    (fun hne hm hid' => hother _ (fun heq => hne (h.apart hm hn hid' (heq ▸ hid)))) (h.ok hn)
    (h.nodup hn) (fun hne hm hid₁ hid₂ => hne (h.apart hm hn hid₂ hid₁))
    (fun id' hid' => by
      rcases eq_or_ne id' id with rfl | hne
      · exact ⟨page', hself, hok⟩
      · rw [hother id' hne]
        exact h.tuples hn hid')
  refine ⟨hs, rfl, ?_, hrecs⟩
  rw [recordsAt_eq hn, recordsAt_eq hn']
  have hpages : Rewrites key x y (n.listed.flatMap t.tuple)
      (n.listed.flatMap (t.setTuple id page').tuple) := by
    refine Rewrites.flatMap (h.nodup hn) hid ?_ (fun id' _ hne => ?_)
    · rwa [tuple_eq hpage, tuple_eq hself]
    · rw [tuple, tuple, hother id' hne]
  simpa using hpages.context n.page.records []

end Structured

/-! ## Overflow pages -/

lemma Node.listed_push (n : Node) (new : ℕ) :
    ({ n with
      overflows := update n.overflows n.numOverflowPages new
      numOverflowPages := n.numOverflowPages + 1 } : Node).listed = n.listed ++ [new] := by
  simp only [Node.listed, range_succ, map_append, map_singleton,
    update_self]
  refine congrArg (· ++ [new]) (map_congr_left (fun i hi => ?_))
  exact update_of_ne (mem_range.1 hi).ne _ _

/-- **A new overflow page**, under an id that is not in use. -/
lemma Structured.addOverflow (h : Structured cfg t)
    (hn : t.nodes (t.rounds.home (cfg.hashFunc key)) = some n) (hfree : t.heap new = none)
    (hroom : n.numOverflowPages < kOverflowSlots)
    (hfits : (Page.init (overflowLayout cfg)).canInsert (overflowLayout cfg) key value) :
    ∃ t', t.addOverflow cfg (t.rounds.home (cfg.hashFunc key)) n key value new = some t' ∧
      Rewritten cfg t t' key none (some value) := by
  set b := t.rounds.home (cfg.hashFunc key) with hb
  set page := (Page.init (overflowLayout cfg)).insert (overflowLayout cfg) key value
  set n' : Node := { n with
    overflows := update n.overflows n.numOverflowPages new
    numOverflowPages := n.numOverflowPages + 1 } with hn'
  refine ⟨(t.setTuple new page).setNode b n', if_pos ⟨hroom, hfits⟩, ?_⟩
  set t' := (t.setTuple new page).setNode b n'
  have hlisted : n'.listed = n.listed ++ [new] := n.listed_push new
  have hself : t'.nodes b = some n' := update_self _ _ _
  have hother : ∀ b', b' ≠ b → t'.nodes b' = t.nodes b' :=
    fun b' hb' => update_of_ne hb' _ _
  have hnew : t'.heap new = some page := update_self _ _ _
  have hnotMem : ∀ {b' m}, t.nodes b' = some m → new ∉ m.listed :=
    fun hm => h.notMem_listed hm hfree
  have hheap : ∀ {b' m id}, t.nodes b' = some m → id ∈ m.listed → t'.heap id = t.heap id :=
    fun hm hid => update_of_ne (ne_of_mem_of_not_mem hid (hnotMem hm)) _ _
  have hnodup : n'.listed.Nodup := by
    rw [hlisted, ← concat_eq_append]
    exact (h.nodup hn).concat (hnotMem hn)
  have hapart : ∀ {b' m id}, b' ≠ b → t.nodes b' = some m → id ∈ n'.listed → id ∉ m.listed := by
    intro b' m id hne hm hid
    rw [hlisted, mem_append, mem_singleton] at hid
    rcases hid with hid | rfl
    · exact fun hid' => hne (h.apart hm hn hid' hid)
    · exact hnotMem hm
  have htuples : ∀ id ∈ n'.listed, ∃ page, t'.heap id = some page ∧
      page.Ok (overflowLayout cfg) := by
    intro id hid
    rw [hlisted, mem_append, mem_singleton] at hid
    rcases hid with hid | rfl
    · rw [hheap hn hid]
      exact h.tuples hn hid
    · exact ⟨page, hnew, Page.init_ok.insert hfits⟩
  obtain ⟨hs, hrecs⟩ := h.replace t' n' h.rounds (h.linked_of_replace hn hself hother) hself hother
    (fun _ => hheap) (show n.page.Ok _ from h.ok hn) hnodup hapart htuples
  refine ⟨hs, rfl, ?_, hrecs⟩
  have hold : n.listed.flatMap t'.tuple = n.listed.flatMap t.tuple :=
    flatMap_congr (fun id hid => by rw [tuple, tuple, hheap hn hid])
  rw [← hb, recordsAt_eq hn, recordsAt_eq hself, hlisted, flatMap_append,
    flatMap_singleton, tuple_eq hnew, hold]
  exact ⟨n.page.records ++ n.listed.flatMap t.tuple, [], by simp [entry], by
    simp [entry, page, hn']⟩

/-! ## The loops over the overflow pages -/

section Loops

variable {f : Page → Option Page} {ids : List ℕ}

lemma exists_of_firstOverflow (h : t.firstOverflow f ids = some t') :
    ∃ id ∈ ids, ∃ page page', t.heap id = some page ∧ f page = some page' ∧
      t' = t.setTuple id page' := by
  induction ids with
  | nil => cases h
  | cons id ids ih =>
    unfold firstOverflow at h
    cases hf : (t.heap id).bind f with
    | some page' =>
      rw [hf] at h
      obtain ⟨page, hpage, hpage'⟩ := bind_eq_some_iff.1 hf
      exact ⟨id, mem_cons_self, page, page', hpage, hpage', (some.inj h).symm⟩
    | none =>
      rw [hf] at h
      obtain ⟨id', hid', hrest⟩ := ih h
      exact ⟨id', mem_cons_of_mem _ hid', hrest⟩

lemma none_of_firstOverflow (h : t.firstOverflow f ids = none) (hid : id ∈ ids)
    (hpage : t.heap id = some page) : f page = none := by
  induction ids with
  | nil => cases hid
  | cons id' ids ih =>
    unfold firstOverflow at h
    cases hf : (t.heap id').bind f with
    | some page' =>
      rw [hf] at h
      cases h
    | none =>
      rw [hf] at h
      rcases mem_cons.1 hid with rfl | hid
      · rwa [hpage] at hf
      · exact ih h hid

end Loops

/-- **The loops over the overflow pages** change one record, if the step on a page does. -/
lemma Structured.firstOverflow {f : Page → Option Page} (h : Structured cfg t)
    (hn : t.nodes (t.rounds.home (cfg.hashFunc key)) = some n) {P : Option Bytes → Prop}
    (hf : ∀ {id page page'}, id ∈ n.listed → t.heap id = some page → page.Ok (overflowLayout cfg) →
      f page = some page' →
        page'.Ok (overflowLayout cfg) ∧ ∃ x, P x ∧ Rewrites key x y page.records page'.records)
    (hrun : t.firstOverflow f n.listed = some t') : ∃ x, P x ∧ Rewritten cfg t t' key x y := by
  obtain ⟨id, hid, page, page', hpage, hpage', rfl⟩ := exists_of_firstOverflow hrun
  obtain ⟨q, hq, hok⟩ := h.tuples hn hid
  obtain rfl : page = q := some.inj (hpage.symm.trans hq)
  obtain ⟨hok', x, hx, hr⟩ := hf hid hpage hok hpage'
  exact ⟨x, hx, h.setTuple hn hid hpage hok' hr⟩

variable (h : Structured cfg t)
include h

/-- The key is on no overflow page that a loop has searched in vain. -/
lemma Structured.notMem_of_loop (hn : t.nodes b = some n)
    {g : Page → ℕ → Page} (hrun : t.firstOverflow (fun page =>
      (page.find (overflowLayout cfg) key).map (g page)) n.listed = none) :
    key ∉ (n.listed.flatMap t.tuple).map Prod.fst := by
  intro hmem
  obtain ⟨r, hr, rfl⟩ := mem_map.1 hmem
  obtain ⟨id, hid, hr⟩ := mem_flatMap.1 hr
  obtain ⟨page, hpage, hok⟩ := h.tuples hn hid
  have hnone := none_of_firstOverflow hrun hid hpage
  rw [map_eq_none_iff, hok.find_eq_none_iff] at hnone
  rw [tuple_eq hpage] at hr
  exact hnone (mem_map_of_mem hr)

variable (hn : t.nodes (t.rounds.home (cfg.hashFunc key)) = some n)
include hn

lemma Structured.insertLoop (hrun : t.insertLoop cfg key value n.listed = some t') :
    Rewritten cfg t t' key none (some value) := by
  obtain ⟨x, rfl, hr⟩ := h.firstOverflow hn (y := some value) (P := (· = none))
    (fun {id page page'} _ _ hok hpage' => by
      split_ifs at hpage' with hroom
      cases hpage'
      exact ⟨hok.insert hroom, none, rfl, page.rewrites_insert key value⟩) hrun
  exact hr

lemma Structured.updateLoop (hlen : ∀ v, (key, v) ∈ n.listed.flatMap t.tuple → v.length = value.length)
    (hrun : t.updateLoop cfg key value n.listed = some t') :
    ∃ v, Rewritten cfg t t' key (some v) (some value) := by
  obtain ⟨x, ⟨v, rfl⟩, hr⟩ := h.firstOverflow hn (y := some value) (P := fun x => ∃ v, x = some v)
    (fun {id page page'} hid hpage hok hpage' => by
      obtain ⟨i, hi, rfl⟩ := map_eq_some_iff.1 hpage'
      have hlen' : ∀ v, (key, v) ∈ page.records → v.length = value.length := fun v hv =>
        hlen v (mem_flatMap.2 ⟨id, hid, by rwa [tuple_eq hpage]⟩)
      obtain ⟨v, hv⟩ := hok.rewrites_update hi hlen'
      exact ⟨hok.update hi hlen', some v, ⟨v, rfl⟩, hv⟩) hrun
  exact ⟨v, hr⟩

lemma Structured.removeLoop (hrun : t.removeLoop cfg key n.listed = some t') :
    ∃ v, Rewritten cfg t t' key (some v) none := by
  obtain ⟨x, ⟨v, rfl⟩, hr⟩ := h.firstOverflow hn (y := none) (P := fun x => ∃ v, x = some v)
    (fun {id page page'} _ _ hok hpage' => by
      obtain ⟨i, hi, rfl⟩ := map_eq_some_iff.1 hpage'
      obtain ⟨v, hv⟩ := hok.rewrites_removeSlot hi
      exact ⟨hok.removeSlot hi, some v, ⟨v, rfl⟩, hv⟩) hrun
  exact ⟨v, hr⟩

end TwoTree.OverflowHeap
