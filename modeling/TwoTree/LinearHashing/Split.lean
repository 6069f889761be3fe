import TwoTree.LinearHashing.Chains

/-!
# Splitting a bucket

The section of a split that moves the records does three things: it distributes the records of the
chain over new pages in memory, it writes these over the pages of the chain and up to two others, and
it ends the split.  The three are described in this order, and `Structured.moveRecords` puts them
together: the split bucket keeps the records that stay at home there, in their order, and the new
bucket gets the others.

That the section succeeds is shown for records of one size: then the new pages are as full as pages
can be, and one more than the chain had is enough (`length_distribute`).
-/

namespace TwoTree.LinearHashing

open Hashing Lib.Chain Lib.Records Function List Page Table

variable {cfg : Config} {t t' : Table} {c : ℕ → List ℕ}

/-! ## Distributing the records -/

namespace Vector

variable {v : Vector} {recs : List (Bytes × Bytes)} {r : Bytes × Bytes}

/-- The vector has these records, on pages that are in order. -/
structure Filled (cfg : Config) (v : Vector) (recs : List (Bytes × Bytes)) : Prop where
  ok : ∀ p ∈ v.pages, p.Ok cfg.layout
  records : v.pages.flatMap Page.records = recs

lemma filled_init (cfg : Config) : (init cfg).Filled cfg [] := by
  refine ⟨fun p hp => ?_, rfl⟩
  obtain rfl : p = Page.init cfg.layout := by simpa [init, pages] using hp
  exact init_ok

lemma Filled.back_ok (h : v.Filled cfg recs) : v.back.Ok cfg.layout := h.ok _ (by simp [pages])

lemma Filled.add (h : v.Filled cfg recs)
    (hfits : (Page.init cfg.layout).canInsert cfg.layout r.1 r.2) :
    (v.add cfg r).Filled cfg (recs ++ [r]) := by
  have hok := h.ok
  have hrecs := h.records
  simp only [pages, mem_append, mem_singleton, flatMap_append,
    flatMap_singleton] at hok hrecs
  unfold Vector.add
  split_ifs with hback
  · refine ⟨fun p hp => ?_, ?_⟩
    · simp only [pages, mem_append, mem_singleton] at hp
      rcases hp with hp | rfl
      · exact hok p (Or.inl hp)
      · exact h.back_ok.insert hback
    · simp [pages, ← hrecs]
  · refine ⟨fun p hp => ?_, ?_⟩
    · simp only [pages, mem_append, mem_singleton] at hp
      rcases hp with (hp | rfl) | rfl
      · exact hok p (Or.inl hp)
      · exact h.back_ok
      · exact init_ok.insert hfits
    · simp [pages, ← hrecs]

end Vector

/-- What adding a record maintains holds of both vectors in the end: the records of the one have the
split bucket as their bucket of the next round, and those of the other have not. -/
lemma distribute_induction {P : Vector → List (Bytes × Bytes) → Prop} (splitBucket power : ℕ)
    {recs : List (Bytes × Bytes)} (hinit : P (Vector.init cfg) [])
    (hadd : ∀ v l r, r ∈ recs → P v l → P (v.add cfg r) (l ++ [r])) :
    P (distribute cfg splitBucket power recs).1
        (recs.filter (fun r => hash cfg.hashFunc r.1 (power + 1) = splitBucket)) ∧
      P (distribute cfg splitBucket power recs).2
        (recs.filter (fun r => ¬ hash cfg.hashFunc r.1 (power + 1) = splitBucket)) := by
  -- the two vectors after some of the records, from any two before them
  have hfold : ∀ (l l₁ l₂ : List (Bytes × Bytes)) (v₁ v₂ : Vector),
      (∀ r ∈ l, r ∈ recs) → P v₁ l₁ → P v₂ l₂ →
      let v := l.foldl (fun tmp r =>
        if hash cfg.hashFunc r.1 (power + 1) = splitBucket then (tmp.1.add cfg r, tmp.2)
        else (tmp.1, tmp.2.add cfg r)) (v₁, v₂)
      P v.1 (l₁ ++ l.filter (fun r => hash cfg.hashFunc r.1 (power + 1) = splitBucket)) ∧
        P v.2 (l₂ ++ l.filter (fun r => ¬ hash cfg.hashFunc r.1 (power + 1) = splitBucket)) := by
    intro l
    induction l with
    | nil =>
      intro l₁ l₂ v₁ v₂ _ h₁ h₂
      simpa using And.intro h₁ h₂
    | cons r l ih =>
      intro l₁ l₂ v₁ v₂ hl h₁ h₂
      have hr := hl r mem_cons_self
      have hl' : ∀ r ∈ l, r ∈ recs := fun r hr => hl r (mem_cons_of_mem _ hr)
      by_cases hb : hash cfg.hashFunc r.1 (power + 1) = splitBucket
      · simpa [hb] using ih _ _ _ _ hl' (hadd v₁ l₁ r hr h₁) h₂
      · simpa [hb] using ih _ _ _ _ hl' h₁ (hadd v₂ l₂ r hr h₂)
  exact hfold recs [] [] _ _ (fun _ hr => hr) hinit hinit

/-! ## Writing the pages -/

section Write

variable {pages : ℕ → Node} {ps : List ℕ} {ns : List Page} {ptr : Option ℕ} {q : ℕ}

/-- The links of some pages. -/
def links (pages : ℕ → Node) (p : ℕ) : Option ℕ := (pages p).overflow

lemma writeSplit_of_notMem (hq : q ∉ ps) : writeSplit pages ps ns q = pages q := by
  induction ps generalizing pages ns with
  | nil => cases ns <;> rfl
  | cons p ps ih =>
    simp only [mem_cons, not_or] at hq
    match ns with
    | [] => rfl
    | [n] => exact update_of_ne hq.1 _ _
    | n :: n' :: ns =>
      rw [writeSplit, ih hq.2]
      exact update_of_ne hq.1 _ _

lemma writeSplit_append (ps' : List ℕ) (hlen : ns.length ≤ ps.length) :
    writeSplit pages (ps ++ ps') ns = writeSplit pages ps ns := by
  induction ps generalizing pages ns with
  | nil =>
    obtain rfl : ns = [] := by simpa using hlen
    cases ps' <;> rfl
  | cons p ps ih =>
    match ns with
    | [] => rfl
    | [n] => rfl
    | n :: n' :: ns =>
      rw [cons_append, writeSplit, writeSplit, ih (by simpa using hlen)]

lemma page_writeSplit (hps : ps.Nodup) (hlen : ns.length ≤ ps.length) :
    (ps.take ns.length).map (fun p => (writeSplit pages ps ns p).page) = ns := by
  induction ps generalizing pages ns with
  | nil =>
    obtain rfl : ns = [] := by simpa using hlen
    rfl
  | cons p ps ih =>
    obtain ⟨hp, hps⟩ := nodup_cons.1 hps
    match ns with
    | [] => rfl
    | [n] => simp [writeSplit]
    | n :: n' :: ns =>
      have hself : (writeSplit (update pages p ⟨n, (pages p).overflow⟩) ps
          (n' :: ns) p).page = n := by
        rw [writeSplit_of_notMem hp, update_self]
      rw [length_cons, take_succ_cons, map_cons]
      simp only [writeSplit]
      rw [hself, ih hps (by simpa using hlen)]

/-- The pages that stay in the bucket are a chain. -/
lemma isChain_writeSplit (hchain : IsChain (links pages) ptr ps) (hne : ns ≠ [])
    (hlen : ns.length ≤ ps.length) :
    IsChain (links (writeSplit pages ps ns)) ptr (ps.take ns.length) := by
  induction ps generalizing pages ns ptr with
  | nil => exact absurd (by simpa using hlen) hne
  | cons p ps ih =>
    have hp := (nodup_cons.1 hchain.nodup).1
    match ns with
    | [] => exact absurd rfl hne
    | [n] =>
      refine ⟨hchain.1, ?_⟩
      simp [links, writeSplit]
    | n :: n' :: ns =>
      have hsame : links (update pages p ⟨n, (pages p).overflow⟩) = links pages := by
        funext a
        rcases eq_or_ne a p with rfl | ha
        · simp [links]
        · simp [links, ha]
      have htail : IsChain (links (update pages p ⟨n, (pages p).overflow⟩))
          (links pages p) ps := by
        rw [hsame]
        exact hchain.2
      refine ⟨hchain.1, ?_⟩
      rw [writeSplit, links, writeSplit_of_notMem hp, update_self]
      exact ih htail (cons_ne_nil n' ns) (by simpa using hlen)

/-- What the loop over the new bucket's pages does, from a page `prev` that is linked to the first. -/
structure BuddyWritten (pages pages' : ℕ → Node) (prev : Option ℕ) (ps : List ℕ) (ns : List Page) :
    Prop where
  written : (ps.take ns.length).map (fun p => (pages' p).page) = ns
  kept : ∀ q, q ∉ ps → prev ≠ some q → pages' q = pages q
  page_prev : ∀ q, prev = some q → (pages' q).page = (pages q).page
  link_prev : ns ≠ [] → ∀ q, prev = some q → links pages' q = ps.head?
  chain : ns ≠ [] → IsChain (links pages') ps.head? (ps.take ns.length)

/-- One turn of the loop. -/
def writeBuddyPage (pages : ℕ → Node) (prev : Option ℕ) (p : ℕ) (n : Page) : ℕ → Node :=
  match prev with
  | some q => update (update pages p ⟨n, none⟩) q
      { update pages p ⟨n, none⟩ q with overflow := some p }
  | none => update pages p ⟨n, none⟩

lemma writeBuddy_cons (prev : Option ℕ) (p : ℕ) (n : Page) :
    writeBuddy pages prev (p :: ps) (n :: ns) =
      writeBuddy (writeBuddyPage pages prev p n) (some p) ps ns := by
  cases prev <;> rfl

lemma writeBuddyPage_self {prev : Option ℕ} {p : ℕ} (n : Page) (hne : prev ≠ some p) :
    writeBuddyPage pages prev p n p = ⟨n, none⟩ := by
  cases prev with
  | none => exact update_self _ _ _
  | some a =>
    have hpa : p ≠ a := fun heq => hne (by rw [heq])
    simp [writeBuddyPage, hpa]

lemma writeBuddyPage_of_ne {prev : Option ℕ} {p : ℕ} (n : Page) (hq : q ≠ p)
    (hprev : prev ≠ some q) : writeBuddyPage pages prev p n q = pages q := by
  cases prev with
  | none => exact update_of_ne hq _ _
  | some a =>
    have hqa : q ≠ a := fun heq => hprev (by rw [heq])
    simp [writeBuddyPage, hqa, hq]

lemma writeBuddyPage_prev {p : ℕ} (n : Page) (hq : q ≠ p) :
    writeBuddyPage pages (some q) p n q = { pages q with overflow := some p } := by
  simp [writeBuddyPage, hq]

/-- **The pages of the new bucket are written and linked.** -/
lemma buddyWritten {prev : Option ℕ} (hps : ps.Nodup) (hprev : ∀ q, prev = some q → q ∉ ps)
    (hlen : ns.length ≤ ps.length) :
    BuddyWritten pages (writeBuddy pages prev ps ns) prev ps ns := by
  induction ps generalizing pages prev ns with
  | nil =>
    obtain rfl : ns = [] := by simpa using hlen
    exact ⟨rfl, fun _ _ _ => rfl, fun _ _ => rfl, fun h => absurd rfl h, fun h => absurd rfl h⟩
  | cons p ps ih =>
    obtain ⟨hp, hps⟩ := nodup_cons.1 hps
    cases ns with
    | nil =>
      exact ⟨rfl, fun _ _ _ => rfl, fun _ _ => rfl, fun h => absurd rfl h,
        fun h => absurd rfl h⟩
    | cons n ns =>
      have hne : prev ≠ some p := fun h => hprev p h mem_cons_self
      have hnotMem : ∀ q, prev = some q → q ≠ p ∧ q ∉ ps := fun q h => by
        simpa using hprev q h
      rw [writeBuddy_cons]
      set pages₁ := writeBuddyPage pages prev p n with hpages₁
      have hself : pages₁ p = ⟨n, none⟩ := writeBuddyPage_self n hne
      have hrest : BuddyWritten pages₁ (writeBuddy pages₁ (some p) ps ns) (some p) ps ns :=
        ih hps (by rintro q ⟨⟩; exact hp) (by simpa using hlen)
      -- the page before this one is not touched any more
      have hbefore : ∀ q, prev = some q →
          writeBuddy pages₁ (some p) ps ns q = { pages q with overflow := some p } := by
        rintro q rfl
        obtain ⟨hqp, hq⟩ := hnotMem q rfl
        rw [hrest.kept q hq (by simpa using hqp.symm), hpages₁, writeBuddyPage_prev n hqp]
      refine ⟨?_, fun q hq hq' => ?_, fun q hq => by rw [hbefore q hq], fun _ q hq => ?_,
        fun _ => ⟨rfl, ?_⟩⟩
      · rw [length_cons, take_succ_cons, map_cons, hrest.page_prev p rfl, hself,
          hrest.written]
      · simp only [mem_cons, not_or] at hq
        rw [hrest.kept q hq.2 (by simpa using Ne.symm hq.1), hpages₁,
          writeBuddyPage_of_ne n hq.1 hq']
      · rw [links, hbefore q hq]
        rfl
      -- the last page is linked to none, the others to the next
      rcases eq_or_ne ns [] with rfl | hns
      · simpa [links, writeBuddy] using congrArg Node.overflow hself
      · rw [hrest.link_prev hns p rfl]
        exact hrest.chain hns

end Write

/-! ## The section as a whole -/

/-- The latched pages are those of the chain, and some of the two others. -/
lemma exists_splitGuards (chain : List ℕ) (splits buddies temp1 temp2 : ℕ) :
    ∃ rest, splitGuards chain splits buddies temp1 temp2 = chain ++ rest ∧
      rest.Sublist [temp1, temp2] := by
  unfold splitGuards
  split_ifs
  · exact ⟨_, rfl, List.Sublist.refl _⟩
  · exact ⟨[temp1], rfl, by simp⟩
  · exact ⟨[], by simp, nil_sublist _⟩

/-- What a split leaves: the records of the split bucket are divided between it and the new bucket,
and all others are where they were. -/
structure Moved (cfg : Config) (t : Table) (c : ℕ → List ℕ) (t' : Table) (c' : ℕ → List ℕ) : Prop where
  structured : Structured cfg t' c'
  rounds_eq : t'.rounds = t.rounds.finishSplit
  stay : t'.recordsOf (c' t.rounds.finishedSplits) =
    (t.recordsOf (c t.rounds.finishedSplits)).filter
      (fun r => t'.rounds.home (cfg.hashFunc r.1) = t.rounds.finishedSplits)
  moved : t'.recordsOf (c' t.rounds.linked) =
    (t.recordsOf (c t.rounds.finishedSplits)).filter
      (fun r => ¬ t'.rounds.home (cfg.hashFunc r.1) = t.rounds.finishedSplits)
  other : ∀ b, b ≠ t.rounds.finishedSplits → b ≠ t.rounds.linked →
    c' b = c b ∧ t'.recordsOf (c' b) = t.recordsOf (c b)
  ptr_other : ∀ b, b ≠ t.rounds.linked → t'.bucketPtrs b = t.bucketPtrs b

lemma Moved.forall_records {c' : ℕ → List ℕ} (hm : Moved cfg t c t' c') {P : Bytes × Bytes → Prop}
    (h : ∀ b, ∀ r ∈ t.recordsOf (c b), P r) : ∀ b, ∀ r ∈ t'.recordsOf (c' b), P r := by
  intro b r hr
  by_cases hb : b = t.rounds.finishedSplits
  · rw [hb, hm.stay] at hr
    exact h _ r (mem_filter.1 hr).1
  · by_cases hb' : b = t.rounds.linked
    · rw [hb', hm.moved] at hr
      exact h _ r (mem_filter.1 hr).1
    · exact h b r ((hm.other b hb hb').2 ▸ hr)

/-- The pages after a split, in the terms of the two chains that it makes of one. -/
structure PagesMoved (cfg : Config) (t t' : Table) (C S D : List ℕ) (buddy temp1 temp2 : ℕ)
    (splits buddies : List Page) : Prop where
  rounds_eq : t'.rounds = t.rounds.finishSplit
  ptr_buddy : IsChain t'.next (t'.bucketPtrs buddy) D
  ptr_split : ∀ b, b ≠ buddy → t'.bucketPtrs b = t.bucketPtrs b
  chain_split : ∀ ptr, IsChain t.next ptr C → IsChain t'.next ptr S
  kept : ∀ q, q ∉ C → q ≠ temp1 → q ≠ temp2 → t'.pages q = t.pages q
  disjoint : S.Disjoint D
  split_sub : ∀ q ∈ S, q ∈ C
  buddy_sub : ∀ q ∈ D, q ∈ C ∨ q = temp1 ∨ q = temp2
  splits_eq : S.map (fun p => (t'.pages p).page) = splits
  buddies_eq : D.map (fun p => (t'.pages p).page) = buddies
  allocated_eq : t'.allocated = max t.allocated (max temp1 temp2 + 1)

/-- The pages that `moveRecords` writes. -/
lemma pagesMoved {buddy temp1 temp2 sb : ℕ} (hsb : buddy - N * 2 ^ t.rounds.power = sb)
    (hnodup : (t.chain sb).Nodup) (h₁ : temp1 ∉ t.chain sb) (h₂ : temp2 ∉ t.chain sb)
    (hne : temp1 ≠ temp2) (hmove : t.moveRecords cfg buddy temp1 temp2 = some t') :
    PagesMoved cfg t t' (t.chain sb) (t.splitPages cfg buddy temp1 temp2).left
      (t.splitPages cfg buddy temp1 temp2).buddy buddy temp1 temp2
      (distribute cfg sb t.rounds.power (t.recordsOf (t.chain sb))).1.pages
      (distribute cfg sb t.rounds.power (t.recordsOf (t.chain sb))).2.pages := by
  simp only [moveRecords, splitPages, hsb, recordsOf] at hmove ⊢
  set C := t.chain sb with hC
  set splits := (distribute cfg sb t.rounds.power (C.flatMap t.recordsAt)).1.pages with hsplits
  set buddies := (distribute cfg sb t.rounds.power (C.flatMap t.recordsAt)).2.pages with hbuddies
  obtain ⟨rest, hguards, hrest⟩ := exists_splitGuards C splits.length buddies.length temp1 temp2
  have hsplitsNe : splits ≠ [] := by simp [hsplits, Vector.pages]
  have hbuddiesNe : buddies ≠ [] := by simp [hbuddies, Vector.pages]
  rw [hguards] at hmove ⊢
  split_ifs at hmove with hrange
  simp only [not_or, not_lt] at hrange
  obtain ⟨-, hlen, hlenC⟩ := hrange
  have hmem : ∀ q ∈ rest, q = temp1 ∨ q = temp2 := fun q hq => by simpa using hrest.subset hq
  have hdisjoint : C.Disjoint rest := by
    intro q hq hq'
    rcases hmem q hq' with rfl | rfl
    · exact h₁ hq
    · exact h₂ hq
  have hguardsNodup : (C ++ rest).Nodup :=
    hnodup.append (hrest.nodup (by simpa using hne)) hdisjoint
  have htake : (C ++ rest).take splits.length = C.take splits.length :=
    take_append_of_le_length hlenC
  have hparts : (C.take splits.length).Disjoint ((C ++ rest).drop splits.length) := by
    rw [← htake]
    exact disjoint_take_drop hguardsNodup le_rfl
  have hbw : BuddyWritten (writeSplit t.pages (C ++ rest) splits)
      (writeBuddy (writeSplit t.pages (C ++ rest) splits) none ((C ++ rest).drop splits.length)
        buddies) none ((C ++ rest).drop splits.length) buddies :=
    buddyWritten (hguardsNodup.sublist (drop_sublist _ _)) (by simp) (by simp at hlen ⊢; omega)
  have hwritten : ∀ q ∈ C.take splits.length,
      writeBuddy (writeSplit t.pages (C ++ rest) splits) none ((C ++ rest).drop splits.length)
        buddies q = writeSplit t.pages C splits q := fun q hq => by
    rw [hbw.kept q (hparts hq) (by simp), writeSplit_append _ hlenC]
  have hdropMem : ∀ q ∈ (C ++ rest).drop splits.length, q ∈ C ∨ q = temp1 ∨ q = temp2 := by
    intro q hq
    rcases mem_append.1 (mem_of_mem_drop hq) with hq | hq
    · exact Or.inl hq
    · exact Or.inr (hmem q hq)
  cases hmove
  rw [htake]
  refine ⟨rfl, ?_, fun b hb => update_of_ne hb _ _, fun ptr hchain => ?_, fun q hqC hq₁ hq₂ => ?_, ?_,
    fun q hq => mem_of_mem_take hq, fun q hq => hdropMem q (mem_of_mem_take hq), ?_,
    hbw.written, rfl⟩
  · simp only [update_self]
    rw [show (C ++ rest)[splits.length]? = ((C ++ rest).drop splits.length).head? by
      rw [head?_drop]]
    exact hbw.chain hbuddiesNe
  · have hstay : IsChain (links (writeSplit t.pages C splits)) ptr (C.take splits.length) :=
      isChain_writeSplit hchain hsplitsNe hlenC
    exact hstay.congr (fun q hq => congrArg Node.overflow (hwritten q hq))
  · have hq : q ∉ C ++ rest := by
      rw [mem_append, not_or]
      exact ⟨hqC, fun h => by rcases hmem q h with rfl | rfl <;> contradiction⟩
    simp only
    rw [hbw.kept q (fun h => hq (mem_of_mem_drop h)) (by simp), writeSplit_of_notMem hq]
  · exact fun q hq hq' => hparts hq (mem_of_mem_take hq')
  · have hpages : (C.take splits.length).map (fun p => (writeSplit t.pages C splits p).page) =
        splits := page_writeSplit hnodup hlenC
    exact (map_congr_left (fun q hq => congrArg Node.page (hwritten q hq))).trans hpages

/-- A record on a page fits on an empty page. -/
lemma canInsert_init {p : Page} (hp : p.Ok cfg.layout) {r : Bytes × Bytes} (hr : r ∈ p.records) :
    (Page.init cfg.layout).canInsert cfg.layout r.1 r.2 := by
  obtain ⟨s, hs, rfl⟩ := mem_map.1 hr
  have hsize : s.size ≤ p.spaceUsed := by
    rw [hp.spaceUsed_eq]
    exact single_le_sum (by simp) _ (mem_map_of_mem hs)
  have hcount : 0 < p.count := length_pos_of_mem hs
  have hmeta := hp.metadata_le
  have hdata := hp.data_le
  rw [Page.canInsert, Page.init_ok.hasEnoughSpaceFor_iff]
  simp only [Slot.size, Page.spaceUsedForData, Page.metadataUsed, Page.init, Page.count,
    length_nil, spaceNeeded, slotSize] at *
  omega

lemma canInsert_init_of_mem {C : List ℕ} (hok : ∀ p ∈ C, (t.pages p).page.Ok cfg.layout)
    {r : Bytes × Bytes} (hr : r ∈ t.recordsOf C) :
    (init cfg.layout).canInsert cfg.layout r.1 r.2 := by
  obtain ⟨p, hp, hr⟩ := mem_flatMap.1 hr
  exact canInsert_init (hok p hp) hr

lemma recordsOf_of_map {ps : List ℕ} {ns : List Page}
    (h : ps.map (fun p => (t.pages p).page) = ns) : t.recordsOf ps = ns.flatMap records := by
  rw [← h, flatMap_map]
  rfl

/-- **The records move to their new homes.** -/
lemma Structured.moveRecords (h : Structured cfg t c)
    (hsplit : t.rounds.startedSplits = t.rounds.finishedSplits + 1) {temp1 temp2 : ℕ}
    (h₁ : Free c temp1) (h₂ : Free c temp2) (hne : temp1 ≠ temp2)
    (hmove : t.moveRecords cfg t.rounds.linked temp1 temp2 = some t') :
    ∃ c', Moved cfg t c t' c' ∧
      ∀ q, q ∉ c t.rounds.finishedSplits → q ≠ temp1 → q ≠ temp2 → t'.pages q = t.pages q := by
  set sb := t.rounds.finishedSplits with hsb
  set buddy := t.rounds.linked with hbuddy
  have hchainEq := h.chain_eq sb
  have hsbLt : sb < buddy := lt_of_lt_of_le h.rounds.finished_lt (Nat.le_add_right _ _)
  have hsub : buddy - N * 2 ^ t.rounds.power = sb := Nat.add_sub_cancel_left _ _
  have hm := pagesMoved hsub
    (hchainEq ▸ (h.chain sb).nodup) (hchainEq ▸ h₁ sb) (hchainEq ▸ h₂ sb) hne hmove
  rw [hchainEq] at hm
  generalize (t.splitPages cfg buddy temp1 temp2).left = S at hm
  generalize (t.splitPages cfg buddy temp1 temp2).buddy = D at hm
  obtain ⟨hfillS, hfillD⟩ := distribute_induction sb t.rounds.power
    (Vector.filled_init cfg) (fun _ _ r hr hv => hv.add (canInsert_init_of_mem (fun _ hp => h.ok hp) hr))
  have hrecS := (recordsOf_of_map hm.splits_eq).trans hfillS.records
  have hrecD := (recordsOf_of_map hm.buddies_eq).trans hfillD.records
  have hSne : S ≠ [] := by
    rintro rfl
    simpa [Vector.pages] using hm.splits_eq
  have hDne : D ≠ [] := by
    rintro rfl
    simpa [Vector.pages] using hm.buddies_eq
  have hhome : ∀ r ∈ t.recordsOf (c sb),
      t'.rounds.home (cfg.hashFunc r.1) = hash cfg.hashFunc r.1 (t.rounds.power + 1) ∧
        (t'.rounds.home (cfg.hashFunc r.1) = sb ∨ t'.rounds.home (cfg.hashFunc r.1) = buddy) := by
    intro r hr
    rw [hm.rounds_eq]
    exact h.rounds.home_finishSplit_of_eq hsplit (h.placed hr)
  -- the pages of the other chains are none of those written
  have houter : ∀ b q, b ≠ sb → q ∈ c b →
      q ∉ c sb ∧ q ≠ temp1 ∧ q ≠ temp2 := fun b q hb hq =>
    ⟨fun hq' => hb (h.apart hq hq'), ne_of_mem_of_not_mem hq (h₁ b), ne_of_mem_of_not_mem hq (h₂ b)⟩
  have hother : ∀ b q, b ≠ sb → q ∈ c b → t'.pages q = t.pages q := fun b q hb hq =>
    hm.kept q (houter b q hb hq).1 (houter b q hb hq).2.1 (houter b q hb hq).2.2
  have hrecs : ∀ b, b ≠ sb → t'.recordsOf (c b) = t.recordsOf (c b) := fun b hb =>
    recordsOf_congr (fun q hq => hother b q hb hq)
  set c' := update (update c sb S) buddy D with hc'
  have hcBuddy : c' buddy = D := update_self _ _ _
  have hcSplit : c' sb = S := by
    rw [hc', update_of_ne hsbLt.ne, update_self]
  have hcOther : ∀ b, b ≠ sb → b ≠ buddy → c' b = c b := fun b hb hb' => by
    rw [hc', update_of_ne hb', update_of_ne hb]
  have hcases : ∀ b, b = buddy ∧ c' b = D ∨ b = sb ∧ c' b = S ∨
      (b ≠ sb ∧ b ≠ buddy) ∧ c' b = c b := by
    intro b
    by_cases hb : b = buddy
    · exact Or.inl ⟨hb, hb ▸ hcBuddy⟩
    · by_cases hb' : b = sb
      · exact Or.inr (Or.inl ⟨hb', hb' ▸ hcSplit⟩)
      · exact Or.inr (Or.inr ⟨⟨hb', hb⟩, hcOther b hb' hb⟩)
  have hstay : t'.recordsOf (c' sb) =
      (t.recordsOf (c sb)).filter (fun r => t'.rounds.home (cfg.hashFunc r.1) = sb) := by
    rw [hcSplit, hrecS]
    exact filter_congr (fun r hr => by rw [(hhome r hr).1])
  have hmoved : t'.recordsOf (c' buddy) =
      (t.recordsOf (c sb)).filter (fun r => ¬ t'.rounds.home (cfg.hashFunc r.1) = sb) := by
    rw [hcBuddy, hrecD]
    exact filter_congr (fun r hr => by rw [(hhome r hr).1])
  refine ⟨c', ⟨⟨?_, fun b => ?_, fun {b b' q} hq hq' => ?_, fun {b q} hq => ?_, fun b => ?_,
    fun {b q} hq => ?_, fun {b r} hr => ?_⟩, hm.rounds_eq, hstay, hmoved, fun b hb hb' =>
      ⟨hcOther b hb hb', by rw [hcOther b hb hb', hrecs b hb]⟩, hm.ptr_split⟩, hm.kept⟩
  · exact hm.rounds_eq ▸ (h.rounds.finishSplit hsplit).1
  · rcases hcases b with ⟨rfl, heq⟩ | ⟨rfl, heq⟩ | ⟨⟨hb, hb'⟩, heq⟩ <;> rw [heq]
    · exact hm.ptr_buddy
    · rw [hm.ptr_split sb hsbLt.ne]
      exact hm.chain_split _ (h.chain sb)
    · rw [hm.ptr_split b hb']
      exact (h.chain b).congr (fun q hq => congrArg Node.overflow (hother b q hb hq))
  · have hSout : ∀ b, b ≠ sb → q ∈ c b → q ∉ S ∧ q ∉ D := fun b hb hq =>
      ⟨fun hqS => (houter b q hb hq).1 (hm.split_sub q hqS), fun hqD => by
        obtain ⟨h₀, ht₁, ht₂⟩ := houter b q hb hq
        rcases hm.buddy_sub q hqD with hqC | hqt | hqt <;> contradiction⟩
    rcases hcases b with ⟨rfl, heq⟩ | ⟨rfl, heq⟩ | ⟨⟨hb, -⟩, heq⟩ <;>
      rcases hcases b' with ⟨hb', heq'⟩ | ⟨hb', heq'⟩ | ⟨⟨hb', -⟩, heq'⟩ <;>
      rw [heq] at hq <;> rw [heq'] at hq'
    · exact hb'.symm
    · exact absurd hq (hm.disjoint hq')
    · exact absurd hq (hSout b' hb' hq').2
    · exact absurd hq' (hm.disjoint hq)
    · exact hb'.symm
    · exact absurd hq (hSout b' hb' hq').1
    · exact absurd hq' (hSout b hb hq).2
    · exact absurd hq' (hSout b hb hq).1
    · exact h.apart hq hq'
  · rw [hm.allocated_eq]
    rcases hcases b with ⟨-, heq⟩ | ⟨-, heq⟩ | ⟨-, heq⟩ <;> rw [heq] at hq
    · rcases hm.buddy_sub q hq with hqC | rfl | rfl
      · exact lt_of_lt_of_le (h.allocated hqC) (le_max_left _ _)
      · omega
      · omega
    · exact lt_of_lt_of_le (h.allocated (hm.split_sub q hq)) (le_max_left _ _)
    · exact lt_of_lt_of_le (h.allocated hq) (le_max_left _ _)
  · rw [hm.rounds_eq, h.rounds.linked_finishSplit hsplit, ← hbuddy]
    rcases hcases b with ⟨rfl, heq⟩ | ⟨rfl, heq⟩ | ⟨⟨hb, hb'⟩, heq⟩ <;> rw [heq]
    · exact iff_of_true hDne (Nat.lt_succ_self _)
    · exact iff_of_true hSne (Nat.lt_succ_of_lt hsbLt)
    · rw [h.linked b]
      omega
  · rcases hcases b with ⟨-, heq⟩ | ⟨-, heq⟩ | ⟨⟨hb, -⟩, heq⟩ <;> rw [heq] at hq
    · refine hfillD.ok _ ?_
      rw [← hm.buddies_eq]
      exact mem_map_of_mem hq
    · refine hfillS.ok _ ?_
      rw [← hm.splits_eq]
      exact mem_map_of_mem hq
    · rw [hother b q hb hq]
      exact h.ok hq
  · rcases hcases b with ⟨rfl, -⟩ | ⟨rfl, -⟩ | ⟨⟨hb, -⟩, heq⟩
    · rw [hmoved, mem_filter] at hr
      exact (hhome r hr.1).2.resolve_left (by simpa using hr.2)
    · rw [hstay, mem_filter] at hr
      simpa using hr.2
    · rw [heq, hrecs b hb] at hr
      rw [hm.rounds_eq, h.rounds.home_finishSplit_of_ne hsplit, h.placed hr]
      rw [h.placed hr]
      exact hb

/-! ## Records of one size -/

/-- The number of records of size `n` that a page has room for. -/
def capacity (n : ℕ) : ℕ := (effectivePageSize - 32) / (slotSize + n)

/-- All records have the size `n`. -/
def Sized (n : ℕ) (recs : List (Bytes × Bytes)) : Prop :=
  ∀ r ∈ recs, r.1.length + r.2.length = n

section Sized

variable {n : ℕ} {p : Page}

lemma spaceUsed_of_sized (hp : p.Ok cfg.layout) (hn : Sized n p.records) :
    p.spaceUsed = p.count * n := by
  have hsize : ∀ m ∈ p.slots.map Slot.size, m = n := by
    intro m hm
    obtain ⟨s, hs, rfl⟩ := mem_map.1 hm
    exact hn (s.key, s.payload) (mem_map_of_mem hs)
  rw [hp.spaceUsed_eq, eq_replicate_of_mem hsize]
  simp [Page.count]

/-- A page is full when it has as many records as there is room for. -/
lemma canInsert_iff (hp : p.Ok cfg.layout) (hn : Sized n p.records) {r : Bytes × Bytes}
    (hr : r.1.length + r.2.length = n) :
    p.canInsert cfg.layout r.1 r.2 ↔ p.count + 1 ≤ capacity n := by
  have hmul : (p.count + 1) * (slotSize + n) = slotSize * p.count + p.count * n + (slotSize + n) := by
    ring
  have hlayout : cfg.layout.pageSize = effectivePageSize ∧ cfg.layout.headerSize = 32 := ⟨rfl, rfl⟩
  have hsize : 32 ≤ effectivePageSize := by decide
  rw [canInsert, hp.hasEnoughSpaceFor_iff, capacity, Nat.le_div_iff_mul_le (by simp [slotSize]),
    hmul, spaceUsedForData, metadataUsed, spaceUsed_of_sized hp hn, spaceNeeded, hlayout.1,
    hlayout.2]
  omega

lemma count_le_capacity (hp : p.Ok cfg.layout) (hn : Sized n p.records) : p.count ≤ capacity n := by
  have hmul : p.count * (slotSize + n) = slotSize * p.count + p.count * n := by ring
  have hmeta := hp.metadata_le
  have hdata := hp.data_le
  have hlayout : cfg.layout.pageSize = effectivePageSize ∧ cfg.layout.headerSize = 32 := ⟨rfl, rfl⟩
  rw [capacity, Nat.le_div_iff_mul_le (by simp [slotSize]), hmul]
  rw [spaceUsed_of_sized hp hn, hlayout.1] at hdata
  rw [metadataUsed, hlayout.2] at hmeta
  omega

lemma length_records (p : Page) : p.records.length = p.count := length_map _

/-- Full pages, and a last one that is not empty unless it is the only one. -/
structure Vector.Packed (n : ℕ) (v : Vector) : Prop where
  full : ∀ p ∈ v.full, capacity n ≤ p.count
  back : v.full ≠ [] → 0 < v.back.count

/-- Adding a record of size `n`. -/
lemma Vector.Packed.add {v : Vector} {recs : List (Bytes × Bytes)} {r : Bytes × Bytes}
    (h : v.Packed n) (hv : v.Filled cfg recs) (hrecs : Sized n recs)
    (hr : r.1.length + r.2.length = n) : (v.add cfg r).Packed n := by
  have hback : Sized n v.back.records := by
    intro r' hr'
    refine hrecs r' ?_
    rw [← hv.records]
    exact mem_flatMap.2 ⟨v.back, by simp [Vector.pages], hr'⟩
  have hcount : ∀ p : Page, 0 < (p.insert cfg.layout r.1 r.2).count := fun p => by
    rw [← length_records]
    simp
  unfold Vector.add
  split_ifs with hfits
  · exact ⟨h.full, fun _ => hcount _⟩
  refine ⟨fun p hp => ?_, fun _ => hcount _⟩
  rcases mem_append.1 hp with hp | hp
  · exact h.full p hp
  · rw [canInsert_iff hv.back_ok hback hr] at hfits
    rw [mem_singleton.1 hp]
    omega

lemma le_length_flatMap {ps : List Page} {m : ℕ} (h : ∀ p ∈ ps, m ≤ p.count) :
    ps.length * m ≤ (ps.flatMap records).length := by
  induction ps with
  | nil => simp
  | cons p ps ih =>
    have hp := h p mem_cons_self
    have hps := ih (fun q hq => h q (mem_cons_of_mem _ hq))
    rw [length_cons, flatMap_cons, length_append, length_records, add_mul]
    omega

/-- A packed vector has no more pages than its records fill. -/
lemma Vector.Packed.le_length {v : Vector} {recs : List (Bytes × Bytes)} (h : v.Packed n)
    (hv : v.Filled cfg recs) :
    v.full.length * capacity n ≤ recs.length ∧
      (v.full ≠ [] → v.full.length * capacity n < recs.length) := by
  have hfull := le_length_flatMap h.full
  have hlen : recs.length = (v.full.flatMap records).length + v.back.count := by
    rw [← hv.records, Vector.pages, flatMap_append, length_append,
      flatMap_singleton, length_records]
  refine ⟨by omega, fun hne => ?_⟩
  have hback := h.back hne
  omega

/-- A chain has no more records than its pages have room for. -/
lemma length_recordsOf_le {C : List ℕ} (hok : ∀ p ∈ C, (t.pages p).page.Ok cfg.layout)
    (hn : Sized n (t.recordsOf C)) : (t.recordsOf C).length ≤ C.length * capacity n := by
  induction C with
  | nil => simp [recordsOf]
  | cons q C ih =>
    have hle : (t.pages q).page.count ≤ capacity n :=
      count_le_capacity (hok q mem_cons_self)
        (fun r hr => hn r (mem_flatMap.2 ⟨q, mem_cons_self, hr⟩))
    have hrest := ih (fun p hp => hok p (mem_cons_of_mem _ hp)) (fun r hr => hn r (by
      rw [recordsOf, flatMap_cons]
      exact mem_append_right _ hr))
    have hcons : (t.recordsOf (q :: C)).length =
        (t.pages q).page.count + (t.recordsOf C).length := by
      rw [recordsOf, flatMap_cons, length_append, recordsAt, length_records]
      rfl
    rw [hcons, length_cons, add_mul]
    omega

/-- **The new pages**: those that stay are no more than the chain had, and all together are at most one
more. -/
lemma length_distribute {C : List ℕ} (hok : ∀ p ∈ C, (t.pages p).page.Ok cfg.layout) (b power : ℕ)
    (hn : Sized n (t.recordsOf C)) (hcap : 0 < capacity n) (hne : C ≠ []) :
    (distribute cfg b power (t.recordsOf C)).1.pages.length ≤ C.length ∧
      (distribute cfg b power (t.recordsOf C)).1.pages.length +
        (distribute cfg b power (t.recordsOf C)).2.pages.length ≤ C.length + 1 := by
  obtain ⟨⟨hfS, -, hpS⟩, ⟨hfD, -, hpD⟩⟩ := distribute_induction
    (P := fun v l => v.Filled cfg l ∧ Sized n l ∧ v.Packed n) b power
    ⟨Vector.filled_init cfg, by simp [Sized], by simp [Vector.init], by simp [Vector.init]⟩
    (fun v l r hr hv => ⟨hv.1.add (canInsert_init_of_mem hok hr), fun r' hr' => by
      rcases mem_append.1 hr' with hr' | hr'
      · exact hv.2.1 r' hr'
      · rw [mem_singleton.1 hr']
        exact hn r hr, hv.2.2.add hv.1 hv.2.1 (hn r hr)⟩)
  obtain ⟨hleS, hltS⟩ := hpS.le_length hfS
  obtain ⟨hleD, hltD⟩ := hpD.le_length hfD
  have htotal := length_recordsOf_le hok hn
  have hparts : ((t.recordsOf C).filter (fun r =>
        hash cfg.hashFunc r.1 (power + 1) = b)).length +
      ((t.recordsOf C).filter (fun r => ¬ hash cfg.hashFunc r.1 (power + 1) = b)).length =
      (t.recordsOf C).length := by
    simpa using (filter_append_perm (fun r : Bytes × Bytes =>
      decide (hash cfg.hashFunc r.1 (power + 1) = b)) (t.recordsOf C)).length_eq
  have hlen : 1 ≤ C.length := length_pos_iff.2 hne
  simp only [Vector.pages, length_append, length_singleton]
  constructor
  · by_cases hfull : (distribute cfg b power (t.recordsOf C)).1.full = []
    · rw [hfull]
      exact hlen
    · have hlt := hltS hfull
      exact Nat.lt_of_mul_lt_mul_right (a := capacity n) (by omega)
  · -- pages that are full before the last ones leave room for fewer than all
    have hlt : (distribute cfg b power (t.recordsOf C)).1.full.length +
        (distribute cfg b power (t.recordsOf C)).2.full.length < C.length := by
      by_cases hS : (distribute cfg b power (t.recordsOf C)).1.full = []
      · by_cases hD : (distribute cfg b power (t.recordsOf C)).2.full = []
        · rw [hS, hD]
          exact hlen
        · have hlt := hltD hD
          rw [hS, length_nil, zero_add]
          exact Nat.lt_of_mul_lt_mul_right (a := capacity n) (by omega)
      · have hlt := hltS hS
        exact Nat.lt_of_mul_lt_mul_right (a := capacity n) (by rw [add_mul]; omega)
    omega

/-- **A split of a chain of at most eight pages succeeds.** -/
lemma Structured.exists_moveRecords (h : Structured cfg t c) (temp1 temp2 : ℕ)
    (hn : Sized n (t.recordsOf (c t.rounds.finishedSplits))) (hcap : 0 < capacity n)
    (hlen : (c t.rounds.finishedSplits).length ≤ 8) :
    ∃ t', t.moveRecords cfg t.rounds.linked temp1 temp2 = some t' := by
  have hne : c t.rounds.finishedSplits ≠ [] :=
    (h.linked _).2 (lt_of_lt_of_le h.rounds.finished_lt (Nat.le_add_right _ _))
  obtain ⟨hsplits, hboth⟩ := length_distribute (fun _ hp => h.ok hp) t.rounds.finishedSplits
    t.rounds.power hn hcap hne
  have hsb : t.rounds.linked - N * 2 ^ t.rounds.power = t.rounds.finishedSplits :=
    Nat.add_sub_cancel_left _ _
  simp only [recordsOf] at hsplits hboth
  simp only [Table.moveRecords, hsb, h.chain_eq]
  refine ⟨_, if_neg ?_⟩
  unfold splitGuards
  split_ifs <;> simp only [length_append, length_cons, length_nil, kNTempNodes] <;>
    omega

end Sized

end TwoTree.LinearHashing
