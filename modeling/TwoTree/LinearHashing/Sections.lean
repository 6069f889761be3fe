import TwoTree.LinearHashing.Split

/-!
# What writers do under their latches

Many threads use the table at once.  A writer changes it only while it has latched the pages it
changes, so that for everybody else the change is one step: a `Section`.  The operations are made of
such sections in the following way.

* `insert` and `remove` compute the bucket, latch its first page, and check the split pointer again.
  Then they go from page to page, each latched before the one behind it is let go, until one takes or
  has the record.  Since a split of the bucket has to latch all its pages, the bucket is the key's
  `home` all that time.  Pages on the way are latched and left as they are (`pass`).
* `merge_chain` goes the same way, and merges two pages it has latched.
* `split` advances the split pointer first, without any page, and moves the records in one section
  over the whole chain.  A mutex keeps other splits away from its start to its end.

`Section.Ok` says when a section can be met; it leaves out in which order a thread gets there, so that
it allows more than the threads do.  `Section.kept` collects what one section cannot do to the record
of a key it does not work on.
-/

namespace TwoTree.LinearHashing

open Hashing Lib.Chain Lib.Records Function List

variable {cfg : Config} {t t' : Table} {c c' : ℕ → List ℕ} {k key value : Bytes} {p q new : ℕ}

/-- A latched section of a writer. -/
inductive Section where
  | pass (p : ℕ)
  | insert (p : ℕ) (key value : Bytes)
  | addOverflow (p new : ℕ) (key value : Bytes)
  | remove (p : ℕ) (key : Bytes)
  | merge (pp target : ℕ)
  | startSplit
  | moveRecords (temp1 temp2 : ℕ)
deriving DecidableEq, Repr

namespace Section

/-- What the section does to the table. -/
def run (cfg : Config) (t : Table) : Section → Table
  | .pass _ => t
  | .insert p key value => t.insertAt cfg p key value
  | .addOverflow p new key value => t.addOverflow cfg p new key value
  | .remove p key =>
    match (t.pages p).page.find cfg.layout key with
    | some i => t.removeAt p i
    | none => t
  | .merge pp target => t.mergeAt cfg pp target
  | .startSplit => { t with rounds := t.rounds.startSplit.getD t.rounds }
  | .moveRecords temp1 temp2 => (t.moveRecords cfg t.rounds.linked temp1 temp2).getD t

/-- The pages whose latches the section holds. -/
def latched (t : Table) : Section → List ℕ
  | .pass p => [p]
  | .insert p _ _ => [p]
  | .addOverflow p new _ _ => [p, new]
  | .remove p _ => [p]
  | .merge pp target => [pp, target]
  | .startSplit => []
  | .moveRecords temp1 temp2 => t.chain t.rounds.finishedSplits ++ [temp1, temp2]

/-- When a writer can be in the section. -/
def Ok (cfg : Config) (t : Table) : Section → Prop
  | .pass _ => True
  | .insert p key value =>
    p ∈ t.chain (t.rounds.home (cfg.hashFunc key)) ∧
      (t.pages p).page.canInsert cfg.layout key value
  | .addOverflow p new key value =>
    (t.chain (t.rounds.home (cfg.hashFunc key))).getLast? = some p ∧
      ¬ (t.pages p).page.canInsert cfg.layout key value ∧
      (Page.init cfg.layout).canInsert cfg.layout key value ∧ Free t.chain new
  | .remove p key => p ∈ t.chain (t.rounds.home (cfg.hashFunc key))
  | .merge pp target =>
    (∃ b, pp ∈ t.chain b) ∧ t.next pp = some target ∧
      (t.pages pp).page.hasEnoughSpaceFor cfg.layout
        ((t.pages target).page.spaceUsedForData cfg.layout)
  | .startSplit => t.rounds.Idle ∧ t.rounds.buddyBucket < tableSlots
  | .moveRecords temp1 temp2 =>
    ¬ t.rounds.Idle ∧ Free t.chain temp1 ∧ Free t.chain temp2 ∧ temp1 ≠ temp2 ∧
      (t.moveRecords cfg t.rounds.linked temp1 temp2).isSome

/-- The section does not work on the record of this key. -/
def Spares (k : Bytes) : Section → Prop
  | .insert _ key _ => key ≠ k
  | .addOverflow _ _ key _ => key ≠ k
  | .remove _ key => key ≠ k
  | _ => True

end Section

/-- The tables that writers can get to. -/
inductive Reachable (cfg : Config) : Table → Prop
  | create : Reachable cfg (Table.create cfg)
  | step {t : Table} (s : Section) : Reachable cfg t → s.Ok cfg t → Reachable cfg (s.run cfg t)

/-! ## What a reader can rely on -/

/-- The key has a record in its home bucket. -/
def Present (cfg : Config) (k : Bytes) (t : Table) : Prop :=
  k ∈ (t.recordsOf (t.chain (t.rounds.home (cfg.hashFunc k)))).map Prod.fst

instance (cfg : Config) (k : Bytes) (t : Table) : Decidable (Present cfg k t) :=
  inferInstanceAs (Decidable (_ ∈ _))

/-- The page is in the key's home bucket, and the key has a record on it or behind it. -/
def Ahead (cfg : Config) (k : Bytes) (t : Table) (p : ℕ) : Prop :=
  p ∈ t.chain (t.rounds.home (cfg.hashFunc k)) ∧
    ∃ l, IsChain t.next (some p) l ∧ k ∈ (t.recordsOf l).map Prod.fst

/-- The table is in order. -/
def Table.Ordered (cfg : Config) (t : Table) : Prop := Structured cfg t t.chain

lemma Structured.ordered (h : Structured cfg t c) : t.Ordered cfg := by
  have hchain : t.chain = c := funext h.chain_eq
  rw [Table.Ordered, hchain]
  exact h

/-- What a section leaves to a reader that looks for `k`. -/
structure Kept (cfg : Config) (k : Bytes) (t t' : Table) (latched : List ℕ) : Prop where
  ordered : t'.Ordered cfg
  present : Present cfg k t → Present cfg k t'
  ptrs : ∀ b p, t.bucketPtrs b = some p → t'.bucketPtrs b = some p
  pages : ∀ p, p ∉ latched → t'.pages p = t.pages p
  ahead : ∀ p, p ∉ latched → Ahead cfg k t p → Ahead cfg k t' p
  power_le : t.rounds.power ≤ t'.rounds.power
  buddyBucket_le : t.rounds.buddyBucket ≤ t'.rounds.buddyBucket

/-- The pages behind a page of a chain are in the chain. -/
lemma Structured.mem_of_isChain (h : Structured cfg t c) {b : ℕ} (hp : p ∈ c b) {l : List ℕ}
    (hl : IsChain t.next (some p) l) : ∀ a ∈ l, a ∈ c b := by
  obtain ⟨l₁, l₂, hsplit⟩ := append_of_mem hp
  have hchain := h.chain b
  rw [hsplit] at hchain
  obtain rfl : l = p :: l₂ := hl.unique ⟨rfl, hchain.tail⟩
  intro a ha
  rw [hsplit]
  exact mem_append_right _ ha

/-! ## The sections one by one -/

namespace Kept

variable {latched : List ℕ}

variable (h : Structured cfg t c)
include h

/-- Nothing but the counters of the splits that have been started is changed. -/
lemma of_rounds {rounds : Rounds} (hok : rounds.Ok)
    (hpower : rounds.power = t.rounds.power) (hfin : rounds.finishedSplits = t.rounds.finishedSplits)
    (hbuddy : t.rounds.buddyBucket ≤ rounds.buddyBucket) (latched : List ℕ) :
    Kept cfg k t { t with rounds := rounds } latched := by
  have hhome : ∀ a, rounds.home a = t.rounds.home a := fun a => by
    rw [Rounds.home, Rounds.home, hpower, hfin]
  refine ⟨(h.setRounds hok hpower hfin).ordered, fun hp => ?_, fun _ _ h => h, fun _ _ => rfl, fun p _ hp => ?_, hpower.ge,
    hbuddy⟩
  · simp only [Present, hhome] at hp ⊢
    exact hp
  · simp only [Ahead, hhome] at hp ⊢
    exact hp

/-- The links stay, and so do the records of the key. -/
lemma of_records (hs : Structured cfg t' c) (hrounds : t'.rounds = t.rounds)
    (hptrs : t'.bucketPtrs = t.bucketPtrs) (hnext : t'.next = t.next)
    (hpages : ∀ p, p ∉ latched → t'.pages p = t.pages p)
    (hrecs : ∀ p r, r ∈ t.recordsAt p → r.1 = k → r ∈ t'.recordsAt p) :
    Kept cfg k t t' latched := by
  have hchain : t.chain = c := funext h.chain_eq
  have hchain' : t'.chain = c := funext hs.chain_eq
  have hkept : ∀ l : List ℕ, k ∈ (t.recordsOf l).map Prod.fst →
      k ∈ (t'.recordsOf l).map Prod.fst := by
    intro l hk
    obtain ⟨r, hr, rfl⟩ := mem_map.1 hk
    obtain ⟨a, ha, hr⟩ := mem_flatMap.1 hr
    exact mem_map_of_mem (mem_flatMap.2 ⟨a, ha, hrecs a r hr rfl⟩)
  refine ⟨hs.ordered, fun hp => ?_, fun b p hp => by rw [hptrs]; exact hp, hpages,
    fun p _ hp => ?_, hrounds ▸ le_rfl, hrounds ▸ le_rfl⟩
  · rw [Present, hchain] at hp
    rw [Present, hchain', hrounds]
    exact hkept _ hp
  · obtain ⟨hmem, l, hl, hk⟩ := hp
    rw [hchain] at hmem
    rw [Ahead, hchain', hrounds, hnext]
    exact ⟨hmem, l, hl, hkept l hk⟩

/-- A page is rewritten at a record of another key. -/
lemma of_setPage {x y : Option Bytes} {page : Page}
    (hp : p ∈ c (t.rounds.home (cfg.hashFunc key))) (hok : page.Ok cfg.layout)
    (hrec : Rewrites key x y (t.recordsAt p) page.records) (hne : key ≠ k) (n : ℕ) :
    Kept cfg k t { t.setPage p page with dataStored := n } [p] := by
  refine of_records h (h.setPage hp hok hrec n).structured rfl rfl (next_setPage t p page)
    (fun q hq => pages_setPage_of_ne t page (by simpa using hq)) (fun q r hr hk => ?_)
  rcases eq_or_ne q p with rfl | hq
  · have hself : Table.recordsAt { t.setPage q page with dataStored := n } q = page.records :=
      congrArg Page.records (page_setPage_self t q page)
    rw [hself]
    exact hrec.mem_of_ne (by rw [hk]; exact hne.symm) hr
  · have hother : Table.recordsAt { t.setPage p page with dataStored := n } q = t.recordsAt q :=
      congrArg (fun n : Node => n.page.records) (pages_setPage_of_ne t page hq)
    rwa [hother]

lemma insert (hp : p ∈ c (t.rounds.home (cfg.hashFunc key)))
    (hfits : (t.pages p).page.canInsert cfg.layout key value) (hne : key ≠ k) :
    Kept cfg k t (t.insertAt cfg p key value) [p] :=
  of_setPage h hp ((h.ok hp).insert hfits) (Page.rewrites_insert _ key value) hne _

lemma remove (hp : p ∈ c (t.rounds.home (cfg.hashFunc key))) {i : ℕ}
    (hi : (t.pages p).page.find cfg.layout key = some i) (hne : key ≠ k) :
    Kept cfg k t (t.removeAt p i) [p] := by
  obtain ⟨v, hv⟩ := (h.ok hp).rewrites_removeSlot hi
  exact of_setPage h hp ((h.ok hp).removeSlot hi) hv hne _

/-- The new page comes behind all others of its chain. -/
lemma addOverflow {l : List ℕ}
    (hl : c (t.rounds.home (cfg.hashFunc key)) = l ++ [p]) (hfree : Free c new)
    (hfits : (Page.init cfg.layout).canInsert cfg.layout key value) :
    Kept cfg k t (t.addOverflow cfg p new key value) [p, new] := by
  have hr := h.addOverflow hl hfree hfits
  have hs := hr.structured
  have hchain : t.chain = c := funext h.chain_eq
  have hchain' := funext hs.chain_eq
  have hlast : t.next p = none := by
    have hchainP := h.chain (t.rounds.home (cfg.hashFunc key))
    rw [hl] at hchainP
    exact hchainP.tail
  -- pages stay in the chains they are in
  have hmem : ∀ b a, a ∈ c b →
      a ∈ update c (t.rounds.home (cfg.hashFunc key)) (l ++ [p, new]) b := by
    intro b a ha
    by_cases hb : b = t.rounds.home (cfg.hashFunc key)
    · rw [hb, update_self]
      rw [hb, hl] at ha
      simp only [mem_append, mem_cons] at ha ⊢
      tauto
    · rwa [update_of_ne hb]
  have hkept : ∀ l : List ℕ, new ∉ l →
      (t.addOverflow cfg p new key value).recordsOf l = t.recordsOf l := fun l hnew =>
    flatMap_congr (fun a ha => congrArg Page.records
      (page_addOverflow_of_ne t key value (ne_of_mem_of_not_mem ha hnew)))
  refine ⟨hs.ordered, fun hp => ?_, fun _ _ h => h, fun a ha => ?_, fun a _ ha => ?_, le_rfl, le_rfl⟩
  · rw [Present, hchain] at hp
    rw [Present, hchain']
    obtain ⟨r, hr, rfl⟩ := mem_map.1 hp
    obtain ⟨a, ha, hr⟩ := mem_flatMap.1 hr
    refine mem_map_of_mem (mem_flatMap.2 ⟨a, hmem _ a ha, ?_⟩)
    rwa [show (t.addOverflow cfg p new key value).recordsAt a = t.recordsAt a from
      congrArg Page.records (page_addOverflow_of_ne t key value
        (ne_of_mem_of_not_mem ha (hfree _)))]
  · simp only [mem_cons, not_mem_nil, or_false, not_or] at ha
    simp [Table.addOverflow, ha.1, ha.2]
  · obtain ⟨hin, m, hm, hk⟩ := ha
    rw [hchain] at hin
    have hnew : new ∉ m := fun hmem => hfree _ (h.mem_of_isChain hin hm new hmem)
    rw [Ahead, hchain']
    refine ⟨hmem _ a hin, ?_⟩
    by_cases hp : p ∈ m
    · -- the page that gets the link is the last one on the way
      obtain ⟨m₁, rfl⟩ := hm.append_of_last hp hlast
      refine ⟨m₁ ++ [p, new], isChain_addOverflow hm hnew, ?_⟩
      rw [show m₁ ++ [p, new] = (m₁ ++ [p]) ++ [new] by simp, Table.recordsOf, flatMap_append,
        map_append, mem_append]
      left
      have hsame := hkept (m₁ ++ [p]) hnew
      rw [Table.recordsOf] at hsame
      rwa [hsame]
    · refine ⟨m, ?_, by rwa [hkept m hnew]⟩
      rw [next_addOverflow]
      exact (hm.update_of_notMem hnew).update_of_notMem hp

/-- The records of the merged page are on the page before it. -/
lemma merge {b : ℕ} (hp : p ∈ c b) (hnext : t.next p = some q)
    (hfits : (t.pages p).page.hasEnoughSpaceFor cfg.layout
      ((t.pages q).page.spaceUsedForData cfg.layout)) :
    Kept cfg k t (t.mergeAt cfg p q) [p, q] := by
  obtain ⟨l₁, l₂, hl⟩ := (h.chain b).append_of_next hp hnext
  obtain ⟨hs, hrecs⟩ := h.mergeAt hl hfits
  have hchain : t.chain = c := funext h.chain_eq
  have hchain' := funext hs.chain_eq
  refine ⟨hs.ordered, fun hp => ?_, fun _ _ h => h, fun a ha => ?_, fun a ha hahead => ?_, le_rfl,
    le_rfl⟩
  · rw [Present, hchain] at hp
    rw [Present, hchain']
    exact (hrecs _).symm ▸ hp
  · simp only [mem_cons, not_or] at ha
    exact pages_mergeAt_of_ne t q ha.1
  simp only [mem_cons, not_mem_nil, or_false, not_or] at ha
  obtain ⟨hin, m, hm, hk⟩ := hahead
  rw [hchain] at hin
  rw [Ahead, hchain']
  constructor
  · by_cases hb : t.rounds.home (cfg.hashFunc k) = b
    · show a ∈ update c b (l₁ ++ p :: l₂) (t.rounds.home (cfg.hashFunc k))
      rw [hb, update_self]
      rw [hb, hl] at hin
      simp only [mem_append, mem_cons] at hin ⊢
      tauto
    · show a ∈ update c b (l₁ ++ p :: l₂) (t.rounds.home (cfg.hashFunc k))
      rwa [update_of_ne hb]
  · by_cases hpm : p ∈ m
    · obtain ⟨m₁, m₂, rfl⟩ := hm.append_of_next hpm hnext
      exact ⟨m₁ ++ p :: m₂, isChain_mergeAt hm, by rwa [recordsOf_mergeAt hm.nodup]⟩
    refine ⟨m, ?_, ?_⟩
    · rw [next_mergeAt]
      exact hm.update_of_notMem hpm
    · rwa [recordsOf_congr
        (fun a ha => pages_mergeAt_of_ne t q (ne_of_mem_of_not_mem ha hpm))]

/-- The pages of the other chains are not touched, and in the split bucket every page is latched. -/
lemma moveRecords (hsplit : ¬ t.rounds.Idle) {temp1 temp2 : ℕ}
    (h₁ : Free c temp1) (h₂ : Free c temp2) (hne : temp1 ≠ temp2)
    (hmove : t.moveRecords cfg t.rounds.linked temp1 temp2 = some t') :
    Kept cfg k t t' (c t.rounds.finishedSplits ++ [temp1, temp2]) := by
  have hunder : t.rounds.startedSplits = t.rounds.finishedSplits + 1 := by
    have hle := h.rounds.finished_le
    have hle' := h.rounds.started_le
    have hne : t.rounds.startedSplits ≠ t.rounds.finishedSplits := hsplit
    omega
  obtain ⟨c', hm, hkept⟩ := h.moveRecords hunder h₁ h₂ hne hmove
  have hs := hm.structured
  have hchain : t.chain = c := funext h.chain_eq
  have hchain' : t'.chain = c' := funext hs.chain_eq
  have hpages : ∀ p, p ∉ c t.rounds.finishedSplits ++ [temp1, temp2] → t'.pages p = t.pages p := by
    intro p hp
    simp only [mem_append, mem_cons, not_mem_nil, or_false, not_or] at hp
    exact hkept p hp.1 hp.2.1 hp.2.2
  -- a key at home elsewhere stays there
  have hstays : t.rounds.home (cfg.hashFunc k) ≠ t.rounds.finishedSplits →
      t'.rounds.home (cfg.hashFunc k) = t.rounds.home (cfg.hashFunc k) ∧
      c' (t.rounds.home (cfg.hashFunc k)) = c (t.rounds.home (cfg.hashFunc k)) ∧
      t'.recordsOf (c' (t.rounds.home (cfg.hashFunc k))) =
        t.recordsOf (c (t.rounds.home (cfg.hashFunc k))) := by
    intro hb
    refine ⟨?_, hm.other _ hb (t.rounds.home_lt _).ne⟩
    rw [hm.rounds_eq]
    exact h.rounds.home_finishSplit_of_ne hunder hb
  refine ⟨hs.ordered, fun hp => ?_, fun b p hp => ?_, hpages, fun p hp hahead => ?_, ?_, ?_⟩
  · rw [Present, hchain] at hp
    rw [Present, hchain']
    by_cases hb : t.rounds.home (cfg.hashFunc k) = t.rounds.finishedSplits
    · obtain ⟨r, hr, hrk⟩ := mem_map.1 hp
      rw [hb] at hr
      refine mem_map.2 ⟨r, ?_, hrk⟩
      have hnew := (h.rounds.home_finishSplit_of_eq hunder hb).2
      rw [← hm.rounds_eq] at hnew
      by_cases hstay : t'.rounds.home (cfg.hashFunc k) = t.rounds.finishedSplits
      · rw [hstay, hm.stay]
        exact mem_filter.2 ⟨hr, decide_eq_true (by rw [hrk]; exact hstay)⟩
      · rw [hnew.resolve_left hstay, hm.moved]
        exact mem_filter.2 ⟨hr, decide_eq_true (by rw [hrk]; exact hstay)⟩
    · obtain ⟨hhome, -, hrecs⟩ := hstays hb
      rwa [hhome, hrecs]
  · rw [hm.ptr_other b, hp]
    rintro rfl
    exact absurd (h.bucketPtrs_ne_none_iff.1 (by rw [hp]; simp)) (lt_irrefl _)
  · obtain ⟨hin, l, hl, hk⟩ := hahead
    rw [hchain] at hin
    have hb : t.rounds.home (cfg.hashFunc k) ≠ t.rounds.finishedSplits := fun hb => by
      rw [hb] at hin
      exact hp (mem_append_left _ hin)
    obtain ⟨hhome, hc, -⟩ := hstays hb
    have hsame : ∀ a ∈ l, t'.pages a = t.pages a := by
      intro a ha
      have hmem := h.mem_of_isChain hin hl a ha
      refine hkept a (fun hsb => hb (h.apart hmem hsb)) ?_ ?_
      · exact ne_of_mem_of_not_mem hmem (h₁ _)
      · exact ne_of_mem_of_not_mem hmem (h₂ _)
    rw [Ahead, hchain', hhome, hc]
    refine ⟨hin, l, hl.congr (fun a ha => congrArg Node.overflow (hsame a ha)), ?_⟩
    rwa [recordsOf_congr hsame]
  · rw [hm.rounds_eq]
    exact Rounds.power_le_finishSplit _
  · rw [hm.rounds_eq, Rounds.finishSplit_buddyBucket]

end Kept

/-- **What a section leaves to a reader**, if it does not work on the reader's key. -/
lemma Section.kept {s : Section} (h : t.Ordered cfg) (hok : s.Ok cfg t) (hspares : s.Spares k) :
    Kept cfg k t (s.run cfg t) (s.latched t) := by
  have hrefl : ∀ latched, Kept cfg k t t latched := fun latched =>
    Kept.of_rounds h h.rounds rfl rfl le_rfl latched
  cases s with
  | pass p => exact hrefl _
  | insert p key value => exact Kept.insert h hok.1 hok.2 hspares
  | addOverflow p new key value =>
    obtain ⟨hlast, -, hfits, hfree⟩ := hok
    obtain ⟨l, hl⟩ := getLast?_eq_some_iff.1 hlast
    exact Kept.addOverflow h hl hfree hfits
  | remove p key =>
    simp only [Section.run, Section.latched]
    cases hi : (t.pages p).page.find cfg.layout key with
    | none => exact hrefl _
    | some i => exact Kept.remove h hok hi hspares
  | merge pp target =>
    obtain ⟨⟨b, hb⟩, hnext, hfits⟩ := hok
    exact Kept.merge h hb hnext hfits
  | startSplit =>
    have hstart := h.rounds.startSplit hok.1
    simp only [Section.run, Section.latched, hstart, Option.getD_some]
    exact Kept.of_rounds h (h.rounds.of_startSplit hok.1 hstart) rfl rfl (Nat.le_succ _) _
  | moveRecords temp1 temp2 =>
    obtain ⟨hunder, h₁, h₂, hne, hsome⟩ := hok
    obtain ⟨t', hmove⟩ := Option.isSome_iff_exists.1 hsome
    simp only [Section.run, Section.latched, hmove, Option.getD_some]
    exact Kept.moveRecords h hunder h₁ h₂ hne hmove

/-- No section works on the records of all keys. -/
lemma Section.exists_spares (s : Section) : ∃ k, s.Spares k := by
  cases s with
  | insert p key value => exact ⟨0 :: key, (cons_ne_self _ _).symm⟩
  | addOverflow p new key value => exact ⟨0 :: key, (cons_ne_self _ _).symm⟩
  | remove p key => exact ⟨0 :: key, (cons_ne_self _ _).symm⟩
  | pass p => exact ⟨[], trivial⟩
  | merge pp target => exact ⟨[], trivial⟩
  | startSplit => exact ⟨[], trivial⟩
  | moveRecords temp1 temp2 => exact ⟨[], trivial⟩

lemma Reachable.ordered (h : Reachable cfg t) : t.Ordered cfg := by
  induction h with
  | create => exact (structured_create cfg).ordered
  | step s _ hok ih =>
    obtain ⟨k, hk⟩ := s.exists_spares
    exact (Section.kept ih hok hk).ordered

end TwoTree.LinearHashing
