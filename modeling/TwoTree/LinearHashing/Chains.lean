import TwoTree.LinearHashing.Table

/-!
# The chains of the linear hash table

`Structured cfg t c` says that the overflow links of the table form one chain `c b` for each bucket
`b` that has been created, that no page is in two chains, and that every record is in the chain of its
home bucket.  It holds in the middle of a split too, between its start and the section that moves the
records.

Every operation but a split changes one chain, and `Structured.replaceChain` is the one place where
that is shown to leave the rest alone: a page of the chain is rewritten, a page is appended, or two
neighbouring pages are merged.
-/

namespace TwoTree.LinearHashing

open Hashing Lib.Chain Lib.Records Function Table Page

variable {cfg : Config} {t t' : Table} {c c' : ℕ → List ℕ} {b p q new : ℕ} {key value : Bytes}

/-- The records on some pages. -/
def Table.recordsOf (t : Table) (ps : List ℕ) : List (Bytes × Bytes) := ps.flatMap t.recordsAt

lemma recordsOf_congr {ps : List ℕ} (h : ∀ p ∈ ps, t'.pages p = t.pages p) :
    t'.recordsOf ps = t.recordsOf ps :=
  List.flatMap_congr (fun p hp => congrArg (fun n : Node => n.page.records) (h p hp))

/-- A page that is in no chain. -/
def Free (c : ℕ → List ℕ) (p : ℕ) : Prop := ∀ b, p ∉ c b

/-- The chains of the table, and what is on their pages. -/
structure Structured (cfg : Config) (t : Table) (c : ℕ → List ℕ) : Prop where
  rounds : t.rounds.Ok
  chain : ∀ b, IsChain t.next (t.bucketPtrs b) (c b)
  apart : ∀ {b b' p}, p ∈ c b → p ∈ c b' → b = b'
  allocated : ∀ {b p}, p ∈ c b → p < t.allocated
  linked : ∀ b, c b ≠ [] ↔ b < t.rounds.linked
  ok : ∀ {b p}, p ∈ c b → (t.pages p).page.Ok cfg.layout
  placed : ∀ {b r}, r ∈ t.recordsOf (c b) → t.rounds.home (cfg.hashFunc r.1) = b

/-- The chains of a new table. -/
def newChain (b : ℕ) : List ℕ := if b < N then [b] else []

lemma mem_newChain {p : ℕ} : p ∈ newChain b ↔ p = b ∧ b < N := by
  unfold newChain
  split_ifs with hb <;> simp [hb]

lemma structured_create (cfg : Config) : Structured cfg (create cfg) newChain where
  rounds := Rounds.init_ok
  chain b := by
    rw [newChain]
    split_ifs with hb <;> simp [create, next, hb]
  apart h h' := (mem_newChain.1 h).1.symm.trans (mem_newChain.1 h').1
  allocated h := by
    obtain ⟨rfl, hb⟩ := mem_newChain.1 h
    exact hb
  linked b := by
    have hlinked : (create cfg).rounds.linked = N := rfl
    rw [hlinked, newChain]
    split_ifs with hb <;> simp [hb]
  ok _ := init_ok
  placed {b r} hr := by
    obtain ⟨p, -, hr⟩ := List.mem_flatMap.1 hr
    cases hr

/-! ## Reading the chains -/

lemma length_le_of_lt {l : List ℕ} (hl : l.Nodup) {n : ℕ} (hn : ∀ a ∈ l, a < n) : l.length ≤ n := by
  rw [← List.toFinset_card_of_nodup hl]
  calc l.toFinset.card ≤ (Finset.range n).card :=
        Finset.card_le_card (fun a ha => Finset.mem_range.2 (hn a (List.mem_toFinset.1 ha)))
    _ = n := Finset.card_range n

namespace Structured

variable (h : Structured cfg t c)
include h

lemma chain_eq (b : ℕ) : t.chain b = c b :=
  follow_eq (h.chain b) (length_le_of_lt (h.chain b).nodup (fun _ hp => h.allocated hp))

/-- Frames that have not been used are in no chain. -/
lemma free_of_le (hp : t.allocated ≤ p) : Free t.chain p := by
  intro b hmem
  rw [h.chain_eq] at hmem
  exact absurd (h.allocated hmem) (not_lt.2 hp)

lemma bucketPtrs_ne_none_iff : t.bucketPtrs b ≠ none ↔ b < t.rounds.linked := by
  rw [← h.linked]
  cases hb : c b with
  | nil =>
    have hchain := h.chain b
    rw [hb] at hchain
    simpa using hchain
  | cons p l =>
    have hchain := h.chain b
    rw [hb] at hchain
    simp [hchain.1]

/-- Every bucket that an operation of a single thread computes has a chain. -/
lemma exists_head (hidle : t.rounds.Idle) (key : Bytes) :
    ∃ p, t.bucketPtrs (t.bucket cfg key) = some p := by
  have hlt : t.bucket cfg key < t.rounds.linked := by
    rw [bucket, h.rounds.bucketOf_of_idle hidle]
    exact t.rounds.home_lt _
  exact Option.ne_none_iff_exists'.1 (h.bucketPtrs_ne_none_iff.2 hlt)

lemma bucket_eq (hidle : t.rounds.Idle) (key : Bytes) :
    t.bucket cfg key = t.rounds.home (cfg.hashFunc key) :=
  h.rounds.bucketOf_of_idle hidle _ _

lemma chain_bucket (hidle : t.rounds.Idle) (key : Bytes) :
    t.chain (t.bucket cfg key) = c (t.rounds.home (cfg.hashFunc key)) := by
  rw [h.chain_eq, h.bucket_eq hidle]

lemma chain_ne_nil (key : Bytes) : c (t.rounds.home (cfg.hashFunc key)) ≠ [] :=
  (h.linked _).2 (t.rounds.home_lt _)

lemma free {p : ℕ} (hp : Free t.chain p) : Free c p := fun b hb => hp b (by rwa [h.chain_eq])

/-- **Lookup searches the records of the home bucket.** -/
lemma lookup_eq (hidle : t.rounds.Idle) (key : Bytes) : t.lookup cfg key =
      some ((t.recordsOf (c (t.rounds.home (cfg.hashFunc key)))).lookup key) := by
  obtain ⟨p, hp⟩ := h.exists_head hidle key
  rw [lookup, hp, h.chain_eq, ← h.bucket_eq hidle]
  exact congrArg some (findSome?_eq_lookup (fun q hq => (h.ok hq).get_eq key))

/-! ## Changing one chain -/

/-- **One chain is replaced**, by pages of the old one and pages that were free. -/
lemma replaceChain {l : List ℕ} (hb : b < t.rounds.linked)
    (hrounds : t'.rounds = t.rounds) (hptrs : t'.bucketPtrs = t.bucketPtrs)
    (hother : ∀ b', b' ≠ b → ∀ q ∈ c b', t'.pages q = t.pages q)
    (hchain : IsChain t'.next (t.bucketPtrs b) l) (hne : l ≠ [])
    (hpages : ∀ q ∈ l, q ∈ c b ∨ Free c q) (hmono : t.allocated ≤ t'.allocated)
    (halloc : ∀ q ∈ l, q < t'.allocated) (hok : ∀ q ∈ l, (t'.pages q).page.Ok cfg.layout)
    (hplaced : ∀ r ∈ t'.recordsOf l, t.rounds.home (cfg.hashFunc r.1) = b) :
    Structured cfg t' (update c b l) := by
  -- a page of the new chain is in no other chain
  have hself : ∀ b' q, q ∈ l → q ∈ c b' → b' = b := by
    intro b' q hq hq'
    rcases hpages q hq with hmem | hfree
    · exact h.apart hq' hmem
    · exact absurd hq' (hfree b')
  refine ⟨hrounds ▸ h.rounds, fun b' => ?_, fun {b₁ b₂ q} h₁ h₂ => ?_, fun {b' q} hq => ?_,
    fun b' => ?_, fun {b' q} hq => ?_, fun {b' r} hr => ?_⟩
  · rw [hptrs]
    rcases eq_or_ne b' b with rfl | hb'
    · rwa [update_self]
    · rw [update_of_ne hb']
      exact (h.chain b').congr (fun q hq => by rw [next, hother b' hb' q hq]; rfl)
  · by_cases hb₁ : b₁ = b <;> by_cases hb₂ : b₂ = b
    · rw [hb₁, hb₂]
    · rw [hb₁, update_self] at h₁
      rw [update_of_ne hb₂] at h₂
      rw [hb₁, hself _ _ h₁ h₂]
    · rw [update_of_ne hb₁] at h₁
      rw [hb₂, update_self] at h₂
      rw [hb₂, hself _ _ h₂ h₁]
    · rw [update_of_ne hb₁] at h₁
      rw [update_of_ne hb₂] at h₂
      exact h.apart h₁ h₂
  · rcases eq_or_ne b' b with rfl | hb'
    · rw [update_self] at hq
      exact halloc q hq
    · rw [update_of_ne hb'] at hq
      exact lt_of_lt_of_le (h.allocated hq) hmono
  · rw [hrounds]
    rcases eq_or_ne b' b with rfl | hb'
    · rw [update_self]
      exact iff_of_true hne hb
    · rw [update_of_ne hb']
      exact h.linked b'
  · rcases eq_or_ne b' b with rfl | hb'
    · rw [update_self] at hq
      exact hok q hq
    · rw [update_of_ne hb'] at hq
      rw [hother b' hb' q hq]
      exact h.ok hq
  · rw [hrounds]
    rcases eq_or_ne b' b with rfl | hb'
    · rw [update_self] at hr
      exact hplaced r hr
    · rw [update_of_ne hb', recordsOf_congr (hother b' hb')] at hr
      exact h.placed hr

/-- The counters of the splits that have been started do not matter. -/
lemma setRounds {rounds : Rounds} (hok : rounds.Ok) (hpower : rounds.power = t.rounds.power)
    (hfin : rounds.finishedSplits = t.rounds.finishedSplits) :
    Structured cfg { t with rounds := rounds } c := by
  refine ⟨hok, h.chain, h.apart, h.allocated, fun b => ?_, h.ok, fun {b r} hr => ?_⟩
  · rw [h.linked, Rounds.linked, Rounds.linked, hpower, hfin]
  · rw [Rounds.home, hpower, hfin]
    exact h.placed hr

end Structured

/-! ## Rewriting a page -/

@[simp] lemma next_setPage (t : Table) (p : ℕ) (page : Page) : (t.setPage p page).next = t.next := by
  funext q
  rcases eq_or_ne q p with rfl | hq
  · simp [next, setPage]
  · simp [next, setPage, hq]

lemma pages_setPage_of_ne (t : Table) (page : Page) (hq : q ≠ p) :
    (t.setPage p page).pages q = t.pages q :=
  update_of_ne hq _ _

lemma page_setPage_self (t : Table) (p : ℕ) (page : Page) :
    ((t.setPage p page).pages p).page = page := by
  simp [setPage]

/-- One record of the table is changed, in its home bucket. -/
structure Rewritten (cfg : Config) (t : Table) (c : ℕ → List ℕ) (t' : Table) (c' : ℕ → List ℕ)
    (key : Bytes) (x y : Option Bytes) : Prop where
  structured : Structured cfg t' c'
  rounds_eq : t'.rounds = t.rounds
  home : Rewrites key x y (t.recordsOf (c (t.rounds.home (cfg.hashFunc key))))
    (t'.recordsOf (c' (t.rounds.home (cfg.hashFunc key))))
  other : ∀ b, b ≠ t.rounds.home (cfg.hashFunc key) → t'.recordsOf (c' b) = t.recordsOf (c b)

lemma Rewritten.forall_records {x y : Option Bytes} (hr : Rewritten cfg t c t' c' key x y)
    {P : Bytes × Bytes → Prop} (h : ∀ b, ∀ r ∈ t.recordsOf (c b), P r)
    (hy : ∀ v, y = some v → P (key, v)) : ∀ b, ∀ r ∈ t'.recordsOf (c' b), P r := by
  intro b r hmem
  rcases eq_or_ne b (t.rounds.home (cfg.hashFunc key)) with rfl | hb
  · rcases hr.home.mem_of_mem hmem with hold | ⟨hnew, rfl⟩
    · exact h _ r hold
    · exact hy _ hnew
  · rw [hr.other b hb] at hmem
    exact h b r hmem

/-- **A page is rewritten at one record.** -/
lemma Structured.setPage (h : Structured cfg t c) {x y : Option Bytes} {page : Page}
    (hp : p ∈ c (t.rounds.home (cfg.hashFunc key))) (hok : page.Ok cfg.layout)
    (hrec : Rewrites key x y (t.recordsAt p) page.records) (n : ℕ) :
    Rewritten cfg t c { t.setPage p page with dataStored := n } c key x y := by
  set b := t.rounds.home (cfg.hashFunc key) with hb
  set t' : Table := { t.setPage p page with dataStored := n }
  have hother : ∀ b', b' ≠ b → ∀ q ∈ c b', t'.pages q = t.pages q := by
    intro b' hb' q hq
    refine pages_setPage_of_ne t page ?_
    rintro rfl
    exact hb' (h.apart hq hp)
  have hhome : Rewrites key x y (t.recordsOf (c b)) (t'.recordsOf (c b)) := by
    refine Rewrites.flatMap (h.chain b).nodup hp ?_ (fun q _ hq => ?_)
    · rwa [show t'.recordsAt p = page.records from
        congrArg records (page_setPage_self t p page)]
    · exact congrArg (fun n : Node => n.page.records) (pages_setPage_of_ne t page hq)
  refine ⟨?_, rfl, hhome, fun b' hb' => recordsOf_congr (hother b' hb')⟩
  · have hstructured : Structured cfg t' (update c b (c b)) := by
      refine h.replaceChain (t.rounds.home_lt _) rfl rfl hother ?_ ((h.linked b).2
        (t.rounds.home_lt _)) (fun q hq => Or.inl hq) le_rfl (fun q hq => h.allocated hq)
        (fun q hq => ?_) (fun r hr => ?_)
      · rw [show t'.next = t.next from next_setPage t p page]
        exact h.chain b
      · rcases eq_or_ne q p with rfl | hqp
        · rwa [show (t'.pages q).page = page from page_setPage_self t q page]
        · rw [show t'.pages q = t.pages q from pages_setPage_of_ne t page hqp]
          exact h.ok hq
      · rcases hhome.mem_of_mem hr with hold | ⟨-, hkey⟩
        · exact h.placed hold
        · rw [hkey]
    rwa [update_eq_self] at hstructured

lemma Structured.insertAt (h : Structured cfg t c)
    (hp : p ∈ c (t.rounds.home (cfg.hashFunc key)))
    (hfits : (t.pages p).page.canInsert cfg.layout key value) :
    Rewritten cfg t c (t.insertAt cfg p key value) c key none (some value) :=
  h.setPage hp ((h.ok hp).insert hfits) (rewrites_insert _ key value) _

lemma Structured.updateAt (h : Structured cfg t c)
    (hp : p ∈ c (t.rounds.home (cfg.hashFunc key))) {i : ℕ}
    (hi : (t.pages p).page.find cfg.layout key = some i)
    (hlen : ∀ v, (key, v) ∈ t.recordsAt p → v.length = value.length) :
    ∃ v, Rewritten cfg t c (t.updateAt p i key value) c key (some v) (some value) := by
  obtain ⟨v, hv⟩ := (h.ok hp).rewrites_update hi hlen
  exact ⟨v, h.setPage hp ((h.ok hp).update hi hlen) hv _⟩

lemma Structured.removeAt (h : Structured cfg t c)
    (hp : p ∈ c (t.rounds.home (cfg.hashFunc key))) {i : ℕ}
    (hi : (t.pages p).page.find cfg.layout key = some i) :
    ∃ v, Rewritten cfg t c (t.removeAt p i) c key (some v) none := by
  obtain ⟨v, hv⟩ := (h.ok hp).rewrites_removeSlot hi
  exact ⟨v, h.setPage hp ((h.ok hp).removeSlot hi) hv _⟩

/-! ## A new overflow page -/

lemma next_addOverflow (t : Table) (p new : ℕ) (key value : Bytes) :
    (t.addOverflow cfg p new key value).next =
      update (update t.next new none) p (some new) := by
  funext q
  rcases eq_or_ne q p with rfl | hqp
  · simp [next, addOverflow]
  · rcases eq_or_ne q new with rfl | hqn
    · simp [next, addOverflow, hqp]
    · simp [next, addOverflow, hqp, hqn]

lemma page_addOverflow_of_ne (t : Table) (key value : Bytes) (hq : q ≠ new) :
    ((t.addOverflow cfg p new key value).pages q).page = (t.pages q).page := by
  rcases eq_or_ne q p with rfl | hqp
  · simp [addOverflow]
  · simp [addOverflow, hqp, hq]

lemma page_addOverflow_new (t : Table) (key value : Bytes) (hne : new ≠ p) :
    ((t.addOverflow cfg p new key value).pages new).page =
      (init cfg.layout).insert cfg.layout key value := by
  simp [addOverflow, hne]

/-- The links after the last page of a chain has got an overflow page. -/
lemma isChain_addOverflow {l : List ℕ} {ptr : Option ℕ} (hchain : IsChain t.next ptr (l ++ [p]))
    (hfree : new ∉ l ++ [p]) :
    IsChain (t.addOverflow cfg p new key value).next ptr (l ++ [p, new]) := by
  have hne : new ≠ p := fun heq => hfree (by simp [heq])
  rw [next_addOverflow]
  refine (hchain.update_of_notMem hfree).relink ⟨rfl, ?_⟩
  rw [isChain_nil, update_of_ne hne, update_self]

/-- **A record that fits nowhere gets a page of its own**, behind the last one of the chain. -/
lemma Structured.addOverflow (h : Structured cfg t c) {l : List ℕ}
    (hl : c (t.rounds.home (cfg.hashFunc key)) = l ++ [p]) (hfree : Free c new)
    (hfits : (init cfg.layout).canInsert cfg.layout key value) :
    Rewritten cfg t c (t.addOverflow cfg p new key value)
      (update c (t.rounds.home (cfg.hashFunc key)) (l ++ [p, new])) key none
      (some value) := by
  set b := t.rounds.home (cfg.hashFunc key) with hb
  set t' := t.addOverflow cfg p new key value with ht'
  have hp : p ∈ c b := by simp [hl]
  have hnew : new ∉ l ++ [p] := hl ▸ hfree b
  have hne : new ≠ p := fun heq => hnew (by simp [heq])
  have hpage : ∀ q, q ≠ new → (t'.pages q).page = (t.pages q).page :=
    fun q hq => page_addOverflow_of_ne t key value hq
  have hold : ∀ b', ∀ q ∈ c b', q ≠ new := fun b' q hq => ne_of_mem_of_not_mem hq (hfree b')
  have hrecs : t'.recordsOf (l ++ [p, new]) = t.recordsOf (c b) ++ [(key, value)] := by
    have hkept : t'.recordsOf (c b) = t.recordsOf (c b) :=
      List.flatMap_congr (fun q hq => congrArg records (hpage q (hold b q hq)))
    have hnewRecs : t'.recordsAt new = [(key, value)] := by
      rw [Table.recordsAt, page_addOverflow_new t key value hne]
      simp
    rw [show l ++ [p, new] = (l ++ [p]) ++ [new] by simp, ← hl, ← hkept, Table.recordsOf,
      List.flatMap_append, List.flatMap_singleton, hnewRecs]
    rfl
  have hpages : ∀ q, q ∈ l ++ [p, new] → q ∈ c b ∨ q = new := by
    intro q hq
    simp only [List.mem_append, List.mem_cons, List.not_mem_nil, or_false] at hq
    rw [hl]
    simp only [List.mem_append, List.mem_singleton]
    tauto
  refine ⟨?_, rfl, ?_, fun b' hb' => ?_⟩
  · refine h.replaceChain (t.rounds.home_lt _) rfl rfl (fun b' hb' q hq => ?_) ?_ (by simp)
      (fun q hq => (hpages q hq).imp_right (by rintro rfl; exact hfree)) (le_max_left _ _)
      (fun q hq => ?_) (fun q hq => ?_) (fun r hr => ?_)
    · have hqp : q ≠ p := fun heq => hb' (h.apart (heq ▸ hq) hp)
      simp [ht', Table.addOverflow, hqp, hold b' q hq]
    · refine isChain_addOverflow ?_ hnew
      rw [← hl]
      exact h.chain b
    · rcases hpages q hq with hmem | rfl
      · exact lt_of_lt_of_le (h.allocated hmem) (le_max_left _ _)
      · exact lt_of_lt_of_le (Nat.lt_succ_self _) (le_max_right _ _)
    · rcases hpages q hq with hmem | rfl
      · rw [hpage q (hold b q hmem)]
        exact h.ok hmem
      · rw [page_addOverflow_new t key value hne]
        exact init_ok.insert hfits
    · rw [hrecs, List.mem_append, List.mem_singleton] at hr
      rcases hr with hr | rfl
      · exact h.placed hr
      · rfl
  · rw [← hb, update_self, hrecs]
    exact ⟨t.recordsOf (c b), [], by simp [entry], by simp [entry]⟩
  · rw [update_of_ne hb']
    exact List.flatMap_congr (fun q hq => congrArg records (hpage q (hold b' q hq)))

/-! ## Merging two pages -/

lemma next_mergeAt (t : Table) (p q : ℕ) :
    (t.mergeAt cfg p q).next = update t.next p (t.next q) := by
  funext a
  rcases eq_or_ne a p with rfl | ha
  · simp [next, mergeAt]
  · simp [next, mergeAt, ha]

lemma pages_mergeAt_of_ne (t : Table) (q : ℕ) {a : ℕ} (ha : a ≠ p) :
    (t.mergeAt cfg p q).pages a = t.pages a :=
  update_of_ne ha _ _

lemma recordsAt_mergeAt (t : Table) (p q : ℕ) :
    (t.mergeAt cfg p q).recordsAt p = t.recordsAt p ++ t.recordsAt q := by
  simp [recordsAt, mergeAt]

/-- The links after a page has taken over the next one's records. -/
lemma isChain_mergeAt {l₁ l₂ : List ℕ} {ptr : Option ℕ}
    (hchain : IsChain t.next ptr (l₁ ++ p :: q :: l₂)) :
    IsChain (t.mergeAt cfg p q).next ptr (l₁ ++ p :: l₂) := by
  have hnotMem := (List.nodup_middle.1 hchain.nodup).notMem
  simp only [List.mem_append, List.mem_cons, not_or] at hnotMem
  rw [next_mergeAt]
  exact hchain.relink (hchain.tail.2.update_of_notMem hnotMem.2.2)

/-- The records of a chain stay in their order. -/
lemma recordsOf_mergeAt {l₁ l₂ : List ℕ} (hnodup : (l₁ ++ p :: q :: l₂).Nodup) :
    (t.mergeAt cfg p q).recordsOf (l₁ ++ p :: l₂) = t.recordsOf (l₁ ++ p :: q :: l₂) := by
  have hnotMem := (List.nodup_middle.1 hnodup).notMem
  simp only [List.mem_append, List.mem_cons, not_or] at hnotMem
  have hkept : ∀ l : List ℕ, p ∉ l → (t.mergeAt cfg p q).recordsOf l = t.recordsOf l :=
    fun l hl => recordsOf_congr (fun a ha => pages_mergeAt_of_ne t q (ne_of_mem_of_not_mem ha hl))
  have h₁ := hkept l₁ hnotMem.1
  have h₂ := hkept l₂ hnotMem.2.2
  simp only [recordsOf] at h₁ h₂
  simp [recordsOf, h₁, h₂, recordsAt_mergeAt]

/-- **Merging two neighbouring pages** leaves the records of every bucket alone. -/
lemma Structured.mergeAt (h : Structured cfg t c) {l₁ l₂ : List ℕ} (hl : c b = l₁ ++ p :: q :: l₂)
    (hfits : (t.pages p).page.hasEnoughSpaceFor cfg.layout
      ((t.pages q).page.spaceUsedForData cfg.layout)) :
    Structured cfg (t.mergeAt cfg p q) (update c b (l₁ ++ p :: l₂)) ∧
      ∀ b', (t.mergeAt cfg p q).recordsOf (update c b (l₁ ++ p :: l₂) b') =
        t.recordsOf (c b') := by
  have hp : p ∈ c b := by simp [hl]
  have hq : q ∈ c b := by simp [hl]
  have hchain := h.chain b
  rw [hl] at hchain
  have hrecs : (t.mergeAt cfg p q).recordsOf (l₁ ++ p :: l₂) = t.recordsOf (l₁ ++ p :: q :: l₂) :=
    recordsOf_mergeAt hchain.nodup
  have hother : ∀ b', b' ≠ b → ∀ a ∈ c b', (t.mergeAt cfg p q).pages a = t.pages a :=
    fun b' hb' a ha => pages_mergeAt_of_ne t q (fun heq => hb' (h.apart (heq ▸ ha) hp))
  have hmem : ∀ a ∈ l₁ ++ p :: l₂, a ∈ c b := by
    intro a ha
    rw [hl]
    simp only [List.mem_append, List.mem_cons] at ha ⊢
    tauto
  refine ⟨h.replaceChain ((h.linked b).1 (List.ne_nil_of_mem hp)) rfl rfl hother
    (isChain_mergeAt hchain) (by simp) (fun a ha => Or.inl (hmem a ha)) le_rfl
    (fun a ha => h.allocated (hmem a ha)) (fun a ha => ?_) (fun r hr => ?_), fun b' => ?_⟩
  · rcases eq_or_ne a p with rfl | hap
    · obtain ⟨hok, hroom⟩ := (h.ok hp).requestSpaceFor hfits
      simp only [mergeAt, update_self]
      refine (h.ok hq).copyKeyValueRange hok (le_trans ?_ hroom)
      simp only [spaceUsedForData, metadataUsed]
      omega
    · rw [pages_mergeAt_of_ne t q hap]
      exact h.ok (hmem a ha)
  · rw [hrecs, ← hl] at hr
    exact h.placed hr
  · rcases eq_or_ne b' b with rfl | hb'
    · rw [update_self, hrecs, hl]
    · rw [update_of_ne hb']
      exact recordsOf_congr (hother b' hb')

end TwoTree.LinearHashing
