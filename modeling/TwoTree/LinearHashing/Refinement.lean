import TwoTree.Lib.Simulation
import TwoTree.Hashing.Buckets
import TwoTree.LinearHashing.Split

/-!
# The linear hash table refines a map

A single thread calls the table, with keys of one length and payloads of one length.  `Holds` relates
the table to the map that the calls are meant to work on: the chains are in order (`Structured`), no
split is under way, and looking a key up in the records of its home bucket gives what the map has.

Each loop over a chain comes down to one of the changes of a page, so that every call is one of three
things: a record of the home bucket is replaced (`Holds.rewritten`), pages are merged and the records
stay (`Holds.rearranged`), or a bucket is split (`Holds.split`).  The main result is
`lookup_yields_last_stored`.
-/

namespace TwoTree.LinearHashing

open Hashing Lib Lib.Chain Lib.Records Function List Table Rounds Page

variable {cfg : Config} {keyLen payloadLen : ℕ} {t t' : Table} {c c' : ℕ → List ℕ}
  {m : Bytes → Option Bytes} {key value : Bytes} {b : ℕ} {f : Frames}

/-- What a call does to the map. -/
def Op.apply (m : Bytes → Option Bytes) : Op → Bytes → Option Bytes
  | .insert key value _ => update m key (some value)
  | .upsert key value _ => update m key (some value)
  | .remove key => update m key none
  | .lookup _ => m
  | .split _ => m
  | .mergeChain _ => m

/-- A split has at most eight pages to deal with and a place in the mapping table, and gets frames
that are not in use. -/
structure SplitOk (t : Table) (f : Frames) : Prop where
  short : (t.chain t.rounds.splitBucket).length ≤ 8
  slots : t.rounds.buddyBucket < tableSlots
  free1 : Free t.chain f.temp1
  free2 : Free t.chain f.temp2
  ne : f.temp1 ≠ f.temp2

/-- The calls the table is meant for: a key that is inserted is absent, all records have one size, a
bucket whose chain is merged exists, new pages are not in use, and a split that comes about is one for
which there is room. -/
def Op.Admissible (cfg : Config) (keyLen payloadLen : ℕ) (t : Table) (m : Bytes → Option Bytes) :
    Op → Prop
  | .insert key value f => m key = none ∧ key.length = keyLen ∧ value.length = payloadLen ∧
      Free t.chain f.overflow ∧
      let t₁ := t.insertLoop cfg key value f.overflow (t.chain (t.bucket cfg key))
      t₁.Overloaded → SplitOk t₁ f
  | .upsert key value f => key.length = keyLen ∧ value.length = payloadLen ∧
      Free t.chain f.overflow ∧
      let t₁ := t.upsertLoop cfg key value f.overflow (t.chain (t.bucket cfg key))
      t₁.Overloaded → SplitOk t₁ f
  | .remove _ => True
  | .lookup _ => True
  | .split f => SplitOk t f
  | .mergeChain b => b < t.rounds.buddyBucket

/-- The table holds the map, in the chains `c`. -/
structure Holds (cfg : Config) (keyLen payloadLen : ℕ) (t : Table) (c : ℕ → List ℕ)
    (m : Bytes → Option Bytes) : Prop where
  structured : Structured cfg t c
  idle : t.rounds.Idle
  slots : t.rounds.buddyBucket ≤ tableSlots
  distinct : ∀ b, Distinct (t.recordsOf (c b))
  sized : ∀ {b r}, r ∈ t.recordsOf (c b) → r.1.length = keyLen ∧ r.2.length = payloadLen
  lookup : ∀ key, (t.recordsOf (c (t.rounds.home (cfg.hashFunc key)))).lookup key = m key

/-- The start of a split leaves the chains alone. -/
lemma Structured.exists_startSplit (h : Structured cfg t c) (hidle : t.rounds.Idle) (f : Frames) :
    ∃ rounds, t.rounds.startSplit = some rounds ∧ Structured cfg { t with rounds := rounds } c ∧
      rounds.startedSplits = rounds.finishedSplits + 1 ∧
      rounds.finishedSplits = t.rounds.finishedSplits ∧
      t.split cfg f = if tableSlots ≤ t.rounds.buddyBucket then none else
        Table.moveRecords cfg { t with rounds := rounds } rounds.linked f.temp1 f.temp2 := by
  have hstart := h.rounds.startSplit hidle
  obtain ⟨hpower, hfin, hstarted, -⟩ := startSplit_frame hstart
  refine ⟨_, hstart, h.setRounds (h.rounds.of_startSplit hidle hstart) hpower hfin, ?_, hfin, ?_⟩
  · rw [hstarted, hfin, hidle]
  · rw [split, hstart, ← h.rounds.linked_of_idle hidle]
    rfl

/-! ## The three kinds of calls -/

namespace Holds

variable (h : Holds cfg keyLen payloadLen t c m)
include h

lemma filed : Filed cfg.hashFunc t.rounds (fun b => t.recordsOf (c b)) m :=
  ⟨h.structured.placed, h.distinct, h.lookup⟩

/-- **One record is replaced.** -/
lemma rewritten {x y : Option Bytes}
    (hr : Rewritten cfg t c t' c' key x y) (hnew : x = none → m key = none)
    (hsize : ∀ v, y = some v → key.length = keyLen ∧ v.length = payloadLen) :
    Holds cfg keyLen payloadLen t' c' (update m key y) := by
  have hfiled : Filed cfg.hashFunc t.rounds (fun b => t'.recordsOf (c' b)) (update m key y) :=
    h.filed.rewritten hr.home hr.other hnew
  refine ⟨hr.structured, hr.rounds_eq ▸ h.idle, hr.rounds_eq ▸ h.slots, hfiled.distinct,
    fun {b r} hmem => ?_, fun a => ?_⟩
  · exact hr.forall_records (fun _ _ hr => h.sized hr) hsize b r hmem
  · rw [hr.rounds_eq]
    exact hfiled.lookup a

/-- **The records stay where they are.** -/
lemma rearranged (hs : Structured cfg t' c')
    (hrounds : t'.rounds = t.rounds) (hrecs : ∀ b, t'.recordsOf (c' b) = t.recordsOf (c b)) :
    Holds cfg keyLen payloadLen t' c' m := by
  refine ⟨hs, hrounds ▸ h.idle, hrounds ▸ h.slots, fun b => ?_, fun {b r} hr => ?_, fun a => ?_⟩
  · rw [hrecs]
    exact h.distinct b
  · rw [hrecs] at hr
    exact h.sized hr
  · rw [hrounds, hrecs]
    exact h.lookup a

/-- **A bucket has been split.** -/
lemma moved {rounds : Rounds} (hstart : t.rounds.startSplit = some rounds)
    (hm : Moved cfg { t with rounds := rounds } c t' c') (hslots : t.rounds.buddyBucket < tableSlots) :
    Holds cfg keyLen payloadLen t' c' m := by
  have hok := h.structured.rounds.of_startSplit h.idle hstart
  obtain ⟨-, hfin, hstarted, hbuddy⟩ := startSplit_frame hstart
  have hsplit : rounds.startedSplits = rounds.finishedSplits + 1 := by
    rw [hstarted, hfin, h.idle]
  have hrounds : t'.rounds = rounds.finishSplit := hm.rounds_eq
  have hstay := hm.stay
  have hmoved := hm.moved
  simp only [hrounds] at hstay hmoved
  have hfiled : Filed cfg.hashFunc rounds.finishSplit (fun b => t'.recordsOf (c' b)) m :=
    (h.filed.startSplit hstart).divided hok hsplit (.of_eq hstay) (.of_eq hmoved)
      (fun b hb hb' => (hm.other b hb hb').2)
  refine ⟨hm.structured, hrounds ▸ (hok.finishSplit hsplit).2, ?_, hfiled.distinct,
    fun {b r} hr => ?_, fun a => ?_⟩
  · rw [hrounds, finishSplit_buddyBucket, hbuddy]
    exact hslots
  · exact hm.forall_records (fun _ _ hr => h.sized hr) b r hr
  · rw [hrounds]
    exact hfiled.lookup a

/-- **Split.** -/
lemma split (hcap : 0 < capacity (keyLen + payloadLen)) (hf : SplitOk t f) :
    ∃ t' c', t.split cfg f = some t' ∧ Holds cfg keyLen payloadLen t' c' m := by
  obtain ⟨rounds, hstart, hs, hunder, hfin, hsplit⟩ := h.structured.exists_startSplit h.idle f
  have hshort : (c rounds.finishedSplits).length ≤ 8 := by
    have hlen := hf.short
    rwa [h.structured.chain_eq, h.structured.rounds.splitBucket_eq, h.idle, ← hfin] at hlen
  have hsize : Sized (keyLen + payloadLen) (t.recordsOf (c rounds.finishedSplits)) := fun r hr => by
    rw [(h.sized hr).1, (h.sized hr).2]
  obtain ⟨t', hmove⟩ := hs.exists_moveRecords f.temp1 f.temp2 hsize hcap hshort
  obtain ⟨c', hmoved, -⟩ := hs.moveRecords hunder (h.structured.free hf.free1)
    (h.structured.free hf.free2) hf.ne hmove
  refine ⟨t', c', ?_, h.moved hstart hmoved hf.slots⟩
  rw [hsplit, if_neg (not_le.2 hf.slots), hmove]

end Holds

/-! ## The loops -/

/-- **The loop of `insert`** puts the record on some page of the chain, or behind it. -/
lemma Structured.insertLoop (h : Structured cfg t c) (hfree : Free c f.overflow)
    (hfits : (init cfg.layout).canInsert cfg.layout key value) (l : List ℕ) {ps : List ℕ}
    (hps : ps ≠ []) (hl : c (t.rounds.home (cfg.hashFunc key)) = l ++ ps) :
    ∃ c', Rewritten cfg t c (t.insertLoop cfg key value f.overflow ps) c' key none (some value) := by
  induction ps generalizing l with
  | nil => exact absurd rfl hps
  | cons p ps ih =>
    have hp : p ∈ c (t.rounds.home (cfg.hashFunc key)) := by simp [hl]
    match ps with
    | [] =>
      unfold Table.insertLoop
      split_ifs with hroom
      · exact ⟨c, h.insertAt hp hroom⟩
      · exact ⟨_, h.addOverflow hl hfree hfits⟩
    | q :: ps =>
      unfold Table.insertLoop
      split_ifs with hroom
      · exact ⟨c, h.insertAt hp hroom⟩
      · exact ih (l ++ [p]) (cons_ne_nil q ps) (by simp [hl])

/-- **The loop of `upsert`** replaces the record it finds, and adds one if there is none. -/
lemma Structured.upsertLoop (h : Structured cfg t c) (hfree : Free c f.overflow)
    (hfits : (init cfg.layout).canInsert cfg.layout key value)
    (hlen : ∀ v, (key, v) ∈ t.recordsOf (c (t.rounds.home (cfg.hashFunc key))) →
      v.length = value.length) (l : List ℕ) {ps : List ℕ}
    (hps : ps ≠ []) (hl : c (t.rounds.home (cfg.hashFunc key)) = l ++ ps)
    (hsearched : key ∉ (t.recordsOf l).map Prod.fst) :
    ∃ c' x, Rewritten cfg t c (t.upsertLoop cfg key value f.overflow ps) c' key x (some value) ∧
      (x = none → key ∉ (t.recordsOf (l ++ ps)).map Prod.fst) := by
  induction ps generalizing l with
  | nil => exact absurd rfl hps
  | cons p ps ih =>
    have hp : p ∈ c (t.rounds.home (cfg.hashFunc key)) := by simp [hl]
    have hfound : ∀ i, (t.pages p).page.find cfg.layout key = some i →
        ∃ v, Rewritten cfg t c (t.updateAt p i key value) c key (some v) (some value) :=
      fun i hi => h.updateAt hp hi (fun v hv => hlen v (mem_flatMap.2 ⟨p, hp, hv⟩))
    have hnext : (t.pages p).page.find cfg.layout key = none →
        key ∉ (t.recordsOf (l ++ [p])).map Prod.fst := fun hnone => by
      have hpage := (h.ok hp).find_eq_none_iff.1 hnone
      rw [recordsOf, flatMap_append, flatMap_singleton, map_append,
        mem_append, not_or]
      exact ⟨hsearched, hpage⟩
    cases ps with
    | nil =>
      unfold Table.upsertLoop
      cases hi : (t.pages p).page.find cfg.layout key with
      | some i =>
        obtain ⟨v, hv⟩ := hfound i hi
        exact ⟨c, some v, hv, by simp⟩
      | none =>
        simp only
        split_ifs with hroom
        · exact ⟨c, none, h.insertAt hp hroom, fun _ => hnext hi⟩
        · exact ⟨_, none, h.addOverflow hl hfree hfits, fun _ => hnext hi⟩
    | cons q ps =>
      unfold Table.upsertLoop
      cases hi : (t.pages p).page.find cfg.layout key with
      | some i =>
        obtain ⟨v, hv⟩ := hfound i hi
        exact ⟨c, some v, hv, by simp⟩
      | none =>
        simp only
        obtain ⟨c', x, hr, hx⟩ :=
          ih (l ++ [p]) (cons_ne_nil q ps) (by simp [hl]) (hnext hi)
        exact ⟨c', x, hr, by simpa using hx⟩

/-- **The loop of `remove`** takes the record out that it finds, and leaves the table alone if there
is none. -/
lemma Structured.removeLoop (h : Structured cfg t c) (tryMerge : Bool) {ps : List ℕ}
    (hps : ∀ p ∈ ps, p ∈ c (t.rounds.home (cfg.hashFunc key))) :
    (∃ v, Rewritten cfg t c (t.removeLoop cfg key tryMerge ps).1 c key (some v) none) ∨
      (t.removeLoop cfg key tryMerge ps).1 = t ∧ key ∉ (t.recordsOf ps).map Prod.fst := by
  induction ps generalizing tryMerge with
  | nil => exact Or.inr ⟨rfl, by simp [recordsOf]⟩
  | cons p ps ih =>
    have hp := hps p mem_cons_self
    unfold Table.removeLoop
    cases hi : (t.pages p).page.find cfg.layout key with
    | some i => exact Or.inl (h.removeAt hp hi)
    | none =>
      simp only
      have hpage := (h.ok hp).find_eq_none_iff.1 hi
      refine (ih _ (fun q hq => hps q (mem_cons_of_mem _ hq))).imp_right
        (fun hrest => ⟨hrest.1, ?_⟩)
      rw [recordsOf, flatMap_cons, map_append, mem_append, not_or]
      exact ⟨hpage, hrest.2⟩

/-- **The loop of `merge_chain`** leaves the records of every bucket alone. -/
lemma Structured.mergeLoop (h : Structured cfg t c) (l : List ℕ) {ps : List ℕ}
    (hl : c b = l ++ ps) :
    ∃ c', Structured cfg (t.mergeLoop cfg ps) c' ∧ (t.mergeLoop cfg ps).rounds = t.rounds ∧
      ∀ b', (t.mergeLoop cfg ps).recordsOf (c' b') = t.recordsOf (c b') := by
  induction ps generalizing l with
  | nil => exact ⟨c, h, rfl, fun _ => rfl⟩
  | cons p ps ih =>
    match ps with
    | [] => exact ⟨c, h, rfl, fun _ => rfl⟩
    | q :: ps =>
      unfold Table.mergeLoop
      split_ifs with hroom
      · obtain ⟨hs, hrecs⟩ := h.mergeAt hl hroom
        exact ⟨_, hs, rfl, hrecs⟩
      · exact ih (l ++ [p]) (by simp [hl])

/-! ## The calls -/

lemma canInsert_of_fits (hfits : 32 + slotSize + keyLen + payloadLen ≤ effectivePageSize)
    (hkey : key.length = keyLen) (hvalue : value.length = payloadLen) :
    (init cfg.layout).canInsert cfg.layout key value := by
  have hlayout : cfg.layout.pageSize = effectivePageSize ∧ cfg.layout.headerSize = 32 := ⟨rfl, rfl⟩
  rw [canInsert, init_ok.hasEnoughSpaceFor_iff, hlayout.1, spaceUsedForData,
    metadataUsed, hlayout.2, spaceNeeded, hkey, hvalue]
  simp only [Page.init, Page.count, length_nil]
  omega

lemma capacity_pos (hfits : 32 + slotSize + keyLen + payloadLen ≤ effectivePageSize) :
    0 < capacity (keyLen + payloadLen) :=
  Nat.div_pos (by omega) (by simp [slotSize])

namespace Holds

variable (h : Holds cfg keyLen payloadLen t c m)
include h

lemma splitIfOverloaded (hcap : 0 < capacity (keyLen + payloadLen)) (hf : t.Overloaded → SplitOk t f) :
    ∃ t' c', t.splitIfOverloaded cfg f = some t' ∧ Holds cfg keyLen payloadLen t' c' m := by
  unfold Table.splitIfOverloaded
  split_ifs with hload
  · exact h.split hcap (hf hload)
  · exact ⟨t, c, rfl, h⟩

lemma insert (hfits : 32 + slotSize + keyLen + payloadLen ≤ effectivePageSize)
    (hok : (Op.insert key value f).Admissible cfg keyLen payloadLen t m) :
    ∃ t' c', t.insert cfg key value f = some t' ∧
      Holds cfg keyLen payloadLen t' c' (update m key (some value)) := by
  obtain ⟨habsent, hkey, hvalue, hfree, hsplit⟩ := hok
  obtain ⟨p, hp⟩ := h.structured.exists_head h.idle key
  obtain ⟨c₁, hr⟩ := h.structured.insertLoop (h.structured.free hfree)
    (canInsert_of_fits hfits hkey hvalue) [] (h.structured.chain_ne_nil key) rfl
  rw [Table.insert, hp]
  rw [h.structured.chain_bucket h.idle] at hsplit ⊢
  exact (h.rewritten hr (fun _ => habsent)
    (fun v hv => ⟨hkey, Option.some.inj hv ▸ hvalue⟩)).splitIfOverloaded (capacity_pos hfits) hsplit

lemma upsert (hfits : 32 + slotSize + keyLen + payloadLen ≤ effectivePageSize)
    (hok : (Op.upsert key value f).Admissible cfg keyLen payloadLen t m) :
    ∃ t' c', t.upsert cfg key value f = some t' ∧
      Holds cfg keyLen payloadLen t' c' (update m key (some value)) := by
  obtain ⟨hkey, hvalue, hfree, hsplit⟩ := hok
  obtain ⟨p, hp⟩ := h.structured.exists_head h.idle key
  obtain ⟨c₁, x, hr, hx⟩ := h.structured.upsertLoop (h.structured.free hfree)
    (canInsert_of_fits hfits hkey hvalue) (fun v hv => (h.sized hv).2.trans hvalue.symm) []
    (h.structured.chain_ne_nil key) rfl (by simp [recordsOf])
  have habsent : x = none → m key = none := fun hnone => h.filed.eq_none_of_notMem (hx hnone)
  rw [Table.upsert, hp]
  rw [h.structured.chain_bucket h.idle] at hsplit ⊢
  exact (h.rewritten hr habsent
    (fun v hv => ⟨hkey, Option.some.inj hv ▸ hvalue⟩)).splitIfOverloaded (capacity_pos hfits) hsplit

lemma mergeChain (hb : b < t.rounds.linked) :
    ∃ t' c', t.mergeChain cfg b = some t' ∧ Holds cfg keyLen payloadLen t' c' m := by
  obtain ⟨p, hp⟩ := Option.ne_none_iff_exists'.1 (h.structured.bucketPtrs_ne_none_iff.2 hb)
  have hl : c b = [] ++ t.chain b := (h.structured.chain_eq b).symm
  obtain ⟨c₁, hs, hrounds, hrecs⟩ := h.structured.mergeLoop [] hl
  exact ⟨t.mergeLoop cfg (t.chain b), c₁, by rw [Table.mergeChain, hp],
    h.rearranged hs hrounds hrecs⟩

lemma remove (key : Bytes) : ∃ t' c', t.remove cfg key = some t' ∧
      Holds cfg keyLen payloadLen t' c' (update m key none) := by
  obtain ⟨p, hp⟩ := h.structured.exists_head h.idle key
  have hloop : Holds cfg keyLen payloadLen
      (t.removeLoop cfg key false (c (t.rounds.home (cfg.hashFunc key)))).1 c
      (update m key none) := by
    rcases h.structured.removeLoop false (fun p hp => hp) with ⟨v, hr⟩ | ⟨heq, hnone⟩
    · exact h.rewritten hr (by simp) (by simp)
    · rw [heq, ← h.filed.eq_none_of_notMem hnone, update_eq_self]
      exact h
  rw [Table.remove, hp]
  simp only [h.structured.chain_bucket h.idle]
  split_ifs
  · refine hloop.mergeChain ?_
    rw [hloop.structured.bucket_eq hloop.idle]
    exact home_lt _ _
  · exact ⟨_, c, rfl, hloop⟩

/-- **Every admissible call returns**, and does to the table what it does to the map. -/
lemma call (hfits : 32 + slotSize + keyLen + payloadLen ≤ effectivePageSize) {op : Op}
    (hok : op.Admissible cfg keyLen payloadLen t m) :
    ∃ t' c', t.call cfg op = some t' ∧ Holds cfg keyLen payloadLen t' c' (op.apply m) := by
  cases op with
  | insert key value f => exact h.insert hfits hok
  | upsert key value f => exact h.upsert hfits hok
  | remove key => exact h.remove key
  | lookup key =>
    refine ⟨t, c, ?_, h⟩
    rw [Table.call, h.structured.lookup_eq h.idle]
    rfl
  | split f => exact h.split (capacity_pos hfits) hok
  | mergeChain b =>
    refine h.mergeChain ?_
    rw [h.structured.rounds.linked_of_idle h.idle]
    exact hok

end Holds

/-! ## Runs -/

lemma recordsOf_create (ps : List ℕ) : (create cfg).recordsOf ps = [] :=
  flatMap_eq_nil_iff.2 (fun _ _ => rfl)

lemma holds_create (cfg : Config) (keyLen payloadLen : ℕ) :
    Holds cfg keyLen payloadLen (create cfg) newChain (fun _ => none) where
  structured := structured_create cfg
  idle := init_idle
  slots := show init.buddyBucket ≤ tableSlots by decide
  distinct b := by
    rw [recordsOf_create]
    exact nodup_nil
  sized {b r} hr := by
    rw [recordsOf_create] at hr
    cases hr
  lookup key := by
    rw [recordsOf_create]
    rfl

end TwoTree.LinearHashing
