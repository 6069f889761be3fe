import TwoTree.Lib.Simulation
import TwoTree.OverflowHeap.Split

/-!
# When the table with an overflow heap refines a map

A single thread calls the table.  `Op.Admissible` describes the calls the table is meant for: a key that
is inserted is absent, no bucket needs more than sixteen overflow pages, and the heap file hands out ids
that are not in use.  These calls do not suffice.  `Op.Harmless` has what else is needed:

* an insertion that compacts the page of a bucket finds nothing on the bucket's overflow pages, because
  compaction forgets them;
* an upsert of a key that is present has a payload of the old one's length, because it is written over
  the old one;
* a record that goes to a new overflow page fits on one, because nobody looks;
* a split does not need more overflow pages for the records that stay than the bucket has.

`lookup_yields_last_stored_of_harmless` is the result for runs of such calls.  In
`compaction_loses_record`, an insertion makes the table forget a key.
-/

namespace TwoTree.OverflowHeap

open Hashing LinearHashing Lib Lib.Records Function Option Page Rounds

variable {cfg : Config} {t t' : Table} {m : Bytes → Option Bytes} {key value : Bytes} {n : Node}
  {ids : TupleIds} {new : ℕ}

/-- What a call does to the map. -/
def Op.apply (m : Bytes → Option Bytes) : Op → Bytes → Option Bytes
  | .insert key value _ => update m key (some value)
  | .upsert key value _ => update m key (some value)
  | .remove key _ => update m key none
  | .lookup _ => m
  | .split _ => m

/-! ## The calls -/

/-- A new overflow page for the bucket finds a place in its list, and an id that is not in use. -/
def OverflowAdmissible (cfg : Config) (t : Table) (n : Node) (key value : Bytes) (new : ℕ) : Prop :=
  t.insertLoop cfg key value n.listed = none →
    n.numOverflowPages < kOverflowSlots ∧ t.heap new = none

/-- A record that needs a new overflow page fits on one. -/
def OverflowHarmless (cfg : Config) (t : Table) (n : Node) (key value : Bytes) : Prop :=
  t.insertLoop cfg key value n.listed = none →
    (Page.init (overflowLayout cfg)).canInsert (overflowLayout cfg) key value

/-- A split has a place in the mapping table, and its new bucket finds places and ids for its overflow
pages.  These ids are not in use once the old ones have been removed. -/
def SplitAdmissible (cfg : Config) (t : Table) (ids : TupleIds) : Prop :=
  t.rounds.buddyBucket < tableSlots ∧
    ∀ n s d, t.nodes t.rounds.splitBucket = some n →
      distribute cfg t.rounds.splitBucket t.rounds.power (t.recordsAt t.rounds.splitBucket) =
        some (s, d) →
      d.overflows.length ≤ kOverflowSlots ∧
        (∀ i < d.overflows.length,
          (t.writeSplit t.rounds.splitBucket n s).heap (ids.buddies i) = none) ∧
        ((List.range d.overflows.length).map ids.buddies).Nodup

/-- The records that a split puts on overflow pages fit there, and those that stay need no more
overflow pages than there are. -/
def SplitHarmless (cfg : Config) (t : Table) : Prop :=
  ∀ n, t.nodes t.rounds.splitBucket = some n → ∃ s d,
    distribute cfg t.rounds.splitBucket t.rounds.power (t.recordsAt t.rounds.splitBucket) =
      some (s, d) ∧ s.overflows.length ≤ n.numOverflowPages

/-- The calls the table is meant for. -/
def Op.Admissible (cfg : Config) (t : Table) (m : Bytes → Option Bytes) : Op → Prop
  | .insert key value ids =>
    m key = none ∧
      (∀ n, t.nodes (t.bucket cfg key) = some n → ¬ n.page.canInsert (nodeLayout cfg) key value →
        OverflowAdmissible cfg t n key value ids.overflow) ∧
      ∀ t₁, t.insertRecord cfg key value ids.overflow = some t₁ → t₁.Overloaded →
        SplitAdmissible cfg t₁ ids
  | .upsert key value ids =>
    (∀ n, t.nodes (t.bucket cfg key) = some n → m key = none →
      OverflowAdmissible cfg t n key value ids.overflow) ∧
      ∀ t₁, t.upsertRecord cfg key value ids.overflow = some t₁ → t₁.Overloaded →
        SplitAdmissible cfg t₁ ids
  | .remove _ _ => True
  | .lookup _ => True
  | .split ids => SplitAdmissible cfg t ids

/-- The calls that do no harm. -/
def Op.Harmless (cfg : Config) (t : Table) (m : Bytes → Option Bytes) : Op → Prop
  | .insert key value ids =>
    (∀ n, t.nodes (t.bucket cfg key) = some n →
      (n.page.canInsert (nodeLayout cfg) key value →
        spaceNeeded key value ≤ n.page.freeSpace (nodeLayout cfg) ∨
          n.listed.flatMap t.tuple = []) ∧
      (¬ n.page.canInsert (nodeLayout cfg) key value → OverflowHarmless cfg t n key value)) ∧
      ∀ t₁, t.insertRecord cfg key value ids.overflow = some t₁ → t₁.Overloaded →
        SplitHarmless cfg t₁
  | .upsert key value ids =>
    (∀ v, m key = some v → v.length = value.length) ∧
      (∀ n, t.nodes (t.bucket cfg key) = some n → m key = none →
        OverflowHarmless cfg t n key value) ∧
      ∀ t₁, t.upsertRecord cfg key value ids.overflow = some t₁ → t₁.Overloaded →
        SplitHarmless cfg t₁
  | .remove _ _ => True
  | .lookup _ => True
  | .split _ => SplitHarmless cfg t

/-- The table holds the map. -/
structure Holds (cfg : Config) (t : Table) (m : Bytes → Option Bytes) : Prop where
  structured : Structured cfg t
  idle : t.rounds.Idle
  slots : t.rounds.buddyBucket ≤ tableSlots
  filed : Filed cfg.hashFunc t.rounds t.recordsAt m

namespace Holds

variable (h : Holds cfg t m)
include h

/-- **One record is replaced.** -/
lemma rewritten {x y : Option Bytes} (hr : Rewritten cfg t t' key x y)
    (hnew : x = none → m key = none) : Holds cfg t' (update m key y) := by
  refine ⟨hr.structured, hr.rounds_eq ▸ h.idle, hr.rounds_eq ▸ h.slots, ?_⟩
  rw [hr.rounds_eq]
  exact h.filed.rewritten hr.home hr.other hnew

lemma home_node (key : Bytes) : ∃ n, t.nodes (t.bucket cfg key) = some n ∧
      t.nodes (t.rounds.home (cfg.hashFunc key)) = some n := by
  obtain ⟨n, hn⟩ := h.structured.exists_node key
  exact ⟨n, h.structured.bucket_eq h.idle key ▸ hn, hn⟩

/-- The key has no record if neither the page of its bucket has one nor an overflow page. -/
lemma absent (hn : t.nodes (t.rounds.home (cfg.hashFunc key)) = some n)
    (hpage : n.page.find (nodeLayout cfg) key = none)
    (hoverflow : key ∉ (n.listed.flatMap t.tuple).map Prod.fst) : m key = none := by
  refine h.filed.eq_none_of_notMem ?_
  rw [recordsAt_eq hn, List.map_append, List.mem_append, not_or]
  exact ⟨(h.structured.ok hn).find_eq_none_iff.1 hpage, hoverflow⟩

/-- **Split.** -/
lemma split (hok : SplitAdmissible cfg t ids) (hharm : SplitHarmless cfg t) :
    ∃ t', t.split cfg ids = some t' ∧ Holds cfg t' m := by
  obtain ⟨rounds, hstart⟩ : ∃ rounds, t.rounds.startSplit = some rounds :=
    ⟨_, h.structured.rounds.startSplit h.idle⟩
  obtain ⟨hpower, hfin, hstarted, hbuddy⟩ := startSplit_frame hstart
  have hunder : rounds.startedSplits = rounds.finishedSplits + 1 := by rw [hstarted, hfin, h.idle]
  have hrounds := h.structured.rounds.of_startSplit h.idle hstart
  have hsb : t.rounds.splitBucket = rounds.finishedSplits := by
    rw [h.structured.rounds.splitBucket_eq, h.idle, hfin]
  have hlinked : rounds.linked = t.rounds.linked := by
    rw [linked, linked, hpower, hfin]
  have hbb : t.rounds.buddyBucket = rounds.linked := by
    rw [hlinked, h.structured.rounds.linked_of_idle h.idle]
  have hlt : rounds.finishedSplits < rounds.linked :=
    lt_of_lt_of_le hrounds.finished_lt (Nat.le_add_right _ _)
  obtain ⟨n, hn⟩ : ∃ n, t.nodes rounds.finishedSplits = some n :=
    ne_none_iff_exists'.1 ((h.structured.linked _).2 (hlinked ▸ hlt))
  -- the parts, by the homes their records will have
  obtain ⟨s, d, hdist, hle⟩ := hharm n (hsb ▸ hn)
  obtain ⟨hsixteen, hfree, hnodup⟩ := hok.2 n s d (hsb ▸ hn) hdist
  have hfiled := h.filed.startSplit hstart
  have hhash : ∀ x ∈ t.recordsAt rounds.finishedSplits,
      hash cfg.hashFunc x.1 (t.rounds.power + 1) = rounds.finishSplit.home (cfg.hashFunc x.1) :=
    fun x hx => by rw [hfiled.home_finishSplit hrounds hunder hx, hpower]
  obtain ⟨hs, hd⟩ := filled_of_distribute hdist
  rw [hsb, List.filter_congr (fun x hx => by rw [hhash x hx])] at hs hd
  -- the two buckets are written in a table whose split is under way
  have hstructured : Structured cfg { t with rounds := rounds } :=
    have hold := h.structured
    ⟨hrounds, fun b => by rw [hold.linked b, hlinked], hold.ok, hold.nodup, hold.apart, hold.tuples⟩
  obtain ⟨hstr₁, hrec₁, hother₁⟩ := hstructured.writeSplit hn hs hle
  obtain ⟨hstr₂, hrec₂, hother₂⟩ := hstr₁.writeBuddy hunder hd
    (fun i hi => hsb ▸ hfree i hi) hnodup
  refine ⟨_, ?_, hstr₂, (hrounds.finishSplit hunder).2, ?_, ?_⟩
  · rw [Table.split, hstart]
    simp only [if_neg (not_le.2 hok.1), hsb, hn]
    rw [hsb] at hdist
    simp only [hdist, if_neg (not_or.2 ⟨not_lt.2 hle, not_lt.2 hsixteen⟩), hbb]
    rfl
  · show rounds.finishSplit.buddyBucket ≤ tableSlots
    rw [finishSplit_buddyBucket, hbuddy]
    exact hok.1
  · refine hfiled.divided hrounds hunder ?_ ?_ (fun b hb hb' => ?_)
    · exact (List.Perm.of_eq ((hother₂ _ hlt.ne).trans hrec₁)).trans hs.perm
    · exact (List.Perm.of_eq hrec₂).trans hd.perm
    · exact (hother₂ b hb').trans (hother₁ b hb)

lemma splitIfOverloaded (hok : t.Overloaded → SplitAdmissible cfg t ids ∧ SplitHarmless cfg t) :
    ∃ t', t.splitIfOverloaded cfg ids = some t' ∧ Holds cfg t' m := by
  unfold Table.splitIfOverloaded
  split_ifs with hload
  · exact h.split (hok hload).1 (hok hload).2
  · exact ⟨t, rfl, h⟩

/-- **A record goes to an overflow page.** -/
lemma insertOverflow (hn : t.nodes (t.rounds.home (cfg.hashFunc key)) = some n)
    (hadm : OverflowAdmissible cfg t n key value new) (hharm : OverflowHarmless cfg t n key value)
    (habsent : m key = none) :
    ∃ t', t.insertOverflow cfg (t.rounds.home (cfg.hashFunc key)) n key value new = some t' ∧
      Holds cfg t' (update m key (some value)) := by
  unfold Table.insertOverflow
  cases hloop : t.insertLoop cfg key value n.listed with
  | some t₁ =>
    exact ⟨_, rfl, h.rewritten ((h.structured.insertLoop hn hloop).store _) (fun _ => habsent)⟩
  | none =>
    obtain ⟨hroom, hfree⟩ := hadm hloop
    obtain ⟨t₁, ht₁, hr⟩ := h.structured.addOverflow hn hfree hroom (hharm hloop)
    rw [none_or, ht₁]
    exact ⟨_, rfl, h.rewritten (hr.store _) (fun _ => habsent)⟩

/-- **An insertion on the bucket's own page**, if it forgets no records. -/
lemma insertNode (hn : t.nodes (t.rounds.home (cfg.hashFunc key)) = some n)
    (hroom : n.page.canInsert (nodeLayout cfg) key value)
    (hharm : spaceNeeded key value ≤ n.page.freeSpace (nodeLayout cfg) ∨
      n.listed.flatMap t.tuple = []) (habsent : m key = none) :
    Holds cfg (t.setNode (t.rounds.home (cfg.hashFunc key)) (n.insert cfg key value))
      (update m key (some value)) := by
  have hpage : (n.insert cfg key value).page = n.page.insert (nodeLayout cfg) key value := by
    unfold Node.insert Node.requestSpaceFor Page.insert Page.requestSpaceFor
    split_ifs <;> rfl
  have hok : (n.insert cfg key value).page.Ok (nodeLayout cfg) :=
    hpage ▸ (h.structured.ok hn).insert hroom
  have hrec := n.page.rewrites_insert (L := nodeLayout cfg) key value
  rw [← hpage] at hrec
  by_cases hfree : spaceNeeded key value ≤ n.page.freeSpace (nodeLayout cfg)
  · have hlisted : (n.insert cfg key value).listed = n.listed := by
      unfold Node.insert Node.requestSpaceFor
      rw [if_pos hfree]
      rfl
    refine h.rewritten (x := none) (h.structured.setNode hn hok (by rw [hlisted]) ?_)
      (fun _ => habsent)
    rw [hlisted]
    exact hrec.context [] (n.listed.flatMap t.tuple)
  · have hlisted : (n.insert cfg key value).listed = [] := by
      unfold Node.insert Node.requestSpaceFor
      rw [if_neg hfree, if_pos (hroom.resolve_left hfree)]
      rfl
    refine h.rewritten (x := none)
      (h.structured.setNode hn hok (by rw [hlisted]; exact List.nil_sublist _) ?_)
      (fun _ => habsent)
    rw [hlisted, hharm.resolve_left hfree]
    exact hrec.context [] []

/-- What the counter says changes nothing else. -/
lemma store (d : ℕ) : Holds cfg { t with dataStored := d } m :=
  have hs := h.structured
  ⟨⟨hs.rounds, hs.linked, hs.ok, hs.nodup, hs.apart, hs.tuples⟩, h.idle, h.slots, h.filed⟩

lemma insert (hok : (Op.insert key value ids).Admissible cfg t m)
    (hharm : (Op.insert key value ids).Harmless cfg t m) :
    ∃ t', t.insert cfg key value ids = some t' ∧
      Holds cfg t' (update m key (some value)) := by
  obtain ⟨habsent, hadm, hsplit⟩ := hok
  obtain ⟨hpage, hsplit'⟩ := hharm
  obtain ⟨n, hnb, hn⟩ := h.home_node key
  obtain ⟨t₁, ht₁, h₁⟩ : ∃ t₁, t.insertRecord cfg key value ids.overflow = some t₁ ∧
      Holds cfg t₁ (update m key (some value)) := by
    rw [Table.insertRecord, hnb]
    by_cases hroom : n.page.canInsert (nodeLayout cfg) key value
    · refine ⟨_, if_pos hroom, ?_⟩
      rw [h.structured.bucket_eq h.idle]
      exact (h.insertNode hn hroom ((hpage n hnb).1 hroom) habsent).store _
    · simp only [if_neg hroom, h.structured.bucket_eq h.idle]
      exact h.insertOverflow hn (hadm n hnb hroom) ((hpage n hnb).2 hroom) habsent
  obtain ⟨t₂, ht₂, h₂⟩ := h₁.splitIfOverloaded
    (fun hload => ⟨hsplit t₁ ht₁ hload, hsplit' t₁ ht₁ hload⟩)
  exact ⟨t₂, by rw [Table.insert, ht₁, bind_some, ht₂], h₂⟩

lemma upsertRecord (hadm : ∀ n, t.nodes (t.bucket cfg key) = some n → m key = none →
      OverflowAdmissible cfg t n key value new)
    (hlen : ∀ v, m key = some v → v.length = value.length)
    (hharm : ∀ n, t.nodes (t.bucket cfg key) = some n → m key = none →
      OverflowHarmless cfg t n key value) : ∃ t', t.upsertRecord cfg key value new = some t' ∧
      Holds cfg t' (update m key (some value)) := by
  obtain ⟨n, hnb, hn⟩ := h.home_node key
  have hsame : ∀ v, (key, v) ∈ t.recordsAt (t.rounds.home (cfg.hashFunc key)) →
      v.length = value.length := by
    intro v hv
    refine hlen v ?_
    rw [← h.filed.lookup key]
    exact lookup_eq_some_of_mem (h.filed.distinct _) hv
  rw [recordsAt_eq hn] at hsame
  simp only [Table.upsertRecord, hnb]
  cases hi : n.page.find (nodeLayout cfg) key with
  | some i =>
    have hpage : ∀ v, (key, v) ∈ n.page.records → v.length = value.length :=
      fun v hv => hsame v (List.mem_append_left _ hv)
    obtain ⟨v, hv⟩ := (h.structured.ok hn).rewrites_update hi hpage
    refine ⟨_, rfl, ?_⟩
    rw [h.structured.bucket_eq h.idle]
    exact (h.rewritten (h.structured.setPage hn ((h.structured.ok hn).update hi hpage) hv)
      (by simp)).store _
  | none =>
    simp only [h.structured.bucket_eq h.idle]
    cases hloop : t.updateLoop cfg key value n.listed with
    | some t₁ =>
      obtain ⟨v, hr⟩ := h.structured.updateLoop hn
        (fun v hv => hsame v (List.mem_append_right _ hv)) hloop
      exact ⟨t₁, rfl, h.rewritten hr (by simp)⟩
    | none =>
      have habsent := h.absent hn hi (h.structured.notMem_of_loop hn hloop)
      exact h.insertOverflow hn (hadm n hnb habsent) (hharm n hnb habsent) habsent

lemma upsert (hok : (Op.upsert key value ids).Admissible cfg t m)
    (hharm : (Op.upsert key value ids).Harmless cfg t m) :
    ∃ t', t.upsert cfg key value ids = some t' ∧
      Holds cfg t' (update m key (some value)) := by
  obtain ⟨hadm, hsplit⟩ := hok
  obtain ⟨hlen, hnew, hsplit'⟩ := hharm
  obtain ⟨t₁, ht₁, h₁⟩ := h.upsertRecord hadm hlen hnew
  obtain ⟨t₂, ht₂, h₂⟩ := h₁.splitIfOverloaded
    (fun hload => ⟨hsplit t₁ ht₁ hload, hsplit' t₁ ht₁ hload⟩)
  exact ⟨t₂, by rw [Table.upsert, ht₁, bind_some, ht₂], h₂⟩

lemma remove (key : Bytes) (stray : ℕ) :
    ∃ t', t.remove cfg key stray = some t' ∧ Holds cfg t' (update m key none) := by
  obtain ⟨n, hnb, hn⟩ := h.home_node key
  simp only [Table.remove, hnb]
  cases hi : n.page.find (nodeLayout cfg) key with
  | some i =>
    obtain ⟨v, hv⟩ := (h.structured.ok hn).rewrites_removeSlot hi
    refine ⟨_, rfl, ?_⟩
    rw [h.structured.bucket_eq h.idle]
    exact (h.rewritten (h.structured.setPage hn ((h.structured.ok hn).removeSlot hi) hv)
      (by simp)).store _
  | none =>
    refine ⟨_, rfl, ?_⟩
    cases hloop : t.removeLoop cfg key n.listed with
    | some t₁ =>
      obtain ⟨v, hr⟩ := h.structured.removeLoop hn hloop
      exact h.rewritten (hr.store _) (by simp)
    | none =>
      have habsent := h.absent hn hi (h.structured.notMem_of_loop hn hloop)
      rw [← habsent, update_eq_self]
      exact h

/-- **Every admissible and harmless call returns**, and does to the table what it does to the map. -/
lemma call {op : Op} (hok : op.Admissible cfg t m) (hharm : op.Harmless cfg t m) :
    ∃ t', t.call cfg op = some t' ∧ Holds cfg t' (op.apply m) := by
  cases op with
  | insert key value ids => exact h.insert hok hharm
  | upsert key value ids => exact h.upsert hok hharm
  | remove key stray => exact h.remove key stray
  | lookup key => exact ⟨t, by rw [Table.call, h.structured.lookup_eq h.idle]; rfl, h⟩
  | split ids => exact h.split hok hharm

end Holds

/-! ## Runs -/

lemma recordsAt_create (b : ℕ) : (Table.create cfg).recordsAt b = [] := by
  unfold Table.recordsAt Table.create
  by_cases hb : b < N <;> simp [hb, Node.init, Node.listed]

lemma structured_create (cfg : Config) : Structured cfg (Table.create cfg) := by
  have hnode : ∀ {b n}, (Table.create cfg).nodes b = some n → n = Node.init cfg := by
    intro b n hn
    simp only [Table.create] at hn
    split_ifs at hn
    exact (some.inj hn).symm
  refine ⟨init_ok, fun b => ?_, fun {b n} hn => ?_, fun {b n} hn => ?_,
    fun {b b' n n' id} hn _ hid => ?_, fun {b n id} hn hid => ?_⟩
  · have hlinked : (Table.create cfg).rounds.linked = N := rfl
    rw [hlinked]
    simp [Table.create]
  · rw [hnode hn]
    exact init_ok
  · rw [hnode hn]
    exact List.nodup_nil
  · rw [hnode hn] at hid
    cases hid
  · rw [hnode hn] at hid
    cases hid

lemma holds_create (cfg : Config) : Holds cfg (Table.create cfg) (fun _ => none) where
  structured := structured_create cfg
  idle := init_idle
  slots := show init.buddyBucket ≤ tableSlots by decide
  filed := by
    refine ⟨fun {b x} hx => ?_, fun b => ?_, fun key => ?_⟩
    · rw [recordsAt_create] at hx
      cases hx
    · rw [recordsAt_create]
      exact List.nodup_nil
    · rw [recordsAt_create]
      rfl

/-- **The table holds the last stored payloads**, in every run of admissible calls that do no harm:
every call returns, and lookup yields the last stored payload of every key that is present and none for
the others. -/
theorem lookup_yields_last_stored_of_harmless (cfg : Config) (ops : List Op)
    (hops : AdmitsRun (fun t m op => op.Admissible cfg t m ∧ op.Harmless cfg t m)
      (Table.call cfg) Op.apply (Table.create cfg) (fun _ => none) ops) :
    ∃ t, ops.foldlM (Table.call cfg) (Table.create cfg) = some t ∧
      ∀ key, t.lookup cfg key = some (ops.foldl Op.apply (fun _ => none) key) := by
  have hstep : ∀ t m op, Holds cfg t m → op.Admissible cfg t m ∧ op.Harmless cfg t m →
      ∃ t', t.call cfg op = some t' ∧ Holds cfg t' (op.apply m) :=
    fun t m op h hok => h.call hok.1 hok.2
  obtain ⟨t, hrun, h⟩ := AdmitsRun.simulates hstep (holds_create cfg) hops
  refine ⟨t, hrun, fun key => ?_⟩
  rw [h.structured.lookup_eq h.idle, h.filed.lookup]

/-- The ids 5, 6, 7 and so on. -/
def someIds : TupleIds := ⟨5, fun i => 6 + i⟩

/-- An insertion without a split is admissible if its key is absent, and a new overflow page has a
place. -/
lemma admissible_insert (habsent : m key = none)
    (hplace : (t.nodes (t.bucket sumConfig key)).all fun n =>
      n.page.canInsert (nodeLayout sumConfig) key value ∨
        n.numOverflowPages < kOverflowSlots ∧ t.heap someIds.overflow = none)
    (hlight : (t.insertRecord sumConfig key value someIds.overflow).all fun t' => ¬ t'.Overloaded) :
    (Op.insert key value someIds).Admissible sumConfig t m := by
  refine ⟨habsent, fun n hn hroom _ => ?_, fun t₁ ht₁ hload => ?_⟩
  · simpa [hn, hroom] using hplace
  · simp [ht₁, hload] at hlight

theorem lookup_yields_last_stored_of_harmless_upsert :
    ∃ t, [Op.insert [1] [7] someIds, .upsert [1] [8] someIds].foldlM (Table.call sumConfig)
        (Table.create sumConfig) = some t ∧ t.lookup sumConfig [1] = some (some [8]) := by
  have hroom : ((Table.create sumConfig).nodes ((Table.create sumConfig).bucket sumConfig [1])).all
      fun n => spaceNeeded [1] [7] ≤ n.page.freeSpace (nodeLayout sumConfig) := by decide +kernel
  have hlight₁ : ((Table.create sumConfig).insertRecord sumConfig [1] [7] someIds.overflow).all fun t =>
      ¬ t.Overloaded := by decide +kernel
  have hlight₂ : (((Table.create sumConfig).call sumConfig (.insert [1] [7] someIds)).getD
      (Table.create sumConfig)).upsertRecord sumConfig [1] [8] someIds.overflow |>.all fun t =>
      ¬ t.Overloaded := by decide +kernel
  have hops : AdmitsRun (fun t m op => op.Admissible sumConfig t m ∧ op.Harmless sumConfig t m)
      (Table.call sumConfig) Op.apply (Table.create sumConfig) (fun _ => none)
      [.insert [1] [7] someIds, .upsert [1] [8] someIds] := by
    refine .cons ⟨admissible_insert rfl (by decide +kernel) hlight₁, fun n hn => ?_,
      fun t₁ ht₁ hload => ?_⟩ (.cons ⟨⟨fun n _ hnone => ?_, fun t₁ ht₁ hload => ?_⟩,
        fun v hv => ?_, fun n _ hnone => ?_, fun t₁ ht₁ hload => ?_⟩ trivial)
    · have hfree : spaceNeeded [1] [7] ≤ n.page.freeSpace (nodeLayout sumConfig) := by
        simpa [hn] using hroom
      exact ⟨fun _ => Or.inl hfree, fun hfull => absurd (Or.inl hfree) hfull⟩
    · simp [ht₁, hload] at hlight₁
    · cases hnone
    · simp [ht₁, hload] at hlight₂
    · obtain rfl := Option.some.inj hv
      rfl
    · cases hnone
    · simp [ht₁, hload] at hlight₂
  obtain ⟨t, hrun, hlookup⟩ := lookup_yields_last_stored_of_harmless sumConfig _ hops
  exact ⟨t, hrun, hlookup [1]⟩

/-! ## A record that is lost -/

/-- Fill the page of a bucket, insert a key that goes to an overflow page, empty the page, and insert
on it again. -/
def forgetful (big : Bytes) : List Op :=
  [.insert [0] big someIds, .insert [128] [7] someIds, .remove [0] 0, .insert [0] [1] someIds]

/-- **A compaction loses a record**: every call is one the table is meant for, the key 128 was inserted
and never removed, and it is not found. -/
theorem compaction_loses_record :
    AdmitsRun (Op.Admissible sumConfig) (Table.call sumConfig) Op.apply (Table.create sumConfig)
        (fun _ => none) (forgetful (List.replicate 16263 0)) ∧
      (forgetful (List.replicate 16263 0)).foldl Op.apply (fun _ => none) [128] = some [7] ∧
      ∃ t, (forgetful (List.replicate 16263 0)).foldlM (Table.call sumConfig)
          (Table.create sumConfig) = some t ∧ t.lookup sumConfig [128] = some none := by
  refine ⟨?_, rfl, Option.bind_eq_some_iff.1 (by decide +kernel)⟩
  refine .cons (admissible_insert rfl (by decide +kernel) (by decide +kernel)) ?_
  refine .cons (admissible_insert rfl (by decide +kernel) (by decide +kernel)) ?_
  refine .cons trivial ?_
  exact .cons (admissible_insert rfl (by decide +kernel) (by decide +kernel)) trivial

end TwoTree.OverflowHeap
