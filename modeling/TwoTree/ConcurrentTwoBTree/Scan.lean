import TwoTree.Lib.BufferedMerge
import TwoTree.ConcurrentTwoBTree.Refinement

/-!
# Scans

`scan` walks the two trees through buffers of eight entries each and hands the entries of the
merged sequence to a processor; it is `BufferedMerge.scan` over the two trees.  Of a hot record
it hands out the payload, of a deletion mark whatever lies behind it.

`scan_emits_merge` says what the two buffers amount to: for any two trees without deletion marks, the
processor is handed the entries of both in the order of their keys, the hot one before the cold one
where a key has both.

A reader expects the stored keys, each once and with the value a lookup returns.  An exclusive
adapter delivers that.  An inclusive one may hold a key in both trees, and the merge hands out
both entries, the hot one first: `scan_correct_iff` says that the scan is right exactly if the
processor stops no later than at the first such key.
-/

namespace TwoTree.ConcurrentTwoBTree

open Std Lib Lib.OrderedMap Lib.BufferedMerge LockManager TreeMap

variable {V : Type*}

namespace Adapter

/-- `scan_buffer_size`. -/
def scanBufferSize : ℕ := 8

/-- What `fill_hot_scan_buffer` reads. -/
def hotEntries (s : Adapter V) (overread : ℕ → TaggedPayload V) (start : ℕ) : List (ℕ × V) :=
  (scanFrom s.hotBtree start).map (fun e => (e.1, (e.2.asTagged (overread e.1)).payload))

/-- What `fill_cold_scan_buffer` reads. -/
def coldEntries (s : Adapter V) (start : ℕ) : List (ℕ × V) := scanFrom s.coldBtree start

/-- `scan`: the entries handed to the processor.  The state of the adapter does not change. -/
def scan (fuel : ℕ) (s : Adapter V) (overread : ℕ → TaggedPayload V) (start : ℕ)
    (processor : Processor V) : Option (List (ℕ × V)) :=
  BufferedMerge.scan fuel scanBufferSize (fun key => u64 (key + 1)) (s.hotEntries overread)
    s.coldEntries processor start

/-! ## The trees as sources -/

variable {s : Adapter V} {overread : ℕ → TaggedPayload V} {start : ℕ}

lemma mem_hotEntries {k : ℕ} {v : V} :
    (k, v) ∈ s.hotEntries overread start ↔
      start ≤ k ∧ ∃ r, s.hotBtree[k]? = some r ∧ (r.asTagged (overread k)).payload = v := by
  simp only [hotEntries, List.mem_map, Prod.exists, mem_scanFrom, Prod.mk.injEq]
  constructor
  · rintro ⟨a, r, ⟨hle, hr⟩, rfl, hv⟩
    exact ⟨hle, r, hr, hv⟩
  · rintro ⟨hle, r, hr, hv⟩
    exact ⟨k, r, ⟨hle, hr⟩, rfl, hv⟩

lemma map_fst_hotEntries (s : Adapter V) (overread : ℕ → TaggedPayload V) (start : ℕ) :
    (s.hotEntries overread start).map Prod.fst = (scanFrom s.hotBtree start).map Prod.fst := by
  simp [hotEntries, Function.comp_def]

lemma ascending_hotEntries (s : Adapter V) (overread : ℕ → TaggedPayload V) :
    Ascending (s.hotEntries overread) where
  sorted := fun start => List.pairwise_map.2 (pairwise_scanFrom s.hotBtree start)
  restart := fun start start' h => by
    rw [hotEntries, scanFrom_restart s.hotBtree h, hotEntries, List.filter_map]
    rfl
  le := fun _ e he => (mem_hotEntries.1 (show (e.1, e.2) ∈ _ from he)).1

lemma ascending_coldEntries (s : Adapter V) : Ascending s.coldEntries where
  sorted := fun start => pairwise_scanFrom s.coldBtree start
  restart := fun _ _ h => scanFrom_restart s.coldBtree h
  le := fun _ e he => (mem_scanFrom.1 (show (e.1, e.2) ∈ _ from he)).1

/-- The stored keys have successors; the adapter asserts that they are even below `2 ^ 63`. -/
def KeysOk (s : Adapter V) : Prop := ∀ k, k ∈ s.hotBtree ∨ k ∈ s.coldBtree → k + 1 < 2 ^ 64

/-- **A scan hands out the merge of the two trees**, up to the processor's stop. -/
lemma scan_eq_merge (hkeys : s.KeysOk) (overread : ℕ → TaggedPayload V) (start : ℕ)
    (processor : Processor V) {fuel : ℕ} (hfuel : s.hotBtree.size + s.coldBtree.size < fuel) :
    s.scan fuel overread start processor =
      some (upTo processor []
        ((s.hotEntries overread start).merge (s.coldEntries start) byKey)) := by
  have hhot : ∀ start, ∀ e ∈ s.hotEntries overread start, u64 (e.1 + 1) = e.1 + 1 := by
    intro start e he
    obtain ⟨-, r, hr, -⟩ := mem_hotEntries.1 (show (e.1, e.2) ∈ _ from he)
    exact u64_of_lt (hkeys e.1 (Or.inl (by rw [mem_iff_isSome_getElem?, hr]; rfl)))
  have hcold : ∀ start, ∀ e ∈ s.coldEntries start, u64 (e.1 + 1) = e.1 + 1 := by
    intro start e he
    obtain ⟨-, hr⟩ := mem_scanFrom.1 (show (e.1, e.2) ∈ _ from he)
    exact u64_of_lt (hkeys e.1 (Or.inr (by rw [mem_iff_isSome_getElem?, hr]; rfl)))
  refine BufferedMerge.scan_eq (by decide) (ascending_hotEntries s overread)
    (ascending_coldEntries s) hhot hcold ?_
  have hlen : (s.hotEntries overread start).length ≤ s.hotBtree.size := by
    simpa [hotEntries] using length_scanFrom_le s.hotBtree start
  have hlen' : (s.coldEntries start).length ≤ s.coldBtree.size :=
    length_scanFrom_le s.coldBtree start
  omega

/-- **The buffers leave no trace.**  Whatever the two trees hold, deletion marks and keys from `2 ^ 63` on
apart: the scan ends, and the processor is handed, up to its stop, the entries of both trees from the
start key on in ascending order, the hot entry before the cold one on equal keys. -/
theorem scan_emits_merge (s : Adapter V)
    (hmarks : ∀ k : ℕ, s.hotBtree[k]? ≠ some HotRecord.deletedMark)
    (hkeys : ∀ k, k ∈ s.hotBtree ∨ k ∈ s.coldBtree → k < 2 ^ 63) (overread : ℕ → TaggedPayload V)
    (start : ℕ) (processor : Processor V) :
    ∃ l : List (Side × ℕ × V), l.Pairwise Precedes ∧
      (∀ k v, (Side.left, k, v) ∈ l ↔
        start ≤ k ∧ ∃ tp, s.hotBtree[k]? = some (.tagged tp) ∧ tp.payload = v) ∧
      (∀ k v, (Side.right, k, v) ∈ l ↔ start ≤ k ∧ s.coldBtree[k]? = some v) ∧
      ∃ turns, ∀ fuel ≥ turns,
        s.scan fuel overread start processor = some (upTo processor [] (l.map Prod.snd)) := by
  refine ⟨mergeSides (s.hotEntries overread start) (s.coldEntries start), ?_, ?_, ?_, ?_⟩
  · exact pairwise_mergeSides ((ascending_hotEntries s overread).sorted start)
      ((ascending_coldEntries s).sorted start)
  · intro k v
    rw [mem_mergeSides_left, mem_hotEntries]
    constructor
    · rintro ⟨hle, r, hr, hv⟩
      cases r with
      | tagged tp => exact ⟨hle, tp, hr, hv⟩
      | deletedMark => exact absurd hr (hmarks k)
    · rintro ⟨hle, tp, htp, hv⟩
      exact ⟨hle, _, htp, hv⟩
  · intro k v
    rw [mem_mergeSides_right, coldEntries, mem_scanFrom]
  · have hok : s.KeysOk := fun k hk => (Nat.succ_le_of_lt (hkeys k hk)).trans_lt (by norm_num)
    refine ⟨s.hotBtree.size + s.coldBtree.size + 1, fun fuel hfuel => ?_⟩
    rw [scan_eq_merge hok overread start processor hfuel, map_snd_mergeSides]

/-- An adapter with a key in both trees. -/
def overlapping : Adapter ℕ :=
  { (init : Adapter ℕ) with
    hotBtree := ((∅ : TreeMap ℕ (HotRecord ℕ)).insert 1 (.tagged ⟨10, 0⟩)).insert 3 (.tagged ⟨30, 0⟩)
    coldBtree := ((∅ : TreeMap ℕ ℕ).insert 1 11).insert 2 20 }

theorem scan_emits_merge_overlapping : ∃ l : List (Side × ℕ × ℕ), (Side.left, 1, 10) ∈ l ∧
    (Side.right, 1, 11) ∈ l ∧ ∃ turns, ∀ fuel ≥ turns,
      overlapping.scan fuel (fun _ => ⟨0, 0⟩) 0 (fun _ => false) =
        some (upTo (fun _ => false) [] (l.map Prod.snd)) := by
  have hmem : ∀ k, k ∈ overlapping.hotBtree ∨ k ∈ overlapping.coldBtree → k = 1 ∨ k = 2 ∨ k = 3 := by
    intro k hk
    simp only [overlapping, TreeMap.mem_insert, Nat.compare_eq_eq] at hk
    simp at hk
    omega
  have hmarks : ∀ k : ℕ, overlapping.hotBtree[k]? ≠ some HotRecord.deletedMark := by
    intro k hk
    have hin : k ∈ overlapping.hotBtree := by
      rw [TreeMap.mem_iff_isSome_getElem?, hk]
      rfl
    rcases hmem k (Or.inl hin) with rfl | rfl | rfl <;> revert hk <;> decide
  obtain ⟨l, -, hhot, hcold, hscan⟩ := scan_emits_merge overlapping hmarks
    (fun k hk => by rcases hmem k hk with rfl | rfl | rfl <;> norm_num) (fun _ => ⟨0, 0⟩) 0
    (fun _ => false)
  refine ⟨l, (hhot 1 10).2 ⟨by decide, ⟨10, 0⟩, by decide, rfl⟩, (hcold 1 11).2 ⟨by decide, by decide⟩,
    hscan⟩

/-! ## What a reader expects -/

/-- The stored keys from a start key on, each once, the hot entry shadowing the cold one. -/
def storedFrom (s : Adapter V) (overread : ℕ → TaggedPayload V) (start : ℕ) : List (ℕ × V) :=
  overlay (s.hotEntries overread start) (s.coldEntries start)

lemma pairwise_storedFrom (s : Adapter V) (overread : ℕ → TaggedPayload V) (start : ℕ) :
    (s.storedFrom overread start).Pairwise (fun a b => a.1 < b.1) :=
  pairwise_overlay ((ascending_hotEntries s overread).sorted start)
    ((ascending_coldEntries s).sorted start)

/-- The entries handed out are right: they are an ascending list of exactly the keys from the
start key on that a lookup finds, with the values it finds, up to the processor's stop. -/
def ScanCorrect (fuel : ℕ) (cfg : Config) (s : Adapter V) (start : ℕ) (processor : Processor V)
    (out : List (ℕ × V)) : Prop :=
  ∃ l : List (ℕ × V), l.Pairwise (fun a b => a.1 < b.1) ∧
    (∀ k v, (k, v) ∈ l ↔
      start ≤ k ∧ ∀ ch, ∃ s', s.lookup fuel cfg k ch = some (s', some v)) ∧
    out = upTo processor [] l

section Refined

variable {cfg : Config} {m : ℕ → Option V}

variable (h : Refines cfg s m)
include h

lemma Refines.mem_storedFrom (overread : ℕ → TaggedPayload V) {start k : ℕ} {v : V} :
    (k, v) ∈ s.storedFrom overread start ↔ start ≤ k ∧ m k = some v := by
  rw [storedFrom, mem_overlay, mem_hotEntries, map_fst_hotEntries, mem_map_fst_scanFrom,
    coldEntries, mem_scanFrom, ← h.find_eq k]
  rcases hr : s.hotBtree[k]? with _ | (tp | _)
  · have hnot : k ∉ s.hotBtree := by simp [mem_iff_isSome_getElem?, hr]
    simp [find, hnot]
  · have hmem : k ∈ s.hotBtree := by simp [mem_iff_isSome_getElem?, hr]
    simp only [Option.some.injEq, exists_eq_left', HotRecord.asTagged, hmem, and_true, find, hr]
    tauto
  · exact absurd hr (h.not_marked k)

lemma Refines.lookup_iff (fuel k : ℕ) (v : V) :
    (∀ ch, ∃ s', s.lookup (fuel + 1) cfg k ch = some (s', some v)) ↔ m k = some v := by
  constructor
  · intro hlookup
    let ch : Choices V := ⟨false, none, fun _ => ⟨v, 0#8⟩, 0, false, false, 0, true⟩
    obtain ⟨s', hs'⟩ := hlookup ch
    obtain ⟨s'', hs'', -⟩ := h.lookup fuel k ch
    rw [hs'] at hs''
    exact (Prod.mk.inj (Option.some.inj hs'')).2.symm
  · intro hm ch
    obtain ⟨s', hs', -⟩ := h.lookup fuel k ch
    exact ⟨s', by rw [hs', hm]⟩

/-- There is one right answer, and it lists the stored entries. -/
lemma Refines.scanCorrect_iff (overread : ℕ → TaggedPayload V)
    (fuel start : ℕ) (processor : Processor V) (out : List (ℕ × V)) :
    ScanCorrect (fuel + 1) cfg s start processor out ↔
      out = upTo processor [] (s.storedFrom overread start) := by
  constructor
  · rintro ⟨l, hsorted, hmem, rfl⟩
    have heq : l = s.storedFrom overread start := by
      refine eq_of_ascending hsorted (pairwise_storedFrom s overread start) (fun e => ?_)
      obtain ⟨k, v⟩ := e
      rw [hmem, h.mem_storedFrom, h.lookup_iff]
    rw [heq]
  · intro hout
    refine ⟨_, pairwise_storedFrom s overread start, fun k v => ?_, hout⟩
    rw [h.mem_storedFrom, h.lookup_iff]

/-- If only keys with successors were written, only such keys are stored. -/
lemma Refines.keysOk (hm : ∀ k, (m k).isSome → k + 1 < 2 ^ 64) : s.KeysOk := by
  intro k hk
  refine hm k ?_
  rw [← h.holds.view k, Cell.view]
  rcases hr : s.hotBtree[k]? with _ | (tp | _)
  · rcases hk with hk | hk
    · simp [mem_iff_isSome_getElem?, hr] at hk
    · simpa [cell, hr, ← mem_iff_isSome_getElem?] using hk
  · simp [cell, hr]
  · exact absurd hr (h.not_marked k)

end Refined

/-- **When a scan is right.**  In every state that `insert` of absent keys, `put` of present
keys, `lookup` and evictions lead to, for every start key and every processor: the scan returns,
and hands out the stored keys at or above the start key in ascending order, each once and with
the value a lookup returns, exactly if the processor stops no later than at the first of these
keys that both trees hold. -/
theorem scan_correct_iff (cfg : Config) (fuel : ℕ) {ops : List (Op V × Choices V)}
    (hops : AdmissibleRun ops)
    (hkeys : ∀ k v, Op.insert k v ∈ ops.map Prod.fst → k + 1 < 2 ^ 64) {s : Adapter V}
    (hrun : init.run (fuel + 1) cfg ops = some s) (overread : ℕ → TaggedPayload V) (start : ℕ)
    (processor : Processor V) {turns : ℕ} (hturns : s.hotBtree.size + s.coldBtree.size < turns) :
    (∃ out, s.scan turns overread start processor = some out ∧
        ScanCorrect (fuel + 1) cfg s start processor out) ↔
      ∀ x, start ≤ x → x ∈ s.hotBtree → x ∈ s.coldBtree →
        StopsBy processor [] (s.storedFrom overread start) x := by
  obtain ⟨t, ht, hs⟩ := run_refines cfg fuel hops
  obtain rfl := Option.some.inj (hrun.symm.trans ht)
  have hok : s.KeysOk := hs.keysOk (fun k hk => by
    obtain ⟨v, hv⟩ := (isSome_contents_iff (Admits.map (hops.mono (fun _ _ h => h.1))) k).1 hk
    exact hkeys k v hv)
  have hshared : ∀ x, Shared (s.hotEntries overread start) (s.coldEntries start) x ↔
      start ≤ x ∧ x ∈ s.hotBtree ∧ x ∈ s.coldBtree := by
    intro x
    rw [Shared, map_fst_hotEntries, coldEntries, mem_map_fst_scanFrom, mem_map_fst_scanFrom]
    tauto
  rw [scan_eq_merge hok overread start processor hturns]
  simp only [hs.scanCorrect_iff overread, Option.some.injEq, exists_eq_left', storedFrom]
  rw [upTo_merge_eq_iff processor ((ascending_hotEntries s overread).sorted start)
    ((ascending_coldEntries s).sorted start)]
  simp [hshared]

/-- **A key that a scan hands out twice.**  In an inclusive adapter the record of key 1 is
inserted, evicted, migrated by a lookup and overwritten.  A processor that never stops is handed
the new value and then the old one. -/
theorem scan_twice :
    let ch : Choices ℕ := ⟨false, some (1, true), fun _ => ⟨0, 0⟩, 0, false, false, 0, true⟩
    (init.run 1 ⟨true, false, 10⟩
        [(.insert 1 10, ch), (.evict, ch), (.lookup 1, ch), (.put 1 20, ch)]).bind
      (fun s => s.scan 3 (fun _ => ⟨0, 0⟩) 0 (fun _ => false)) = some [(1, 20), (1, 10)] := by
  decide

/-- A scan of an exclusive adapter with a record in each tree. -/
theorem scan_correct_iff_exclusive :
    let ch : Choices ℕ := ⟨false, some (1, true), fun _ => ⟨0, 0⟩, 0, false, false, 0, true⟩
    let ops := [(Op.insert 1 10, ch), (.evict, ch), (.insert 2 20, ch)]
    ∃ s out, init.run 1 ⟨false, false, 10⟩ ops = some s ∧
      s.scan (s.hotBtree.size + s.coldBtree.size + 1) (fun _ => ⟨0, 0⟩) 0 (fun _ => false) =
        some out ∧ ScanCorrect 1 ⟨false, false, 10⟩ s 0 (fun _ => false) out := by
  intro ch ops
  have hops : AdmissibleRun ops := by
    simp [ops, AdmissibleRun, Admits, Op.Admissible, Op.IsUpdate, Op.apply]
  have hkeys : ∀ k v, Op.insert k v ∈ ops.map Prod.fst → k + 1 < 2 ^ 64 := by
    intro k v hmem
    have : (k = 1 ∧ v = 10) ∨ (k = 2 ∧ v = 20) := by simpa [ops] using hmem
    omega
  obtain ⟨s, hrun, hs⟩ := run_refines ⟨false, false, 10⟩ 0 hops
  obtain ⟨out, hout⟩ := (scan_correct_iff ⟨false, false, 10⟩ 0 hops hkeys hrun (fun _ => ⟨0, 0⟩) 0
    (fun _ => false) (Nat.lt_succ_self _)).2
    (fun x _ hhot hcold => absurd hcold (hs.not_mem_cold rfl hhot))
  exact ⟨s, out, hrun, hout⟩

end Adapter

end TwoTree.ConcurrentTwoBTree
