import TwoTree.ConcurrentTwoBTree.Scan
import TwoTree.ConcurrentTwoBTree.Update

/-!
# Removing a key

`remove` replaces the hot record of its key by a deletion mark of one byte, or inserts one.  A
lookup recognises the mark by its length.  Nothing else does: `insert` meets a record under the
key and is refused, `put` overwrites bytes behind the mark, a scan hands out the key with
whatever lies behind the mark, and an eviction writes those bytes to the cold tree and drops the
mark, after which the key is back.

`NeverFound`, `NeverReported` and `Rewritable` are what a client expects of `remove`: the key is
gone for lookups and for scans, and can be written again.  `remove_never_lasts` says that all of
it fails, for every key and in every state that calls lead to.
-/

namespace TwoTree.ConcurrentTwoBTree

open Std Lib Lib.OrderedMap Lib.BufferedMerge LockManager TaggedPayload

variable {V : Type*}

namespace Adapter

/-- The key a call works on. -/
def Call.key? : Call V → Option ℕ
  | .op (.insert k _) => some k
  | .op (.update k _) => some k
  | .op (.put k _) => some k
  | .op (.lookup k) => some k
  | .op .evict => none
  | .remove k => some k

/-- The states that evictions and calls on keys other than `k` lead to. -/
inductive OthersRun (fuel : ℕ) (cfg : Config) (k : ℕ) : Adapter V → Adapter V → Prop
  | refl (s : Adapter V) : OthersRun fuel cfg k s s
  | call {s s' s'' : Adapter V} {c : Call V × Choices V} : OthersRun fuel cfg k s s' →
      c.1.key? ≠ some k → s'.Feasible c.2 → s'.call fuel cfg c = some s'' →
      OthersRun fuel cfg k s s''

/-- A removed key is not found by lookups, for as long as only other keys are operated on. -/
def NeverFound (fuel : ℕ) (cfg : Config) (s : Adapter V) (k : ℕ) : Prop :=
  ∀ s₁ s₂, s.remove fuel k = some s₁ → OthersRun fuel cfg k s₁ s₂ →
    ∀ ch, s₂.Feasible ch → ∃ s₃, s₂.lookup fuel cfg k ch = some (s₃, none)

/-- A removed key is not reported by scans, for as long as only other keys are operated on. -/
def NeverReported (fuel : ℕ) (cfg : Config) (s : Adapter V) (k : ℕ) : Prop :=
  ∀ s₁ s₂, s.remove fuel k = some s₁ → OthersRun fuel cfg k s₁ s₂ →
    ∀ overread start processor turns out, s₂.scan turns overread start processor = some out →
      k ∉ out.map Prod.fst

/-- A key written by `write` after it was removed is read with the value written. -/
def Rewritable (fuel : ℕ) (cfg : Config) (s : Adapter V) (k : ℕ)
    (write : Adapter V → ℕ → V → Choices V → Option (Adapter V)) : Prop :=
  ∀ s₁ s₂ v ch, s.remove fuel k = some s₁ → OthersRun fuel cfg k s₁ s₂ → s₂.Feasible ch →
    ∃ s₃, write s₂ k v ch = some s₃ ∧
      ∀ ch', s₃.Feasible ch' → ∃ s₄, s₃.lookup fuel cfg k ch' = some (s₄, some v)

variable {cfg : Config} {s s' : Adapter V} {k : ℕ} {ch : Choices V}

/-! ## The mark in the way of every other function -/

/-- A scan that starts at a removed key reports it. -/
lemma scan_reports_marked (hk : s.Marked k) (overread : ℕ → TaggedPayload V) (turns : ℕ) :
    s.scan (turns + 1) overread k (fun _ => true) = some [(k, (overread k).payload)] := by
  have hmem : (k, (overread k).payload) ∈ s.hotEntries overread k :=
    mem_hotEntries.2 ⟨le_rfl, _, hk, rfl⟩
  have hle := (ascending_hotEntries s overread).le k
  have hsorted := (ascending_hotEntries s overread).sorted k
  -- the key is the smallest from the start key on, so the scan begins with it
  rcases hl : s.hotEntries overread k with _ | ⟨e, l⟩
  · simp [hl] at hmem
  rw [hl] at hmem hle hsorted
  have he : (k, (overread k).payload) = e := by
    rcases List.mem_cons.1 hmem with heq | hin
    · exact heq
    · have hlt := (List.pairwise_cons.1 hsorted).1 _ hin
      have := hle e (by simp)
      simp only at hlt
      omega
  subst he
  refine scan_of_stop_at_head turns (by decide) _ hl ?_ rfl
  rcases hc : s.coldEntries k with _ | ⟨b, r⟩
  · rfl
  · have hb := (ascending_coldEntries s).le k b (by simp [hc])
    simpa [byKey] using hb

/-- A lookup that does not evict returns what a reader finds. -/
lemma lookup_calm (hs : s.Idle) (cfg : Config) (k fuel : ℕ) (hcalm : ch.pressure = false) :
    ∃ s', s.lookup (fuel + 1) cfg k ch = some (s', s.find k) := by
  obtain ⟨s', hrun, -⟩ := lookupLoop_spec cfg ch hs.unlocked fuel k
  refine ⟨s', ?_⟩
  simp [lookup, tryEviction, hcalm, hrun]

/-- `insert` of a removed key, without an eviction, leaves the mark. -/
lemma insert_marked (hs : s.Idle) (hk : s.Marked k) (fuel : ℕ) (v : V)
    (hcalm : ch.pressure = false) :
    ∃ s', s.insert (fuel + 1) cfg k v ch = some s' ∧ s'.Idle ∧ s'.Marked k := by
  obtain ⟨s', hrun, htouch, hkept⟩ := insert_refused hs.unlocked fuel hk v
  refine ⟨s', ?_, hs.of_onlyTouches htouch, (marked_congr hkept.1).2 hk⟩
  simpa [insert, tryEviction, hcalm] using hrun

/-- `put` of a removed key, without an eviction, leaves the mark. -/
lemma put_marked (hs : s.Idle) (hk : s.Marked k) (fuel : ℕ) (v : V)
    (hcalm : ch.pressure = false) :
    ∃ s', s.put (fuel + 1) cfg k v ch = some s' ∧ s'.Idle ∧ s'.Marked k := by
  obtain ⟨s', hrun, htouch, hkept⟩ := overwrite_marked hs.unlocked fuel hk
    (putLocked_localTo cfg k v) (fun w => putLocked_of_some (s := s.setWord k w) hk v)
  refine ⟨s', ?_, hs.of_onlyTouches htouch, (marked_congr hkept.1).2 hk⟩
  simpa [put, tryEviction, hcalm] using hrun

/-- An eviction of the mark leaves what a demotion of the bytes behind it leaves. -/
lemma EvictedAt.find_of_marked (h : EvictedAt cfg ch s s' k) (hk : s.Marked k) :
    s'.find k = Cell.demoted cfg.inclusive (ch.overread k).data s.coldBtree[k]? := by
  obtain ⟨r, hr, hhot, hcold⟩ := h
  obtain rfl : r = .deletedMark := Option.some.inj (hr.symm.trans hk)
  simp [find, hhot, hcold, HotRecord.asTagged]

/-- Modified bytes are never lost by a demotion, so the key is back. -/
lemma demoted_modified_ne_none (inclusive : Bool) (v : V) (cold : Option V) :
    Cell.demoted inclusive (v, true) cold ≠ none := by
  cases inclusive <;> cases cold <;> simp [Cell.demoted, Cell.demote]

/-- **Evictions bring a removed key back.**  The bytes behind the mark are those of a modified
record that is not referenced.  The first sweep evicts the mark or rewinds the hand, and then
the second does. -/
lemma exists_found_again (hs : s.Idle) (hk : s.Marked k) (v : V) (fuel : ℕ) (cfg : Config) :
    ∃ s', OthersRun fuel cfg k s s' ∧ s'.Idle ∧ s'.find k ≠ none := by
  have hdata : (⟨v, 1#8⟩ : TaggedPayload V).data = (v, true) := by
    simp [data, modified]
  have href : (⟨v, 1#8⟩ : TaggedPayload V).referenced = false := by
    simp [referenced]
  obtain ⟨e₁, range₁, hf₁, hsweep₁, hhand₁, -⟩ := exists_sweep hs cfg ⟨v, 1#8⟩
  set s₁ := s.evictABunch cfg (sweepChoices ⟨v, 1#8⟩ e₁) with hs₁_def
  have hs₁ : s₁.Idle := hs.evictABunch cfg _
  have hrun₁ : OthersRun fuel cfg k s s₁ :=
    .call (c := (.op .evict, sweepChoices ⟨v, 1#8⟩ e₁)) (.refl s) (by simp [Call.key?]) hf₁ rfl
  rcases hsweep₁.at k with hkept | hevicted
  · have hk₁ : s₁.Marked k := (marked_congr hkept.1).2 hk
    obtain ⟨e₂, range₂, hf₂, hsweep₂, -, hstart₂, hend₂⟩ := exists_sweep hs₁ cfg ⟨v, 1#8⟩
    have hle : k ≤ range₂.endKey :=
      hend₂ k (by rw [TreeMap.mem_iff_isSome_getElem?, hk₁]; rfl) (by omega)
    have hevicted := hsweep₂.notReferenced k .deletedMark (by omega) hle hk₁ href
    refine ⟨_, hrun₁.call (c := (.op .evict, sweepChoices ⟨v, 1#8⟩ e₂)) (by simp [Call.key?])
      hf₂ rfl, hs₁.evictABunch cfg _, ?_⟩
    rw [hevicted.find_of_marked hk₁, sweepChoices, hdata]
    exact demoted_modified_ne_none _ v _
  · refine ⟨s₁, hrun₁, hs₁, ?_⟩
    rw [hevicted.find_of_marked hk, sweepChoices, hdata]
    exact demoted_modified_ne_none _ v _

/-! ## No removal lasts -/

lemma exists_feasible_calm (s : Adapter V) (v : V) :
    ∃ ch : Choices V, s.Feasible ch ∧ ch.pressure = false := by
  obtain ⟨endKey, hfound, -⟩ := exists_boundaryFound s.hotBtree s.clock.clockHand
  exact ⟨sweepChoices ⟨v, 0#8⟩ endKey, ⟨_, rfl, hfound⟩, rfl⟩

/-- A write that leaves the mark where it is does not make the key readable again. -/
lemma not_rewritable (hs : s.Idle) (k fuel : ℕ) (v : V)
    {write : Adapter V → ℕ → V → Choices V → Option (Adapter V)}
    (hwrite : ∀ s : Adapter V, s.Idle → s.Marked k → ∀ ch : Choices V, ch.pressure = false →
      ∃ s', write s k v ch = some s' ∧ s'.Idle ∧ s'.Marked k) :
    ¬ Rewritable (fuel + 1) cfg s k write := by
  intro h
  obtain ⟨s₁, hremove, htouch, hmark, -⟩ := remove_spec hs.unlocked fuel k
  have hidle := hs.of_onlyTouches htouch
  obtain ⟨ch, hf, hcalm⟩ := exists_feasible_calm s₁ v
  obtain ⟨s₂, hrun, hlookup⟩ := h s₁ s₁ v ch hremove (.refl s₁) hf
  obtain ⟨t, ht, hidle₂, hmark₂⟩ := hwrite s₁ hidle hmark ch hcalm
  obtain rfl := Option.some.inj (hrun.symm.trans ht)
  obtain ⟨ch', hf', hcalm'⟩ := exists_feasible_calm s₂ v
  obtain ⟨s₃, hs₃⟩ := hlookup ch' hf'
  obtain ⟨t', ht'⟩ := lookup_calm hidle₂ cfg k fuel hcalm'
  simp [hs₃, find_of_marked hmark₂] at ht'

/-- **No removal lasts.**  In every state that calls lead to and for every key: after `remove`
evictions can make the key readable again, a scan can report it, and neither `insert` nor `put`
is sure to make it readable with the value written. -/
theorem remove_never_lasts (cfg : Config) (fuel : ℕ) {s : Adapter V} (hs : Reachable cfg s)
    (k : ℕ) (v : V) :
    ¬ NeverFound (fuel + 1) cfg s k ∧ ¬ NeverReported (fuel + 1) cfg s k ∧
      ¬ Rewritable (fuel + 1) cfg s k (fun s k v ch => s.insert (fuel + 1) cfg k v ch) ∧
      ¬ Rewritable (fuel + 1) cfg s k (fun s k v ch => s.put (fuel + 1) cfg k v ch) := by
  have hidle := hs.idle
  obtain ⟨s₁, hremove, htouch, hmark, -⟩ := remove_spec hidle.unlocked fuel k
  refine ⟨fun h => ?_, fun h => ?_, ?_, ?_⟩
  · obtain ⟨s₂, hrun, hidle₂, hfind⟩ :=
      exists_found_again (hidle.of_onlyTouches htouch) hmark v (fuel + 1) cfg
    obtain ⟨ch, hf, hcalm⟩ := exists_feasible_calm s₂ v
    obtain ⟨s₃, hs₃⟩ := h s₁ s₂ hremove hrun ch hf
    obtain ⟨t, ht⟩ := lookup_calm hidle₂ cfg k fuel hcalm
    rw [hs₃] at ht
    exact hfind (Prod.mk.inj (Option.some.inj ht)).2.symm
  · have hscan := scan_reports_marked hmark (fun _ => ⟨v, 0#8⟩) 0
    exact h s₁ s₁ hremove (.refl s₁) _ _ _ _ _ hscan (by simp)
  · exact not_rewritable hidle k fuel v
      (fun s hs hmark ch hcalm => insert_marked hs hmark fuel v hcalm)
  · exact not_rewritable hidle k fuel v
      (fun s hs hmark ch hcalm => put_marked hs hmark fuel v hcalm)

/-- **A removal that does not last.**  Key 1 is inserted and removed.  An exclusive adapter then
refuses to insert it again, reports it in a scan with the byte 7 behind the mark, and after an
eviction reads that byte as the value. -/
theorem remove_undone :
    let ch : Choices ℕ := sweepChoices ⟨7, 0⟩ 1
    let cfg : Config := ⟨false, false, 10⟩
    let read := fun (s : Adapter ℕ) => (s.lookup 1 cfg 1 ch).map Prod.snd
    let after := fun (calls : List (Call ℕ × Choices ℕ)) => calls.foldlM (call 1 cfg) init
    (after [(.op (.insert 1 10), ch), (.remove 1, ch)]).bind read = some none ∧
      (after [(.op (.insert 1 10), ch), (.remove 1, ch), (.op (.insert 1 20), ch)]).bind read =
        some none ∧
      (after [(.op (.insert 1 10), ch), (.remove 1, ch)]).bind
        (fun s => s.scan 2 (fun _ => ⟨7, 0⟩) 0 (fun _ => false)) = some [(1, 7)] ∧
      (after [(.op (.insert 1 10), ch), (.remove 1, ch), (.op .evict, ch)]).bind read =
        some (some 7) := by
  decide

/-- The removal of a key of the empty adapter. -/
theorem remove_never_lasts_init :
    Reachable ⟨false, false, 10⟩ (init : Adapter ℕ) ∧
      ¬ NeverFound 1 ⟨false, false, 10⟩ (init : Adapter ℕ) 1 :=
  have hreach : Reachable ⟨false, false, 10⟩ (init : Adapter ℕ) := ⟨1, [], rfl⟩
  ⟨hreach, (remove_never_lasts ⟨false, false, 10⟩ 0 hreach 1 0).1⟩

end Adapter

end TwoTree.ConcurrentTwoBTree
