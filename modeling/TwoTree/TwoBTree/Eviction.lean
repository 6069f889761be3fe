import TwoTree.TwoBTree.Adapter

/-!
# Evictions of the two-tree adapter

What the two trees hold for a key is a cell.  A call of `evict_a_bunch` examines some of the hot
records (`walk_spec`), clears the reference bits it finds and moves the others down
(`evictABunch_spec`), so it keeps a cell or demotes it.

`hot_partition_item_count` is what `evict_all` runs on, and it is the number of hot records.  A
call removes a record, or clears the reference bit of the record the next call meets first, or
rewinds the hand; so the potential `3 * count + phase` decreases (`potential_evictABunch`), and
the loop ends with an empty hot tree.
-/

namespace TwoTree.TwoBTree

open Std Lib Lib.OrderedMap List TaggedPayload Cell

variable {V : Type*}

namespace Adapter

variable (cfg : Config) (s : Adapter V)

/-- What the two trees hold for a key. -/
def cell (k : ℕ) : Cell V :=
  ⟨s.hotBtree[k]?.map TaggedPayload.data, s.coldBtree[k]?.map TaggedPayload.payload⟩

/-- The item count is the number of hot records. -/
def Counted : Prop := s.hotPartitionItemCount = s.hotBtree.size

/-! ## The walk -/

/-- What the walk does to a referenced record. -/
def unreference (hot : TreeMap ℕ (TaggedPayload V)) (e : ℕ × TaggedPayload V) :
    TreeMap ℕ (TaggedPayload V) :=
  if e.2.referenced then hot.insert e.1 e.2.clearReferenced else hot

/-- The victims among the records of a walk. -/
def victimsOf (l : List (ℕ × TaggedPayload V)) : List (ℕ × TaggedPayload V) :=
  l.filter (fun e => !e.2.referenced)

/-- The walk examines a prefix of the records: the referenced ones lose their bit, the others
are the victims. -/
structure WalkSpec (l : List (ℕ × TaggedPayload V)) (w w' : Walk V)
    (done : List (ℕ × TaggedPayload V)) : Prop where
  isPrefix : done <+: l
  hot : w'.hot = done.foldl unreference w.hot
  victims : w'.victims = w.victims ++ victimsOf done
  hand : victimsOf done = [] → w'.hand = w.hand
  steps : w'.steps ≤ w.steps

lemma WalkSpec.nil {l : List (ℕ × TaggedPayload V)} {w w' : Walk V} (hhot : w'.hot = w.hot)
    (hvictims : w'.victims = w.victims) (hhand : w'.hand = w.hand) (hsteps : w'.steps ≤ w.steps) :
    WalkSpec l w w' [] :=
  ⟨ nil_prefix, hhot, by simp [hvictims, victimsOf], fun _ => hhand, hsteps⟩

lemma WalkSpec.cons {e : ℕ × TaggedPayload V} {rest done : List (ℕ × TaggedPayload V)}
    {w w₁ w' : Walk V} (h : WalkSpec rest w₁ w' done) (hhot : w₁.hot = unreference w.hot e)
    (hvictims : w₁.victims = w.victims ++ victimsOf [e])
    (hhand : e.2.referenced = true → w₁.hand = w.hand) (hsteps : w₁.steps = w.steps - 1) :
    WalkSpec (e :: rest) w w' (e :: done) := by
  refine ⟨cons_prefix_cons.2 ⟨rfl, h.isPrefix⟩, ?_, ?_, fun hnil => ?_, ?_⟩
  · rw [h.hot, hhot, foldl_cons]
  · rw [h.victims, hvictims, append_assoc]
    simp [victimsOf, ← filter_append]
  · cases href : e.2.referenced
    · simp [victimsOf, href] at hnil
    · have hnil' : victimsOf done = [] := by simpa [victimsOf, href] using hnil
      rw [h.hand hnil', hhand href]
  · have := h.steps
    omega

/-- **The walk.**  It gets past the first record, whatever is behind it. -/
lemma walk_spec (l : List (ℕ × TaggedPayload V)) (w : Walk V) :
    ∃ done, WalkSpec l w (walk l w) done ∧
      (2 ≤ w.steps → ∀ e ∈ l.head?, e ∈ done ∧ (walk l w).steps < w.steps) := by
  induction l generalizing w with
  | nil => exact ⟨[], .nil rfl rfl rfl le_rfl, by simp⟩
  | cons e rest ih =>
    by_cases hsteps : w.steps - 1 = 0
    · have hwalk : walk (e :: rest) w = { w with steps := w.steps - 1 } := by
        simp [walk, hsteps]
      rw [hwalk]
      exact ⟨[], .nil rfl rfl rfl (Nat.sub_le _ _), fun hle => by omega⟩
    -- what is left to show once the first record is done
    have hcons : ∀ w₁ w' done, WalkSpec rest w₁ w' done → w₁.hot = unreference w.hot e →
        w₁.victims = w.victims ++ victimsOf [e] → (e.2.referenced = true → w₁.hand = w.hand) →
        w₁.steps = w.steps - 1 → walk (e :: rest) w = w' →
        ∃ done, WalkSpec (e :: rest) w (walk (e :: rest) w) done ∧
          (2 ≤ w.steps → ∀ e' ∈ (e :: rest).head?,
            e' ∈ done ∧ (walk (e :: rest) w).steps < w.steps) := by
      intro w₁ w' done h hhot hvictims hhand hsteps₁ hwalk
      rw [hwalk]
      refine ⟨e :: done, h.cons hhot hvictims hhand hsteps₁, fun hle e' he' => ?_⟩
      obtain rfl : e = e' := by simpa using he'
      have := h.steps
      exact ⟨by simp, by omega⟩
    cases href : e.2.referenced
    · set w₁ : Walk V := { w with steps := w.steps - 1, hand := e.1
                                  victims := w.victims ++ [e] } with hw₁
      have hvictims : w₁.victims = w.victims ++ victimsOf [e] := by simp [victimsOf, href, hw₁]
      by_cases hmax : w₁.victims.length ≥ kMaxVictims
      · have hwalk : walk (e :: rest) w = w₁ := by
          simp only [walk, hsteps, href, Bool.false_eq_true, if_false]
          rw [if_pos hmax]
        exact hcons w₁ w₁ [] (.nil rfl rfl rfl le_rfl) (by simp [unreference, href, hw₁])
          hvictims (by simp [href]) rfl hwalk
      · obtain ⟨done, hdone, -⟩ := ih w₁
        have hwalk : walk (e :: rest) w = walk rest w₁ := by
          simp only [walk, hsteps, href, Bool.false_eq_true, if_false]
          rw [if_neg hmax]
        exact hcons w₁ _ done hdone (by simp [unreference, href, hw₁]) hvictims
          (by simp [href]) rfl hwalk
    · set w₁ : Walk V := { w with steps := w.steps - 1
                                  hot := w.hot.insert e.1 e.2.clearReferenced } with hw₁
      obtain ⟨done, hdone, -⟩ := ih w₁
      exact hcons w₁ _ done hdone (by simp [unreference, href, hw₁])
        (by simp [victimsOf, href, hw₁]) (fun _ => rfl) rfl
        (by simp [walk, hsteps, href, hw₁])

/-! ## The records of a walk -/

/-- Records of the hot tree, no key twice. -/
structure Listed (hot : TreeMap ℕ (TaggedPayload V)) (l : List (ℕ × TaggedPayload V)) :
    Prop where
  present : ∀ e ∈ l, hot[e.1]? = some e.2
  distinct : l.Pairwise (fun e e' => e.1 ≠ e'.1)

lemma Listed.sublist {hot : TreeMap ℕ (TaggedPayload V)} {l l' : List (ℕ × TaggedPayload V)}
    (h : Listed hot l) (hsub : l'.Sublist l) : Listed hot l' :=
  ⟨fun e he => h.present e (hsub.subset he), h.distinct.sublist hsub⟩

lemma listed_scanFrom (hot : TreeMap ℕ (TaggedPayload V)) (start : ℕ) :
    Listed hot (scanFrom hot start) :=
  ⟨fun _ he => (mem_scanFrom.1 he).2, (pairwise_scanFrom hot start).imp Nat.ne_of_lt⟩

section Unreference

variable {hot : TreeMap ℕ (TaggedPayload V)} {done : List (ℕ × TaggedPayload V)}

lemma getElem?_unreference_other (hot : TreeMap ℕ (TaggedPayload V)) (e : ℕ × TaggedPayload V)
    (a : ℕ) (ha : e.1 ≠ a) : (unreference hot e)[a]? = hot[a]? := by
  unfold unreference
  split <;> simp [TreeMap.getElem?_insert, ha]

/-- A record the walk has examined is the one it was, but for the reference bit. -/
lemma getElem?_foldl_unreference (hl : Listed hot done) {e : ℕ × TaggedPayload V}
    (he : e ∈ done) : (done.foldl unreference hot)[e.1]? =
      some (if e.2.referenced then e.2.clearReferenced else e.2) := by
  have hself : ∀ (t : TreeMap ℕ (TaggedPayload V)) (e : ℕ × TaggedPayload V),
      (unreference t e)[e.1]? = if e.2.referenced then some e.2.clearReferenced else t[e.1]? := by
    intro t e
    unfold unreference
    split <;> simp
  rw [foldl_obs_of_mem (fun t a => t[a]?) Prod.fst getElem?_unreference_other
    (g := fun e x => if e.2.referenced then some e.2.clearReferenced else x) hself hot
    hl.distinct he, hl.present e he]
  split <;> rfl

lemma getElem?_foldl_unreference_of_notMem (hot : TreeMap ℕ (TaggedPayload V))
    {done : List (ℕ × TaggedPayload V)} {a : ℕ} (ha : ∀ e ∈ done, e.1 ≠ a) :
    (done.foldl unreference hot)[a]? = hot[a]? :=
  foldl_obs_of_notMem (fun t a => t[a]?) Prod.fst getElem?_unreference_other done hot ha

variable (hl : Listed hot done)
include hl

/-- Payloads and modified bits are not touched by the walk. -/
lemma data_foldl_unreference (a : ℕ) : (done.foldl unreference hot)[a]?.map data =
      hot[a]?.map data := by
  by_cases ha : ∃ e ∈ done, e.1 = a
  · obtain ⟨e, he, rfl⟩ := ha
    rw [getElem?_foldl_unreference hl he, hl.present e he]
    split <;> simp [data_clearReferenced]
  · push Not at ha
    rw [getElem?_foldl_unreference_of_notMem hot ha]

lemma mem_foldl_unreference (a : ℕ) : a ∈ done.foldl unreference hot ↔ a ∈ hot := by
  have h := congrArg Option.isSome (data_foldl_unreference hl a)
  rw [Option.isSome_map, Option.isSome_map] at h
  rw [TreeMap.mem_iff_isSome_getElem?, TreeMap.mem_iff_isSome_getElem?, h]

lemma size_foldl_unreference : (done.foldl unreference hot).size = hot.size := by
  have hkeys : ((scanFrom (done.foldl unreference hot) 0).map Prod.fst).length =
      ((scanFrom hot 0).map Prod.fst).length := by
    rw [map_fst_scanFrom_congr (mem_foldl_unreference hl) 0]
  simpa [length_scanFrom_zero] using hkeys

end Unreference

/-! ## The victims -/

/-- The two loops over the victims. -/
def moveVictims (victims : List (ℕ × TaggedPayload V)) : Adapter V :=
  victims.foldl removeHot (victims.foldl (writeBack cfg) s)

section Victims

variable {cfg : Config} {s : Adapter V} {victims : List (ℕ × TaggedPayload V)}
  {done : List (ℕ × TaggedPayload V)} (cfg : Config)

lemma foldl_writeBack_frame (s : Adapter V) (victims : List (ℕ × TaggedPayload V)) :
    ∃ cold, victims.foldl (writeBack cfg) s = { s with coldBtree := cold } := by
  induction victims generalizing s with
  | nil => exact ⟨s.coldBtree, rfl⟩
  | cons e victims ih =>
    obtain ⟨cold, hcold⟩ := ih (writeBack cfg s e)
    refine ⟨cold, ?_⟩
    rw [foldl_cons, hcold]
    unfold writeBack
    split
    · split <;> rfl
    · rfl

/-- The second loop does not change the cold tree, and counts what it removes. -/
lemma foldl_removeHot_frame (s : Adapter V) (victims : List (ℕ × TaggedPayload V)) :
    ∃ hot, victims.foldl removeHot s =
      { s with hotBtree := hot
               hotPartitionItemCount := s.hotPartitionItemCount - victims.length } := by
  induction victims generalizing s with
  | nil => exact ⟨s.hotBtree, by simp⟩
  | cons e victims ih =>
    obtain ⟨hot, hhot⟩ := ih (s.removeHot e)
    refine ⟨hot, ?_⟩
    rw [foldl_cons, hhot]
    simp only [removeHot, length_cons, Nat.cast_add, Nat.cast_one, mk.injEq, true_and]
    ring

lemma cold_moveVictims (s : Adapter V) (victims : List (ℕ × TaggedPayload V)) :
    (s.moveVictims cfg victims).coldBtree = (victims.foldl (writeBack cfg) s).coldBtree := by
  obtain ⟨hot, hhot⟩ := foldl_removeHot_frame (victims.foldl (writeBack cfg) s) victims
  rw [moveVictims, hhot]

/-- What is in the cold tree for a key. -/
private def coldAt (s : Adapter V) (a : ℕ) : Option V := s.coldBtree[a]?.map TaggedPayload.payload

private lemma coldAt_writeBack (s : Adapter V) (e : ℕ × TaggedPayload V) (a : ℕ) :
    (writeBack cfg s e).coldAt a =
      if e.1 = a then demoted cfg.inclusive e.2.data (s.coldAt e.1) else s.coldAt a := by
  unfold writeBack
  cases hinc : cfg.inclusive
  · rcases hcold : s.coldBtree[e.1]? with _ | tp <;> by_cases ha : e.1 = a <;>
      simp_all [coldAt, insertColdPartition, getElem?_insertNew, demoted, demote,
        data]
  · cases hmod : e.2.modified <;> by_cases ha : e.1 = a <;>
      simp_all [coldAt, upsertColdPartition, TreeMap.getElem?_insert, demoted, demote,
        data]

lemma cell_moveVictims_of_mem (hl : Listed s.hotBtree victims)
    {e : ℕ × TaggedPayload V} (he : e ∈ victims) :
    (s.moveVictims cfg victims).cell e.1 = (s.cell e.1).demote cfg.inclusive := by
  have hself : s.cell e.1 = ⟨some e.2.data, s.coldAt e.1⟩ := by
    simp [cell, coldAt, hl.present e he]
  rw [hself, Cell.demote_some]
  refine Cell.ext ?_ ?_
  · have hhot : (s.moveVictims cfg victims).hotBtree[e.1]? = none :=
      foldl_obs_of_mem (fun (s : Adapter V) a => s.hotBtree[a]?) Prod.fst
        (fun s e a ha => by simp [removeHot, getElem?_removeKey, ha]) (g := fun _ _ => none)
        (fun s e => by simp [removeHot, getElem?_removeKey]) _ hl.distinct he
    simp [cell, hhot]
  · have hcold := foldl_obs_of_mem coldAt Prod.fst
      (fun s e a ha => by rw [coldAt_writeBack cfg s e a, if_neg ha])
      (g := fun e x => Cell.demoted cfg.inclusive e.2.data x)
      (fun s e => by rw [coldAt_writeBack, if_pos rfl]) s hl.distinct he
    exact (congrArg (fun t => t[e.1]?.map payload)
      (cold_moveVictims cfg s victims)).trans hcold

lemma cell_moveVictims_of_notMem (s : Adapter V) {a : ℕ}
    (ha : ∀ e ∈ victims, e.1 ≠ a) : (s.moveVictims cfg victims).cell a = s.cell a := by
  refine Cell.ext ?_ ?_
  · have hhot : (s.moveVictims cfg victims).hotBtree[a]? =
        (victims.foldl (writeBack cfg) s).hotBtree[a]? :=
      foldl_obs_of_notMem (fun (s : Adapter V) a => s.hotBtree[a]?) Prod.fst
        (fun s e a ha => by simp [removeHot, getElem?_removeKey, ha]) victims _ ha
    obtain ⟨cold, hcold⟩ := foldl_writeBack_frame cfg s victims
    simp [cell, hhot, hcold]
  · have hcold := foldl_obs_of_notMem coldAt Prod.fst
      (fun s e a ha => by rw [coldAt_writeBack cfg s e a, if_neg ha]) victims s ha
    exact (congrArg (fun t => t[a]?.map payload)
      (cold_moveVictims cfg s victims)).trans hcold

lemma size_foldl_removeHot (hl : Listed s.hotBtree victims) :
    (victims.foldl removeHot s).hotBtree.size + victims.length = s.hotBtree.size := by
  induction victims generalizing s with
  | nil => rfl
  | cons e victims ih =>
    obtain ⟨hne, hdistinct⟩ := pairwise_cons.1 hl.distinct
    have hpresent := hl.present e (by simp)
    have hrest : Listed (s.removeHot e).hotBtree victims :=
      ⟨fun e' he' => by simp [removeHot, getElem?_removeKey, hne e' he',
        hl.present e' (by simp [he'])], hdistinct⟩
    have hsize : (s.removeHot e).hotBtree.size + 1 = s.hotBtree.size :=
      size_removeKey_of_some hpresent
    rw [foldl_cons, length_cons, ← add_assoc, ih hrest, hsize]

lemma size_moveVictims (hl : Listed s.hotBtree victims) :
    (s.moveVictims cfg victims).hotBtree.size + victims.length = s.hotBtree.size := by
  obtain ⟨cold, hcold⟩ := foldl_writeBack_frame cfg s victims
  have hl' : Listed (victims.foldl (writeBack cfg) s).hotBtree victims := by rw [hcold]; exact hl
  rw [moveVictims, size_foldl_removeHot hl', hcold]

lemma count_moveVictims (s : Adapter V) (victims : List (ℕ × TaggedPayload V)) :
    (s.moveVictims cfg victims).hotPartitionItemCount =
      s.hotPartitionItemCount - victims.length := by
  obtain ⟨cold, hcold⟩ := foldl_writeBack_frame cfg s victims
  obtain ⟨hot, hhot⟩ := foldl_removeHot_frame (victims.foldl (writeBack cfg) s) victims
  rw [moveVictims, hhot, hcold]

end Victims

/-! ## One eviction -/

lemma Listed.victimsOf {hot : TreeMap ℕ (TaggedPayload V)}
    (hl : Listed hot done) : Listed (done.foldl unreference hot) (victimsOf done) := by
  refine ⟨fun e he => ?_, hl.distinct.sublist filter_sublist⟩
  obtain ⟨hmem, href⟩ := mem_filter.1 he
  rw [getElem?_foldl_unreference hl hmem, if_neg (by simpa using href)]

/-- **What a call of `evict_a_bunch` does.**  It examines some records, among them the first one
at the start key or above.  If there are victims among them, they are moved; if not, the hand
stays where it is, unless there was nothing to examine. -/
lemma evictABunch_spec : ∃ done hand, Listed s.hotBtree done ∧
      (∀ e ∈ (scanFrom s.hotBtree s.startKey).head?, e ∈ done) ∧
      s.evictABunch cfg = moveVictims cfg
        { s with hotBtree := done.foldl unreference s.hotBtree, clockHand := hand }
        (victimsOf done) ∧
      (victimsOf done = [] →
        hand = if scanFrom s.hotBtree s.startKey = [] then maxKey else s.clockHand) := by
  set l := scanFrom s.hotBtree s.startKey with hl
  obtain ⟨done, hdone, hhead⟩ := walk_spec l ⟨s.hotBtree, s.clockHand, [], kClockWalkSteps⟩
  have hhead := hhead (show 2 ≤ kClockWalkSteps by decide)
  have hvictims := hdone.victims
  rw [nil_append] at hvictims
  have hlisted : Listed s.hotBtree done :=
    (listed_scanFrom s.hotBtree s.startKey).sublist hdone.isPrefix.sublist
  set w := walk l ⟨s.hotBtree, s.clockHand, [], kClockWalkSteps⟩ with hw
  have hevict : s.evictABunch cfg = if w.victims ≠ [] then
      moveVictims cfg { s with hotBtree := w.hot, clockHand := w.hand } w.victims
      else if w.steps = kClockWalkSteps then { s with hotBtree := w.hot, clockHand := maxKey }
      else { s with hotBtree := w.hot, clockHand := w.hand } := rfl
  rw [hvictims, hdone.hot] at hevict
  by_cases hnil : victimsOf done = []
  · refine ⟨done, if l = [] then maxKey else s.clockHand, hlisted, fun e he => (hhead e he).1, ?_,
      fun _ => rfl⟩
    rw [hevict, if_neg (by simpa using hnil), hnil, hdone.hand hnil]
    rcases hlcases : l with _ | ⟨e, rest⟩
    · have hsteps : w.steps = kClockWalkSteps := by rw [hw, hlcases]; rfl
      rw [if_pos hsteps, if_pos rfl]
      rfl
    · have hsteps := (hhead e (by simp [hlcases])).2
      rw [if_neg (Nat.ne_of_lt hsteps), if_neg (by simp)]
      rfl
  · refine ⟨done, w.hand, hlisted, fun e he => (hhead e he).1, ?_, fun h => absurd h hnil⟩
    rw [hevict, if_pos hnil]

lemma cell_unreferenced {s : Adapter V} (hl : Listed s.hotBtree done) (hand a : ℕ) :
    cell { s with hotBtree := done.foldl unreference s.hotBtree, clockHand := hand } a =
      s.cell a := by
  simp [cell, data_foldl_unreference hl]

/-- An eviction keeps a cell or demotes it. -/
lemma cell_evictABunch (a : ℕ) : (s.evictABunch cfg).cell a = s.cell a ∨
      (s.evictABunch cfg).cell a = (s.cell a).demote cfg.inclusive := by
  obtain ⟨done, hand, hl, -, hevict, -⟩ := evictABunch_spec cfg s
  rw [hevict]
  by_cases ha : ∃ e ∈ victimsOf done, e.1 = a
  · obtain ⟨e, he, rfl⟩ := ha
    right
    rw [cell_moveVictims_of_mem cfg hl.victimsOf he, cell_unreferenced hl]
  · push Not at ha
    left
    rw [cell_moveVictims_of_notMem cfg _ ha, cell_unreferenced hl]

lemma counted_evictABunch {s : Adapter V} (hs : s.Counted) : (s.evictABunch cfg).Counted := by
  obtain ⟨done, hand, hl, -, hevict, -⟩ := evictABunch_spec cfg s
  have hsize := size_moveVictims cfg (s := { s with hotBtree := done.foldl unreference s.hotBtree
                                                    clockHand := hand }) hl.victimsOf
  rw [← hevict, size_foldl_unreference hl] at hsize
  have hcount := count_moveVictims cfg { s with hotBtree := done.foldl unreference s.hotBtree
                                                clockHand := hand } (victimsOf done)
  rw [← hevict] at hcount
  unfold Counted at hs ⊢
  rw [hcount, hs]
  omega

/-- `try_eviction` evicts or does not; besides, it counts down. -/
lemma tryEviction_cases (pressure : Bool) :
    (∃ n, s.tryEviction cfg pressure = { s with evictionCountDown := n }) ∨
      ∃ n n', s.tryEviction cfg pressure =
        { evictABunch cfg { s with evictionCountDown := n } with evictionCountDown := n' } := by
  by_cases h : s.evictionCountDown - 1 = 0
  · cases pressure
    · exact Or.inl ⟨kEvictionCheckInterval, by simp [tryEviction, h]⟩
    · exact Or.inr ⟨s.evictionCountDown - 1, kEvictionCheckInterval, by simp [tryEviction, h]⟩
  · exact Or.inl ⟨s.evictionCountDown - 1, by simp [tryEviction, h]⟩

/-! ## Emptying the hot tree -/

/-- How far the next call of `evict_a_bunch` is from a victim: it meets one first, it meets a
referenced record first, or it meets nothing and rewinds the hand. -/
def phase (s : Adapter V) : ℕ :=
  match (scanFrom s.hotBtree s.startKey).head? with
  | none => 2
  | some e => if e.2.referenced then 1 else 0

lemma phase_le (s : Adapter V) : s.phase ≤ 2 := by
  unfold phase
  split
  · omega
  · split <;> omega

/-- What every call of `evict_a_bunch` decreases. -/
def potential (s : Adapter V) : ℕ := 3 * s.hotBtree.size + s.phase

lemma scanFrom_zero_ne_nil {t : TreeMap ℕ (TaggedPayload V)} (h : 0 < t.size) :
    scanFrom t 0 ≠ [] := by
  intro hnil
  have hlength := length_scanFrom_zero t
  rw [hnil, length_nil] at hlength
  omega

/-- The call that finds nothing at or above the hand starts the next one at the bottom. -/
lemma phase_rewound {s : Adapter V} (hsize : 0 < s.hotBtree.size) (hhand : s.clockHand = maxKey) :
    s.phase ≤ 1 := by
  unfold phase startKey
  rw [if_pos hhand]
  rcases h : scanFrom s.hotBtree 0 with _ | ⟨e, rest⟩
  · exact absurd h (scanFrom_zero_ne_nil hsize)
  · simp only [head?_cons]
    split <;> omega

/-- The call that only clears reference bits leaves the record it met first to be the first
victim. -/
lemma phase_unreferenced {s : Adapter V} (hl : Listed s.hotBtree done) {e : ℕ × TaggedPayload V}
    (he : (scanFrom s.hotBtree s.startKey).head? = some e) (hmem : e ∈ done) :
    phase { s with hotBtree := done.foldl unreference s.hotBtree } = 0 := by
  have hkeys := map_fst_scanFrom_congr (mem_foldl_unreference hl) s.startKey
  have hhead := congrArg List.head? hkeys
  rw [head?_map, head?_map, he] at hhead
  obtain ⟨⟨a, tp⟩, he', rfl⟩ := Option.map_eq_some_iff.1 hhead
  have htp : (done.foldl unreference s.hotBtree)[e.1]? = some tp :=
    (mem_scanFrom.1 (mem_of_head? he')).2
  rw [getElem?_foldl_unreference hl hmem] at htp
  have href : tp.referenced = false := by
    rw [← Option.some.inj htp]
    cases h : e.2.referenced <;> simp [h]
  have hstart : startKey { s with hotBtree := done.foldl unreference s.hotBtree } = s.startKey :=
    rfl
  simp [phase, hstart, he', href]

/-- **Progress of `evict_all`.** -/
lemma potential_evictABunch {s : Adapter V} (hsize : 0 < s.hotBtree.size) :
    (s.evictABunch cfg).potential < s.potential := by
  obtain ⟨done, hand, hl, hhead, hevict, hhand⟩ := evictABunch_spec cfg s
  set s₁ : Adapter V := { s with hotBtree := done.foldl unreference s.hotBtree
                                 clockHand := hand } with hs₁
  have hmove : (s.evictABunch cfg).hotBtree.size + (victimsOf done).length = s.hotBtree.size := by
    rw [hevict, size_moveVictims cfg hl.victimsOf, hs₁, size_foldl_unreference hl]
  by_cases hnil : victimsOf done = []
  · have hsame : s.evictABunch cfg = s₁ := by rw [hevict, hnil]; rfl
    rw [hnil, length_nil, add_zero] at hmove
    have hphase : (s.evictABunch cfg).phase < s.phase := by
      rw [hsame]
      rcases hfirst : (scanFrom s.hotBtree s.startKey).head? with _ | e
      · have hempty := head?_eq_none_iff.1 hfirst
        have hrewound : s₁.phase ≤ 1 := by
          refine phase_rewound (by rw [← hsame, hmove]; exact hsize) ?_
          exact (hhand hnil).trans (if_pos hempty)
        have hs : s.phase = 2 := by simp [phase, hfirst]
        omega
      · have hne : scanFrom s.hotBtree s.startKey ≠ [] := fun h => by simp [h] at hfirst
        obtain rfl : hand = s.clockHand := (hhand hnil).trans (if_neg hne)
        have hmem := hhead e hfirst
        have hzero : s₁.phase = 0 := phase_unreferenced hl hfirst hmem
        have href : e.2.referenced = true := by
          by_contra h
          have : e ∈ victimsOf done := mem_filter.2 ⟨hmem, by simpa using h⟩
          simp [hnil] at this
        have hs : s.phase = 1 := by simp [phase, hfirst, href]
        omega
    unfold potential
    omega
  · have hpos : 0 < (victimsOf done).length := length_pos_of_ne_nil hnil
    have hle := phase_le (s.evictABunch cfg)
    unfold potential
    omega

end Adapter

end TwoTree.TwoBTree
