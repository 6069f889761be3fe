import TwoTree.AntiCaching.Adapter

/-!
# The four structures of the adapter agree

A tuple is in memory or in a block.  In memory it has a node, which is on the ring and which the
cache points to; in a block it has an entry in the evict table, which points to its bytes.
`Consistent` says that this is so, for an abstract view of the blocks that knows what tuple is at
which position of which block, so that a block may be looked at while it is written or read.
`Backs` says that the bytes on disk are those tuples.

Each piece of the code moves one tuple, and keeps the structures consistent.
-/

namespace TwoTree.AntiCaching

open Std Lib Lib.OrderedMap Lib.Ring Function Option

variable {L : Layout}

/-- What tuple is at which position of which block. -/
abbrev Stored (L : Layout) := ℕ → ℕ → Option (ℕ × Payload L)

/-- Change one position. -/
def Stored.set (stored : Stored L) (b i : ℕ) (t : Option (ℕ × Payload L)) : Stored L :=
  fun b' i' => if b' = b ∧ i' = i then t else stored b' i'

/-- The cache, the ring of the nodes `l`, the evict table and the blocks together hold the map
`m`. -/
structure Consistent (a : Adapter L) (stored : Stored L) (l : List ℕ)
    (m : ℕ → Option (Payload L)) : Prop where
  ring : a.links.IsRing lruHead l
  fresh : ∀ x ∈ lruHead :: l, x < a.allocated
  node : ∀ x ∈ l, ∃ tp, a.nodes x = some tp ∧ a.cache[tp.key]? = some x
  cached : ∀ k x, a.cache[k]? = some x → x ∈ l ∧ ∃ v, a.nodes x = some ⟨k, v⟩ ∧ m k = some v
  entry : ∀ k b off, a.evictTable[k]? = some ⟨b, off⟩ ↔
    ∃ i v, stored b i = some (k, v) ∧ off = i * L.tupleSize
  value : ∀ b i k v, stored b i = some (k, v) → m k = some v
  apart : ∀ k : ℕ, a.cache[k]? = none ∨ a.evictTable[k]? = none
  covered : ∀ k, m k ≠ none → a.cache[k]? ≠ none ∨ a.evictTable[k]? ≠ none
  keys : ∀ k, m k ≠ none → k < 2 ^ 64

/-- The blocks on disk hold the bytes of the tuples. -/
structure Backs (btree : TreeMap ℕ (List UInt8)) (stored : Stored L) : Prop where
  bytes : ∀ (b : ℕ) block, btree[b]? = some block →
    ∃ ts, block = blockBytes ts ∧ ∀ i, stored b i = ts[i]?
  absent : ∀ b : ℕ, btree[b]? = none → ∀ i, stored b i = none

variable {a : Adapter L} {stored : Stored L} {l : List ℕ} {m : ℕ → Option (Payload L)}
  {k x b i : ℕ} {v : Payload L}

lemma Stored.set_self (stored : Stored L) (b i : ℕ) (t : Option (ℕ × Payload L)) :
    stored.set b i t b i = t := if_pos ⟨rfl, rfl⟩

lemma Stored.set_of_ne (stored : Stored L) {b i b' i' : ℕ} (t : Option (ℕ × Payload L))
    (h : ¬ (b' = b ∧ i' = i)) : stored.set b i t b' i' = stored b' i' := if_neg h

namespace Consistent

lemma init : Consistent (Adapter.init : Adapter L) (fun _ _ => none) [] (fun _ => none) where
  ring := Links.isRing_single lruHead
  fresh := by simp [Adapter.init, lruHead]
  node := by simp
  cached := by simp [Adapter.init]
  entry := by simp [Adapter.init]
  value := by simp
  apart := by simp [Adapter.init]
  covered := by simp
  keys := by simp

section

variable (h : Consistent a stored l m)
include h

/-- A tuple of a block has its entry. -/
lemma entry_of_stored (hs : stored b i = some (k, v)) :
    a.evictTable[k]? = some ⟨b, i * L.tupleSize⟩ :=
  (h.entry k b _).2 ⟨i, v, hs, rfl⟩

lemma stored_unique {b' i' : ℕ} {v' : Payload L}
    (hs : stored b i = some (k, v)) (hs' : stored b' i' = some (k, v')) : b' = b ∧ i' = i := by
  have heq := (h.entry_of_stored hs).symm.trans (h.entry_of_stored hs')
  simp only [some.injEq, TombstoneRecord.mk.injEq] at heq
  exact ⟨heq.1.symm, (Nat.eq_of_mul_eq_mul_right (tupleSize_pos L) heq.2).symm⟩

lemma cache_none_of_stored (hs : stored b i = some (k, v)) : a.cache[k]? = none :=
  (h.apart k).resolve_right (by rw [h.entry_of_stored hs]; simp)

/-- The nodes of two keys are different. -/
lemma key_of_node {tp : TaggedPayload L} (hx : a.nodes x = some tp)
    (hk : a.cache[k]? = some x) : k = tp.key := by
  obtain ⟨-, v, hnode, -⟩ := h.cached k x hk
  rw [hx] at hnode
  rw [some.inj hnode]

end

/-! ## A tuple goes to a block -/

/-- **The last node of the ring goes to a block.** -/
lemma evictNode (h : Consistent a stored (l ++ [x]) m) {tp : TaggedPayload L}
    (hx : a.nodes x = some tp) (hslot : stored b i = none) :
    Consistent (a.evictNode b (i * L.tupleSize) x tp)
      (stored.set b i (some (tp.key, tp.payload))) l m := by
  have hxl : x ∉ l := by
    have hnodup := (List.nodup_cons.1 h.ring.nodup).2
    rw [List.nodup_append] at hnodup
    exact fun hxl => hnodup.2.2 x hxl x (by simp) rfl
  have hcache : a.cache[tp.key]? = some x := by
    obtain ⟨tp', htp', hcache⟩ := h.node x (by simp)
    rw [hx] at htp'
    rwa [some.inj htp']
  have hevict : a.evictTable[tp.key]? = none := (h.apart tp.key).resolve_left (by simp [hcache])
  have hvalue : m tp.key = some tp.payload := by
    obtain ⟨-, v, hnode, hv⟩ := h.cached tp.key x hcache
    rw [hx] at hnode
    rw [hv, some.inj hnode]
  refine ⟨?_, fun y hy => h.fresh y ?_, fun y hy => ?_, fun k' y hk' => ?_, fun k' b' off => ?_,
    fun b' i' k' v' hs => ?_, fun k' => ?_, fun k' hk' => ?_, h.keys⟩
  · have hring : (a.links.unlink x).IsRing lruHead (l ++ []) := h.ring.unlink
    rwa [List.append_nil] at hring
  · rcases List.mem_cons.1 hy with rfl | hy
    · exact List.mem_cons_self
    · exact List.mem_cons_of_mem _ (List.mem_append_left _ hy)
  · obtain ⟨tp', htp', hcache'⟩ := h.node y (List.mem_append_left _ hy)
    have hyx : y ≠ x := fun hyx => hxl (hyx ▸ hy)
    have hkey : tp.key ≠ tp'.key := by
      intro hkey
      rw [← hkey, hcache] at hcache'
      exact hyx (some.inj hcache').symm
    refine ⟨tp', ?_, ?_⟩
    · simpa [Adapter.evictNode, Adapter.lruRemoveSelf, update_of_ne hyx] using htp'
    · simpa [Adapter.evictNode, Adapter.lruRemoveSelf, getElem?_erase, if_neg hkey] using hcache'
  · simp only [Adapter.evictNode, Adapter.lruRemoveSelf, getElem?_erase] at hk'
    split_ifs at hk' with hkey
    obtain ⟨hy, v, hnode, hv⟩ := h.cached k' y hk'
    have hyx : y ≠ x := fun hyx => hkey (h.key_of_node hx (hyx ▸ hk')).symm
    refine ⟨?_, v, ?_, hv⟩
    · simpa [hyx] using hy
    · simpa [Adapter.evictNode, Adapter.lruRemoveSelf, update_of_ne hyx] using hnode
  · simp only [Adapter.evictNode, Adapter.lruRemoveSelf, getElem?_insert]
    split_ifs with hkey
    · subst hkey
      refine ⟨fun heq => ?_, fun hs => ?_⟩
      · simp only [some.injEq, TombstoneRecord.mk.injEq] at heq
        obtain ⟨rfl, rfl⟩ := heq
        exact ⟨i, tp.payload, stored.set_self _ _ _, rfl⟩
      obtain ⟨i', v', hs, rfl⟩ := hs
      by_cases hpos : b' = b ∧ i' = i
      · obtain ⟨rfl, rfl⟩ := hpos
        rfl
      · rw [stored.set_of_ne _ hpos] at hs
        simp [h.entry_of_stored hs] at hevict
    · rw [h.entry]
      refine exists_congr (fun i' => exists_congr (fun v' => and_congr_left (fun _ => ?_)))
      by_cases hpos : b' = b ∧ i' = i
      · obtain ⟨rfl, rfl⟩ := hpos
        rw [stored.set_self, hslot]
        simp [hkey]
      · rw [stored.set_of_ne _ hpos]
  · by_cases hpos : b' = b ∧ i' = i
    · obtain ⟨rfl, rfl⟩ := hpos
      rw [stored.set_self] at hs
      obtain ⟨rfl, rfl⟩ : tp.key = k' ∧ tp.payload = v' := by simpa using hs
      exact hvalue
    · rw [stored.set_of_ne _ hpos] at hs
      exact h.value b' i' k' v' hs
  · simp only [Adapter.evictNode, Adapter.lruRemoveSelf, getElem?_erase, getElem?_insert]
    split_ifs
    · exact Or.inl rfl
    · exact h.apart k'
  · simp only [Adapter.evictNode, Adapter.lruRemoveSelf, getElem?_erase, getElem?_insert]
    split_ifs
    · exact Or.inr (by simp)
    · exact h.covered k' hk'

/-! ## A tuple comes into memory -/

variable (h : Consistent a stored l m)
include h

lemma relink {links : Links ℕ} {l' : List ℕ}
    (hring : links.IsRing lruHead l') (hmem : ∀ y, y ∈ l' ↔ y ∈ l) :
    Consistent { a with links := links } stored l' m where
  ring := hring
  fresh := fun y hy => h.fresh y (by simpa [hmem] using hy)
  node := fun y hy => h.node y ((hmem y).1 hy)
  cached := fun k' y hk' => ⟨(hmem y).2 (h.cached k' y hk').1, (h.cached k' y hk').2⟩
  entry := h.entry
  value := h.value
  apart := h.apart
  covered := h.covered
  keys := h.keys

/-- The new node is on no ring. -/
lemma allocated_notMem : a.allocated ∉ lruHead :: l := fun hmem => (h.fresh _ hmem).false

/-- **A new tuple gets a node.** -/
lemma admitElementNoEviction (hcache : a.cache[k]? = none)
    (hevict : a.evictTable[k]? = none) (hk : k < 2 ^ 64) (v : Payload L) (head : Bool) :
    ∃ l', Consistent (a.admitElementNoEviction k v head) stored l'
      (update m k (some v)) := by
  have hnew := h.allocated_notMem
  have hold : ∀ y ∈ l, y ≠ a.allocated := fun y hy hya => hnew (hya ▸ List.mem_cons_of_mem _ hy)
  have hreset := h.ring.reset hnew
  have hunlink : (a.links.reset a.allocated).unlink a.allocated = a.links.reset a.allocated :=
    Links.unlink_of_prev_none (Links.prev_reset _ _)
  obtain ⟨l', hring, hmem⟩ : ∃ l',
      (a.admitElementNoEviction k v head).links.IsRing lruHead l' ∧
      ∀ y, y ∈ l' ↔ y = a.allocated ∨ y ∈ l := by
    cases head with
    | false =>
      refine ⟨l ++ [a.allocated], ?_, by simp [or_comm]⟩
      simpa [Adapter.admitElementNoEviction, Adapter.lruMoveToTail, hunlink, if_neg] using hreset.linkLast hnew
    | true =>
      refine ⟨a.allocated :: l, ?_, by simp⟩
      simpa [Adapter.admitElementNoEviction, Adapter.lruMoveToHead, hunlink]
        using hreset.linkFirst hnew
  -- apart from the ring, the two cases are the same
  have hfields : (a.admitElementNoEviction k v head).cache = a.cache.insert k a.allocated ∧
      (a.admitElementNoEviction k v head).evictTable = a.evictTable ∧
      (a.admitElementNoEviction k v head).allocated = a.allocated + 1 ∧
      (a.admitElementNoEviction k v head).nodes =
        update a.nodes a.allocated (some ⟨k, v⟩) := by
    cases head <;> exact ⟨rfl, rfl, rfl, rfl⟩
  obtain ⟨hcache', hevict', halloc', hnodes'⟩ := hfields
  refine ⟨l', hring, fun y hy => ?_, fun y hy => ?_, fun k' y hk' => ?_, fun k' b' off => ?_,
    fun b' i' k' v' hs => ?_, fun k' => ?_, fun k' hk' => ?_, fun k' hk' => ?_⟩
  · rw [halloc']
    rcases List.mem_cons.1 hy with rfl | hy
    · exact Nat.lt_succ_of_lt (h.fresh _ List.mem_cons_self)
    · rcases (hmem y).1 hy with rfl | hy
      · exact Nat.lt_succ_self _
      · exact Nat.lt_succ_of_lt (h.fresh y (List.mem_cons_of_mem _ hy))
  · rw [hnodes', hcache']
    rcases (hmem y).1 hy with rfl | hy
    · exact ⟨⟨k, v⟩, update_self _ _ _, by simp⟩
    · obtain ⟨tp, htp, hc⟩ := h.node y hy
      refine ⟨tp, by rw [update_of_ne (hold y hy), htp], ?_⟩
      rw [getElem?_insert, if_neg (fun hkey => by simp [← hkey, hcache] at hc), hc]
  · rw [hcache', getElem?_insert] at hk'
    rw [hnodes']
    split_ifs at hk' with hkey
    · obtain rfl := some.inj hk'
      subst hkey
      exact ⟨(hmem _).2 (Or.inl rfl), v, update_self _ _ _, update_self _ _ _⟩
    · obtain ⟨hy, v', hnode, hv'⟩ := h.cached k' y hk'
      refine ⟨(hmem y).2 (Or.inr hy), v', ?_, ?_⟩
      · rw [update_of_ne (hold y hy), hnode]
      · rw [update_of_ne (Ne.symm hkey), hv']
  · rw [hevict', h.entry]
  · have hkey : k' ≠ k := by
      rintro rfl
      simp [h.entry_of_stored hs] at hevict
    rw [update_of_ne hkey]
    exact h.value b' i' k' v' hs
  · rw [hcache', hevict', getElem?_insert]
    split_ifs with hkey
    · exact Or.inr (hkey ▸ hevict)
    · exact h.apart k'
  · rw [hcache', hevict', getElem?_insert]
    split_ifs with hkey
    · exact Or.inl (by simp)
    · rw [update_of_ne (Ne.symm hkey)] at hk'
      exact h.covered k' hk'
  · rcases eq_or_ne k' k with rfl | hkey
    · exact hk
    · rw [update_of_ne hkey] at hk'
      exact h.keys k' hk'

/-- The entry of a tuple is dropped, and with it the tuple. -/
lemma dropEntry (hs : stored b i = some (k, v)) :
    Consistent { a with evictTable := a.evictTable.erase k } (stored.set b i none) l
      (update m k none) := by
  have hcache := h.cache_none_of_stored hs
  have hne : ∀ b' i' k' v', stored.set b i none b' i' = some (k', v') →
      stored b' i' = some (k', v') ∧ k' ≠ k := by
    intro b' i' k' v' hs'
    by_cases hpos : b' = b ∧ i' = i
    · obtain ⟨rfl, rfl⟩ := hpos
      rw [stored.set_self] at hs'
      cases hs'
    · rw [stored.set_of_ne _ hpos] at hs'
      refine ⟨hs', ?_⟩
      rintro rfl
      exact hpos (h.stored_unique hs hs')
  refine ⟨h.ring, h.fresh, h.node, fun k' y hk' => ?_, fun k' b' off => ?_,
    fun b' i' k' v' hs' => ?_, fun k' => ?_, fun k' hk' => ?_, fun k' hk' => ?_⟩
  · obtain ⟨hy, v', hnode, hv'⟩ := h.cached k' y hk'
    have hkey : k' ≠ k := by
      rintro rfl
      simp [hcache] at hk'
    exact ⟨hy, v', hnode, by rw [update_of_ne hkey, hv']⟩
  · rw [getElem?_erase]
    split_ifs with hkey
    · subst hkey
      refine ⟨fun heq => (by cases heq), fun hs' => ?_⟩
      obtain ⟨i', v', hs', -⟩ := hs'
      exact absurd rfl (hne b' i' _ v' hs').2
    · rw [h.entry]
      refine exists_congr (fun i' => exists_congr (fun v' => and_congr_left (fun _ => ?_)))
      refine ⟨fun hs' => ?_, fun hs' => (hne b' i' k' v' hs').1⟩
      rw [stored.set_of_ne _ ?_, hs']
      rintro ⟨rfl, rfl⟩
      rw [hs] at hs'
      exact hkey (by simpa using congrArg (Option.map Prod.fst) hs')
  · obtain ⟨hs', hkey⟩ := hne b' i' k' v' hs'
    rw [update_of_ne hkey]
    exact h.value b' i' k' v' hs'
  · rw [getElem?_erase]
    split_ifs
    · exact Or.inr rfl
    · exact h.apart k'
  · have hkey : k' ≠ k := by
      rintro rfl
      exact hk' (update_self _ _ _)
    rw [update_of_ne hkey] at hk'
    rw [getElem?_erase, if_neg hkey.symm]
    exact h.covered k' hk'
  · have hkey : k' ≠ k := by
      rintro rfl
      exact hk' (update_self _ _ _)
    rw [update_of_ne hkey] at hk'
    exact h.keys k' hk'

/-- **A tuple of a block becomes a node again.** -/
lemma bringTuple (key : ℕ) {off : ℕ} {block : List UInt8}
    (hs : stored b i = some (k, v)) (hread : readTuple L block off = (k, v)) :
    ∃ l', Consistent (a.bringTuple key block off) (stored.set b i none) l' m := by
  have hvalue := h.value b i k v hs
  have hdrop := h.dropEntry hs
  obtain ⟨l', hl'⟩ := hdrop.admitElementNoEviction (h.cache_none_of_stored hs)
    (by simp) (h.keys k (by simp [hvalue])) v (k == key)
  have hm : update (update m k none) k (some v) = m := by
    rw [update_idem, ← hvalue, update_eq_self]
  refine ⟨l', ?_⟩
  rw [hm] at hl'
  have heq : a.bringTuple key block off =
      ({ a with evictTable := a.evictTable.erase k } : Adapter L).admitElementNoEviction k v
        (k == key) := by
    simp only [Adapter.bringTuple, hread, Adapter.admitElementNoEviction]
    split_ifs <;> rfl
  rwa [heq]

/-! ## A tuple is accessed -/

lemma lruMoveToHead (hx : x ∈ l) : ∃ l', Consistent (a.lruMoveToHead x) stored l' m := by
  obtain ⟨l₁, l₂, rfl⟩ := List.append_of_mem hx
  have hunlink := h.ring.unlink
  have hnodup := h.ring.nodup
  have hx' : x ∉ lruHead :: (l₁ ++ l₂) := by
    have hperm : (lruHead :: (l₁ ++ x :: l₂)).Perm (x :: (lruHead :: (l₁ ++ l₂))) :=
      (List.perm_middle.cons lruHead).trans (List.Perm.swap x lruHead _)
    exact (List.nodup_cons.1 (hperm.nodup_iff.1 hnodup)).1
  refine ⟨x :: (l₁ ++ l₂), h.relink (hunlink.linkFirst hx') (fun y => ?_)⟩
  simp only [List.mem_cons, List.mem_append]
  tauto

lemma setPayload (hx : a.cache[k]? = some x) (v : Payload L) :
    Consistent { a with
        nodes := update a.nodes x ((a.nodes x).map (fun tp => { tp with payload := v })) }
      stored l (update m k (some v)) := by
  obtain ⟨hxl, w, hnode, hw⟩ := h.cached k x hx
  rw [hnode]
  refine ⟨h.ring, h.fresh, fun y hy => ?_, fun k' y hk' => ?_, h.entry,
    fun b' i' k' v' hs => ?_, h.apart, fun k' hk' => ?_, fun k' hk' => ?_⟩
  · rcases eq_or_ne y x with rfl | hyx
    · exact ⟨⟨k, v⟩, update_self _ _ _, hx⟩
    · obtain ⟨tp, htp, hc⟩ := h.node y hy
      exact ⟨tp, by simpa [update_of_ne hyx] using htp, hc⟩
  · obtain ⟨hy, v', hnode', hv'⟩ := h.cached k' y hk'
    rcases eq_or_ne y x with rfl | hyx
    · obtain rfl : k' = k := h.key_of_node hnode hk'
      exact ⟨hy, v, update_self _ _ _, update_self _ _ _⟩
    have hkey : k' ≠ k := by
      rintro rfl
      exact hyx (some.inj (hk'.symm.trans hx))
    refine ⟨hy, v', ?_, by rw [update_of_ne hkey, hv']⟩
    simpa [update_of_ne hyx] using hnode'
  · have hkey : k' ≠ k := by
      rintro rfl
      simp [h.cache_none_of_stored hs] at hx
    rw [update_of_ne hkey]
    exact h.value b' i' k' v' hs
  · rcases eq_or_ne k' k with rfl | hkey
    · exact Or.inl (by simp [hx])
    · rw [update_of_ne hkey] at hk'
      exact h.covered k' hk'
  · rcases eq_or_ne k' k with rfl | hkey
    · exact h.keys k' (by simp [hw])
    · rw [update_of_ne hkey] at hk'
      exact h.keys k' hk'

end Consistent

end TwoTree.AntiCaching
