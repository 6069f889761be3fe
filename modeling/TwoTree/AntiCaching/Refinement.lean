import TwoTree.AntiCaching.Consistency

/-!
# The anti-caching adapter keeps its tuples

The calls of the adapter keep its four structures consistent, as long as they return and as long as
no block overwrites another one.  Both may fail.  An eviction goes on until there is no pressure, but
the evict table counts too, and it grows with each eviction: once it is too large on its own, the loop
never ends (`insert_never_returns`).  An access to a tuple on disk brings its block back and evicts
blocks then; if it evicts the tuple once more, it starts over.  And the block numbers have 32 bits.

`Relieved` is what a call needs: the evictions it starts end, the tuple it wants to access is still in
memory then, and the blocks get numbers that are not in use.  In a run of such calls everything is as
it should be (`run_keeps_tuples`).
-/

namespace TwoTree.AntiCaching

open Std Lib Lib.OrderedMap Lib.Ring Adapter Option

variable {L : Layout} {a : Adapter L} {stored : Stored L} {l : List ℕ}
  {m : ℕ → Option (Payload L)} {ts : List (ℕ × Payload L)}

/-- The number of the next block is not in use. -/
def Adapter.BlockIdFresh (a : Adapter L) : Prop := a.btree[a.blockIdCounter]? = none

/-- The adapter is consistent and holds the map `m`, with `l` on the ring. -/
def Holds (a : Adapter L) (l : List ℕ) (m : ℕ → Option (Payload L)) : Prop :=
  ∃ stored, Consistent a stored l m ∧ Backs a.btree stored

/-! ## Blocks -/

/-- What the loop of `evict_bunch` does: it takes some of the last nodes and writes their tuples. -/
structure Bunched (b : ℕ) (a : Adapter L) (stored : Stored L) (l : List ℕ) (m : ℕ → Option (Payload L))
    (a' : Adapter L) (block' : List UInt8) (l' : List ℕ) (stored' : Stored L) : Prop where
  consistent : Consistent a' stored' l' m
  block : ∃ ts, block' = blockBytes ts ∧ ∀ i, stored' b i = ts[i]?
  others : ∀ b', b' ≠ b → stored' b' = stored b'
  btree : a'.btree = a.btree
  length : l'.length ≤ l.length

lemma getLast?_getD_concat (l : List ℕ) (x d : ℕ) : (l ++ [x]).getLast?.getD d = x := by simp

lemma set_concat {b : ℕ} (h : ∀ i, stored b i = ts[i]?) (t : ℕ × Payload L) (i : ℕ) :
    stored.set b ts.length (some t) b i = (ts ++ [t])[i]? := by
  by_cases hi : i = ts.length
  · rw [hi, Stored.set_self]
    simp
  · rw [Stored.set_of_ne _ _ (fun hpos => hi hpos.2), h]
    rcases Nat.lt_or_gt_of_ne hi with hlt | hgt
    · rw [List.getElem?_append_left hlt]
    · rw [List.getElem?_eq_none (by omega), List.getElem?_eq_none (by simp; omega)]

/-- **The loop of `evict_bunch`.**  It takes at least one node, if there is one and its tuple fits. -/
lemma bunched_evictLoop (b fuel : ℕ) (h : Consistent a stored l m)
    (hts : ∀ i, stored b i = ts[i]?) :
    ∃ l' stored', Bunched b a stored l m
      (evictLoop b fuel a (blockBytes ts) (ts.length * L.tupleSize)
        (l.getLast?.getD lruHead)).1
      (evictLoop b fuel a (blockBytes ts) (ts.length * L.tupleSize)
        (l.getLast?.getD lruHead)).2 l' stored' ∧
      (0 < fuel → l ≠ [] → (blockBytes ts).length + L.tupleSize ≤ evictBlockSize →
        l'.length < l.length) := by
  induction fuel generalizing a stored l ts with
  | zero =>
    exact ⟨l, stored, ⟨h, ⟨ts, rfl, hts⟩, fun _ _ => rfl, rfl, le_rfl⟩,
      fun h0 => absurd h0 (lt_irrefl 0)⟩
  | succ fuel ih =>
    have hstop : Bunched b a stored l m a (blockBytes ts) l stored :=
      ⟨h, ⟨ts, rfl, hts⟩, fun _ _ => rfl, rfl, le_rfl⟩
    rcases List.eq_nil_or_concat l with rfl | ⟨l₀, x, rfl⟩
    · refine ⟨[], stored, by simpa [evictLoop] using hstop, fun _ hne => absurd rfl hne⟩
    rw [List.concat_eq_append] at h hstop ⊢
    rw [getLast?_getD_concat, evictLoop]
    obtain ⟨tp, hnode, hcache⟩ := h.node x (by simp)
    have hx : x ≠ lruHead := by
      rintro rfl
      exact (List.nodup_cons.1 h.ring.nodup).1 (by simp)
    rw [if_neg hx]
    split_ifs with hfull
    · exact ⟨_, _, hstop, fun _ _ hfits => absurd hfull (Nat.not_lt.2 hfits)⟩
    simp only [hnode, h.ring.prev_last]
    have hslot : stored b ts.length = none := by simp [hts]
    obtain ⟨l', stored', hb, -⟩ := ih (h.evictNode hnode hslot) (set_concat hts _)
    rw [blockBytes_concat, List.length_append, List.length_singleton, Nat.succ_mul] at hb
    have hlt : l'.length < (l₀ ++ [x]).length := by
      rw [List.length_append, List.length_singleton]
      exact Nat.lt_succ_of_le hb.length
    refine ⟨l', stored', ⟨hb.consistent, hb.block, fun b' hb' => ?_, hb.btree, hlt.le⟩,
      fun _ _ _ => hlt⟩
    rw [hb.others b' hb']
    funext i
    exact Stored.set_of_ne _ _ (fun hpos => hb' hpos.1)

/-- A block is added under a number that is not in use. -/
lemma Backs.insertNew {btree : TreeMap ℕ (List UInt8)} {stored' : Stored L} {b : ℕ}
    {block : List UInt8} (h : Backs btree stored) (hb : btree[b]? = none)
    (hblock : ∃ ts, block = blockBytes ts ∧ ∀ i, stored' b i = ts[i]?)
    (hothers : ∀ b', b' ≠ b → stored' b' = stored b') :
    Backs (OrderedMap.insertNew btree b block).2 stored' := by
  rw [insertNew_of_none hb]
  refine ⟨fun b' block' hb' => ?_, fun b' hb' => ?_⟩
  · rw [getElem?_insert] at hb'
    split_ifs at hb' with heq
    · obtain rfl := some.inj hb'
      exact heq ▸ hblock
    · rw [hothers b' (Ne.symm heq)]
      exact h.bytes b' block' hb'
  · rw [getElem?_insert] at hb'
    split_ifs at hb' with heq
    rw [hothers b' (Ne.symm heq)]
    exact h.absent b' hb'

/-- **An eviction.** -/
lemma Holds.evictBunch (h : Holds a l m) (hfresh : a.BlockIdFresh) :
    ∃ l', Holds a.evictBunch l' m ∧
      (L.tupleSize ≤ evictBlockSize → l ≠ [] → l'.length < l.length) := by
  obtain ⟨stored, hc, hbacks⟩ := h
  have hempty : ∀ i, stored a.blockIdCounter i = ([] : List (ℕ × Payload L))[i]? := by
    intro i
    rw [hbacks.absent _ hfresh i, List.getElem?_nil]
  have hc' : Consistent { a with blockIdCounter := (a.blockIdCounter + 1) % 2 ^ 32 } stored l m :=
    ⟨hc.ring, hc.fresh, hc.node, hc.cached, hc.entry, hc.value, hc.apart, hc.covered, hc.keys⟩
  obtain ⟨l', stored', hbunch, hprogress⟩ :=
    bunched_evictLoop a.blockIdCounter (evictBlockSize + 1) hc' hempty
  refine ⟨l', ⟨stored', ?_⟩, fun hfits hne => hprogress (Nat.succ_pos _) hne ?_⟩
  · rw [List.length_nil, Nat.zero_mul] at hbunch
    simp only [Adapter.evictBunch, hc.ring.prev_head, getD_some]
    have hnil : blockBytes ([] : List (ℕ × Payload L)) = [] := rfl
    rw [hnil] at hbunch
    generalize evictLoop a.blockIdCounter (evictBlockSize + 1) _ _ _ _ = r at hbunch ⊢
    obtain ⟨hcons, hblock, hothers, hbtree, -⟩ := hbunch
    refine ⟨⟨hcons.ring, hcons.fresh, hcons.node, hcons.cached, hcons.entry, hcons.value,
      hcons.apart, hcons.covered, hcons.keys⟩, ?_⟩
    have hbtree' : r.1.btree = a.btree := hbtree
    simp only [hbtree']
    exact hbacks.insertNew hfresh hblock hothers
  · simpa [blockBytes] using hfits

lemma btree_bringTuple (a : Adapter L) (k : ℕ) (block : List UInt8) (off : ℕ) :
    (a.bringTuple k block off).btree = a.btree := by
  simp only [bringTuple, admitElementNoEviction]
  split_ifs <;> rfl

/-- The first tuples of a block have been taken out. -/
def Stored.dropFirst (stored : Stored L) (b n : ℕ) : Stored L :=
  fun b' i => if b' = b ∧ i < n then none else stored b' i

lemma dropFirst_succ (stored : Stored L) (b n : ℕ) :
    stored.dropFirst b (n + 1) = (stored.dropFirst b n).set b n none := by
  funext b' i
  simp only [Stored.dropFirst, Stored.set]
  by_cases hb : b' = b
  · by_cases hi : i = n
    · simp [hb, hi]
    · simp [hb, hi, show i < n + 1 ↔ i < n by omega]
  · simp [hb]

/-- The loop of `bring_tuple_from_block_table`, up to some tuple. -/
lemma bring_tuples (k : ℕ) {b n : ℕ} (h : Consistent a stored l m)
    (hts : ∀ i, stored b i = ts[i]?) (hn : n ≤ ts.length) :
    let a' := ((List.range n).map (fun i => i * L.tupleSize)).foldl
      (bringTuple k (blockBytes ts)) a
    ∃ l', Consistent a' (stored.dropFirst b n) l' m ∧ a'.btree = a.btree := by
  induction n with
  | zero =>
    have hsame : stored.dropFirst b 0 = stored := by
      funext b' i
      simp [Stored.dropFirst]
    exact ⟨l, by rw [hsame]; exact h, rfl⟩
  | succ n ih =>
    obtain ⟨l', hc, hbtree⟩ := ih (Nat.le_of_succ_le hn)
    have hslot : stored.dropFirst b n b n = some ts[n] := by
      rw [Stored.dropFirst, if_neg (by simp), hts, List.getElem?_eq_getElem]
    have hkey : ts[n].1 < 2 ^ 64 := by
      refine h.keys _ ?_
      rw [h.value b n ts[n].1 ts[n].2 (by rw [hts, List.getElem?_eq_getElem])]
      simp
    have hread := readTuple_blockBytes hkey (List.getElem?_eq_getElem hn)
    obtain ⟨l'', hc'⟩ := hc.bringTuple k hslot hread
    simp only [List.range_succ, List.map_append, List.map_cons, List.map_nil, List.foldl_append,
      List.foldl_cons, List.foldl_nil, dropFirst_succ]
    exact ⟨l'', hc', (btree_bringTuple _ _ _ _).trans hbtree⟩

/-- **A whole block becomes nodes again.** -/
lemma Holds.bringBlock (h : Holds a l m) {k : ℕ} {trec : TombstoneRecord}
    (hk : a.evictTable[k]? = some trec) : ∃ l', Holds (a.bringBlock k trec) l' m := by
  obtain ⟨stored, hc, hbacks⟩ := h
  obtain ⟨b, off⟩ := trec
  obtain ⟨i, v, hs, -⟩ := (hc.entry k b off).1 hk
  rcases hblock : a.btree[b]? with _ | block
  · simp [hbacks.absent b hblock i] at hs
  obtain ⟨ts, rfl, hts⟩ := hbacks.bytes b block hblock
  obtain ⟨l', hc', hbtree⟩ := bring_tuples k hc hts le_rfl
  refine ⟨l', stored.dropFirst b ts.length, ?_⟩
  simp only [Adapter.bringBlock, hblock, getD_some, offsets_blockBytes]
  generalize List.foldl _ a _ = a' at hc' hbtree ⊢
  refine ⟨⟨hc'.ring, hc'.fresh, hc'.node, hc'.cached, hc'.entry, hc'.value, hc'.apart,
    hc'.covered, hc'.keys⟩, ?_⟩
  rw [hbtree]
  refine ⟨fun b' block' hb' => ?_, fun b' hb' j => ?_⟩
  · rw [getElem?_removeKey] at hb'
    split_ifs at hb' with heq
    obtain ⟨ts', hblock', hts'⟩ := hbacks.bytes b' block' hb'
    refine ⟨ts', hblock', fun j => ?_⟩
    rw [Stored.dropFirst, if_neg (fun hpos => heq hpos.1.symm), hts']
  · rw [getElem?_removeKey] at hb'
    simp only [Stored.dropFirst]
    split_ifs at hb' ⊢ with hpos heq heq
    · rfl
    · rfl
    · subst heq
      rw [hts, List.getElem?_eq_none (by simpa using hpos)]
    · exact hbacks.absent b' hb' j

/-! ## Evictions in a loop -/

/-- The evictions of `while (test()) evict_bunch();`, until the test fails.  Each block gets a number
that is not in use. -/
inductive Bunches (test : Adapter L → Bool) : Adapter L → Adapter L → Prop
  | stop {a : Adapter L} : test a = false → Bunches test a a
  | bunch {a a' : Adapter L} : test a = true → a.BlockIdFresh → Bunches test a.evictBunch a' →
      Bunches test a a'

variable {test : Adapter L → Bool} {a' : Adapter L} {env : Env L} {k : ℕ}

lemma Bunches.holds (hb : Bunches test a a') (h : Holds a l m) : ∃ l', Holds a' l' m := by
  induction hb generalizing l with
  | stop => exact ⟨l, h⟩
  | bunch _ hfresh _ ih =>
    obtain ⟨l', h', -⟩ := h.evictBunch hfresh
    exact ih h'

lemma Bunches.returns (hb : Bunches test a a') : Returns (fun fuel => a.evictWhile test fuel) a' := by
  induction hb with
  | stop htest =>
    exact (Returns.pure _).of_succ (fun fuel => by rw [evictWhile, htest]; rfl)
  | bunch htest _ _ ih =>
    exact ih.of_succ (fun fuel => by rw [evictWhile, htest, if_pos rfl])

/-- `if (cache_under_pressure()) evict_till_safe();`. -/
lemma Bunches.returns_relieve (hb : Bunches (cacheUnderPressure env) a a') :
    Returns (fun fuel => a.relieve env fuel) a' := by
  cases hp : a.cacheUnderPressure env with
  | false =>
    cases hb with
    | stop => simpa [relieve, hp] using Returns.pure a
    | bunch htest => simp [hp] at htest
  | true => simpa [relieve, evictTillSafe, hp] using hb.returns

lemma Holds.size_pos_iff (h : Holds a l m) : 0 < a.cache.size ↔ l ≠ [] := by
  obtain ⟨stored, hc, -⟩ := h
  rw [← length_scanFrom_zero, List.length_pos_iff]
  refine ⟨fun hne => ?_, fun hne => ?_⟩
  · obtain ⟨⟨k, x⟩, hmem⟩ := List.exists_mem_of_ne_nil _ hne
    exact List.ne_nil_of_mem (hc.cached k x (mem_scanFrom.1 hmem).2).1
  · obtain ⟨x, hx⟩ := List.exists_mem_of_ne_nil _ hne
    obtain ⟨tp, -, hcache⟩ := hc.node x hx
    exact List.ne_nil_of_mem (mem_scanFrom.2 ⟨Nat.zero_le _, hcache⟩)

/-- The blocks that `while (test()) evict_bunch();` writes get numbers that are not in use. -/
def FreshBunches (test : Adapter L → Bool) (a : Adapter L) : Prop :=
  ∀ n, (∀ j ≤ n, test (Adapter.evictBunch^[j] a) = true) → (Adapter.evictBunch^[n] a).BlockIdFresh

lemma FreshBunches.next (h : FreshBunches test a) (htest : test a = true) :
    FreshBunches test a.evictBunch := by
  intro n hn
  rw [← Function.iterate_succ_apply]
  refine h (n + 1) (fun j hj => ?_)
  cases j with
  | zero => exact htest
  | succ j =>
    rw [Function.iterate_succ_apply]
    exact hn j (by omega)

/-- **`evict_all` ends**, since each block takes a node at least. -/
lemma bunches_evictAll (hL : L.tupleSize ≤ evictBlockSize) (h : Holds a l m)
    (hfresh : FreshBunches (fun a => 0 < a.cache.size) a) :
    ∃ a', Bunches (fun a => 0 < a.cache.size) a a' := by
  -- induction on the length of the ring
  induction hn : l.length using Nat.strong_induction_on generalizing a l with
  | _ n ih =>
    by_cases hsize : 0 < a.cache.size
    · have htest : decide (0 < a.cache.size) = true := decide_eq_true hsize
      have hid : a.BlockIdFresh := hfresh 0 (fun j hj => by
        obtain rfl := Nat.le_zero.1 hj
        exact htest)
      obtain ⟨l', h', hlt⟩ := h.evictBunch hid
      have hlt' := hlt hL (h.size_pos_iff.1 hsize)
      obtain ⟨a', ha'⟩ := ih l'.length (hn ▸ hlt') h' (hfresh.next htest) rfl
      exact ⟨a', .bunch htest hid ha'⟩
    · exact ⟨a, .stop (decide_eq_false hsize)⟩

/-! ## Calls -/

/-- What a call does to the map the client sees. -/
def Call.apply (m : ℕ → Option (Payload L)) : Call L → ℕ → Option (Payload L)
  | .insert k v | .update k v | .put k v => Function.update m k (some v)
  | .lookup _ | .evictBunch | .evictAll => m

/-- The contract of the calls: `insert` is called with a key that is absent.  Keys have 64 bits. -/
def Call.Admissible (m : ℕ → Option (Payload L)) : Call L → Prop
  | .insert k _ => m k = none ∧ k < 2 ^ 64
  | .update k _ | .put k _ => k < 2 ^ 64
  | .lookup _ | .evictBunch | .evictAll => True

/-- The pressure goes off, if there is any. -/
def Relieves (env : Env L) (a : Adapter L) : Prop :=
  ∃ a', Bunches (Adapter.cacheUnderPressure env) a a'

/-- If the tuple of `k` is on disk, it is brought back, and the pressure goes off before it is evicted
once more. -/
def Reaches (env : Env L) (a : Adapter L) (k : ℕ) : Prop :=
  ∀ trec, a.evictTable[k]? = some trec →
    ∃ a', Bunches (Adapter.cacheUnderPressure env) (a.bringBlock k trec) a' ∧ a'.cache[k]? ≠ none

/-- What a call needs. -/
def Relieved (env : Env L) (a : Adapter L) : Call L → Prop
  | .insert _ _ => Relieves env a
  | .lookup k => Reaches env a k
  | .update k _ | .put k _ =>
    Reaches env a k ∧ (a.cache[k]? = none → a.evictTable[k]? = none → Relieves env a)
  | .evictBunch => a.BlockIdFresh
  | .evictAll => FreshBunches (fun a => 0 < a.cache.size) a

variable {v : Payload L}

lemma Consistent.touch (h : Consistent a stored l m) (env : Env L) (draw : ℕ) {x : ℕ} (hx : x ∈ l) :
    ∃ l', Consistent (a.touch env draw x) stored l' m := by
  unfold Adapter.touch
  split_ifs
  · exact h.lruMoveToHead hx
  · exact ⟨l, h⟩

lemma btree_touch (env : Env L) (draw : ℕ) (a : Adapter L) (x : ℕ) :
    (a.touch env draw x).btree = a.btree := by
  unfold touch
  split_ifs <;> rfl

section

variable (h : Holds a l m)
include h

lemma Holds.touch (env : Env L) (draw : ℕ) {x : ℕ} (hx : a.cache[k]? = some x) :
    ∃ l', Holds (a.touch env draw x) l' m := by
  obtain ⟨stored, hc, hbacks⟩ := h
  obtain ⟨l', hc'⟩ := hc.touch env draw (hc.cached k x hx).1
  exact ⟨l', stored, hc', by rwa [btree_touch]⟩

/-- What is neither in memory nor on disk is not in the map. -/
lemma Holds.eq_none (hcache : a.cache[k]? = none)
    (hevict : a.evictTable[k]? = none) : m k = none := by
  obtain ⟨stored, hc, -⟩ := h
  by_contra hk
  rcases hc.covered k hk with hne | hne
  · exact hne hcache
  · exact hne hevict

/-- A node of the cache has the value of the map. -/
lemma Holds.payload_eq {x : ℕ} (hx : a.cache[k]? = some x) : (a.nodes x).map (·.payload) = m k := by
  obtain ⟨stored, hc, -⟩ := h
  obtain ⟨-, v, hnode, hv⟩ := hc.cached k x hx
  rw [hnode, hv]
  rfl

/-- **A lookup returns the value of the map.** -/
lemma Holds.lookup (hr : Reaches env a k) (draw : ℕ) :
    ∃ a' l', Returns (fun fuel => a.lookup env draw fuel k) (a', m k) ∧ Holds a' l' m := by
  -- the access to a tuple in memory
  have hhit : ∀ {b : Adapter L} {l₁ : List ℕ}, Holds b l₁ m → b.cache[k]? ≠ none →
      ∃ a' l', Returns (fun fuel => b.lookup env draw fuel k) (a', m k) ∧ Holds a' l' m := by
    intro b l₁ hb hcache
    obtain ⟨x, hx⟩ := ne_none_iff_exists'.1 hcache
    obtain ⟨l', hl'⟩ := hb.touch env draw hx
    refine ⟨_, l', (Returns.pure _).of_succ (fun fuel => ?_), hl'⟩
    simp [Adapter.lookup, hx, hb.payload_eq hx]
  rcases hcache : a.cache[k]? with _ | x
  · rcases hevict : a.evictTable[k]? with _ | trec
    · refine ⟨a, l, (Returns.pure _).of_succ (fun fuel => ?_), h⟩
      simp [Adapter.lookup, hcache, hevict, h.eq_none hcache hevict]
    obtain ⟨b, hbunches, hb⟩ := hr trec hevict
    obtain ⟨l₁, h₁⟩ := h.bringBlock hevict
    obtain ⟨l₂, h₂⟩ := hbunches.holds h₁
    obtain ⟨a', l', hreturns, h'⟩ := hhit h₂ hb
    refine ⟨a', l', (hbunches.returns_relieve.bind
      (fun fuel b => b.lookup env draw fuel k) hreturns).of_succ (fun fuel => ?_), h'⟩
    simp only [Adapter.lookup, hcache, hevict]
    rfl
  · exact hhit h (by simp [hcache])

lemma Holds.admitElement (hr : Relieves env a) (hk : k < 2 ^ 64) (hm : m k = none) (v : Payload L) :
    ∃ a' l', Returns (fun fuel => a.admitElement env fuel k v true) a' ∧
      Holds a' l' (Function.update m k (some v)) := by
  obtain ⟨b, hbunches⟩ := hr
  obtain ⟨l₁, stored, hc, hbacks⟩ := hbunches.holds h
  have hcache : b.cache[k]? = none := by
    by_contra hne
    obtain ⟨x, hx⟩ := ne_none_iff_exists'.1 hne
    obtain ⟨-, v', -, hv'⟩ := hc.cached k x hx
    simp [hm] at hv'
  have hevict : b.evictTable[k]? = none := by
    by_contra hne
    obtain ⟨⟨b', off⟩, htrec⟩ := ne_none_iff_exists'.1 hne
    obtain ⟨i, v', hs, -⟩ := (hc.entry k b' off).1 htrec
    simp [hc.value b' i k v' hs] at hm
  obtain ⟨l', hc'⟩ := hc.admitElementNoEviction hcache hevict hk v true
  have hreturns := hbunches.returns_relieve.bind
    (fun _ b => some (b.admitElementNoEviction k v true)) (Returns.pure _)
  exact ⟨_, l', hreturns, stored, hc', hbacks⟩

/-- **An update writes the value.** -/
lemma Holds.update (hr : Relieved env a (.update k v)) (hk : k < 2 ^ 64) (draw : ℕ) :
    ∃ a' l', Returns (fun fuel => a.update env draw fuel k v) a' ∧
      Holds a' l' (Function.update m k (some v)) := by
  have hhit : ∀ {b : Adapter L} {l₁ : List ℕ}, Holds b l₁ m → b.cache[k]? ≠ none →
      ∃ a' l', Returns (fun fuel => b.update env draw fuel k v) a' ∧
        Holds a' l' (Function.update m k (some v)) := by
    intro b l₁ hb hcache
    obtain ⟨x, hx⟩ := ne_none_iff_exists'.1 hcache
    obtain ⟨stored, hc, hbacks⟩ := hb
    have hset : Holds { b with
          nodes := Function.update b.nodes x ((b.nodes x).map (fun tp => { tp with payload := v })) }
        l₁ (Function.update m k (some v)) := ⟨stored, hc.setPayload hx v, hbacks⟩
    obtain ⟨l', hl'⟩ := hset.touch env draw (k := k) hx
    refine ⟨_, l', (Returns.pure _).of_succ (fun fuel => ?_), hl'⟩
    simp [Adapter.update, hx]
  rcases hcache : a.cache[k]? with _ | x
  · rcases hevict : a.evictTable[k]? with _ | trec
    · obtain ⟨a', l', hreturns, h'⟩ :=
        h.admitElement (hr.2 hcache hevict) hk (h.eq_none hcache hevict) v
      refine ⟨a', l', hreturns.of_succ (fun fuel => ?_), h'⟩
      simp [Adapter.update, hcache, hevict]
    · obtain ⟨b, hbunches, hb⟩ := hr.1 trec hevict
      obtain ⟨l₁, h₁⟩ := h.bringBlock hevict
      obtain ⟨l₂, h₂⟩ := hbunches.holds h₁
      obtain ⟨a', l', hreturns, h'⟩ := hhit h₂ hb
      refine ⟨a', l', (hbunches.returns_relieve.bind
        (fun fuel b => b.update env draw fuel k v) hreturns).of_succ (fun fuel => ?_), h'⟩
      simp only [Adapter.update, hcache, hevict]
      rfl
  · exact hhit h (by simp [hcache])

end

/-- **Every call that gets what it needs returns, and keeps the structures consistent.** -/
lemma Holds.call (hL : L.tupleSize ≤ evictBlockSize) (h : Holds a l m) {i : Call L × ℕ}
    (hadm : i.1.Admissible m) (hr : Relieved env a i.1) :
    ∃ a' l', Returns (fun fuel => a.call env fuel i) a' ∧ Holds a' l' (i.1.apply m) := by
  obtain ⟨call, draw⟩ := i
  cases call with
  | insert k v => exact h.admitElement hr hadm.2 hadm.1 v
  | lookup k =>
    obtain ⟨a', l', hreturns, h'⟩ := h.lookup hr draw
    exact ⟨a', l', hreturns.map Prod.fst, h'⟩
  | update k v => exact h.update hr hadm draw
  | put k v => exact h.update hr hadm draw
  | evictBunch =>
    obtain ⟨l', h', -⟩ := h.evictBunch hr
    exact ⟨_, l', Returns.pure _, h'⟩
  | evictAll =>
    obtain ⟨a', hbunches⟩ := bunches_evictAll hL h hr
    obtain ⟨l', h'⟩ := hbunches.holds h
    exact ⟨a', l', hbunches.returns, h'⟩

/-! ## Runs -/

/-- Every call of the run gets what it needs in the state it meets. -/
def RelievedRun (env : Env L) : Adapter L → List (Call L × ℕ) → Prop
  | _, [] => True
  | a, i :: is => Relieved env a i.1 ∧
    ∀ a', Returns (fun fuel => a.call env fuel i) a' → RelievedRun env a' is

/-- The value last written to each key by a sequence of calls. -/
def contents (calls : List (Call L × ℕ)) : ℕ → Option (Payload L) :=
  calls.foldl (fun m i => i.1.apply m) (fun _ => none)

/-- The calls of a run meet their contract. -/
def AdmissibleRun (calls : List (Call L × ℕ)) : Prop :=
  Admits (fun m i => i.1.Admissible m) (fun m i => i.1.apply m) (fun _ => none) calls

lemma Holds.run (hL : L.tupleSize ≤ evictBlockSize) (h : Holds a l m) {calls : List (Call L × ℕ)}
    (hadm : Admits (fun m i => i.1.Admissible m) (fun m i => i.1.apply m) m calls)
    (hr : RelievedRun env a calls) :
    ∃ a' l', Returns (fun fuel => a.run env fuel calls) a' ∧
      Holds a' l' (calls.foldl (fun m i => i.1.apply m) m) := by
  induction calls generalizing a l m with
  | nil => exact ⟨a, l, Returns.pure a, h⟩
  | cons i calls ih =>
    obtain ⟨a₁, l₁, hreturns, h₁⟩ := h.call hL hadm.1 hr.1
    obtain ⟨a', l', hreturns', h'⟩ := ih h₁ hadm.2 (hr.2 a₁ hreturns)
    have hrun := hreturns.bind (fun fuel b => b.run env fuel calls) hreturns'
    exact ⟨a', l', hrun, h'⟩

lemma holds_init : Holds (init : Adapter L) [] (fun _ => none) :=
  ⟨fun _ _ => none, .init, ⟨fun b block hb => by simp [init] at hb, fun _ _ _ => rfl⟩⟩

/-- **The adapter keeps its tuples.**  A run of calls that get what they need returns, and then

* a lookup that gets what it needs returns the value last written;
* no key is both in the cache and in the evict table;
* an entry of the evict table points at the bytes of its tuple, in a block that is stored;
* every tuple of a stored block has its entry;
* the ring consists of the nodes the cache points to, each once, and they have the keys under which
  the cache has them. -/
theorem run_keeps_tuples (hL : L.tupleSize ≤ evictBlockSize) (env : Env L)
    {calls : List (Call L × ℕ)} (hadm : AdmissibleRun calls)
    (hr : RelievedRun env Adapter.init calls) :
    ∃ a : Adapter L, Returns (fun fuel => Adapter.init.run env fuel calls) a ∧
      (∀ k draw, Reaches env a k →
        ∃ a', Returns (fun fuel => a.lookup env draw fuel k) (a', contents calls k)) ∧
      (∀ k : ℕ, a.cache[k]? = none ∨ a.evictTable[k]? = none) ∧
      (∀ k b off, a.evictTable[k]? = some ⟨b, off⟩ → ∃ block v, a.btree[b]? = some block ∧
        off + L.tupleSize ≤ block.length ∧ readTuple L block off = (k, v) ∧
        contents calls k = some v) ∧
      (∀ (b : ℕ) block, a.btree[b]? = some block → ∀ off ∈ offsets L block.length,
        a.evictTable[(readTuple L block off).1]? = some ⟨b, off⟩) ∧
      ∃ l, a.links.IsRing lruHead l ∧
        ∀ x, x ∈ l ↔ ∃ k v, a.cache[k]? = some x ∧ a.nodes x = some ⟨k, v⟩ := by
  obtain ⟨a, l, hreturns, h⟩ := holds_init.run hL hadm hr
  refine ⟨a, hreturns, fun k draw hk => ?_, ?_⟩
  · obtain ⟨a', l', hlookup, -⟩ := h.lookup hk draw
    exact ⟨a', hlookup⟩
  obtain ⟨stored, hc, hbacks⟩ := h
  refine ⟨hc.apart, fun k b off htrec => ?_, fun b block hblock off hoff => ?_, l, hc.ring,
    fun x => ⟨fun hx => ?_, fun hx => ?_⟩⟩
  · obtain ⟨i, v, hs, rfl⟩ := (hc.entry k b off).1 htrec
    have hvalue := hc.value b i k v hs
    rcases hblock : a.btree[b]? with _ | block
    · simp [hbacks.absent b hblock i] at hs
    obtain ⟨ts, rfl, hts⟩ := hbacks.bytes b block hblock
    have hi : ts[i]? = some (k, v) := (hts i).symm.trans hs
    have hlt : i < ts.length := (List.getElem?_eq_some_iff.1 hi).1
    have hkey : k < 2 ^ 64 := hc.keys k (by rw [hvalue]; simp)
    refine ⟨_, v, rfl, ?_, readTuple_blockBytes hkey hi, hvalue⟩
    rw [length_blockBytes, ← Nat.succ_mul]
    exact Nat.mul_le_mul_right _ hlt
  · obtain ⟨ts, rfl, hts⟩ := hbacks.bytes b block hblock
    rw [offsets_blockBytes] at hoff
    obtain ⟨i, hi, rfl⟩ := List.mem_map.1 hoff
    have hlt : i < ts.length := List.mem_range.1 hi
    have hi' := List.getElem?_eq_getElem hlt
    have hs : stored b i = some (ts[i].1, ts[i].2) := (hts i).trans hi'
    have hkey : ts[i].1 < 2 ^ 64 := hc.keys _ (by rw [hc.value b i _ _ hs]; simp)
    rw [readTuple_blockBytes hkey hi']
    exact hc.entry_of_stored hs
  · obtain ⟨tp, htp, hcache⟩ := hc.node x hx
    exact ⟨tp.key, tp.payload, hcache, htp⟩
  · obtain ⟨k, v, hcache, -⟩ := hx
    exact (hc.cached k x hcache).1

/-- Tuples of 16 bytes. -/
def short : Layout := ⟨8, 0⟩

/-- An adapter whose maps are small: a map of up to 64 entries is a single leaf. -/
def smallMaps (capacity : ℕ) : Env short :=
  ⟨capacity, 1, fun a => ⟨if a.cache.isEmpty then 0 else 1, 0,
    if a.evictTable.isEmpty then 0 else 1, 0⟩⟩

/-- A payload of equal bytes. -/
def payloadOf (b : UInt8) : Payload short := Vector.replicate 8 b

/-- A tuple is evicted, looked up and updated. -/
def reloaded : List (Call short × ℕ) :=
  [(.insert 1 (payloadOf 10), 0), (.evictBunch, 0), (.lookup 1, 0), (.update 1 (payloadOf 20), 0)]

/-- The adapter after the first call. -/
def inserted : Adapter short := Adapter.init.admitElementNoEviction 1 (payloadOf 10) true

/-- The adapter after the third call. -/
def accessed : Adapter short := (inserted.evictBunch.bringBlock 1 ⟨0, 0⟩).lruMoveToHead 2

lemma relievedRun_reloaded : RelievedRun (smallMaps 10000) init reloaded := by
  refine ⟨⟨_, .stop (by decide +kernel)⟩, fun a₁ h₁ => ?_⟩
  obtain rfl : inserted = a₁ := Returns.unique ⟨0, fun _ _ => rfl⟩ h₁
  have hfresh : inserted.BlockIdFresh := by
    unfold Adapter.BlockIdFresh
    decide +kernel
  refine ⟨hfresh, fun a₂ h₂ => ?_⟩
  obtain rfl : inserted.evictBunch = a₂ := Returns.unique (Returns.pure _) h₂
  have hentry : inserted.evictBunch.evictTable[1]? = some ⟨0, 0⟩ := by decide +kernel
  refine ⟨fun trec htrec => ?_, fun a₃ h₃ => ?_⟩
  · obtain rfl : ⟨0, 0⟩ = trec := some.inj (hentry.symm.trans htrec)
    exact ⟨_, .stop (by decide +kernel), by decide +kernel⟩
  have haccess : Returns
      (fun fuel => inserted.evictBunch.call (smallMaps 10000) fuel (.lookup 1, 0)) accessed := by
    refine ⟨2, fun fuel hfuel => ?_⟩
    obtain ⟨n, rfl⟩ := Nat.exists_eq_add_of_le' hfuel
    rfl
  obtain rfl : accessed = a₃ := haccess.unique h₃
  refine ⟨⟨fun trec htrec => ?_, fun hcache => ?_⟩, fun _ _ => trivial⟩
  · have hnone : accessed.evictTable[1]? = none := by decide +kernel
    simp [hnone] at htrec
  · have hsome : accessed.cache[1]? ≠ none := by decide +kernel
    exact absurd hcache hsome

/-- The value of a tuple that was evicted and brought back. -/
theorem run_keeps_tuples_reloaded :
    AdmissibleRun reloaded ∧ RelievedRun (smallMaps 10000) Adapter.init reloaded ∧
    ∃ a, Returns (fun fuel => Adapter.init.run (smallMaps 10000) fuel reloaded) a ∧
      ∀ k : ℕ, a.cache[k]? = none ∨ a.evictTable[k]? = none := by
  have hadm : AdmissibleRun reloaded :=
    ⟨⟨rfl, by decide⟩, trivial, trivial, (by decide : 1 < 2 ^ 64), trivial⟩
  obtain ⟨a, hreturns, -, hapart, -⟩ :=
    run_keeps_tuples (by decide) (smallMaps 10000) hadm relievedRun_reloaded
  exact ⟨hadm, relievedRun_reloaded, a, hreturns, hapart⟩

/-! ## Evictions without end -/

lemma evictWhile_eq_none {P : Adapter L → Prop} (hP : ∀ a, P a → test a = true ∧ P a.evictBunch)
    (h : P a) (fuel : ℕ) : a.evictWhile test fuel = none := by
  induction fuel generalizing a with
  | zero => rfl
  | succ fuel ih =>
    rw [evictWhile, if_pos (hP a h).1]
    exact ih (hP a h).2

lemma evictBunch_of_empty (h : a.links.prev lruHead = some lruHead) :
    a.evictBunch.evictTable = a.evictTable ∧ a.evictBunch.links = a.links := by
  simp [evictBunch, h, evictLoop]

/-- With the capacity of a block, the evict table causes pressure as soon as it has an entry. -/
lemma full_of_leaf (a : Adapter short)
    (h : a.evictTable.isEmpty = false ∧ a.links.prev lruHead = some lruHead) :
    a.cacheUnderPressure (smallMaps 1024) = true ∧
      (a.evictBunch.evictTable.isEmpty = false ∧ a.evictBunch.links.prev lruHead = some lruHead) := by
  obtain ⟨htable, hlinks⟩ := evictBunch_of_empty h.2
  refine ⟨decide_eq_true ?_, by rwa [htable, hlinks]⟩
  simp only [getCacheSize, getEvictTableSize, smallMaps, h.1, Bool.false_eq_true,
    if_false, leafNodeSize, innerNodeSize]
  omega

/-- **An insertion that never returns.**  The capacity is that of a block.  The first tuple is evicted
to make room for the second one, and then the leaf of the evict table alone is too large. -/
theorem insert_never_returns :
    short.tupleSize ≤ evictBlockSize ∧ evictBlockSize ≤ (smallMaps 1024).cacheCapacityBytes ∧
    AdmissibleRun [(Call.insert 1 (payloadOf 10), 0), (.insert 2 (payloadOf 20), 0)] ∧
    ∀ fuel, Adapter.init.run (smallMaps 1024) fuel
      [(.insert 1 (payloadOf 10), 0), (.insert 2 (payloadOf 20), 0)] = none := by
  refine ⟨by decide, by decide, ⟨⟨rfl, by decide⟩, ⟨rfl, by decide⟩, trivial⟩, fun fuel => ?_⟩
  have hfirst : Adapter.init.call (smallMaps 1024) fuel (.insert 1 (payloadOf 10), 0) =
      some inserted := rfl
  have hpressure : inserted.cacheUnderPressure (smallMaps 1024) = true := by decide +kernel
  have hstuck : ∀ fuel,
      inserted.evictBunch.evictWhile (Adapter.cacheUnderPressure (smallMaps 1024)) fuel = none :=
    evictWhile_eq_none full_of_leaf (by decide +kernel)
  have hsecond : inserted.call (smallMaps 1024) fuel (.insert 2 (payloadOf 20), 0) = none := by
    simp only [Adapter.call, Adapter.insert, Adapter.admitElement, Adapter.relieve, hpressure,
      if_true, Adapter.evictTillSafe]
    cases fuel with
    | zero => rfl
    | succ fuel => rw [Adapter.evictWhile, if_pos hpressure, hstuck]; rfl
  simp [Adapter.run, hfirst, hsecond]

end TwoTree.AntiCaching
