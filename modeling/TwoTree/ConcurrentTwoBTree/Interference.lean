import TwoTree.Lib.OptimisticLocks
import TwoTree.ConcurrentTwoBTree.Threads
import TwoTree.ConcurrentTwoBTree.Operations

/-!
# What a thread knows, and what the others may do to it

The lock words of an adapter and the cells of its keys are a world of `Lib.OptimisticLocks`
(`Adapter.world`), in which the operations on the trees are writes to one cell (`Writes`).

What a thread knows at a place of its program is of four kinds (`Pc.Knows`).  If it holds the lock
of a key, it knows the version of its guard and the cell of that key.  Otherwise it has snapshots:
what it read of a cell, which holds as long as the lock word has not advanced.  An evictor also
knows that its victims are in the hot tree, and that they are distinct keys of the range it
claimed.  All of it survives the steps of other threads (`Pc.Knows.interferes`), the presence of
victims because nobody else evicts from the range.
-/

namespace TwoTree.ConcurrentTwoBTree

open Std Lib Lib.OrderedMap Lib.Locking LockManager

variable {V : Type*}

namespace Adapter

/-! ## The adapter as a world of cells and words -/

/-- The lock words and the cells. -/
def world (a : Adapter V) : World ℕ ℕ (Cell V) := ⟨a.lockTable, a.cell⟩

@[simp] lemma cell_world (a : Adapter V) (k : ℕ) : a.world.cell k = a.cell k := rfl

@[simp] lemma word_world (a : Adapter V) (k : ℕ) : a.world.word (wordPos k) = a.word k := rfl

/-- No key carries a deletion mark. -/
def Unmarked (a : Adapter V) : Prop := ∀ k, ¬ a.Marked k

/-- A tree operation that makes `c` of the cell of `k`. -/
structure Writes (a : Adapter V) (k : ℕ) (c : Cell V) (a' : Adapter V) : Prop where
  clock : a'.clock = a.clock
  world : a'.world = ⟨a.lockTable, Function.update a.cell k c⟩
  unmarked : a.Unmarked → a'.Unmarked

variable {a a' : Adapter V} {k : ℕ} {c : Cell V}

lemma Writes.cell_eq (h : Writes a k c a') (b : ℕ) :
    a'.cell b = Function.update a.cell k c b := congrFun (congrArg World.cell h.world) b

/-- A tree operation that only touches the bookkeeping bits. -/
lemma Writes.world_of_eq (h : Writes a k (a.cell k) a') : a'.world = a.world := by
  rw [h.world, Function.update_eq_self]
  rfl

/-- An adapter whose trees differ from those of `a` at `k` only. -/
lemma writes_of_trees (hclock : a'.clock = a.clock) (hlocks : a'.lockTable = a.lockTable)
    (hself : a'.cell k = c) (hmark : ¬ a'.Marked k)
    (hhot : ∀ b, b ≠ k → a'.hotBtree[b]? = a.hotBtree[b]?)
    (hcold : ∀ b, b ≠ k → a'.coldBtree[b]? = a.coldBtree[b]?) : Writes a k c a' := by
  refine ⟨hclock, World.ext hlocks (funext fun b => ?_), fun ha b => ?_⟩
  · change a'.cell b = Function.update a.cell k c b
    rcases eq_or_ne b k with rfl | hb
    · rw [Function.update_self, hself]
    · rw [Function.update_of_ne hb, cell, cell, hhot b hb, hcold b hb]
  · rcases eq_or_ne b k with rfl | hb
    · exact hmark
    · rw [Marked, hhot b hb]
      exact ha b

/-- In an adapter without marks a record is a tagged payload, and the cell holds its data. -/
lemma Unmarked.tagged (ha : a.Unmarked) {r : HotRecord V} (hr : a.hotBtree[k]? = some r) :
    ∃ tp, r = .tagged tp ∧ (a.cell k).hot = some tp.data := by
  cases r with
  | tagged tp => exact ⟨tp, rfl, by rw [cell_of_tagged hr]⟩
  | deletedMark => exact absurd hr (ha k)

lemma Unmarked.hot_eq_none_iff (ha : a.Unmarked) :
    (a.cell k).hot = none ↔ a.hotBtree[k]? = none := by
  rcases hr : a.hotBtree[k]? with _ | r
  · simp [cell, hr]
  · obtain ⟨tp, -, hdata⟩ := ha.tagged hr
    simp [hdata]

lemma writes_insert (a : Adapter V) (k : ℕ) (tp : TaggedPayload V) :
    Writes a k ⟨some tp.data, (a.cell k).cold⟩
      { a with hotBtree := a.hotBtree.insert k (.tagged tp) } := by
  refine writes_of_trees rfl rfl ?_ ?_ (fun b hb => ?_) (fun _ _ => rfl)
  · simp [cell]
  · simp [Marked]
  · rw [getElem?_insert, if_neg hb.symm]

lemma writes_bookkeeping (ha : a.Unmarked) {r : HotRecord V} (hr : a.hotBtree[k]? = some r)
    {f : TaggedPayload V → TaggedPayload V} (hf : ∀ tp, (f tp).data = tp.data) :
    Writes a k (a.cell k) { a with hotBtree := a.hotBtree.insert k (r.mapTagged f) } := by
  obtain ⟨tp, rfl, hdata⟩ := ha.tagged hr
  have hcell : a.cell k = ⟨some (f tp).data, (a.cell k).cold⟩ := by
    rw [hf, ← hdata]
  rw [hcell]
  exact writes_insert a k (f tp)

lemma writes_admitElement (h : a.hotBtree[k]? = none) (v : V) (dirty referenced : Bool) :
    Writes a k ⟨some (v, dirty), (a.cell k).cold⟩ (a.admitElement k v dirty referenced) := by
  refine writes_of_trees rfl rfl ?_ ?_ (fun b hb => ?_) (fun _ _ => rfl)
  · rw [cell_of_tagged (hotBtree_admitElement_self h v dirty referenced), data_taggedFor]
    rfl
  · simp [Marked, hotBtree_admitElement_self h]
  · exact hotBtree_admitElement_of_ne a hb v dirty referenced

lemma writes_removeCold (ha : a.Unmarked) (k : ℕ) :
    Writes a k ⟨(a.cell k).hot, none⟩ (a.removeCold k) := by
  refine writes_of_trees rfl rfl ?_ (ha k) (fun _ _ => rfl) (fun b hb => ?_)
  · simp [cell, removeCold, getElem?_removeKey]
  · rw [coldBtree_removeCold, if_neg hb.symm]

lemma writes_removeHot (a : Adapter V) (k : ℕ) :
    Writes a k ⟨none, (a.cell k).cold⟩ (a.removeHot k) := by
  refine writes_of_trees rfl rfl ?_ ?_ (fun b hb => ?_) (fun _ _ => rfl)
  · simp [cell, removeHot, getElem?_removeKey]
  · simp [Marked, removeHot, getElem?_removeKey]
  · simp [removeHot, getElem?_removeKey, hb.symm]

lemma writes_writeBack (cfg : Config) (ha : a.Unmarked) (k : ℕ) (tp : TaggedPayload V) :
    Writes a k ⟨(a.cell k).hot, Cell.demoted cfg.inclusive tp.data (a.cell k).cold⟩
      (writeBack cfg a k tp) := by
  refine writes_of_trees (clock_writeBack cfg a k tp) (lockTable_writeBack cfg a k tp) ?_ ?_
    (fun b _ => by rw [hotBtree_writeBack]) (fun b hb => ?_)
  · rw [cell, hotBtree_writeBack, coldBtree_writeBack, if_pos rfl]
    rfl
  · rw [Marked, hotBtree_writeBack]
    exact ha k
  · rw [coldBtree_writeBack, if_neg hb.symm]

end Adapter

/-! ## What a thread knows -/

namespace Adapter.Victim

/-- What the scan took down of a victim. -/
def snapshot (victim : Adapter.Victim V) : Snapshot ℕ (Cell V) :=
  ⟨victim.key, victim.lockVersion, fun c => c.hot = some victim.payload.data⟩

end Adapter.Victim

/-- The keys of the victims that are left. -/
def Sweep.keys (e : Sweep V) : List ℕ := e.victims.map Adapter.Victim.key

/-- What the scan took down of the victims that are left. -/
def Sweep.snapshots (e : Sweep V) : List (Snapshot ℕ (Cell V)) :=
  e.victims.map Adapter.Victim.snapshot

namespace Pc

/-- The lock the thread owns: a key and the guard on its word. -/
def owned : Pc V → Option (ℕ × OptimisticLockGuard)
  | .rereading _ victim g | .writingBack _ victim g => some (victim.key, g)
  | .removingHot _ k g | .releasing _ k g => some (k, g)
  | .admitting k g _ | .removingCold k g _ => some (k, g)
  | .validating k g _ | .unguarding k g _ => if g.state = .writeLocked then some (k, g) else none
  | .putting k _ g | .putAdmitting k _ g | .putRemovingCold k _ g | .putReleasing k _ g =>
    some (k, g)
  | _ => none

/-- The key whose lock the thread owns. -/
def held (pc : Pc V) : Option ℕ := pc.owned.map Prod.fst

/-- What the thread knows of the cell of the key whose lock it owns. -/
def CellFact (cfg : Config) : Pc V → Cell V → Prop
  | .rereading _ _ _, c => c.Coherent cfg.inclusive ∧ c.hot ≠ none
  | .writingBack _ victim _, c => c.Coherent cfg.inclusive ∧ c.hot = some victim.payload.data
  | .removingHot _ _ _, c => ∃ d, c = ⟨some d, some d.1⟩
  | .admitting _ _ v, c => c = ⟨none, some v⟩
  | .removingCold _ _ v, c => cfg.inclusive = false ∧ c = ⟨some (v, false), some v⟩
  | .validating _ _ res, c => c.Coherent cfg.inclusive ∧ c.view = res
  | .putAdmitting _ _ _, c => c.Coherent cfg.inclusive ∧ c.hot = none
  | .putRemovingCold _ v _, c => cfg.inclusive = false ∧ c.hot = some (v, true)
  | .putReleasing _ v _, c => c.Coherent cfg.inclusive ∧ c.hot = some (v, true)
  | _, c => c.Coherent cfg.inclusive

/-- The eviction the thread is in, behind its section. -/
def sweep : Pc V → Option (Sweep V)
  | .scanning e _ | .reading e _ | .copying e _ _ | .evicting e | .locking e _ _
  | .rereading e _ _ | .writingBack e _ _ | .removingHot e _ _ | .releasing e _ _
  | .leaving e => some e
  | _ => none

/-- The range the thread has claimed. -/
def range (pc : Pc V) : Option ClaimedRange := pc.sweep.map Sweep.range

/-- The keys the thread is going to evict and knows to be in the hot tree. -/
def pending : Pc V → List ℕ
  | .reading e key | .copying e key _ => e.keys ++ [key]
  | .locking e victim _ | .rereading e victim _ | .writingBack e victim _ => victim.key :: e.keys
  | .removingHot e key _ => key :: e.keys
  | .scanning e _ | .evicting e | .releasing e _ _ | .leaving e => e.keys
  | _ => []

/-- What the thread read without owning the lock. -/
def seen : Pc V → List (Snapshot ℕ (Cell V))
  | .copying e key version => ⟨key, version, fun _ => True⟩ :: e.snapshots
  | .locking e victim g =>
    ⟨victim.key, g.version, fun _ => True⟩ :: victim.snapshot :: e.snapshots
  | .scanning e _ | .reading e _ | .evicting e | .rereading e _ _ | .writingBack e _ _
  | .removingHot e _ _ | .releasing e _ _ | .leaving e => e.snapshots
  | .hotLookup k g => [⟨k, g.version, fun _ => True⟩]
  | .coldLookup k g => [⟨k, g.version, fun c => c.hot = none⟩]
  | .upgrading k g v => [⟨k, g.version, fun c => c = ⟨none, some v⟩⟩]
  | .validating k g res =>
    if g.state = .writeLocked then [] else [⟨k, g.version, fun c => c.view = res⟩]
  | .putCas k _ g => [⟨k, g.version, fun _ => True⟩]
  | _ => []

/-- What the thread knows of its own variables. -/
def OwnFact : Pc V → Prop
  | .scanning e cursor => e.range.startKey ≤ cursor ∧ ∀ k ∈ e.keys, k < cursor
  | .hotLookup _ g | .coldLookup _ g | .upgrading _ g _ => g.state ≠ .writeLocked
  | _ => True

/-- What a thread knows. -/
structure Knows (cfg : Config) (w : World ℕ ℕ (Cell V)) (pc : Pc V) : Prop where
  owned : ∀ k g, pc.owned = some (k, g) →
    g = ⟨w.word (wordPos k), .writeLocked⟩ ∧ pc.CellFact cfg (w.cell k)
  seen : ∀ x ∈ pc.seen, x.Valid wordPos w
  present : ∀ k ∈ pc.pending, (w.cell k).hot ≠ none
  sorted : pc.pending.Pairwise (· < ·)
  inRange : ∀ e, pc.sweep = some e →
    ∀ k ∈ pc.pending, e.range.startKey ≤ k ∧ k ≤ e.range.endKey
  ownFact : pc.OwnFact

variable {cfg : Config} {w w' : World ℕ ℕ (Cell V)} {pc : Pc V} {k : ℕ} {g : OptimisticLockGuard}

lemma held_of_owned (h : pc.owned = some (k, g)) : pc.held = some k := by
  rw [held, h]
  rfl

lemma exists_owned (h : pc.held = some k) : ∃ g, pc.owned = some (k, g) := by
  obtain ⟨⟨k', g⟩, hg, rfl⟩ := Option.map_eq_some_iff.1 h
  exact ⟨g, hg⟩

/-- **What a thread knows survives the steps of the others**, if they leave its victims in the
hot tree. -/
lemma Knows.interferes (h : pc.Knows cfg w) (hw : Interferes wordPos pc.held w w')
    (hhot : ∀ k ∈ pc.pending, (w.cell k).hot ≠ none → (w'.cell k).hot ≠ none) :
    pc.Knows cfg w' where
  owned := fun k g hg => by
    obtain ⟨hword, hcell⟩ := hw.owned k (held_of_owned hg)
    rw [hword, hcell]
    exact h.owned k g hg
  seen := fun x hx => (h.seen x hx).mono hw.word_le hw.cell_of_even
  present := fun k hk => hhot k hk (h.present k hk)
  sorted := h.sorted
  inRange := h.inRange
  ownFact := h.ownFact

end Pc

end TwoTree.ConcurrentTwoBTree
