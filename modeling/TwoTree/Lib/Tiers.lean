import TwoTree.Lib.Simulation

/-!
# Two tiers, one key at a time

A two-tier store keeps a small *hot* tier in front of a large *cold* one.  What it holds for
a single key is a `Cell`: the hot entry, if there is one, with a flag that says whether it
was written since it was copied up, and the cold entry, if there is one.  The hot entry
shadows the cold one, so the value of a key is `Cell.view`.

Everything a store does on its own account — without a client writing — is one of two moves
on a cell.  `Cell.demote` is an eviction: the hot entry goes, and what happens to the cold
one depends on the discipline.  `Cell.promote` is a migration: the cold entry is copied up as
a clean hot one.  There are two disciplines, told apart by one Boolean.  An *inclusive* store
leaves the cold copy in place when it promotes and writes back only flagged entries when it
demotes; an *exclusive* store holds each key once.

`Cell.Coherent` is the invariant of a discipline, and it is exactly what makes the two moves
invisible: `Cell.Maint.view_eq` says that no sequence of moves changes the value of a
coherent cell, and `Cell.lasting_iff` which cells of any kind keep their value through every
sequence of moves.  The client-side operations (`Cell.write`, `Cell.writeCold`)
make a coherent cell holding the written value out of any cell they apply to.

A whole store is a family of cells; `Holds` relates it to the map a client believes in.
-/

namespace TwoTree.Lib

variable {V : Type*}

/-- What a two-tier store holds for one key. -/
@[ext] structure Cell (V : Type*) where
  /-- The hot entry: the payload and whether it was modified since it was copied up. -/
  hot : Option (V × Bool)
  /-- The cold entry. -/
  cold : Option V

namespace Cell

variable {c : Cell V} {inclusive : Bool}

/-- The value of the key: the hot entry shadows the cold one. -/
def view (c : Cell V) : Option V :=
  match c.hot with
  | some p => some p.1
  | none => c.cold

/-- An eviction.  The inclusive store writes back a modified entry and drops a clean one;
the exclusive store inserts the entry into the cold tier, and an insertion over an existing
entry is refused. -/
def demote (inclusive : Bool) (c : Cell V) : Cell V :=
  match c.hot with
  | none => c
  | some (v, modified) =>
    ⟨none, if inclusive then (if modified then some v else c.cold)
      else (match c.cold with | some w => some w | none => some v)⟩

/-- What a demotion of the entry `d` leaves in the cold tier. -/
def demoted (inclusive : Bool) (d : V × Bool) (cold : Option V) : Option V :=
  (demote inclusive ⟨some d, cold⟩).cold

/-- A migration: the cold entry is copied up clean, and an exclusive store drops it below. -/
def promote (inclusive : Bool) (c : Cell V) : Cell V :=
  match c.hot, c.cold with
  | none, some v => ⟨some (v, false), if inclusive then some v else none⟩
  | _, _ => c

/-- A write that lands in the hot tier. -/
def write (inclusive : Bool) (v : V) (c : Cell V) : Cell V :=
  ⟨some (v, true), if inclusive then c.cold else none⟩

/-- A write that overwrites a hot entry in place, and lands in the hot tier otherwise. -/
def put (inclusive : Bool) (v : V) (c : Cell V) : Cell V :=
  match c.hot with
  | some _ => ⟨some (v, true), c.cold⟩
  | none => c.write inclusive v

/-- The invariant of a discipline.  Inclusive: a hot entry that is not flagged as modified
has its copy in the cold tier.  Exclusive: a key with a hot entry has no cold one. -/
def Coherent (inclusive : Bool) (c : Cell V) : Prop :=
  ∀ v modified, c.hot = some (v, modified) →
    if inclusive then modified = false → c.cold = some v else c.cold = none

/-! ## The value of a cell -/

@[simp] lemma view_none_hot (w : Option V) : (⟨none, w⟩ : Cell V).view = w := rfl

@[simp] lemma view_some_hot (p : V × Bool) (w : Option V) :
    (⟨some p, w⟩ : Cell V).view = some p.1 := rfl

lemma view_of_hot {p : V × Bool} (h : c.hot = some p) : c.view = some p.1 := by
  simp [view, h]

lemma view_of_hot_none (h : c.hot = none) : c.view = c.cold := by
  simp [view, h]

@[simp] lemma view_write (inclusive : Bool) (v : V) (c : Cell V) :
    (c.write inclusive v).view = some v := rfl

/-! ## Coherence -/

lemma coherent_of_hot_none (h : c.hot = none) :
    c.Coherent inclusive := by
  intro v modified hc
  simp [h] at hc

lemma coherent_inclusive_some {v : V} {modified : Bool} {w : Option V} :
    (⟨some (v, modified), w⟩ : Cell V).Coherent true ↔ (modified = false → w = some v) := by
  constructor
  · intro h
    simpa using h v modified rfl
  · intro h v' modified' hc
    obtain ⟨rfl, rfl⟩ : v = v' ∧ modified = modified' := by simpa using hc
    simpa using h

lemma coherent_exclusive_some {p : V × Bool} {w : Option V} :
    (⟨some p, w⟩ : Cell V).Coherent false ↔ w = none := by
  constructor
  · intro h
    simpa using h p.1 p.2 rfl
  · intro h v' modified' _
    simpa using h

lemma Coherent.cold_none (h : c.Coherent false) {p : V × Bool}
    (hp : c.hot = some p) : c.cold = none := by
  simpa using h p.1 p.2 hp

lemma coherent_write (inclusive : Bool) (v : V) (c : Cell V) :
    (c.write inclusive v).Coherent inclusive := by
  cases inclusive
  · exact coherent_exclusive_some.2 rfl
  · exact coherent_inclusive_some.2 (by simp)

/-- On a coherent cell an overwrite in place is a write. -/
lemma put_of_coherent (hc : c.Coherent inclusive) (v : V) :
    c.put inclusive v = c.write inclusive v := by
  rcases hhot : c.hot with _ | p
  · simp [put, hhot]
  · cases inclusive
    · simp [put, hhot, write, hc.cold_none hhot]
    · simp [put, hhot, write]

lemma demote_hot (inclusive : Bool) (c : Cell V) : (c.demote inclusive).hot = none := by
  rcases h : c.hot with _ | ⟨v, modified⟩ <;> simp [demote, h]

lemma demote_some (inclusive : Bool) (d : V × Bool) (cold : Option V) :
    demote inclusive ⟨some d, cold⟩ = ⟨none, demoted inclusive d cold⟩ := rfl

lemma coherent_demote (inclusive : Bool) (c : Cell V) :
    (c.demote inclusive).Coherent inclusive :=
  coherent_of_hot_none (demote_hot inclusive c)

lemma coherent_promote (h : c.Coherent inclusive) :
    (c.promote inclusive).Coherent inclusive := by
  obtain ⟨hot, cold⟩ := c
  rcases hot with _ | p
  · rcases cold with _ | v
    · exact h
    · cases inclusive
      · exact coherent_exclusive_some.2 rfl
      · exact coherent_inclusive_some.2 (by simp)
  · exact h

/-! ## The two moves do not change the value of a coherent cell -/

lemma view_demote (h : c.Coherent inclusive) :
    (c.demote inclusive).view = c.view := by
  obtain ⟨hot, cold⟩ := c
  rcases hot with _ | ⟨v, modified⟩
  · rfl
  cases inclusive
  · obtain rfl := coherent_exclusive_some.1 h
    rfl
  · cases modified
    · obtain rfl := coherent_inclusive_some.1 h rfl
      rfl
    · rfl

lemma view_promote (inclusive : Bool) (c : Cell V) : (c.promote inclusive).view = c.view := by
  obtain ⟨hot, cold⟩ := c
  rcases hot with _ | p <;> rcases cold with _ | v <;> rfl

/-- One move of the store. -/
def Move (inclusive : Bool) (c c' : Cell V) : Prop :=
  c' = c.demote inclusive ∨ c' = c.promote inclusive

/-- Any number of moves. -/
def Maint (inclusive : Bool) : Cell V → Cell V → Prop :=
  Relation.ReflTransGen (Move inclusive)

namespace Maint

variable {inclusive : Bool} {c c' c'' : Cell V}

lemma refl (c : Cell V) : Maint inclusive c c := Relation.ReflTransGen.refl

lemma of_eq (h : c' = c) : Maint inclusive c c' := h ▸ refl c'

lemma demote (inclusive : Bool) (c : Cell V) : Maint inclusive c (c.demote inclusive) :=
  Relation.ReflTransGen.single (Or.inl rfl)

lemma promote (inclusive : Bool) (c : Cell V) : Maint inclusive c (c.promote inclusive) :=
  Relation.ReflTransGen.single (Or.inr rfl)

variable (h : Maint inclusive c c')
include h

lemma trans (h' : Maint inclusive c' c'') : Maint inclusive c c'' :=
  Relation.ReflTransGen.trans h h'

/-- **Moves keep the discipline's invariant.** -/
lemma coherent (hc : c.Coherent inclusive) : c'.Coherent inclusive := by
  induction h with
  | refl => exact hc
  | tail _ hmove ih =>
    rcases hmove with rfl | rfl
    · exact coherent_demote inclusive _
    · exact coherent_promote ih

/-- **Moves do not change the value of a coherent cell.** -/
lemma view_eq (hc : c.Coherent inclusive) : c'.view = c.view := by
  induction h with
  | refl => rfl
  | tail hpre hmove ih =>
    have hmid : Coherent inclusive _ := coherent hpre hc
    rcases hmove with rfl | rfl
    · rw [view_demote hmid, ih]
    · rw [view_promote, ih]

end Maint

/-! ## Values that last -/

/-- The value of the cell is `v`, and would still be `v` after a demotion. -/
def Lasting (inclusive : Bool) (v : V) (c : Cell V) : Prop :=
  c.view = some v ∧ (c.demote inclusive).view = some v

lemma demote_of_hot_none (inclusive : Bool) (h : c.hot = none) :
    c.demote inclusive = c := by
  simp [demote, h]

lemma demote_demote (inclusive : Bool) (c : Cell V) :
    (c.demote inclusive).demote inclusive = c.demote inclusive :=
  demote_of_hot_none inclusive (demote_hot inclusive c)

lemma Lasting.demote {v : V} (h : c.Lasting inclusive v) :
    (c.demote inclusive).Lasting inclusive v :=
  ⟨h.2, by rw [demote_demote]; exact h.2⟩

lemma Lasting.promote {v : V} (h : c.Lasting inclusive v) :
    (c.promote inclusive).Lasting inclusive v := by
  refine ⟨by rw [view_promote]; exact h.1, ?_⟩
  obtain ⟨hot, cold⟩ := c
  rcases hot with _ | p
  · obtain rfl : cold = some v := h.1
    cases inclusive <;> rfl
  · exact h.2

/-- **A value outlives all maintenance exactly when it outlives one demotion.**  For a coherent
cell it always does; a cell that keeps a value without being coherent holds that value twice. -/
lemma lasting_iff {v : V} :
    c.Lasting inclusive v ↔ ∀ c', Maint inclusive c c' → c'.view = some v := by
  constructor
  · intro h c' hc'
    have hlast : c'.Lasting inclusive v := by
      induction hc' with
      | refl => exact h
      | tail _ hmove ih =>
        rcases hmove with rfl | rfl
        · exact ih.demote
        · exact ih.promote
    exact hlast.1
  · intro h
    exact ⟨h c (Maint.refl c), h _ (Maint.demote inclusive c)⟩

/-! ## A cold tier that takes every write

If the cold tier overwrites what it has, an exclusive store may keep an old cold copy below a hot
entry: the eviction of the hot entry replaces it. -/

/-- An eviction into a cold tier that takes every write. -/
def flush (inclusive : Bool) (c : Cell V) : Cell V :=
  match c.hot with
  | none => c
  | some (v, modified) => ⟨none, if inclusive && !modified then c.cold else some v⟩

/-- In an inclusive store, a hot entry that is not flagged as modified has its copy in the cold
tier. -/
def Backed (inclusive : Bool) (c : Cell V) : Prop :=
  inclusive = true → ∀ v, c.hot = some (v, false) → c.cold = some v

lemma flush_of_hot_none (inclusive : Bool) (h : c.hot = none) :
    c.flush inclusive = c := by
  simp [flush, h]

lemma flush_hot (inclusive : Bool) (c : Cell V) : (c.flush inclusive).hot = none := by
  rcases h : c.hot with _ | ⟨v, modified⟩ <;> simp [flush, h]

lemma flush_flush (inclusive : Bool) (c : Cell V) :
    (c.flush inclusive).flush inclusive = c.flush inclusive :=
  flush_of_hot_none inclusive (flush_hot inclusive c)

lemma backed_of_hot_none (inclusive : Bool) (h : c.hot = none) :
    c.Backed inclusive := by
  intro _ v hv
  simp [h] at hv

lemma view_flush (h : c.Backed inclusive) :
    (c.flush inclusive).view = c.view := by
  obtain ⟨hot, cold⟩ := c
  rcases hot with _ | ⟨v, modified⟩
  · rfl
  cases inclusive
  · rfl
  · cases modified
    · obtain rfl : cold = some v := h rfl v rfl
      rfl
    · rfl

/-- The cold copy of a clean entry outlives its eviction. -/
lemma cold_flush_of_clean {v : V} (h : c.hot = some (v, false)) :
    (c.flush true).cold = c.cold := by
  simp [flush, h]

end Cell

/-! ## Stores -/

/-- A store, as a family of cells, holds the map `m`: every cell keeps the discipline, and its
value is the map's. -/
structure Holds {κ : Type*} (inclusive : Bool) (c : κ → Cell V) (m : κ → Option V) : Prop where
  coherent : ∀ k, (c k).Coherent inclusive
  view : ∀ k, (c k).view = m k

namespace Holds

variable {κ : Type*} {inclusive : Bool} {c c' : κ → Cell V} {m : κ → Option V}

/-- **Maintenance of the cells is invisible to the map.** -/
lemma maint (h : Holds inclusive c m) (hmaint : ∀ k, Cell.Maint inclusive (c k) (c' k)) :
    Holds inclusive c' m where
  coherent := fun k => (hmaint k).coherent (h.coherent k)
  view := fun k => ((hmaint k).view_eq (h.coherent k)).trans (h.view k)

/-- **Setting a cell to a coherent one writes its value into the map.** -/
lemma set [DecidableEq κ] (h : Holds inclusive c m) {k : κ} {x : Option V}
    (hother : ∀ a, a ≠ k → c' a = c a) (hcoherent : (c' k).Coherent inclusive)
    (hview : (c' k).view = x) : Holds inclusive c' (Function.update m k x) := by
  refine ⟨fun a => ?_, fun a => ?_⟩ <;> rcases eq_or_ne a k with rfl | ha
  · exact hcoherent
  · rw [hother a ha]
    exact h.coherent a
  · rw [hview, Function.update_self]
  · rw [hother a ha, h.view a, Function.update_of_ne ha]

lemma absent (h : Holds inclusive c m) {k : κ} (hk : m k = none) : c k = ⟨none, none⟩ := by
  have hview := (h.view k).trans hk
  rcases hc : c k with ⟨_ | p, cold⟩
  · simpa [hc] using hview
  · simp [hc] at hview

/-- A key that the map has and the hot tier does not is in the cold tier. -/
lemma cold_of_hot_none (h : Holds inclusive c m) {k : κ} (hhot : (c k).hot = none) :
    (c k).cold = m k := by
  rw [← h.view k, Cell.view_of_hot_none hhot]

end Holds

/-- Some cells have been demoted, and the others are as they were. -/
abbrev Demotes {κ : Type*} (inclusive : Bool) : (κ → Cell V) → (κ → Cell V) → Prop :=
  Applied (Cell.demote inclusive)

namespace Demotes

variable {κ : Type*} {inclusive : Bool} {c c' : κ → Cell V} {m : κ → Option V}

lemma holds (h : Demotes inclusive c c') (hm : Holds inclusive c m) : Holds inclusive c' m := by
  refine hm.maint (fun k => ?_)
  rcases h k with hk | hk
  · exact .of_eq hk
  · exact hk ▸ .demote _ _

/-- A key without a hot entry is left alone. -/
lemma eq_of_hot_none (h : Demotes inclusive c c') {k : κ} (hk : (c k).hot = none) :
    c' k = c k := by
  rcases h k with h' | h'
  · exact h'
  · rw [h', Cell.demote_of_hot_none inclusive hk]

end Demotes

end TwoTree.Lib
