import TwoTree.Units
import TwoTree.Lib.Simulation

/-!
# The interface of the stores

Every adapter of the repository implements `StorageInterface`: `insert`, `update`, `put` and
`lookup`, and an `evict_a_bunch` that moves records between its tiers.  The two-tier adapters
share their configuration (`Config`).  This file states what such an adapter is for: `Op.apply`
is the map a client believes it is talking to, and `contents` that map after a sequence of calls
— the value last written to each key.

`insert` is called with a key that is absent and `update` and `put` with one that is present;
`Op.Admissible` is that contract.
-/

namespace TwoTree

variable {V : Type*}

/-- The configuration of a two-tier adapter: whether it is inclusive, and how often a record that
is read in the cold tier migrates to the hot one. -/
structure Config where
  inclusive : Bool
  lazyMigration : Bool
  lazyMigrationThreshold : ℕ
  deriving DecidableEq, Repr

namespace Config

/-- The configuration a constructor computes from its sampling rate. -/
def ofSamplingRate (inclusive : Bool) (rate : ℕ) : Config :=
  ⟨inclusive, rate < 100, if rate < 100 then rate else 10⟩

/-- `should_migrate`, with the random number it draws. -/
def shouldMigrate (cfg : Config) (draw : ℕ) : Bool :=
  if cfg.lazyMigration then draw < cfg.lazyMigrationThreshold else true

end Config

/-- The calls of a client, and the evictions that happen in between. -/
inductive Op (V : Type*)
  | insert (k : ℕ) (v : V)
  | update (k : ℕ) (v : V)
  | put (k : ℕ) (v : V)
  | lookup (k : ℕ)
  | evict
  deriving DecidableEq, Repr

namespace Op

/-- What a call does to the map the client sees. -/
def apply (m : ℕ → Option V) : Op V → ℕ → Option V
  | insert k v => Function.update m k (some v)
  | update k v => Function.update m k (some v)
  | put k v => Function.update m k (some v)
  | lookup _ => m
  | evict => m

/-- The contract of the calls. -/
def Admissible (m : ℕ → Option V) : Op V → Prop
  | insert k _ => m k = none
  | update k _ => m k ≠ none
  | put k _ => m k ≠ none
  | lookup _ => True
  | evict => True

/-- The call is an `update`. -/
def IsUpdate : Op V → Prop
  | update _ _ => True
  | _ => False

end Op

/-- The value last written to each key by a sequence of calls. -/
def contents (ops : List (Op V)) : ℕ → Option V :=
  ops.foldl Op.apply (fun _ => none)

lemma isSome_apply_iff {m : ℕ → Option V} {op : Op V} (h : op.Admissible m) (k : ℕ) :
    (op.apply m k).isSome ↔ (m k).isSome ∨ ∃ v, op = .insert k v := by
  cases op with
  | insert a v =>
    by_cases hk : k = a
    · simp [Op.apply, hk]
    · simp [Op.apply, hk, Ne.symm hk]
  | update a v =>
    by_cases hk : k = a
    · simp [Op.apply, hk, Option.isSome_iff_ne_none.2 h]
    · simp [Op.apply, hk]
  | put a v =>
    by_cases hk : k = a
    · simp [Op.apply, hk, Option.isSome_iff_ne_none.2 h]
    · simp [Op.apply, hk]
  | lookup a => simp [Op.apply]
  | evict => simp [Op.apply]

/-- **The keys a client can read are the keys it inserted.** -/
lemma isSome_contents_iff {ops : List (Op V)}
    (h : Lib.Admits Op.Admissible Op.apply (fun _ => none) ops) (k : ℕ) :
    (contents ops k).isSome ↔ ∃ v, Op.insert k v ∈ ops := by
  have hfold : ∀ (m : ℕ → Option V), Lib.Admits Op.Admissible Op.apply m ops →
      ((ops.foldl Op.apply m k).isSome ↔ (m k).isSome ∨ ∃ v, Op.insert k v ∈ ops) := by
    clear h
    induction ops with
    | nil => simp
    | cons op ops ih =>
      rintro m ⟨hop, hrest⟩
      rw [List.foldl_cons, ih _ hrest, isSome_apply_iff hop, or_assoc]
      simp only [List.mem_cons, exists_or, eq_comm]
  simpa [contents] using hfold _ h

end TwoTree
