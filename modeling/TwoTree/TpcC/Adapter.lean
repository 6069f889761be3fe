import TwoTree.Lib.Visit
import TwoTree.TpcC.Keys

/-!
# The scans of the TPC-C adapter

`LeanStoreBTreeAdapter` keeps the records of a table in a tree, under the bytes of their keys.  Its scans
hand every record that the scan of the tree finds to a callback, until the callback does not want more.
They also end at the first key whose bytes are not as many as those of the start key.

For tables whose keys are integers this does not happen.  The keys of `customer_wdl_t` end with two strings,
and a scan for a last name starts from a key with an empty first name: it ends at the first customer
(`scan_misses_customer`).  A scan is right if and only if all records it should visit have keys of the
start key's length (`scan_eq_visit_iff`).
-/

namespace TwoTree.TpcC

open Lib.OrderedCode Lib.Visit List

variable {ts : List FieldType} {Record σ κ ρ : Type*}

/-- A table: records with different keys, in the order of their keys. -/
structure Table (ts : List FieldType) (Record : Type*) where
  records : List (Key ts × Record)
  sorted : records.Pairwise (fun p q => Key.lt ts p.1 q.1)

/-- A record as the tree holds it. -/
def folded (p : Key ts × Record) : List UInt8 × Record := (foldRecord ts p.1, p.2)

/-- `scanAsc` of a tree. -/
def scanAsc (tree : List (List UInt8 × ρ)) (key : List UInt8) (fn : Callback σ (List UInt8) ρ) (s : σ) :
    σ :=
  visit fn s (tree.filter (fun p => ¬ p.1 < key))

/-- `scanDesc` of a tree. -/
def scanDesc (tree : List (List UInt8 × ρ)) (key : List UInt8) (fn : Callback σ (List UInt8) ρ) (s : σ) :
    σ :=
  visit fn s (tree.filter (fun p => ¬ key < p.1)).reverse

/-- The callback that the adapter passes to the tree. -/
def typedCallback (ts : List FieldType) (foldedKeyLen : ℕ) (fn : Callback σ (Key ts) ρ) :
    Callback σ (List UInt8) ρ := fun s key payload =>
  if key.length ≠ foldedKeyLen then (s, false)
  else
    match unfoldRecord ts key with
    | some typedKey => fn s typedKey payload
    | none => (s, false)

namespace LeanStoreBTreeAdapter

/-- `LeanStoreBTreeAdapter::scan`. -/
def scan (t : Table ts Record) (key : Key ts) (fn : Callback σ (Key ts) Record) (s : σ) : σ :=
  scanAsc (t.records.map folded) (foldRecord ts key)
    (typedCallback ts (foldRecord ts key).length fn) s

/-- `LeanStoreBTreeAdapter::scanDesc`. -/
def scanDesc (t : Table ts Record) (key : Key ts) (fn : Callback σ (Key ts) Record) (s : σ) : σ :=
  TpcC.scanDesc (t.records.map folded) (foldRecord ts key)
    (typedCallback ts (foldRecord ts key).length fn) s

end LeanStoreBTreeAdapter

/-- The records from a key on. -/
def Table.atOrAbove (t : Table ts Record) (key : Key ts) : List (Key ts × Record) :=
  t.records.filter (fun p => ¬ Key.lt ts p.1 key)

/-- The records up to a key, the last one first. -/
def Table.atOrBelow (t : Table ts Record) (key : Key ts) : List (Key ts × Record) :=
  (t.records.filter (fun p => ¬ Key.lt ts key p.1)).reverse

/-- The keys of all records on which the callback is called have as many bytes as the start key. -/
def SameLength (key : Key ts) (calls : List (Key ts × Record)) : Prop :=
  ∀ p ∈ calls, (foldRecord ts p.1).length = (foldRecord ts key).length

/-! ## Proofs -/

lemma typedCallback_foldRecord {fn : Callback σ (Key ts) ρ} {n : ℕ} {s : σ} {k : Key ts} {r : ρ}
    (h : (foldRecord ts k).length = n) : typedCallback ts n fn s (foldRecord ts k) r = fn s k r := by
  have hkey : unfoldRecord ts (foldRecord ts k) = some k := by
    have happend := unfoldRecord_append ts k []
    rwa [append_nil] at happend
  simp [typedCallback, h, hkey]

lemma typedCallback_of_length_ne {fn : Callback σ (Key ts) ρ} {n : ℕ} {s : σ} {key : List UInt8} {r : ρ}
    (h : key.length ≠ n) : typedCallback ts n fn s key r = (s, false) := by
  simp [typedCallback, h]

/-- **The adapter's callback does what it should on a list of records if and only if the keys have the
right length.**  The induction is on the records; the first key of another length ends the scan of the
adapter, while the callback should have been called. -/
lemma visit_typedCallback_eq_iff (fn : Callback σ (Key ts) Record) (n : ℕ) (s : σ)
    (log l : List (Key ts × Record)) :
    visit (typedCallback ts n (logged fn)) (s, log) (l.map folded) = visit (logged fn) (s, log) l ↔
      ∀ p ∈ visited fn s l, (foldRecord ts p.1).length = n := by
  induction l generalizing s log with
  | nil => simp [visit, visited]
  | cons p l ih =>
    obtain ⟨k, r⟩ := p
    by_cases hlength : (foldRecord ts k).length = n
    · by_cases hgo : (fn s k r).2 = true
      · simp only [map_cons, folded, visit, visited, typedCallback_foldRecord hlength, logged,
          hgo, if_true, forall_mem_cons, hlength, true_and]
        exact ih (fn s k r).1 (log ++ [(k, r)])
      · simp [folded, visit, visited, typedCallback_foldRecord hlength, logged, hgo, forall_mem_cons, hlength, false_imp_iff]
    · constructor
      · intro heq
        have hlog := congrArg Prod.snd heq
        rw [visit_logged_snd] at hlog
        simp [folded, visit, visited, typedCallback_of_length_ne hlength] at hlog
      · intro hall
        exact absurd (hall (k, r) mem_cons_self) hlength

/-- The tree's records from the start key on are those of the table. -/
lemma filter_folded (l : List (Key ts × Record)) (key : Key ts) :
    (l.map folded).filter (fun p => ¬ p.1 < foldRecord ts key) =
      (l.filter (fun p => ¬ Key.lt ts p.1 key)).map folded := by
  rw [filter_map]
  congr 2
  funext p
  simp only [Function.comp_apply, folded, (foldRecord_orderedCode ts).lt_iff]

lemma filter_folded_ge (l : List (Key ts × Record)) (key : Key ts) :
    (l.map folded).filter (fun p => ¬ foldRecord ts key < p.1) =
      (l.filter (fun p => ¬ Key.lt ts key p.1)).map folded := by
  rw [filter_map]
  congr 2
  funext p
  simp only [Function.comp_apply, folded, (foldRecord_orderedCode ts).lt_iff]

/-- **When the scans are right.**  For every table, start key and callback, a scan calls the callback on
exactly the records at or above the start key in key order, until it returns `false`, if and only if the
keys of these records are as long as the start key; and likewise downwards. -/
theorem scan_eq_visit_iff (ts : List FieldType) (Record σ : Type) (t : Table ts Record)
    (key : Key ts) (fn : Callback σ (Key ts) Record) (s : σ) :
    (LeanStoreBTreeAdapter.scan t key (logged fn) (s, []) = visit (logged fn) (s, []) (t.atOrAbove key) ↔
      SameLength key (visited fn s (t.atOrAbove key))) ∧
    (LeanStoreBTreeAdapter.scanDesc t key (logged fn) (s, []) =
        visit (logged fn) (s, []) (t.atOrBelow key) ↔
      SameLength key (visited fn s (t.atOrBelow key))) := by
  constructor
  · rw [LeanStoreBTreeAdapter.scan, scanAsc, filter_folded]
    exact visit_typedCallback_eq_iff fn _ s [] (t.atOrAbove key)
  · rw [LeanStoreBTreeAdapter.scanDesc, scanDesc, filter_folded_ge, ← List.map_reverse]
    exact visit_typedCallback_eq_iff fn _ s [] (t.atOrBelow key)

/-- The fields of `customer_wdl_t::Key`. -/
def customerWdl : List FieldType := [.integer, .integer, .varchar 16, .varchar 16]

/-- The customer `BAR` of warehouse 1 and district 1, with the first name `A`. -/
def oneCustomer : Table customerWdl ℕ :=
  ⟨[(((1 : Int32), (1 : Int32), (⟨[66, 65, 82], by decide, by decide⟩ : Varchar 16),
      (⟨[65], by decide, by decide⟩ : Varchar 16), ()), 7)], List.pairwise_singleton _ _⟩

/-- The key from which `orderStatusName` scans. -/
def startOfName : Key customerWdl :=
  ((1 : Int32), (1 : Int32), (⟨[66, 65, 82], by decide, by decide⟩ : Varchar 16),
    (⟨[], by decide, by decide⟩ : Varchar 16), ())

/-- **A scan misses the customer it looks for**, since the first name makes the key longer. -/
theorem scan_misses_customer :
    (LeanStoreBTreeAdapter.scan oneCustomer startOfName (logged (fun s _ _ => (s, true))) ((), [])).2.map
      Prod.snd = [] ∧
    (visit (logged (fun s _ _ => (s, true))) ((), []) (oneCustomer.atOrAbove startOfName)).2.map Prod.snd =
      [7] := by
  decide

end TwoTree.TpcC
