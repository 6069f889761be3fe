import TwoTree.BidirectionalMigration.Adapter

/-!
# What the operations do to the tables

`Adapter.view` is what a reader sees.  A flush sees less, the newest record among the memtables it
has taken (`CarriesAt`), and it writes that record once more if it is marked (`OffersAt`).

`Shift` lists what an operation may do to the tables as far as a flush is concerned.  The records of
immutable memtables keep their payloads, and a record gets marked only if it is the one a reader
sees.  At the end of a flush its own records go, those of others stay.
-/

namespace TwoTree.BidirectionalMigration

open Std Lib Lib.OrderedMap Lib.Levels LockManager Function

variable {V : Type*}

namespace Adapter

/-- What a reader sees. -/
def view (a : Adapter V) (k : ℕ) : Option V := (a.record k).map (fun r => r.2.payload)

/-- The newest record of the key in a range of tables has the payload `v`. -/
def CarriesAt (a : Adapter V) (first num k : ℕ) (v : V) : Prop :=
  ∃ i tp, newest a.tables k first num = some (i, tp) ∧ tp.payload = v

/-- That record is marked, so that a flush of the range writes it once more. -/
def OffersAt (a : Adapter V) (first num k : ℕ) (v : V) : Prop :=
  ∃ i tp, newest a.tables k first num = some (i, tp) ∧ tp.migrated = true ∧ tp.ref = true ∧
    tp.payload = v

/-- A table from number `lo` on has a record of the key. -/
def SupersededFrom (a : Adapter V) (lo k : ℕ) : Prop :=
  ∃ i, lo ≤ i ∧ i ≤ a.active ∧ (a.tables i)[k]? ≠ none

/-- What an operation does to the tables.  If it is the end of a flush, `gone` is that flush. -/
structure Shift (gone : Option Flush) (a a' : Adapter V) : Prop where
  active_le : a.active ≤ a'.active
  carries : ∀ first num k v, first + num ≤ a.active →
    (∀ f ∈ gone, first + num ≤ f.first ∨ f.first + f.num ≤ first) →
    (a'.CarriesAt first num k v ↔ a.CarriesAt first num k v)
  offers : ∀ first num k v, first + num ≤ a.active →
    (∀ f ∈ gone, first + num ≤ f.first ∨ f.first + f.num ≤ first) →
    a'.OffersAt first num k v → a.OffersAt first num k v ∨ a.view k = some v
  superseded : ∀ lo k, (∀ f ∈ gone, ∀ k ∈ f.dropped, a.SupersededFrom (f.first + f.num) k) →
    a.SupersededFrom lo k → a'.SupersededFrom lo k

variable {a : Adapter V} {k i first num : ℕ} {v : V} {tp tp' : TaggedPayload V}

lemma OffersAt.carries (h : a.OffersAt first num k v) : a.CarriesAt first num k v := by
  obtain ⟨i, tp, hnewest, -, -, hv⟩ := h
  exact ⟨i, tp, hnewest, hv⟩

lemma view_of_record (h : a.record k = some (i, tp)) : a.view k = some tp.payload := by
  rw [view, h]
  rfl

/-- The newest record of the uppermost range is what a reader sees. -/
lemma CarriesAt.view_eq (h : a.CarriesAt first num k v) (hall : first + num = a.active + 1) :
    a.view k = some v := by
  obtain ⟨i, tp, hnewest, rfl⟩ := h
  have hrecord : a.record k = some (i, tp) := by
    rw [record, ← hall, newest_add, zero_add, hnewest]
    rfl
  exact view_of_record hrecord

/-! ## Operations that leave the tables alone -/

lemma Shift.of_tables_eq {a' : Adapter V} (htables : a'.tables = a.tables)
    (hactive : a'.active = a.active) : Shift none a a' where
  active_le := hactive.ge
  carries := fun _ _ _ _ _ _ => by rw [CarriesAt, CarriesAt, htables]
  offers := fun _ _ _ _ _ _ h => Or.inl (by rwa [OffersAt, htables] at h)
  superseded := fun _ _ _ h => by rwa [SupersededFrom, htables, hactive]

lemma view_of_tables_eq {a' : Adapter V} (htables : a'.tables = a.tables)
    (hactive : a'.active = a.active) : a'.view = a.view := by
  funext k
  rw [view, view, record, record, htables, hactive]

/-! ## Flags -/

section

variable (h : (a.tables i)[k]? = some tp)
include h

/-- A record whose flags are changed where it is. -/
lemma newest_setRecord (k' first num : ℕ) : newest (a.setRecord i k tp').tables k' first num =
      (newest a.tables k' first num).map
        (fun r => if k' = k ∧ r.1 = i then (i, tp') else r) :=
  newest_replace h first num

variable (hpayload : tp'.payload = tp.payload)
include hpayload

lemma carriesAt_setRecord (first num k' : ℕ) (v : V) :
    (a.setRecord i k tp').CarriesAt first num k' v ↔ a.CarriesAt first num k' v := by
  simp only [CarriesAt, newest_setRecord h]
  rcases hnewest : newest a.tables k' first num with _ | ⟨j, tp₀⟩
  · simp
  by_cases hki : k' = k ∧ j = i
  · obtain ⟨rfl, rfl⟩ := hki
    obtain rfl : tp = tp₀ := Option.some.inj (h.symm.trans (newest_mem hnewest).2.2)
    simp [hpayload]
  · simp [hki]

lemma view_setRecord : (a.setRecord i k tp').view = a.view := by
  funext k'
  have hcarries := carriesAt_setRecord h hpayload 0 (a.active + 1) k'
  refine Option.ext (fun v => ?_)
  have hiff : ∀ b : Adapter V, b.view k' = some v ↔ b.CarriesAt 0 (b.active + 1) k' v := by
    intro b
    simp [view, record, CarriesAt]
  rw [hiff, hiff]
  exact hcarries v

/-- A change of flags that marks a record only if a reader sees it. -/
lemma shift_setRecord (hmark : tp'.ref = true → a.view k = some tp.payload) : Shift none a (a.setRecord i k tp') where
  active_le := le_rfl
  carries := fun first num k' v _ _ => carriesAt_setRecord h hpayload first num k' v
  offers := fun first num k' v _ _ hoffers => by
    obtain ⟨j, tp₁, hnewest, hmigrated, href, rfl⟩ := hoffers
    rw [newest_setRecord h] at hnewest
    obtain ⟨⟨j₀, tp₀⟩, hnewest₀, hr⟩ := Option.map_eq_some_iff.1 hnewest
    split_ifs at hr with hki
    · obtain ⟨rfl, rfl⟩ := hki
      obtain ⟨rfl, rfl⟩ := Prod.mk.inj hr
      exact Or.inr (by rw [hpayload]; exact hmark href)
    · obtain ⟨rfl, rfl⟩ := Prod.mk.inj hr
      exact Or.inl ⟨j₀, tp₀, hnewest₀, hmigrated, href, rfl⟩
  superseded := fun lo k' _ hsup => by
    obtain ⟨j, hlo, hj, hne⟩ := hsup
    refine ⟨j, hlo, hj, ?_⟩
    rcases eq_or_ne j i with rfl | hji
    · simp only [setRecord, update_self, getElem?_insert]
      split_ifs
      · simp
      · exact hne
    · simpa [setRecord, update_of_ne hji] using hne

end

/-! ## Reads and writes -/

/-- **A read changes nothing but the mark of the record it finds.** -/
lemma get_spec (a : Adapter V) (k : ℕ) :
    (a.get k).2 = a.view k ∧ (a.get k).1.view = a.view ∧ Shift none a (a.get k).1 ∧
      (a.get k).1.lockTable = a.lockTable ∧ (a.get k).1.active = a.active ∧
      (a.get k).1.picked = a.picked ∧
      (a.get k).1.lockTableSnapshots = a.lockTableSnapshots := by
  unfold get
  rcases hrecord : a.record k with _ | ⟨i, tp⟩
  · exact ⟨by rw [view, hrecord]; rfl, rfl, .of_tables_eq rfl rfl, rfl, rfl, rfl, rfl⟩
  have htable := (newest_mem hrecord).2.2
  have hview := view_of_record hrecord
  dsimp only
  split_ifs
  · exact ⟨hview.symm, rfl, .of_tables_eq rfl rfl, rfl, rfl, rfl, rfl⟩
  · exact ⟨hview.symm, view_setRecord htable rfl, shift_setRecord htable rfl (fun _ => hview),
      rfl, rfl, rfl, rfl⟩

lemma newest_dbPut (a : Adapter V) (k : ℕ) (tp : TaggedPayload V) (k' : ℕ)
    (h : first + num ≤ a.active) :
    newest (a.dbPut k tp).tables k' first num = newest a.tables k' first num :=
  newest_congr (fun j _ hj => by
    simp only [dbPut, setRecord]
    rw [update_of_ne (by omega)])

lemma view_dbPut (a : Adapter V) (k : ℕ) (tp : TaggedPayload V) :
    (a.dbPut k tp).view = update a.view k (some tp.payload) := by
  funext k'
  have htable : ((a.dbPut k tp).tables (0 + a.active))[k']? =
      if k = k' then some tp else (a.tables (0 + a.active))[k']? := by
    simp [dbPut, setRecord, getElem?_insert]
  have hbelow := newest_dbPut a k tp k' (zero_add a.active).le
  have hrecord : (a.dbPut k tp).record k' =
      if k = k' then some (a.active, tp) else a.record k' := by
    rw [record, record]
    change newest (a.dbPut k tp).tables k' 0 (a.active + 1) = _
    rw [newest_succ, newest_succ, htable, hbelow, zero_add]
    split_ifs <;> simp
  rcases eq_or_ne k' k with rfl | hk
  · rw [view, hrecord, if_pos rfl, update_self]
    rfl
  · rw [view, hrecord, if_neg hk.symm, update_of_ne hk]
    rfl

lemma offersAt_dbPut (a : Adapter V) (k : ℕ) (tp : TaggedPayload V) {k' : ℕ} {v : V}
    (h : first + num ≤ a.active) :
    (a.dbPut k tp).OffersAt first num k' v ↔ a.OffersAt first num k' v := by
  rw [OffersAt, OffersAt, newest_dbPut a k tp k' h]

lemma shift_dbPut (a : Adapter V) (k : ℕ) (tp : TaggedPayload V) : Shift none a (a.dbPut k tp) := by
  refine ⟨le_rfl, fun first num k' v hle _ => ?_,
    fun first num k' v hle _ h => Or.inl ((offersAt_dbPut a k tp hle).1 h), fun lo k' _ hsup => ?_⟩
  · rw [CarriesAt, CarriesAt, newest_dbPut a k tp k' hle]
  obtain ⟨j, hlo, hj, hne⟩ := hsup
  refine ⟨j, hlo, hj, ?_⟩
  rcases eq_or_ne j a.active with rfl | hja
  · simp only [dbPut, setRecord, update_self, getElem?_insert]
    split_ifs
    · simp
    · exact hne
  · simpa [dbPut, setRecord, update_of_ne hja] using hne

lemma supersededFrom_dbPut (a : Adapter V) (k : ℕ) (tp : TaggedPayload V) {lo : ℕ}
    (h : lo ≤ a.active) : (a.dbPut k tp).SupersededFrom lo k :=
  ⟨a.active, h, le_rfl, by simp [dbPut, setRecord]⟩

/-! ## Memtables -/

lemma view_memtableSwitch (a : Adapter V) : a.memtableSwitch.view = a.view := by
  funext k
  have hbelow : newest a.memtableSwitch.tables k 0 (a.active + 1) =
      newest a.tables k 0 (a.active + 1) := newest_congr (fun j _ hj => by
    simp only [memtableSwitch]
    rw [update_of_ne (by omega)])
  rw [view, view, record, record]
  change (newest a.memtableSwitch.tables k 0 (a.active + 1 + 1)).map _ = _
  rw [newest_succ, hbelow]
  simp [memtableSwitch]

lemma shift_memtableSwitch (a : Adapter V) : Shift none a a.memtableSwitch := by
  have hbelow : ∀ first num k', first + num ≤ a.active + 1 →
      newest a.memtableSwitch.tables k' first num = newest a.tables k' first num :=
    fun first num k' hle => newest_congr (fun j _ hj => by
      simp only [memtableSwitch]
      rw [update_of_ne (by omega)])
  refine ⟨Nat.le_succ _, fun first num k' v hle _ => ?_, fun first num k' v hle _ h => Or.inl ?_,
    fun lo k' _ hsup => ?_⟩
  · rw [CarriesAt, CarriesAt, hbelow first num k' (by omega)]
  · rwa [OffersAt, hbelow first num k' (by omega)] at h
  · obtain ⟨j, hlo, hj, hne⟩ := hsup
    refine ⟨j, hlo, Nat.le_succ_of_le hj, ?_⟩
    simp only [memtableSwitch]
    rwa [update_of_ne (by omega)]

/-- What is left of a table at the end of a flush. -/
lemma getElem?_foldl_erase (dropped : List ℕ) (t : TreeMap ℕ (TaggedPayload V)) (k : ℕ) :
    (dropped.foldl TreeMap.erase t)[k]? = if k ∈ dropped then none else t[k]? := by
  induction dropped generalizing t with
  | nil => simp
  | cons k' dropped ih =>
    rw [List.foldl_cons, ih, getElem?_erase]
    by_cases hk : k' = k
    · simp [hk]
    · simp [hk, Ne.symm hk]

lemma tables_flushEnd (a : Adapter V) (f : Flush) (i k : ℕ) :
    ((a.flushEnd f).tables i)[k]? =
      if (f.first ≤ i ∧ i < f.first + f.num) ∧ k ∈ f.dropped then none else (a.tables i)[k]? := by
  simp only [flushEnd]
  split_ifs with hi hboth hboth
  · rw [getElem?_foldl_erase, if_pos hboth.2]
  · rw [getElem?_foldl_erase, if_neg (fun hk => hboth ⟨hi, hk⟩)]
  · exact absurd hboth.1 hi
  · rfl

/-- The records that a flush leaves out are not those a reader sees. -/
lemma view_flushEnd {f : Flush} (h : ∀ k ∈ f.dropped, a.SupersededFrom (f.first + f.num) k) :
    (a.flushEnd f).view = a.view := by
  funext k
  rw [view, view, record, record]
  change (newest (a.flushEnd f).tables k 0 (a.active + 1)).map _ = _
  congr 1
  by_cases hk : k ∈ f.dropped
  · obtain ⟨i, hlo, hi, hne⟩ := h k hk
    -- the part above the flush is the same, and it has a record
    obtain ⟨d, hd⟩ : ∃ d, a.active + 1 = f.first + f.num + d :=
      Nat.exists_eq_add_of_le (by omega)
    have habove : newest (a.flushEnd f).tables k (0 + (f.first + f.num)) d =
        newest a.tables k (0 + (f.first + f.num)) d := newest_congr (fun j hj _ => by
      rw [tables_flushEnd, if_neg (fun hc => by omega)])
    have hsome : newest a.tables k (0 + (f.first + f.num)) d ≠ none :=
      newest_ne_none (by omega) (by omega) hne
    obtain ⟨r, hr⟩ := Option.ne_none_iff_exists'.1 hsome
    rw [hd, newest_add _ k 0 (f.first + f.num) d, newest_add a.tables k 0 (f.first + f.num) d,
      habove, hr]
    rfl
  · exact newest_congr (fun j _ _ => by rw [tables_flushEnd, if_neg (fun hc => hk hc.2)])

lemma shift_flushEnd (a : Adapter V) (f : Flush) : Shift (some f) a (a.flushEnd f) := by
  have hsame : ∀ first num k, first + num ≤ f.first ∨ f.first + f.num ≤ first →
      newest (a.flushEnd f).tables k first num = newest a.tables k first num :=
    fun first num k hapart => newest_congr (fun j _ _ => by
      rw [tables_flushEnd, if_neg (fun hc => by omega)])
  refine ⟨le_rfl, fun first num k v _ hapart => ?_, fun first num k v _ hapart h => Or.inl ?_,
    fun lo k hdropped hsup => ?_⟩
  · rw [CarriesAt, CarriesAt, hsame first num k (hapart f rfl)]
  · rwa [OffersAt, hsame first num k (hapart f rfl)] at h
  obtain ⟨i, hlo, hi, hne⟩ := hsup
  by_cases hgone : (f.first ≤ i ∧ i < f.first + f.num) ∧ k ∈ f.dropped
  · -- there is another record above the flush
    obtain ⟨i', hlo', hi', hne'⟩ := hdropped f rfl k hgone.2
    refine ⟨i', by omega, hi', ?_⟩
    rwa [tables_flushEnd, if_neg (fun hc => by omega)]
  · exact ⟨i, hlo, hi, by rwa [tables_flushEnd, if_neg hgone]⟩

end Adapter

end TwoTree.BidirectionalMigration
