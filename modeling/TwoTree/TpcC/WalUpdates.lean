import TwoTree.Lib.Bytes

/-!
# The log entries of the TPC-C updates

`updateSameSize` logs an update of a record by some of its fields: `WALUpdate1` to `WALUpdate4` write
the offset and the size of each field they are given, its bytes before the update and its bytes after
it.  The fields are listed by hand next to each callback.

The entry can stand for the update if the callback changes no byte outside of these fields.  This is so
for all updates but one: the update of `stock_t` in `newOrder` assigns `s_quantity` as well, which is
not logged (`stock_quantity_not_logged`).

A record is its bytes by their offsets.  A `Numeric` is a double, kept as its bit pattern; nothing
depends on how the sum or the difference of two doubles is computed.
-/

namespace TwoTree.TpcC

variable (d : Doubles)

open Lib.Bytes

/-! ## Records -/

/-- The types of the members of a record. -/
inductive MemberType where
  | varchar (maxLength : ℕ)
  | integer
  | timestamp
  | numeric

/-- `alignof`. -/
def MemberType.alignment : MemberType → ℕ
  | .varchar _ => 2
  | .integer => 4
  | .timestamp | .numeric => 8

/-- The first multiple of `a` from `n` on. -/
def roundUp (n a : ℕ) : ℕ := (n + a - 1) / a * a

/-- `sizeof`.  A `Varchar` begins with its length. -/
def MemberType.size : MemberType → ℕ
  | .varchar maxLength => roundUp (2 + maxLength) 2
  | .integer => 4
  | .timestamp | .numeric => 8

/-- Where a field of a record lies. -/
structure Field where
  offset : ℕ
  size : ℕ
deriving DecidableEq

/-- The fields of a record with the given members, behind the first `n` bytes. -/
def layout (n : ℕ) : List MemberType → List Field
  | [] => []
  | t :: ts => ⟨roundUp n t.alignment, t.size⟩ :: layout (roundUp n t.alignment + t.size) ts

/-- `offsetof` and `sizeof` of a member. -/
def field (members : List MemberType) (i : ℕ) : Field := (layout 0 members).getD i ⟨0, 0⟩

/-- The names and addresses that `warehouse_t` and `district_t` begin with. -/
def address : List MemberType :=
  [.varchar 10, .varchar 20, .varchar 20, .varchar 20, .varchar 2, .varchar 9]

/-- `warehouse_t`. -/
def warehouse : List MemberType := address ++ [.numeric, .numeric]

/-- `district_t`. -/
def district : List MemberType := address ++ [.numeric, .numeric, .integer]

/-- `customer_t`. -/
def customer : List MemberType :=
  [.varchar 16, .varchar 2, .varchar 16, .varchar 20, .varchar 20, .varchar 20, .varchar 2, .varchar 9,
    .varchar 16, .timestamp, .varchar 2, .numeric, .numeric, .numeric, .numeric, .numeric, .numeric,
    .varchar 500]

/-- `order_t`. -/
def order : List MemberType := [.integer, .timestamp, .integer, .numeric, .numeric]

/-- `orderline_t`. -/
def orderline : List MemberType :=
  [.integer, .integer, .timestamp, .numeric, .numeric, .varchar 24]

/-- `stock_t`. -/
def stock : List MemberType :=
  .numeric :: List.replicate 10 (.varchar 24) ++ [.numeric, .numeric, .numeric, .varchar 50]

def wYtd : Field := field warehouse 7
def dYtd : Field := field district 7
def dNextOId : Field := field district 8
def cBalance : Field := field customer 13
def cYtdPayment : Field := field customer 14
def cPaymentCnt : Field := field customer 15
def cDeliveryCnt : Field := field customer 16
def cData : Field := field customer 17
def oCarrierId : Field := field order 2
def olDeliveryD : Field := field orderline 2
def sQuantity : Field := field stock 0
def sYtd : Field := field stock 11
def sOrderCnt : Field := field stock 12
def sRemoteCnt : Field := field stock 13

/-- The bytes of a record, or of a value, by their offsets. -/
abbrev Memory := ℕ → UInt8

def Field.Covers (f : Field) (i : ℕ) : Prop := f.offset ≤ i ∧ i < f.offset + f.size

instance (f : Field) (i : ℕ) : Decidable (f.Covers i) := inferInstanceAs (Decidable (_ ∧ _))

/-- A value is assigned to a field. -/
def assign (f : Field) (value record : Memory) : Memory := fun i =>
  if f.Covers i then value (i - f.offset) else record i

/-- The bytes of a number. -/
def bytesOf (n : ℕ) : Memory := fun i => UInt8.ofNat (n / 256 ^ i)

/-- The number in a field. -/
def read (f : Field) (record : Memory) : ℕ :=
  ofLeBytes ((List.range f.size).map fun i => record (f.offset + i))

/-! ## The updates -/

/-- Double arithmetic, on bit patterns. -/
structure Doubles where
  add : ℕ → ℕ → ℕ
  sub : ℕ → ℕ → ℕ
  ge : ℕ → ℕ → Bool
  ofInteger : ℤ → ℕ

/-- The updates of the transactions, with what their callbacks capture. -/
inductive Update where
  | newOrderDistrict
  | newOrderStock (qty : ℤ) (remote : Bool)
  | deliveryOrder (carrierId : ℕ)
  | deliveryOrderline (datetime : ℕ)
  | deliveryCustomer (olTotal : ℕ)
  | paymentWarehouse (hAmount : ℕ)
  | paymentDistrict (hAmount : ℕ)
  | paymentBadCredit (newData : Memory) (newBalance newYtdPayment newPaymentCnt : ℕ)
  | paymentCustomer (newBalance newYtdPayment newPaymentCnt : ℕ)

/-- The fields that are given to `WALUpdate1` and its like. -/
def Update.logged : Update → List Field
  | .newOrderDistrict => [dNextOId]
  | .newOrderStock _ _ => [sRemoteCnt, sOrderCnt, sYtd]
  | .deliveryOrder _ => [oCarrierId]
  | .deliveryOrderline _ => [olDeliveryD]
  | .deliveryCustomer _ => [cBalance, cDeliveryCnt]
  | .paymentWarehouse _ => [wYtd]
  | .paymentDistrict _ => [dYtd]
  | .paymentBadCredit _ _ _ _ => [cData, cBalance, cYtdPayment, cPaymentCnt]
  | .paymentCustomer _ _ _ => [cBalance, cYtdPayment, cPaymentCnt]

/-- The quantity that is left in stock. -/
def Doubles.quantity (s : ℕ) (qty : ℤ) : ℕ :=
  if d.ge s (d.ofInteger (qty + 10)) then d.sub s (d.ofInteger qty)
  else d.sub (d.add s (d.ofInteger 91)) (d.ofInteger qty)

/-- What the callback assigns to which fields, on a record. -/
def Update.assigned (record : Memory) : Update → List (Field × Memory)
  | .newOrderDistrict => [(dNextOId, bytesOf (read dNextOId record + 1))]
  | .newOrderStock qty remote =>
    [(sQuantity, bytesOf (d.quantity (read sQuantity record) qty)),
      (sRemoteCnt, bytesOf (d.add (read sRemoteCnt record) (d.ofInteger (if remote then 1 else 0)))),
      (sOrderCnt, bytesOf (d.add (read sOrderCnt record) (d.ofInteger 1))),
      (sYtd, bytesOf (d.add (read sYtd record) (d.ofInteger qty)))]
  | .deliveryOrder carrierId => [(oCarrierId, bytesOf carrierId)]
  | .deliveryOrderline datetime => [(olDeliveryD, bytesOf datetime)]
  | .deliveryCustomer olTotal =>
    [(cBalance, bytesOf (d.add (read cBalance record) olTotal)),
      (cDeliveryCnt, bytesOf (d.add (read cDeliveryCnt record) (d.ofInteger 1)))]
  | .paymentWarehouse hAmount => [(wYtd, bytesOf (d.add (read wYtd record) hAmount))]
  | .paymentDistrict hAmount => [(dYtd, bytesOf (d.add (read dYtd record) hAmount))]
  | .paymentBadCredit newData newBalance newYtdPayment newPaymentCnt =>
    [(cData, newData), (cBalance, bytesOf newBalance), (cYtdPayment, bytesOf newYtdPayment),
      (cPaymentCnt, bytesOf newPaymentCnt)]
  | .paymentCustomer newBalance newYtdPayment newPaymentCnt =>
    [(cBalance, bytesOf newBalance), (cYtdPayment, bytesOf newYtdPayment),
      (cPaymentCnt, bytesOf newPaymentCnt)]

def assignAll (as : List (Field × Memory)) (record : Memory) : Memory :=
  as.foldl (fun record a => assign a.1 a.2 record) record

/-- The callback. -/
def Update.callback (u : Update) (record : Memory) : Memory :=
  assignAll (u.assigned d record) record

/-! ## The log entry -/

/-- What is logged of a field, by `beforeBody` and `afterBody`. -/
structure Delta where
  offset : ℕ
  size : ℕ
  before : Memory
  after : Memory

/-- The entry that `updateSameSize` writes. -/
def walEntry (fields : List Field) (old new : Memory) : List Delta :=
  fields.map fun f => ⟨f.offset, f.size, fun i => old (f.offset + i), fun i => new (f.offset + i)⟩

/-- The logged fields are set to what they were after the update. -/
def redo (entry : List Delta) (record : Memory) : Memory :=
  assignAll (entry.map fun δ => (⟨δ.offset, δ.size⟩, δ.after)) record

/-- The logged fields are set to what they were before the update. -/
def undo (entry : List Delta) (record : Memory) : Memory :=
  assignAll (entry.map fun δ => (⟨δ.offset, δ.size⟩, δ.before)) record

/-! ## Replaying the entry -/

variable {fields : List Field} {as : List (Field × Memory)} {old new record : Memory} {i : ℕ}

lemma assignAll_of_not_covers (h : ∀ a ∈ as, ¬ a.1.Covers i) : assignAll as record i = record i := by
  induction as generalizing record with
  | nil => rfl
  | cons a as ih =>
    rw [List.forall_mem_cons] at h
    rw [assignAll, List.foldl_cons]
    exact (ih h.2).trans (if_neg h.1)

/-- Fields are set to what they are in another record. -/
lemma assignAll_fields (m : Memory) (hcover : ∃ f ∈ fields, f.Covers i) :
    assignAll (fields.map fun f => (f, fun j => m (f.offset + j))) record i = m i := by
  induction fields generalizing record with
  | nil => simp at hcover
  | cons f fields ih =>
    rw [List.map_cons, assignAll, List.foldl_cons]
    by_cases hlater : ∃ f ∈ fields, f.Covers i
    · exact ih hlater
    have hf : f.Covers i := by
      obtain ⟨g, hg, hcovers⟩ := hcover
      obtain rfl | hg := List.mem_cons.1 hg
      · exact hcovers
      · exact absurd ⟨g, hg, hcovers⟩ hlater
    refine (assignAll_of_not_covers ?_).trans ?_
    · simpa using hlater
    · simp [assign, if_pos hf, Nat.add_sub_cancel' hf.1]

lemma redo_walEntry : redo (walEntry fields old new) record =
    assignAll (fields.map fun f => (f, fun j => new (f.offset + j))) record := by
  rw [redo, walEntry, List.map_map]
  rfl

lemma undo_walEntry : undo (walEntry fields old new) record =
    assignAll (fields.map fun f => (f, fun j => old (f.offset + j))) record := by
  rw [undo, walEntry, List.map_map]
  rfl

/-- **The entry stands for the change if and only if the logged fields cover it.** -/
lemma replay_iff :
    (redo (walEntry fields old new) old = new ∧ undo (walEntry fields old new) new = old) ↔
      ∀ i, new i ≠ old i → ∃ f ∈ fields, f.Covers i := by
  rw [redo_walEntry, undo_walEntry]
  constructor
  · rintro ⟨hredo, -⟩ i hne
    by_contra hnot
    refine hne ?_
    rw [← hredo, assignAll_of_not_covers]
    simpa using hnot
  · intro h
    have hboth : ∀ r m : Memory, (∀ i, m i ≠ r i → ∃ f ∈ fields, f.Covers i) →
        assignAll (fields.map fun f => (f, fun j => m (f.offset + j))) r = m := by
      intro r m hm
      funext i
      by_cases hcover : ∃ f ∈ fields, f.Covers i
      · exact assignAll_fields m hcover
      · rw [assignAll_of_not_covers (by simpa using hcover)]
        by_contra hne
        exact hcover (hm i (Ne.symm hne))
    exact ⟨hboth old new h, hboth new old fun i hne => h i (Ne.symm hne)⟩

/-- The first eight bytes of a stock record are not logged. -/
lemma not_covers_of_lt (hi : i < 8) {qty : ℤ} {remote : Bool} {f : Field}
    (hf : f ∈ (Update.newOrderStock qty remote).logged) : ¬ f.Covers i := by
  have hoffset : ∀ f ∈ [sRemoteCnt, sOrderCnt, sYtd], 8 ≤ f.offset := by decide
  exact fun hcovers => absurd (hcovers.1.trans_lt hi) (not_lt.2 (hoffset f hf))

/-- Outside of the logged fields, the update of a stock record assigns the quantity. -/
lemma callback_newOrderStock {qty : ℤ} {remote : Bool}
    (h : ∀ f ∈ (Update.newOrderStock qty remote).logged, ¬ f.Covers i) :
    (Update.newOrderStock qty remote).callback d record i =
      if i < 8 then bytesOf (d.quantity (read sQuantity record) qty) i else record i := by
  have hrest : ∀ v w x r, assignAll [(sRemoteCnt, v), (sOrderCnt, w), (sYtd, x)] r i = r i := by
    intro v w x r
    exact assignAll_of_not_covers (by simpa [Update.logged] using h)
  refine (hrest _ _ _ _).trans ?_
  have hcovers : sQuantity.Covers i ↔ i < 8 := by simp [Field.Covers, sQuantity, field, layout, stock,
    roundUp, MemberType.alignment, MemberType.size]
  have hoffset : sQuantity.offset = 0 := by decide
  simp [assign, hcovers, hoffset]

/-- **When the log entry of an update stands for it**: always, but for the update of a stock record,
which must leave the quantity as it is. -/
theorem update_replayed_iff (d : Doubles) (u : Update) (record : Memory) :
    (redo (walEntry u.logged record (u.callback d record)) record = u.callback d record ∧
      undo (walEntry u.logged record (u.callback d record)) (u.callback d record) = record) ↔
    ∀ qty remote, u = .newOrderStock qty remote →
      ∀ i < 8, bytesOf (d.quantity (read sQuantity record) qty) i = record i := by
  rw [replay_iff]
  constructor
  · rintro h qty remote rfl i hi
    by_contra hne
    have hnot : ∀ f ∈ (Update.newOrderStock qty remote).logged, ¬ f.Covers i :=
      fun f hf => not_covers_of_lt hi hf
    obtain ⟨f, hf, hcovers⟩ := h i (by rwa [callback_newOrderStock d hnot, if_pos hi])
    exact hnot f hf hcovers
  · intro h i hne
    by_contra hcover
    have hnot : ∀ f ∈ u.logged, ¬ f.Covers i := by simpa using hcover
    refine hne ?_
    cases u with
    | newOrderStock qty remote =>
      rw [callback_newOrderStock d hnot]
      split_ifs with hi
      · exact h qty remote rfl i hi
      · rfl
    | _ => exact assignAll_of_not_covers (by simpa [Update.assigned, Update.logged] using hnot)

/-- A stock record with a quantity of 50. -/
def fifty : Memory := bytesOf 0x4049000000000000

/-- What is needed of doubles here: 50 is at least 15, and 50 minus 5 is 45. -/
def Doubles.Subtracts : Prop :=
  d.ge 0x4049000000000000 (d.ofInteger 15) = true ∧
    d.sub 0x4049000000000000 (d.ofInteger 5) = 0x4046800000000000

/-- **An order of five leaves a record that its log entry does not lead to.**  The quantity is 45, and
the entry leaves it at 50. -/
theorem stock_quantity_not_logged : (∃ d : Doubles, d.Subtracts) ∧
    ¬ ∃ d : Doubles, d.Subtracts ∧
      redo (walEntry (Update.newOrderStock 5 false).logged fifty
        ((Update.newOrderStock 5 false).callback d fifty)) fifty =
      (Update.newOrderStock 5 false).callback d fifty := by
  refine ⟨⟨⟨0, fun _ _ => 0x4046800000000000, fun _ _ => true, 0⟩, rfl, rfl⟩, ?_⟩
  rintro ⟨d, ⟨hge, hsub⟩, hredo⟩
  have hquantity : d.quantity (read sQuantity fifty) 5 = 0x4046800000000000 := by
    have hread : read sQuantity fifty = 0x4049000000000000 := by decide
    rw [Doubles.quantity, hread, show (5 : ℤ) + 10 = 15 by decide, if_pos hge, hsub]
  have hnot : ∀ f ∈ (Update.newOrderStock 5 false).logged, ¬ f.Covers 6 :=
    fun f hf => not_covers_of_lt (by decide) hf
  have h6 := congrFun hredo 6
  rw [callback_newOrderStock d hnot, if_pos (by decide), hquantity, redo_walEntry,
    assignAll_of_not_covers (by simpa using hnot)] at h6
  exact absurd h6 (by decide)

end TwoTree.TpcC
