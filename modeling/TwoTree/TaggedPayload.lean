import Mathlib.Tactic

/-!
# Payloads with a tag byte

A record in the hot tier carries a byte of bookkeeping next to its payload: bit 0 says whether
it was modified since it was copied up, bit 1 is the clock algorithm's reference bit, bit 2 is
reserved for deletion, and the adapter for concurrent use keeps a three-bit reference count in
the top of the byte.  `TaggedPayload` is that record, and the functions are the member
functions the adapters define on it.

What the adapters rely on is that the bookkeeping of the clock never touches the payload or the
modified bit; the lemmas say so for each operation, and they are the `simp` set the eviction
proofs run on.
-/

namespace TwoTree

variable {V : Type*}

/-- A payload and its tag byte. -/
@[ext] structure TaggedPayload (V : Type*) where
  payload : V
  bits : BitVec 8 := 0#8
  deriving DecidableEq, Repr

namespace TaggedPayload

variable (tp : TaggedPayload V)

/-- The mask of the reference count: the top three bits. -/
def kReferenceMask : BitVec 8 := 0xE0#8

/-- Where the reference count starts. -/
def kReferenceOffset : ℕ := 5

/-- The largest reference count. -/
def kMaxReferenceCount : BitVec 8 := 7#8

def modified : Bool := tp.bits &&& 1#8 != 0#8

def setModified : TaggedPayload V := { tp with bits := tp.bits ||| 1#8 }

def clearModified : TaggedPayload V := { tp with bits := tp.bits &&& ~~~1#8 }

def referenced : Bool := tp.bits &&& 2#8 != 0#8

def setReferenced : TaggedPayload V := { tp with bits := tp.bits ||| 2#8 }

def clearReferenced : TaggedPayload V := { tp with bits := tp.bits &&& ~~~2#8 }

def getReferenceCount : BitVec 8 := tp.bits >>> kReferenceOffset

def setReferenceCount (count : BitVec 8) (tp : TaggedPayload V) : TaggedPayload V :=
  { tp with bits := (~~~kReferenceMask &&& tp.bits) ||| (count <<< kReferenceOffset) }

def bumpReferenceCount : TaggedPayload V :=
  let oldRefCount := tp.getReferenceCount
  tp.setReferenceCount (if oldRefCount = 7#8 then 7#8 else oldRefCount + 1#8)

def decReferenceCount : TaggedPayload V :=
  let oldRefCount := tp.getReferenceCount
  tp.setReferenceCount (if oldRefCount = 0#8 then 0#8 else oldRefCount - 1#8)

/-- Replace the payload, as the callbacks of an update do. -/
def setPayload (v : V) (tp : TaggedPayload V) : TaggedPayload V := { tp with payload := v }

/-- The callback of an update on a tagged record. -/
def overwrite (v : V) (tp : TaggedPayload V) : TaggedPayload V :=
  tp.setReferenced.setModified.setPayload v

/-- The record an admission makes of a payload and the two flags. -/
def ofFlags (v : V) (modified referenced : Bool) : TaggedPayload V :=
  let tp : TaggedPayload V := { payload := v }
  let tp := if referenced then tp.setReferenced else tp.clearReferenced
  if modified then tp.setModified else tp.clearModified

/-- What matters about a record to a reader and to an eviction: the payload and the modified
bit. -/
def data : V × Bool := (tp.payload, tp.modified)

/-! ## The payload -/

@[simp] lemma payload_setModified : tp.setModified.payload = tp.payload := rfl
@[simp] lemma payload_clearModified : tp.clearModified.payload = tp.payload := rfl
@[simp] lemma payload_setReferenced : tp.setReferenced.payload = tp.payload := rfl
@[simp] lemma payload_clearReferenced : tp.clearReferenced.payload = tp.payload := rfl
@[simp] lemma payload_bumpReferenceCount : tp.bumpReferenceCount.payload = tp.payload := rfl
@[simp] lemma payload_decReferenceCount : tp.decReferenceCount.payload = tp.payload := rfl
@[simp] lemma payload_setPayload (v : V) (tp : TaggedPayload V) :
    (tp.setPayload v).payload = v := rfl

/-! ## The modified bit -/

private lemma and_one_setReferenceCount (b c : BitVec 8) :
    ((~~~kReferenceMask &&& b) ||| (c <<< kReferenceOffset)) &&& 1#8 = b &&& 1#8 := by
  ext i hi
  interval_cases i <;> simp [kReferenceMask, kReferenceOffset]

@[simp] lemma modified_setModified : tp.setModified.modified = true := by
  have h : ∀ b : BitVec 8, ((b ||| 1#8) &&& 1#8 != 0#8) = true := by decide
  exact h tp.bits

@[simp] lemma modified_clearModified : tp.clearModified.modified = false := by
  have h : ∀ b : BitVec 8, ((b &&& ~~~1#8) &&& 1#8 != 0#8) = false := by decide
  exact h tp.bits

@[simp] lemma modified_setReferenced : tp.setReferenced.modified = tp.modified := by
  have h : ∀ b : BitVec 8, ((b ||| 2#8) &&& 1#8 != 0#8) = (b &&& 1#8 != 0#8) := by decide
  exact h tp.bits

@[simp] lemma modified_clearReferenced : tp.clearReferenced.modified = tp.modified := by
  have h : ∀ b : BitVec 8, ((b &&& ~~~2#8) &&& 1#8 != 0#8) = (b &&& 1#8 != 0#8) := by decide
  exact h tp.bits

@[simp] lemma modified_setReferenceCount (count : BitVec 8) (tp : TaggedPayload V) :
    (tp.setReferenceCount count).modified = tp.modified := by
  simp [modified, setReferenceCount, and_one_setReferenceCount]

@[simp] lemma modified_bumpReferenceCount : tp.bumpReferenceCount.modified = tp.modified := by
  simp [bumpReferenceCount]

@[simp] lemma modified_decReferenceCount : tp.decReferenceCount.modified = tp.modified := by
  simp [decReferenceCount]

@[simp] lemma modified_setPayload (v : V) (tp : TaggedPayload V) :
    (tp.setPayload v).modified = tp.modified := rfl

lemma data_setReferenced : tp.setReferenced.data = tp.data := by
  simp [data]

lemma data_clearReferenced : tp.clearReferenced.data = tp.data := by
  simp [data]

lemma data_decReferenceCount : tp.decReferenceCount.data = tp.data := by
  simp [data]

@[simp] lemma data_overwrite (v : V) (tp : TaggedPayload V) :
    (tp.overwrite v).data = (v, true) := by
  simp [overwrite, data]

@[simp] lemma payload_overwrite (v : V) (tp : TaggedPayload V) : (tp.overwrite v).payload = v :=
  rfl

@[simp] lemma data_ofFlags (v : V) (modified referenced : Bool) :
    (ofFlags v modified referenced).data = (v, modified) := by
  cases modified <;> cases referenced <;> simp [ofFlags, data]

@[simp] lemma payload_ofFlags (v : V) (modified referenced : Bool) :
    (ofFlags v modified referenced).payload = v :=
  congrArg Prod.fst (data_ofFlags v modified referenced)

/-! ## The reference bit -/

private lemma and_two_setReferenceCount (b c : BitVec 8) :
    ((~~~kReferenceMask &&& b) ||| (c <<< kReferenceOffset)) &&& 2#8 = b &&& 2#8 := by
  ext i hi
  interval_cases i <;> simp [kReferenceMask, kReferenceOffset]

@[simp] lemma referenced_clearReferenced : tp.clearReferenced.referenced = false := by
  have h : ∀ b : BitVec 8, ((b &&& ~~~2#8) &&& 2#8 != 0#8) = false := by decide
  exact h tp.bits

@[simp] lemma referenced_decReferenceCount : tp.decReferenceCount.referenced = tp.referenced := by
  simp [decReferenceCount, referenced, setReferenceCount, and_two_setReferenceCount]

end TaggedPayload

end TwoTree
