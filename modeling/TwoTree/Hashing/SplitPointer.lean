import TwoTree.Lib.LinearHash
import TwoTree.Hashing.SlottedPage

/-!
# The split pointer and the rounds of splits

Both hash tables share this part: a word that holds the power `i` and the next bucket to be created,
and three counters for the splits of the current round.  A split first advances the word
(`startSplit`), then moves the records, and last counts itself as finished and, if it was the last of
its round, advances the power (`finishSplit`).

A lookup computes its bucket from the word, so from the splits that have been *started*
(`bucketOf_eq`).  Where the records lie depends on the splits that have been *finished*: `home` is
that bucket.  The two agree when no split is under way.

`power2` is a table of sixteen entries; the rounds that the mapping table has room for stay within it
(`Rounds.Ok.power_lt`).
-/

namespace TwoTree.Hashing

open Lib.LinearHash

/-- `N` -/
def N : ℕ := 128

/-- `kDirNodeBucketPtrCount`, with an effective page size of 16352 bytes. -/
def kDirNodeBucketPtrCount : ℕ := 16352 / 8 / 4

/-- `MappingTable::kArraySize` -/
def kArraySize : ℕ := 8192

/-- The buckets that the mapping table has room for. -/
def tableSlots : ℕ := kArraySize * kDirNodeBucketPtrCount

/-- `sp` and the counters of the round. -/
structure Rounds where
  power : ℕ
  buddyBucket : ℕ
  startedSplits : ℕ
  finishedSplits : ℕ
  splitTarget : ℕ
deriving DecidableEq, Repr

/-- `hash` -/
def hash (hashFunc : Bytes → ℕ) (key : Bytes) (i : ℕ) : ℕ := hashFunc key % (N * 2 ^ i)

/-- The bucket of a key, as every operation computes it from the split pointer. -/
def bucketOf (hashFunc : Bytes → ℕ) (power buddyBucket : ℕ) (key : Bytes) : ℕ :=
  let bucket := hash hashFunc key power
  if bucket < buddyBucket - N * 2 ^ power then hash hashFunc key (power + 1) else bucket

namespace Rounds

variable (r : Rounds)

/-- As `create` leaves them. -/
def init : Rounds := ⟨0, N, 0, 0, N⟩

/-- The bucket that the next split divides. -/
def splitBucket : ℕ := r.buddyBucket - N * 2 ^ r.power

/-- The start of a split.  It is repeated forever if the round has no split left. -/
def startSplit : Option Rounds :=
  if r.startedSplits + 1 > r.splitTarget then none
  else some { r with buddyBucket := r.buddyBucket + 1, startedSplits := r.startedSplits + 1 }

/-- The end of a split, and of the round if it was its last. -/
def finishSplit : Rounds :=
  if r.finishedSplits + 1 = r.startedSplits ∧ r.startedSplits = r.splitTarget then
    { r with
      power := r.power + 1
      startedSplits := 0
      finishedSplits := 0
      splitTarget := N * 2 ^ (r.power + 1) }
  else { r with finishedSplits := r.finishedSplits + 1 }

/-- The bucket whose chain has the records of a hash. -/
def home (h : ℕ) : ℕ := address N r.power r.finishedSplits h

/-- The buckets that have a chain. -/
def linked : ℕ := N * 2 ^ r.power + r.finishedSplits

/-- The counters agree with the split pointer, and at most one split is under way. -/
structure Ok (r : Rounds) : Prop where
  target_eq : r.splitTarget = N * 2 ^ r.power
  finished_lt : r.finishedSplits < N * 2 ^ r.power
  finished_le : r.finishedSplits ≤ r.startedSplits
  started_le : r.startedSplits ≤ r.finishedSplits + 1
  buddy_eq : r.buddyBucket = N * 2 ^ r.power + r.startedSplits

/-- No split is under way. -/
def Idle : Prop := r.startedSplits = r.finishedSplits

variable {r r' : Rounds}

lemma init_ok : init.Ok := by constructor <;> decide

lemma init_idle : init.Idle := rfl

/-- The operations go by the splits that have been started. -/
lemma Ok.bucketOf_eq (hr : r.Ok) (hashFunc : Bytes → ℕ) (key : Bytes) :
    bucketOf hashFunc r.power r.buddyBucket key =
      address N r.power r.startedSplits (hashFunc key) := by
  rw [bucketOf, hr.buddy_eq, Nat.add_sub_cancel_left]
  rfl

lemma Ok.bucketOf_of_idle (hr : r.Ok) (hidle : r.Idle) (hashFunc : Bytes → ℕ) (key : Bytes) :
    bucketOf hashFunc r.power r.buddyBucket key = r.home (hashFunc key) := by
  rw [hr.bucketOf_eq, hidle]
  rfl

lemma home_lt (r : Rounds) (h : ℕ) : r.home h < r.linked := address_lt (by decide)

lemma Ok.splitBucket_eq (hr : r.Ok) : r.splitBucket = r.startedSplits := by
  rw [splitBucket, hr.buddy_eq, Nat.add_sub_cancel_left]

lemma Ok.linked_of_idle (hr : r.Ok) (hidle : r.Idle) : r.linked = r.buddyBucket := by
  rw [linked, hr.buddy_eq, hidle]

lemma Ok.startSplit (hr : r.Ok) (hidle : r.Idle) :
    r.startSplit = some { r with
      buddyBucket := r.buddyBucket + 1
      startedSplits := r.startedSplits + 1 } := by
  refine if_neg (not_lt.2 ?_)
  rw [hr.target_eq, hidle]
  exact hr.finished_lt

/-- While the split is under way the records are where they were. -/
lemma startSplit_frame (h : r.startSplit = some r') :
    r'.power = r.power ∧ r'.finishedSplits = r.finishedSplits ∧
      r'.startedSplits = r.startedSplits + 1 ∧ r'.buddyBucket = r.buddyBucket + 1 := by
  unfold Rounds.startSplit at h
  split_ifs at h
  cases h
  exact ⟨rfl, rfl, rfl, rfl⟩

lemma Ok.of_startSplit (hr : r.Ok) (hidle : r.Idle) (h : r.startSplit = some r') : r'.Ok := by
  obtain rfl := Option.some.inj (h.symm.trans (hr.startSplit hidle))
  exact ⟨hr.target_eq, hr.finished_lt, Nat.le_succ_of_le hr.finished_le, by rw [hidle],
    by rw [hr.buddy_eq, add_assoc]⟩

/-- The end of a round, or one more split of the round. -/
lemma Ok.finishSplit_cases (hr : r.Ok) (hsplit : r.startedSplits = r.finishedSplits + 1) :
    r.finishedSplits + 1 = N * 2 ^ r.power ∧
        r.finishSplit = ⟨r.power + 1, r.buddyBucket, 0, 0, N * 2 ^ (r.power + 1)⟩ ∨
      r.finishedSplits + 1 < N * 2 ^ r.power ∧
        r.finishSplit = { r with finishedSplits := r.finishedSplits + 1 } := by
  have hlt := hr.finished_lt
  by_cases hend : r.finishedSplits + 1 = N * 2 ^ r.power
  · refine Or.inl ⟨hend, if_pos ⟨hsplit.symm, ?_⟩⟩
    rw [hsplit, hend, hr.target_eq]
  · refine Or.inr ⟨by omega, if_neg fun h => hend ?_⟩
    rw [h.1, h.2, hr.target_eq]

lemma buckets_double (i : ℕ) : N * 2 ^ (i + 1) = N * 2 ^ i + N * 2 ^ i := by
  rw [pow_succ]
  ring

lemma Ok.finishSplit (hr : r.Ok) (hsplit : r.startedSplits = r.finishedSplits + 1) :
    r.finishSplit.Ok ∧ r.finishSplit.Idle := by
  have hpos : 0 < N * 2 ^ (r.power + 1) := Nat.mul_pos (by decide) (by positivity)
  have hdouble := buckets_double r.power
  have hbuddy := hr.buddy_eq
  rcases hr.finishSplit_cases hsplit with ⟨hend, heq⟩ | ⟨hlt, heq⟩
  · rw [heq]
    exact ⟨⟨rfl, hpos, le_rfl, Nat.zero_le _, by simp only; omega⟩, rfl⟩
  · rw [heq]
    exact ⟨⟨hr.target_eq, hlt, hsplit.ge, by simp only; omega, hr.buddy_eq⟩, hsplit⟩

/-- **A finished split moves the records of one bucket**, and the end of a round moves none: the
homes are those with one more bucket split. -/
lemma Ok.home_finishSplit (hr : r.Ok) (hsplit : r.startedSplits = r.finishedSplits + 1) (h : ℕ) :
    r.finishSplit.home h = address N r.power (r.finishedSplits + 1) h := by
  rcases hr.finishSplit_cases hsplit with ⟨hend, heq⟩ | ⟨-, heq⟩
  · rw [heq, hend]
    exact address_round (by decide)
  · rw [heq]
    rfl

lemma Ok.linked_finishSplit (hr : r.Ok) (hsplit : r.startedSplits = r.finishedSplits + 1) :
    r.finishSplit.linked = r.linked + 1 := by
  rcases hr.finishSplit_cases hsplit with ⟨hend, heq⟩ | ⟨-, heq⟩
  · rw [heq, linked, linked]
    simp only [buckets_double]
    omega
  · rw [heq]
    rfl

lemma finishSplit_buddyBucket (r : Rounds) : r.finishSplit.buddyBucket = r.buddyBucket := by
  unfold Rounds.finishSplit
  split_ifs <;> rfl

lemma power_le_finishSplit (r : Rounds) : r.power ≤ r.finishSplit.power := by
  unfold Rounds.finishSplit
  split_ifs
  · exact Nat.le_succ _
  · exact le_rfl

/-- What is not in the bucket being split stays at home. -/
lemma Ok.home_finishSplit_of_ne (hr : r.Ok) (hsplit : r.startedSplits = r.finishedSplits + 1)
    {h : ℕ} (hne : r.home h ≠ r.finishedSplits) : r.finishSplit.home h = r.home h := by
  rw [hr.home_finishSplit hsplit, home]
  exact address_succ_of_ne (fun heq => hne (address_of_eq heq))

/-- What is in the bucket being split stays there or moves to the new bucket. -/
lemma Ok.home_finishSplit_of_eq (hr : r.Ok) (hsplit : r.startedSplits = r.finishedSplits + 1)
    {h : ℕ} (heq : r.home h = r.finishedSplits) :
    r.finishSplit.home h = h % (N * 2 ^ (r.power + 1)) ∧
      (r.finishSplit.home h = r.finishedSplits ∨ r.finishSplit.home h = r.linked) := by
  have hmod := mod_eq_of_address_eq hr.finished_lt heq
  rw [hr.home_finishSplit hsplit]
  exact ⟨address_succ_of_eq hmod, address_succ_eq_or hmod⟩

end Rounds

end TwoTree.Hashing
