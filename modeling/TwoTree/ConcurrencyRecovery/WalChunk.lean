import TwoTree.ConcurrencyRecovery.WalRing
import TwoTree.Lib.BlockDevice
import TwoTree.Lib.Bytes
import TwoTree.Units

/-!
# What a group-commit round writes

In phase 1 of a round the group committer prepares, for every worker, the write of the bytes between
its flush cursor and the write cursor that it has captured, and notes in a slot where on the device they
will be.  The chunks are put one below the other.  If the ring has wrapped, a chunk is written in two
pieces, the lower one of which is rounded up to 4096 bytes.

Two things go wrong.  The rounding puts bytes between the pieces, unless the flush cursor lies within the
first 512 bytes of a block; and the wrapped case forgets to count its bytes, so that a round in which no
other worker has something to write submits no write at all (`chunk_not_on_device`).  In all other cases
the bytes of the ring are on the device, and `getWALEntry` finds every entry of the chunk
(`chunk_on_device`).
-/

namespace TwoTree.ConcurrencyRecovery

open Lib.BlockDevice Lib.Bytes List

/-! ## Alignment -/

/-- `upAlignY`. -/
def upAlignY (x y : ℕ) : ℕ := u64 (x + (y - 1)) &&& (2 ^ 64 - 1 - (y - 1))

/-- `upAlign`. -/
def upAlign (x : ℕ) : ℕ := u64 (x + 511) &&& (2 ^ 64 - 1 - 511)

/-- `upAlign4K`. -/
def upAlign4K (x : ℕ) : ℕ := upAlignY x 4096

/-- `downAlign`. -/
def downAlign (x : ℕ) : ℕ := x - (x &&& 511)

lemma land_mask {x k : ℕ} (hx : x < 2 ^ 64) (hk : k ≤ 64) :
    x &&& (2 ^ 64 - 1 - (2 ^ k - 1)) = x - x % 2 ^ k := by
  have hmask : 2 ^ 64 - 1 - (2 ^ k - 1) = (2 ^ (64 - k) - 1) <<< k := by
    rw [Nat.shiftLeft_eq, Nat.sub_mul, ← pow_add, Nat.sub_add_cancel hk]
    have hpos : 0 < 2 ^ k := by positivity
    omega
  have hclear : x - x % 2 ^ k = (x >>> k) <<< k := by
    rw [Nat.shiftLeft_eq, Nat.shiftRight_eq_div_pow]
    have hdiv := Nat.div_add_mod x (2 ^ k)
    rw [mul_comm] at hdiv
    omega
  rw [hmask, hclear]
  refine Nat.eq_of_testBit_eq (fun i => ?_)
  simp only [Nat.testBit_and, Nat.testBit_shiftLeft, Nat.testBit_two_pow_sub_one,
    Nat.testBit_shiftRight]
  by_cases hi : k ≤ i
  · rw [Nat.add_sub_cancel' hi]
    by_cases hlt : i - k < 64 - k
    · simp [hi, hlt]
    · have hbit : x.testBit i = false :=
        Nat.testBit_lt_two_pow (lt_of_lt_of_le hx (Nat.pow_le_pow_right (by norm_num) (by omega)))
      simp [hbit]
  · simp [hi]

lemma upAlignY_two_pow {x k : ℕ} (hx : x + (2 ^ k - 1) < 2 ^ 64) (hk : k ≤ 64) :
    upAlignY x (2 ^ k) = x + (2 ^ k - 1) - (x + (2 ^ k - 1)) % 2 ^ k := by
  rw [upAlignY, u64_of_lt hx, land_mask hx hk]

lemma upAlign_eq {x : ℕ} (hx : x < 2 ^ 63) : upAlign x = x + 511 - (x + 511) % 512 :=
  upAlignY_two_pow (k := 9) (by omega) (by norm_num)

lemma upAlign4K_eq {x : ℕ} (hx : x < 2 ^ 63) : upAlign4K x = x + 4095 - (x + 4095) % 4096 :=
  upAlignY_two_pow (k := 12) (by omega) (by norm_num)

lemma downAlign_eq (x : ℕ) : downAlign x = x - x % 512 := by
  rw [downAlign, show 511 = 2 ^ 9 - 1 by norm_num, Nat.and_two_pow_sub_one_eq_mod]

namespace WalChunk

/-! ## A round -/

/-- The log buffer of a worker, with the memory behind it, its flush cursor and the write cursor that
the group committer has captured. -/
structure Ring where
  wal : ℕ → UInt8
  ww : ℕ
  wt : ℕ
  ww_lt : ww < workerWalSize
  wt_lt : wt < workerWalSize

/-- The number of bytes to be flushed. -/
def Ring.pending (r : Ring) : ℕ :=
  if r.ww ≤ r.wt then r.wt - r.ww else workerWalSize - r.ww + r.wt

/-- The bytes to be flushed, in the order of the ring. -/
def Ring.byte (r : Ring) (i : ℕ) : UInt8 := r.wal ((r.ww + i) % workerWalSize)

/-- `WALChunk::Slot`. -/
structure Slot where
  offset : ℕ
  length : ℕ
deriving DecidableEq, Repr

/-- What is prepared for one worker: its writes, its slot, the bytes that are counted, and the offset
below which the next worker's chunk will be. -/
structure Prepared where
  writes : List Write
  slot : Slot
  counted : ℕ
  ssdOffset : ℕ

/-- `ensure`, and `add_pwrite`. -/
def addPwrite (wal : ℕ → UInt8) (lower sizeAligned ssdOffset : ℕ) : Option Write :=
  if sizeAligned ≤ ssdOffset ∧ (ssdOffset - sizeAligned) % 4096 = 0 then
    some ⟨fun i => wal (lower + i), sizeAligned, ssdOffset - sizeAligned⟩
  else none

/-- The body of the loop of phase 1. -/
def prepare (r : Ring) (ssdOffset : ℕ) : Option Prepared :=
  let lower := downAlign r.ww
  if r.ww < r.wt then
    let sizeAligned := upAlign4K (upAlign r.wt - lower)
    (addPwrite r.wal lower sizeAligned ssdOffset).map fun w =>
      ⟨[w], ⟨w.offset + (r.ww - lower), r.wt - r.ww⟩, sizeAligned, w.offset⟩
  else if r.wt < r.ww then
    (addPwrite r.wal 0 (upAlign4K (upAlign r.wt)) ssdOffset).bind fun w₁ =>
      (addPwrite r.wal lower (upAlign4K (workerWalSize - lower)) w₁.offset).map fun w₂ =>
        -- nothing is added to `chunk.total_size` here
        ⟨[w₁, w₂], ⟨w₂.offset + (r.ww - lower), r.wt + (workerWalSize - r.ww)⟩, 0, w₂.offset⟩
  else some ⟨[], ⟨0, 0⟩, 0, ssdOffset⟩

/-- What is prepared for all workers. -/
structure Chunk where
  writes : List Write
  slots : List Slot
  counted : ℕ
  ssdOffset : ℕ

/-- Phase 1. -/
def phase1 : List Ring → ℕ → Option Chunk
  | [], ssdOffset => some ⟨[], [], 0, ssdOffset⟩
  | r :: rs, ssdOffset =>
    (prepare r ssdOffset).bind fun p =>
      (phase1 rs p.ssdOffset).map fun c =>
        ⟨p.writes ++ c.writes, p.slot :: c.slots, p.counted + c.counted, c.ssdOffset⟩

/-- The size of a `WALChunk`. -/
def walChunkSize : ℕ := 4096

/-- `chunk.total_size`, a `u32`. -/
def totalSize (counted : ℕ) : ℕ := (walChunkSize + counted) % 2 ^ 32

/-- A round up to its writes: phase 1, and the flush, which also writes the chunk's own bytes. -/
def groupCommit (rings : List Ring) (chunk : ℕ → UInt8) (ssdOffset : ℕ) : Option Chunk :=
  (phase1 rings ssdOffset).bind fun c =>
    if walChunkSize < totalSize c.counted then
      (addPwrite chunk 0 walChunkSize c.ssdOffset).map fun w =>
        ⟨c.writes ++ [w], c.slots, c.counted, w.offset⟩
    else some { c with writes := [] }

/-- The bytes of the ring are on the device. -/
structure OnDevice (dev : ℕ → UInt8) (slot : Slot) (r : Ring) : Prop where
  length_eq : slot.length = r.pending
  byte_eq : ∀ i < slot.length, dev (slot.offset + i) = r.byte i

/-- The pieces of the chunk are next to each other. -/
def Ring.Contiguous (r : Ring) : Prop := r.ww ≤ r.wt ∨ r.wt = 0 ∨ r.ww % 4096 < 512

/-- The round submits its writes, if it has to. -/
def Submitted (rings : List Ring) (r : Ring) : Prop := r.ww = r.wt ∨ ∃ r' ∈ rings, r'.ww < r'.wt

/-! ## Reading the chunk -/

/-- An entry of the log, which holds its own length. -/
structure Entry where
  bytes : List UInt8
  header : crEntrySize ≤ bytes.length
  size_eq : ofLeBytes ((bytes.drop 16).take 2) = bytes.length

/-- `lsn`. -/
def entryLsn (bytes : List UInt8) : ℕ := ofLeBytes ((bytes.drop 8).take 8)

/-- `size`. -/
def entrySize (bytes : List UInt8) : ℕ := ofLeBytes ((bytes.drop 16).take 2)

/-- `pread`. -/
def pread (dev : ℕ → UInt8) (size offset : ℕ) : List UInt8 :=
  (List.range size).map (fun i => dev (offset + i))

/-- The loop of `getWALEntry` over the entries of a chunk. -/
def findEntry (ptr : List UInt8) (length lsn : ℕ) : ℕ → ℕ → Option (List UInt8)
  | 0, _ => none
  | fuel + 1, offset =>
    let entry := ptr.drop offset
    if entryLsn entry = lsn then some (entry.take (entrySize entry))
    else if offset + entrySize entry < length then
      findEntry ptr length lsn fuel (offset + entrySize entry)
    else none

/-- `getWALEntry`, once the entry is not in memory and the jump point is the slot; the result is the
entry that the callback gets. -/
def getWALEntry (dev : ℕ → UInt8) (slot : Slot) (lsn fuel : ℕ) : Option (List UInt8) :=
  if slot.offset = 0 then none
  else
    let lowerBoundAligned := downAlign slot.offset
    let readSizeAligned := upAlign (slot.length + slot.offset - lowerBoundAligned)
    let logChunk := pread dev readSizeAligned lowerBoundAligned
    findEntry (logChunk.drop (slot.offset - lowerBoundAligned)) slot.length lsn fuel 0

/-! ## Where the writes go -/

variable {r : Ring} {rings : List Ring} {ssdOffset lower sizeAligned : ℕ} {w : Write} {p : Prepared}
  {c : Chunk} {dev : ℕ → UInt8} {slot : Slot}

lemma addPwrite_eq_some {wal : ℕ → UInt8} (h : addPwrite wal lower sizeAligned ssdOffset = some w) :
    w = ⟨fun i => wal (lower + i), sizeAligned, ssdOffset - sizeAligned⟩ ∧ sizeAligned ≤ ssdOffset := by
  rw [addPwrite] at h
  split_ifs at h with hok
  exact ⟨(Option.some.inj h).symm, hok.1⟩

/-- The writes lie between two offsets, and do not overlap. -/
structure Placed (low high : ℕ) (ws : List Write) : Prop where
  le : low ≤ high
  within : ∀ w ∈ ws, low ≤ w.offset ∧ w.offset + w.size ≤ high
  disjoint : ws.Pairwise Write.Disjoint

lemma Placed.nil (n : ℕ) : Placed n n [] := ⟨le_rfl, by simp, List.Pairwise.nil⟩

lemma placed_addPwrite {wal : ℕ → UInt8} (h : addPwrite wal lower sizeAligned ssdOffset = some w) :
    Placed w.offset ssdOffset [w] := by
  obtain ⟨rfl, hle⟩ := addPwrite_eq_some h
  refine ⟨Nat.sub_le _ _, fun w hw => ?_, pairwise_singleton _ _⟩
  obtain rfl := mem_singleton.1 hw
  exact ⟨le_rfl, (Nat.sub_add_cancel hle).le⟩

lemma Placed.append {low mid high : ℕ} {ws ws' : List Write} (h : Placed mid high ws)
    (h' : Placed low mid ws') : Placed low high (ws ++ ws') := by
  refine ⟨h'.le.trans h.le, fun w hw => ?_, pairwise_append.2 ⟨h.disjoint, h'.disjoint, ?_⟩⟩
  · rcases mem_append.1 hw with hw | hw
    · exact ⟨h'.le.trans (h.within w hw).1, (h.within w hw).2⟩
    · exact ⟨(h'.within w hw).1, (h'.within w hw).2.trans h.le⟩
  · intro w hw w' hw' i hi hi'
    have habove := (h.within w hw).1
    have hbelow := (h'.within w' hw').2
    exact absurd (hi'.2.trans_le (hbelow.trans (habove.trans hi.1))) (lt_irrefl i)

lemma placed_prepare (h : prepare r ssdOffset = some p) : Placed p.ssdOffset ssdOffset p.writes := by
  rw [prepare] at h
  split_ifs at h with hlt hgt
  · obtain ⟨w, hw, rfl⟩ := Option.map_eq_some_iff.1 h
    exact placed_addPwrite hw
  · obtain ⟨w₁, hw₁, h⟩ := Option.bind_eq_some_iff.1 h
    obtain ⟨w₂, hw₂, rfl⟩ := Option.map_eq_some_iff.1 h
    exact (placed_addPwrite hw₁).append (placed_addPwrite hw₂)
  · obtain rfl := Option.some.inj h
    exact Placed.nil ssdOffset

lemma phase1_cons_eq_some {rs : List Ring} (h : phase1 (r :: rs) ssdOffset = some c) :
    ∃ p c', prepare r ssdOffset = some p ∧ phase1 rs p.ssdOffset = some c' ∧
      c = ⟨p.writes ++ c'.writes, p.slot :: c'.slots, p.counted + c'.counted, c'.ssdOffset⟩ := by
  obtain ⟨p, hp, h⟩ := Option.bind_eq_some_iff.1 h
  obtain ⟨c', hc', rfl⟩ := Option.map_eq_some_iff.1 h
  exact ⟨p, c', hp, hc', rfl⟩

lemma placed_phase1 (h : phase1 rings ssdOffset = some c) :
    Placed c.ssdOffset ssdOffset c.writes := by
  induction rings generalizing ssdOffset c with
  | nil =>
    obtain rfl := Option.some.inj h
    exact Placed.nil ssdOffset
  | cons r rs ih =>
    obtain ⟨p, c', hp, hc', rfl⟩ := phase1_cons_eq_some h
    exact (placed_prepare hp).append (ih hc')

/-- Every worker's slot and writes are among those of the chunk. -/
lemma prepare_of_phase1 {k : ℕ} (h : phase1 rings ssdOffset = some c) (hr : rings[k]? = some r)
    (hslot : c.slots[k]? = some slot) :
    ∃ n p, prepare r n = some p ∧ p.slot = slot ∧ p.writes ⊆ c.writes ∧ c.ssdOffset ≤ p.ssdOffset := by
  induction rings generalizing ssdOffset c k with
  | nil => simp at hr
  | cons r' rs ih =>
    obtain ⟨p, c', hp, hc', rfl⟩ := phase1_cons_eq_some h
    cases k with
    | zero =>
      obtain rfl : r' = r := by simpa using hr
      exact ⟨ssdOffset, p, hp, by simpa using hslot, subset_append_left _ _,
        (placed_phase1 hc').le⟩
    | succ k =>
      obtain ⟨n, p', hp', hslot', hwrites, hle⟩ := ih hc' (by simpa using hr) (by simpa using hslot)
      exact ⟨n, p', hp', hslot', fun w hw => mem_append_right _ (hwrites hw), hle⟩

/-! ## Which bytes are counted -/

lemma counted_prepare_le (h : prepare r ssdOffset = some p) : p.counted ≤ workerWalSize := by
  have hww := r.ww_lt
  have hwt := r.wt_lt
  simp only [workerWalSize] at hww hwt
  rw [prepare] at h
  split_ifs at h with hlt hgt
  · obtain ⟨w, hw, rfl⟩ := Option.map_eq_some_iff.1 h
    show upAlign4K (upAlign r.wt - downAlign r.ww) ≤ workerWalSize
    rw [downAlign_eq, upAlign_eq (by omega), upAlign4K_eq (by omega), workerWalSize]
    omega
  · obtain ⟨w₁, hw₁, h⟩ := Option.bind_eq_some_iff.1 h
    obtain ⟨w₂, hw₂, rfl⟩ := Option.map_eq_some_iff.1 h
    exact Nat.zero_le _
  · obtain rfl := Option.some.inj h
    exact Nat.zero_le _

lemma counted_prepare_pos (h : prepare r ssdOffset = some p) (hlt : r.ww < r.wt) : 0 < p.counted := by
  have hwt := r.wt_lt
  simp only [workerWalSize] at hwt
  rw [prepare, if_pos hlt] at h
  obtain ⟨w, hw, rfl⟩ := Option.map_eq_some_iff.1 h
  show 0 < upAlign4K (upAlign r.wt - downAlign r.ww)
  rw [downAlign_eq, upAlign_eq (by omega), upAlign4K_eq (by omega)]
  omega

lemma counted_phase1_le (h : phase1 rings ssdOffset = some c) :
    c.counted ≤ rings.length * workerWalSize := by
  induction rings generalizing ssdOffset c with
  | nil =>
    obtain rfl := Option.some.inj h
    exact Nat.zero_le _
  | cons r rs ih =>
    obtain ⟨p, c', hp, hc', rfl⟩ := phase1_cons_eq_some h
    have hhead := counted_prepare_le hp
    have htail := ih hc'
    simp only [length_cons, Nat.add_mul]
    omega

lemma counted_phase1_pos (h : phase1 rings ssdOffset = some c) (hr : r ∈ rings) (hlt : r.ww < r.wt) :
    0 < c.counted := by
  induction rings generalizing ssdOffset c with
  | nil => exact absurd hr not_mem_nil
  | cons r' rs ih =>
    obtain ⟨p, c', hp, hc', rfl⟩ := phase1_cons_eq_some h
    rcases mem_cons.1 hr with rfl | hr
    · exact Nat.add_pos_left (counted_prepare_pos hp hlt) _
    · exact Nat.add_pos_right _ (ih hc' hr)

/-- **A round in which some ring has not wrapped submits its writes.** -/
lemma groupCommit_eq_some {chunk : ℕ → UInt8} (h : groupCommit rings chunk ssdOffset = some c)
    (hworkers : rings.length < 256) (hr : r ∈ rings) (hlt : r.ww < r.wt) :
    ∃ c' w, phase1 rings ssdOffset = some c' ∧ addPwrite chunk 0 walChunkSize c'.ssdOffset = some w ∧
      c = ⟨c'.writes ++ [w], c'.slots, c'.counted, w.offset⟩ := by
  obtain ⟨c', hc', h⟩ := Option.bind_eq_some_iff.1 h
  have hpos := counted_phase1_pos hc' hr hlt
  have hle := counted_phase1_le hc'
  have hsize : walChunkSize < totalSize c'.counted := by
    simp only [totalSize, walChunkSize, workerWalSize] at hle ⊢
    rw [Nat.mod_eq_of_lt (by omega)]
    omega
  rw [if_pos hsize] at h
  obtain ⟨w, hw, rfl⟩ := Option.map_eq_some_iff.1 h
  exact ⟨c', w, hc', hw, rfl⟩

/-! ## The bytes of a chunk -/

lemma byte_of_lt {i : ℕ} (h : r.ww + i < workerWalSize) : r.byte i = r.wal (r.ww + i) := by
  rw [Ring.byte, Nat.mod_eq_of_lt h]

lemma byte_of_ge {i : ℕ} (h : workerWalSize ≤ r.ww + i) (hlt : r.ww + i < 2 * workerWalSize) :
    r.byte i = r.wal (r.ww + i - workerWalSize) := by
  rw [Ring.byte, Nat.mod_eq_sub_mod h, Nat.mod_eq_of_lt (by omega)]

/-- The slot holds as many bytes as the ring has to be flushed. -/
lemma length_prepare (h : prepare r ssdOffset = some p) : p.slot.length = r.pending := by
  rw [prepare] at h
  split_ifs at h with hlt hgt
  · obtain ⟨w, hw, rfl⟩ := Option.map_eq_some_iff.1 h
    rw [Ring.pending, if_pos hlt.le]
  · obtain ⟨w₁, hw₁, h⟩ := Option.bind_eq_some_iff.1 h
    obtain ⟨w₂, hw₂, rfl⟩ := Option.map_eq_some_iff.1 h
    rw [Ring.pending, if_neg (not_le.2 hgt)]
    exact Nat.add_comm _ _
  · obtain rfl := Option.some.inj h
    rw [Ring.pending, if_pos (not_lt.1 hgt)]
    show 0 = r.wt - r.ww
    omega

/-- **Every byte of the ring is in one of the writes**, at its place in the slot. -/
lemma covered_prepare (h : prepare r ssdOffset = some p) (hcontiguous : r.Contiguous) {i : ℕ}
    (hi : i < p.slot.length) : ∃ w ∈ p.writes, w.Covers (p.slot.offset + i) ∧
      w.src (p.slot.offset + i - w.offset) = r.byte i := by
  have hww := r.ww_lt
  have hwt := r.wt_lt
  have hsize : workerWalSize = 10485760 := rfl
  have hdown := downAlign_eq r.ww
  have hup := upAlign_eq (show r.wt < 2 ^ 63 by omega)
  rw [prepare] at h
  split_ifs at h with hlt hgt
  · obtain ⟨w, hw, rfl⟩ := Option.map_eq_some_iff.1 h
    obtain ⟨rfl, -⟩ := addPwrite_eq_some hw
    replace hi : i < r.wt - r.ww := hi
    have hup4K := upAlign4K_eq (show upAlign r.wt - downAlign r.ww < 2 ^ 63 by omega)
    refine ⟨_, mem_singleton_self _, ⟨?_, ?_⟩, ?_⟩
    · dsimp only
      omega
    · dsimp only
      omega
    · rw [byte_of_lt (by omega)]
      exact congrArg r.wal (by dsimp only; omega)
  · obtain ⟨w₁, hw₁, h⟩ := Option.bind_eq_some_iff.1 h
    obtain ⟨w₂, hw₂, rfl⟩ := Option.map_eq_some_iff.1 h
    obtain ⟨rfl, hle₁⟩ := addPwrite_eq_some hw₁
    obtain ⟨rfl, hle₂⟩ := addPwrite_eq_some hw₂
    replace hi : i < r.wt + (workerWalSize - r.ww) := hi
    dsimp only at hle₂
    have hup₁ := upAlign4K_eq (show upAlign r.wt < 2 ^ 63 by omega)
    have hup₂ := upAlign4K_eq (show workerWalSize - downAlign r.ww < 2 ^ 63 by omega)
    rcases lt_or_ge i (workerWalSize - r.ww) with htail | hhead
    · refine ⟨_, mem_cons_of_mem _ (mem_singleton_self _), ⟨?_, ?_⟩, ?_⟩
      · dsimp only
        omega
      · dsimp only
        omega
      · rw [byte_of_lt (by omega)]
        exact congrArg r.wal (by dsimp only; omega)
    · -- the first piece follows right behind the second one
      have hexact : upAlign4K (workerWalSize - downAlign r.ww) = workerWalSize - downAlign r.ww := by
        rcases hcontiguous with hle | hzero | hblock
        · omega
        · omega
        · omega
      refine ⟨_, mem_cons_self, ⟨?_, ?_⟩, ?_⟩
      · dsimp only
        omega
      · dsimp only
        omega
      · rw [byte_of_ge (by omega) (by omega)]
        exact congrArg r.wal (by dsimp only; omega)
  · obtain rfl := Option.some.inj h
    exact absurd hi (Nat.not_lt_zero i)

/-- The slot of a chunk that has bytes lies above the offset for the next one. -/
lemma offset_prepare (h : prepare r ssdOffset = some p) (hne : r.ww ≠ r.wt) :
    p.ssdOffset ≤ p.slot.offset := by
  rw [prepare] at h
  split_ifs at h with hlt hgt
  · obtain ⟨w, hw, rfl⟩ := Option.map_eq_some_iff.1 h
    exact Nat.le_add_right _ _
  · obtain ⟨w₁, hw₁, h⟩ := Option.bind_eq_some_iff.1 h
    obtain ⟨w₂, hw₂, rfl⟩ := Option.map_eq_some_iff.1 h
    exact Nat.le_add_right _ _
  · exact absurd (le_antisymm (not_lt.1 hgt) (not_lt.1 hlt)) hne

/-- The device at the end of a round: the writes of the chunk have finished, in some order, and
`last_written_chunk` is written behind them. -/
def deviceAfter (dev : ℕ → UInt8) (order : List Write) (ssdMeta : ℕ → UInt8) (metaOffset : ℕ) :
    ℕ → UInt8 :=
  (⟨ssdMeta, 4096, metaOffset⟩ : Write).apply (applyAll dev order)

/-- The chunk of a worker is on the device, if the writes are submitted. -/
lemma onDevice_of_submitted {chunk : ℕ → UInt8} (h : groupCommit rings chunk ssdOffset = some c)
    (hworkers : rings.length < 256) {r' : Ring} (hr' : r' ∈ rings) (hlt : r'.ww < r'.wt) {k : ℕ}
    (hr : rings[k]? = some r) (hslot : c.slots[k]? = some slot) (hcontiguous : r.Contiguous)
    {order : List Write} (horder : order.Perm c.writes) {metaOffset : ℕ}
    (hmeta : ssdOffset ≤ metaOffset) (dev ssdMeta : ℕ → UInt8) :
    OnDevice (deviceAfter dev order ssdMeta metaOffset) slot r ∧ (r.ww ≠ r.wt → 0 < slot.offset) := by
  obtain ⟨c', v, hc', hv, rfl⟩ := groupCommit_eq_some h hworkers hr' hlt
  obtain ⟨n, p, hp, rfl, hwrites, hle⟩ := prepare_of_phase1 hc' hr hslot
  have hplaced := (placed_phase1 hc').append (placed_addPwrite hv)
  have hdisjoint := pairwise_disjoint_of_perm hplaced.disjoint horder
  refine ⟨⟨length_prepare hp, fun i hi => ?_⟩, fun hne => ?_⟩
  · obtain ⟨w, hw, hcovers, hsrc⟩ := covered_prepare hp hcontiguous hi
    have hmem : w ∈ c'.writes ++ [v] := mem_append_left _ (hwrites hw)
    have hbelow : p.slot.offset + i < metaOffset :=
      hcovers.2.trans_le ((hplaced.within w hmem).2.trans hmeta)
    have hmetaWrite : ¬ (⟨ssdMeta, 4096, metaOffset⟩ : Write).Covers (p.slot.offset + i) :=
      fun hc => absurd hc.1 (not_le.2 hbelow)
    calc deviceAfter dev order ssdMeta metaOffset (p.slot.offset + i)
        = applyAll dev order (p.slot.offset + i) := Write.apply_of_not_covers hmetaWrite
      _ = w.src (p.slot.offset + i - w.offset) :=
          applyAll_of_mem hdisjoint (horder.mem_iff.2 hmem) hcovers
      _ = r.byte i := hsrc
  · obtain ⟨-, hchunk⟩ := addPwrite_eq_some hv
    have hpos : 0 < walChunkSize := by decide
    exact hpos.trans_le (hchunk.trans (hle.trans (offset_prepare hp hne)))

/-! ## Walking the entries -/

lemma drop_take_append {l l' : List UInt8} {n k : ℕ} (h : n + k ≤ l.length) :
    ((l ++ l').drop n).take k = (l.drop n).take k := by
  rw [drop_append_of_le_length (by omega), take_append_of_le_length]
  rw [length_drop]
  omega

lemma entryLsn_append (e : Entry) (l : List UInt8) : entryLsn (e.bytes ++ l) = entryLsn e.bytes := by
  have hheader := e.header
  rw [entryLsn, drop_take_append (by rw [crEntrySize] at hheader; omega), entryLsn]

lemma entrySize_append (e : Entry) (l : List UInt8) : entrySize (e.bytes ++ l) = e.bytes.length := by
  have hheader := e.header
  rw [entrySize, drop_take_append (by rw [crEntrySize] at hheader; omega), e.size_eq]

/-- **The loop reaches every entry**: those before it have other lsns, and the bytes go on. -/
lemma findEntry_of_mem {entries : List Entry} {e : Entry} (he : e ∈ entries)
    (hnodup : (entries.map (fun e => entryLsn e.bytes)).Nodup) {before after : List UInt8} {fuel : ℕ}
    (hfuel : entries.length ≤ fuel) :
    findEntry (before ++ (entries.flatMap Entry.bytes ++ after))
      (before.length + (entries.flatMap Entry.bytes).length) (entryLsn e.bytes) fuel before.length =
        some e.bytes := by
  induction entries generalizing before fuel with
  | nil => exact absurd he not_mem_nil
  | cons a entries ih =>
    obtain ⟨fuel, rfl⟩ : ∃ n, fuel = n + 1 := ⟨fuel - 1, by simp at hfuel; omega⟩
    obtain ⟨hnotMem, hnodup⟩ := nodup_cons.1 hnodup
    rw [findEntry]
    simp only [drop_left, flatMap_cons, append_assoc, entryLsn_append,
      entrySize_append]
    rcases mem_cons.1 he with rfl | hmem
    · rw [if_pos rfl, take_left]
    have hlsn : entryLsn a.bytes ≠ entryLsn e.bytes := by
      intro heq
      exact hnotMem (mem_map.2 ⟨e, hmem, heq.symm⟩)
    have hrest : 0 < (entries.flatMap Entry.bytes).length := by
      have hheader := e.header
      obtain ⟨b, hb⟩ := exists_mem_of_length_pos
        (show 0 < e.bytes.length by rw [crEntrySize] at hheader; omega)
      exact length_pos_of_mem (mem_flatMap.2 ⟨e, hmem, hb⟩)
    rw [if_neg hlsn, if_pos (by rw [length_append]; omega)]
    have hnext : findEntry ((before ++ a.bytes) ++ (entries.flatMap Entry.bytes ++ after))
        ((before ++ a.bytes).length + (entries.flatMap Entry.bytes).length) (entryLsn e.bytes) fuel
        (before ++ a.bytes).length = some e.bytes :=
      ih hmem hnodup (by simpa using hfuel)
    simpa [Nat.add_assoc] using hnext

lemma findEntry_start {entries : List Entry} {e : Entry} (he : e ∈ entries)
    (hnodup : (entries.map (fun e => entryLsn e.bytes)).Nodup) (after : List UInt8) {fuel : ℕ}
    (hfuel : entries.length ≤ fuel) :
    findEntry (entries.flatMap Entry.bytes ++ after) (entries.flatMap Entry.bytes).length
      (entryLsn e.bytes) fuel 0 = some e.bytes := by
  have hfound := @findEntry_of_mem entries e he hnodup [] after fuel hfuel
  simpa using hfound

/-- What `getWALEntry` reads from the slot on. -/
lemma drop_pread (dev : ℕ → UInt8) {size offset n : ℕ} (h : offset ≤ n) :
    (pread dev size offset).drop (n - offset) = pread dev (size - (n - offset)) n := by
  refine ext_getElem (by simp [pread]) (fun i hi hi' => ?_)
  simp only [pread, getElem_drop, getElem_map, getElem_range]
  congr 1
  omega

lemma pread_add (dev : ℕ → UInt8) (m n offset : ℕ) :
    pread dev (m + n) offset = pread dev m offset ++ pread dev n (offset + m) := by
  rw [pread, range_add, map_append, map_map]
  simp [pread, Function.comp_def, Nat.add_assoc]

/-- **Every entry of a chunk is found.** -/
lemma getWALEntry_of_onDevice {entries : List Entry} {e : Entry} (h : OnDevice dev slot r)
    (hoffset : 0 < slot.offset) (he : e ∈ entries)
    (hnodup : (entries.map (fun e => entryLsn e.bytes)).Nodup)
    (hentries : entries.flatMap Entry.bytes = (List.range r.pending).map r.byte) :
    ∃ n, ∀ fuel, n ≤ fuel → getWALEntry dev slot (entryLsn e.bytes) fuel = some e.bytes := by
  refine ⟨entries.length, fun fuel hfuel => ?_⟩
  have hchunk : pread dev slot.length slot.offset = entries.flatMap Entry.bytes := by
    rw [hentries, ← h.length_eq]
    exact map_congr_left (fun i hi => h.byte_eq i (mem_range.1 hi))
  have hlength : slot.length = (entries.flatMap Entry.bytes).length := by
    rw [← hchunk, pread, length_map, length_range]
  have hdown := downAlign_eq slot.offset
  have hpending : slot.length ≤ 2 * workerWalSize := by
    have hww := r.ww_lt
    have hwt := r.wt_lt
    rw [h.length_eq, Ring.pending]
    split_ifs <;> omega
  rw [workerWalSize] at hpending
  have hup := upAlign_eq (show slot.length + slot.offset - downAlign slot.offset < 2 ^ 63 by omega)
  obtain ⟨extra, hextra⟩ : ∃ extra, upAlign (slot.length + slot.offset - downAlign slot.offset) -
      (slot.offset - downAlign slot.offset) = slot.length + extra :=
    ⟨_, (Nat.add_sub_of_le (by omega)).symm⟩
  rw [getWALEntry, if_neg hoffset.ne']
  dsimp only
  rw [drop_pread dev (by omega), hextra, pread_add, hchunk, hlength]
  exact findEntry_start he hnodup _ hfuel

/-! ## Rounds -/

/-- **The chunk of a worker is on the device after the round, and every entry of it is found**, if the
round submits its writes and the pieces of the chunk are next to each other. -/
theorem chunk_on_device (rings : List Ring) (hworkers : rings.length < 256) (chunk : ℕ → UInt8)
    (ssdOffset metaOffset : ℕ) (hmeta : ssdOffset ≤ metaOffset) (c : Chunk)
    (hround : groupCommit rings chunk ssdOffset = some c) (order : List Write)
    (horder : order.Perm c.writes) (dev ssdMeta : ℕ → UInt8) (k : ℕ) (r : Ring) (slot : Slot)
    (hr : rings[k]? = some r) (hslot : c.slots[k]? = some slot) (hsubmitted : Submitted rings r)
    (hcontiguous : r.Contiguous) :
    OnDevice (deviceAfter dev order ssdMeta metaOffset) slot r ∧
    ∀ entries : List Entry, (entries.map (fun e => entryLsn e.bytes)).Nodup →
      entries.flatMap Entry.bytes = (List.range r.pending).map r.byte →
      ∀ e ∈ entries, ∃ n, ∀ fuel, n ≤ fuel →
        getWALEntry (deviceAfter dev order ssdMeta metaOffset) slot (entryLsn e.bytes) fuel =
          some e.bytes := by
  by_cases hempty : r.ww = r.wt
  · -- there is nothing to be flushed
    have hpending : r.pending = 0 := by rw [Ring.pending, if_pos hempty.le, hempty, Nat.sub_self]
    obtain ⟨c', hc', hflush⟩ := Option.bind_eq_some_iff.1 hround
    have hslots : c.slots = c'.slots := by
      split_ifs at hflush with hsize
      · obtain ⟨w, -, rfl⟩ := Option.map_eq_some_iff.1 hflush
        rfl
      · obtain rfl := Option.some.inj hflush
        rfl
    obtain ⟨n, p, hp, rfl, -⟩ := prepare_of_phase1 hc' hr (hslots ▸ hslot)
    have hlength := (length_prepare hp).trans hpending
    refine ⟨⟨length_prepare hp, fun i hi => absurd hi (by omega)⟩, fun entries _ hentries e he => ?_⟩
    obtain ⟨b, hb⟩ := exists_mem_of_length_pos
      (show 0 < e.bytes.length from lt_of_lt_of_le (by decide) e.header)
    have hmem : b ∈ entries.flatMap Entry.bytes := mem_flatMap.2 ⟨e, he, hb⟩
    rw [hentries, hpending] at hmem
    exact absurd hmem not_mem_nil
  · obtain ⟨r', hr', hlt⟩ := hsubmitted.resolve_left hempty
    obtain ⟨hdev, hoffset⟩ := onDevice_of_submitted hround hworkers hr' hlt hr hslot hcontiguous
      horder hmeta dev ssdMeta
    exact ⟨hdev, fun entries hnodup hentries e he =>
      getWALEntry_of_onDevice hdev (hoffset hempty) he hnodup hentries⟩

/-- A ring that is full of ones, with zeros behind it. -/
def ones (ww wt : ℕ) (hww : ww < workerWalSize) (hwt : wt < workerWalSize) : Ring :=
  ⟨fun i => if i < workerWalSize then 1 else 0, ww, wt, hww, hwt⟩

/-- A ring that has wrapped, with its flush cursor at the start of a block. -/
theorem chunk_on_device_wrapped : ∃ c,
    groupCommit [ones 0 24 (by decide) (by decide), ones 10481664 24 (by decide) (by decide)]
      (fun _ => 0) (2 ^ 30) = some c ∧ c.slots[1]? = some ⟨2 ^ 30 - 12288, 4120⟩ ∧
    OnDevice (deviceAfter (fun _ => 0) c.writes (fun _ => 0) (2 ^ 30)) ⟨2 ^ 30 - 12288, 4120⟩
      (ones 10481664 24 (by decide) (by decide)) := by
  have hround : (groupCommit
      [ones 0 24 (by decide) (by decide), ones 10481664 24 (by decide) (by decide)] (fun _ => 0)
      (2 ^ 30)).map (fun c => c.slots[1]?) = some (some ⟨2 ^ 30 - 12288, 4120⟩) := by decide +kernel
  obtain ⟨c, hc, hslot⟩ := Option.map_eq_some_iff.1 hround
  exact ⟨c, hc, hslot, (chunk_on_device _ (by decide) _ (2 ^ 30) (2 ^ 30) le_rfl c hc _
    (List.Perm.refl _) (fun _ => 0) (fun _ => 0) 1 _ _ rfl hslot
    (Or.inr ⟨_, mem_cons_self, by decide⟩) (Or.inr (Or.inr (by decide)))).1⟩

/-- **A chunk is not on the device.**  If the flush cursor is not at the start of a block, the two pieces
are not next to each other, and the byte behind the first piece comes from the memory behind the ring.
And if all rings have wrapped, nothing is written. -/
theorem chunk_not_on_device :
    (∃ c slot, groupCommit [ones 0 24 (by decide) (by decide), ones 10484736 24 (by decide) (by decide)]
      (fun _ => 0) (2 ^ 30) = some c ∧ c.slots[1]? = some slot ∧
      ¬ OnDevice (deviceAfter (fun _ => 0) c.writes (fun _ => 0) (2 ^ 30)) slot
        (ones 10484736 24 (by decide) (by decide))) ∧
    ∃ c slot, groupCommit [ones 10481664 24 (by decide) (by decide)] (fun _ => 0) (2 ^ 30) = some c ∧
      c.slots[0]? = some slot ∧
      ¬ OnDevice (deviceAfter (fun _ => 0) c.writes (fun _ => 0) (2 ^ 30)) slot
        (ones 10481664 24 (by decide) (by decide)) := by
  have hgap : (groupCommit
      [ones 0 24 (by decide) (by decide), ones 10484736 24 (by decide) (by decide)] (fun _ => 0)
      (2 ^ 30)).map (fun c => (c.slots[1]?,
        deviceAfter (fun _ => 0) c.writes (fun _ => 0) (2 ^ 30) (2 ^ 30 - 12288 + 1024))) =
      some (some ⟨2 ^ 30 - 12288, 1048⟩, 0) := by decide +kernel
  have hnone : (groupCommit [ones 10481664 24 (by decide) (by decide)] (fun _ => 0)
      (2 ^ 30)).map (fun c => (c.slots[0]?,
        deviceAfter (fun _ => 0) c.writes (fun _ => 0) (2 ^ 30) (2 ^ 30 - 8192 + 0))) =
      some (some ⟨2 ^ 30 - 8192, 4120⟩, 0) := by decide +kernel
  obtain ⟨c, hc, heq⟩ := Option.map_eq_some_iff.1 hgap
  obtain ⟨c', hc', heq'⟩ := Option.map_eq_some_iff.1 hnone
  obtain ⟨hslot, hbyte⟩ := Prod.mk.inj heq
  obtain ⟨hslot', hbyte'⟩ := Prod.mk.inj heq'
  refine ⟨⟨c, _, hc, hslot, fun h => ?_⟩, ⟨c', _, hc', hslot', fun h => ?_⟩⟩
  · exact absurd (hbyte.symm.trans (h.byte_eq 1024 (by decide))) (by decide)
  · exact absurd (hbyte'.symm.trans (h.byte_eq 0 (by decide))) (by decide)

end WalChunk

end TwoTree.ConcurrencyRecovery
