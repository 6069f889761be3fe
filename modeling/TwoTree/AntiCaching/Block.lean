import TwoTree.Lib.Bytes

/-!
# The bytes of a block

The anti-caching adapter copies tuples into blocks with `memcpy`: the first bytes of a
`TaggedPayload`, up to its pointers, which are the key, the payload and whatever padding the
compiler puts behind it.  A block is the concatenation of such tuples, and is read at offsets.

`readTuple` reads back what `tupleBytes` has written (`readTuple_blockBytes`), and the offsets at
which the loop over a block reads are those of its tuples (`offsets_blockBytes`).
-/

namespace TwoTree.AntiCaching

open Lib.Bytes

/-- The number of bytes of a key. -/
def sizeofKey : ℕ := 8

/-- The layout of a tuple: the bytes of its payload and of the padding behind it. -/
structure Layout where
  payloadSize : ℕ
  padding : ℕ
  deriving DecidableEq, Repr

/-- `tuple_size`. -/
def Layout.tupleSize (L : Layout) : ℕ := sizeofKey + L.payloadSize + L.padding

/-- The payload of a tuple. -/
abbrev Payload (L : Layout) := Vector UInt8 L.payloadSize

variable {L : Layout}

/-- The bytes that are copied into a block. -/
def tupleBytes (t : ℕ × Payload L) : List UInt8 :=
  leBytes sizeofKey t.1 ++ (t.2.toList ++ List.replicate L.padding 0)

/-- The key and the payload that are copied out of a block. -/
def readTuple (L : Layout) (block : List UInt8) (off : ℕ) : ℕ × Payload L :=
  (ofLeBytes ((block.drop off).take sizeofKey),
    Vector.ofFn (fun i : Fin L.payloadSize => (block.drop (off + sizeofKey)).getD i 0))

/-- A block of tuples. -/
def blockBytes (ts : List (ℕ × Payload L)) : List UInt8 := ts.flatMap tupleBytes

/-- The offsets at which `for (off = 0; off < size; off += tuple_size)` reads. -/
def offsets (L : Layout) (size : ℕ) : List ℕ :=
  (List.range ((size + L.tupleSize - 1) / L.tupleSize)).map (fun i => i * L.tupleSize)

/-! ## Reading what was written -/

lemma tupleSize_pos (L : Layout) : 0 < L.tupleSize := by
  simp only [Layout.tupleSize, sizeofKey]
  omega

lemma length_tupleBytes (t : ℕ × Payload L) : (tupleBytes t).length = L.tupleSize := by
  simp only [tupleBytes, List.length_append, length_leBytes, Vector.length_toList,
    List.length_replicate, Layout.tupleSize]
  omega

/-- A tuple in the middle of some bytes. -/
lemma readTuple_append {t : ℕ × Payload L} (ht : t.1 < 2 ^ 64) (before after : List UInt8) :
    readTuple L (before ++ (tupleBytes t ++ after)) before.length = t := by
  have hkey : ((before ++ (tupleBytes t ++ after)).drop before.length).take sizeofKey =
      leBytes sizeofKey t.1 := by
    rw [List.drop_left, tupleBytes, List.append_assoc,
      List.take_left' (length_leBytes sizeofKey t.1)]
  have hrest : (before ++ (tupleBytes t ++ after)).drop (before.length + sizeofKey) =
      t.2.toList ++ (List.replicate L.padding 0 ++ after) := by
    rw [← List.drop_drop, List.drop_left, tupleBytes, List.append_assoc,
      List.drop_left' (length_leBytes sizeofKey t.1), List.append_assoc]
  have hlt : t.1 < 256 ^ sizeofKey := by
    simpa [sizeofKey] using ht
  refine Prod.ext ?_ ?_
  · simp only [readTuple, hkey]
    exact ofLeBytes_leBytes hlt
  refine Vector.ext (fun i hi => ?_)
  have hi' : i < t.2.toList.length := by simpa using hi
  simp only [readTuple, hrest, Vector.getElem_ofFn, List.getD_eq_getElem?_getD,
    List.getElem?_append_left hi']
  simp [hi]

lemma length_blockBytes (ts : List (ℕ × Payload L)) :
    (blockBytes ts).length = ts.length * L.tupleSize := by
  induction ts with
  | nil => simp [blockBytes]
  | cons t ts ih =>
    rw [blockBytes, List.flatMap_cons, List.length_append, length_tupleBytes, List.length_cons]
    rw [blockBytes] at ih
    rw [ih]
    ring

lemma blockBytes_concat (ts : List (ℕ × Payload L)) (t : ℕ × Payload L) :
    blockBytes (ts ++ [t]) = blockBytes ts ++ tupleBytes t := by
  simp [blockBytes]

/-- **A tuple of a block is read at its offset.** -/
lemma readTuple_blockBytes {ts : List (ℕ × Payload L)} {t : ℕ × Payload L} {i : ℕ}
    (ht : t.1 < 2 ^ 64) (hi : ts[i]? = some t) :
    readTuple L (blockBytes ts) (i * L.tupleSize) = t := by
  obtain ⟨hlt, hget⟩ := List.getElem?_eq_some_iff.1 hi
  have hsplit : ts = ts.take i ++ (t :: ts.drop (i + 1)) := by
    rw [← hget, List.getElem_cons_drop, List.take_append_drop]
  have hbytes : blockBytes ts =
      blockBytes (ts.take i) ++ (tupleBytes t ++ blockBytes (ts.drop (i + 1))) := by
    conv_lhs => rw [hsplit]
    simp [blockBytes]
  have hlength : (blockBytes (ts.take i)).length = i * L.tupleSize := by
    rw [length_blockBytes, List.length_take, Nat.min_eq_left hlt.le]
  rw [hbytes, ← hlength]
  exact readTuple_append ht _ _

/-- The loop over a block visits its tuples. -/
lemma offsets_blockBytes (ts : List (ℕ × Payload L)) :
    offsets L (blockBytes ts).length = (List.range ts.length).map (fun i => i * L.tupleSize) := by
  have hpos := tupleSize_pos L
  have hcount : ((blockBytes ts).length + L.tupleSize - 1) / L.tupleSize = ts.length := by
    rw [length_blockBytes]
    refine Nat.div_eq_of_lt_le ?_ ?_
    · omega
    · rw [Nat.succ_mul]
      omega
  rw [offsets, hcount]

end TwoTree.AntiCaching
