import Mathlib.Tactic

/-!
# Writes to a block device

A device is a function from positions to bytes.  Writes that are under way at the same time may finish
in any order; if no two of them overlap, the order does not matter (`applyAll_of_mem`).
-/

namespace TwoTree.Lib.BlockDevice

/-- The first `size` bytes of `src`, to be written to `offset`. -/
structure Write where
  src : ℕ → UInt8
  size : ℕ
  offset : ℕ

namespace Write

/-- The position is written. -/
def Covers (w : Write) (i : ℕ) : Prop := w.offset ≤ i ∧ i < w.offset + w.size

instance (w : Write) (i : ℕ) : Decidable (w.Covers i) := inferInstanceAs (Decidable (_ ∧ _))

/-- The device after the write. -/
def apply (dev : ℕ → UInt8) (w : Write) : ℕ → UInt8 :=
  fun i => if w.Covers i then w.src (i - w.offset) else dev i

/-- No position is written by both. -/
def Disjoint (w w' : Write) : Prop := ∀ i, w.Covers i → ¬ w'.Covers i

lemma Disjoint.symm {w w' : Write} (h : w.Disjoint w') : w'.Disjoint w :=
  fun i hi' hi => h i hi hi'

lemma apply_of_covers {dev : ℕ → UInt8} {w : Write} {i : ℕ} (h : w.Covers i) :
    w.apply dev i = w.src (i - w.offset) := if_pos h

lemma apply_of_not_covers {dev : ℕ → UInt8} {w : Write} {i : ℕ} (h : ¬ w.Covers i) :
    w.apply dev i = dev i := if_neg h

end Write

/-- The device after some writes. -/
def applyAll (dev : ℕ → UInt8) (ws : List Write) : ℕ → UInt8 := ws.foldl Write.apply dev

variable {dev : ℕ → UInt8} {ws ws' : List Write} {w : Write} {i : ℕ}

lemma applyAll_of_not_covers (h : ∀ w ∈ ws, ¬ w.Covers i) : applyAll dev ws i = dev i := by
  induction ws generalizing dev with
  | nil => rfl
  | cons w ws ih =>
    have htail : applyAll (w.apply dev) ws i = w.apply dev i :=
      ih (fun w' hw' => h w' (List.mem_cons_of_mem w hw'))
    exact htail.trans (Write.apply_of_not_covers (h w List.mem_cons_self))

/-- **Writes that do not overlap** leave their bytes on the device. -/
lemma applyAll_of_mem (hws : ws.Pairwise Write.Disjoint) (hw : w ∈ ws) (hi : w.Covers i) :
    applyAll dev ws i = w.src (i - w.offset) := by
  induction ws generalizing dev with
  | nil => exact absurd hw List.not_mem_nil
  | cons v ws ih =>
    obtain ⟨hv, hws⟩ := List.pairwise_cons.1 hws
    rcases List.mem_cons.1 hw with rfl | hmem
    · have htail : applyAll (w.apply dev) ws i = w.apply dev i :=
        applyAll_of_not_covers (fun w' hw' => hv w' hw' i hi)
      exact htail.trans (Write.apply_of_covers hi)
    · exact ih hws hmem

lemma pairwise_disjoint_of_perm (hws : ws.Pairwise Write.Disjoint) (h : ws'.Perm ws) :
    ws'.Pairwise Write.Disjoint :=
  (h.pairwise_iff (fun h => Write.Disjoint.symm h)).2 hws

end TwoTree.Lib.BlockDevice
