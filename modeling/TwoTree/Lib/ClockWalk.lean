import TwoTree.Lib.OrderedMap

/-!
# The clock

A clock algorithm walks over the entries of a map.  An entry that is marked loses its mark and
stays; an entry that is not marked is picked as a victim.  Where the walk stops differs from store
to store, so `Walks` leaves it open.

`Walks.data` says that a walk changes nothing but the marks, and `Walks.sublist` that its victims
are among the entries it has met.
-/

namespace TwoTree.Lib.Clock

open Std OrderedMap

variable {β δ : Type*} {marked : β → Bool} {unmark : β → β} {l victims : List (ℕ × β)}
  {t t' : TreeMap ℕ β}

/-- A walk over `l` turns the map `t` into `t'` and picks the victims. -/
inductive Walks (marked : β → Bool) (unmark : β → β) :
    List (ℕ × β) → TreeMap ℕ β → TreeMap ℕ β → List (ℕ × β) → Prop
  | stop (l : List (ℕ × β)) (t : TreeMap ℕ β) : Walks marked unmark l t t []
  | skip {k : ℕ} {b : β} {l victims : List (ℕ × β)} {t t' : TreeMap ℕ β} : marked b = true →
      Walks marked unmark l (t.insert k (unmark b)) t' victims →
      Walks marked unmark ((k, b) :: l) t t' victims
  | pick {k : ℕ} {b : β} {l victims : List (ℕ × β)} {t t' : TreeMap ℕ β} : marked b = false →
      Walks marked unmark l t t' victims →
      Walks marked unmark ((k, b) :: l) t t' ((k, b) :: victims)

namespace Walks

lemma sublist (h : Walks marked unmark l t t' victims) : victims.Sublist l := by
  induction h with
  | stop l _ => exact List.nil_sublist l
  | skip _ _ ih => exact ih.cons _
  | pick _ _ ih => exact ih.cons_cons _

lemma data_insert_unmark (data : β → δ) (unmark : β → β) (hdata : ∀ b, data (unmark b) = data b)
    {k : ℕ} {b : β} (h : t[k]?.map data = some (data b)) (a : ℕ) :
    (t.insert k (unmark b))[a]?.map data = t[a]?.map data := by
  rw [getElem?_insert]
  split_ifs with ha
  · rw [← ha, h, Option.map_some, hdata]
  · rfl

/-- **A walk changes nothing but the marks.** -/
lemma data_eq (h : Walks marked unmark l t t' victims) {data : β → δ}
    (hdata : ∀ b, data (unmark b) = data b)
    (hl : ∀ e ∈ l, t[e.1]?.map data = some (data e.2)) (a : ℕ) :
    t'[a]?.map data = t[a]?.map data := by
  induction h with
  | stop => rfl
  | skip _ _ ih =>
    have hsame := data_insert_unmark data unmark hdata (hl _ List.mem_cons_self)
    rw [ih (fun e he => (hsame e.1).trans (hl e (List.mem_cons_of_mem _ he))), hsame]
  | pick _ _ ih => exact ih (fun e he => hl e (List.mem_cons_of_mem _ he))

/-- A walk that starts from a scan of the map: its victims are distinct entries of it. -/
lemma victims_spec {start : ℕ} (h : Walks marked unmark (scanFrom t start) t t' victims)
    (data : β → δ) (hdata : ∀ b, data (unmark b) = data b) :
    (∀ a : ℕ, t'[a]?.map data = t[a]?.map data) ∧
      (∀ e ∈ victims, t'[e.1]?.map data = some (data e.2)) ∧
      victims.Pairwise (fun e e' => e.1 ≠ e'.1) := by
  have hl : ∀ e ∈ scanFrom t start, t[e.1]?.map data = some (data e.2) := fun e he => by
    rw [(mem_scanFrom.1 he).2, Option.map_some]
  have hsame := h.data_eq hdata hl
  refine ⟨hsame, fun e he => (hsame e.1).trans (hl e (h.sublist.subset he)), ?_⟩
  exact ((pairwise_scanFrom t start).imp Nat.ne_of_lt).sublist h.sublist

end Walks

end TwoTree.Lib.Clock
