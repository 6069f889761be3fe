import Mathlib.Tactic

/-!
# Linked cells

Cells at addresses, each naming the address of the next.  A list of cells is linked when each cell
names the one behind it in the list.  A segment of a linked list may be exchanged for another one that
starts at the same address and ends with the same link (`Relinks.context`), and following the links
from the first cell visits the list from front to back (`follow_eq`).
-/

namespace TwoTree.Lib

open Option List

variable {ι α : Type*} (address : α → ι) (next : α → Option ι)

/-- Each cell names the one behind it. -/
def Linked (L : List α) : Prop := L.IsChain fun x y => next x = some (address y)

/-- The segment `L` may be exchanged for `L'`. -/
structure Relinks (L L' : List α) : Prop where
  head : L'.head?.map address = L.head?.map address
  last : L'.getLast?.map next = L.getLast?.map next
  linked : Linked address next L → Linked address next L'

namespace Relinks

variable {address next} {L L' L'' A B : List α}

lemma refl (L : List α) : Relinks address next L L := ⟨rfl, rfl, id⟩

variable (h : Relinks address next L L')
include h

lemma trans (h' : Relinks address next L' L'') : Relinks address next L L'' :=
  ⟨h'.head.trans h.head, h'.last.trans h.last, h'.linked ∘ h.linked⟩

lemma append_right : Relinks address next (L ++ B) (L' ++ B) where
  head := by simp [map_or, h.head]
  last := by simp [map_or, h.last]
  linked := by
    intro hlink
    obtain ⟨hL, hB, hLB⟩ := isChain_append.1 hlink
    refine isChain_append.2 ⟨h.linked hL, hB, ?_⟩
    intro x hx y hy
    -- the last link of the new segment is the last link of the old one
    have hlast : L.getLast?.map next = some (next x) := by
      rw [← h.last, mem_def.1 hx]
      rfl
    obtain ⟨z, hz, hzx⟩ := map_eq_some_iff.1 hlast
    rw [← hzx]
    exact hLB z hz y hy

lemma append_left : Relinks address next (A ++ L) (A ++ L') where
  head := by simp [map_or, h.head]
  last := by simp [map_or, h.last]
  linked := by
    intro hlink
    obtain ⟨hA, hL, hAL⟩ := isChain_append.1 hlink
    refine isChain_append.2 ⟨hA, h.linked hL, ?_⟩
    intro x hx y hy
    have hhead : L.head?.map address = some (address y) := by
      rw [← h.head, mem_def.1 hy]
      rfl
    obtain ⟨z, hz, hzy⟩ := map_eq_some_iff.1 hhead
    rw [← hzy]
    exact hAL x hx z hz

lemma context : Relinks address next (A ++ L ++ B) (A ++ L' ++ B) := h.append_left.append_right

end Relinks

/-! ## Following the links -/

/-- Follow the links from an address, for at most the given number of cells. -/
def follow (find : ι → Option α) : ℕ → Option ι → List α
  | fuel + 1, some a =>
    match find a with
    | some x => x :: follow find fuel (next x)
    | none => []
  | _, _ => []

variable {address next} {find : ι → Option α} {L : List α} {x : α}

lemma Linked.next_eq (hlink : Linked address next (x :: L))
    (hlast : (x :: L).getLast?.map next = some none) : next x = L.head?.map address := by
  rcases L with _ | ⟨y, L⟩
  · simpa using hlast
  · exact (isChain_cons_cons.1 hlink).1

/-- **Following the links of a linked list visits it from front to back.** -/
lemma follow_eq (hlink : Linked address next L) (hlast : ∀ l ∈ L.getLast?, next l = none)
    (hfind : ∀ x ∈ L, find (address x) = some x) {fuel : ℕ} (hfuel : L.length ≤ fuel) :
    follow next find fuel (L.head?.map address) = L := by
  induction L generalizing fuel with
  | nil => cases fuel <;> rfl
  | cons x L ih =>
    obtain ⟨fuel, rfl⟩ : ∃ m, fuel = m + 1 := ⟨fuel - 1, by simp at hfuel; omega⟩
    have hnext : next x = L.head?.map address := by
      refine hlink.next_eq ?_
      obtain ⟨l, hl⟩ := isSome_iff_exists.1 (List.getLast?_isSome.2 (by simp) :
        (x :: L).getLast?.isSome)
      rw [hl, map_some, hlast l hl]
    have htail : ∀ l ∈ L.getLast?, next l = none := by
      intro l hl
      refine hlast l ?_
      rw [List.getLast?_cons, mem_def.1 hl]
      rfl
    simp only [List.head?_cons, map_some, follow, hfind x (by simp), hnext]
    rw [ih hlink.of_cons htail (fun y hy => hfind y (by simp [hy])) (by simpa using hfuel)]

/-- Cells at different addresses are found by their address. -/
lemma find?_address [DecidableEq ι] (hnodup : (L.map address).Nodup) (hx : x ∈ L) :
    L.find? (fun y => address y = address x) = some x := by
  induction L with
  | nil => simp at hx
  | cons y L ih =>
    rw [map_cons, nodup_cons] at hnodup
    rcases mem_cons.1 hx with rfl | hx
    · simp
    have hne : address y ≠ address x := by
      intro heq
      exact hnodup.1 (heq ▸ mem_map_of_mem hx)
    rw [List.find?_cons_of_neg (by simpa using hne)]
    exact ih hnodup.2 hx

end TwoTree.Lib
