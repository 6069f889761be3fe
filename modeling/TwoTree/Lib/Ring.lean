import Mathlib.Tactic

/-!
# Rings of linked nodes

A doubly linked list whose last node links back to its head.  The links are two pointers per node,
which may be null, and the operations are the assignments of a program that works on them in place:
`unlink` takes a node out, `linkFirst` and `linkLast` put one next to the head.

`IsRing s h l` says that the links form a ring around the head `h`, on which the nodes `l` follow one
another, each once.  The operations then do to `l` what one expects.
-/

namespace TwoTree.Lib.Ring

open Function List

variable {α : Type*}

/-- The pointers of all nodes. -/
structure Links (α : Type*) where
  prev : α → Option α
  next : α → Option α

namespace Links

/-- A head without nodes. -/
def single [DecidableEq α] (h : α) : Links α :=
  ⟨update (fun _ => none) h (some h), update (fun _ => none) h (some h)⟩

/-- The pointers of a new node are null. -/
def reset [DecidableEq α] (s : Links α) (x : α) : Links α :=
  ⟨update s.prev x none, update s.next x none⟩

/-- Take a node out, if it is linked. -/
def unlink [DecidableEq α] (s : Links α) (x : α) : Links α :=
  match s.prev x, s.next x with
  | some p, some n =>
    ⟨update (update s.prev n (some p)) x none,
      update (update s.next p (some n)) x none⟩
  | _, _ => s

/-- Put a node behind the head. -/
def linkFirst [DecidableEq α] (s : Links α) (h x : α) : Links α :=
  match s.next h with
  | some f =>
    ⟨update (update s.prev x (some h)) f (some x),
      update (update s.next x (some f)) h (some x)⟩
  | none => s

/-- Put a node before the head. -/
def linkLast [DecidableEq α] (s : Links α) (h x : α) : Links α :=
  match s.prev h with
  | some e =>
    ⟨update (update s.prev x (some e)) h (some x),
      update (update s.next x (some h)) e (some x)⟩
  | none => s

/-- The two nodes are linked to one another. -/
def Joined (s : Links α) (a b : α) : Prop := s.next a = some b ∧ s.prev b = some a

/-- The links form a ring of the nodes `l` around the head `h`. -/
structure IsRing (s : Links α) (h : α) (l : List α) : Prop where
  chain : (h :: (l ++ [h])).IsChain s.Joined
  nodup : (h :: l).Nodup

variable {s : Links α} {h x : α} {l l' : List α}

lemma IsRing.prev_head (hs : s.IsRing h l) : s.prev h = some (l.getLast?.getD h) := by
  have hchain : ((h :: l) ++ [h]).IsChain s.Joined := hs.chain
  exact ((isChain_append.1 hchain).2.2 _ getLast?_cons h rfl).2

lemma IsRing.prev_last (hs : s.IsRing h (l ++ [x])) : s.prev x = some (l.getLast?.getD h) := by
  have hchain : ((h :: l) ++ [x, h]).IsChain s.Joined := by simpa using hs.chain
  exact ((isChain_append.1 hchain).2.2 _ getLast?_cons x rfl).2

/-- The pointers the other way round. -/
def swap (s : Links α) : Links α := ⟨s.next, s.prev⟩

/-- The other way round the nodes follow one another backwards. -/
lemma IsRing.swap (hs : s.IsRing h l) : s.swap.IsRing h l.reverse := by
  refine ⟨?_, ?_⟩
  · have hrev : h :: (l.reverse ++ [h]) = (h :: (l ++ [h])).reverse := by simp
    rw [hrev, isChain_reverse]
    exact hs.chain.imp fun a b hab => hab.symm
  · simpa using hs.nodup

variable [DecidableEq α]

lemma isRing_single (h : α) : (single h).IsRing h [] := by
  refine ⟨?_, nodup_singleton h⟩
  simp [Joined, single]

/-- A node that is not on the ring may be changed. -/
lemma IsRing.reset (hs : s.IsRing h l) (hx : x ∉ h :: l) : (s.reset x).IsRing h l := by
  have hmem : ∀ a ∈ h :: (l ++ [h]), a ≠ x := by
    intro a ha hax
    refine hx (hax ▸ ?_)
    simpa [or_comm] using ha
  refine ⟨hs.chain.imp_of_mem_imp (fun a b ha hb hab => ?_), hs.nodup⟩
  simpa [Joined, Links.reset, update_of_ne (hmem a ha), update_of_ne (hmem b hb)] using hab

lemma unlink_of_prev_none (hx : s.prev x = none) : s.unlink x = s := by
  simp [unlink, hx]

lemma prev_reset (s : Links α) (x : α) : (s.reset x).prev x = none := update_self _ _ _

/-- Away from the node that is taken out, the links stay. -/
lemma Joined.unlink {a b p n : α} (hp : s.Joined p x) (hn : s.Joined x n) (hab : s.Joined a b)
    (ha : a ≠ x) (hb : b ≠ x) : (s.unlink x).Joined a b := by
  have hap : a ≠ p := by
    rintro rfl
    exact hb (Option.some.inj (hab.1.symm.trans hp.1))
  have hbn : b ≠ n := by
    rintro rfl
    exact ha (Option.some.inj (hab.2.symm.trans hn.2))
  simp only [Joined, Links.unlink, hp.2, hn.1, update_of_ne ha, update_of_ne hb,
    update_of_ne hap, update_of_ne hbn]
  exact hab

/-- **A node is taken out.** -/
lemma IsRing.unlink (hs : s.IsRing h (l ++ x :: l')) : (s.unlink x).IsRing h (l ++ l') := by
  obtain ⟨init, p, hinit⟩ : ∃ init p, h :: l = init ++ [p] :=
    ⟨_, _, (dropLast_append_getLast (cons_ne_nil h l)).symm⟩
  obtain ⟨n, rest, hrest⟩ : ∃ n rest, l' ++ [h] = n :: rest :=
    exists_cons_of_ne_nil (by simp)
  have hbefore : h :: (l ++ x :: l' ++ [h]) = init ++ p :: x :: (n :: rest) := by
    rw [← hrest, ← singleton_append (x := p), ← append_assoc, ← hinit]
    simp
  have hafter : h :: (l ++ l' ++ [h]) = init ++ p :: n :: rest := by
    rw [← hrest, ← singleton_append (x := p), ← append_assoc, ← hinit]
    simp
  have hnodup := hs.nodup
  have hx : ∀ a ∈ h :: (l ++ l' ++ [h]), a ≠ x := by
    rintro a ha rfl
    simp only [nodup_cons, mem_append, mem_cons, nodup_append] at hnodup
    simp only [mem_cons, mem_append, not_mem_nil, or_false] at ha
    grind
  have hchain := hs.chain
  rw [hbefore, isChain_append_cons_cons] at hchain
  obtain ⟨hfront, hpx, hback⟩ := hchain
  obtain ⟨hxn, hback⟩ := isChain_cons_cons.1 hback
  rw [hafter] at hx
  have hpx' : p ≠ x := hx p (by simp)
  have hnx' : n ≠ x := hx n (by simp)
  refine ⟨?_, ?_⟩
  · rw [hafter, isChain_append_cons_cons]
    refine ⟨hfront.imp_of_mem_imp (fun a b ha hb hab => ?_), ?_,
      hback.imp_of_mem_imp (fun a b ha hb hab => ?_)⟩
    · refine hpx.unlink hxn hab (hx a ?_) (hx b ?_)
      · exact mem_append.2 ((mem_append.1 ha).imp_right (by simp_all))
      · exact mem_append.2 ((mem_append.1 hb).imp_right (by simp_all))
    · simp [Joined, Links.unlink, hpx.2, hxn.1, update_of_ne hpx', update_of_ne hnx']
    · refine hpx.unlink hxn hab (hx a ?_) (hx b ?_)
      · exact mem_append.2 (Or.inr (mem_cons_of_mem p ha))
      · exact mem_append.2 (Or.inr (mem_cons_of_mem p hb))
  · have hsub : (h :: (l ++ l')).Sublist (h :: (l ++ x :: l')) :=
      ((sublist_cons_self x l').append_left l).cons_cons h
    exact hnodup.sublist hsub

/-- **A node is put behind the head.** -/
lemma IsRing.linkFirst (hs : s.IsRing h l) (hx : x ∉ h :: l) :
    (s.linkFirst h x).IsRing h (x :: l) := by
  obtain ⟨f, rest, hrest⟩ : ∃ f rest, l ++ [h] = f :: rest := exists_cons_of_ne_nil (by simp)
  have hmem : ∀ a ∈ f :: rest, a ≠ x := by
    intro a ha hax
    rw [← hrest] at ha
    exact hx (hax ▸ (by simpa [or_comm] using ha))
  have hchain := hs.chain
  rw [hrest] at hchain
  obtain ⟨hhf, hback⟩ := isChain_cons_cons.1 hchain
  have hfx : f ≠ x := hmem f mem_cons_self
  have hhx : x ≠ h := fun hxh => hx (hxh ▸ mem_cons_self)
  have hkeep : ∀ a b, a ∈ l → b ≠ x → s.Joined a b → (s.linkFirst h x).Joined a b := by
    intro a b ha hbx hab
    have hah : a ≠ h := fun hah => (nodup_cons.1 hs.nodup).1 (hah ▸ ha)
    have hax : a ≠ x := fun hax => hx (hax ▸ mem_cons_of_mem h ha)
    have hbf : b ≠ f := by
      rintro rfl
      exact hah (Option.some.inj (hab.2.symm.trans hhf.2))
    simp only [Joined, Links.linkFirst, hhf.1, update_of_ne hah, update_of_ne hax,
      update_of_ne hbx, update_of_ne hbf]
    exact hab
  refine ⟨?_, nodup_cons.2 ⟨fun hh => ?_, nodup_cons.2 ⟨?_, hs.nodup.of_cons⟩⟩⟩
  · rw [cons_append, isChain_cons_cons]
    refine ⟨?_, ?_⟩
    · simp [Joined, Links.linkFirst, hhf.1, update_of_ne hfx.symm]
    rw [hrest, isChain_cons_cons]
    refine ⟨?_, ?_⟩
    · simp [Joined, Links.linkFirst, hhf.1, update_of_ne hhx]
    rw [← hrest] at hback hmem ⊢
    obtain ⟨hchain, -, hlast⟩ := isChain_append.1 hback
    refine isChain_append.2 ⟨hchain.imp_of_mem_imp (fun a b ha hb => ?_),
      isChain_singleton h, fun a ha b hb => ?_⟩
    · exact hkeep a b ha (hmem b (mem_append_left _ hb))
    · obtain rfl : h = b := by simpa using hb
      exact hkeep a h (mem_of_getLast? ha) hhx.symm (hlast a ha h rfl)
  · rcases mem_cons.1 hh with rfl | hh
    · exact hhx rfl
    · exact (nodup_cons.1 hs.nodup).1 hh
  · exact fun hxl => hx (mem_cons_of_mem h hxl)

/-- **A node is put before the head**: seen the other way round, behind it. -/
lemma IsRing.linkLast (hs : s.IsRing h l) (hx : x ∉ h :: l) :
    (s.linkLast h x).IsRing h (l ++ [x]) := by
  have hmirror : s.linkLast h x = (s.swap.linkFirst h x).swap := by
    simp only [Links.linkLast, Links.linkFirst, Links.swap]
    cases s.prev h <;> rfl
  have hfirst := (hs.swap.linkFirst (x := x) (by simpa using hx)).swap
  rw [hmirror]
  simpa using hfirst

end Links

end TwoTree.Lib.Ring
