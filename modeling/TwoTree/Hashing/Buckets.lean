import TwoTree.Hashing.SplitPointer

/-!
# Records filed in buckets

What the two hash tables have in common, without their pages: each bucket has a list of records, every
record is in its home bucket, no key has two, and looking a key up in its home bucket gives what a map
has (`Filed`).

The operations of both tables come down to two changes of such lists.  A record of one bucket is
replaced, added or taken out (`Filed.rewritten`), or the bucket at the split pointer is divided
(`Filed.divided`).
-/

namespace TwoTree.Hashing

open Lib.Records

variable {hashFunc : Bytes → ℕ} {r r' : Rounds} {recs recs' : ℕ → List (Bytes × Bytes)}
  {m : Bytes → Option Bytes} {key : Bytes}

/-- The records are in the buckets that the rounds give for them, and make up the map. -/
structure Filed (hashFunc : Bytes → ℕ) (r : Rounds) (recs : ℕ → List (Bytes × Bytes))
    (m : Bytes → Option Bytes) : Prop where
  placed : ∀ {b x}, x ∈ recs b → r.home (hashFunc x.1) = b
  distinct : ∀ b, Distinct (recs b)
  lookup : ∀ key, (recs (r.home (hashFunc key))).lookup key = m key

namespace Filed

variable (h : Filed hashFunc r recs m)
include h

lemma notMem (hkey : m key = none) : key ∉ (recs (r.home (hashFunc key))).map Prod.fst := by
  intro hmem
  obtain ⟨⟨_, v⟩, hx, rfl⟩ := List.mem_map.1 hmem
  have hsome := lookup_eq_some_of_mem (h.distinct _) hx
  rw [h.lookup, hkey] at hsome
  cases hsome

lemma eq_none_of_notMem (hkey : key ∉ (recs (r.home (hashFunc key))).map Prod.fst) : m key = none := by
  rw [← h.lookup key]
  exact lookup_eq_none_of_notMem hkey

/-- A split that has only started leaves all homes. -/
lemma startSplit (hstart : r.startSplit = some r') : Filed hashFunc r' recs m := by
  obtain ⟨hpower, hfin, -, -⟩ := Rounds.startSplit_frame hstart
  have hhome : ∀ a, r'.home a = r.home a := fun a => by rw [Rounds.home, Rounds.home, hpower, hfin]
  refine ⟨fun {b x} hx => ?_, h.distinct, fun a => ?_⟩
  · rw [hhome]
    exact h.placed hx
  · rw [hhome]
    exact h.lookup a

/-- **One record is replaced**, in the home bucket of its key. -/
lemma rewritten {x y : Option Bytes}
    (hhome : Rewrites key x y (recs (r.home (hashFunc key))) (recs' (r.home (hashFunc key))))
    (hother : ∀ b, b ≠ r.home (hashFunc key) → recs' b = recs b) (hnew : x = none → m key = none) :
    Filed hashFunc r recs' (Function.update m key y) := by
  have hnew' : x = none → key ∉ (recs (r.home (hashFunc key))).map Prod.fst :=
    fun hx => h.notMem (hnew hx)
  refine ⟨fun {b z} hz => ?_, fun b => ?_, fun a => ?_⟩
  · rcases eq_or_ne b (r.home (hashFunc key)) with rfl | hb
    · rcases hhome.mem_of_mem hz with hold | ⟨-, hkey⟩
      · exact h.placed hold
      · rw [hkey]
    · rw [hother b hb] at hz
      exact h.placed hz
  · rcases eq_or_ne b (r.home (hashFunc key)) with rfl | hb
    · exact hhome.distinct (h.distinct _) hnew'
    · rw [hother b hb]
      exact h.distinct b
  · rcases eq_or_ne a key with rfl | ha
    · rw [Function.update_self]
      exact hhome.lookup_self (h.distinct _) hnew'
    rw [Function.update_of_ne ha, ← h.lookup a]
    by_cases hb : r.home (hashFunc a) = r.home (hashFunc key)
    · rw [hb]
      exact hhome.lookup_of_ne ha
    · rw [hother _ hb]

/-- The new home of a record in the bucket being split, as the split computes it. -/
lemma home_finishSplit (hok : r.Ok)
    (hsplit : r.startedSplits = r.finishedSplits + 1) {x : Bytes × Bytes}
    (hx : x ∈ recs r.finishedSplits) :
    r.finishSplit.home (hashFunc x.1) = hash hashFunc x.1 (r.power + 1) :=
  (hok.home_finishSplit_of_eq hsplit (h.placed hx)).1

/-- **One bucket is divided** between itself and a new one, as a split that is under way does it.  The
records may come in another order. -/
lemma divided (hok : r.Ok) (hsplit : r.startedSplits = r.finishedSplits + 1)
    (hstay : (recs' r.finishedSplits).Perm ((recs r.finishedSplits).filter
      (fun x => r.finishSplit.home (hashFunc x.1) = r.finishedSplits)))
    (hmoved : (recs' r.linked).Perm ((recs r.finishedSplits).filter
      (fun x => ¬ r.finishSplit.home (hashFunc x.1) = r.finishedSplits)))
    (hother : ∀ b, b ≠ r.finishedSplits → b ≠ r.linked → recs' b = recs b) :
    Filed hashFunc r.finishSplit recs' m := by
  have hne : r.linked ≠ r.finishedSplits :=
    (lt_of_lt_of_le hok.finished_lt (Nat.le_add_right _ _)).ne'
  refine ⟨fun {b x} hx => ?_, fun b => ?_, fun a => ?_⟩
  · by_cases hb : b = r.finishedSplits
    · subst hb
      exact of_decide_eq_true (List.mem_filter.1 (hstay.subset hx)).2
    by_cases hb' : b = r.linked
    · subst hb'
      obtain ⟨hx, hhome⟩ := List.mem_filter.1 (hmoved.subset hx)
      exact (hok.home_finishSplit_of_eq hsplit (h.placed hx)).2.resolve_left
        (of_decide_eq_true hhome)
    · rw [hother b hb hb'] at hx
      have hhome := h.placed hx
      rw [hok.home_finishSplit_of_ne hsplit (by rwa [hhome]), hhome]
  · by_cases hb : b = r.finishedSplits
    · rw [hb]
      exact ((h.distinct _).filter _).perm hstay
    by_cases hb' : b = r.linked
    · rw [hb']
      exact ((h.distinct _).filter _).perm hmoved
    · rw [hother b hb hb']
      exact h.distinct b
  · rw [← h.lookup a]
    by_cases hb : r.home (hashFunc a) = r.finishedSplits
    · rw [hb]
      rcases (hok.home_finishSplit_of_eq hsplit hb).2 with hnew | hnew
      · rw [hnew, lookup_eq_of_perm ((h.distinct _).filter _) hstay]
        exact lookup_filter (h.distinct _) (fun _ => decide_eq_true hnew)
      · rw [hnew, lookup_eq_of_perm ((h.distinct _).filter _) hmoved]
        exact lookup_filter (h.distinct _) (fun _ => decide_eq_true (by rw [hnew]; exact hne))
    · rw [hok.home_finishSplit_of_ne hsplit hb, hother _ hb (r.home_lt _).ne]

end Filed

end TwoTree.Hashing
