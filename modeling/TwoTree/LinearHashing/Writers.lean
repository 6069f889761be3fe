import TwoTree.LinearHashing.Refinement
import TwoTree.LinearHashing.Sections

/-!
# The writers refine a map

What any number of writers do to the table comes down to one step of a map for each of their
sections: an insertion stores a record, a removal takes one out if it is on the page that is latched,
and merging pages and the two halves of a split do nothing.  `Writes` pairs every table that an
interleaving of sections leads to with its map.
-/

namespace TwoTree.LinearHashing

open Hashing Lib.Records Function List

variable {cfg : Config} {t t' : Table} {key : Bytes} {m : Bytes → Option Bytes}

namespace Section

/-- What a section does to the map. -/
def apply (cfg : Config) (t : Table) (m : Bytes → Option Bytes) : Section → Bytes → Option Bytes
  | .insert _ key value => update m key (some value)
  | .addOverflow _ _ key value => update m key (some value)
  | .remove p key => if (t.pages p).page.find cfg.layout key = none then m else update m key none
  | _ => m

/-- Only absent keys are inserted. -/
def Fresh (m : Bytes → Option Bytes) : Section → Prop
  | .insert _ key _ => m key = none
  | .addOverflow _ _ key _ => m key = none
  | _ => True

end Section

/-- The tables that writers get to, with the map of what they did. -/
inductive Writes (cfg : Config) : Table → (Bytes → Option Bytes) → Prop
  | create : Writes cfg (Table.create cfg) fun _ => none
  | step {t : Table} {m : Bytes → Option Bytes} (s : Section) : Writes cfg t m → s.Ok cfg t →
      s.Fresh m → Writes cfg (s.run cfg t) (s.apply cfg t m)

/-- The records in the buckets make up the map. -/
def Table.Keeps (cfg : Config) (t : Table) (m : Bytes → Option Bytes) : Prop :=
  Filed cfg.hashFunc t.rounds (fun b => t.recordsOf (t.chain b)) m

lemma Rewritten.keeps {c' : ℕ → List ℕ} {x y : Option Bytes}
    (hr : Rewritten cfg t t.chain t' c' key x y) (h : t.Keeps cfg m)
    (hnew : x = none → m key = none) : t'.Keeps cfg (update m key y) := by
  rw [Table.Keeps, funext hr.structured.chain_eq, hr.rounds_eq]
  exact h.rewritten hr.home hr.other hnew

/-- **One section** is one step of the map. -/
lemma Section.keeps {s : Section} (hord : t.Ordered cfg) (h : t.Keeps cfg m) (hok : s.Ok cfg t)
    (hfresh : s.Fresh m) : (s.run cfg t).Keeps cfg (s.apply cfg t m) := by
  cases s with
  | pass p => exact h
  | insert p key value =>
    exact (hord.setPage hok.1 ((hord.ok hok.1).insert hok.2) (Page.rewrites_insert _ key value)
      _).keeps h fun _ => hfresh
  | addOverflow p new key value =>
    obtain ⟨hlast, -, hfits, hfree⟩ := hok
    obtain ⟨l, hl⟩ := getLast?_eq_some_iff.1 hlast
    exact (hord.addOverflow hl hfree hfits).keeps h fun _ => hfresh
  | remove p key =>
    rw [run, apply]
    cases hi : (t.pages p).page.find cfg.layout key with
    | none => exact h
    | some i =>
      obtain ⟨v, hv⟩ := (hord.ok hok).rewrites_removeSlot hi
      exact (hord.setPage hok ((hord.ok hok).removeSlot hi) hv _).keeps h (by simp)
  | merge pp target =>
    obtain ⟨⟨b, hb⟩, hnext, hfits⟩ := hok
    obtain ⟨l₁, l₂, hl⟩ := (hord.chain b).append_of_next hb hnext
    obtain ⟨hs, hrecs⟩ := hord.mergeAt hl hfits
    rw [Table.Keeps, run, funext hs.chain_eq, funext hrecs]
    exact h
  | startSplit =>
    have hstart := hord.rounds.startSplit hok.1
    rw [run, hstart]
    exact Filed.startSplit h hstart
  | moveRecords temp1 temp2 =>
    obtain ⟨hunder, h₁, h₂, hne, hsome⟩ := hok
    obtain ⟨t', hmove⟩ := Option.isSome_iff_exists.1 hsome
    have hsplit : t.rounds.startedSplits = t.rounds.finishedSplits + 1 := by
      have hle := hord.rounds.finished_le
      have hle' := hord.rounds.started_le
      rw [Rounds.Idle] at hunder
      omega
    obtain ⟨c', hm, -⟩ := hord.moveRecords hsplit h₁ h₂ hne hmove
    rw [run, hmove, Option.getD_some, Table.Keeps, funext hm.structured.chain_eq, hm.rounds_eq]
    have hstay := hm.stay
    have hmoved := hm.moved
    rw [hm.rounds_eq] at hstay hmoved
    exact h.divided hord.rounds hsplit (.of_eq hstay) (.of_eq hmoved)
      fun b hb hb' => (hm.other b hb hb').2

/-- **Every interleaving of writers refines a map.**  Whatever sections of insertions of absent
keys, removals, merges and splits there were, in any order, a lookup returns what the map has when no
split is under way. -/
theorem lookup_of_writes (h : Writes cfg t m) (hidle : t.rounds.Idle) (key : Bytes) :
    t.lookup cfg key = some (m key) := by
  have hinv : t.Ordered cfg ∧ t.Keeps cfg m := by
    clear hidle
    induction h with
    | create =>
      have hs := structured_create cfg
      refine ⟨hs.ordered, ?_⟩
      rw [Table.Keeps, funext hs.chain_eq]
      exact (holds_create cfg 0 0).filed
    | step s _ hok hfresh ih =>
      obtain ⟨k, hk⟩ := s.exists_spares
      exact ⟨(Section.kept ih.1 hok hk).ordered, Section.keeps ih.1 ih.2 hok hfresh⟩
  rw [hinv.1.lookup_eq hidle]
  exact congrArg some (hinv.2.lookup key)

theorem lookup_of_writes_inserted : ∃ t m, Writes sumConfig t m ∧ t.rounds.Idle ∧ m [0] = some [7] ∧
    t.lookup sumConfig [0] = some (m [0]) := by
  have h : Writes sumConfig _ _ := .step (.insert 0 [0] [7]) .create ⟨by decide, by decide⟩ rfl
  exact ⟨_, _, h, rfl, rfl, lookup_of_writes h rfl [0]⟩

end TwoTree.LinearHashing
