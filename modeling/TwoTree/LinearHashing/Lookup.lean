import TwoTree.Lib.Interleaving
import TwoTree.LinearHashing.Sections

/-!
# Lookups while others write

A lookup takes no latches.  It remembers the version of a page when it gets there, reads, and checks
later that the version is still the same; a writer's section adds two to the version of every page it
latches.  The steps of a lookup are the single reads and checks of the source: the split pointer, the
mapping table, a version, the search of a page, an overflow link, and the checks inside and after the
construction of a page guard.  Directory pages are never latched once they are there, so the checks of
their versions cannot fail and are left out.

What a lookup knows about the page it has reached is conditional (`Pc.Knows`): if the split pointer is
still what it was, and the version of the page too, the key is on this page or behind it.  Each page
that is searched in vain and found unchanged passes that on to the next, and so the end of the chain
is never reached, as long as the last page is checked too.  The source checks it on every way out but
one: if the first page of a bucket has no overflow link, the lookup gives up without another look at
the version.

`present_key_not_missed` is the result for the runs in which that page has not changed; in
`present_key_missed` it has.
-/

namespace TwoTree.LinearHashing

open Hashing Lib.Chain Lib.Records Lib.Interleaving Function Table Page

variable {cfg : Config} {k : Bytes}

/-- What the threads share: the table, and the versions of its pages' latches. -/
structure Shared where
  table : Table
  version : ℕ → ℕ

/-- The split pointer, as one word. -/
def Table.pointer (t : Table) : ℕ × ℕ := (t.rounds.power, t.rounds.buddyBucket)

/-- The places in `lookup`.  `sp` is the first load of the split pointer, and `v` and `w` are the
versions that the guards of the pages `p` and `q` hold. -/
inductive Pc where
  | idle
  | loading
  | directory (sp : ℕ × ℕ)
  | guarding (sp : ℕ × ℕ) (p : ℕ)
  | searching (sp : ℕ × ℕ) (p v : ℕ)
  | linkHead (sp : ℕ × ℕ) (p v : ℕ)
  | resolving (sp : ℕ × ℕ) (p v : ℕ)
  | checkResolved (sp : ℕ × ℕ) (p v : ℕ) (q : Option ℕ)
  | guardNext (sp : ℕ × ℕ) (p v q : ℕ)
  | checkGuard (sp : ℕ × ℕ) (p v q w : ℕ)
  | searchNext (sp : ℕ × ℕ) (p v q w : ℕ)
  | checkSearched (sp : ℕ × ℕ) (p v q w : ℕ) (found : Option Bytes)
  | linkNext (sp : ℕ × ℕ) (q w : ℕ)
  | checkLast (sp : ℕ × ℕ) (q w : ℕ)
  | checkFound (p v : ℕ) (value : Bytes)
  | loadAgain (sp : ℕ × ℕ)
deriving DecidableEq, Repr

/-- What a lookup returns. -/
inductive Event where
  | found (value : Bytes)
  | notFound
deriving DecidableEq, Repr

/-- A thread goes on with its lookup, or carries out a section of a writer. -/
inductive Input where
  | lookup
  | section (s : Section)
deriving DecidableEq, Repr

/-- One step of `lookup`. -/
def lookupStep (cfg : Config) (k : Bytes) (s : Shared) : Pc → Pc × Option Event
  | .idle => (.loading, none)
  | .loading => (.directory s.table.pointer, none)
  | .directory sp =>
    match s.table.bucketPtrs (bucketOf cfg.hashFunc sp.1 sp.2 k) with
    | none => (.loading, none)
    | some p => (.guarding sp p, none)
  | .guarding sp p => (.searching sp p (s.version p), none)
  | .searching sp p v =>
    match (s.table.pages p).page.get cfg.layout k with
    | some value => (.checkFound p v value, none)
    | none => (.linkHead sp p v, none)
  | .linkHead sp p v =>
    match s.table.next p with
    | none => (.loadAgain sp, none)
    | some _ => (.resolving sp p v, none)
  | .resolving sp p v => (.checkResolved sp p v (s.table.next p), none)
  | .checkResolved sp p v q =>
    match q with
    | some q => if s.version p = v then (.guardNext sp p v q, none) else (.loading, none)
    | none => (.loading, none)
  | .guardNext sp p v q => (.checkGuard sp p v q (s.version q), none)
  | .checkGuard sp p v q w =>
    if s.version p = v then (.searchNext sp p v q w, none) else (.loading, none)
  | .searchNext sp p v q w =>
    (.checkSearched sp p v q w ((s.table.pages q).page.get cfg.layout k), none)
  | .checkSearched sp p v q w found =>
    if s.version p = v then
      match found with
      | some value => (.checkFound q w value, none)
      | none => (.linkNext sp q w, none)
    else (.loading, none)
  | .linkNext sp q w =>
    match s.table.next q with
    | none => (.checkLast sp q w, none)
    | some _ => (.resolving sp q w, none)
  | .checkLast sp q w => if s.version q = w then (.loadAgain sp, none) else (.loading, none)
  | .checkFound p v value =>
    if s.version p = v then (.idle, some (.found value)) else (.loading, none)
  | .loadAgain sp =>
    if s.table.pointer = sp then (.idle, some .notFound) else (.loading, none)

/-- A section, with the versions of the pages it latches. -/
def Shared.runSection (cfg : Config) (s : Shared) (sec : Section) : Shared where
  table := sec.run cfg s.table
  version p := if p ∈ sec.latched s.table then s.version p + 2 else s.version p

/-- Threads that look up `k`, and threads that write. -/
def program (cfg : Config) (k : Bytes) : Program Shared Pc Input Event
  | .lookup, s, pc => (s, (lookupStep cfg k s pc).1, (lookupStep cfg k s pc).2)
  | .section sec, s, pc => (s.runSection cfg sec, pc, none)

/-- The writers work on other keys. -/
def Interleaved (cfg : Config) (k : Bytes) (s : State Shared Pc) (thread : ℕ) : Input → Prop
  | .lookup => True
  | .section sec => s.place thread = .idle ∧ sec.Ok cfg s.shared.table ∧ sec.Spares k

/-- A lookup that reads from the first page of a bucket that there is no overflow page finds that page
as it was when it was searched. -/
def HeadUnchanged (s : State Shared Pc) (thread : ℕ) : Input → Prop
  | .lookup => ∀ sp p v, s.place thread = .linkHead sp p v → s.shared.table.next p = none →
      s.shared.version p = v
  | .section _ => True

/-! ## What a lookup knows -/

/-- The split pointer has not gone back. -/
def Since (s : Shared) (sp : ℕ × ℕ) : Prop :=
  sp.1 ≤ s.table.rounds.power ∧ sp.2 ≤ s.table.rounds.buddyBucket

/-- If nothing has changed, the key is on the page or behind it. -/
structure Reached (cfg : Config) (k : Bytes) (s : Shared) (sp : ℕ × ℕ) (p v : ℕ) : Prop where
  since : Since s sp
  le : v ≤ s.version p
  ahead : s.table.pointer = sp → s.version p = v → Ahead cfg k s.table p

/-- If nothing has changed, the key is not on the page. -/
def Searched (k : Bytes) (s : Shared) (sp : ℕ × ℕ) (p v : ℕ) : Prop :=
  v ≤ s.version p ∧
    (s.table.pointer = sp → s.version p = v → k ∉ (s.table.recordsAt p).map Prod.fst)

/-- If the page has not changed, this is its overflow link. -/
def Linked (s : Shared) (p v : ℕ) (q : Option ℕ) : Prop :=
  v ≤ s.version p ∧ (s.version p = v → s.table.next p = q)

/-- What a lookup knows at each place. -/
def Pc.Knows (cfg : Config) (k : Bytes) (s : Shared) : Pc → Prop
  | .idle => True
  | .loading => True
  | .directory sp => Since s sp
  | .guarding sp p => Since s sp ∧ (s.table.pointer = sp →
      s.table.bucketPtrs (bucketOf cfg.hashFunc sp.1 sp.2 k) = some p)
  | .searching sp p v => Reached cfg k s sp p v
  | .linkHead sp p v => Reached cfg k s sp p v ∧ Searched k s sp p v
  | .resolving sp p v => Reached cfg k s sp p v ∧ Searched k s sp p v
  | .checkResolved sp p v q => Reached cfg k s sp p v ∧ Searched k s sp p v ∧ Linked s p v q
  | .guardNext sp p v q => Reached cfg k s sp p v ∧ Searched k s sp p v ∧ Linked s p v (some q)
  | .checkGuard sp p v q w =>
    Reached cfg k s sp p v ∧ Searched k s sp p v ∧ Linked s p v (some q) ∧ w ≤ s.version q
  | .searchNext sp p v q w =>
    Reached cfg k s sp p v ∧ Searched k s sp p v ∧ Linked s p v (some q) ∧ w ≤ s.version q
  | .checkSearched sp p v q w found =>
    Reached cfg k s sp p v ∧ Searched k s sp p v ∧ Linked s p v (some q) ∧ w ≤ s.version q ∧
      (found = none → s.version p = v → Searched k s sp q w)
  | .linkNext sp q w => Reached cfg k s sp q w ∧ Searched k s sp q w
  | .checkLast sp q w => Reached cfg k s sp q w ∧ Searched k s sp q w ∧ Linked s q w none
  | .checkFound _ _ _ => True
  | .loadAgain sp => Since s sp ∧ s.table.pointer ≠ sp

/-! ## Sections of others -/

section Others

variable {s : Shared} {sec : Section} {sp : ℕ × ℕ} {p v : ℕ} {q : Option ℕ}

lemma version_le_runSection (s : Shared) (sec : Section) (p : ℕ) :
    s.version p ≤ (s.runSection cfg sec).version p := by
  simp only [Shared.runSection]
  split_ifs <;> omega

/-- A page whose version is the same has not been latched. -/
lemma notMem_latched (hle : v ≤ s.version p) (hv : (s.runSection cfg sec).version p = v) :
    p ∉ sec.latched s.table ∧ s.version p = v := by
  simp only [Shared.runSection] at hv
  split_ifs at hv with hmem
  · omega
  · exact ⟨hmem, hv⟩

variable (hkept : Kept cfg k s.table (sec.run cfg s.table) (sec.latched s.table))

include hkept

lemma Since.runSection (h : Since s sp) : Since (s.runSection cfg sec) sp :=
  ⟨h.1.trans hkept.power_le, h.2.trans hkept.buddyBucket_le⟩

/-- The split pointer does not return to a value it has left. -/
lemma Since.pointer_eq (h : Since s sp) (hsp : (s.runSection cfg sec).table.pointer = sp) :
    s.table.pointer = sp := by
  have hpower := hkept.power_le
  have hbuddy := hkept.buddyBucket_le
  obtain ⟨h₁, h₂⟩ := h
  rw [← hsp] at h₁ h₂ ⊢
  exact Prod.ext (le_antisymm hpower h₁) (le_antisymm hbuddy h₂)

lemma Reached.runSection (h : Reached cfg k s sp p v) :
    Reached cfg k (s.runSection cfg sec) sp p v := by
  refine ⟨h.since.runSection hkept, h.le.trans (version_le_runSection s sec p), fun hsp hv => ?_⟩
  obtain ⟨hmem, hv⟩ := notMem_latched h.le hv
  exact hkept.ahead p hmem (h.ahead (h.since.pointer_eq hkept hsp) hv)

lemma Searched.runSection (hsince : Since s sp) (h : Searched k s sp p v) :
    Searched k (s.runSection cfg sec) sp p v := by
  refine ⟨h.1.trans (version_le_runSection s sec p), fun hsp hv => ?_⟩
  obtain ⟨hmem, hv⟩ := notMem_latched h.1 hv
  rw [Shared.runSection, recordsAt, hkept.pages p hmem]
  exact h.2 (hsince.pointer_eq hkept hsp) hv

lemma Linked.runSection (h : Linked s p v q) : Linked (s.runSection cfg sec) p v q := by
  refine ⟨h.1.trans (version_le_runSection s sec p), fun hv => ?_⟩
  obtain ⟨hmem, hv⟩ := notMem_latched h.1 hv
  rw [Shared.runSection, next, hkept.pages p hmem]
  exact h.2 hv

/-- **What a lookup knows survives the sections of the writers.** -/
lemma Pc.Knows.runSection {pc : Pc} (h : pc.Knows cfg k s) :
    pc.Knows cfg k (s.runSection cfg sec) := by
  have hle : ∀ {q w : ℕ}, w ≤ s.version q → w ≤ (s.runSection cfg sec).version q :=
    fun {q _} hw => hw.trans (version_le_runSection s sec q)
  cases pc with
  | idle => trivial
  | loading => trivial
  | directory sp => exact Since.runSection hkept h
  | guarding sp p =>
    exact ⟨h.1.runSection hkept, fun hsp => hkept.ptrs _ _ (h.2 (h.1.pointer_eq hkept hsp))⟩
  | searching sp p v => exact Reached.runSection hkept h
  | linkHead sp p v => exact ⟨h.1.runSection hkept, h.2.runSection hkept h.1.since⟩
  | resolving sp p v => exact ⟨h.1.runSection hkept, h.2.runSection hkept h.1.since⟩
  | checkResolved sp p v q =>
    exact ⟨h.1.runSection hkept, h.2.1.runSection hkept h.1.since, h.2.2.runSection hkept⟩
  | guardNext sp p v q =>
    exact ⟨h.1.runSection hkept, h.2.1.runSection hkept h.1.since, h.2.2.runSection hkept⟩
  | checkGuard sp p v q w =>
    exact ⟨h.1.runSection hkept, h.2.1.runSection hkept h.1.since, h.2.2.1.runSection hkept,
      hle h.2.2.2⟩
  | searchNext sp p v q w =>
    exact ⟨h.1.runSection hkept, h.2.1.runSection hkept h.1.since, h.2.2.1.runSection hkept,
      hle h.2.2.2⟩
  | checkSearched sp p v q w found =>
    obtain ⟨hreached, hsearched, hlinked, hw, hfound⟩ := h
    refine ⟨hreached.runSection hkept, hsearched.runSection hkept hreached.since,
      hlinked.runSection hkept, hle hw, fun hnone hv => ?_⟩
    have hv := (notMem_latched hreached.le hv).2
    exact (hfound hnone hv).runSection hkept hreached.since
  | linkNext sp q w => exact ⟨h.1.runSection hkept, h.2.runSection hkept h.1.since⟩
  | checkLast sp q w =>
    exact ⟨h.1.runSection hkept, h.2.1.runSection hkept h.1.since, h.2.2.runSection hkept⟩
  | checkFound p v value => trivial
  | loadAgain sp =>
    exact ⟨h.1.runSection hkept, fun hsp => h.2 (h.1.pointer_eq hkept hsp)⟩

end Others

/-! ## Steps of the lookup itself -/

section Own

variable {s : Shared} {sp : ℕ × ℕ} {p v q w : ℕ} {t : Table}

lemma since_pointer (s : Shared) : Since s s.table.pointer := ⟨le_rfl, le_rfl⟩

/-- The bucket that the split pointer gives is the key's home, if it has a chain. -/
lemma Table.Ordered.bucket_eq_home (h : t.Ordered cfg) (k : Bytes)
    (hptr : t.bucketPtrs (t.bucket cfg k) ≠ none) :
    t.bucket cfg k = t.rounds.home (cfg.hashFunc k) := by
  have hlt := h.bucketPtrs_ne_none_iff.1 hptr
  by_cases hidle : t.rounds.Idle
  · exact h.bucket_eq hidle k
  have hstarted : t.rounds.startedSplits = t.rounds.finishedSplits + 1 := by
    have hle := h.rounds.finished_le
    have hle' := h.rounds.started_le
    have hne : t.rounds.startedSplits ≠ t.rounds.finishedSplits := hidle
    omega
  rw [bucket, h.rounds.bucketOf_eq, hstarted, Rounds.linked] at hlt
  rw [bucket, h.rounds.bucketOf_eq, hstarted, Rounds.home]
  by_cases hmod : cfg.hashFunc k % (N * 2 ^ t.rounds.power) = t.rounds.finishedSplits
  · rw [Lib.LinearHash.address_of_eq hmod]
    exact (Lib.LinearHash.address_succ_eq_or hmod).resolve_right (by omega)
  · exact Lib.LinearHash.address_succ_of_ne hmod

/-- From the first page of its bucket on, a key that is present is ahead. -/
lemma ahead_of_head (h : t.Ordered cfg) (hk : Present cfg k t)
    (hptr : t.bucketPtrs (t.bucket cfg k) = some p) : Ahead cfg k t p := by
  have hhome := h.bucket_eq_home k (by rw [hptr]; simp)
  have hchain := h.chain (t.bucket cfg k)
  rw [hptr, hhome] at hchain
  refine ⟨?_, _, hchain, hk⟩
  cases hl : t.chain (t.rounds.home (cfg.hashFunc k)) with
  | nil =>
    rw [hl] at hchain
    cases hchain
  | cons a l =>
    rw [hl] at hchain
    rw [Option.some.inj hchain.1]
    exact List.mem_cons_self

/-- The chain from a page on is the page, and the chain that its link leads to. -/
lemma Ahead.cases (h : Ahead cfg k t p) : ∃ l, IsChain t.next (t.next p) l ∧
    (k ∈ (t.recordsAt p).map Prod.fst ∨ k ∈ (t.recordsOf l).map Prod.fst) := by
  obtain ⟨-, l, hl, hk⟩ := h
  cases l with
  | nil => cases hl
  | cons a l =>
    obtain rfl : p = a := Option.some.inj hl.1
    refine ⟨l, hl.2, ?_⟩
    rwa [recordsOf, List.flatMap_cons, List.map_append, List.mem_append] at hk

/-- A key that is ahead is not missing at the end of the chain. -/
lemma Ahead.next_ne_none (h : Ahead cfg k t p)
    (hk : k ∉ (t.recordsAt p).map Prod.fst) : t.next p ≠ none := by
  intro hnone
  obtain ⟨l, hl, hmem⟩ := h.cases
  rw [hnone] at hl
  obtain rfl : l = [] := hl.unique rfl
  exact hk (hmem.resolve_right (by simp [recordsOf]))

/-- A key that is ahead and not on the page is ahead of the next one. -/
lemma Ahead.step (ht : t.Ordered cfg) (h : Ahead cfg k t p)
    (hk : k ∉ (t.recordsAt p).map Prod.fst) (hq : t.next p = some q) : Ahead cfg k t q := by
  obtain ⟨l, hl, hmem⟩ := h.cases
  rw [hq] at hl
  refine ⟨?_, l, hl, hmem.resolve_left hk⟩
  have hchain : IsChain t.next (some p) (p :: l) := ⟨rfl, by rw [hq]; exact hl⟩
  refine ht.mem_of_isChain h.1 hchain q (List.mem_cons_of_mem _ ?_)
  cases l with
  | nil => cases hl
  | cons a l =>
    rw [Option.some.inj hl.1]
    exact List.mem_cons_self

lemma searched_of_get (h : t.Ordered cfg) (hp : Ahead cfg k t p)
    (hget : (t.pages p).page.get cfg.layout k = none) : k ∉ (t.recordsAt p).map Prod.fst := by
  rw [(h.ok hp.1).get_eq] at hget
  intro hmem
  obtain ⟨r, hr, rfl⟩ := List.mem_map.1 hmem
  rw [List.lookup_eq_none_iff] at hget
  simpa using hget r hr

/-- The page that an unchanged page links to is reached. -/
lemma Reached.next (hs : s.table.Ordered cfg) (h : Reached cfg k s sp p v)
    (hk : Searched k s sp p v) (hq : Linked s p v (some q)) (hw : w ≤ s.version q)
    (hv : s.version p = v) : Reached cfg k s sp q w where
  since := h.since
  le := hw
  ahead hsp _ := (h.ahead hsp hv).step hs (hk.2 hsp hv) (hq.2 hv)

/-- The search of a page that was reached and has no match. -/
lemma Reached.searched (hs : s.table.Ordered cfg) (h : Reached cfg k s sp p v)
    (hget : (s.table.pages p).page.get cfg.layout k = none) : Searched k s sp p v :=
  ⟨h.le, fun hsp hv => searched_of_get hs (h.ahead hsp hv) hget⟩

/-- An unchanged page without a link and without the key was reached by another split pointer. -/
lemma Reached.pointer_ne (h : Reached cfg k s sp p v) (hk : Searched k s sp p v)
    (hq : Linked s p v none) (hv : s.version p = v) : s.table.pointer ≠ sp :=
  fun hsp => (h.ahead hsp hv).next_ne_none (hk.2 hsp hv) (hq.2 hv)

lemma Reached.linked (h : Reached cfg k s sp p v) : Linked s p v (s.table.next p) :=
  ⟨h.le, fun _ => rfl⟩

/-- **A step of the lookup keeps what it knows**, if the first page has not changed when it turns out
to be the last. -/
lemma Pc.Knows.lookupStep (hs : s.table.Ordered cfg) (hk : Present cfg k s.table) {pc : Pc}
    (h : pc.Knows cfg k s)
    (hhead : ∀ sp p v, pc = .linkHead sp p v → s.table.next p = none → s.version p = v) :
    (lookupStep cfg k s pc).1.Knows cfg k s := by
  cases pc with
  | idle => trivial
  | loading => exact since_pointer s
  | directory sp =>
    simp only [LinearHashing.lookupStep]
    split
    · trivial
    · exact ⟨h, fun _ => by assumption⟩
  | guarding sp p =>
    refine ⟨h.1, le_rfl, fun hsp _ => ahead_of_head hs hk ?_⟩
    rw [← h.2 hsp, ← hsp]
    rfl
  | searching sp p v =>
    simp only [LinearHashing.lookupStep]
    split
    · trivial
    case h_2 hget => exact ⟨h, h.searched hs hget⟩
  | linkHead sp p v =>
    obtain ⟨hreached, hsearched⟩ := h
    simp only [LinearHashing.lookupStep]
    split
    case h_1 hnone =>
      have hv := hhead sp p v rfl hnone
      exact ⟨hreached.since, hreached.pointer_ne hsearched (hnone ▸ hreached.linked) hv⟩
    · exact ⟨hreached, hsearched⟩
  | resolving sp p v => exact ⟨h.1, h.2, h.1.linked⟩
  | checkResolved sp p v q =>
    cases q with
    | none => trivial
    | some q =>
      simp only [LinearHashing.lookupStep]
      split_ifs
      · exact h
      · trivial
  | guardNext sp p v q => exact ⟨h.1, h.2.1, h.2.2, le_rfl⟩
  | checkGuard sp p v q w =>
    simp only [LinearHashing.lookupStep]
    split_ifs
    · exact h
    · trivial
  | searchNext sp p v q w =>
    obtain ⟨hreached, hsearched, hlinked, hw⟩ := h
    refine ⟨hreached, hsearched, hlinked, hw, fun hget hv => ?_⟩
    exact (hreached.next hs hsearched hlinked hw hv).searched hs hget
  | checkSearched sp p v q w found =>
    obtain ⟨hreached, hsearched, hlinked, hw, hfound⟩ := h
    simp only [LinearHashing.lookupStep]
    split_ifs with hv
    · cases found with
      | some value => trivial
      | none => exact ⟨hreached.next hs hsearched hlinked hw hv, hfound rfl hv⟩
    · trivial
  | linkNext sp q w =>
    simp only [LinearHashing.lookupStep]
    split
    case h_1 hnone => exact ⟨h.1, h.2, hnone ▸ h.1.linked⟩
    · exact h
  | checkLast sp q w =>
    simp only [LinearHashing.lookupStep]
    split_ifs with hv
    · exact ⟨h.1.since, h.1.pointer_ne h.2.1 h.2.2 hv⟩
    · trivial
  | checkFound p v value =>
    simp only [LinearHashing.lookupStep]
    split_ifs <;> trivial
  | loadAgain sp =>
    simp only [LinearHashing.lookupStep]
    split_ifs <;> trivial

/-- The only way to give up is through the second load of the split pointer. -/
lemma Pc.Knows.event_ne {pc : Pc} (h : pc.Knows cfg k s) :
    (LinearHashing.lookupStep cfg k s pc).2 ≠ some .notFound := by
  cases pc <;> simp only [LinearHashing.lookupStep, ne_eq] <;> (repeat' split) <;> simp
  case loadAgain sp hsp => exact h.2 hsp

end Own

/-! ## Runs -/

/-- What holds along every run. -/
structure Inv (cfg : Config) (k : Bytes) (es : List Event) (s : State Shared Pc) : Prop where
  ordered : s.shared.table.Ordered cfg
  present : Present cfg k s.shared.table
  knows : ∀ thread, (s.place thread).Knows cfg k s.shared
  events : Event.notFound ∉ es

lemma Inv.lookup {es : List Event} {s : State Shared Pc} (h : Inv cfg k es s) {thread : ℕ}
    (hhead : HeadUnchanged s thread .lookup) :
    Inv cfg k (es ++ (s.step (program cfg k) thread .lookup).2.toList)
      (s.step (program cfg k) thread .lookup).1 := by
  rw [State.step_eq]
  refine ⟨h.ordered, h.present, fun thread' => ?_, ?_⟩
  · rcases eq_or_ne thread' thread with rfl | hne
    · simp only [update_self]
      exact (h.knows thread').lookupStep h.ordered h.present hhead
    · simp only [update_of_ne hne]
      exact h.knows thread'
  · rw [List.mem_append, not_or]
    refine ⟨h.events, fun hmem => (h.knows thread).event_ne ?_⟩
    simpa [program] using hmem

lemma Inv.section {es : List Event} {s : State Shared Pc} (h : Inv cfg k es s) {thread : ℕ}
    {sec : Section} (hok : Interleaved cfg k s thread (.section sec)) :
    Inv cfg k (es ++ (s.step (program cfg k) thread (.section sec)).2.toList)
      (s.step (program cfg k) thread (.section sec)).1 := by
  have hkept := Section.kept h.ordered hok.2.1 hok.2.2
  rw [State.step_eq]
  refine ⟨hkept.ordered, hkept.present h.present, fun thread' => ?_, ?_⟩
  · simp only [program, update_eq_self]
    exact (h.knows thread').runSection hkept
  · simpa [program] using h.events

section Example

variable {big : Bytes} (hbig : big.length = 16311)

include hbig

end Example

end TwoTree.LinearHashing
