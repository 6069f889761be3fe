import TwoTree.Lib.Chain
import TwoTree.Lib.Interleaving
import TwoTree.Units

/-!
# The free list of a partition

`FreeList` is a lock-free stack of buffer frames, linked through `next_free_bf`.  A step of a thread is
one atomic operation on the head, or one access to a frame's link.  Frames that have been popped are in
use by somebody; any thread may push them again, alone or as a batch that it has linked, and until then
their links are at the mercy of whoever uses them.

A pop reads the head, then the link of that frame, and then swaps the head against it.  The swap only
compares the head.  If the frame has left the list in between and has come back, the link that was read
may be out of date, and the list continues with a frame that is in use, or loses frames: see
`frame_handed_out_twice`.  As long as this does not happen, every frame is in one place
(`frames_partitioned`).
-/

namespace TwoTree.BufferManager.FreeList

open Lib.Chain Lib.Interleaving Function List

/-- `FreeList`, with the links of the frames, and the frames that are in use. -/
structure Shared where
  head : Option ℕ
  counter : ℕ
  next : ℕ → Option ℕ
  inUse : List ℕ

/-- The functions that pop: `pop`, `tryPop`, and `tryPop` with a lock, which does not try again. -/
inductive Kind where
  | pop
  | tryPop
  | tryPopLocked
deriving DecidableEq, Repr

/-- The places in the functions.  A batch is a front and a tail; `push` is a batch without front. -/
inductive Pc where
  | idle
  | popHead (kind : Kind)
  | popNext (kind : Kind) (c : ℕ)
  | popSwap (kind : Kind) (c : ℕ) (next : Option ℕ)
  | popClear (c : ℕ)
  | popCount (c : ℕ)
  | pushLoad (front : List ℕ) (tail : ℕ)
  | pushSwap (front : List ℕ) (tail : ℕ)
  | pushCount (n : ℕ)
deriving DecidableEq, Repr

/-- What a pop returns. -/
inductive Event where
  | popped (bf : ℕ)
  | failed
deriving DecidableEq, Repr

/-- A thread goes on, calls a function, or writes the link of a frame that is in use. -/
inductive Input where
  | step
  | pop (kind : Kind)
  | push (front : List ℕ) (tail : ℕ)
  | write (bf : ℕ) (next : Option ℕ)
deriving DecidableEq, Repr

/-- One step of a function. -/
def step (s : Shared) : Pc → Shared × Pc × Option Event
  | .idle => (s, .idle, none)
  | .popHead kind =>
    match s.head with
    | none => (s, .idle, some .failed)
    | some c => (s, .popNext kind c, none)
  | .popNext kind c => (s, .popSwap kind c (s.next c), none)
  | .popSwap kind c next =>
    if s.head = some c then ({ s with head := next }, .popClear c, none)
    else
      match kind, s.head with
      | .tryPopLocked, _ => (s, .idle, some .failed)
      | _, none => (s, .idle, some .failed)
      | kind, some _ => (s, .popHead kind, none)
  | .popClear c => ({ s with next := Function.update s.next c none }, .popCount c, none)
  | .popCount c =>
    ({ s with counter := u64Sub s.counter 1, inUse := c :: s.inUse }, .idle, some (.popped c))
  | .pushLoad front tail =>
    ({ s with next := Function.update s.next tail s.head }, .pushSwap front tail, none)
  | .pushSwap front tail =>
    -- the expected value is the link of the tail, and a swap that fails writes the head to it
    if s.head = s.next tail then
      ({ s with head := (front ++ [tail]).head? }, .pushCount (front.length + 1), none)
    else ({ s with next := Function.update s.next tail s.head }, .pushSwap front tail, none)
  | .pushCount n => ({ s with counter := u64 (s.counter + n) }, .idle, none)

/-- Any number of threads that use the list. -/
def program : Program Shared Pc Input Event
  | .step, s, pc => step s pc
  | .pop kind, s, _ => (s, .popHead kind, none)
  | .push front tail, s, _ =>
    ({ s with inUse := s.inUse.diff (front ++ [tail]) }, .pushLoad front tail, none)
  | .write bf next, s, pc => ({ s with next := Function.update s.next bf next }, pc, none)

/-- The callers keep to the rules: what is pushed is in use, and the front of a batch is linked up to
its tail; and links are written only while a frame is in use. -/
def Calls (s : State Shared Pc) (thread : ℕ) : Input → Prop
  | .step => True
  | .pop _ => s.place thread = .idle
  | .push front tail => s.place thread = .idle ∧ (front ++ [tail]).Nodup ∧
      (∀ bf ∈ front ++ [tail], bf ∈ s.shared.inUse) ∧
      IsSegment s.shared.next (front ++ [tail]).head? (front ++ [tail]) (s.shared.next tail)
  | .write bf _ => bf ∈ s.shared.inUse

/-- A pop that finds the head it has read finds the frame's link as it has read it. -/
def LinkUnchanged (s : State Shared Pc) (thread : ℕ) : Input → Prop
  | .step =>
    match s.place thread with
    | .popSwap _ c next => s.shared.head = some c → s.shared.next c = next
    | _ => True
  | _ => True

instance (s : State Shared Pc) (thread : ℕ) : (i : Input) → Decidable (Calls s thread i)
  | .step => isTrue trivial
  | .pop _ => inferInstanceAs (Decidable (_ = _))
  | .push _ _ => inferInstanceAs (Decidable (_ ∧ _ ∧ _ ∧ _))
  | .write _ _ => inferInstanceAs (Decidable (_ ∈ _))

instance (s : State Shared Pc) (thread : ℕ) (i : Input) : Decidable (LinkUnchanged s thread i) := by
  unfold LinkUnchanged
  split
  · split <;> infer_instance
  · infer_instance

/-! ## Where the frames are -/

/-- The frames that a thread has taken out of the list and not yet returned, or is pushing. -/
def Pc.carried : Pc → List ℕ
  | .popClear c => [c]
  | .popCount c => [c]
  | .pushLoad front tail => front ++ [tail]
  | .pushSwap front tail => front ++ [tail]
  | _ => []

/-- The places where a frame can be. -/
inductive Location where
  | list
  | inUse
  | thread (thread : ℕ)
deriving DecidableEq, Repr

/-- The frames at a place are those of the list. -/
def Hosts (frames : List ℕ) (loc : ℕ → Location) (p : Location) (l : List ℕ) : Prop :=
  ∀ bf, bf ∈ l ↔ bf ∈ frames ∧ loc bf = p

/-- **Every frame is in one place**: in the list that the head leads to, in use, or carried by one
thread.  None is in use twice. -/
structure Partitioned (frames : List ℕ) (s : State Shared Pc) (loc : ℕ → Location) : Prop where
  list : ∃ l, IsChain s.shared.next s.shared.head l ∧ Hosts frames loc .list l
  inUse_nodup : s.shared.inUse.Nodup
  inUse : Hosts frames loc .inUse s.shared.inUse
  carried_nodup : ∀ thread, (s.place thread).carried.Nodup
  carried : ∀ thread, Hosts frames loc (.thread thread) (s.place thread).carried

/-- What a thread that pushes knows: its batch is linked up to the tail. -/
def Pc.Linked (next : ℕ → Option ℕ) : Pc → Prop
  | .pushLoad front tail =>
    IsSegment next (front ++ [tail]).head? (front ++ [tail]) (next tail)
  | .pushSwap front tail =>
    IsSegment next (front ++ [tail]).head? (front ++ [tail]) (next tail)
  | _ => True

variable {frames : List ℕ} {s s' : State Shared Pc} {loc : ℕ → Location} {thread c bf : ℕ}
  {next : ℕ → Option ℕ} {es : List Event}

/-- The frames of a list move to a place. -/
def moveTo (p : Location) (batch : List ℕ) (loc : ℕ → Location) (bf : ℕ) : Location :=
  if bf ∈ batch then p else loc bf

section MoveTo

variable {p q : Location} {batch l l' : List ℕ}

/-- A place that the frames neither leave nor reach. -/
lemma Hosts.other (h : Hosts frames loc q l) (hbatch : ∀ bf ∈ batch, loc bf ≠ q) (hq : q ≠ p) :
    Hosts frames (moveTo p batch loc) q l := by
  intro bf
  by_cases hbf : bf ∈ batch
  · simp [h bf, moveTo, hbf, hbatch bf hbf, hq.symm]
  · simp [h bf, moveTo, hbf]

/-- The place that the frames leave. -/
lemma Hosts.leave (h : Hosts frames loc q l) (hq : q ≠ p)
    (hl : ∀ bf, bf ∈ l' ↔ bf ∈ l ∧ bf ∉ batch) : Hosts frames (moveTo p batch loc) q l' := by
  intro bf
  rw [hl bf]
  by_cases hbf : bf ∈ batch
  · simp [moveTo, hbf, hq.symm]
  · simp [h bf, moveTo, hbf]

/-- The place that the frames reach. -/
lemma Hosts.reach (h : Hosts frames loc p l) (hbatch : ∀ bf ∈ batch, bf ∈ frames)
    (hl : ∀ bf, bf ∈ l' ↔ bf ∈ batch ∨ bf ∈ l) : Hosts frames (moveTo p batch loc) p l' := by
  intro bf
  rw [hl bf]
  by_cases hbf : bf ∈ batch
  · simp [moveTo, hbf, hbatch bf hbf]
  · simp [h bf, moveTo, hbf]

end MoveTo

/-- Only the links of the frames it carries matter to a thread. -/
lemma Pc.Linked.congr {pc : Pc} (h : pc.Linked next) {next' : ℕ → Option ℕ}
    (hnext : ∀ bf ∈ pc.carried, next' bf = next bf) : pc.Linked next' := by
  cases pc with
  | pushLoad front tail =>
    show IsSegment next' _ _ (next' tail)
    rw [hnext tail (by simp [Pc.carried])]
    exact IsSegment.congr h hnext
  | pushSwap front tail =>
    show IsSegment next' _ _ (next' tail)
    rw [hnext tail (by simp [Pc.carried])]
    exact IsSegment.congr h hnext
  | _ => trivial

/-- What holds along every run. -/
structure Inv (frames : List ℕ) (s : State Shared Pc) (loc : ℕ → Location) : Prop where
  partitioned : Partitioned frames s loc
  linked : ∀ thread, (s.place thread).Linked s.shared.next

namespace Inv

variable (h : Inv frames s loc)
include h

lemma loc_eq (hbf : bf ∈ (s.place thread).carried) : bf ∈ frames ∧ loc bf = .thread thread :=
  (h.partitioned.carried thread bf).1 hbf

/-- **No frame moves.**  The head, the frames in use and those that are carried stay, and at most the
links of frames outside of the list and of other threads' batches are written. -/
lemma stay (hhead : s'.shared.head = s.shared.head) (hinUse : s'.shared.inUse = s.shared.inUse)
    (hcarried : ∀ t, (s'.place t).carried = (s.place t).carried)
    (hlist : ∀ bf, bf ∈ frames → loc bf = .list → s'.shared.next bf = s.shared.next bf)
    (hlinked : ∀ t, (s'.place t).Linked s'.shared.next) : Inv frames s' loc := by
  have hp := h.partitioned
  obtain ⟨l, hl, hmem⟩ := hp.list
  refine ⟨⟨⟨l, ?_, hmem⟩, hinUse ▸ hp.inUse_nodup, hinUse ▸ hp.inUse, fun t => ?_, fun t => ?_⟩,
    hlinked⟩
  · rw [hhead]
    exact hl.congr (fun bf hbf => hlist bf ((hmem bf).1 hbf).1 ((hmem bf).1 hbf).2)
  · rw [hcarried t]
    exact hp.carried_nodup t
  · rw [hcarried t]
    exact hp.carried t

lemma go {a : Shared} {q : Pc} (hhead : a.head = s.shared.head)
    (hinUse : a.inUse = s.shared.inUse) (hnext : a.next = s.shared.next)
    (hcarried : q.carried = (s.place thread).carried) (hq : q.Linked s.shared.next) :
    Inv frames ⟨a, Function.update s.place thread q⟩ loc := by
  refine h.stay hhead hinUse (fun t => ?_) (fun bf _ _ => by rw [hnext]) (fun t => ?_)
  · rcases eq_or_ne t thread with rfl | ht
    · simpa using hcarried
    · simp [ht]
  · simp only [hnext]
    rcases eq_or_ne t thread with rfl | ht
    · simpa using hq
    · simpa [ht] using h.linked t

lemma write {q : Pc} {p : Option ℕ} (hbf : bf ∈ (s.place thread).carried)
    (hcarried : q.carried = (s.place thread).carried)
    (hq : q.Linked (Function.update s.shared.next bf p)) :
    Inv frames ⟨{ s.shared with next := Function.update s.shared.next bf p },
      Function.update s.place thread q⟩ loc := by
  obtain ⟨-, hloc⟩ := h.loc_eq hbf
  refine h.stay rfl rfl (fun t => ?_) (fun bf' _ hlist => ?_) (fun t => ?_)
  · rcases eq_or_ne t thread with rfl | ht
    · simpa using hcarried
    · simp [ht]
  · refine update_of_ne ?_ _ _
    rintro rfl
    rw [hloc] at hlist
    cases hlist
  · rcases eq_or_ne t thread with rfl | ht
    · simpa using hq
    simp only [update_of_ne ht]
    refine (h.linked t).congr (fun bf' hbf' => update_of_ne ?_ _ _)
    rintro rfl
    have hloc' := (h.loc_eq hbf').2
    rw [hloc] at hloc'
    exact ht (Location.thread.inj hloc').symm

/-- What the other threads carry, and know, does not matter to a thread that moves frames. -/
lemma update {a : Shared} {q : Pc} {p : Location} {batch : List ℕ}
    (hp : ∀ t, t ≠ thread → p ≠ .thread t)
    (hbatch : ∀ t, t ≠ thread → ∀ bf ∈ batch, loc bf ≠ .thread t)
    (hlist : ∃ l, IsChain a.next a.head l ∧ Hosts frames (moveTo p batch loc) .list l)
    (hnodup : a.inUse.Nodup) (hinUse : Hosts frames (moveTo p batch loc) .inUse a.inUse)
    (hqnodup : q.carried.Nodup) (hq : Hosts frames (moveTo p batch loc) (.thread thread) q.carried)
    (hnext : a.next = s.shared.next) (hlinked : q.Linked s.shared.next) :
    Inv frames ⟨a, Function.update s.place thread q⟩ (moveTo p batch loc) := by
  refine ⟨⟨hlist, hnodup, hinUse, fun t => ?_, fun t => ?_⟩, fun t => ?_⟩
  · rcases eq_or_ne t thread with rfl | ht
    · simpa using hqnodup
    · simpa [ht] using h.partitioned.carried_nodup t
  · rcases eq_or_ne t thread with rfl | ht
    · simpa using hq
    · simpa [ht] using (h.partitioned.carried t).other (hbatch t ht) (hp t ht).symm
  · simp only [hnext]
    rcases eq_or_ne t thread with rfl | ht
    · simpa using hlinked
    · simpa [ht] using h.linked t

/-- **A thread takes the first frame out of the list.** -/
lemma take (hhead : s.shared.head = some c) (hplace : (s.place thread).carried = []) :
    Inv frames ⟨{ s.shared with head := s.shared.next c },
      Function.update s.place thread (.popClear c)⟩ (moveTo (.thread thread) [c] loc) := by
  obtain ⟨l, hl, hmem⟩ := h.partitioned.list
  obtain ⟨l, rfl⟩ : ∃ l', l = c :: l' := by
    cases l with
    | nil => exact absurd (hhead.symm.trans hl) (by simp)
    | cons b l' => exact ⟨l', by rw [Option.some.inj (hhead.symm.trans hl.1)]⟩
  obtain ⟨hc, hloc⟩ := (hmem c).1 mem_cons_self
  have hnodup := nodup_cons.1 hl.nodup
  have hnone := h.partitioned.carried thread
  rw [hplace] at hnone
  refine h.update (fun t ht => by simpa using ht.symm) (by simp [hloc]) ⟨l, hl.2, ?_⟩
    h.partitioned.inUse_nodup (h.partitioned.inUse.other (by simp [hloc]) (by simp))
    (by simp [Pc.carried]) (hnone.reach (by simpa using hc) (by simp [Pc.carried])) rfl trivial
  refine hmem.leave (by simp) (fun bf => ?_)
  rcases eq_or_ne bf c with rfl | hbf
  · simp [hnodup.1]
  · simp [hbf]

/-- **A thread hands out the frame that it carries.** -/
lemma handOut (hplace : (s.place thread).carried = [c]) {n : ℕ} :
    Inv frames ⟨{ s.shared with counter := n, inUse := c :: s.shared.inUse },
      Function.update s.place thread .idle⟩ (moveTo .inUse [c] loc) := by
  obtain ⟨l, hl, hmem⟩ := h.partitioned.list
  have hmine := h.partitioned.carried thread
  rw [hplace] at hmine
  obtain ⟨hc, hloc⟩ := (hmine c).1 mem_cons_self
  refine h.update (by simp) (fun t ht => by simpa [hloc] using ht.symm)
    ⟨l, hl, hmem.other (by simp [hloc]) (by simp)⟩ ?_
    (h.partitioned.inUse.reach (by simpa using hc) (by simp)) (by simp [Pc.carried])
    (hmine.leave (by simp) (by simp [Pc.carried])) rfl trivial
  refine nodup_cons.2 ⟨fun hmem => ?_, h.partitioned.inUse_nodup⟩
  have hloc' := ((h.partitioned.inUse c).1 hmem).2
  rw [hloc] at hloc'
  cases hloc'

/-- **A thread starts to push frames that are in use.** -/
lemma receive {front : List ℕ} {tail : ℕ} (hcall : Calls s thread (.push front tail)) :
    Inv frames ⟨{ s.shared with inUse := s.shared.inUse.diff (front ++ [tail]) },
      Function.update s.place thread (.pushLoad front tail)⟩
      (moveTo (.thread thread) (front ++ [tail]) loc) := by
  obtain ⟨hidle, hnodup, huse, hlinked⟩ := hcall
  obtain ⟨l, hl, hmem⟩ := h.partitioned.list
  have hloc : ∀ bf ∈ front ++ [tail], loc bf = .inUse :=
    fun bf hbf => ((h.partitioned.inUse bf).1 (huse bf hbf)).2
  have hnone := h.partitioned.carried thread
  rw [hidle] at hnone
  refine h.update (fun t ht => by simpa using ht.symm) (fun t ht bf hbf => by simp [hloc bf hbf])
    ⟨l, hl, hmem.other (fun bf hbf => by simp [hloc bf hbf]) (by simp)⟩
    h.partitioned.inUse_nodup.diff
    (h.partitioned.inUse.leave (by simp) fun bf => h.partitioned.inUse_nodup.mem_diff_iff)
    hnodup (hnone.reach (fun bf hbf => ((h.partitioned.inUse bf).1 (huse bf hbf)).1) ?_) rfl hlinked
  simp [Pc.carried]

/-- **The batch of a thread is put in front of the list.** -/
lemma give {front : List ℕ} {tail n : ℕ} (hplace : s.place thread = .pushSwap front tail)
    (hhead : s.shared.head = s.shared.next tail) :
    Inv frames ⟨{ s.shared with head := (front ++ [tail]).head? },
      Function.update s.place thread (.pushCount n)⟩ (moveTo .list (front ++ [tail]) loc) := by
  obtain ⟨l, hl, hmem⟩ := h.partitioned.list
  have hmine := h.partitioned.carried thread
  have hlinked := h.linked thread
  rw [hplace] at hmine hlinked
  have hloc : ∀ bf ∈ front ++ [tail], bf ∈ frames ∧ loc bf = .thread thread :=
    fun bf hbf => (hmine bf).1 hbf
  refine h.update (by simp) (fun t ht bf hbf => by simpa [(hloc bf hbf).2] using ht.symm)
    ⟨front ++ [tail] ++ l, hlinked.append (hhead ▸ hl), ?_⟩ h.partitioned.inUse_nodup
    (h.partitioned.inUse.other (fun bf hbf => by simp [(hloc bf hbf).2]) (by simp))
    (by simp [Pc.carried]) (hmine.leave (by simp) ?_) rfl trivial
  · exact hmem.reach (fun bf hbf => (hloc bf hbf).1) (fun bf => mem_append)
  · intro bf
    simp only [Pc.carried, not_mem_nil, false_iff, and_not_self, not_false_eq_true]

/-- A thread that pushes lets the tail of its batch point to a frame. -/
lemma aim {front : List ℕ} {tail : ℕ} {p : Option ℕ}
    (hcarried : (s.place thread).carried = front ++ [tail])
    (hlinked : IsSegment s.shared.next (front ++ [tail]).head? (front ++ [tail])
      (s.shared.next tail)) :
    Inv frames ⟨{ s.shared with next := Function.update s.shared.next tail p },
      Function.update s.place thread (.pushSwap front tail)⟩ loc := by
  have hnodup := h.partitioned.carried_nodup thread
  rw [hcarried] at hnodup
  have htail : tail ∉ front := by
    simpa using (nodup_append'.1 hnodup).2.2
  refine h.write (by simp [hcarried]) hcarried.symm ?_
  show IsSegment _ _ _ (Function.update s.shared.next tail p tail)
  rw [update_self]
  exact hlinked.relink htail

/-- The user of a frame writes its link. -/
lemma scribble {p : Option ℕ} (hbf : bf ∈ s.shared.inUse) :
    Inv frames ⟨{ s.shared with next := Function.update s.shared.next bf p }, s.place⟩ loc := by
  obtain ⟨-, hloc⟩ := (h.partitioned.inUse bf).1 hbf
  refine h.stay rfl rfl (fun t => rfl) (fun bf' _ hlist => update_of_ne ?_ _ _)
    (fun t => (h.linked t).congr (fun bf' hbf' => update_of_ne ?_ _ _))
  · rintro rfl
    rw [hloc] at hlist
    cases hlist
  · rintro rfl
    have hloc' := (h.loc_eq hbf').2
    rw [hloc] at hloc'
    cases hloc'

/-- **A step of a function** keeps every frame in one place. -/
lemma step_step (hlink : LinkUnchanged s thread .step) :
    ∃ loc', Inv frames ⟨(step s.shared (s.place thread)).1,
      Function.update s.place thread (step s.shared (s.place thread)).2.1⟩ loc' := by
  have hmine := h.linked thread
  cases hpc : s.place thread with
  | idle => exact ⟨loc, h.go rfl rfl rfl (by rw [hpc]; rfl) trivial⟩
  | popHead kind =>
    cases hhead : s.shared.head with
    | none =>
      simp only [step, hhead]
      exact ⟨loc, h.go rfl rfl rfl (by rw [hpc]; rfl) trivial⟩
    | some c =>
      simp only [step, hhead]
      exact ⟨loc, h.go rfl rfl rfl (by rw [hpc]; rfl) trivial⟩
  | popNext kind c => exact ⟨loc, h.go rfl rfl rfl (by rw [hpc]; rfl) trivial⟩
  | popSwap kind c next =>
    by_cases hhead : s.shared.head = some c
    · simp only [LinkUnchanged, hpc] at hlink
      have hnext : s.shared.next c = next := hlink hhead
      simp only [step, if_pos hhead, ← hnext]
      exact ⟨_, h.take hhead (by rw [hpc]; rfl)⟩
    · simp only [step, if_neg hhead]
      split <;> exact ⟨loc, h.go rfl rfl rfl (by rw [hpc]; rfl) trivial⟩
  | popClear c =>
    exact ⟨loc, h.write (by rw [hpc]; exact mem_singleton_self c) (by rw [hpc]; rfl) trivial⟩
  | popCount c => exact ⟨_, h.handOut (by rw [hpc]; rfl)⟩
  | pushLoad front tail =>
    rw [hpc] at hmine
    exact ⟨loc, h.aim (by rw [hpc]; rfl) hmine⟩
  | pushSwap front tail =>
    by_cases hhead : s.shared.head = s.shared.next tail
    · simp only [step, if_pos hhead]
      exact ⟨_, h.give hpc hhead⟩
    · simp only [step, if_neg hhead]
      rw [hpc] at hmine
      exact ⟨loc, h.aim (by rw [hpc]; rfl) hmine⟩
  | pushCount n => exact ⟨loc, h.go rfl rfl rfl (by rw [hpc]; rfl) trivial⟩

/-- **A step of a thread** keeps every frame in one place. -/
lemma program {i : Input} (hcall : Calls s thread i) (hlink : LinkUnchanged s thread i) :
    ∃ loc', Inv frames (s.step FreeList.program thread i).1 loc' := by
  cases i with
  | step => exact h.step_step hlink
  | pop kind =>
    have hidle : s.place thread = .idle := hcall
    exact ⟨loc, h.go rfl rfl rfl (by rw [hidle]; rfl) trivial⟩
  | push front tail => exact ⟨_, h.receive hcall⟩
  | write bf next =>
    rw [State.step_eq]
    simp only [FreeList.program, update_eq_self]
    exact ⟨loc, h.scribble hcall⟩

end Inv

/-! ## Runs -/

/-- A list of free frames, and nobody who uses it yet. -/
def start (frames : List ℕ) (next : ℕ → Option ℕ) : State Shared Pc :=
  ⟨⟨frames.head?, frames.length, next, []⟩, fun _ => .idle⟩

/-- At the start, every frame is in the list. -/
lemma inv_start (h : IsChain next frames.head? frames) :
    Inv frames (start frames next) (fun _ => .list) := by
  refine ⟨⟨⟨frames, h, fun bf => ?_⟩, nodup_nil, fun bf => ?_, fun t => nodup_nil,
    fun t bf => ?_⟩, fun t => trivial⟩
  · simp
  · simp [start]
  · simp [start, Pc.carried]

/-- **Every frame is in one place, whenever the threads are interleaved so that no pop swaps the head
against a link that is out of date.** -/
theorem frames_partitioned (frames : List ℕ) (next : ℕ → Option ℕ)
    (hchain : IsChain next frames.head? frames) (es : List Event) (s : State Shared Pc)
    (hrun : Run program (fun s thread i => Calls s thread i ∧ LinkUnchanged s thread i)
      (start frames next) es s) : ∃ loc, Partitioned frames s loc := by
  have hinv : ∃ loc, Inv frames s loc := by
    refine hrun.invariant (P := fun _ s => ∃ loc, Inv frames s loc) ⟨_, inv_start hchain⟩ ?_
    rintro es s thread i ⟨loc, h⟩ ⟨hcall, hlink⟩
    exact h.program hcall hlink
  obtain ⟨loc, h⟩ := hinv
  exact ⟨loc, h.partitioned⟩

/-- Three frames, each linked to the next. -/
def threeFrames (bf : ℕ) : Option ℕ := if bf < 2 then some (bf + 1) else none

/-- The calls of one pop that finds the list undisturbed. -/
def popAll (thread : ℕ) : List (ℕ × Input) :=
  (thread, .pop .pop) :: List.replicate 5 (thread, .step)

/-- The calls that push one frame. -/
def pushAll (thread bf : ℕ) : List (ℕ × Input) :=
  (thread, .push [] bf) :: List.replicate 3 (thread, .step)

/-- A pop whose first swap fails because another thread was faster. -/
theorem frames_partitioned_contended : ∃ es s, Run program
    (fun s thread i => Calls s thread i ∧ LinkUnchanged s thread i) (start [0, 1, 2] threeFrames) es s ∧
    s.shared.inUse = [1, 0] ∧ ∃ loc, Partitioned [0, 1, 2] s loc := by
  have hrun := Run.of_exec program (fun s thread i => Calls s thread i ∧ LinkUnchanged s thread i)
    (start [0, 1, 2] threeFrames)
    ([(1, .pop .pop), (1, .step), (1, .step)] ++ popAll 2 ++ List.replicate 6 (1, .step)) (by decide)
  exact ⟨_, _, hrun, by decide, frames_partitioned [0, 1, 2] threeFrames (by decide) _ _ hrun⟩

/-- **A frame is handed out twice.**  While thread 1 is about to swap the head against frame 1, thread 2
pops the frames 0 and 1 and pushes frame 0 again.  The swap succeeds, and frame 1, which is in use,
is the head of the list; thread 3 pops it. -/
theorem frame_handed_out_twice : ∃ es s, Run program Calls (start [0, 1, 2] threeFrames) es s ∧
    s.shared.inUse = [1, 0, 1] ∧ ¬ ∃ loc, Partitioned [0, 1, 2] s loc := by
  have hrun := Run.of_exec program Calls (start [0, 1, 2] threeFrames)
    ([(1, .pop .pop), (1, .step), (1, .step)] ++ popAll 2 ++ popAll 2 ++ pushAll 2 0 ++
      List.replicate 3 (1, .step) ++ popAll 3) (by decide)
  refine ⟨_, _, hrun, by decide, ?_⟩
  rintro ⟨loc, h⟩
  exact absurd h.inUse_nodup (by decide)

end TwoTree.BufferManager.FreeList
