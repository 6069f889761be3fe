import TwoTree.Lib.Interleaving
import TwoTree.Lib.RingBuffer

/-!
# Space in the log buffer of a worker

A worker appends its log entries to a ring of `workerWalSize` bytes, which the group committer drains.
`walEnsureEnoughSpace` waits until enough bytes are free, and makes a carriage return if they do not lie
at the end of the ring.  The entry that records the carriage return is reserved by
`reserveWALMetaEntry`, which calls `walEnsureEnoughSpace` in turn; `spin`, `check` and `carriage` carry
the requests of the calls that wait for such a reservation.

The bytes that are free count the tail that the carriage return gives up.  What is left behind the
carriage return may be less than was requested, and then the worker is told to write over entries that
have not been flushed (`unflushed_bytes_granted`).  Everything else is as it should be
(`request_granted`).
-/

namespace TwoTree.ConcurrencyRecovery

open Lib.Interleaving Lib.RingBuffer Function

/-- `WORKER_WAL_SIZE`. -/
def workerWalSize : ℕ := 1024 * 1024 * 10

/-- `CR_ENTRY_SIZE`, the size of a `WALMetaEntry`. -/
def crEntrySize : ℕ := 24

namespace WalRing

/-- The cursors of a ring: up to which byte it is flushed, and up to which it is written. -/
structure Cursors where
  ww : ℕ
  wt : ℕ
deriving DecidableEq, Repr

/-- `walFreeSpace`. -/
def walFreeSpace (s : Cursors) : ℕ :=
  if s.ww = s.wt then workerWalSize
  else if s.ww < s.wt then s.ww + (workerWalSize - s.wt)
  else s.ww - s.wt

/-- `walContiguousFreeSpace`. -/
def walContiguousFreeSpace (s : Cursors) : ℕ := workerWalSize - s.wt

/-- The places in `walEnsureEnoughSpace` of the worker, and those of the group committer.  The list is
that of the calls that wait for a nested one, each with its request. -/
inductive Pc where
  | idle
  | spin (requested : ℕ) (outer : List ℕ)
  | check (requested : ℕ) (outer : List ℕ)
  | carriage (requested : ℕ) (outer : List ℕ)
  | reserved (n : ℕ)
  | commiter (wtCursorToFlush : Option ℕ)
deriving DecidableEq, Repr

/-- A call returns to the one that waits for it, which makes its carriage return. -/
def returnTo (requested : ℕ) : List ℕ → Pc
  | [] => .reserved requested
  | outer :: rest => .carriage outer rest

/-- One step: a load of the flush cursor, or a store to one of the cursors. -/
def step (s : Cursors) : Pc → Cursors × Pc × Option Unit
  | .idle => (s, .idle, none)
  | .spin requested outer =>
    if walFreeSpace s < requested + crEntrySize then (s, .spin requested outer, none)
    else (s, .check requested outer, none)
  | .check requested outer =>
    if walContiguousFreeSpace s < requested + crEntrySize then
      -- `reserveWALMetaEntry`
      (s, .spin crEntrySize (requested :: outer), none)
    else (s, returnTo requested outer, none)
  | .carriage requested outer => ({ s with wt := 0 }, returnTo requested outer, none)
  | .reserved n => (s, .reserved n, none)
  | .commiter none => (s, .commiter (some s.wt), none)
  | .commiter (some c) => ({ s with ww := c }, .commiter none, none)

/-- A thread goes on, requests space, or submits an entry. -/
inductive Input where
  | step
  | request (n : ℕ)
  | submit (size : ℕ)
deriving DecidableEq, Repr

/-- The worker and the group committer. -/
def program : Program Cursors Pc Input Unit
  | .step, s, pc => step s pc
  | .request n, s, _ => (s, .spin n [], none)
  | .submit size, s, .reserved n => ({ s with wt := s.wt + size }, .reserved (n - size), none)
  | .submit _, s, pc => (s, pc, none)

/-- The worker is not in a request. -/
def Pc.isOutside : Pc → Bool
  | .idle => true
  | .reserved _ => true
  | _ => false

/-- What is left of the bytes that the worker has reserved. -/
def Pc.left : Pc → ℕ
  | .reserved n => n
  | _ => 0

/-- Thread 0 is the worker and thread 1 the group committer.  The worker requests space when it is
not in a request, and submits no more than it has reserved. -/
def Calls (s : State Cursors Pc) (thread : ℕ) : Input → Prop
  | .step => thread ≤ 1
  | .request _ => thread = 0 ∧ (s.place 0).isOutside
  | .submit size => thread = 0 ∧ size ≤ (s.place 0).left

/-- Behind a carriage return, there is room for the request before the flush cursor. -/
def RoomBehindReturn (s : State Cursors Pc) (thread : ℕ) : Input → Prop
  | .step =>
    match s.place thread with
    | .carriage requested _ => requested < s.shared.ww
    | _ => True
  | _ => True

instance (s : State Cursors Pc) (thread : ℕ) : (i : Input) → Decidable (Calls s thread i)
  | .step => inferInstanceAs (Decidable (_ ≤ _))
  | .request _ => inferInstanceAs (Decidable (_ ∧ _ = true))
  | .submit _ => inferInstanceAs (Decidable (_ ∧ _ ≤ _))

instance (s : State Cursors Pc) (thread : ℕ) (i : Input) :
    Decidable (RoomBehindReturn s thread i) := by
  unfold RoomBehindReturn
  split
  · split <;> infer_instance
  · infer_instance

/-- **What a request is granted**: bytes at the write cursor that lie inside of the ring, are not
waiting to be flushed, and do not make the cursors equal while some are. -/
structure Granted (s : Cursors) (n : ℕ) : Prop where
  inside : s.wt + n ≤ workerWalSize
  flushed : ∀ i, s.wt ≤ i → i < s.wt + n → ¬ Pending workerWalSize s.ww s.wt i
  apart : s.wt + n = s.ww → n = 0 ∧ s.wt = s.ww

/-! ## What a call knows -/

/-- What the worker knows at its place. -/
def Pc.Knows (s : Cursors) : Pc → Prop
  | .spin _ outer => outer ≠ [] → s.ww ≤ s.wt
  | .check requested outer => (outer ≠ [] → s.ww ≤ s.wt) ∧
      (s.wt < s.ww → s.wt + requested + crEntrySize ≤ s.ww)
  | .carriage _ _ => s.ww ≤ s.wt ∨ s.wt = 0
  | .reserved n => Room workerWalSize crEntrySize s.ww s.wt n
  | .idle => True
  | .commiter _ => False

/-- The cursors leave space for one entry at the end, and the cursor that the group committer has
noted is on its way. -/
structure Inv (s : State Cursors Pc) : Prop where
  ww_le : s.shared.ww + crEntrySize ≤ workerWalSize
  wt_le : s.shared.wt + crEntrySize ≤ workerWalSize
  knows : (s.place 0).Knows s.shared
  commiter : ∃ c, s.place 1 = .commiter c ∧
    ∀ c' ∈ c, c' + crEntrySize ≤ workerWalSize ∧ Within s.shared.ww c' s.shared.wt

variable {s : State Cursors Pc} {a : Cursors} {c n : ℕ} {pc : Pc} {outer : List ℕ}

/-- The group committer moves the flush cursor, and the worker does not notice. -/
lemma Pc.Knows.advance (h : pc.Knows a) (hc : Within a.ww c a.wt) : pc.Knows { a with ww := c } := by
  cases pc with
  | spin n outer =>
    intro houter
    exact hc.le_of_le (h houter)
  | check n outer =>
    refine ⟨fun houter => hc.le_of_le (h.1 houter), fun hlt => ?_⟩
    rcases le_or_gt a.ww a.wt with hle | hgt
    · exact absurd (hc.le_of_le hle) (not_le.2 hlt)
    · rcases hc.or_of_lt hgt with hwc | hcw
      · exact (h.2 hgt).trans hwc
      · exact absurd hcw (not_le.2 hlt)
  | carriage n outer => exact h.imp_left hc.le_of_le
  | reserved n => exact Room.advance h hc
  | idle => trivial
  | commiter c => exact h.elim

/-- What is free, is free before the flush cursor. -/
lemma knows_check {requested : ℕ} (h : (Pc.spin requested outer).Knows a)
    (hfree : ¬ walFreeSpace a < requested + crEntrySize) : (Pc.check requested outer).Knows a := by
  refine ⟨h, fun hlt => ?_⟩
  rw [walFreeSpace, if_neg (by omega), if_neg (by omega)] at hfree
  omega

/-- A request that does not fit at the end finds the flush cursor behind. -/
lemma le_of_not_fit {requested : ℕ} (h : (Pc.check requested outer).Knows a)
    (hww : a.ww + crEntrySize ≤ workerWalSize)
    (hfit : walContiguousFreeSpace a < requested + crEntrySize) : a.ww ≤ a.wt := by
  by_contra hlt
  have hroom := h.2 (by omega)
  rw [walContiguousFreeSpace] at hfit
  omega

/-- A request that fits at the end is granted. -/
lemma knows_returnTo_check {requested : ℕ} (h : (Pc.check requested outer).Knows a)
    (hwt : a.wt + crEntrySize ≤ workerWalSize)
    (hfit : ¬ walContiguousFreeSpace a < requested + crEntrySize) :
    (returnTo requested outer).Knows a := by
  rw [walContiguousFreeSpace] at hfit
  have hpos : 0 < crEntrySize := by decide
  cases outer with
  | nil =>
    refine ⟨by omega, fun hlt => ?_⟩
    have hroom := h.2 hlt
    omega
  | cons n rest => exact Or.inl (h.1 (List.cons_ne_nil n rest))

/-- Behind a carriage return, there must be room. -/
lemma knows_returnTo_carriage {requested : ℕ} (hwt : a.wt = 0)
    (hww : a.ww + crEntrySize ≤ workerWalSize) (hroom : requested < a.ww) :
    (returnTo requested outer).Knows a := by
  cases outer with
  | nil => exact ⟨by omega, fun _ => by omega⟩
  | cons n rest => exact Or.inr hwt

/-! ## Steps and runs -/

namespace Inv

lemma worker (h : Inv s) (hknows : pc.Knows s.shared) :
    Inv ⟨s.shared, update s.place 0 pc⟩ :=
  ⟨h.ww_le, h.wt_le, by simpa using hknows, by simpa using h.commiter⟩

lemma workerStore (h : Inv s) {wt : ℕ} (hwt : wt + crEntrySize ≤ workerWalSize)
    (hknows : pc.Knows { s.shared with wt := wt })
    (hwithin : ∀ c, Within s.shared.ww c s.shared.wt → Within s.shared.ww c wt) :
    Inv ⟨{ s.shared with wt := wt }, update s.place 0 pc⟩ := by
  obtain ⟨c, hc, hflush⟩ := h.commiter
  refine ⟨h.ww_le, hwt, by simpa using hknows, c, by simpa using hc, fun c' hc' => ?_⟩
  exact ⟨(hflush c' hc').1, hwithin c' (hflush c' hc').2⟩

lemma workerStep (h : Inv s) (hroom : RoomBehindReturn s 0 .step) :
    Inv (s.step program 0 .step).1 := by
  have hknows := h.knows
  rw [State.step_eq]
  simp only [program]
  cases hpc : s.place 0 with
  | idle => exact h.worker trivial
  | spin requested outer =>
    rw [hpc] at hknows
    by_cases hfree : walFreeSpace s.shared < requested + crEntrySize
    · simp only [step, if_pos hfree]
      exact h.worker hknows
    · simp only [step, if_neg hfree]
      exact h.worker (knows_check hknows hfree)
  | check requested outer =>
    rw [hpc] at hknows
    by_cases hfit : walContiguousFreeSpace s.shared < requested + crEntrySize
    · simp only [step, if_pos hfit]
      exact h.worker (fun _ => le_of_not_fit hknows h.ww_le hfit)
    · simp only [step, if_neg hfit]
      exact h.worker (knows_returnTo_check hknows h.wt_le hfit)
  | carriage requested outer =>
    rw [hpc] at hknows
    simp only [RoomBehindReturn, hpc] at hroom
    refine h.workerStore (by decide) (knows_returnTo_carriage rfl h.ww_le hroom) (fun c hc => ?_)
    exact hc.wrap (by omega) hknows
  | reserved n =>
    rw [hpc] at hknows
    exact h.worker hknows
  | commiter c =>
    rw [hpc] at hknows
    exact hknows.elim

lemma commiterStep (h : Inv s) : Inv (s.step program 1 .step).1 := by
  obtain ⟨c, hc, hflush⟩ := h.commiter
  rw [State.step_eq]
  cases c with
  | none =>
    simp only [program, hc, step]
    refine ⟨h.ww_le, h.wt_le, by simpa using h.knows, some s.shared.wt, by simp, ?_⟩
    rintro c' hc'
    obtain rfl : s.shared.wt = c' := Option.some.inj hc'
    exact ⟨h.wt_le, within_self _ _⟩
  | some c =>
    simp only [program, hc, step]
    obtain ⟨hle, hwithin⟩ := hflush c rfl
    exact ⟨hle, h.wt_le, by simpa using h.knows.advance hwithin, none, by simp, by simp⟩

/-- **Every step keeps the invariant.** -/
lemma step {thread : ℕ} {i : Input} (h : Inv s) (hcall : Calls s thread i)
    (hroom : RoomBehindReturn s thread i) : Inv (s.step program thread i).1 := by
  cases i with
  | step =>
    obtain rfl | rfl : thread = 0 ∨ thread = 1 := by
      have hthread : thread ≤ 1 := hcall
      omega
    · exact h.workerStep hroom
    · exact h.commiterStep
  | request n =>
    obtain ⟨rfl, -⟩ := hcall
    exact h.worker (fun hne => absurd rfl hne)
  | submit size =>
    obtain ⟨rfl, hsize⟩ := hcall
    have hknows := h.knows
    cases hpc : s.place 0 with
    | reserved n =>
      rw [hpc] at hknows
      rw [hpc] at hsize
      have hused := Room.use hknows hsize
      have hinside := hused.inside
      rw [State.step_eq]
      simp only [program, hpc]
      exact h.workerStore (by omega) hused (fun c hc => hc.append hknows hsize)
    | _ =>
      rw [State.step_eq]
      simp only [program, hpc]
      exact h.worker (hpc ▸ hknows)

end Inv

/-- An empty ring. -/
def start : State Cursors Pc := ⟨⟨0, 0⟩, fun thread => if thread = 1 then .commiter none else .idle⟩

lemma inv_start : Inv start := ⟨by decide, by decide, trivial, none, rfl, by simp⟩

/-- **Every request is granted**, if the carriage returns leave room for it. -/
theorem request_granted (es : List Unit) (s : State Cursors Pc)
    (hrun : Run program (fun s thread i => Calls s thread i ∧ RoomBehindReturn s thread i) start es s)
    (n : ℕ) (hn : s.place 0 = .reserved n) : Granted s.shared n := by
  have h : Inv s := by
    refine hrun.invariant (P := fun _ s => Inv s) inv_start ?_
    intro es s thread i h hok
    exact h.step hok.1 hok.2
  have hroom : Room workerWalSize crEntrySize s.shared.ww s.shared.wt n := by
    have hknows := h.knows
    rwa [hn] at hknows
  have hinside := hroom.inside
  exact ⟨by omega, fun i => hroom.not_pending, hroom.apart⟩

/-- The steps of a request that needs no carriage return, and the entry that fills it. -/
def append (n : ℕ) : List (ℕ × Input) := [(0, .request n), (0, .step), (0, .step), (0, .submit n)]

/-- The steps of a round of the group committer. -/
def round : List (ℕ × Input) := [(1, .step), (1, .step)]

/-- A request of one page that needs a carriage return. -/
def requestPage : List (ℕ × Input) := (0, .request 16384) :: List.replicate 5 (0, .step)

/-- A request of one page is granted behind a carriage return, as 20000 bytes are flushed there. -/
theorem request_granted_page : ∃ es s, Run program
    (fun s thread i => Calls s thread i ∧ RoomBehindReturn s thread i) start es s ∧
    s.shared = ⟨20000, 0⟩ ∧ Granted s.shared 16384 := by
  have hrun := Run.of_exec program
    (fun s thread i => Calls s thread i ∧ RoomBehindReturn s thread i) start
    (append 20000 ++ round ++ append 10449402 ++ requestPage) (by decide)
  exact ⟨_, _, hrun, by decide, request_granted _ _ hrun 16384 (by decide)⟩

/-- **A worker is granted bytes that wait to be flushed.**  The first 100 bytes are flushed, the write
cursor is 16358 bytes before the end, and one page is requested.  The bytes that are free suffice, but
only because the tail is counted, and the carriage return gives it up. -/
theorem unflushed_bytes_granted : ∃ es s, Run program Calls start es s ∧
    s.place 0 = .reserved 16384 ∧ s.shared = ⟨100, 0⟩ ∧ ¬ Granted s.shared 16384 := by
  have hrun := Run.of_exec program Calls start
    (append 100 ++ round ++ append 10469302 ++ requestPage) (by decide)
  refine ⟨_, _, hrun, by decide, by decide, fun hgranted => ?_⟩
  exact hgranted.flushed 100 (by decide) (by decide) (by decide)

/-! ## Requests that never return -/

/-- The worker takes a step. -/
def workerStep (x : Cursors × Pc) : Cursors × Pc := ((step x.1 x.2).1, (step x.1 x.2).2.1)

/-- A request of `n` bytes that is made at these cursors returns. -/
def Returns (s : Cursors) (n : ℕ) : Prop := ∃ k, (workerStep^[k] (s, .spin n [])).2 = .reserved n

/-- The worker asks for `n` bytes, or for a carriage return. -/
def Pc.Asks (n : ℕ) : Pc → Prop
  | .spin requested _ | .check requested _ => requested = n ∨ requested = crEntrySize
  | _ => False

/-- **A carriage return that does not fit asks for another one.** -/
lemma asks_workerStep (h : pc.Asks n) (hfit : walContiguousFreeSpace a < n + crEntrySize)
    (htail : walContiguousFreeSpace a < 2 * crEntrySize) :
    (workerStep (a, pc)).1 = a ∧ (workerStep (a, pc)).2.Asks n := by
  cases pc with
  | spin requested outer =>
    by_cases hfree : walFreeSpace a < requested + crEntrySize
    · simpa only [workerStep, step, if_pos hfree] using ⟨trivial, h⟩
    · simpa only [workerStep, step, if_neg hfree] using ⟨trivial, h⟩
  | check requested outer =>
    have hnot : walContiguousFreeSpace a < requested + crEntrySize := by
      obtain rfl | rfl := h <;> omega
    simpa only [workerStep, step, if_pos hnot] using ⟨trivial, Or.inr rfl⟩
  | _ => exact h.elim

lemma not_returns (hfit : walContiguousFreeSpace a < n + crEntrySize)
    (htail : walContiguousFreeSpace a < 2 * crEntrySize) : ¬ Returns a n := by
  rintro ⟨k, hk⟩
  suffices h : ∀ k pc, pc.Asks n → (workerStep^[k] (a, pc)).2.Asks n by
    have hasks := h k (.spin n []) (Or.inl rfl)
    rwa [hk] at hasks
  intro k
  induction k with
  | zero => exact fun pc h => h
  | succ k ih =>
    intro pc h
    obtain ⟨hsame, hnext⟩ := asks_workerStep h hfit htail
    rw [iterate_succ_apply, ← Prod.mk.eta (p := workerStep (a, pc)), hsame]
    exact ih _ hnext

/-- **A request returns if the carriage return it needs fits**, and only then: the entry that records a
carriage return is reserved with room for a second one behind it. -/
theorem returns_iff (s : Cursors) (n : ℕ)
    (hfree : max n crEntrySize + crEntrySize ≤ walFreeSpace s) :
    Returns s n ↔ n + crEntrySize ≤ walContiguousFreeSpace s ∨
      2 * crEntrySize ≤ walContiguousFreeSpace s := by
  have hspin : ¬ walFreeSpace s < n + crEntrySize := by omega
  have hspin' : ¬ walFreeSpace s < crEntrySize + crEntrySize := by omega
  constructor
  · intro h
    by_contra hnot
    exact not_returns (by omega) (by omega) h
  intro h
  by_cases hfit : walContiguousFreeSpace s < n + crEntrySize
  · have hcarriage : ¬ walContiguousFreeSpace s < crEntrySize + crEntrySize := by omega
    refine ⟨5, ?_⟩
    simp [iterate_succ_apply, workerStep, step, if_neg hspin, if_pos hfit, if_neg hspin', if_neg hcarriage, returnTo, iterate_zero_apply]
  · refine ⟨2, ?_⟩
    simp [iterate_succ_apply, workerStep, step, if_neg hspin, if_neg hfit, returnTo, iterate_zero_apply]

/-- A page is requested near the end of a ring that is flushed. -/
theorem returns_page : max 16384 crEntrySize + crEntrySize ≤ walFreeSpace ⟨10480000, 10480000⟩ ∧
    Returns ⟨10480000, 10480000⟩ 16384 :=
  ⟨by decide, (returns_iff ⟨10480000, 10480000⟩ 16384 (by decide)).2 (by decide)⟩

/-- **The start of a transaction never returns.**  The ring is flushed, and the write cursor stands 24
bytes before its end. -/
theorem start_never_returns : ∃ es s, Run program Calls start es s ∧
    s.place 0 = .spin crEntrySize [] ∧ walFreeSpace s.shared = workerWalSize ∧
    ¬ Returns s.shared crEntrySize := by
  have hrun := Run.of_exec program Calls start
    (append 10485736 ++ round ++ [(0, .request crEntrySize)]) (by decide)
  exact ⟨_, _, hrun, by decide, by decide, not_returns (by decide) (by decide)⟩

end WalRing

end TwoTree.ConcurrencyRecovery
