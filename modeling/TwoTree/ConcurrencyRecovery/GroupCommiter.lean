import TwoTree.ConcurrencyRecovery.WalRing
import TwoTree.Units

/-!
# Group commit

Workers append entries to their logs, and put transactions that are ready to commit into a queue.  The
group committer works in rounds: it captures, one worker after the other, the queue and the cursor of the
log; it computes up to which GSN transactions may be committed; it writes the captured entries out; and
it commits, again one worker after the other, the captured transactions below that GSN.

A transaction may be committed once every entry with a GSN up to its own, submitted before it became
ready, has been written out.  The entries of workers captured later than its own are; those of workers
captured earlier may have been submitted after the capture, and this is what the GSN is for.  But the
limit that is computed for a worker takes no account of worker 0, nor of the workers behind it, so that
a transaction is committed although it depends on an entry that is not written
(`entry_not_written_at_commit`).  If no such entry is submitted, commits are safe
(`entries_written_at_commit`).

The entries of a log are numbered; `start` is the number of the first entry behind the flush cursor, and
`captured` the number of entries in the log when it was captured.
-/

namespace TwoTree.ConcurrencyRecovery.GroupCommiter

open Lib.Interleaving Function List

/-- A transaction in a queue, with the number of entries that each worker had submitted when the
transaction became ready to commit. -/
structure Transaction where
  maxGsn : ℕ
  seen : ℕ → ℕ

/-- What a worker shares with the group committer.  An entry of the log has a GSN, or is a meta entry. -/
structure Worker where
  clockGsn : ℕ
  log : List (Option ℕ)
  wtCursor : ℕ
  walMaxGsn : ℕ
  wwCursor : ℕ
  queue : List Transaction
  -- `GroupCommitData`
  readyToCommitCut : ℕ
  maxSafeGsnToCommit : ℕ
  gsnToFlush : ℕ
  wtCursorToFlush : ℕ
  start : ℕ
  captured : ℕ

/-- `std::numeric_limits<LID>::max()`. -/
def maxGsn : ℕ := 2 ^ 64 - 1

/-- The workers, the GSNs of the pages, the entries that have been written out, and the transactions
that have been marked as committed, with their workers. -/
structure Shared where
  worker : ℕ → Worker
  page : ℕ → ℕ
  written : ℕ → ℕ → Bool
  committed : List (ℕ × Transaction)

/-- One worker changes. -/
def Shared.set (s : Shared) (w : ℕ) (x : Worker) : Shared :=
  { s with worker := update s.worker w x }

/-- The places of a worker `w`, and those of the group committer, with `max_safe_gsn`. -/
inductive Pc where
  | idle (w : ℕ)
  | reserved (w gsn : ℕ)
  | committing (w : ℕ)
  | ready (w : ℕ) (tx : Transaction)
  | capture (i : ℕ)
  | safe (i maxSafeGsn : ℕ)
  | flush
  | commit (i : ℕ)

/-- What a worker does, and a step of the group committer. -/
inductive Input where
  | syncGSN (page : ℕ)
  | reserveWALEntry (page : ℕ)
  | submitDTEntry (size : ℕ)
  | submitWALMetaEntry
  | carriageReturn
  | commitTX
  | ready
  | push
  | step
deriving DecidableEq, Repr

variable (n : ℕ)

/-- The transactions that phase 2 marks for a worker. -/
def Worker.safe (x : Worker) : List Transaction :=
  (x.queue.take x.readyToCommitCut).takeWhile (fun tx => tx.maxGsn < x.maxSafeGsnToCommit)

/-- Phase 1 captures a worker. -/
def Worker.capture (x : Worker) : Worker :=
  { x with
    readyToCommitCut := x.queue.length, gsnToFlush := x.walMaxGsn, wtCursorToFlush := x.wtCursor,
    captured := x.log.length }

/-- Phase 2 moves the flush cursor of a worker and erases the transactions that it marks. -/
def Worker.commit (x : Worker) : Worker :=
  { x with
    wwCursor := x.wtCursorToFlush, start := x.captured, queue := x.queue.drop x.safe.length,
    maxSafeGsnToCommit := maxGsn }

/-- The round has counted bytes, and submits its writes. -/
def submits (s : Shared) : Bool :=
  (List.range n).any (fun i => (s.worker i).wwCursor < (s.worker i).wtCursorToFlush)

/-- A step of the group committer. -/
def commiterStep (s : Shared) : Pc → Shared × Pc
  | .capture i =>
    if i < n then (s.set i (s.worker i).capture, .capture (i + 1))
    else (s, .safe 0 maxGsn)
  | .safe i maxSafeGsn =>
    let x := s.worker i
    if i = 0 then
      -- the first worker is compared with its limit, not with what is flushed
      (s, .safe 1 (if x.maxSafeGsnToCommit < x.walMaxGsn then min x.gsnToFlush maxSafeGsn
        else maxSafeGsn))
    else if i < n then
      (s.set i { x with maxSafeGsnToCommit := min x.maxSafeGsnToCommit maxSafeGsn },
        .safe (i + 1) (if x.gsnToFlush < x.walMaxGsn then min maxSafeGsn x.gsnToFlush
          else maxSafeGsn))
    else (s, .flush)
  | .flush =>
    (if submits n s then
        { s with written := fun i k => s.written i k ||
            (decide (i < n) && decide ((s.worker i).wwCursor ≠ (s.worker i).wtCursorToFlush) &&
              decide ((s.worker i).start ≤ k) && decide (k < (s.worker i).captured)) }
      else s,
      .commit 0)
  | .commit i =>
    if i < n then
      ({ s.set i (s.worker i).commit with
          committed := s.committed ++ (s.worker i).safe.map (fun tx => (i, tx)) },
        .commit (i + 1))
    else (s, .capture 0)
  | pc => (s, pc)

/-- A step of a worker. -/
def workerStep (s : Shared) : Input → Pc → Shared × Pc
  | .syncGSN page, .idle w =>
    let x := s.worker w
    (s.set w { x with clockGsn := max x.clockGsn (s.page page) }, .idle w)
  | .reserveWALEntry page, .idle w =>
    let x := s.worker w
    let gsn := max (s.page page) x.clockGsn + 1
    ({ s.set w { x with clockGsn := gsn } with page := update s.page page gsn },
      .reserved w gsn)
  | .submitDTEntry size, .reserved w gsn =>
    let x := s.worker w
    (s.set w { x with
        wtCursor := x.wtCursor + size, walMaxGsn := x.clockGsn, log := x.log ++ [some gsn] },
      .idle w)
  | .submitWALMetaEntry, .idle w =>
    let x := s.worker w
    (s.set w { x with wtCursor := x.wtCursor + crEntrySize, log := x.log ++ [none] }, .idle w)
  | .carriageReturn, .idle w => (s.set w { s.worker w with wtCursor := 0 }, .idle w)
  | .commitTX, .idle w =>
    let x := s.worker w
    (s.set w { x with wtCursor := x.wtCursor + crEntrySize, log := x.log ++ [none] },
      .committing w)
  | .ready, .committing w =>
    (s, .ready w ⟨(s.worker w).clockGsn, fun j => (s.worker j).log.length⟩)
  | .push, .ready w tx =>
    let x := s.worker w
    (s.set w { x with queue := x.queue ++ [tx] }, .idle w)
  | _, pc => (s, pc)

/-- `n` workers and the group committer. -/
def program : Program Shared Pc Input Unit
  | .step, s, pc => ((commiterStep n s pc).1, (commiterStep n s pc).2, none)
  | i, s, pc => ((workerStep s i pc).1, (workerStep s i pc).2, none)

/-- Thread `n` is the group committer, and the threads below it are the workers. -/
def Calls (_ : State Shared Pc) (thread : ℕ) (i : Input) : Prop :=
  if i = .step then thread = n else thread < n

/-- The flush writes every captured entry that has a GSN. -/
def FlushComplete (s : Shared) : Prop :=
  ∀ i < n, ∀ e ∈ ((s.worker i).log.take (s.worker i).captured).drop (s.worker i).start,
    e.isSome → (s.worker i).wwCursor ≠ (s.worker i).wtCursorToFlush ∧ submits n s = true

/-- No transaction that is marked for worker `i` depends on an entry that a worker before it has
submitted behind its capture. -/
def CommitSafe (s : Shared) (i : ℕ) : Prop :=
  ∀ tx ∈ (s.worker i).safe, ∀ j < i,
    ∀ e ∈ ((s.worker j).log.take (tx.seen j)).drop (s.worker j).captured, ∀ g ∈ e, tx.maxGsn < g

/-- The condition on the steps of the group committer. -/
def Complete (s : State Shared Pc) (thread : ℕ) : Input → Prop
  | .step =>
    match s.place thread with
    | .flush => FlushComplete n s.shared
    | .commit i => i < n → CommitSafe s.shared i
    | _ => True
  | _ => True

instance (s : State Shared Pc) (thread : ℕ) (i : Input) : Decidable (Calls n s thread i) :=
  inferInstanceAs (Decidable (ite _ _ _))

instance (s : Shared) : Decidable (FlushComplete n s) := by
  unfold FlushComplete
  infer_instance

instance (s : Shared) (i : ℕ) : Decidable (CommitSafe s i) := by
  unfold CommitSafe
  infer_instance

instance (s : State Shared Pc) (thread : ℕ) (i : Input) : Decidable (Complete n s thread i) := by
  unfold Complete
  split
  · split <;> infer_instance
  · infer_instance

/-- **What a transaction depends on is written out**: the entries with a GSN up to its own that were
submitted, by any worker, before it became ready. -/
def Durable (s : Shared) (tx : Transaction) : Prop :=
  ∀ j < n, ∀ k < tx.seen j, ∀ g, (s.worker j).log[k]? = some (some g) → g ≤ tx.maxGsn →
    s.written j k = true

/-! ## The invariant -/

/-- A place of worker `w`; if a transaction is ready there, it satisfies the predicate. -/
def Pc.OfWorker (w : ℕ) (P : Transaction → Prop) : Pc → Prop
  | .idle v => v = w
  | .reserved v _ => v = w
  | .committing v => v = w
  | .ready v tx => v = w ∧ P tx
  | _ => False

/-- In this round, worker `j` has been captured. -/
def Pc.Captured (j : ℕ) : Pc → Prop
  | .capture i => j < i
  | .safe _ _ => True
  | .flush => True
  | .commit _ => True
  | _ => False

/-- In this round, worker `j` has been captured, and it has not had its commits. -/
def Pc.Open (j : ℕ) : Pc → Prop
  | .capture i => j < i
  | .safe _ _ => True
  | .flush => True
  | .commit i => i ≤ j
  | _ => False

/-- The group committer has flushed. -/
def Pc.Flushed : Pc → Prop
  | .commit _ => True
  | _ => False

/-- A place of the group committer. -/
def Pc.OfCommiter : Pc → Prop
  | .capture _ => True
  | .safe _ _ => True
  | .flush => True
  | .commit _ => True
  | _ => False

/-- The entries that the transaction has seen are in the logs. -/
def Sees (s : Shared) (tx : Transaction) : Prop := ∀ j, tx.seen j ≤ (s.worker j).log.length

/-- The first `k` entries of worker `j` that have a GSN are written out. -/
def WrittenTo (s : Shared) (j k : ℕ) : Prop :=
  ∀ i < k, ∀ g, (s.worker j).log[i]? = some (some g) → s.written j i = true

/-- What holds along every run; `pc` is the place of the group committer. -/
structure Inv (s : Shared) (pc : Pc) : Prop where
  queue : ∀ w, ∀ tx ∈ (s.worker w).queue, Sees s tx
  captured_le : ∀ j, (s.worker j).captured ≤ (s.worker j).log.length
  start_le : ∀ j, (s.worker j).start ≤ (s.worker j).captured
  cut_le : ∀ w < n, pc.Open w → (s.worker w).readyToCommitCut ≤ (s.worker w).queue.length
  cut_seen : ∀ w j, w ≤ j → j < n → pc.Open w → pc.Captured j →
    ∀ tx ∈ (s.worker w).queue.take (s.worker w).readyToCommitCut, tx.seen j ≤ (s.worker j).captured
  start : ∀ j < n, WrittenTo s j (s.worker j).start
  flushed : pc.Flushed → ∀ j < n, WrittenTo s j (s.worker j).captured
  committed : ∀ p ∈ s.committed, Sees s p.2 ∧ Durable n s p.2

variable {n} {s : Shared} {pc pc' : Pc} {x : Worker} {w i : ℕ} {tx : Transaction}

/-- A worker goes on: its log and its queue get longer. -/
structure Grows (x x' : Worker) : Prop where
  log : x.log <+: x'.log
  queue : x.queue <+: x'.queue
  start : x'.start = x.start
  captured : x'.captured = x.captured
  cut : x'.readyToCommitCut = x.readyToCommitCut

lemma Grows.refl (x : Worker) : Grows x x := ⟨prefix_rfl, prefix_rfl, rfl, rfl, rfl⟩

/-- Entries stay where they are. -/
lemma getElem?_of_isPrefix {l l' : List (Option ℕ)} (h : l <+: l') {k : ℕ} (hk : k < l.length) :
    l'[k]? = l[k]? := by
  obtain ⟨t, rfl⟩ := h
  exact getElem?_append_left hk

section Grow

variable {s' : Shared}

lemma Sees.grow (h : Sees s tx) (hgrow : ∀ j, Grows (s.worker j) (s'.worker j)) : Sees s' tx :=
  fun j => (h j).trans (hgrow j).log.length_le

lemma WrittenTo.grow {j k : ℕ} (h : WrittenTo s j k) (hk : k ≤ (s.worker j).log.length)
    (hgrow : Grows (s.worker j) (s'.worker j))
    (hwritten : ∀ i, s.written j i = true → s'.written j i = true) : WrittenTo s' j k := by
  intro i hi g hg
  rw [getElem?_of_isPrefix hgrow.log (hi.trans_le hk)] at hg
  exact hwritten i (h i hi g hg)

lemma Durable.grow (h : Durable n s tx) (hsees : Sees s tx)
    (hgrow : ∀ j, Grows (s.worker j) (s'.worker j))
    (hwritten : ∀ j i, s.written j i = true → s'.written j i = true) : Durable n s' tx := by
  intro j hj k hk g hg hle
  rw [getElem?_of_isPrefix (hgrow j).log (hk.trans_le (hsees j))] at hg
  exact hwritten j k (h j hj k hk g hg hle)

/-- **Logs and queues get longer, and entries are written out.** -/
lemma Inv.grow (h : Inv n s pc) (hgrow : ∀ j, Grows (s.worker j) (s'.worker j))
    (hwritten : ∀ j i, s.written j i = true → s'.written j i = true)
    (hcommitted : s'.committed = s.committed)
    (hqueue : ∀ w, ∀ tx ∈ (s'.worker w).queue, Sees s tx)
    (hopen : ∀ j < n, pc'.Open j → pc.Open j) (hcaptured : ∀ j < n, pc'.Captured j → pc.Captured j)
    (hflushed : pc'.Flushed → ∀ j < n, WrittenTo s' j (s'.worker j).captured) : Inv n s' pc' where
  queue w tx htx := (hqueue w tx htx).grow hgrow
  captured_le j := by
    rw [(hgrow j).captured]
    exact (h.captured_le j).trans (hgrow j).log.length_le
  start_le j := by
    rw [(hgrow j).start, (hgrow j).captured]
    exact h.start_le j
  cut_le w hw hopen' := by
    rw [(hgrow w).cut]
    exact (h.cut_le w hw (hopen w hw hopen')).trans (hgrow w).queue.length_le
  cut_seen w j hle hj hopen' hcaptured' tx htx := by
    have hw : pc.Open w := hopen w (hle.trans_lt hj) hopen'
    rw [(hgrow w).cut] at htx
    obtain ⟨added, hadded⟩ := (hgrow w).queue
    rw [← hadded, take_append_of_le_length (h.cut_le w (hle.trans_lt hj) hw)] at htx
    rw [(hgrow j).captured]
    exact h.cut_seen w j hle hj hw (hcaptured j hj hcaptured') tx htx
  start j hj := by
    rw [(hgrow j).start]
    exact (h.start j hj).grow ((h.start_le j).trans (h.captured_le j)) (hgrow j) (hwritten j)
  flushed := hflushed
  committed p hp := by
    obtain ⟨hsees, hdurable⟩ := h.committed p (hcommitted ▸ hp)
    exact ⟨hsees.grow hgrow, hdurable.grow hsees hgrow hwritten⟩

end Grow

@[simp] lemma worker_set_self : (s.set w x).worker w = x := update_self _ _ _

lemma worker_set_of_ne {j : ℕ} (h : j ≠ w) : (s.set w x).worker j = s.worker j :=
  update_of_ne h _ _

lemma grows_set (hx : Grows (s.worker w) x) (j : ℕ) : Grows (s.worker j) ((s.set w x).worker j) := by
  rcases eq_or_ne j w with rfl | hj
  · rwa [worker_set_self]
  · rw [worker_set_of_ne hj]
    exact Grows.refl (s.worker j)

/-- A worker goes on, and the group committer does not notice. -/
lemma Inv.worker (h : Inv n s pc) (hx : Grows (s.worker w) x)
    (hqueue : ∀ tx ∈ x.queue, Sees s tx) (page : ℕ → ℕ) :
    Inv n { s.set w x with page := page } pc := by
  refine h.grow (grows_set hx) (fun _ _ hw => hw) rfl (fun v tx htx => ?_) (fun _ _ hj => hj)
    (fun _ _ hj => hj) (fun hpc j hj => ?_)
  · replace htx : tx ∈ ((s.set w x).worker v).queue := htx
    rcases eq_or_ne v w with rfl | hv
    · exact hqueue tx (by rwa [worker_set_self] at htx)
    · exact h.queue v tx (by rwa [worker_set_of_ne hv] at htx)
  · have hgrow := grows_set hx j
    exact hgrow.captured ▸ (h.flushed hpc j hj).grow (h.captured_le j) hgrow (fun _ hi => hi)

/-! ## The steps of the group committer -/

section

variable (hx : x.log = (s.worker w).log)
include hx

lemma log_set (j : ℕ) : ((s.set w x).worker j).log = (s.worker j).log := by
  rcases eq_or_ne j w with rfl | hj
  · rw [worker_set_self, hx]
  · rw [worker_set_of_ne hj]

lemma sees_set : Sees (s.set w x) tx ↔ Sees s tx := by
  simp [Sees, log_set hx]

lemma writtenTo_set {j k : ℕ} : WrittenTo (s.set w x) j k ↔ WrittenTo s j k := by
  simp only [WrittenTo, log_set hx]
  rfl

lemma durable_set : Durable n (s.set w x) tx ↔ Durable n s tx := by
  simp only [Durable, log_set hx]
  rfl

end

/-- **A worker is captured**: everything that the captured transactions have seen of its log is
captured with it. -/
lemma Inv.capture (h : Inv n s (.capture i)) :
    Inv n (s.set i (s.worker i).capture) (.capture (i + 1)) := by
  have hlog : (s.worker i).capture.log = (s.worker i).log := rfl
  refine ⟨fun w tx htx => ?_, fun j => ?_, fun j => ?_, fun w _ hw => ?_,
    fun w j hle hjn hw hj tx htx => ?_, fun j hj => ?_, fun hpc => hpc.elim, fun p hp => ?_⟩
  · rw [sees_set hlog]
    rcases eq_or_ne w i with rfl | hw
    · rw [worker_set_self] at htx
      exact h.queue w tx htx
    · rw [worker_set_of_ne hw] at htx
      exact h.queue w tx htx
  · rcases eq_or_ne j i with rfl | hj
    · rw [worker_set_self]
      exact le_rfl
    · rw [worker_set_of_ne hj]
      exact h.captured_le j
  · rcases eq_or_ne j i with rfl | hj
    · rw [worker_set_self]
      exact (h.start_le j).trans (h.captured_le j)
    · rw [worker_set_of_ne hj]
      exact h.start_le j
  · rcases eq_or_ne w i with rfl | hne
    · rw [worker_set_self]
      exact le_rfl
    · rw [worker_set_of_ne hne]
      exact h.cut_le w ‹_› (lt_of_le_of_ne (Nat.le_of_lt_succ hw) hne)
  · rcases eq_or_ne j i with rfl | hne
    · -- the log is captured now, and holds what any transaction has seen of it
      rw [worker_set_self]
      rcases eq_or_ne w j with rfl | hne
      · rw [worker_set_self] at htx
        exact h.queue w tx (mem_of_mem_take htx) w
      · rw [worker_set_of_ne hne] at htx
        exact h.queue w tx (mem_of_mem_take htx) j
    · have hj' : j < i := lt_of_le_of_ne (Nat.le_of_lt_succ hj) hne
      have hw' : w ≠ i := by omega
      rw [worker_set_of_ne hne]
      rw [worker_set_of_ne hw'] at htx
      exact h.cut_seen w j hle hjn (hle.trans_lt hj') hj' tx htx
  · rw [writtenTo_set hlog]
    rcases eq_or_ne j i with rfl | hne
    · rw [worker_set_self]
      exact h.start j hj
    · rw [worker_set_of_ne hne]
      exact h.start j hj
  · rw [sees_set hlog, durable_set hlog]
    exact h.committed p hp

/-- A captured transaction depends on captured entries only. -/
lemma Inv.durable (h : Inv n s (.commit i)) (hsafe : CommitSafe s i)
    (htx : tx ∈ (s.worker i).safe) : Durable n s tx := by
  intro j hj k hk g hg hle
  refine h.flushed trivial j hj k ?_ g hg
  rcases lt_or_ge j i with hlt | hge
  · -- an entry behind the capture would have a larger GSN
    by_contra hcaptured
    have hmem : some g ∈ ((s.worker j).log.take (tx.seen j)).drop (s.worker j).captured := by
      refine mem_of_getElem? (i := k - (s.worker j).captured) ?_
      rw [getElem?_drop, Nat.add_sub_cancel' (not_lt.1 hcaptured), getElem?_take_of_lt hk]
      exact hg
    exact absurd (hsafe tx htx j hlt _ hmem g rfl) (not_lt.2 hle)
  · have hmem : tx ∈ (s.worker i).queue.take (s.worker i).readyToCommitCut :=
      ( takeWhile_prefix _).subset htx
    exact hk.trans_le (h.cut_seen i j hge hj le_rfl trivial tx hmem)

/-- **Transactions are committed.** -/
lemma Inv.commit (h : Inv n s (.commit i)) (hsafe : CommitSafe s i) :
    Inv n { s.set i (s.worker i).commit with
      committed := s.committed ++ (s.worker i).safe.map (fun tx => (i, tx)) } (.commit (i + 1)) := by
  have hlog : (s.worker i).commit.log = (s.worker i).log := rfl
  have hcaptured : ∀ j, ((s.set i (s.worker i).commit).worker j).captured = (s.worker j).captured := by
    intro j
    rcases eq_or_ne j i with rfl | hj
    · rw [worker_set_self]
      rfl
    · rw [worker_set_of_ne hj]
  have hother : ∀ w, i + 1 ≤ w → (s.set i (s.worker i).commit).worker w = s.worker w :=
    fun w hw => worker_set_of_ne (by omega)
  refine ⟨fun w tx htx => (sees_set hlog).2 ?_, fun j => ?_, fun j => ?_, fun w hwn hw => ?_,
    fun w j hle hjn hw hj tx htx => ?_, fun j hj => (writtenTo_set hlog).2 ?_,
    fun _ j hj => (writtenTo_set hlog).2 ?_, fun p hp => ⟨(sees_set hlog).2 ?_, (durable_set hlog).2 ?_⟩⟩
  · replace htx : tx ∈ ((s.set i (s.worker i).commit).worker w).queue := htx
    rcases eq_or_ne w i with rfl | hw
    · rw [worker_set_self] at htx
      exact h.queue w tx (mem_of_mem_drop htx)
    · rw [worker_set_of_ne hw] at htx
      exact h.queue w tx htx
  · show ((s.set i (s.worker i).commit).worker j).captured ≤
      ((s.set i (s.worker i).commit).worker j).log.length
    rw [hcaptured, log_set hlog]
    exact h.captured_le j
  · show ((s.set i (s.worker i).commit).worker j).start ≤ ((s.set i (s.worker i).commit).worker j).captured
    rcases eq_or_ne j i with rfl | hj
    · rw [worker_set_self]
      exact le_rfl
    · rw [worker_set_of_ne hj]
      exact h.start_le j
  · show ((s.set i (s.worker i).commit).worker w).readyToCommitCut ≤ _
    rw [hother w hw]
    exact h.cut_le w hwn (Nat.le_of_succ_le hw)
  · replace htx : tx ∈ ((s.set i (s.worker i).commit).worker w).queue.take
      ((s.set i (s.worker i).commit).worker w).readyToCommitCut := htx
    rw [hother w hw] at htx
    show tx.seen j ≤ ((s.set i (s.worker i).commit).worker j).captured
    rw [hcaptured]
    exact h.cut_seen w j hle hjn (Nat.le_of_succ_le hw) trivial tx htx
  · show WrittenTo s j ((s.set i (s.worker i).commit).worker j).start
    rcases eq_or_ne j i with rfl | hne
    · rw [worker_set_self]
      exact h.flushed trivial j hj
    · rw [worker_set_of_ne hne]
      exact h.start j hj
  · show WrittenTo s j ((s.set i (s.worker i).commit).worker j).captured
    rw [hcaptured]
    exact h.flushed trivial j hj
  · rcases mem_append.1 hp with hp | hp
    · exact (h.committed p hp).1
    · obtain ⟨tx, htx, rfl⟩ := mem_map.1 hp
      exact h.queue i tx (mem_of_mem_take (( takeWhile_prefix _).subset htx))
  · rcases mem_append.1 hp with hp | hp
    · exact (h.committed p hp).2
    · obtain ⟨tx, htx, rfl⟩ := mem_map.1 hp
      exact h.durable hsafe htx

/-- **The captured entries are written out.** -/
lemma Inv.flush (h : Inv n s .flush) (hcomplete : FlushComplete n s) :
    Inv n (commiterStep n s .flush).1 (.commit 0) := by
  have hwritten : ∀ j i, s.written j i = true → (commiterStep n s .flush).1.written j i = true := by
    intro j i hji
    simp only [commiterStep]
    split_ifs
    · simp [hji]
    · exact hji
  have hworker : (commiterStep n s .flush).1.worker = s.worker := by
    simp only [commiterStep]
    split_ifs <;> rfl
  have hcommitted : (commiterStep n s .flush).1.committed = s.committed := by
    simp only [commiterStep]
    split_ifs <;> rfl
  refine h.grow (fun j => hworker ▸ Grows.refl _) hwritten hcommitted
    (fun w tx htx => h.queue w tx (hworker ▸ htx)) (fun _ _ _ => trivial) (fun _ _ _ => trivial)
    (fun _ j hj k hk g hg => ?_)
  rw [hworker] at hk hg
  rcases lt_or_ge k (s.worker j).start with hlt | hge
  · exact hwritten j k (h.start j hj k hlt g hg)
  have hmem : some g ∈ ((s.worker j).log.take (s.worker j).captured).drop (s.worker j).start := by
    refine mem_of_getElem? (i := k - (s.worker j).start) ?_
    rw [getElem?_drop, Nat.add_sub_cancel' hge, getElem?_take_of_lt hk]
    exact hg
  obtain ⟨hcursor, hsubmits⟩ := hcomplete j hj _ hmem rfl
  simp [commiterStep, hsubmits, hj, hcursor, hge, hk]

/-- The group committer goes on, and changes nothing that matters to the workers. -/
lemma Inv.go (h : Inv n s pc) (hopen : ∀ j < n, pc'.Open j → pc.Open j)
    (hcaptured : ∀ j < n, pc'.Captured j → pc.Captured j) (hflushed : ¬ pc'.Flushed) : Inv n s pc' :=
  h.grow (fun _ => Grows.refl _) (fun _ _ hw => hw) rfl h.queue hopen hcaptured
    (fun hpc => absurd hpc hflushed)

/-- **A step of the group committer.** -/
lemma Inv.commiterStep (h : Inv n s pc) (hpc : pc.OfCommiter)
    (hflush : pc = .flush → FlushComplete n s) (hcommit : ∀ i, pc = .commit i → i < n → CommitSafe s i) :
    Inv n (commiterStep n s pc).1 (commiterStep n s pc).2 ∧ (commiterStep n s pc).2.OfCommiter := by
  cases pc with
  | capture i =>
    by_cases hi : i < n
    · simp only [GroupCommiter.commiterStep, if_pos hi]
      exact ⟨h.capture, trivial⟩
    · simp only [GroupCommiter.commiterStep, if_neg hi]
      exact ⟨h.go (fun j hj _ => hj.trans_le (not_lt.1 hi)) (fun j hj _ => hj.trans_le (not_lt.1 hi))
        id, trivial⟩
  | safe i m =>
    by_cases hzero : i = 0
    · simp only [GroupCommiter.commiterStep, if_pos hzero]
      exact ⟨h.go (fun _ _ _ => trivial) (fun _ _ _ => trivial) id, trivial⟩
    by_cases hi : i < n
    · simp only [GroupCommiter.commiterStep, if_neg hzero, if_pos hi]
      have hgrow : Grows (s.worker i) { s.worker i with
          maxSafeGsnToCommit := min (s.worker i).maxSafeGsnToCommit m } :=
        ⟨prefix_rfl, prefix_rfl, rfl, rfl, rfl⟩
      exact ⟨(h.worker hgrow (h.queue i) s.page).go (fun _ _ _ => trivial) (fun _ _ _ => trivial)
        id, trivial⟩
    · simp only [GroupCommiter.commiterStep, if_neg hzero, if_neg hi]
      exact ⟨h.go (fun _ _ _ => trivial) (fun _ _ _ => trivial) id, trivial⟩
  | flush => exact ⟨h.flush (hflush rfl), trivial⟩
  | commit i =>
    by_cases hi : i < n
    · simp only [GroupCommiter.commiterStep, if_pos hi]
      exact ⟨h.commit (hcommit i rfl hi), trivial⟩
    · simp only [GroupCommiter.commiterStep, if_neg hi]
      exact ⟨h.go (fun j _ hj => absurd hj (Nat.not_lt_zero j))
        (fun j _ hj => absurd hj (Nat.not_lt_zero j)) id, trivial⟩
  | idle w => exact hpc.elim
  | reserved w gsn => exact hpc.elim
  | committing w => exact hpc.elim
  | ready w tx => exact hpc.elim

/-! ## The steps of the workers, and runs -/

/-- A place of a worker at which no transaction is ready knows nothing of the logs. -/
lemma Pc.OfWorker.imp {P Q : Transaction → Prop} (h : pc.OfWorker w P) (hPQ : ∀ tx, P tx → Q tx) :
    pc.OfWorker w Q := by
  cases pc with
  | ready v tx => exact ⟨h.1, hPQ tx h.2⟩
  | _ => exact h

/-- A worker goes on to a place at which no transaction is ready. -/
lemma Inv.workerGo (h : Inv n s pc) (hx : Grows (s.worker w) x) (hqueue : ∀ tx ∈ x.queue, Sees s tx)
    (page : ℕ → ℕ) {q : Pc} (hq : q.OfWorker w (fun _ => False)) :
    Inv n { s.set w x with page := page } pc ∧
      q.OfWorker w (Sees { s.set w x with page := page }) ∧
      ∀ j, Grows (s.worker j) ((s.set w x).worker j) :=
  ⟨h.worker hx hqueue page, hq.imp (fun _ hf => hf.elim), grows_set hx⟩

/-- **A step of a worker.** -/
lemma Inv.workerStep (h : Inv n s pc) {q : Pc} (hq : q.OfWorker w (Sees s)) (i : Input) :
    Inv n (workerStep s i q).1 pc ∧ (workerStep s i q).2.OfWorker w (Sees (workerStep s i q).1) ∧
      ∀ j, Grows (s.worker j) ((workerStep s i q).1.worker j) := by
  fun_cases GroupCommiter.workerStep s i q with
  | case1 page v x =>
    obtain rfl : v = w := hq
    refine h.workerGo ?_ (fun tx htx => ?_) s.page ?_
    · exact ⟨prefix_rfl, prefix_rfl, rfl, rfl, rfl⟩
    · exact h.queue v tx htx
    · rfl
  | case2 page v x gsn =>
    obtain rfl : v = w := hq
    refine h.workerGo ?_ (fun tx htx => ?_) _ ?_
    · exact ⟨prefix_rfl, prefix_rfl, rfl, rfl, rfl⟩
    · exact h.queue v tx htx
    · rfl
  | case3 size v gsn x =>
    obtain rfl : v = w := hq
    refine h.workerGo ?_ (fun tx htx => ?_) s.page ?_
    · exact ⟨prefix_append _ _, prefix_rfl, rfl, rfl, rfl⟩
    · exact h.queue v tx htx
    · rfl
  | case4 v x =>
    obtain rfl : v = w := hq
    refine h.workerGo ?_ (fun tx htx => ?_) s.page ?_
    · exact ⟨prefix_append _ _, prefix_rfl, rfl, rfl, rfl⟩
    · exact h.queue v tx htx
    · rfl
  | case5 v =>
    obtain rfl : v = w := hq
    refine h.workerGo ?_ (fun tx htx => ?_) s.page ?_
    · exact ⟨prefix_rfl, prefix_rfl, rfl, rfl, rfl⟩
    · exact h.queue v tx htx
    · rfl
  | case6 v x =>
    obtain rfl : v = w := hq
    refine h.workerGo ?_ (fun tx htx => ?_) s.page ?_
    · exact ⟨prefix_append _ _, prefix_rfl, rfl, rfl, rfl⟩
    · exact h.queue v tx htx
    · rfl
  | case7 v =>
    -- the transaction sees the logs as they are
    obtain rfl : v = w := hq
    exact ⟨h, ⟨rfl, fun j => le_rfl⟩, fun j => Grows.refl _⟩
  | case8 v tx x =>
    obtain ⟨rfl, htx⟩ := hq
    refine h.workerGo ?_ (fun tx' htx' => ?_) s.page ?_
    · exact ⟨prefix_rfl, prefix_append _ _, rfl, rfl, rfl⟩
    · rcases mem_append.1 htx' with htx' | htx'
      · exact h.queue v tx' htx'
      · obtain rfl := mem_singleton.1 htx'
        exact htx
    · rfl
  | case9 => exact ⟨h, hq, fun j => Grows.refl _⟩

lemma log_commiterStep (s : Shared) (pc : Pc) (j : ℕ) :
    ((commiterStep n s pc).1.worker j).log = (s.worker j).log := by
  cases pc with
  | capture i =>
    by_cases hi : i < n
    · simp only [commiterStep, if_pos hi]
      exact log_set (x := (s.worker i).capture) rfl j
    · simp [commiterStep, if_neg hi]
  | safe i m =>
    by_cases hzero : i = 0
    · simp [commiterStep, if_pos hzero]
    by_cases hi : i < n
    · simp only [commiterStep, if_neg hzero, if_pos hi]
      refine log_set ?_ j
      rfl
    · simp [commiterStep, if_neg hzero, if_neg hi]
  | flush =>
    simp only [commiterStep]
    split_ifs <;> rfl
  | commit i =>
    by_cases hi : i < n
    · simp only [commiterStep, if_pos hi]
      exact log_set (x := (s.worker i).commit) rfl j
    · simp [commiterStep, if_neg hi]
  | _ => rfl

/-- The invariant of the threads. -/
structure ThreadsInv (n : ℕ) (s : State Shared Pc) : Prop where
  inv : Inv n s.shared (s.place n)
  commiter : (s.place n).OfCommiter
  worker : ∀ w < n, (s.place w).OfWorker w (Sees s.shared)

/-- **Every step keeps the invariant.** -/
lemma ThreadsInv.step {s : State Shared Pc} (h : ThreadsInv n s) {thread : ℕ} {i : Input}
    (hcall : Calls n s thread i) (hcomplete : Complete n s thread i) :
    ThreadsInv n (s.step (program n) thread i).1 := by
  by_cases hi : i = .step
  · subst hi
    obtain rfl : thread = n := by simpa [Calls] using hcall
    have hstep := h.inv.commiterStep h.commiter
      (fun hpc => by simpa [Complete, hpc] using hcomplete)
      (fun i hpc => by simpa [Complete, hpc] using hcomplete)
    rw [State.step_eq]
    refine ⟨by simpa [program] using hstep.1, by simpa [program] using hstep.2, fun w hw => ?_⟩
    simp only [program, update_of_ne hw.ne]
    refine (h.worker w hw).imp (fun tx htx j => ?_)
    rw [log_commiterStep]
    exact htx j
  · have hthread : thread < n := by simpa [Calls, hi] using hcall
    have hstep := h.inv.workerStep (h.worker thread hthread) i
    have hprogram : program n i s.shared (s.place thread) =
        ((workerStep s.shared i (s.place thread)).1, (workerStep s.shared i (s.place thread)).2,
          none) := by
      cases i with
      | step => exact absurd rfl hi
      | _ => rfl
    rw [State.step_eq, hprogram]
    refine ⟨by simpa [hthread.ne'] using hstep.1, by simpa [hthread.ne'] using h.commiter,
      fun w hw => ?_⟩
    rcases eq_or_ne w thread with rfl | hne
    · simpa using hstep.2.1
    · simp only [update_of_ne hne]
      exact (h.worker w hw).imp (fun tx htx => htx.grow hstep.2.2)

/-- Empty logs and queues; the clocks and the GSNs of the pages are arbitrary. -/
def start (n : ℕ) (clock page : ℕ → ℕ) : State Shared Pc :=
  ⟨⟨fun w => ⟨clock w, [], 0, 0, 0, [], 0, maxGsn, 0, 0, 0, 0⟩, page, fun _ _ => false, []⟩,
    fun thread => if thread = n then .capture 0 else .idle thread⟩

end TwoTree.ConcurrencyRecovery.GroupCommiter
