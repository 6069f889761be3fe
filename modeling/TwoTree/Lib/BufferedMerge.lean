import Mathlib.Tactic

/-!
# Merging two sources through bounded buffers

A scan over two ordered sources that can only be read in batches keeps a buffer for each: it
merges the buffers for as long as both hold entries, drains one when the other's source has
ended, and refills a buffer that ran empty with the next batch, from the successor of the last
key it held.  The entries are handed to a processor one by one, and the scan ends when the
processor asks for it or both sources have ended.

`scan` is that loop, over a batch size and a successor function on keys.  Where the batches are
cut does not matter (`scan_eq`): the processor is handed the merge of the two sources, up to
the entry at which it asks to stop.  On equal keys the left source comes first, and *both*
entries are handed out.  `upTo_merge_eq_iff` says what that means for a reader who wants each
key once: the scan is the merge without the shadowed entries exactly if the processor stops no
later than at the first key both sources hold.
-/

namespace TwoTree.Lib.BufferedMerge

open List

variable {V : Type*} {e : ℕ × V} {source : ℕ → List (ℕ × V)}

/-- Given everything it was handed so far, the last entry included, a processor says whether it
wants to stop. -/
abbrev Processor (V : Type*) := List (ℕ × V) → Bool

/-- What a processor with a history is handed of a list. -/
def upTo (stop : Processor V) : List (ℕ × V) → List (ℕ × V) → List (ℕ × V)
  | history, [] => history
  | history, e :: l =>
    if stop (history ++ [e]) then history ++ [e] else upTo stop (history ++ [e]) l

/-- A buffer: the entries that are still to be handed out, the key before them, and whether the
source ends behind them. -/
structure Buffer (V : Type*) where
  rest : List (ℕ × V)
  last : ℕ
  atEnd : Bool

/-- Both buffers, and what the processor was handed so far. -/
structure State (V : Type*) where
  left : Buffer V
  right : Buffer V
  trace : List (ℕ × V)

/-- Read a batch from a start key on. -/
def fill (size : ℕ) (source : ℕ → List (ℕ × V)) (start : ℕ) : Buffer V :=
  let batch := (source start).take size
  ⟨batch, start, batch.length < size⟩

/-- Drop the first entry. -/
def Buffer.pop (b : Buffer V) : Buffer V :=
  match b.rest with
  | [] => b
  | e :: rest => ⟨rest, e.1, b.atEnd⟩

/-- Whether nothing is left of a source. -/
def Buffer.finished (b : Buffer V) : Bool := b.rest.isEmpty && b.atEnd

/-- Hand out an entry of the left buffer. -/
def State.takeLeft (st : State V) (e : ℕ × V) : State V :=
  { st with left := st.left.pop, trace := st.trace ++ [e] }

/-- Hand out an entry of the right buffer. -/
def State.takeRight (st : State V) (e : ℕ × V) : State V :=
  { st with right := st.right.pop, trace := st.trace ++ [e] }

/-- The loop that runs while both buffers hold entries.  The Boolean says that the processor
stopped. -/
def mergeWhile (stop : Processor V) : ℕ → State V → State V × Bool
  | 0, st => (st, false)
  | fuel + 1, st =>
    match st.left.rest, st.right.rest with
    | a :: _, b :: _ =>
      let st' := if a.1 ≤ b.1 then st.takeLeft a else st.takeRight b
      if stop st'.trace then (st', true) else mergeWhile stop fuel st'
    | _, _ => (st, false)

/-- The loop that hands out the rest of the left buffer. -/
def drainLeft (stop : Processor V) : ℕ → State V → State V × Bool
  | 0, st => (st, false)
  | fuel + 1, st =>
    match st.left.rest with
    | a :: _ =>
      let st' := st.takeLeft a
      if stop st'.trace then (st', true) else drainLeft stop fuel st'
    | [] => (st, false)

/-- The loop that hands out the rest of the right buffer. -/
def drainRight (stop : Processor V) : ℕ → State V → State V × Bool
  | 0, st => (st, false)
  | fuel + 1, st =>
    match st.right.rest with
    | b :: _ =>
      let st' := st.takeRight b
      if stop st'.trace then (st', true) else drainRight stop fuel st'
    | [] => (st, false)

/-- Go on with the next loop, unless the processor has stopped. -/
def andThen (res : State V × Bool) (loop : State V → State V × Bool) : State V × Bool :=
  if res.2 then res else loop res.1

/-- The second loop runs when the right source has ended. -/
def finishLeft (stop : Processor V) (st : State V) : State V × Bool :=
  if st.right.finished then drainLeft stop st.left.rest.length st
  else (st, false)

/-- The third loop runs when the left source has ended. -/
def finishRight (stop : Processor V) (st : State V) : State V × Bool :=
  if st.left.finished then drainRight stop st.right.rest.length st
  else (st, false)

/-- The three inner loops, one after the other. -/
def handOut (stop : Processor V) (st : State V) : State V × Bool :=
  andThen (andThen (mergeWhile stop (st.left.rest.length + st.right.rest.length) st)
    (finishLeft stop)) (finishRight stop)

/-- Refill a buffer that ran empty before its source did. -/
def refill (size : ℕ) (next : ℕ → ℕ) (source : ℕ → List (ℕ × V)) (b : Buffer V) : Buffer V :=
  if b.rest.isEmpty && !b.atEnd then fill size source (next b.last) else b

/-- The outer loop. -/
def scanLoop (size : ℕ) (next : ℕ → ℕ) (left right : ℕ → List (ℕ × V)) (stop : Processor V) :
    ℕ → State V → Option (List (ℕ × V))
  | 0, _ => none
  | fuel + 1, st =>
    match handOut stop st with
    | (st, true) => some st.trace
    | (st, false) =>
      let st := { st with left := refill size next left st.left
                          right := refill size next right st.right }
      if st.right.finished && st.left.finished then some st.trace
      else scanLoop size next left right stop fuel st

/-- The scan from a start key. -/
def scan (fuel size : ℕ) (next : ℕ → ℕ) (left right : ℕ → List (ℕ × V)) (stop : Processor V)
    (start : ℕ) : Option (List (ℕ × V)) :=
  scanLoop size next left right stop fuel ⟨fill size left start, fill size right start, []⟩

/-! ## What is left of a source -/

/-- A source of ascending entries that can be read from any key on. -/
structure Ascending (source : ℕ → List (ℕ × V)) : Prop where
  sorted : ∀ start, (source start).Pairwise (fun a b => a.1 < b.1)
  restart : ∀ start start', start ≤ start' →
    source start' = (source start).filter (fun e => start' ≤ e.1)
  le : ∀ start, ∀ e ∈ source start, start ≤ e.1

/-- The last key a buffer has held. -/
def Buffer.front (b : Buffer V) : ℕ := (b.rest.getLast?.map Prod.fst).getD b.last

/-- What is still to be handed out of a source. -/
def Buffer.remaining (source : ℕ → List (ℕ × V)) (b : Buffer V) : List (ℕ × V) :=
  b.rest ++ if b.atEnd then [] else source (b.front + 1)

lemma Buffer.remaining_of_finished {b : Buffer V}
    (h : b.finished = true) : b.remaining source = [] := by
  obtain ⟨hrest, hend⟩ : b.rest = [] ∧ b.atEnd = true := by simpa [finished] using h
  simp [remaining, hrest, hend]

lemma Buffer.front_pop (b : Buffer V) : b.pop.front = b.front := by
  rcases h : b.rest with _ | ⟨e, _ | ⟨e', l⟩⟩
  · simp [pop, h]
  · simp [pop, front, h]
  · simp only [pop, front, h, getLast?_cons_cons]
    simp [getLast?_cons]

lemma Buffer.atEnd_pop (b : Buffer V) : b.pop.atEnd = b.atEnd := by
  rcases h : b.rest with _ | ⟨e, l⟩ <;> simp [pop, h]

lemma Buffer.remaining_pop (source : ℕ → List (ℕ × V)) {b : Buffer V}
    {l : List (ℕ × V)} (h : b.rest = e :: l) :
    b.remaining source = e :: b.pop.remaining source := by
  have hrest : b.pop.rest = l := by simp [pop, h]
  simp [remaining, front_pop, atEnd_pop, hrest, h]

/-- The entries of a source behind one of its keys are the ones after it. -/
lemma Ascending.restart_behind (h : Ascending source) {start : ℕ}
    {l l' : List (ℕ × V)} (hsplit : source start = l ++ e :: l') :
    source (e.1 + 1) = l' := by
  have hle : start ≤ e.1 + 1 := (h.le start e (by simp [hsplit])).trans (Nat.le_succ _)
  have hsorted := h.sorted start
  rw [hsplit, pairwise_append, pairwise_cons] at hsorted
  obtain ⟨-, ⟨hafter, -⟩, hbefore⟩ := hsorted
  rw [h.restart start _ hle, hsplit, filter_append, filter_cons_of_neg (by simp)]
  have hnil : l.filter (fun a => decide (e.1 + 1 ≤ a.1)) = [] := by
    refine filter_eq_nil_iff.2 (fun a ha => ?_)
    have := hbefore a ha e (by simp)
    simp only [decide_eq_true_eq]
    omega
  have hall : l'.filter (fun a => decide (e.1 + 1 ≤ a.1)) = l' := by
    refine filter_eq_self.2 (fun a ha => ?_)
    have := hafter a ha
    simp only [decide_eq_true_eq]
    omega
  rw [hnil, hall, nil_append]

/-- A batch leaves nothing out. -/
lemma remaining_fill {size : ℕ} (hsize : 0 < size) (h : Ascending source) (start : ℕ) :
    (fill size source start).remaining source = source start := by
  by_cases hlt : (source start).length < size
  · have htake : (source start).take size = source start := take_of_length_le hlt.le
    simp [fill, Buffer.remaining, htake, hlt]
  -- the batch is full, and the source goes on behind its last entry
  have hlen : ((source start).take size).length = size := by
    rw [length_take]
    omega
  have hne : (source start).take size ≠ [] := by
    intro hnil
    rw [hnil] at hlen
    simp at hlen
    omega
  have hsplit : source start = ((source start).take size).dropLast ++
      ((source start).take size).getLast hne :: (source start).drop size := by
    conv_lhs => rw [← take_append_drop size (source start),
      ← dropLast_append_getLast hne]
    simp
  have hbehind := h.restart_behind hsplit
  simp [fill, Buffer.remaining, hlen, Buffer.front, getLast?_eq_some_getLast hne, hbehind]

/-! ## The merge of what is left -/

/-- The order of the merge: by key, the left source first. -/
def byKey (a b : ℕ × V) : Bool := a.1 ≤ b.1

section Sources

variable (left right : ℕ → List (ℕ × V)) (stop : Processor V)

/-- What is still to be handed out. -/
def State.merged (st : State V) : List (ℕ × V) :=
  (st.left.remaining left).merge (st.right.remaining right) byKey

/-- What the processor has been handed when the scan ends. -/
def State.outcome (st : State V) : List (ℕ × V) := upTo stop st.trace (st.merged left right)

/-- The number of entries still to be handed out. -/
def State.todo (st : State V) : ℕ :=
  (st.left.remaining left).length + (st.right.remaining right).length

variable {left right stop} {st : State V} {e : ℕ × V} {l : List (ℕ × V)}

lemma merge_cons_left {l r : List (ℕ × V)} (h : r.head?.all (byKey e) = true) :
    (e :: l).merge r byKey = e :: l.merge r byKey := by
  rcases r with _ | ⟨b, r⟩
  · simp
  · rw [cons_merge_cons, if_pos (by simpa using h)]

lemma merge_cons_right {l r : List (ℕ × V)} (h : l.head?.all (fun a => !byKey a e) = true) :
    l.merge (e :: r) byKey = e :: l.merge r byKey := by
  rcases l with _ | ⟨a, l⟩
  · simp
  · rw [cons_merge_cons, if_neg (by simpa using h)]

/-- Both buffers have held the same keys. -/
def State.SameBatches (st st' : State V) : Prop :=
  (st'.left.front = st.left.front ∧ st'.left.atEnd = st.left.atEnd) ∧
    st'.right.front = st.right.front ∧ st'.right.atEnd = st.right.atEnd

/-- Entries are handed out without a refill; the Boolean says whether the processor stopped.
Either the outcome is settled, or it is that of the next state. -/
structure HandsOut (left right : ℕ → List (ℕ × V)) (stop : Processor V) (st : State V)
    (res : State V × Bool) : Prop where
  stopped : res.2 = true → st.outcome left right stop = res.1.trace
  goesOn : res.2 = false → st.outcome left right stop = res.1.outcome left right stop
  todo : res.1.todo left right ≤ st.todo left right
  batches : st.SameBatches res.1

lemma HandsOut.refl (st : State V) : HandsOut left right stop st (st, false) :=
  ⟨by simp, by simp, le_rfl, ⟨rfl, rfl⟩, rfl, rfl⟩

lemma HandsOut.trans {st st' : State V} {res : State V × Bool}
    (h : HandsOut left right stop st (st', false)) (h' : HandsOut left right stop st' res) :
    HandsOut left right stop st res :=
  ⟨fun hs => (h.goesOn rfl).trans (h'.stopped hs), fun hs => (h.goesOn rfl).trans (h'.goesOn hs),
    h'.todo.trans h.todo,
    ⟨h'.batches.1.1.trans h.batches.1.1, h'.batches.1.2.trans h.batches.1.2⟩,
    h'.batches.2.1.trans h.batches.2.1, h'.batches.2.2.trans h.batches.2.2⟩

lemma handsOut_of_merged {st st' : State V}
    (hmerged : st.merged left right = e :: st'.merged left right)
    (htrace : st'.trace = st.trace ++ [e]) (htodo : st'.todo left right < st.todo left right)
    (hbatches : st.SameBatches st') :
    HandsOut left right stop st (st', stop st'.trace) := by
  refine ⟨fun hs => ?_, fun hs => ?_, htodo.le, hbatches⟩
  · simp only [State.outcome, hmerged, upTo, ← htrace]
    simp only at hs
    simp [hs]
  · simp only [State.outcome, hmerged, upTo, ← htrace]
    simp only at hs
    simp [hs]

/-- An entry is handed out, and then the processor stops or a loop goes on. -/
lemma HandsOut.andThen_loop {st st' : State V} {rest : State V × Bool}
    (hone : HandsOut left right stop st (st', stop st'.trace))
    (htodo : st'.todo left right < st.todo left right) (hrest : HandsOut left right stop st' rest) :
    HandsOut left right stop st (if stop st'.trace then (st', true) else rest) ∧
      (if stop st'.trace then (st', true) else rest).1.todo left right < st.todo left right := by
  cases hstop : stop st'.trace with
  | false =>
    rw [hstop] at hone
    exact ⟨hone.trans hrest, hrest.todo.trans_lt htodo⟩
  | true =>
    rw [hstop] at hone
    exact ⟨hone, htodo⟩

lemma todo_takeLeft
    (h : st.left.rest = e :: l) : (st.takeLeft e).todo left right < st.todo left right := by
  simp only [State.todo, State.takeLeft, st.left.remaining_pop left h, length_cons]
  omega

lemma todo_takeRight
    (h : st.right.rest = e :: l) : (st.takeRight e).todo left right < st.todo left right := by
  simp only [State.todo, State.takeRight, st.right.remaining_pop right h, length_cons]
  omega

/-- Taking from the left buffer is right if nothing smaller is left on the right. -/
lemma handsOut_takeLeft
    (h : st.left.rest = e :: l) (hle : (st.right.remaining right).head?.all (byKey e) = true) :
    HandsOut left right stop st (st.takeLeft e, stop (st.takeLeft e).trace) := by
  refine handsOut_of_merged ?_ rfl (todo_takeLeft h)
    ⟨⟨st.left.front_pop, st.left.atEnd_pop⟩, rfl, rfl⟩
  simp only [State.merged, State.takeLeft, st.left.remaining_pop left h]
  exact merge_cons_left hle

/-- Taking from the right buffer is right if everything left on the left is larger. -/
lemma handsOut_takeRight (h : st.right.rest = e :: l)
    (hlt : (st.left.remaining left).head?.all (fun a => !byKey a e) = true) :
    HandsOut left right stop st (st.takeRight e, stop (st.takeRight e).trace) := by
  refine handsOut_of_merged ?_ rfl (todo_takeRight h)
    ⟨⟨rfl, rfl⟩, st.right.front_pop, st.right.atEnd_pop⟩
  simp only [State.merged, State.takeRight, st.right.remaining_pop right h]
  exact merge_cons_right hlt

/-! ## The inner loops -/

lemma head?_remaining {source : ℕ → List (ℕ × V)} {b : Buffer V}
    (h : b.rest = e :: l) : (b.remaining source).head? = some e := by
  simp [Buffer.remaining, h]

/-- The first loop ends with the processor's stop or with an empty buffer, and makes progress
if both buffers held entries. -/
lemma mergeWhile_spec (left right : ℕ → List (ℕ × V)) (stop : Processor V) {fuel : ℕ}
    (hfuel : st.left.rest.length + st.right.rest.length ≤ fuel) :
    HandsOut left right stop st (mergeWhile stop fuel st) ∧
      ((mergeWhile stop fuel st).2 = false →
        (mergeWhile stop fuel st).1.left.rest = [] ∨ (mergeWhile stop fuel st).1.right.rest = []) ∧
      (st.left.rest ≠ [] → st.right.rest ≠ [] →
        (mergeWhile stop fuel st).1.todo left right < st.todo left right) := by
  induction fuel generalizing st with
  | zero =>
    have hnil : st.left.rest = [] := length_eq_zero_iff.1 (by omega)
    exact ⟨HandsOut.refl st, fun _ => Or.inl hnil, fun hne _ => absurd hnil hne⟩
  | succ fuel ih =>
    rcases hl : st.left.rest with _ | ⟨a, l⟩
    · have hdef : mergeWhile stop (fuel + 1) st = (st, false) := by simp [mergeWhile, hl]
      rw [hdef]
      exact ⟨HandsOut.refl st, fun _ => Or.inl hl, fun hne => absurd rfl hne⟩
    rcases hr : st.right.rest with _ | ⟨b, r⟩
    · have hdef : mergeWhile stop (fuel + 1) st = (st, false) := by simp [mergeWhile, hl, hr]
      rw [hdef]
      exact ⟨HandsOut.refl st, fun _ => Or.inr hr, fun _ hne => absurd rfl hne⟩
    set st' := if a.1 ≤ b.1 then st.takeLeft a else st.takeRight b with hst'
    have hdef : mergeWhile stop (fuel + 1) st =
        if stop st'.trace then (st', true) else mergeWhile stop fuel st' := by
      simp [mergeWhile, hl, hr, hst']
    have hone : HandsOut left right stop st (st', stop st'.trace) := by
      by_cases hle : a.1 ≤ b.1
      · simp only [hst', if_pos hle]
        exact handsOut_takeLeft hl (by simp [head?_remaining hr, byKey, hle])
      · simp only [hst', if_neg hle]
        exact handsOut_takeRight hr (by simpa [head?_remaining hl, byKey] using hle)
    have htodo : st'.todo left right < st.todo left right := by
      by_cases hle : a.1 ≤ b.1
      · simpa [hst', if_pos hle] using todo_takeLeft hl
      · simpa [hst', if_neg hle] using todo_takeRight hr
    have hfuel' : st'.left.rest.length + st'.right.rest.length ≤ fuel := by
      by_cases hle : a.1 ≤ b.1
      · simp [hst', hle, State.takeLeft, Buffer.pop, hl, hr] at hfuel ⊢
        omega
      · simp [hst', hle, State.takeRight, Buffer.pop, hl, hr] at hfuel ⊢
        omega
    obtain ⟨hrest, hempty, -⟩ := ih hfuel'
    obtain ⟨hall, hless⟩ := hone.andThen_loop htodo hrest
    rw [hdef]
    refine ⟨hall, fun hgoes => ?_, fun _ _ => hless⟩
    cases hstop : stop st'.trace with
    | false =>
      rw [hstop] at hgoes
      exact hempty hgoes
    | true => simp [hstop] at hgoes

lemma drainLeft_spec (left right : ℕ → List (ℕ × V)) (stop : Processor V) {fuel : ℕ}
    (hright : st.right.finished = true) :
    HandsOut left right stop st (drainLeft stop fuel st) ∧
      (st.left.rest ≠ [] → fuel ≠ 0 →
        (drainLeft stop fuel st).1.todo left right < st.todo left right) := by
  induction fuel generalizing st with
  | zero => exact ⟨HandsOut.refl st, fun _ h => absurd rfl h⟩
  | succ fuel ih =>
    rw [drainLeft]
    rcases hl : st.left.rest with _ | ⟨a, l⟩
    · exact ⟨HandsOut.refl st, fun hne => absurd rfl hne⟩
    have hone : HandsOut left right stop st (st.takeLeft a, stop (st.takeLeft a).trace) :=
      handsOut_takeLeft hl (by simp [Buffer.remaining_of_finished hright])
    have hright' : (st.takeLeft a).right.finished = true := hright
    obtain ⟨hall, hless⟩ := hone.andThen_loop (todo_takeLeft hl) (ih hright').1
    exact ⟨hall, fun _ _ => hless⟩

lemma drainRight_spec (left right : ℕ → List (ℕ × V)) (stop : Processor V) {fuel : ℕ}
    (hleft : st.left.finished = true) :
    HandsOut left right stop st (drainRight stop fuel st) ∧
      (st.right.rest ≠ [] → fuel ≠ 0 →
        (drainRight stop fuel st).1.todo left right < st.todo left right) := by
  induction fuel generalizing st with
  | zero => exact ⟨HandsOut.refl st, fun _ h => absurd rfl h⟩
  | succ fuel ih =>
    rw [drainRight]
    rcases hr : st.right.rest with _ | ⟨b, r⟩
    · exact ⟨HandsOut.refl st, fun hne => absurd rfl hne⟩
    have hone : HandsOut left right stop st (st.takeRight b, stop (st.takeRight b).trace) :=
      handsOut_takeRight hr (by simp [Buffer.remaining_of_finished hleft])
    have hleft' : (st.takeRight b).left.finished = true := hleft
    obtain ⟨hall, hless⟩ := hone.andThen_loop (todo_takeRight hr) (ih hleft').1
    exact ⟨hall, fun _ _ => hless⟩

/-- A buffer at the start of the outer loop: it is empty only if its source has ended. -/
def Buffer.Ready (b : Buffer V) : Prop := b.rest ≠ [] ∨ b.atEnd = true

lemma Buffer.Ready.finished_of_nil {b : Buffer V} (h : b.Ready) (hnil : b.rest = []) :
    b.finished = true := by
  rcases h with hne | hend
  · exact absurd hnil hne
  · simp [finished, hnil, hend]

lemma Buffer.Ready.finished_of_remaining_nil {source : ℕ → List (ℕ × V)} {b : Buffer V}
    (h : b.Ready) (hnil : b.remaining source = []) : b.finished = true :=
  h.finished_of_nil (append_eq_nil_iff.1 hnil).1

lemma HandsOut.andThen {res : State V × Bool} {loop : State V → State V × Bool}
    (h : HandsOut left right stop st res) (hloop : ∀ st, HandsOut left right stop st (loop st)) :
    HandsOut left right stop st (andThen res loop) := by
  obtain ⟨st', _ | _⟩ := res
  · exact h.trans (hloop st')
  · exact h

lemma finishLeft_spec (left right : ℕ → List (ℕ × V)) (stop : Processor V) (st : State V) :
    HandsOut left right stop st (finishLeft stop st) := by
  rw [finishLeft]
  split_ifs with h
  · exact (drainLeft_spec left right stop h).1
  · exact HandsOut.refl st

lemma finishRight_spec (left right : ℕ → List (ℕ × V)) (stop : Processor V) (st : State V) :
    HandsOut left right stop st (finishRight stop st) := by
  rw [finishRight]
  split_ifs with h
  · exact (drainRight_spec left right stop h).1
  · exact HandsOut.refl st

/-- The inner loops hand out what the merge says. -/
lemma handOut_spec (left right : ℕ → List (ℕ × V)) (stop : Processor V) (st : State V) :
    HandsOut left right stop st (handOut stop st) :=
  ((mergeWhile_spec left right stop le_rfl).1.andThen (finishLeft_spec left right stop)).andThen
    (finishRight_spec left right stop)

lemma todo_andThen_le {res : State V × Bool} {loop : State V → State V × Bool}
    (hloop : ∀ st, HandsOut left right stop st (loop st)) :
    (BufferedMerge.andThen res loop).1.todo left right ≤ res.1.todo left right := by
  rw [BufferedMerge.andThen]
  split_ifs
  · exact le_rfl
  · exact (hloop res.1).todo

lemma mergeWhile_of_nil {fuel : ℕ}
    (h : st.left.rest = [] ∨ st.right.rest = []) : mergeWhile stop fuel st = (st, false) := by
  cases fuel with
  | zero => rfl
  | succ fuel =>
    rcases h with h | h
    · simp [mergeWhile, h]
    · rcases hl : st.left.rest with _ | ⟨a, l⟩ <;> simp [mergeWhile, h, hl]

/-- Unless both sources have ended, the inner loops hand something out. -/
lemma handOut_progress (left right : ℕ → List (ℕ × V)) (stop : Processor V)
    (hl : st.left.Ready) (hr : st.right.Ready)
    (hgo : ¬ (st.left.finished = true ∧ st.right.finished = true)) :
    (handOut stop st).1.todo left right < st.todo left right := by
  by_cases hright : st.right.rest = []
  · have hfin := hr.finished_of_nil hright
    have hleft : st.left.rest ≠ [] := fun hnil => hgo ⟨hl.finished_of_nil hnil, hfin⟩
    -- the second loop hands out the left buffer
    refine (todo_andThen_le (finishRight_spec left right stop)).trans_lt ?_
    rw [mergeWhile_of_nil (Or.inr hright)]
    simp only [andThen, Bool.false_eq_true, if_false, finishLeft]
    rw [if_pos hfin]
    exact (drainLeft_spec left right stop hfin).2 hleft (by simpa using hleft)
  · by_cases hleft : st.left.rest = []
    · have hfin := hl.finished_of_nil hleft
      -- the third loop hands out the right buffer
      rw [handOut, mergeWhile_of_nil (Or.inl hleft)]
      have hgoing : st.right.finished = false := by
        simpa [Buffer.finished] using fun hnil => absurd hnil hright
      simp only [andThen, Bool.false_eq_true, if_false, finishLeft, hgoing, finishRight]
      rw [if_pos hfin]
      exact (drainRight_spec left right stop hfin).2 hright (by simpa using hright)
    · refine (todo_andThen_le (finishRight_spec left right stop)).trans_lt ?_
      refine (todo_andThen_le (finishLeft_spec left right stop)).trans_lt ?_
      exact (mergeWhile_spec left right stop le_rfl).2.2 hleft hright

/-! ## The outer loop -/

section Loop

variable {size : ℕ} (hsize : 0 < size) {next : ℕ → ℕ} {stop : Processor V}
  {source : ℕ → List (ℕ × V)}

include hsize

lemma ready_fill (source : ℕ → List (ℕ × V)) (start : ℕ) : (fill size source start).Ready := by
  by_cases hnil : (source start).take size = []
  · exact Or.inr (by simp [fill, hnil, hsize])
  · exact Or.inl hnil

lemma ready_refill (next : ℕ → ℕ) (source : ℕ → List (ℕ × V)) (b : Buffer V) :
    (refill size next source b).Ready := by
  rw [refill]
  split_ifs with h
  · exact ready_fill hsize source _
  · rcases hrest : b.rest with _ | ⟨e, l⟩
    · exact Or.inr (by simpa [hrest] using h)
    · exact Or.inl (by simp [hrest])

omit hsize in
/-- The successor of the last key in the buffer is computed without wrapping around. -/
def Buffer.Steady (next : ℕ → ℕ) (b : Buffer V) : Prop :=
  b.atEnd = false → next b.front = b.front + 1

lemma steady_fill {start : ℕ}
    (hnext : ∀ e ∈ source start, next e.1 = e.1 + 1) : (fill size source start).Steady next := by
  intro hend
  have hlen : size ≤ ((source start).take size).length := by simpa [fill] using hend
  have hne : (source start).take size ≠ [] := by
    intro hnil
    rw [hnil] at hlen
    simp at hlen
    omega
  have hfront : (fill size source start).front = (((source start).take size).getLast hne).1 := by
    simp [fill, Buffer.front, getLast?_eq_some_getLast hne]
  rw [hfront]
  exact hnext _ (mem_of_mem_take (getLast_mem hne))

lemma steady_refill {b : Buffer V} (h : b.Steady next)
    (hnext : ∀ start, ∀ e ∈ source start, next e.1 = e.1 + 1) :
    (refill size next source b).Steady next := by
  rw [refill]
  split_ifs
  · exact steady_fill hsize (hnext _)
  · exact h

lemma remaining_refill (h : Ascending source) {b : Buffer V} (hsteady : b.Steady next) :
    (refill size next source b).remaining source = b.remaining source := by
  rw [refill]
  split_ifs with hempty
  · obtain ⟨hrest, hend⟩ : b.rest = [] ∧ b.atEnd = false := by simpa using hempty
    have hfront : b.front = b.last := by simp [Buffer.front, hrest]
    have hnext := hsteady hend
    rw [hfront] at hnext
    rw [remaining_fill hsize h, hnext]
    simp [Buffer.remaining, hrest, hend, hfront]
  · rfl

/-- **The outer loop returns, with the outcome of its state.**  Every turn hands out at least
one entry, so as many turns as there are entries, and one more, suffice. -/
lemma scanLoop_eq (hleft : Ascending left) (hright : Ascending right)
    (hnextl : ∀ start, ∀ e ∈ left start, next e.1 = e.1 + 1)
    (hnextr : ∀ start, ∀ e ∈ right start, next e.1 = e.1 + 1) {fuel : ℕ} {st : State V}
    (hfuel : st.todo left right < fuel) (hl : st.left.Ready) (hr : st.right.Ready)
    (hsl : st.left.Steady next) (hsr : st.right.Steady next) :
    scanLoop size next left right stop fuel st = some (st.outcome left right stop) := by
  induction fuel generalizing st with
  | zero => omega
  | succ fuel ih =>
    have hout := handOut_spec left right stop st
    have hprog := handOut_progress left right stop hl hr
    rcases hres : handOut stop st with ⟨st₁, _ | _⟩
    · rw [hres] at hout hprog
      set st₂ : State V := { st₁ with left := refill size next left st₁.left
                                      right := refill size next right st₁.right } with hst₂
      have hsl₁ : st₁.left.Steady next := by
        intro hend
        rw [hout.batches.1.1]
        exact hsl (hout.batches.1.2 ▸ hend)
      have hsr₁ : st₁.right.Steady next := by
        intro hend
        rw [hout.batches.2.1]
        exact hsr (hout.batches.2.2 ▸ hend)
      have hreml : st₂.left.remaining left = st₁.left.remaining left :=
        remaining_refill hsize hleft hsl₁
      have hremr : st₂.right.remaining right = st₁.right.remaining right :=
        remaining_refill hsize hright hsr₁
      have houtcome : st.outcome left right stop = st₂.outcome left right stop := by
        have htrace : st₂.trace = st₁.trace := rfl
        rw [hout.goesOn rfl]
        simp [State.outcome, State.merged, hreml, hremr, htrace]
      have htodo : st₂.todo left right = st₁.todo left right := by
        simp [State.todo, hreml, hremr]
      have hdef : scanLoop size next left right stop (fuel + 1) st =
          if st₂.right.finished && st₂.left.finished then some st₂.trace
          else scanLoop size next left right stop fuel st₂ := by
        simp [scanLoop, hres, hst₂]
      rw [hdef, houtcome]
      by_cases hfin : (st₂.right.finished && st₂.left.finished) = true
      · rw [if_pos hfin]
        obtain ⟨hfr, hfl⟩ : st₂.right.finished = true ∧ st₂.left.finished = true := by
          simpa using hfin
        simp [State.outcome, State.merged, Buffer.remaining_of_finished hfr,
          Buffer.remaining_of_finished hfl, upTo]
      · rw [if_neg hfin]
        have hl₂ : st₂.left.Ready := ready_refill hsize _ _ _
        have hr₂ : st₂.right.Ready := ready_refill hsize _ _ _
        refine ih ?_ hl₂ hr₂ (steady_refill hsize hsl₁ hnextl) (steady_refill hsize hsr₁ hnextr)
        have hlt := hprog (fun ⟨hfl, hfr⟩ => hfin ?_)
        · simp only at hlt
          omega
        -- if both sources had ended before this turn, they still have after it
        have hzero : st₂.todo left right = 0 := by
          have hle := hout.todo
          simp only [State.todo, Buffer.remaining_of_finished hfl,
            Buffer.remaining_of_finished hfr, length_nil] at hle htodo ⊢
          omega
        have hnil : st₂.left.remaining left = [] ∧ st₂.right.remaining right = [] := by
          simpa [State.todo] using hzero
        simp [hl₂.finished_of_remaining_nil hnil.1, hr₂.finished_of_remaining_nil hnil.2]
    · rw [hres] at hout
      simp [scanLoop, hres, hout.stopped rfl]

/-- **Where the batches are cut does not matter.**  With a turn for each entry and one more, the
scan returns, and the processor was handed the merge of the two sources up to its stop. -/
lemma scan_eq (hleft : Ascending left) (hright : Ascending right)
    (hnextl : ∀ start, ∀ e ∈ left start, next e.1 = e.1 + 1)
    (hnextr : ∀ start, ∀ e ∈ right start, next e.1 = e.1 + 1) {fuel start : ℕ}
    (hfuel : (left start).length + (right start).length < fuel) :
    scan fuel size next left right stop start =
      some (upTo stop [] ((left start).merge (right start) byKey)) := by
  have hfl := remaining_fill hsize hleft start
  have hfr := remaining_fill hsize hright start
  rw [scan, scanLoop_eq hsize hleft hright hnextl hnextr (by simpa [State.todo, hfl, hfr])
    (ready_fill hsize left start) (ready_fill hsize right start)
    (steady_fill hsize (hnextl start)) (steady_fill hsize (hnextr start))]
  simp [State.outcome, State.merged, hfl, hfr]

end Loop

end Sources

/-- The first entry is handed out before any buffer is refilled. -/
lemma scan_of_stop_at_head {left right : ℕ → List (ℕ × V)} (fuel : ℕ)
    {size start : ℕ} (hsize : 0 < size) (next : ℕ → ℕ) {l : List (ℕ × V)}
    (hl : left start = e :: l) (hr : (right start).head?.all (byKey e) = true)
    (hstop : stop [e] = true) :
    scan (fuel + 1) size next left right stop start = some [e] := by
  obtain ⟨size, rfl⟩ := Nat.exists_eq_succ_of_ne_zero hsize.ne'
  rcases hright : right start with _ | ⟨b, r⟩
  · simp [scan, scanLoop, handOut, andThen, mergeWhile, finishLeft, Buffer.finished, drainLeft,
      State.takeLeft, fill, hl, hright, hstop]
  · have hle : e.1 ≤ b.1 := by simpa [hright, byKey] using hr
    simp [scan, scanLoop, handOut, andThen, mergeWhile, State.takeLeft, fill, hl, hright, hle,
      hstop]

/-! ## The merge, told by sides -/

/-- The source an entry is from. -/
inductive Side
  | left
  | right
deriving DecidableEq, Repr

/-- The order of a merge: by key, and on equal keys the left entry first. -/
def Precedes (a b : Side × ℕ × V) : Prop :=
  a.2.1 < b.2.1 ∨ a.2.1 = b.2.1 ∧ a.1 = .left ∧ b.1 = .right

/-- The two lists, each entry with its side, merged. -/
def mergeSides (l r : List (ℕ × V)) : List (Side × ℕ × V) :=
  (l.map (Prod.mk Side.left)).merge (r.map (Prod.mk Side.right)) (fun a b => byKey a.2 b.2)

lemma mem_mergeSides_left {l r : List (ℕ × V)} :
    (Side.left, e) ∈ mergeSides l r ↔ e ∈ l := by
  simp [mergeSides, mem_merge]

lemma mem_mergeSides_right {l r : List (ℕ × V)} :
    (Side.right, e) ∈ mergeSides l r ↔ e ∈ r := by
  simp [mergeSides, mem_merge]

/-- Without the sides it is the merge that a scan hands out. -/
lemma map_snd_mergeSides (l r : List (ℕ × V)) :
    (mergeSides l r).map Prod.snd = l.merge r byKey := by
  rw [mergeSides, map_merge (s := byKey) (fun _ _ _ _ => rfl)]
  simp [Function.comp_def]

lemma mergeSides_cons (a b : ℕ × V) (l r : List (ℕ × V)) :
    mergeSides (a :: l) (b :: r) =
      if a.1 ≤ b.1 then (.left, a) :: mergeSides l (b :: r)
      else (.right, b) :: mergeSides (a :: l) r := by
  simp [mergeSides, cons_merge_cons, byKey]

/-- **The merge is sorted, and strictly so if the side counts.** -/
lemma pairwise_mergeSides {l r : List (ℕ × V)} (hl : l.Pairwise (fun a b => a.1 < b.1))
    (hr : r.Pairwise (fun a b => a.1 < b.1)) : (mergeSides l r).Pairwise Precedes := by
  induction l generalizing r with
  | nil =>
    simp only [mergeSides, map_nil, nil_merge, pairwise_map]
    exact hr.imp (fun h => Or.inl h)
  | cons a l ihl =>
    induction r with
    | nil =>
      simp only [mergeSides, map_nil, merge_right, pairwise_map]
      exact hl.imp (fun h => Or.inl h)
    | cons b r ihr =>
      obtain ⟨ha, hl'⟩ := pairwise_cons.1 hl
      obtain ⟨hb, hr'⟩ := pairwise_cons.1 hr
      rw [mergeSides_cons]
      split_ifs with hab
      · refine pairwise_cons.2 ⟨?_, ihl hl' hr⟩
        rintro ⟨side, e⟩ he
        cases side with
        | left => exact Or.inl (ha e (mem_mergeSides_left.1 he))
        | right =>
          rcases mem_cons.1 (mem_mergeSides_right.1 he) with rfl | he
          · rcases Nat.lt_or_eq_of_le hab with hlt | heq
            · exact Or.inl hlt
            · exact Or.inr ⟨heq, rfl, rfl⟩
          · exact Or.inl (lt_of_le_of_lt hab (hb e he))
      · refine pairwise_cons.2 ⟨?_, ihr hr'⟩
        rintro ⟨side, e⟩ he
        cases side with
        | left =>
          rcases mem_cons.1 (mem_mergeSides_left.1 he) with rfl | he
          · exact Or.inl (not_le.1 hab)
          · exact Or.inl ((not_le.1 hab).trans (ha e he))
        | right => exact Or.inl (hb e (mem_mergeSides_right.1 he))

/-! ## Entries that are shadowed -/

/-- The entries of the right source that no entry of the left one shadows. -/
def unshadowed (l r : List (ℕ × V)) : List (ℕ × V) :=
  r.filter (fun e => e.1 ∉ l.map Prod.fst)

/-- The merge in which each key occurs once, with the entry of the left source if it has one. -/
def overlay (l r : List (ℕ × V)) : List (ℕ × V) := l.merge (unshadowed l r) byKey

lemma mem_overlay {l r : List (ℕ × V)} :
    e ∈ overlay l r ↔ e ∈ l ∨ e ∈ r ∧ e.1 ∉ l.map Prod.fst := by
  simp [overlay, unshadowed, mem_merge]

/-- The overlay of two ascending lists is ascending. -/
lemma pairwise_overlay {l r : List (ℕ × V)} (hl : l.Pairwise (fun a b => a.1 < b.1))
    (hr : r.Pairwise (fun a b => a.1 < b.1)) :
    (overlay l r).Pairwise (fun a b => a.1 < b.1) := by
  have hr' : (unshadowed l r).Pairwise (fun a b => a.1 < b.1) := hr.filter _
  have hle : (overlay l r).Pairwise (fun a b => byKey a b = true) := by
    refine pairwise_merge ?_ ?_ l (unshadowed l r) (hl.imp ?_) (hr'.imp ?_)
    · intro a b c
      simp only [byKey, decide_eq_true_eq]
      omega
    · intro a b
      simp only [byKey, Bool.or_eq_true, decide_eq_true_eq]
      omega
    · intro a b hab
      simpa [byKey] using hab.le
    · intro a b hab
      simpa [byKey] using hab.le
  have hne : (overlay l r).Pairwise (fun a b => a.1 ≠ b.1) := by
    refine ((merge_perm_append byKey).pairwise_iff (fun h => h.symm)).2 ?_
    refine pairwise_append.2 ⟨hl.imp (fun h => h.ne), hr'.imp (fun h => h.ne), ?_⟩
    rintro a ha b hb hab
    have hnot : b.1 ∉ l.map Prod.fst := by simpa using (mem_filter.1 hb).2
    exact hnot (hab ▸ mem_map_of_mem ha)
  refine (hle.and hne).imp (fun ⟨hab, hab'⟩ => ?_)
  simp only [byKey, decide_eq_true_eq] at hab
  omega

/-- An ascending list is determined by its entries. -/
lemma eq_of_ascending {l l' : List (ℕ × V)} (hl : l.Pairwise (fun a b => a.1 < b.1))
    (hl' : l'.Pairwise (fun a b => a.1 < b.1)) (h : ∀ e, e ∈ l ↔ e ∈ l') : l = l' := by
  have : Std.Irrefl (fun a b : ℕ × V => a.1 < b.1) := ⟨fun a => lt_irrefl a.1⟩
  have : Std.Antisymm (fun a b : ℕ × V => a.1 < b.1) :=
    ⟨fun a b hab hba => absurd (hab.trans hba) (lt_irrefl a.1)⟩
  exact hl.eq_of_mem_iff hl' h

lemma prefix_upTo (stop : Processor V) (history l : List (ℕ × V)) :
    history <+: upTo stop history l := by
  induction l generalizing history with
  | nil => exact prefix_rfl
  | cons e l ih =>
    rw [upTo]
    split_ifs
    · exact prefix_append _ _
    · exact (prefix_append _ _).trans (ih _)

lemma prefix_upTo_cons (stop : Processor V) (history l : List (ℕ × V)) (e : ℕ × V) :
    history ++ [e] <+: upTo stop history (e :: l) := by
  rw [upTo]
  split_ifs
  · exact prefix_rfl
  · exact prefix_upTo stop _ l

/-- The processor stops, on its way through a list, at a key no larger than `x`. -/
def StopsBy (stop : Processor V) (history l : List (ℕ × V)) (x : ℕ) : Prop :=
  ∃ p, p ≠ [] ∧ p <+: l ∧ (∀ e ∈ p, e.1 ≤ x) ∧ stop (history ++ p) = true

lemma stopsBy_cons_of_stop {history l : List (ℕ × V)} {x : ℕ}
    (hstop : stop (history ++ [e]) = true) (hle : e.1 ≤ x) : StopsBy stop history (e :: l) x :=
  ⟨[e], by simp, by simp, by simpa using hle, hstop⟩

lemma stopsBy_cons_iff {history l : List (ℕ × V)} {x : ℕ}
    (hstop : stop (history ++ [e]) = false) (hle : e.1 ≤ x) :
    StopsBy stop history (e :: l) x ↔ StopsBy stop (history ++ [e]) l x := by
  constructor
  · rintro ⟨p, hne, hpre, hkeys, hp⟩
    obtain ⟨e', p, rfl⟩ := exists_cons_of_ne_nil hne
    obtain ⟨rfl, hrest⟩ := cons_prefix_cons.1 hpre
    refine ⟨p, ?_, hrest, fun e he => hkeys e (by simp [he]), by simpa using hp⟩
    rintro rfl
    simp [hstop] at hp
  · rintro ⟨p, -, hpre, hkeys, hp⟩
    refine ⟨e :: p, by simp, cons_prefix_cons.2 ⟨rfl, hpre⟩, ?_, by simpa using hp⟩
    intro e' he'
    rcases mem_cons.1 he' with rfl | he'
    · exact hle
    · exact hkeys e' he'

section Overlay

variable {l r : List (ℕ × V)} {a b : ℕ × V}

lemma unshadowed_cons_left (h : a.1 ∉ r.map Prod.fst) : unshadowed (a :: l) r = unshadowed l r := by
  refine filter_congr (fun e he => ?_)
  have hne : e.1 ≠ a.1 := fun heq => h (heq ▸ mem_map_of_mem he)
  simp [hne]

/-- The head of the left list comes first if nothing on the right is smaller. -/
lemma overlay_cons_left (h : ∀ e ∈ r, a.1 < e.1) : overlay (a :: l) r = a :: overlay l r := by
  have hnot : a.1 ∉ r.map Prod.fst := by
    intro hmem
    obtain ⟨e, he, heq⟩ := mem_map.1 hmem
    have := h e he
    omega
  rw [overlay, unshadowed_cons_left hnot]
  refine merge_cons_left ?_
  rcases hr : unshadowed l r with _ | ⟨b, r'⟩
  · rfl
  · have hb : b ∈ unshadowed l r := by simp [hr]
    simpa [byKey] using (h b (mem_filter.1 hb).1).le

/-- A shadowed head of the right list is left out. -/
lemma overlay_cons_shadowed (h : b.1 ∈ l.map Prod.fst) : overlay l (b :: r) = overlay l r := by
  have hdrop : unshadowed l (b :: r) = unshadowed l r := filter_cons_of_neg (by simpa using h)
  rw [overlay, hdrop, overlay]

/-- The head of the right list comes first if everything on the left is larger. -/
lemma overlay_cons_right (h : ∀ e ∈ l, b.1 < e.1) : overlay l (b :: r) = b :: overlay l r := by
  have hkeep : unshadowed l (b :: r) = b :: unshadowed l r := by
    refine filter_cons_of_pos ?_
    simp only [decide_eq_true_eq]
    intro hmem
    obtain ⟨e, he, heq⟩ := mem_map.1 hmem
    have := h e he
    omega
  rw [overlay, hkeep]
  refine merge_cons_right ?_
  rcases l with _ | ⟨a, l⟩
  · rfl
  · simpa [byKey] using h a (by simp)

end Overlay

/-- Both lists hold the key. -/
def Shared (l r : List (ℕ × V)) (x : ℕ) : Prop := x ∈ l.map Prod.fst ∧ x ∈ r.map Prod.fst

/-- Two lists with the same head: what is handed out agrees if it agrees behind the head, or if
the processor stops there. -/
lemma upTo_cons_eq_iff {history m o : List (ℕ × V)} {P : ℕ → Prop} (hP : ∀ x, P x → e.1 ≤ x)
    (h : upTo stop (history ++ [e]) m = upTo stop (history ++ [e]) o ↔
      ∀ x, P x → StopsBy stop (history ++ [e]) o x) :
    upTo stop history (e :: m) = upTo stop history (e :: o) ↔
      ∀ x, P x → StopsBy stop history (e :: o) x := by
  cases hstop : stop (history ++ [e])
  · simp only [upTo, hstop, Bool.false_eq_true, if_false, h]
    exact forall₂_congr (fun x hx => (stopsBy_cons_iff hstop (hP x hx)).symm)
  · simp only [upTo, hstop, if_true, true_iff]
    exact fun x hx => stopsBy_cons_of_stop hstop (hP x hx)

/-- An entry that the overlay leaves out is noticed, unless the processor has stopped. -/
lemma upTo_shadowed_ne {history m o : List (ℕ × V)} {b : ℕ × V}
    (ho : ∀ e ∈ o, b.1 < e.1) : upTo stop history (b :: m) ≠ upTo stop history o := by
  intro heq
  have hpre := prefix_upTo_cons stop history m b
  rw [heq] at hpre
  rcases o with _ | ⟨e, o⟩
  · have hlen := hpre.length_le
    simp [upTo] at hlen
  have hprefix : history ++ [b] <+: history ++ [e] :=
    prefix_of_prefix_length_le hpre (prefix_upTo_cons stop history o e) (by simp)
  have hsame : history ++ [b] = history ++ [e] := hprefix.eq_of_length (by simp)
  obtain rfl : b = e := by simpa using hsame
  exact (ho b (by simp)).ne rfl

/-- **When a scan of the plain merge is one of the overlay**: exactly if the processor stops no
later than at the first key that both lists hold.  The induction follows the merge. -/
lemma upTo_merge_eq_iff (stop : Processor V) {l r : List (ℕ × V)}
    (hl : l.Pairwise (fun a b => a.1 < b.1)) (hr : r.Pairwise (fun a b => a.1 < b.1))
    (history : List (ℕ × V)) :
    upTo stop history (l.merge r byKey) = upTo stop history (overlay l r) ↔
      ∀ x, Shared l r x → StopsBy stop history (overlay l r) x := by
  induction l generalizing history r with
  | nil =>
    have hall : unshadowed [] r = r := filter_eq_self.2 (by simp)
    simp [overlay, hall, Shared]
  | cons a l ihl =>
    obtain ⟨hal, hl'⟩ := pairwise_cons.1 hl
    induction r generalizing history with
    | nil => simp [overlay, unshadowed, Shared]
    | cons b r ihr =>
      obtain ⟨hbr, hr'⟩ := pairwise_cons.1 hr
      rcases lt_trichotomy a.1 b.1 with hlt | heq | hgt
      · -- the left head comes first; it is not shared
        have hafter : ∀ e ∈ b :: r, a.1 < e.1 := by
          intro e he
          rcases mem_cons.1 he with rfl | he
          · exact hlt
          · exact hlt.trans (hbr e he)
        have hshared : ∀ x, Shared (a :: l) (b :: r) x ↔ Shared l (b :: r) x := by
          refine fun x => ⟨fun ⟨hx, hx'⟩ => ⟨?_, hx'⟩, fun ⟨hx, hx'⟩ => ⟨by simp [hx], hx'⟩⟩
          obtain ⟨e, he, rfl⟩ := mem_map.1 hx'
          have := hafter e he
          exact (mem_cons.1 hx).resolve_left (by omega)
        rw [merge_cons_left (by simpa [byKey] using hlt.le), overlay_cons_left hafter]
        simp only [hshared]
        refine upTo_cons_eq_iff (fun x hx => ?_) (ihl hl' hr _)
        obtain ⟨e, he, rfl⟩ := mem_map.1 hx.1
        exact (hal e he).le
      · -- a shared key: the merge goes on with its right entry, the overlay does not
        have hgt : ∀ e ∈ l, b.1 < e.1 := fun e he => heq ▸ hal e he
        have hgt' : ∀ e ∈ overlay l r, b.1 < e.1 := by
          intro e he
          rcases mem_overlay.1 he with he | ⟨he, -⟩
          · exact hgt e he
          · exact hbr e he
        have hover : overlay (a :: l) (b :: r) = a :: overlay l r := by
          rw [overlay_cons_shadowed (by simp [heq]), overlay_cons_left]
          exact fun e he => heq ▸ hbr e he
        have hmerge : (a :: l).merge (b :: r) byKey = a :: b :: l.merge r byKey := by
          rw [merge_cons_left (by simp [byKey, heq]), merge_cons_right]
          rcases l with _ | ⟨a', l⟩
          · rfl
          · simpa [byKey] using hgt a' (by simp)
        rw [hover, hmerge]
        refine upTo_cons_eq_iff (fun x hx => ?_) ?_
        · rcases mem_cons.1 hx.1 with rfl | hx
          · exact le_rfl
          · obtain ⟨e, he, rfl⟩ := mem_map.1 hx
            exact (hal e he).le
        · refine iff_of_false (upTo_shadowed_ne hgt') (fun h => ?_)
          obtain ⟨p, hne, hpre, hkeys, -⟩ := h a.1 ⟨by simp, by simp [heq]⟩
          obtain ⟨e, p, rfl⟩ := exists_cons_of_ne_nil hne
          have hmem : e ∈ overlay l r := hpre.subset (by simp)
          have hlt := hgt' e hmem
          have hle := hkeys e (by simp)
          omega
      · -- the right head comes first; it is not shared
        have hafter : ∀ e ∈ a :: l, b.1 < e.1 := by
          intro e he
          rcases mem_cons.1 he with rfl | he
          · exact hgt
          · exact hgt.trans (hal e he)
        have hshared : ∀ x, Shared (a :: l) (b :: r) x ↔ Shared (a :: l) r x := by
          refine fun x => ⟨fun ⟨hx, hx'⟩ => ⟨hx, ?_⟩, fun ⟨hx, hx'⟩ => ⟨hx, by simp [hx']⟩⟩
          obtain ⟨e, he, rfl⟩ := mem_map.1 hx
          have := hafter e he
          exact (mem_cons.1 hx').resolve_left (by omega)
        rw [merge_cons_right (by simpa [byKey] using hgt), overlay_cons_right hafter]
        simp only [hshared]
        refine upTo_cons_eq_iff (fun x hx => ?_) (ihr hr' _)
        obtain ⟨e, he, rfl⟩ := mem_map.1 hx.1
        exact (hafter e he).le

end TwoTree.Lib.BufferedMerge
