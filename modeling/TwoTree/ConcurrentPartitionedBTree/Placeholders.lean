import TwoTree.ConcurrentPartitionedBTree.Adapter

/-!
# Records in flight

What the threads do to a key is a state machine of its own.  `Role` is the part a thread plays for a
key, and `Phase` lists the states of the machine: the record is at rest in the cold or in the hot
tree, or one thread has it in flight, as a placeholder, as a victim, or as a victim that is in the
cold tree already.  There is one more state, and one that follows from it.  A lookup that has filled
its placeholder has given up the record before it removes the cold copy (`Phase.draining`), and an
evictor may pick the record in the meantime (`Phase.victimDraining`).

Every step of a thread moves the key it works on to another state of the machine and leaves the
other keys where they are, with one exception: if an evictor inserts a victim into the cold tree
while the old copy is still there, the insertion is refused, and both copies are then removed.  In
every run without such an insertion a key that has been inserted is in one of the trees whenever no
call is under way, with the value last written (`records_kept`).  `record_drained` is a run with
such an insertion.
-/

namespace TwoTree.ConcurrentPartitionedBTree

open Std Lib Lib.OrderedMap ConcurrentTwoBTree Function

variable {V : Type*}

/-! ## The states of a key -/

/-- The part a thread plays for a key. -/
inductive Role (V : Type*)
  | free
  /-- A lookup has installed the placeholder. -/
  | reading
  /-- A lookup is about to fill the placeholder with the value it found. -/
  | filling (v : V)
  /-- A lookup is about to remove the cold copy. -/
  | draining
  /-- An evictor has picked the record and copied its payload. -/
  | victim (v : V)
  /-- An evictor is about to remove the record, which is in the cold tree. -/
  | moved

/-- Only thread `t` plays a part. -/
def only (t : ℕ) (r : Role V) : ℕ → Role V := update (fun _ => .free) t r

/-- The states of a key: its records in the two trees, the value last written, and the parts of the
threads. -/
inductive Phase : Option (TaggedPayload V) → Option V → Option V → (ℕ → Role V) → Prop
  | cold (c : Option V) : Phase none c c (fun _ => .free)
  | hot (tp : TaggedPayload V) : tp.inflight = false →
      Phase (some tp) none (some tp.payload) (fun _ => .free)
  | reading (t : ℕ) (tp : TaggedPayload V) (c : Option V) : tp.inflight = true →
      Phase (some tp) c c (only t .reading)
  | filling (t : ℕ) (tp : TaggedPayload V) (v : V) : tp.inflight = true →
      Phase (some tp) (some v) (some v) (only t (.filling v))
  | draining (t : ℕ) (tp : TaggedPayload V) (c : V) : tp.inflight = false →
      Phase (some tp) (some c) (some tp.payload) (only t .draining)
  | victim (t : ℕ) (tp : TaggedPayload V) (v : V) : tp.inflight = true →
      Phase (some tp) none (some v) (only t (.victim v))
  | victimDraining (t t' : ℕ) (tp : TaggedPayload V) (c v : V) : t ≠ t' → tp.inflight = true →
      Phase (some tp) (some c) (some v) (update (only t (.victim v)) t' .draining)
  | moved (t : ℕ) (tp : TaggedPayload V) (v : V) : tp.inflight = true →
      Phase (some tp) (some v) (some v) (only t .moved)

section Roles

variable {t t' : ℕ} {r r' : Role V}

lemma only_self (t : ℕ) (r : Role V) : only t r t = r := update_self _ _ _

lemma update_only (t : ℕ) (r r' : Role V) : update (only t r) t r' = only t r' :=
  update_idem _ _ _

lemma only_free (t : ℕ) : only t (.free : Role V) = fun _ => .free := update_eq_self _ _

/-- Besides the thread that plays a part, all are free. -/
lemma only_eq (t t' : ℕ) (r : Role V) : only t r t' = if t' = t then r else .free :=
  update_apply _ _ _ _

end Roles

/-- What a thread that plays a part knows of the key. -/
def Part (hot : Option (TaggedPayload V)) (cold m : Option V) (roles : ℕ → Role V) (t : ℕ) :
    Role V → Prop
  | .free => True
  | .reading => roles = only t .reading ∧ cold = m ∧ ∃ tp, hot = some tp ∧ tp.inflight = true
  | .filling v => roles = only t (.filling v) ∧ cold = some v ∧ m = some v ∧
      ∃ tp, hot = some tp ∧ tp.inflight = true
  | .draining => ∃ tp c, hot = some tp ∧ cold = some c ∧
      ((roles = only t .draining ∧ tp.inflight = false ∧ m = some tp.payload) ∨
        ∃ t' v, t' ≠ t ∧ roles = update (only t' (.victim v)) t .draining ∧
          tp.inflight = true ∧ m = some v)
  | .victim v => m = some v ∧ ∃ tp, hot = some tp ∧ tp.inflight = true ∧
      ((roles = only t (.victim v) ∧ cold = none) ∨
        ∃ t' c, t ≠ t' ∧ roles = update (only t (.victim v)) t' .draining ∧
          cold = some c)
  | .moved => roles = only t .moved ∧ cold = m ∧ (∃ v, m = some v) ∧
      ∃ tp, hot = some tp ∧ tp.inflight = true

namespace Phase

variable {hot : Option (TaggedPayload V)} {cold m : Option V} {roles : ℕ → Role V} {t : ℕ}
  {tp : TaggedPayload V} {v : V} {victims : List (ℕ × TaggedPayload V)}

/-- **What a thread knows of a key follows from the part it plays.** -/
lemma part (h : Phase hot cold m roles) (t : ℕ) : Part hot cold m roles t (roles t) := by
  -- a thread other than those a state names is free
  have hother : ∀ {t' r}, t ≠ t' → Part hot cold m roles t (only t' r t) := by
    intro t' r hne
    rw [only_eq, if_neg hne]
    trivial
  cases h with
  | cold => trivial
  | hot => trivial
  | reading t' tp c hin =>
    rcases eq_or_ne t t' with rfl | hne
    · rw [only_self]
      exact ⟨rfl, rfl, tp, rfl, hin⟩
    · exact hother hne
  | filling t' tp v hin =>
    rcases eq_or_ne t t' with rfl | hne
    · rw [only_self]
      exact ⟨rfl, rfl, rfl, tp, rfl, hin⟩
    · exact hother hne
  | draining t' tp c hin =>
    rcases eq_or_ne t t' with rfl | hne
    · rw [only_self]
      exact ⟨tp, c, rfl, rfl, Or.inl ⟨rfl, hin, rfl⟩⟩
    · exact hother hne
  | victim t' tp v hin =>
    rcases eq_or_ne t t' with rfl | hne
    · rw [only_self]
      exact ⟨rfl, tp, rfl, hin, Or.inl ⟨rfl, rfl⟩⟩
    · exact hother hne
  | victimDraining t₁ t₂ tp c v h₁₂ hin =>
    rcases eq_or_ne t t₂ with rfl | hne
    · rw [update_self]
      exact ⟨tp, c, rfl, rfl, Or.inr ⟨t₁, v, h₁₂, rfl, hin, rfl⟩⟩
    rw [update_of_ne hne]
    rcases eq_or_ne t t₁ with rfl | hne'
    · rw [only_self]
      exact ⟨rfl, tp, rfl, hin, Or.inr ⟨t₂, c, h₁₂, rfl, rfl⟩⟩
    · exact hother hne'
  | moved t' tp v hin =>
    rcases eq_or_ne t t' with rfl | hne
    · rw [only_self]
      exact ⟨rfl, rfl, ⟨v, rfl⟩, tp, rfl, hin⟩
    · exact hother hne

/-! ## The moves of a key -/

/-- The bookkeeping bits of a record are nobody's concern. -/
lemma touch (h : Phase (some tp) cold m roles) (tp' : TaggedPayload V)
    (hpayload : tp'.payload = tp.payload) (hinflight : tp'.inflight = tp.inflight) :
    Phase (some tp') cold m roles := by
  cases h with
  | hot _ hin => exact hpayload ▸ .hot tp' (hinflight.trans hin)
  | reading t _ _ hin => exact .reading t tp' _ (hinflight.trans hin)
  | filling t _ v hin => exact .filling t tp' v (hinflight.trans hin)
  | draining t _ c hin => exact hpayload ▸ .draining t tp' c (hinflight.trans hin)
  | victim t _ v hin => exact .victim t tp' v (hinflight.trans hin)
  | victimDraining t t' _ c v hne hin =>
    exact .victimDraining t t' tp' c v hne (hinflight.trans hin)
  | moved t _ v hin => exact .moved t tp' v (hinflight.trans hin)

/-- A record of the hot tree that is not in flight is at rest there, or a lookup is about to remove
its cold copy. -/
lemma of_not_inflight (h : Phase (some tp) cold m roles) (hin : tp.inflight = false) :
    m = some tp.payload ∧ ((cold = none ∧ roles = fun _ => .free) ∨
      ∃ t c, cold = some c ∧ roles = only t .draining) := by
  cases h with
  | hot => exact ⟨rfl, Or.inl ⟨rfl, rfl⟩⟩
  | draining t _ c => exact ⟨rfl, Or.inr ⟨t, c, rfl, rfl⟩⟩
  | reading _ _ _ htrue | filling _ _ _ htrue | victim _ _ _ htrue
  | victimDraining _ _ _ _ _ _ htrue | moved _ _ _ htrue => simp [hin] at htrue

/-- The value of a record that is not in flight is overwritten. -/
lemma write (h : Phase (some tp) cold m roles) (hin : tp.inflight = false)
    (tp' : TaggedPayload V) (hin' : tp'.inflight = false) :
    Phase (some tp') cold (some tp'.payload) roles := by
  obtain ⟨-, ⟨rfl, rfl⟩ | ⟨t, c, rfl, rfl⟩⟩ := h.of_not_inflight hin
  · exact .hot tp' hin'
  · exact .draining t tp' c hin'

lemma insert (h : Phase none none m roles) (tp : TaggedPayload V) (hin : tp.inflight = false) :
    Phase (some tp) none (some tp.payload) roles := by
  cases h with
  | cold => exact .hot tp hin

lemma install (h : Phase none cold m roles) (t : ℕ) (tp : TaggedPayload V)
    (hin : tp.inflight = true) :
    Phase (some tp) cold m (update roles t .reading) := by
  cases h with
  | cold => exact .reading t tp _ hin

/-- The lookup that holds the placeholder finds the value last written. -/
lemma find (h : Phase hot (some v) m roles) (ht : roles t = .reading) :
    Phase hot (some v) m (update roles t (.filling v)) := by
  have hpart := h.part t
  rw [ht] at hpart
  obtain ⟨rfl, rfl, tp, rfl, hin⟩ := hpart
  rw [update_only]
  exact .filling t tp v hin

lemma uninstall (h : Phase hot cold m roles) (ht : roles t = .reading) :
    Phase none cold m (update roles t .free) := by
  have hpart := h.part t
  rw [ht] at hpart
  obtain ⟨rfl, rfl, -⟩ := hpart
  rw [update_only, only_free]
  exact .cold cold

/-- It fills the placeholder, and gives the record up. -/
lemma fill (h : Phase hot cold m roles) (ht : roles t = .filling v) (tp' : TaggedPayload V)
    (hpayload : tp'.payload = v) (hin' : tp'.inflight = false) :
    Phase (some tp') cold m (update roles t .draining) := by
  have hpart := h.part t
  rw [ht] at hpart
  obtain ⟨rfl, rfl, rfl, -⟩ := hpart
  rw [update_only, ← hpayload]
  exact .draining t tp' _ hin'

/-- It removes the cold copy. -/
lemma drain (h : Phase hot cold m roles) (ht : roles t = .draining) :
    Phase hot none m (update roles t .free) := by
  have hpart := h.part t
  rw [ht] at hpart
  obtain ⟨tp, c, rfl, rfl, ⟨rfl, hin, rfl⟩ | ⟨t', v, hne, rfl, hin, rfl⟩⟩ := hpart
  · rw [update_only, only_free]
    exact .hot tp hin
  · have hfree : only t' (.victim v) t = .free := by rw [only_eq, if_neg hne.symm]
    rw [update_idem, ← hfree, update_eq_self]
    exact .victim t' tp v hin

lemma pick (h : Phase (some tp) cold m roles) (ht : roles t = .free) (hin : tp.inflight = false)
    (tp' : TaggedPayload V) (hin' : tp'.inflight = true) :
    Phase (some tp') cold m (update roles t (.victim tp.payload)) := by
  obtain ⟨rfl, ⟨rfl, rfl⟩ | ⟨t', c, rfl, rfl⟩⟩ := h.of_not_inflight hin
  · exact .victim t tp' tp.payload hin'
  have hne : t ≠ t' := by
    rintro rfl
    rw [only_self] at ht
    cases ht
  rw [only, update_comm hne.symm]
  exact .victimDraining t t' tp' c tp.payload hne hin'

/-- It inserts the record into the cold tree. -/
lemma moveDown (h : Phase hot none m roles) (ht : roles t = .victim v) :
    Phase hot (some v) m (update roles t .moved) := by
  have hpart := h.part t
  rw [ht] at hpart
  obtain ⟨rfl, tp, rfl, hin, ⟨rfl, -⟩ | ⟨t', c, -, -, hc⟩⟩ := hpart
  · rw [update_only]
    exact .moved t tp v hin
  · cases hc

variable (h : Phase hot cold m roles)
include h

/-- It removes the record from the hot tree. -/
lemma leave (ht : roles t = .moved) : Phase none cold m (update roles t .free) := by
  have hpart := h.part t
  rw [ht] at hpart
  obtain ⟨rfl, rfl, -⟩ := hpart
  rw [update_only, only_free]
  exact .cold cold

lemma stay {r : Role V} (hr : r = roles t) : Phase hot cold m (update roles t r) := by
  rwa [hr, update_eq_self]

/-- If no thread plays a part, the record is at rest. -/
lemma at_rest (hfree : ∀ t, roles t = .free) :
    (∃ tp, hot = some tp ∧ tp.inflight = false ∧ m = some tp.payload ∧ cold = none) ∨
      (hot = none ∧ cold = m) := by
  have hbusy : ∀ {t r}, roles t = r → r ≠ .free → False := fun ht hr => hr (ht ▸ hfree _)
  cases h with
  | cold => exact Or.inr ⟨rfl, rfl⟩
  | hot tp hin => exact Or.inl ⟨tp, rfl, hin, rfl, rfl⟩
  | reading | filling | draining | victim | moved =>
    exact (hbusy (only_self _ _) (by simp)).elim
  | victimDraining => exact (hbusy (update_self _ _ _) (by simp)).elim

end Phase

/-! ## The parts of a thread -/

/-- The part an evictor plays for the records it has picked. -/
def victimRole : List (ℕ × TaggedPayload V) → ℕ → Role V
  | [], _ => .free
  | (k', tp) :: victims, k => if k = k' then .victim tp.payload else victimRole victims k

namespace Pc

/-- The part a thread plays for a key. -/
@[simp]
def role : Pc V → ℕ → Role V
  | .coldLookup _ k', k | .removingPlaceholder _ k', k => if k = k' then .reading else .free
  | .filling _ k' v, k => if k = k' then .filling v else .free
  | .removingCold _ k', k => if k = k' then .draining else .free
  | .scanning _ _ _ victims, k | .scanned _ _ victims, k | .evicting _ victims, k =>
    victimRole victims k
  | .insertingCold _ k' v victims, k => if k = k' then .victim v else victimRole victims k
  | .removingHot _ k' victims, k => if k = k' then .moved else victimRole victims k
  | _, _ => .free

/-- The keys of the records an evictor has picked. -/
def victimKeys : Pc V → List ℕ
  | .scanning _ _ _ victims | .scanned _ _ victims | .evicting _ victims => victims.map Prod.fst
  | .insertingCold _ k _ victims | .removingHot _ k victims => k :: victims.map Prod.fst
  | _ => []

end Pc

lemma victimRole_of_notMem {k : ℕ}
    (h : k ∉ victims.map Prod.fst) : victimRole victims k = .free := by
  induction victims with
  | nil => rfl
  | cons e victims ih =>
    simp only [List.map_cons, List.mem_cons, not_or] at h
    rw [victimRole, if_neg h.1]
    exact ih h.2

lemma victimRole_append (victims : List (ℕ × TaggedPayload V)) (k' : ℕ) (tp : TaggedPayload V)
    {k : ℕ} : victimRole (victims ++ [(k', tp)]) k =
      if k ∈ victims.map Prod.fst then victimRole victims k
      else if k = k' then .victim tp.payload else .free := by
  induction victims with
  | nil => simp [victimRole]
  | cons e victims ih =>
    by_cases hk : k = e.1
    · simp [victimRole, hk]
    · have hmem : k ∈ (e :: victims).map Prod.fst ↔ k ∈ victims.map Prod.fst := by
        rw [List.map_cons, List.mem_cons, or_iff_right hk]
      rw [List.cons_append, victimRole, if_neg hk, ih, victimRole, if_neg hk]
      exact if_congr hmem.symm rfl rfl

lemma mem_of_victimRole {k : ℕ}
    (h : k ∈ victims.map Prod.fst) : ∃ v, victimRole victims k = .victim v := by
  induction victims with
  | nil => simp at h
  | cons e victims ih =>
    by_cases hk : k = e.1
    · exact ⟨e.2.payload, by simp [victimRole, hk]⟩
    · simp only [List.map_cons, List.mem_cons, hk, false_or] at h
      obtain ⟨v, hv⟩ := ih h
      exact ⟨v, by rw [victimRole, if_neg hk, hv]⟩

/-! ## One step -/

/-- The state of a key in an adapter. -/
def Adapter.PhaseAt (a : Adapter V) (m : ℕ → Option V) (k : ℕ) (roles : ℕ → Role V) : Prop :=
  Phase a.hotBtree[k]? (a.coldBtree[k]?.map TaggedPayload.payload) (m k) roles

/-- What a step does: every key moves to another of its states, the victims stay distinct, and a
lookup returns the value last written. -/
structure StepSpec (a : Adapter V) (pc : Pc V) (a' : Adapter V) (pc' : Pc V)
    (event : Option (Event V)) : Prop where
  phase : ∀ (m : ℕ → Option V) (t k : ℕ) (roles : ℕ → Role V), roles t = pc.role k →
    a.PhaseAt m k roles →
    a'.PhaseAt (completed m event.toList) k (update roles t (pc'.role k))
  explained : ∀ (m : ℕ → Option V) (t : ℕ) (roles : ℕ → ℕ → Role V),
    (∀ k, roles k t = pc.role k) → (∀ k, a.PhaseAt m k (roles k)) → Explained m event.toList

namespace StepSpec

variable {a a' : Adapter V} {pc pc' : Pc V} {event : Option (Event V)} {k : ℕ}

lemma still (hrole : ∀ k, pc'.role k = pc.role k) (hhot : a'.hotBtree = a.hotBtree)
    (hcold : a'.coldBtree = a.coldBtree) : StepSpec a pc a' pc' none where
  phase := fun m t k roles ht h => by
    rw [Adapter.PhaseAt, hhot, hcold]
    exact h.stay ((hrole k).trans ht.symm)
  explained := fun _ _ _ _ _ => trivial

/-- A step that works on one key. -/
lemma of_key (k : ℕ) (hrole : ∀ k', k' ≠ k → pc'.role k' = pc.role k')
    (hhot : ∀ k', k' ≠ k → a'.hotBtree[k']? = a.hotBtree[k']?)
    (hcold : ∀ k', k' ≠ k → a'.coldBtree[k']? = a.coldBtree[k']?)
    (hevent : ∀ m k', k' ≠ k → completed m event.toList k' = m k')
    (hphase : ∀ m t roles, roles t = pc.role k → a.PhaseAt m k roles →
      a'.PhaseAt (completed m event.toList) k (update roles t (pc'.role k)) ∧
        Explained m event.toList) : StepSpec a pc a' pc' event where
  phase := fun m t k' roles ht h => by
    rcases eq_or_ne k' k with rfl | hne
    · exact (hphase m t roles ht h).1
    · rw [Adapter.PhaseAt, hhot k' hne, hcold k' hne, hevent m k' hne]
      exact h.stay ((hrole k' hne).trans ht.symm)
  explained := fun m t roles ht h => (hphase m t (roles k) (ht k) (h k)).2

lemma of_key_silent (k : ℕ) (hrole : ∀ k', k' ≠ k → pc'.role k' = pc.role k')
    (hhot : ∀ k', k' ≠ k → a'.hotBtree[k']? = a.hotBtree[k']?)
    (hcold : ∀ k', k' ≠ k → a'.coldBtree[k']? = a.coldBtree[k']?)
    (hphase : ∀ m t roles, roles t = pc.role k → a.PhaseAt m k roles →
      a'.PhaseAt m k (update roles t (pc'.role k))) : StepSpec a pc a' pc' none :=
  of_key k hrole hhot hcold (fun _ _ _ => rfl)
    (fun m t roles ht h => ⟨hphase m t roles ht h, trivial⟩)

end StepSpec

lemma completed_returns (m : ℕ → Option V) (call : Call V) (k : ℕ) (res : Option V) :
    completed m (call.returns k res).toList = m := by
  cases call <;> rfl

lemma explained_returns {m : ℕ → Option V} {k : ℕ} {res : Option V} (h : res = m k)
    (call : Call V) : Explained m (call.returns k res).toList := by
  cases call <;> first | exact ⟨h, trivial⟩ | trivial

lemma completed_put_of_ne (m : ℕ → Option V) {k k' : ℕ} (h : k' ≠ k) (v : V) :
    completed m (some (Event.put k v)).toList k' = m k' := by
  simp [completed, Event.apply, h]

lemma completed_put_self (m : ℕ → Option V) (k : ℕ) (v : V) :
    completed m (some (Event.put k v)).toList k = some v := by
  simp [completed, Event.apply]

namespace Pc

variable {cfg : Config} {ch : Choices V} {a : Adapter V} {victims : List (ℕ × TaggedPayload V)}
  {call : Call V} {tp : TaggedPayload V} {k : ℕ}

lemma role_start (call : Call V) (k : ℕ) : call.start.role k = .free := by
  cases call <;> rfl

lemma role_proceed (call : Call V) (k : ℕ) : call.proceed.role k = .free := by
  cases call <;> rfl

/-! ### Insert and update -/

lemma stepSpec_inserting {v : V} (h : Admitted cfg a (.inserting k v)) :
    StepSpec a (.inserting k v)
      { a with hotBtree := a.hotBtree.insert k ⟨v, cfg.inclusive, false, false⟩ } .idle
      (some (.put k v)) := by
  obtain ⟨hhot, hcold⟩ := h
  refine .of_key k (fun _ _ => rfl) (fun k' hne => ?_) (fun _ _ => rfl)
    (fun m k' hne => completed_put_of_ne m hne v) (fun m t roles ht hphase => ⟨?_, trivial⟩)
  · simp [getElem?_insert, hne.symm]
  · rw [Adapter.PhaseAt, hhot, hcold] at hphase
    have hnew := hphase.insert ⟨v, cfg.inclusive, false, false⟩ rfl
    rw [Adapter.PhaseAt, completed_put_self, hcold]
    simpa using hnew.stay (r := .free) ht.symm

lemma stepSpec_updating {v : V} (hhot : a.hotBtree[k]? = some tp) (hin : tp.inflight = false) :
    StepSpec a (.updating k v)
      { a with hotBtree := a.hotBtree.insert k ⟨v, true, true, tp.inflight⟩ } .idle
      (some (.put k v)) := by
  refine .of_key k (fun _ _ => rfl) (fun k' hne => ?_) (fun _ _ => rfl)
    (fun m k' hne => completed_put_of_ne m hne v) (fun m t roles ht hphase => ⟨?_, trivial⟩)
  · simp [getElem?_insert, hne.symm]
  · rw [Adapter.PhaseAt, hhot] at hphase
    have hnew := hphase.write hin ⟨v, true, true, tp.inflight⟩ hin
    rw [Adapter.PhaseAt, completed_put_self]
    simpa using hnew.stay (r := .free) ht.symm

/-! ### Lookup -/

lemma stepSpec_lookupHot (hhot : a.hotBtree[k]? = some tp) (hin : tp.inflight = false) :
    StepSpec a (.lookupHot call k)
      { a with hotBtree := a.hotBtree.insert k { tp with referenced := true } } (.tryLoad call)
      (call.returns k (some tp.payload)) := by
  refine .of_key k (fun _ _ => rfl) (fun k' hne => ?_) (fun _ _ => rfl)
    (fun m k' _ => by rw [completed_returns]) (fun m t roles ht hphase => ?_)
  · simp [getElem?_insert, hne.symm]
  rw [Adapter.PhaseAt, hhot] at hphase
  have hnew := hphase.touch { tp with referenced := true } rfl rfl
  refine ⟨?_, explained_returns (hphase.of_not_inflight hin).1.symm call⟩
  rw [Adapter.PhaseAt, completed_returns]
  simpa using hnew.stay (r := .free) ht.symm

lemma stepSpec_installing (hhot : a.hotBtree[k]? = none) :
    StepSpec a (.installing call k)
      { a with hotBtree := a.hotBtree.insert k ⟨ch.emptyPayload, false, true, true⟩ }
      (.coldLookup call k) none := by
  refine .of_key_silent k (fun k' hne => by simp [hne]) (fun k' hne => ?_) (fun _ _ => rfl)
    (fun m t roles ht hphase => ?_)
  · simp [getElem?_insert, hne.symm]
  · rw [Adapter.PhaseAt, hhot] at hphase
    have hnew := hphase.install t ⟨ch.emptyPayload, false, true, true⟩ rfl
    rw [Adapter.PhaseAt]
    simpa using hnew

lemma stepSpec_coldLookup_found (hcold : a.coldBtree[k]? = some tp) :
    StepSpec a (.coldLookup call k) a (.filling call k tp.payload)
      (call.returns k (some tp.payload)) := by
  refine .of_key k (fun k' hne => by simp [hne]) (fun _ _ => rfl) (fun _ _ => rfl)
    (fun m k' _ => by rw [completed_returns]) (fun m t roles ht hphase => ?_)
  have hreading : roles t = .reading := by simpa using ht
  have hvalue : m k = some tp.payload := by
    have hpart := hphase.part t
    rw [hreading] at hpart
    rw [← hpart.2.1, hcold, Option.map_some]
  refine ⟨?_, explained_returns hvalue.symm call⟩
  rw [Adapter.PhaseAt, hcold] at hphase
  rw [Adapter.PhaseAt, completed_returns, hcold]
  simpa using hphase.find hreading

/-- A lookup that does not migrate the record, or has found none. -/
lemma stepSpec_coldLookup_kept (a : Adapter V) (call : Call V) (k : ℕ) :
    StepSpec a (.coldLookup call k) a (.removingPlaceholder call k)
      (call.returns k (a.coldBtree[k]?.map TaggedPayload.payload)) := by
  refine .of_key k (fun _ _ => rfl) (fun _ _ => rfl) (fun _ _ => rfl)
    (fun m k' _ => by rw [completed_returns]) (fun m t roles ht hphase => ?_)
  have hpart := hphase.part t
  rw [ht, role, if_pos rfl] at hpart
  refine ⟨?_, explained_returns hpart.2.1 call⟩
  rw [Adapter.PhaseAt, completed_returns]
  exact hphase.stay ht.symm

lemma stepSpec_filling {v : V} :
    StepSpec a (.filling call k v)
      { a with hotBtree := (updateInPlace a.hotBtree k (fun _ => ⟨v, false, true, false⟩)).2 }
      (.removingCold call k) none := by
  refine .of_key_silent k (fun k' hne => by simp [hne]) (fun k' hne => ?_) (fun _ _ => rfl)
    (fun m t roles ht hphase => ?_)
  · simp [getElem?_updateInPlace, hne.symm]
  have hfilling : roles t = .filling v := by simpa using ht
  have hpart := hphase.part t
  rw [hfilling] at hpart
  obtain ⟨-, -, -, tp, hhot, -⟩ := hpart
  have hnew := hphase.fill hfilling ⟨v, false, true, false⟩ rfl rfl
  rw [Adapter.PhaseAt]
  simpa [getElem?_updateInPlace, hhot] using hnew

lemma stepSpec_removingCold :
    StepSpec a (.removingCold call k) { a with coldBtree := (removeKey a.coldBtree k).2 }
      (.tryLoad call) none := by
  refine .of_key_silent k (fun k' hne => by simp [hne]) (fun _ _ => rfl) (fun k' hne => ?_)
    (fun m t roles ht hphase => ?_)
  · simp [getElem?_removeKey, hne.symm]
  · have hnew := hphase.drain (t := t) (by simpa using ht)
    rw [Adapter.PhaseAt]
    simpa [getElem?_removeKey] using hnew

lemma stepSpec_removingPlaceholder :
    StepSpec a (.removingPlaceholder call k) { a with hotBtree := (removeKey a.hotBtree k).2 }
      (.tryLoad call) none := by
  refine .of_key_silent k (fun k' hne => by simp [hne]) (fun k' hne => ?_) (fun _ _ => rfl)
    (fun m t roles ht hphase => ?_)
  · simp [getElem?_removeKey, hne.symm]
  · have hnew := hphase.uninstall (t := t) (by simpa using ht)
    rw [Adapter.PhaseAt]
    simpa [getElem?_removeKey] using hnew

/-! ### Evictions -/

/-- The record of a key that is not in flight is not among the victims of anybody. -/
lemma notMem_victims {m : ℕ → Option V} {t key : ℕ} {roles : ℕ → Role V}
    (ht : roles t = victimRole victims key)
    (hphase : a.PhaseAt m key roles) (hhot : a.hotBtree[key]? = some tp)
    (hin : tp.inflight = false) : key ∉ victims.map Prod.fst := by
  intro hmem
  obtain ⟨v, hv⟩ := mem_of_victimRole hmem
  have hpart := hphase.part t
  rw [ht, hv] at hpart
  obtain ⟨-, tp', htp', htrue, -⟩ := hpart
  obtain rfl : tp = tp' := Option.some.inj (hhot.symm.trans htp')
  simp [hin] at htrue

lemma mem_of_head {cursor key : ℕ}
    (h : (scanFrom a.hotBtree cursor).head? = some (key, tp)) : a.hotBtree[key]? = some tp :=
  (mem_scanFrom.1 (List.mem_of_head? h)).2

lemma stepSpec_unreferenced {key : ℕ} {pc pc' : Pc V}
    (hhot : a.hotBtree[key]? = some tp) (hrole : ∀ k, pc'.role k = pc.role k) :
    StepSpec a pc { a with hotBtree := a.hotBtree.insert key { tp with referenced := false } } pc'
      none := by
  refine .of_key_silent key (fun k' _ => hrole k') (fun k' hne => ?_) (fun _ _ => rfl)
    (fun m t roles ht hphase => ?_)
  · simp [getElem?_insert, hne.symm]
  · rw [Adapter.PhaseAt, hhot] at hphase
    have hnew := hphase.touch { tp with referenced := false } rfl rfl
    rw [Adapter.PhaseAt]
    simpa using hnew.stay ((hrole key).trans ht.symm)

lemma stepSpec_pick {key : ℕ}
    {pc pc' : Pc V} (hhot : a.hotBtree[key]? = some tp) (hin : tp.inflight = false)
    (hrole : ∀ k, pc.role k = victimRole victims k)
    (hrole' : ∀ k, pc'.role k = victimRole (victims ++ [(key, { tp with inflight := true })]) k) :
    StepSpec a pc
      { a with clockHand := key, hotBtree := a.hotBtree.insert key { tp with inflight := true } }
      pc' none := by
  refine .of_key_silent key (fun k' hne => ?_) (fun k' hne => ?_) (fun _ _ => rfl)
    (fun m t roles ht hphase => ?_)
  · rw [hrole', hrole, victimRole_append, if_neg hne]
    split_ifs with hmem
    · rfl
    · exact (victimRole_of_notMem hmem).symm
  · simp [getElem?_insert, hne.symm]
  · rw [hrole] at ht
    have hmem := notMem_victims ht hphase hhot hin
    rw [Adapter.PhaseAt, hhot] at hphase
    have hfree : roles t = .free := ht.trans (victimRole_of_notMem hmem)
    have hnew := hphase.pick hfree hin { tp with inflight := true } rfl
    rw [Adapter.PhaseAt, hrole', victimRole_append, if_neg hmem, if_pos rfl]
    simpa using hnew

lemma stepSpec_scanning {cursor steps : ℕ} :
    StepSpec a (.scanning call cursor steps victims) (scanStep a call cursor steps victims).1
      (scanStep a call cursor steps victims).2 none := by
  rcases hnext : (scanFrom a.hotBtree cursor).head? with _ | ⟨key, tp⟩
  · simp only [scanStep, hnext]
    exact .still (fun _ => rfl) rfl rfl
  have hhot := mem_of_head hnext
  simp only [scanStep, hnext]
  split_ifs with hsteps hin href hmany
  · exact .still (fun _ => rfl) rfl rfl
  · exact .still (fun _ => rfl) rfl rfl
  · exact stepSpec_unreferenced hhot (fun _ => rfl)
  · exact stepSpec_pick hhot (by simpa using hin) (fun _ => rfl) (fun _ => rfl)
  · exact stepSpec_pick hhot (by simpa using hin) (fun _ => rfl) (fun _ => rfl)

/-- An evictor inserts a record into the cold tree, which does not hold its key. -/
lemma stepSpec_moveDown {v : V} {pc : Pc V} (hcold : a.coldBtree[k]? = none)
    (hrole : pc.role k = .victim v) (hrole' : ∀ k', k' ≠ k → pc.role k' = victimRole victims k') :
    StepSpec a pc { a with coldBtree := (insertNew a.coldBtree k (coldRecord v)).2 }
      (.removingHot call k victims) none := by
  refine .of_key_silent k (fun k' hne => ?_) (fun _ _ => rfl) (fun k' hne => ?_)
    (fun m t roles ht hphase => ?_)
  · rw [hrole' k' hne, role, if_neg hne]
  · simp [getElem?_insertNew, hne.symm]
  · rw [Adapter.PhaseAt, hcold] at hphase
    have hnew := hphase.moveDown (t := t) (ht.trans hrole)
    rw [Adapter.PhaseAt]
    simpa [getElem?_insertNew, hcold, coldRecord] using hnew

lemma stepSpec_removingHot (hmem : k ∉ victims.map Prod.fst) :
    StepSpec a (.removingHot call k victims) { a with hotBtree := (removeKey a.hotBtree k).2 }
      (.evicting call victims) none := by
  refine .of_key_silent k (fun k' hne => by simp [hne]) (fun k' hne => ?_) (fun _ _ => rfl)
    (fun m t roles ht hphase => ?_)
  · simp [getElem?_removeKey, hne.symm]
  · have hnew := hphase.leave (t := t) (by simpa using ht)
    rw [Adapter.PhaseAt]
    simpa [getElem?_removeKey, victimRole_of_notMem hmem] using hnew

/-- **What one step does**, in an exclusive adapter. -/
lemma stepSpec (hexc : cfg.inclusive = false) (i : Call V × Choices V) {pc : Pc V}
    (hadm : Admitted cfg a pc) (hnodup : pc.victimKeys.Nodup) :
    StepSpec a pc (program cfg i a pc).1 (program cfg i a pc).2.1 (program cfg i a pc).2.2 := by
  cases pc with
  | idle => exact .still (role_start i.1) rfl rfl
  | lookupHot call k =>
    simp only [program, evictStep, lookupStep]
    rcases hhot : a.hotBtree[k]? with _ | tp
    · exact .still (fun _ => rfl) rfl rfl
    · dsimp only
      split_ifs with hin
      · exact .still (fun _ => rfl) rfl rfl
      · exact stepSpec_lookupHot hhot (by simpa using hin)
  | installing call k =>
    simp only [program, evictStep, lookupStep]
    rcases hhot : a.hotBtree[k]? with _ | tp
    · rw [insertNew_of_none hhot]
      exact stepSpec_installing hhot
    · rw [insertNew_of_some hhot]
      exact .still (fun _ => rfl) rfl rfl
  | coldLookup call k =>
    simp only [program, evictStep, lookupStep]
    rcases hcold : a.coldBtree[k]? with _ | tp
    · simpa [hcold] using stepSpec_coldLookup_kept a call k
    · by_cases hmigrate : cfg.shouldMigrate i.2.migrateDraw
      · simp only [hmigrate, if_true]
        exact stepSpec_coldLookup_found hcold
      · simpa [hcold, hmigrate] using stepSpec_coldLookup_kept a call k
  | filling call k v =>
    simp only [program, evictStep, lookupStep, hexc]
    exact stepSpec_filling
  | removingCold call k => exact stepSpec_removingCold
  | removingPlaceholder call k => exact stepSpec_removingPlaceholder
  | tryLoad call =>
    simp only [program, evictStep, lookupStep]
    split_ifs
    · exact .still (fun _ => rfl) rfl rfl
    · exact .still (role_proceed call) rfl rfl
  | tryCas call =>
    simp only [program, evictStep, lookupStep]
    split_ifs
    · exact .still (role_proceed call) rfl rfl
    · exact .still (fun _ => rfl) rfl rfl
  | inserting k v =>
    simp only [program, evictStep, lookupStep, writeStep, insertNew_of_none hadm.1]
    exact stepSpec_inserting hadm
  | updating k v =>
    simp only [program, evictStep, lookupStep, writeStep]
    rcases hhot : a.hotBtree[k]? with _ | tp
    · exact .still (fun _ => rfl) rfl rfl
    · dsimp only
      split_ifs with hin
      · exact .still (fun _ => rfl) rfl rfl
      · exact stepSpec_updating hhot (by simpa using hin)
  | entering call => exact .still (fun _ => rfl) rfl rfl
  | scanning call cursor steps victims => exact stepSpec_scanning
  | scanned call steps victims => exact .still (fun _ => rfl) rfl rfl
  | evicting call victims =>
    rcases victims with _ | ⟨⟨k, tp⟩, victims⟩
    · exact .still (role_proceed call) rfl rfl
    · simp only [program, evictStep, hexc]
      exact stepSpec_moveDown (hadm hexc) (by simp [victimRole])
        (fun k' hne => by simp [victimRole, hne])
  | insertingCold call k v victims =>
    exact stepSpec_moveDown hadm (by simp) (fun k' hne => by simp [hne])
  | removingHot call k victims => exact stepSpec_removingHot (List.nodup_cons.1 hnodup).1

/-! ### The victims of an evictor -/

lemma victimKeys_start (call : Call V) : call.start.victimKeys = [] := by
  cases call <;> rfl

lemma victimKeys_proceed (call : Call V) : call.proceed.victimKeys = [] := by
  cases call <;> rfl

lemma victimKeys_writeStep {pc : Pc V} (h : pc.victimKeys = []) :
    (pc.writeStep cfg a).2.1.victimKeys = [] := by
  fun_cases writeStep cfg a pc
  case case6 => exact h
  all_goals rfl

lemma victimKeys_lookupStep {pc : Pc V} (h : pc.victimKeys = []) :
    (pc.lookupStep cfg ch a).2.1.victimKeys = [] := by
  fun_cases lookupStep cfg ch a pc
  case case14 => exact victimKeys_writeStep h
  all_goals dsimp only
  all_goals first
    | rfl
    | exact victimKeys_proceed _
    | (split_ifs <;> first | rfl | exact victimKeys_proceed _)

/-- An evictor passes by the records in flight, and so its victims stay distinct. -/
lemma nodup_scanStep {cursor steps : ℕ} (hnodup : (victims.map Prod.fst).Nodup)
    (hfree : ∀ key tp, a.hotBtree[key]? = some tp → tp.inflight = false →
      key ∉ victims.map Prod.fst) :
    (scanStep a call cursor steps victims).2.victimKeys.Nodup := by
  rcases hnext : (scanFrom a.hotBtree cursor).head? with _ | ⟨key, tp⟩
  · simpa [scanStep, hnext, victimKeys] using hnodup
  simp only [scanStep, hnext]
  by_cases hin : tp.inflight = false
  · have hmem := hfree key tp (mem_of_head hnext) hin
    have hmore : ((victims ++ [(key, { tp with inflight := true })]).map Prod.fst).Nodup := by
      rw [List.map_append, List.nodup_append_comm]
      exact List.nodup_cons.2 ⟨hmem, hnodup⟩
    split_ifs <;> first | exact hnodup | exact hmore
  · rw [Bool.not_eq_false] at hin
    split_ifs <;> exact hnodup

end Pc

/-! ## Runs -/

/-- The invariant of the threads; `m` is the map of the values last written. -/
structure Inv (m : ℕ → Option V) (s : Interleaving.State (Adapter V) (Pc V)) : Prop where
  phase : ∀ k, s.shared.PhaseAt m k (fun t => (s.place t).role k)
  nodup : ∀ t, (s.place t).victimKeys.Nodup

variable {cfg : Config} {m : ℕ → Option V} {s : Interleaving.State (Adapter V) (Pc V)} {t k : ℕ}

lemma inv_init : Inv (fun _ => none) (start (Adapter.init : Adapter V)) where
  phase := fun k => by
    have hcold : (∅ : TreeMap ℕ (TaggedPayload V))[k]? = none := by simp
    simp only [Adapter.PhaseAt, start, Adapter.init, hcold]
    exact .cold none
  nodup := fun _ => List.nodup_nil

/-- No evictor picks a record twice. -/
lemma Inv.nodup_program (h : Inv m s) (i : Call V × Choices V) (t : ℕ) :
    (program cfg i s.shared (s.place t)).2.1.victimKeys.Nodup := by
  have hnodup := h.nodup t
  have hphase := h.phase
  have hquiet : ∀ {pc : Pc V}, pc.victimKeys = [] →
      (pc.lookupStep cfg i.2 s.shared).2.1.victimKeys.Nodup := by
    intro pc hpc
    rw [Pc.victimKeys_lookupStep hpc]
    exact List.nodup_nil
  rcases hpc : s.place t with _ | _ | _ | _ | _ | _ | _ | _ | _ | _ | _ | _ |
    ⟨call, cursor, steps, victims⟩ | _ | ⟨_, victims⟩ | _ | _ <;> rw [hpc] at hnodup
  case idle => exact (Pc.victimKeys_start i.1).symm ▸ List.nodup_nil
  case entering => exact List.nodup_nil
  case scanning =>
    refine Pc.nodup_scanStep hnodup (fun key tp hhot hin => ?_)
    exact Pc.notMem_victims (t := t) (by rw [hpc]; rfl) (hphase key) hhot hin
  case scanned => exact hnodup
  case evicting =>
    rcases victims with _ | ⟨⟨k, tp⟩, victims⟩
    · exact (Pc.victimKeys_proceed _).symm ▸ List.nodup_nil
    simp only [program, Pc.evictStep]
    split_ifs
    · split <;> exact hnodup
    · exact hnodup
    · exact hnodup
  case insertingCold => exact hnodup
  case removingHot => exact hnodup.of_cons
  all_goals exact hquiet rfl

/-- **One step of one thread keeps the invariant**, unless it is a refused insertion. -/
lemma Inv.step (h : Inv m s) (hexc : cfg.inclusive = false) (i : Call V × Choices V)
    (hadm : Admitted cfg s.shared (s.place t)) :
    Inv (completed m (s.step (program cfg) t i).2.toList) (s.step (program cfg) t i).1 ∧
      Explained m (s.step (program cfg) t i).2.toList := by
  have hspec := Pc.stepSpec hexc i hadm (h.nodup t)
  refine ⟨⟨fun k => ?_, fun t' => ?_⟩, hspec.explained m t _ (fun _ => rfl) h.phase⟩
  · have hroles : (fun t' => ((s.step (program cfg) t i).1.place t').role k) =
        update (fun t' => (s.place t').role k) t
          ((program cfg i s.shared (s.place t)).2.1.role k) := by
      funext t'
      simp only [Interleaving.State.step_eq, update_apply]
      split_ifs <;> rfl
    rw [hroles]
    exact hspec.phase m t k _ rfl (h.phase k)
  · simp only [Interleaving.State.step_eq, update_apply]
    split_ifs
    · exact h.nodup_program i t
    · exact h.nodup t'

/-- The invariant holds along every run without a refused insertion. -/
lemma inv_of_run (hexc : cfg.inclusive = false) {es : List (Event V)}
    (h : Interleaving.Run (program cfg) (fun s t _ => Admitted cfg s.shared (s.place t))
      (start Adapter.init) es s) :
    Inv (completed (fun _ => none) es) s ∧ Explained (fun _ => none) es := by
  refine h.invariant (P := fun es s => Inv (completed (fun _ => none) es) s ∧
    Explained (fun _ => none) es) ⟨inv_init, trivial⟩ (fun es s t i hinv hok => ?_)
  obtain ⟨hinv', hexplained⟩ := hinv.1.step hexc i hok
  rw [completed_append]
  exact ⟨hinv', explained_append hinv.2 hexplained⟩

/-- The record of a key is where `lookup` finds it: at rest in the hot tree, or in the cold one. -/
def Adapter.Stores (a : Adapter V) (k : ℕ) (v : Option V) : Prop :=
  (∃ tp, a.hotBtree[k]? = some tp ∧ tp.inflight = false ∧ v = some tp.payload ∧
    a.coldBtree[k]? = none) ∨
  (a.hotBtree[k]? = none ∧ a.coldBtree[k]?.map TaggedPayload.payload = v)

/-- If no thread plays a part for a key, its record is at rest. -/
lemma Inv.stores (h : Inv m s) (hidle : ∀ t, s.place t = .idle) (k : ℕ) :
    s.shared.Stores k (m k) := by
  have hfree : ∀ t, (s.place t).role k = .free := fun t => by rw [hidle t]; rfl
  simpa [Adapter.Stores] using (h.phase k).at_rest hfree

lemma Pc.removingCold_of_role {pc : Pc V} (h : pc.role k = .draining) :
    ∃ call, pc = .removingCold call k := by
  have hvictims : ∀ victims : List (ℕ × TaggedPayload V), victimRole victims k ≠ .draining := by
    intro victims
    induction victims with
    | nil => simp [victimRole]
    | cons e victims ih =>
      rw [victimRole]
      split_ifs
      · simp
      · exact ih
  cases pc with
  | removingCold call k' =>
    rw [role] at h
    split_ifs at h with hk
    exact ⟨call, by rw [hk]⟩
  | coldLookup _ k' | removingPlaceholder _ k' | filling _ k' _ =>
    rw [role] at h
    split_ifs at h
  | scanning _ _ _ victims | scanned _ _ victims | evicting _ victims =>
    exact (hvictims victims h).elim
  | insertingCold _ k' _ victims | removingHot _ k' victims =>
    rw [role] at h
    split_ifs at h
    exact (hvictims victims h).elim
  | idle | lookupHot | installing | tryLoad | tryCas | inserting | updating | entering => cases h

/-- **A refused insertion may lose the record**: the evictor removes it from the hot tree, and the
lookup that is about to remove the cold copy does so. -/
lemma Inv.lost (h : Inv m s) (hexc : cfg.inclusive = false) {call : Call V} {tp : TaggedPayload V}
    (hpc : s.place t = .evicting call ((k, tp) :: victims))
    (hcold : s.shared.coldBtree[k]? ≠ none) :
    m k = some tp.payload ∧ ∃ s', Interleaving.Run (program cfg) (fun _ _ _ => True) s [] s' ∧
      s'.shared.hotBtree[k]? = none ∧ s'.shared.coldBtree[k]? = none := by
  have hpart := (h.phase k).part t
  have hrole : (s.place t).role k = .victim tp.payload := by simp [hpc, victimRole]
  rw [hrole] at hpart
  obtain ⟨hm, tp', hhot, -, ⟨-, hnone⟩ | ⟨t', c, hne, hroles, hsome⟩⟩ := hpart
  · simp [hcold] at hnone
  obtain ⟨call', hpc'⟩ : ∃ call, s.place t' = .removingCold call k :=
    Pc.removingCold_of_role (by simpa using congrFun hroles t')
  obtain ⟨old, hold⟩ := Option.ne_none_iff_exists'.1 hcold
  let i : Call V × Choices V := (.evictABunch, ⟨false, 0, tp.payload⟩)
  -- the evictor's insertion is refused, it removes its record, and the lookup the other one
  have hstep₁ : program cfg i s.shared (.evicting call ((k, tp) :: victims)) =
      (s.shared, .removingHot call k victims, none) := by
    simp [program, Pc.evictStep, hexc, insertNew_of_some hold]
  have hstep₂ : ∀ a : Adapter V, program cfg i a (.removingHot call k victims) =
      ({ a with hotBtree := (removeKey a.hotBtree k).2 }, .evicting call victims, none) :=
    fun _ => rfl
  have hstep₃ : ∀ a : Adapter V, program cfg i a (.removingCold call' k) =
      ({ a with coldBtree := (removeKey a.coldBtree k).2 }, .tryLoad call', none) := fun _ => rfl
  have hnil : Interleaving.Run (program cfg) (fun _ _ _ => True) s [] s := .nil
  have hrun₁ := hnil.step_of trivial hpc hstep₁
  have hrun₂ := hrun₁.step_of trivial (update_self t _ _) (hstep₂ _)
  have hplace : update (update s.place t (.removingHot call k victims)) t
      (.evicting call victims) t' = .removingCold call' k := by
    rw [update_of_ne hne.symm, update_of_ne hne.symm, hpc']
  have hrun₃ := hrun₂.step_of trivial hplace (hstep₃ _)
  exact ⟨hm, _, hrun₃, by simp [getElem?_removeKey], by simp [getElem?_removeKey]⟩

/-- **No record is lost unless an insertion is refused.**  In every run of an exclusive adapter in
which no insertion is refused, a lookup returns the value last written, and whenever no call is
under way every key that has been written is in exactly one tree, with the value last written.  And
an evictor that is about to insert a record into a cold tree that holds its key is in a race it can
lose: some continuation of the run removes the record from both trees. -/
theorem records_kept (cfg : Config) (hexc : cfg.inclusive = false) {es : List (Event V)}
    {s : Interleaving.State (Adapter V) (Pc V)}
    (h : Interleaving.Run (program cfg) (fun s t _ => Admitted cfg s.shared (s.place t))
      (start Adapter.init) es s) :
    Explained (fun _ => none) es ∧
    ((∀ t, s.place t = .idle) → ∀ k, s.shared.Stores k (completed (fun _ => none) es k)) ∧
    ∀ t k call tp victims, s.place t = .evicting call ((k, tp) :: victims) →
      s.shared.coldBtree[k]? ≠ none → completed (fun _ => none) es k = some tp.payload ∧
        ∃ s', Interleaving.Run (program cfg) (fun _ _ _ => True) s [] s' ∧
          s'.shared.hotBtree[k]? = none ∧ s'.shared.coldBtree[k]? = none := by
  obtain ⟨hinv, hexplained⟩ := inv_of_run hexc h
  exact ⟨hexplained, hinv.stores, fun t k call tp victims hpc hcold => hinv.lost hexc hpc hcold⟩

section Schedules

/-- A choice of the environment that starts no eviction and migrates. -/
def calm (call : Call ℕ) : Call ℕ × Choices ℕ := (call, ⟨false, 0, 0⟩)

/-- An exclusive adapter that always migrates. -/
def exclusive : Config := ⟨false, false, 0⟩

/-- Thread 1 inserts the key 1 and evicts its record; thread 0 reads it and is about to remove the
cold copy. -/
def migrating : List (ℕ × (Call ℕ × Choices ℕ)) :=
  List.replicate 3 (1, calm (.insert 1 10)) ++ List.replicate 8 (1, calm .evictABunch) ++
    List.replicate 5 (0, calm (.lookup 1))

/-- It removes the cold copy. -/
def migrated : List (ℕ × (Call ℕ × Choices ℕ)) :=
  migrating ++ List.replicate 2 (0, calm (.lookup 1))

/-- Thread 1 clears the mark of the record and evicts it first. -/
def drained : List (ℕ × (Call ℕ × Choices ℕ)) :=
  migrating ++ List.replicate 14 (1, calm .evictABunch) ++ List.replicate 2 (0, calm (.lookup 1))

lemma exec_idle {schedule : List (ℕ × (Call ℕ × Choices ℕ))}
    (hthreads : ∀ t ∈ schedule.map Prod.fst, t = 0 ∨ t = 1)
    {s : Interleaving.State (Adapter ℕ) (Pc ℕ)}
    (hs : (Interleaving.exec (program exclusive) (start Adapter.init, []) schedule).1 = s)
    (h₀ : s.place 0 = .idle) (h₁ : s.place 1 = .idle) (t : ℕ) : s.place t = .idle := by
  subst hs
  refine Interleaving.place_exec_eq [] (fun _ => rfl) (fun t' ht' => ?_) t
  rcases hthreads t' ht' with rfl | rfl
  · exact h₀
  · exact h₁

/-- A run that evicts a record and migrates it back. -/
theorem records_kept_migrated :
    exclusive.inclusive = false ∧ ∃ es s,
      Interleaving.Run (program exclusive)
        (fun s t _ => Admitted exclusive s.shared (s.place t)) (start Adapter.init) es s ∧
      (∀ t, s.place t = .idle) ∧ completed (fun _ => none) es 1 = some 10 ∧
      s.shared.Stores 1 (some 10) := by
  refine ⟨rfl, ?_⟩
  have hrun := Interleaving.Run.of_exec (program exclusive)
    (fun s t _ => Admitted exclusive s.shared (s.place t)) (start Adapter.init) migrated (by decide)
  have hidle := exec_idle (show ∀ t ∈ migrated.map Prod.fst, t = 0 ∨ t = 1 by decide) rfl rfl rfl
  exact ⟨_, _, hrun, hidle, by decide, (records_kept exclusive rfl hrun).2.1 hidle 1⟩

/-- **A record is lost**: all calls are over, the key has been inserted, and no tree holds it. -/
theorem record_drained : ∃ es s,
    Interleaving.Run (program exclusive) (fun _ _ _ => True) (start Adapter.init) es s ∧
    (∀ t, s.place t = .idle) ∧ completed (fun _ => none) es 1 = some 10 ∧
    s.shared.hotBtree[1]? = none ∧ s.shared.coldBtree[1]? = none := by
  have hrun := Interleaving.Run.of_exec (program exclusive) (fun _ _ _ => True)
    (start Adapter.init) drained (by decide)
  exact ⟨_, _, hrun, exec_idle (by decide) rfl rfl rfl, by decide, by decide, by decide⟩

end Schedules

end TwoTree.ConcurrentPartitionedBTree
