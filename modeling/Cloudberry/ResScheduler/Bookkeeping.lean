/-
# The bookkeeping of resource queues

Whenever no critical section is open the counters of a queue tell what is granted
and what waits, a portal has increments exactly while it is granted or waiting,
and the entries of lock, `PROCLOCK` and local lock stand exactly while they are
needed: by a granted or a waiting portal, or by the error handler of an
acquisition that has just failed (`Exact`).

One path breaks this. When the queue is gone, or the increments of the portal cannot be stored,
`ResLockAcquire` takes its request off the lock again but leaves its `PROCLOCK` to the error
handler, without the cleanup that the other error paths make. If another backend gives up the last
request that is counted in the queue before the handler has run, it removes the `LOCK` under the
`PROCLOCK` that is left. `Safe` excludes this.
-/

import Mathlib.Algebra.BigOperators.Ring.Finset
import Cloudberry.ResScheduler.Steps

namespace Cloudberry.ResScheduler

open Entry List Function State Phase ResQueue Machine Option ResLockError

variable {π κ ρ : Type*} [DecidableEq π] [DecidableEq κ] [DecidableEq ρ]
  {s t : State π κ ρ} {me : π} {q : κ} {p : ρ} {room : Room}

/-- The lock entry of a queue stands exactly while a portal is granted or waits, or
a `PROCLOCK` is left to a handler. -/
def LockNeeded (s : State π κ ρ) (q : κ) : Prop :=
  (s.entries q).lock.isSome = true ↔
    (s.entries q).granted ≠ [] ∨ (s.entries q).waiters ≠ [] ∨
      ∃ pid, (s.backends pid).phase.lingers q

/-- No request but that of the portal is counted in the queue: nothing else is granted, and nobody
else waits. -/
def State.LastRequest (s : State π κ ρ) (me : π) (q : κ) (p : ρ) : Prop :=
  (s.entries q).granted.erase (me, p) = [] ∧ (s.entries q).waiters.erase me = []

/-- If the event gives up the last request that is counted in its queue, then no other backend has
left a `PROCLOCK` of the queue to its error handler. -/
def Safe (s : State π κ ρ) (a : Event π κ ρ) : Prop :=
  ∀ me q p, s.givesUp a = some (me, q, p) → s.LastRequest me q p →
    ∀ pid, pid ≠ me → ¬ (s.backends pid).phase.lingers q

variable {a : Event π κ ρ}

theorem Stepped.backends_eq (hs : Stepped s a t) {pid : π} (hpid : a.actor ≠ some pid) :
    t.backends pid = s.backends pid := by
  cases hs with
  | created | altered | dropped => rfl
  | acquired => exact set_backends_of_ne fun heq => hpid (congrArg some heq.symm)
  | leaves hactor =>
    exact set_backends_of_ne fun heq => hpid (hactor.trans (congrArg some heq.symm))
  | givenBack hactor =>
    exact set_backends_of_ne fun heq => hpid (hactor.trans (congrArg some heq.symm))

omit [DecidableEq κ] in
theorem State.actor_of_givesUp (hgives : s.givesUp a = some (me, q, p)) : a.actor = some me := by
  unfold givesUp at hgives
  split at hgives <;> (repeat' split at hgives) <;> simp_all [Event.actor]

variable {q' : κ} {inc : Increments}

section Lock

variable {e e' : Entry π ρ} {b : Backend κ ρ}

omit [DecidableEq ρ] in
theorem lockNeeded_set (ht : Inv (s.set q e me b)) (hn : ∀ q, LockNeeded s q)
    (hold : ∀ q' p', (s.backends me).phase.about q' p' → q' = q)
    (hnew : ∀ q' p', b.phase.about q' p' → q' = q) (hsome : e.lock.isSome = true → e.granted ≠ [] ∨
      e.waiters ≠ [] ∨ b.phase.lingers q ∨ ∃ pid, pid ≠ me ∧ (s.backends pid).phase.lingers q)
    (hnone : e.lock = none → ¬ b.phase.lingers q) (hsafe : (s.entries q).lock.isSome = true →
      e.lock = none → ∀ pid, pid ≠ me → ¬ (s.backends pid).phase.lingers q) (q' : κ) :
    LockNeeded (s.set q e me b) q' := by
  by_cases hq : q' = q
  · subst hq
    simp only [LockNeeded, set_entries_self]
    cases hl : e.lock with
    | some l =>
      refine iff_of_true rfl ?_
      rcases hsome (by rw [hl]; rfl) with h | h | h | ⟨pid, hpid, h⟩
      · exact .inl h
      · exact .inr (.inl h)
      · exact .inr (.inr ⟨me, by rwa [set_backends_self]⟩)
      · exact .inr (.inr ⟨pid, by rwa [set_backends_of_ne hpid]⟩)
    | none =>
      have hempty : e.granted = [] := by
        have hentry := (ht.entry q').lock_none
        rw [set_entries_self] at hentry
        exact (hentry hl).1
      have hwaiters : e.waiters = [] := by rw [waiters, hl]
      refine iff_of_false (by simp) ?_
      rintro (h | h | ⟨pid, h⟩)
      · exact h hempty
      · exact h hwaiters
      by_cases hpid : pid = me
      · subst hpid
        rw [set_backends_self] at h
        exact hnone hl h
      · rw [set_backends_of_ne hpid] at h
        -- no lock before: nobody had left a `PROCLOCK`
        by_cases hbefore : (s.entries q').lock.isSome = true
        · exact hsafe hbefore hl pid hpid h
        · exact hbefore ((hn q').2 (.inr (.inr ⟨pid, h⟩)))
  · have hiff : (∃ pid, ((s.set q e me b).backends pid).phase.lingers q') ↔
        ∃ pid, (s.backends pid).phase.lingers q' := by
      refine exists_congr fun pid => ?_
      by_cases hpid : pid = me
      · subst hpid
        rw [set_backends_self]
        refine iff_of_false ?_ ?_
        · rintro ⟨p', err, h, -⟩
          exact hq (hnew q' p' (.inr ⟨err, h⟩))
        · rintro ⟨p', err, h, -⟩
          exact hq (hold q' p' (.inr ⟨err, h⟩))
      · rw [set_backends_of_ne hpid]
    rw [LockNeeded, hiff, set_entries_of_ne hq]
    exact hn q'

omit [DecidableEq κ] [DecidableEq ρ] in
theorem Wakes.lock (hnodup : e.waiters.Nodup) (hme : me ∉ e.waiters) (hwake : Wakes s me q e e') :
    e'.lock.isSome = e.lock.isSome ∧ (e' = e ∨ e'.granted ≠ []) := by
  rcases hwake with ⟨rfl, -⟩ | hwake
  · exact ⟨rfl, .inl rfl⟩
  refine resProcLockRemoveSelfAndWakeup_rule
    (P := fun t => t.lock.isSome = e.lock.isSome ∧ (t = e ∨ t.granted ≠ [])) ?_ hnodup hme
    ⟨rfl, .inl rfl⟩ hwake
  rintro t _ p _ _ ⟨hlock, -⟩ - - - -
  rw [← hlock]
  simp [Entry.wake, Entry.grant, Entry.resLockUpdateLimit, resGrantLock, Entry.leaveQueue]

theorem lockNeeded_released (ht : Inv (s.set q e' me b)) (h : Inv s) (hn : ∀ q, LockNeeded s q)
    (ha : ActsOn s me q p) {b₁ : Backend κ ρ} (hrel : Released s me q p e b₁)
    (hwake : Wakes s me q e e') (hnew : ∀ q' p', b.phase.about q' p' → q' = q)
    (hlinger : ¬ b.phase.lingers q) (hsafe : (s.entries q).lock.isSome = true → e'.lock = none →
      ∀ pid, pid ≠ me → ¬ (s.backends pid).phase.lingers q) (q' : κ) :
    LockNeeded (s.set q e' me b) q' := by
  obtain ⟨_, hgrows⟩ := hwake.lock hrel.entry.waiters_nodup (hrel.not_waits h)
  refine lockNeeded_set ht hn (fun q' p' hab => (ha.about q' p' hab).1) hnew ?_ (fun _ => hlinger)
    hsafe q'
  intro hsome
  rcases hgrows with rfl | hgrows
  · rcases hrel.lock with ⟨-, hfull⟩ | ⟨hpl, rfl⟩
    · exact (hfull hsome).imp_right .inl
    rcases (hn q).1 hsome with h | h | ⟨pid, h⟩
    · exact .inl h
    · exact .inr (.inl h)
    · have hpid : pid ≠ me := by
        rintro rfl
        have hsome := ((‹Inv s›.entry q).procLock_isSome pid).2 (.inr (.inr h))
        rw [hpl] at hsome
        cases hsome
      exact .inr (.inr (.inr ⟨pid, hpid, h⟩))
  · exact .inl hgrows

omit [DecidableEq ρ] in
theorem lockNeeded_leaves {phase : Phase κ ρ} (h : Inv s)
    (ht : Inv (s.set q (s.entries q) me { s.backends me with phase := phase }))
    (hn : ∀ q, LockNeeded s q) (hphase : (s.backends me).phase = .waiting q p)
    (hme : me ∉ (s.entries q).waiters) (hnew : phase = .running ∨ phase = .failed q p .cancelled)
    (q' : κ) : LockNeeded (s.set q (s.entries q) me { s.backends me with phase := phase }) q' := by
  have hg : (s.entries q).granted ≠ [] := by
    intro hempty
    refine hme (((h.backend me).waits q).2 ⟨p, hphase, fun hg => ?_⟩)
    rw [grantedTo, hempty] at hg
    exact absurd hg not_mem_nil
  have hlinger : ¬ phase.lingers q := by
    rcases hnew with rfl | rfl <;> simp [leavesProcLock]
  refine lockNeeded_set ht hn (fun q' p' hab => ?_) (fun q' p' hab => ?_) (fun _ => .inl hg)
    (fun _ => hlinger) (fun hbefore hl => ?_) q'
  · rw [hphase] at hab
    exact (about_waiting hab).1
  · rcases hnew with rfl | rfl
    · exact absurd hab not_about_running
    · exact (about_failed hab).1
  · rw [hl] at hbefore
    cases hbefore

theorem Acquired.lock {o : Outcome} (h : Inv s) (ho : Opens s me p)
    (hac : Acquired room me q p inc (s.entries q) (s.opened me q p) o e b) :
    (e.lock.isSome = true → e.granted ≠ [] ∨ e.waiters ≠ [] ∨ (o.phase q p).lingers q) ∧
      (e.lock = none → ¬ (o.phase q p).lingers q) := by
  have hentry : EntryOk 0 _ (s.entries q) := ho.entry h
  cases hac with
  | noLock l hlock hl =>
    refine ⟨fun hsome => ?_, fun _ => ?_⟩
    · rw [hlock] at hsome
      cases hsome
    · simp [Outcome.phase, leavesProcLock]
  | noProcLock hprocLock =>
    refine ⟨fun hsome => ?_, fun _ => ?_⟩
    · exact (hentry.enterLock.lock_dropLock hsome).imp_right .inl
    · simp [Outcome.phase, leavesProcLock]
  | lingering err herr =>
    refine ⟨fun _ => .inr (.inr (by simp [Outcome.phase, herr])), fun hnone => ?_⟩
    simp [entered, unrequest, request, enterProcLock, enterLock] at hnone
  | refused o ho' =>
    refine ⟨fun hsome => ?_, fun _ => ?_⟩
    · have hW : me ∉ ((s.entries q).entered me).unrequest.waiters := by
        simpa using ho.not_waits h q
      exact ((hentry.enter me).unrequest.lock_collect hW hsome).imp_right .inl
    · rcases ho' with rfl | rfl <;> simp [Outcome.phase, leavesProcLock]
  | granted => exact ⟨fun _ => .inl (by simp), fun _ => by simp [Outcome.phase]⟩
  | deadlock =>
    exact ⟨fun _ => .inl (by simp), fun _ => by simp [Outcome.phase, leavesProcLock]⟩
  | queued =>
    obtain ⟨l, hl⟩ := (hentry.enter me).lock_isSome (.inr one_ne_zero)
    refine ⟨fun _ => .inr (.inl ?_), fun _ => by simp [Outcome.phase]⟩
    rw [waiters_joinQueue _ _ hl]
    simp

omit [DecidableEq κ] [DecidableEq ρ] in
theorem Outcome.about {o : Outcome} {p' : ρ} (hab : (o.phase q p).about q' p') : q' = q := by
  cases o with
  | ok => exact absurd hab not_about_running
  | notAvail => exact absurd hab not_about_running
  | queued => exact (about_waiting hab).1
  | error err => exact (about_failed hab).1

omit [DecidableEq π] [DecidableEq ρ] in
theorem State.lock_setQueue {queue : Option ResQueue} :
    ((s.setQueue q queue).entries q').lock = (s.entries q').lock := by
  obtain ⟨_, hq⟩ := s.setQueue_entries q queue q'
  rw [hq]

omit [DecidableEq π] [DecidableEq ρ] in
theorem lockNeeded_setQueue {queue : Option ResQueue} (hn : LockNeeded s q') :
    LockNeeded (s.setQueue q queue) q' := by
  obtain ⟨_, hq⟩ := s.setQueue_entries q queue q'
  rw [LockNeeded, hq]
  exact hn

/-- An acquisition removes the lock entry exactly if the request is turned away and no other one is
counted. -/
theorem Acquired.lock_eq_none_iff {o : Outcome} (h : Inv s) (ho : Opens s me p)
    (hac : Acquired room me q p inc (s.entries q) (s.opened me q p) o e b)
    (hsome : (s.entries q).lock.isSome = true) :
    e.lock = none ↔ (s.entries q).refuses room me inc = true ∧ s.LastRequest me q p := by
  have hentry : EntryOk 0 _ (s.entries q) := ho.entry h
  have hlast : s.LastRequest me q p ↔ (s.entries q).granted = [] ∧ (s.entries q).waiters = [] := by
    rw [LastRequest, erase_of_not_mem (ho.not_waits h q), erase_of_not_mem]
    exact ho.not_granted h q
  have hstays : e.lock ≠ none → (s.entries q).refuses room me inc = false →
      (e.lock = none ↔ (s.entries q).refuses room me inc = true ∧ s.LastRequest me q p) :=
    fun hl hr => iff_of_false hl (by simp [hr])
  cases hac with
  | noLock l hlock hl => simp [hlock] at hsome
  | noProcLock hprocLock hrefuses =>
    have hok := hentry.enterLock.dropLock
    have hwaiters : (s.entries q).enterLock.dropLock.waiters = (s.entries q).waiters := by
      rw [hentry.enterLock.waiters_dropLock, waiters_enterLock]
    have hlock := hentry.enterLock.lock_dropLock
    rw [hwaiters, granted_dropLock, granted_enterLock] at hlock
    rw [hok.lock_eq_none_iff (by rwa [hwaiters, granted_dropLock, granted_enterLock]), hwaiters,
      hlast]
    simp [hrefuses]
  | refused o ho' hrefuses =>
    have hW : me ∉ ((s.entries q).entered me).unrequest.waiters := by
      simpa using ho.not_waits h q
    have hgiven := (hentry.enter me).unrequest
    rw [(hgiven.collect hW).lock_eq_none_iff (hgiven.lock_collect hW), hgiven.waiters_collect hW,
      hlast]
    simp [hrefuses]
  | lingering err herr hrefuses =>
    refine hstays (fun hnone => ?_) hrefuses
    simp [entered, unrequest, request, enterProcLock, enterLock] at hnone
  | granted _ _ _ hrefuses | deadlock _ _ _ _ hrefuses =>
    refine hstays (fun hnone => ?_) hrefuses
    simp [entered, request, enterProcLock, enterLock, Entry.grant, Entry.resLockUpdateLimit,
      resGrantLock] at hnone
  | queued _ _ _ _ hrefuses =>
    refine hstays (fun hnone => ?_) hrefuses
    simp [entered, request, enterProcLock, enterLock, Entry.joinQueue] at hnone

/-- **When a lock entry is removed**: the event gives up a request in its queue, and no other one is
counted there. -/
theorem Stepped.lock_eq_none_iff (h : Inv s) (hs : Stepped s a t)
    (hsome : (s.entries q').lock.isSome = true) :
    (t.entries q').lock = none ↔ ∃ me p, s.givesUp a = some (me, q', p) ∧ s.LastRequest me q' p := by
  have hsame : ∀ {t : State π κ ρ}, (t.entries q').lock = (s.entries q').lock →
      (∀ me p, s.givesUp a ≠ some (me, q', p)) → ((t.entries q').lock = none ↔
        ∃ me p, s.givesUp a = some (me, q', p) ∧ s.LastRequest me q' p) := by
    intro t hl hnone
    refine iff_of_false (fun hn => ?_) ?_
    · rw [← hl, hn] at hsome
      cases hsome
    · rintro ⟨me, p, hgives, -⟩
      exact hnone me p hgives
  cases hs with
  | @acquired me q p cost memory utility room o e b ho hac =>
    by_cases hq : q' = q
    · subst hq
      rw [set_entries_self, hac.lock_eq_none_iff h ho hsome]
      simp only [givesUp]
      constructor
      · rintro ⟨hr, hlast⟩
        exact ⟨me, p, if_pos hr, hlast⟩
      · rintro ⟨_, _, hgives, hlast⟩
        split_ifs at hgives with hr
        cases hgives
        exact ⟨hr, hlast⟩
    · refine hsame (by rw [set_entries_of_ne hq]) fun me' p' hgives => ?_
      simp only [givesUp] at hgives
      split_ifs at hgives
      exact hq (by cases hgives; rfl)
  | @leaves _ me q p phase hactor hgives hphase hme hnew =>
    refine hsame ?_ fun me' p' heq => by rw [hgives] at heq; cases heq
    rw [State.set, update_eq_self]
  | @givenBack _ me q p e e' b b₁ hactor hgives ha hphase hrel hinc hkeep hwake =>
    by_cases hq : q' = q
    · subst hq
      obtain ⟨hl, -⟩ := hwake.lock hrel.entry.waiters_nodup (hrel.not_waits h)
      rw [set_entries_self, ← not_isSome_iff_eq_none, hl, not_isSome_iff_eq_none]
      rcases hrel.lock with ⟨hpl, hfull⟩ | ⟨hpl, rfl⟩
      · rw [if_pos hpl] at hgives
        rw [hrel.entry.lock_eq_none_iff hfull, hrel.granted, hrel.waiters, hgives]
        simp [LastRequest]
      · rw [hpl, if_neg (by simp)] at hgives
        exact hsame rfl fun _ _ heq => by rw [hgives] at heq; cases heq
    · refine hsame (by rw [set_entries_of_ne hq]) fun me' p' heq => ?_
      rw [hgives] at heq
      split_ifs at heq
      exact hq (by cases heq; rfl)
  | created | altered | dropped =>
    exact hsame lock_setQueue fun me p => by simp [givesUp]

/-- **A safe step leaves the lock entries exactly while they are needed.** -/
theorem Stepped.lockNeeded (h : Inv s) (hs : Stepped s a t) (hn : ∀ q, LockNeeded s q)
    (hsafe : ∀ q pid, (s.entries q).lock.isSome = true → (t.entries q).lock = none →
      a.actor ≠ some pid → ¬ (s.backends pid).phase.lingers q) (q' : κ) : LockNeeded t q' := by
  have ht := hs.inv h
  cases hs with
  | @acquired me q p cost memory utility room o e b ho hac =>
    have hphase := Acquired.phase ho utility hac
    obtain ⟨hsome, hnone⟩ := hac.lock h ho
    refine lockNeeded_set ht hn (fun q' p' hab => ?_) (fun q' p' hab => ?_) (fun hl => ?_)
      (fun hl => ?_) (fun hbefore hl pid hpid => ?_) q'
    · rw [ho.running] at hab
      exact absurd hab not_about_running
    · rw [hphase] at hab
      exact Outcome.about hab
    · rw [hphase]
      rcases hsome hl with h | h | h
      · exact .inl h
      · exact .inr (.inl h)
      · exact .inr (.inr (.inl h))
    · rw [hphase]
      exact hnone hl
    · exact hsafe q pid hbefore (by rwa [set_entries_self])
        fun heq => hpid (some.inj heq).symm
  | leaves hactor hgives hphase hme hnew => exact lockNeeded_leaves h ht hn hphase hme hnew q'
  | @givenBack _ me q p e e' b b₁ hactor hgives ha hb hrel hinc hkeep hwake =>
    refine lockNeeded_released ht h hn ha hrel hwake (fun q' p' hab => ?_) ?_
      (fun hbefore hl pid hpid => ?_) q'
    · rcases hb with hb | hb <;> rw [hb] at hab
      · exact absurd hab not_about_running
      · exact (about_failed hab).1
    · rcases hb with hb | hb <;> simp [hb, leavesProcLock]
    · refine hsafe q pid hbefore (by rwa [set_entries_self]) ?_
      rw [hactor]
      exact fun heq => hpid (some.inj heq).symm
  | created hqueue => exact lockNeeded_setQueue (hn q')
  | altered hqueue halter => exact lockNeeded_setQueue (hn q')
  | dropped hqueue hdrop => exact lockNeeded_setQueue (hn q')

end Lock

section Count

/-- The phase of a backend whose request was found to deadlock against itself, and
whose handler has not taken the portal back yet. -/
def Phase.selfDeadlocked (phase : Phase κ ρ) (q : κ) (p : ρ) : Bool :=
  match phase with
  | .failed q' p' .selfDeadlock => decide (q' = q ∧ p' = p)
  | _ => false

/-- The granted portals of a queue, without those granted only for the error
handler to take them back. -/
def State.grantedInUse (s : State π κ ρ) (q : κ) : ℕ :=
  (s.entries q).granted.countP fun g => !(s.backends g.1).phase.selfDeadlocked q g.2

/-- The statement limit of the queue holds, if it has one. -/
def CountBounded (s : State π κ ρ) (q : κ) : Prop :=
  ∀ queue threshold, (s.entries q).queue = some queue →
    queue.thresholdValue .count = some threshold → (s.grantedInUse q : ℚ) ≤ threshold

theorem ResQueue.count_le_of_ok {queue : ResQueue} {threshold : ℚ}
    (hok : queue.resLockCheckLimit inc = .ok)
    (hthreshold : queue.thresholdValue .count = some threshold) :
    queue.currentValue .count + inc .count ≤ threshold := by
  unfold resLockCheckLimit at hok
  split at hok
  · cases hok
  split_ifs at hok with hover
  simp only [Bool.or_eq_true, not_or, ResQueue.overLimit, ResQueue.exceeds, hthreshold, above,
    addCost, decide_eq_true_eq, not_lt] at hover
  exact hover.1.1

variable {e e' : Entry π ρ} {b : Backend κ ρ}

section

omit [DecidableEq π]

theorem State.grantedInUse_le {q : κ} (hsub : (t.entries q).granted.Sublist (s.entries q).granted)
    (hkeep : ∀ g ∈ (t.entries q).granted, (s.backends g.1).phase.selfDeadlocked q g.2 = true →
      (t.backends g.1).phase.selfDeadlocked q g.2 = true) :
    t.grantedInUse q ≤ s.grantedInUse q := by
  refine le_trans (countP_mono_left fun g hg hin => ?_) hsub.countP_le
  rw [Bool.not_eq_true', Bool.eq_false_iff] at hin ⊢
  exact fun hdead => hin (hkeep g hg hdead)

theorem Phase.about_of_selfDeadlocked {phase : Phase κ ρ}
    (h : phase.selfDeadlocked q p = true) : phase.about q p := by
  unfold Phase.selfDeadlocked at h
  split at h
  · obtain ⟨rfl, rfl⟩ := of_decide_eq_true h
    exact .inr ⟨_, rfl⟩
  · cases h

/-- A queue that is there afterwards was there before, with the same thresholds. -/
def SameThresholds (e e' : Entry π ρ) : Prop :=
  ∀ queue, e'.queue = some queue → ∃ queue₀, e.queue = some queue₀ ∧
    queue₀.thresholdValue = queue.thresholdValue

omit [DecidableEq ρ] in
theorem SameThresholds.of_eq (hqueue : e'.queue = e.queue) : SameThresholds e e' :=
  fun queue hq => ⟨queue, hqueue ▸ hq, rfl⟩

omit [DecidableEq ρ] in
theorem SameThresholds.update {grant : Bool}
    (hqueue : e'.queue = e.queue.map (·.resLockUpdateLimit inc grant)) : SameThresholds e e' := by
  intro queue hq
  rw [hqueue, map_eq_some_iff] at hq
  obtain ⟨queue₀, hq₀, rfl⟩ := hq
  exact ⟨queue₀, hq₀, rfl⟩

section

variable {q : κ} (hb : CountBounded s q)
include hb

theorem CountBounded.of_le (hqueue : SameThresholds (s.entries q) (t.entries q))
    (hle : t.grantedInUse q ≤ s.grantedInUse q) : CountBounded t q := by
  intro queue threshold hq hthreshold
  obtain ⟨queue₀, hq₀, heq⟩ := hqueue queue hq
  rw [← heq] at hthreshold
  exact le_trans (by exact_mod_cast hle) (hb queue₀ threshold hq₀ hthreshold)

/-- A step that leaves the queue alone and takes no portal back for a handler. -/
theorem CountBounded.congr (hentry : t.entries q = s.entries q)
    (hkeep : ∀ g : π × ρ, (s.backends g.1).phase.selfDeadlocked q g.2 = true →
      (t.backends g.1).phase.selfDeadlocked q g.2 = true) : CountBounded t q :=
  hb.of_le (.of_eq (by rw [hentry])) (grantedInUse_le (by rw [hentry]) fun g _ => hkeep g)

end

theorem CountBounded.of_ok {q : κ} {queue : ResQueue} {g : π × ρ}
    (hcount : queue.currentValue .count = e.granted.length) (hinc : inc .count = 1)
    (hok : queue.resLockCheckLimit inc = .ok) (hgranted : (t.entries q).granted = g :: e.granted)
    (hqueue : (t.entries q).queue = some (queue.resLockUpdateLimit inc true)) :
    CountBounded t q := by
  intro queue' threshold hq hthreshold
  rw [hqueue] at hq
  cases hq
  have hle := count_le_of_ok hok hthreshold
  rw [hcount, hinc] at hle
  refine le_trans ?_ hle
  have hlen : t.grantedInUse q ≤ e.granted.length + 1 := by
    refine le_trans countP_le_length ?_
    rw [hgranted, length_cons]
  exact_mod_cast hlen

theorem CountBounded.setQueue_of_ne {queue : Option ResQueue} (hb : CountBounded s q')
    (hq : q' ≠ q) : CountBounded (s.setQueue q queue) q' :=
  hb.congr (update_of_ne hq _ _) fun _ hdead => hdead

end

theorem CountBounded.set_of_ne (hb : CountBounded s q') (hq : q' ≠ q)
    (hold : ∀ q' p', (s.backends me).phase.about q' p' → q' = q) :
    CountBounded (s.set q e me b) q' := by
  refine hb.congr (set_entries_of_ne hq) fun g hdead => ?_
  by_cases hg : g.1 = me
  · rw [hg] at hdead
    exact absurd (hold q' g.2 (about_of_selfDeadlocked hdead)) hq
  · rwa [set_backends_of_ne hg]

theorem CountBounded.set (hb : CountBounded s q')
    (hold : ∀ q' p', (s.backends me).phase.about q' p' → q' = q)
    (hqueue : SameThresholds (s.entries q) e)
    (hle : (s.set q e me b).grantedInUse q ≤ s.grantedInUse q) :
    CountBounded (s.set q e me b) q' := by
  by_cases hq : q' = q
  · subst hq
    exact hb.of_le (by rwa [set_entries_self]) hle
  · exact hb.set_of_ne hq hold

theorem CountBounded.wakes (hb : CountBounded (s.set q e me b) q') (h : Inv (s.set q e me b))
    (hme : me ∉ e.waiters) (hwake : Wakes s me q e e') : CountBounded (s.set q e' me b) q' := by
  rcases hwake with ⟨rfl, -⟩ | hwake
  · exact hb
  refine (h.wakeup_rule (P := fun e => CountBounded (s.set q e me b) q') hme hb ?_ hwake).2
  intro e proc p inc queue he hbound _ hne _ hinc₀ _ hqueue hok
  by_cases hq : q' = q
  · subst hq
    have hcount : queue.currentValue .count = e.granted.length := by
      have hentry := (he.entry q').queue_some queue
      rw [set_entries_self] at hentry
      exact hentry hqueue
    have hinc : inc .count = 1 := by
      have hone := (he.backend proc).increments.count p inc
      rw [set_backends_of_ne hne] at hone
      exact hone hinc₀
    refine CountBounded.of_ok hcount hinc hok (g := (proc, p)) ?_ ?_
    · rw [set_entries_self]
      rfl
    · rw [set_entries_self]
      change e.queue.map _ = _
      rw [hqueue]
      rfl
  · refine hbound.congr ?_ fun _ hdead => hdead
    rw [set_entries_of_ne hq, set_entries_of_ne hq]

theorem CountBounded.released {b₁ : Backend κ ρ} (hb : CountBounded s q') (h : Inv s)
    (ha : ActsOn s me q p) (hrel : Released s me q p e b₁) (hwake : Wakes s me q e e')
    (ht : Inv (s.set q e me b)) : CountBounded (s.set q e' me b) q' := by
  refine (hb.set (fun q' p' hab => (ha.about q' p' hab).1) ?_ ?_).wakes ht (hrel.not_waits h) hwake
  · rcases hrel.queue with ⟨-, hsame⟩ | ⟨_, -, -, hsame⟩
    · exact .of_eq hsame
    · exact .update hsame
  refine grantedInUse_le ?_ fun g hg hdead => ?_
  · rw [set_entries_self, hrel.granted]
    exact erase_sublist
  rw [set_entries_self] at hg
  by_cases hme : g.1 = me
  · -- the portal of the handler itself has been taken back
    rw [hme] at hdead
    obtain ⟨-, hp⟩ := ha.about q g.2 (about_of_selfDeadlocked hdead)
    have heq : g = (me, p) := Prod.ext hme hp
    rw [hrel.granted, heq] at hg
    exact absurd hg (h.entry q).granted_nodup.not_mem_erase
  · rwa [set_backends_of_ne hme]

theorem CountBounded.acquired {o : Outcome} (utility : Bool) (hb : CountBounded s q') (h : Inv s)
    (ho : Opens s me p) (hinc : inc .count = 1)
    (hac : Acquired room me q p inc (s.entries q) (s.opened me q p) o e b) :
    CountBounded (s.set q e me (b.settle q p utility o)) q' := by
  have hold : ∀ q' p', (s.backends me).phase.about q' p' → q' = q := by
    intro q' p' hab
    rw [ho.running] at hab
    exact absurd hab not_about_running
  -- the backend was not in a self deadlock before
  have hkeep : ∀ g : π × ρ, (s.backends g.1).phase.selfDeadlocked q g.2 = true →
      ((s.set q e me (b.settle q p utility o)).backends g.1).phase.selfDeadlocked q g.2 = true := by
    intro g hdead
    by_cases hme : g.1 = me
    · rw [hme, ho.running] at hdead
      exact absurd hdead (by simp [Phase.selfDeadlocked])
    · rwa [set_backends_of_ne hme]
  have hplain : e.granted = (s.entries q).granted → e.queue = (s.entries q).queue →
      CountBounded (s.set q e me (b.settle q p utility o)) q' := by
    intro hg hqueue
    refine hb.set hold (.of_eq hqueue) (grantedInUse_le ?_ fun g _ => hkeep g)
    rw [set_entries_self, hg]
  cases hac with
  | noLock => exact hplain rfl rfl
  | noProcLock => exact hplain (by simp) (queue_dropLock _)
  | lingering => exact hplain rfl rfl
  | refused => exact hplain (by simp) (queue_collect _ _)
  | granted queue hqueue hcheck =>
    by_cases hq : q' = q
    · subst hq
      refine CountBounded.of_ok ((h.entry q').queue_some queue hqueue) hinc hcheck (g := (me, p)) ?_ ?_
      · rw [set_entries_self]
        rfl
      · rw [set_entries_self]
        change (s.entries q').queue.map _ = _
        rw [hqueue]
        rfl
    · exact hb.set_of_ne hq hold
  | deadlock queue hqueue hcheck hself =>
    refine hb.set hold (.update rfl) ?_
    -- the portal itself does not count
    rw [grantedInUse, set_entries_self, granted_grant, granted_entered, countP_cons,
      set_backends_self]
    simp only [Backend.settle, Phase.selfDeadlocked, and_self, decide_true, Bool.not_true,
      Bool.false_eq_true, if_false, Nat.add_zero]
    refine countP_mono_left fun g _ hin => ?_
    rw [Bool.not_eq_true', Bool.eq_false_iff] at hin ⊢
    exact fun hdead => hin (hkeep g hdead)
  | queued => exact hplain rfl rfl

/-- **Every step but `ALTER` respects the statement limit.** -/
theorem Stepped.countBounded (h : Inv s) (hs : Stepped s a t) (hb : CountBounded s q')
    (halter : ∀ settings, a ≠ .alterQueue q' settings) : CountBounded t q' := by
  cases hs with
  | acquired ho hac => exact hb.acquired _ h ho rfl hac
  | @leaves _ me q p phase hactor hgives hphase hme hnew =>
    refine hb.set (fun q' p' hab => ?_) (.of_eq rfl) (grantedInUse_le ?_
      fun g _ hdead => ?_)
    · rw [hphase] at hab
      exact (about_waiting hab).1
    · rw [set_entries_self]
    · by_cases hg : g.1 = me
      · rw [hg, hphase] at hdead
        exact absurd hdead (by simp [Phase.selfDeadlocked])
      · rwa [set_backends_of_ne hg]
  | givenBack hactor hgives ha hphase hrel hinc hkeep hwake =>
    exact hb.released h ha hrel hwake hkeep
  | @created q settings hqueue =>
    by_cases hq : q' = q
    · -- a new queue has nothing granted
      subst hq
      intro queue threshold hq hthreshold
      have hempty : (s.setQueue q' (some (resCreateQueue settings))).grantedInUse q' = 0 := by
        rw [grantedInUse, setQueue]
        dsimp only
        rw [update_self]
        rw [(h.entry q').queue_none hqueue, countP_nil]
      rw [setQueue] at hq
      dsimp only at hq
      rw [update_self] at hq
      cases hq
      rw [hempty]
      exact_mod_cast (settings.limits_pos .count threshold hthreshold).le
    · exact hb.setQueue_of_ne hq
  | @altered q settings _ _ hqueue halter' =>
    exact hb.setQueue_of_ne fun hq => halter settings (by rw [hq])
  | @dropped q _ hqueue hdrop =>
    by_cases hq : q' = q
    · subst hq
      intro queue threshold hq
      rw [setQueue] at hq
      exact absurd hq (by simp)
    · exact hb.setQueue_of_ne hq

end Count

/-- **The books are exact.** -/
structure Exact [Fintype π] (s : State π κ ρ) : Prop where
  /-- The counters of the lock. -/
  counters : ∀ q l, (s.entries q).lock = some l →
    l.nGranted = ∑ pid, ((s.entries q).procLocks pid).elim 0 ProcLock.nLocks ∧
    l.nGranted = (s.entries q).granted.length ∧
    l.nRequested = (s.entries q).granted.length + (s.entries q).waiters.length
  /-- Each granted and each waiting portal is counted once. -/
  distinct : ∀ q, (s.entries q).granted.Nodup ∧ (s.entries q).waiters.Nodup
  /-- The wait queue holds the sleepers that have not been granted. -/
  waiting : ∀ q pid, pid ∈ (s.entries q).waiters ↔
    ∃ p, (s.backends pid).phase = .waiting q p ∧ (pid, p) ∉ (s.entries q).granted
  /-- The count limit. -/
  count : ∀ q queue, (s.entries q).queue = some queue →
    queue.currentValue .count = (s.entries q).granted.length
  /-- The portal increments. -/
  increments : ∀ pid p, ((s.backends pid).increments p).isSome = true ↔
    ∃ q, (pid, p) ∈ (s.entries q).granted ∨
      pid ∈ (s.entries q).waiters ∧ (s.backends pid).phase = .waiting q p
  /-- The entries exist exactly while needed. -/
  lock : ∀ q, (s.entries q).lock.isSome = true ↔ (s.entries q).granted ≠ [] ∨
    (s.entries q).waiters ≠ [] ∨ ∃ pid, (s.backends pid).phase.lingers q
  procLock : ∀ q pid, ((s.entries q).procLocks pid).isSome = true ↔
    (∃ p, (pid, p) ∈ (s.entries q).granted) ∨ pid ∈ (s.entries q).waiters ∨
      (s.backends pid).phase.lingers q
  localLock : ∀ q pid, ((s.backends pid).localLocks q).isSome = true ↔
    (∃ p, (pid, p) ∈ (s.entries q).granted) ∨ pid ∈ (s.entries q).waiters ∨
      (s.backends pid).phase.lingersLocally q

omit [DecidableEq ρ] in
theorem sum_held [Fintype π] (e : Entry π ρ) : ∑ pid, e.held pid = e.granted.length := by
  unfold held
  induction e.granted with
  | nil => simp
  | cons g granted ih =>
    simp only [countP_cons, Finset.sum_add_distrib, ih, length_cons]
    simp

omit [DecidableEq κ] in
/-- Under the invariant it is only the lock entries that can be wrong. -/
theorem Inv.exact_iff [Fintype π] (h : Inv s) : Exact s ↔ ∀ q, LockNeeded s q := by
  refine ⟨fun hexact => hexact.lock, fun hn => ⟨fun q l hl => ?_, fun q => ?_, fun q pid => ?_,
    fun q => (h.entry q).queue_some, fun pid p => ?_, hn, fun q pid => ?_, fun q pid => ?_⟩⟩
  · obtain ⟨hgr, hreq⟩ := (h.entry q).lock_some l hl
    refine ⟨?_, hgr, by simpa using hreq⟩
    have hterm : ∀ pid, ((s.entries q).procLocks pid).elim 0 ProcLock.nLocks =
        ((s.entries q).held pid : ℤ) := by
      intro pid
      cases hpl : (s.entries q).procLocks pid with
      | some pl => exact ((h.entry q).procLock_some pid pl hpl).1
      | none =>
        have hnot := mt (fun hheld => ((h.entry q).procLock_isSome pid).2 (.inl hheld))
          (by rw [hpl]; simp)
        have hzero : (s.entries q).held pid = 0 := by omega
        rw [hzero]
        rfl
    rw [hgr, Finset.sum_congr rfl fun pid _ => hterm pid, ← Nat.cast_sum, sum_held]
  · exact ⟨(h.entry q).granted_nodup, (h.entry q).waiters_nodup⟩
  · exact (h.backend pid).waits q
  · rw [(h.backend pid).increments.isSome p]
    constructor
    · rintro (⟨q, hg⟩ | ⟨q, hphase⟩)
      · exact ⟨q, .inl hg⟩
      · by_cases hg : (pid, p) ∈ (s.entries q).granted
        · exact ⟨q, .inl hg⟩
        · exact ⟨q, .inr ⟨((h.backend pid).waits q).2 ⟨p, hphase, hg⟩, hphase⟩⟩
    · rintro ⟨q, hg | ⟨-, hphase⟩⟩
      · exact .inl ⟨q, hg⟩
      · exact .inr ⟨q, hphase⟩
  · rw [(h.entry q).procLock_isSome pid, held_pos]
  · exact (h.backend pid).localLocks.isSome q

/-- From a state with exact books, the books stay exact along a run exactly if
every step is safe. -/
theorem exact_along_iff [Fintype π] {as : List (Event π κ ρ)} (h : Inv s)
    (hn : ∀ q, LockNeeded s q) :
    (∀ bs, bs <+: as → ∀ t, run step s bs = some t → Exact t) ↔ Along step Safe s as := by
  induction as generalizing s with
  | nil =>
    refine ⟨fun _ => trivial, fun _ bs hbs t hrun => ?_⟩
    rw [prefix_nil.1 hbs] at hrun
    cases hrun
    exact h.exact_iff.2 hn
  | cons a as ih =>
    constructor
    · intro hexact
      have hafter : ∀ t, step s a = some t → ∀ q, LockNeeded t q := by
        intro t hstep
        refine (h.step hstep).exact_iff.1 (hexact [a] ?_ t ?_)
        · exact prefix_append [a] as
        · exact run_cons.2 ⟨t, hstep, rfl⟩
      refine fun t hstep => ⟨fun me q p hgives hlast pid hpid hlinger => ?_, ?_⟩
      · -- the `PROCLOCK` that is left still needs the lock
        have hstepped := step_spec h hstep
        have hnone := (hstepped.lock_eq_none_iff h
          ((hn q).2 (.inr (.inr ⟨pid, hlinger⟩)))).2 ⟨me, p, hgives, hlast⟩
        have hactor : a.actor ≠ some pid := by
          rw [actor_of_givesUp hgives]
          exact fun heq => hpid (some.inj heq).symm
        rw [← hstepped.backends_eq hactor] at hlinger
        have hsome := (hafter t hstep q).2 (.inr (.inr ⟨pid, hlinger⟩))
        rw [hnone] at hsome
        cases hsome
      · refine (ih (h.step hstep) (hafter t hstep)).1 fun bs hbs u hrun => ?_
        exact hexact (a :: bs) (cons_prefix_cons.2 ⟨rfl, hbs⟩) u (run_cons.2 ⟨t, hstep, hrun⟩)
    · intro halong bs hbs t hrun
      cases bs with
      | nil =>
        cases hrun
        exact h.exact_iff.2 hn
      | cons a' bs =>
        obtain ⟨rfl, hbs'⟩ := cons_prefix_cons.1 hbs
        obtain ⟨m, hstep, hrun⟩ := run_cons.1 hrun
        obtain ⟨hsafe, hrest⟩ := halong m hstep
        have hstepped := step_spec h hstep
        have hm : ∀ q, LockNeeded m q := hstepped.lockNeeded h hn fun q pid hsome hnone hactor => by
          obtain ⟨me, p, hgives, hlast⟩ := (hstepped.lock_eq_none_iff h hsome).1 hnone
          exact hsafe me q p hgives hlast pid fun heq => hactor (by rw [heq, actor_of_givesUp hgives])
        exact (ih (h.step hstep) hm).2 hrest bs hbs' t hrun

/-- **The books are exact in every state of a run exactly if no step gives up the last request that
is counted in a queue while another backend has left a `PROCLOCK` there; and with unchanged
limits the granted portals never exceed the count threshold**, apart from the one
that a self deadlock has granted for its handler to take back. -/
theorem bookkeeping_exact_iff_safe [Fintype π] (settings : κ → Option QueueSettings)
    (as : List (Event π κ ρ)) :
    ((∀ bs, bs <+: as → ∀ t, Machine.run step (initial settings) bs = some t → Exact t) ↔
      Machine.Along step Safe (initial settings) as) ∧
    ∀ t q, (∀ changed, Event.alterQueue q changed ∉ as) →
      Machine.run step (initial settings) as = some t → CountBounded t q := by
  have hinit : Inv (initial settings : State π κ ρ) := inv_initial settings
  refine ⟨exact_along_iff hinit fun q => ?_, fun t q halter hrun => ?_⟩
  · rw [LockNeeded]
    simp [initial, waiters]
  have hstart : CountBounded (initial settings : State π κ ρ) q := by
    intro queue threshold hq hthreshold
    obtain ⟨settings', -, rfl⟩ := map_eq_some_iff.1 hq
    exact_mod_cast (settings'.limits_pos .count threshold hthreshold).le
  have halong : Machine.Along step (fun _ a => ∀ changed, a ≠ .alterQueue q changed)
      (initial settings) as := along_of_forall fun a ha _ changed heq => halter changed (heq ▸ ha)
  refine (Machine.run_invariant_along (P := fun s => Inv s ∧ CountBounded s q) ?_ ⟨hinit, hstart⟩
    halong hrun).2
  rintro s a t ⟨hs, hb⟩ hcond hstep
  have hstepped := step_spec hs hstep
  exact ⟨hstepped.inv hs, hstepped.countBounded hs hb hcond⟩

theorem pos_of_noLimit (_ : ResLimitType) (limit : ℚ) (h : none = some limit) : 0 < limit :=
  nomatch h

/-- A queue without limits. -/
def noLimits : QueueSettings := ⟨fun _ => none, false, 0, pos_of_noLimit⟩

/-- One backend runs a statement; the acquisition of another fails for lack of
room for the increments; the first one finishes before the handler of the second
has run.  The lock entry is gone, and the `PROCLOCK` is left. -/
theorem lock_removed_under_procLock : ∃ t,
    Machine.run step (initial fun _ => some noLimits : State (Fin 2) Unit ℕ)
      [.acquire 0 () 0 1 0 false ⟨true, true, true⟩, .acquire 1 () 0 1 0 false ⟨true, true, false⟩,
        .release 0 0] = some t ∧ ¬ Exact t := by
  have hrun : (run step (initial fun _ => some noLimits : State (Fin 2) Unit ℕ)
      [.acquire 0 () 0 1 0 false ⟨true, true, true⟩, .acquire 1 () 0 1 0 false ⟨true, true, false⟩,
        .release 0 0]).map (fun t => ((t.entries ()).lock.isSome,
          ((t.entries ()).procLocks 1).isSome)) = some (false, true) := by
    decide +kernel
  obtain ⟨t, ht, heq⟩ := map_eq_some_iff.1 hrun
  obtain ⟨hlock, hprocLock⟩ := Prod.mk.inj heq
  refine ⟨t, ht, fun hexact => ?_⟩
  have hneeded := (hexact.lock ()).2 (by
    rcases (hexact.procLock () 1).1 hprocLock with ⟨p, hg⟩ | hw | hl
    · exact .inl (List.ne_nil_of_mem hg)
    · exact .inr (.inl (List.ne_nil_of_mem hw))
    · exact .inr (.inr ⟨1, hl⟩))
  rw [hlock] at hneeded
  cases hneeded

end Cloudberry.ResScheduler
