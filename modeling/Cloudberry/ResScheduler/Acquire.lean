/-
# What an acquisition can do

`Acquired` lists the outcomes of `ResLockAcquire` for a new portal, each with
what it leaves behind: nothing when the request is refused, the local lock when
the lock tables are full, the `PROCLOCK` as well when the queue is gone or the
increments cannot be stored, and the granted or the waiting portal. Every one
keeps the invariant.
-/

import Cloudberry.ResScheduler.Invariant

namespace Cloudberry.ResScheduler

open Entry Function Backend Option State ResLockError Phase

variable {π κ ρ : Type*} [DecidableEq π] [DecidableEq κ] [DecidableEq ρ]

/-- The local lock complete and the increments of the portal added. -/
def Backend.entered (b : Backend κ ρ) (q : κ) (p : ρ) (inc : Increments) : Backend κ ρ :=
  { b.setLocalLock q ⟨true, true⟩ with increments := update b.increments p (some inc) }

/-- The request is turned away at once, and what it has entered is tidied up: there is no room for
the `PROCLOCK`, the statement is too small for the queue, or it asks for more than the queue will
ever have. -/
def Entry.refuses (e : Entry π ρ) (room : Room) (me : π) (inc : Increments) : Bool :=
  ((e.procLocks me).isNone && !room.procLock) ||
    e.queue.any fun queue => decide (inc .cost < queue.ignoreCostLimit) ||
      (room.increment && decide (queue.resLockCheckLimit inc = .error))

/-- **What an acquisition of a new portal can come to.** -/
inductive Acquired (room : Room) (me : π) (q : κ) (p : ρ) (inc : Increments) (e : Entry π ρ)
    (b : Backend κ ρ) : Outcome → Entry π ρ → Backend κ ρ → Prop
  | noLock (l : LocalLock) (hlock : e.lock = none) (hl : l ≠ ⟨true, true⟩) :
    Acquired room me q p inc e b (.error .lockOutOfSharedMemory) e (b.setLocalLock q l)
  | noProcLock (hprocLock : e.procLocks me = none) (hrefuses : e.refuses room me inc = true) :
    Acquired room me q p inc e b (.error .procLockOutOfSharedMemory) e.enterLock.dropLock
      (b.setLocalLock q ⟨true, false⟩)
  | lingering (err : ResLockError) (herr : err.leavesProcLock = true)
      (hrefuses : e.refuses room me inc = false) :
    Acquired room me q p inc e b (.error err) (e.entered me).unrequest
      (b.setLocalLock q ⟨true, true⟩)
  | refused (o : Outcome) (ho : o = .notAvail ∨ o = .error .tooLarge)
      (hrefuses : e.refuses room me inc = true) :
    Acquired room me q p inc e b o ((e.entered me).unrequest.collect me)
      ((b.setLocalLock q ⟨true, true⟩).removeLastLocalLock q ((e.entered me).procLocks me))
  | granted (queue : ResQueue) (hqueue : e.queue = some queue)
      (hcheck : queue.resLockCheckLimit inc = .ok) (hrefuses : e.refuses room me inc = false) :
    Acquired room me q p inc e b .ok ((e.entered me).grant me p inc) (b.entered q p inc)
  | deadlock (queue : ResQueue) (hqueue : e.queue = some queue)
      (hcheck : queue.resLockCheckLimit inc = .found)
      (hself : queue.resCheckSelfDeadLock ((b.entered q p inc).ownIncrements q) = true)
      (hrefuses : e.refuses room me inc = false) :
    Acquired room me q p inc e b (.error .selfDeadlock) ((e.entered me).grant me p inc)
      (b.entered q p inc)
  | queued (queue : ResQueue) (hqueue : e.queue = some queue)
      (hcheck : queue.resLockCheckLimit inc = .found)
      (hself : queue.resCheckSelfDeadLock ((b.entered q p inc).ownIncrements q) = false)
      (hrefuses : e.refuses room me inc = false) :
    Acquired room me q p inc e b .queued ((e.entered me).joinQueue me) (b.entered q p inc)

section Acquire

variable {me : π} {q : κ} {p : ρ} {inc : Increments} {e : Entry π ρ} {b : Backend κ ρ}
  {extra : π → Prop}

theorem Backend.removeLastLocalLock_resIncrementRemove (hnew : b.increments p = none)
    (procLock : Option ProcLock) :
    ((b.entered q p inc).removeLastLocalLock q procLock).resIncrementRemove p =
      (b.setLocalLock q ⟨true, true⟩).removeLastLocalLock q procLock := by
  have hback : update (update b.increments p (some inc)) p none = b.increments := by
    rw [update_idem, ← hnew, update_eq_self]
  unfold removeLastLocalLock
  cases procLock with
  | none => simp only [resIncrementRemove, entered, setLocalLock, hback]
  | some pl =>
    dsimp only
    split <;> simp [resIncrementRemove, entered, setLocalLock, removeLocalLock, hback]

omit [DecidableEq ρ] in
theorem entered_granted_lt_requested (he : EntryOk 0 extra e) :
    ((e.entered me).lock.any fun l => decide (l.nGranted < l.nRequested)) = true := by
  have hentered : EntryOk 1 (fun pid => pid = me ∨ extra pid) (e.entered me) := he.enter me
  obtain ⟨l, hl⟩ := hentered.lock_isSome (.inr one_ne_zero)
  obtain ⟨hgr, hreq⟩ := hentered.lock_some l hl
  simp only [hl, any_some, decide_eq_true_eq]
  omega

theorem resLockDecide_spec {room : Room} {queue : ResQueue} (hnew : b.increments p = none)
    (he : EntryOk 0 extra e) (hqueue : e.queue = some queue)
    (hrefuses : e.refuses room me inc = decide (queue.resLockCheckLimit inc = .error))
    {r : Outcome × Entry π ρ × Backend κ ρ}
    (hr : resLockDecide queue me q p inc (e.entered me) (b.entered q p inc) = r) :
    Acquired room me q p inc e b r.1 r.2.1 r.2.2 := by
  subst hr
  unfold resLockDecide
  split
  next hcheck =>
    rw [removeLastLocalLock_resIncrementRemove hnew]
    exact .refused _ (.inr rfl) (by rw [hrefuses, hcheck]; rfl)
  next hcheck => exact .granted queue hqueue hcheck (by rw [hrefuses, hcheck]; rfl)
  next hcheck =>
    rw [if_pos (entered_granted_lt_requested he)]
    split
    · exact .deadlock queue hqueue hcheck ‹_› (by rw [hrefuses, hcheck]; rfl)
    · exact .queued queue hqueue hcheck (Bool.eq_false_iff.2 ‹_›) (by rw [hrefuses, hcheck]; rfl)

theorem resLockAcquire_spec {room : Room} (hnew : b.increments p = none) (he : EntryOk 0 extra e)
    {r : Outcome × Entry π ρ × Backend κ ρ} (hr : resLockAcquire room me q p inc e b = r) :
    Acquired room me q p inc e b r.1 r.2.1 r.2.2 := by
  unfold resLockAcquire at hr
  split at hr
  next hfull =>
    subst hr
    rw [Bool.and_eq_true, isNone_iff_eq_none] at hfull
    exact .noLock _ hfull.1 (by simp)
  split at hr
  next hfull =>
    subst hr
    refine .noProcLock ?_ (by simp only [Entry.refuses, hfull, Bool.true_or])
    rw [Bool.and_eq_true, isNone_iff_eq_none] at hfull
    exact hfull.1
  next hfull =>
    rw [Bool.not_eq_true] at hfull
    unfold resLockRequest at hr
    split at hr
    next hqueue =>
      subst hr
      rw [queue_entered] at hqueue
      exact .lingering _ rfl (by simp [Entry.refuses, hfull, hqueue])
    next queue hqueue =>
      rw [queue_entered] at hqueue
      split at hr
      next hsmall =>
        subst hr
        exact .refused _ (.inl rfl) (by simp [Entry.refuses, hqueue, hsmall])
      next hsmall =>
        have hadd : (b.setLocalLock q ⟨true, true⟩).increments p = none := hnew
        simp only [resIncrementAdd, hadd] at hr
        cases hroom : room.increment with
        | false =>
          simp only [hroom, Bool.false_eq_true, if_false] at hr
          subst hr
          exact .lingering _ rfl (by simp [Entry.refuses, hfull, hqueue, hsmall, hroom])
        | true =>
          simp only [hroom, if_true] at hr
          exact resLockDecide_spec hnew he hqueue
            (by simp [Entry.refuses, hfull, hqueue, hsmall, hroom]) hr

end Acquire

section Keep

variable {s : State π κ ρ} {me : π} {q : κ} {p : ρ}

/-- A backend that is not inside an acquisition and opens a new portal. -/
structure Opens (s : State π κ ρ) (me : π) (p : ρ) : Prop where
  running : (s.backends me).phase = .running
  fresh : p ∉ (s.backends me).portals.map Prod.fst

def State.opened (s : State π κ ρ) (me : π) (q : κ) (p : ρ) : Backend κ ρ :=
  { s.backends me with portals := (p, q) :: (s.backends me).portals }

variable {b : Backend κ ρ} {inc : Increments} {e : Entry π ρ} {room : Room}

namespace Opens

variable (ho : Opens s me p) (h : Inv s)

include ho h

section

omit [DecidableEq κ] [DecidableEq ρ]

theorem not_granted (q' : κ) : ¬ s.grantedTo me q' p :=
  fun hg => ho.fresh (List.mem_map_of_mem ((h.backend me).portals.granted q' p hg))

theorem not_waits (q' : κ) : me ∉ (s.entries q').waiters := by
  intro hw
  obtain ⟨_, hphase, -⟩ := ((h.backend me).waits q').1 hw
  rw [ho.running] at hphase
  cases hphase

theorem increments_none : (s.backends me).increments p = none := by
  rw [← not_isSome_iff_eq_none, (h.backend me).increments.isSome p]
  rintro (⟨q', hg⟩ | ⟨q', hphase⟩)
  · exact ho.not_granted h q' hg
  · rw [ho.running] at hphase
    cases hphase

theorem localLock_isSome : ((s.backends me).localLocks q).isSome = true ↔ ∃ p, s.grantedTo me q p := by
  rw [(h.backend me).localLocks.isSome q]
  simp [ho.running, waitsIn, ho.not_waits h q]

theorem localLock_complete :
    (s.backends me).localLocks q = some ⟨true, true⟩ ↔ ∃ p, s.grantedTo me q p := by
  rw [(h.backend me).localLocks.complete q]
  simp [ho.running, waitsIn, ho.not_waits h q]

theorem entry : EntryOk 0 (fun pid => pid ≠ me ∧ (s.backends pid).phase.lingers q) (s.entries q) := by
  refine (h.entry q).congr_extra fun pid => ?_
  by_cases hpid : pid = me
  · subst hpid
    simp [ho.running]
  · simp [hpid]

end

theorem keep {v : Option Increments} {w : Option LocalLock} (hm : Moved s q p me e b v w)
    (hportals : b.portals = (p, q) :: (s.backends me).portals) : Inv (s.set q e me b) := by
  refine h.update hm ?_ (fun q' _ => ho.not_granted h q') ?_
  · rintro q' p' (ha | ⟨err, ha⟩) <;> rw [ho.running] at ha <;> cases ha
  rw [hportals]
  refine (h.backend me).portals.cons ho.fresh (fun q' p' hg => ?_) hm.about
  by_cases heq : q' = q ∧ p' = p
  · exact .inr heq
  · exact .inl ((grantedTo_set_iff hm.granted (.inr (not_and_or.1 heq))).1 hg)

variable {phase : Phase κ ρ}

theorem keep_granted {queue : ResQueue} (hinc : inc .count = 1)
    (hqueue : (s.entries q).queue = some queue)
    (hphase : phase = .running ∨ phase = .failed q p .selfDeadlock) :
    Inv (s.set q (((s.entries q).entered me).grant me p inc) me
      { (s.opened me q p).entered q p inc with phase := phase }) := by
  have henter : EntryOk 1 _ ((s.entries q).entered me) := (ho.entry h).enter me
  have hgrant := henter.grant (ho.not_granted h q)
    ((henter.procLock_isSome me).2 (.inr (.inr (.inl rfl)))) (by simp [hqueue]) hinc
  refine ho.keep h (v := some inc) (w := some ⟨true, true⟩)
    ⟨?_, ?_, ?_, ?_, rfl, ?_, ?_, rfl, ?_, ?_, ?_, ?_⟩ rfl
  · refine hgrant.congr_extra fun pid => ?_
    by_cases hpid : pid = me
    · subst hpid
      have hheld : 0 < (((s.entries q).entered pid).grant pid p inc).held pid :=
        held_pos.2 ⟨p, List.mem_cons_self⟩
      exact ⟨fun _ => .inl hheld, fun _ => .inl hheld⟩
    · simp [hpid]
  · intro g hg
    rw [granted_grant, List.mem_cons, or_iff_right hg, granted_entered]
  · simp
  · rintro _ _ ha
    rcases hphase with rfl | rfl
    · exact absurd ha not_about_running
    · exact about_failed ha
  · simp
  · rintro _ ⟨⟩
    exact hinc
  · simp
  · simp
  · simp [ho.not_waits h q]
  · simp

omit [DecidableEq ρ] in
theorem removeLastLocalLock_eq :
    ((s.opened me q p).setLocalLock q ⟨true, true⟩).removeLastLocalLock q
      (((s.entries q).entered me).procLocks me) = s.opened me q p := by
  have hsome : ((s.entries q).entered me).procLocks me =
      some (((s.entries q).procLocks me).getD ⟨0, false⟩) := by
    simp [Entry.entered, enterProcLock, enterLock, request]
  have hentry : EntryOk 0 _ (s.entries q) := ho.entry h
  have hiff := hentry.procLock_isSome me
  simp only [ho.not_waits h q, ne_eq, not_true_eq_false, false_and, or_false] at hiff
  rw [hsome]
  cases hpl : (s.entries q).procLocks me with
  | none =>
    have hnone : (s.backends me).localLocks q = none := by
      rw [← not_isSome_iff_eq_none, ho.localLock_isSome h]
      intro hg
      have hheld := hiff.2 (held_pos.2 hg)
      rw [hpl] at hheld
      cases hheld
    have hback : update (s.backends me).localLocks q none = (s.backends me).localLocks := by
      rw [← hnone, update_eq_self]
    simp [removeLastLocalLock, removeLocalLock, setLocalLock, opened, hback]
  | some pl =>
    have hheld : 0 < (s.entries q).held me := hiff.1 (by rw [hpl]; rfl)
    have hn : pl.nLocks ≠ 0 := by
      rw [(hentry.procLock_some me pl hpl).1]
      omega
    have hcomplete : (s.backends me).localLocks q = some ⟨true, true⟩ :=
      (ho.localLock_complete h).2 (held_pos.1 hheld)
    have hback : update (s.backends me).localLocks q (some ⟨true, true⟩) =
        (s.backends me).localLocks := by
      rw [← hcomplete, update_eq_self]
    simp [removeLastLocalLock, setLocalLock, opened, hn, hback]

omit [DecidableEq κ] [DecidableEq ρ] in
theorem refused_entry (hphase : ¬ phase.lingers q) :
    EntryOk 0 (fun pid => (pid = me ∧ phase.lingers q) ∨
      (pid ≠ me ∧ (s.backends pid).phase.lingers q)) (((s.entries q).entered me).unrequest.collect me) ∧
    (((s.entries q).entered me).unrequest.collect me).waiters = (s.entries q).waiters := by
  have hgiven : EntryOk 0 _ ((s.entries q).entered me).unrequest := ((ho.entry h).enter me).unrequest
  have hW : me ∉ ((s.entries q).entered me).unrequest.waiters := by
    simpa using ho.not_waits h q
  refine ⟨(hgiven.collect hW).congr_extra fun pid => ?_, ?_⟩
  · simp only [hphase]
    tauto
  · rw [hgiven.waiters_collect hW, waiters_unrequest, waiters_entered]

theorem keep_refused (hphase : phase = .running ∨ phase = .failed q p .tooLarge) :
    Inv (s.set q (((s.entries q).entered me).unrequest.collect me) me
      { s.opened me q p with phase := phase }) := by
  obtain ⟨hnot, hlocally, hwaiting, hdead, habout⟩ := clean hphase (.inr rfl)
  obtain ⟨he, hwaiters⟩ := ho.refused_entry h hnot
  have hG : (me, p) ∉ (s.entries q).granted := ho.not_granted h q
  have hW := ho.not_waits h q
  refine ho.keep h (v := none) (w := (s.backends me).localLocks q)
    ⟨he, ?_, ?_, habout, ?_, ?_, ?_, ?_, ?_, ?_, ?_, ?_⟩ rfl
  · simp
  · simp [hwaiters]
  · rw [← ho.increments_none h, update_eq_self]
    rfl
  · simp [hG, hwaiting]
  · simp
  · rw [update_eq_self]
    rfl
  · rw [ho.localLock_complete h]
    simp [hwaiters, hW, hnot, grantedTo]
  · rw [ho.localLock_isSome h]
    simp [hwaiters, hW, hlocally, grantedTo]
  · simp [hwaiters, hW, hwaiting]
  · simp [hdead]

theorem keep_reset : Inv (s.set q (((s.entries q).entered me).unrequest.collect me) me
      ((s.opened me q p).resetPortal p)) := by
  have hrun : ((s.opened me q p).resetPortal p).phase = .running := ho.running
  have hnot : ¬ ((s.opened me q p).resetPortal p).phase.lingers q := by simp [hrun]
  obtain ⟨he, hwaiters⟩ := ho.refused_entry h hnot
  have hG : (me, p) ∉ (s.entries q).granted := ho.not_granted h q
  have hW := ho.not_waits h q
  have hgranted : ∀ g, g ≠ (me, p) →
      (g ∈ (((s.entries q).entered me).unrequest.collect me).granted ↔
        g ∈ (s.entries q).granted) := by
    simp
  refine h.update (v := none) (w := (s.backends me).localLocks q)
    ⟨he, hgranted, ?_, ?_, ?_, ?_, ?_, ?_, ?_, ?_, ?_, ?_⟩ ?_ (fun q' _ => ho.not_granted h q') ?_
  · simp [hwaiters]
  · rintro q' p' ha
    rw [hrun] at ha
    exact absurd ha not_about_running
  · rw [← ho.increments_none h, update_eq_self]
    rfl
  · simp [hG, hrun]
  · simp
  · rw [update_eq_self]
    rfl
  · rw [ho.localLock_complete h, hrun]
    simp [hwaiters, hW, grantedTo]
  · rw [ho.localLock_isSome h, hrun]
    simp [hwaiters, hW, grantedTo]
  · simp [hwaiters, hW, hrun]
  · simp [hrun]
  · rintro q' p' ha
    rw [ho.running] at ha
    exact absurd ha not_about_running
  · have hportals : ((s.opened me q p).resetPortal p).portals =
        (s.backends me).portals.filter (·.1 ≠ p) := by
      simp [resetPortal, opened]
    rw [hrun, hportals]
    refine (h.backend me).portals.reset fun q' p' hg => ?_
    have hp : p' ≠ p := by
      rintro rfl
      by_cases hq : q' = q
      · subst hq
        exact hG (by simpa [grantedTo] using hg)
      · exact ho.not_granted h q' ((grantedTo_set_iff hgranted (.inr (.inl hq))).1 hg)
    exact ⟨(grantedTo_set_iff hgranted (.inr (.inr hp))).1 hg, hp⟩

end Opens

omit [DecidableEq ρ] in
theorem Backend.removeLastLocalLock_phase (b : Backend κ ρ) (procLock : Option ProcLock) :
    (b.removeLastLocalLock q procLock).phase = b.phase := by
  unfold removeLastLocalLock
  split
  · split <;> rfl
  · rfl

def Outcome.phase (q : κ) (p : ρ) : Outcome → Phase κ ρ
  | .ok | .notAvail => .running
  | .queued => .waiting q p
  | .error err => .failed q p err

theorem Acquired.phase (ho : Opens s me p) {o : Outcome} (utility : Bool)
    (hac : Acquired room me q p inc (s.entries q) (s.opened me q p) o e b) :
    (b.settle q p utility o).phase = o.phase q p := by
  have hb : b.phase = .running := by
    cases hac with
    | refused => exact (removeLastLocalLock_phase _ _).trans ho.running
    | _ => exact ho.running
  cases o with
  | ok => exact hb
  | notAvail => cases utility <;> exact hb
  | queued => rfl
  | error err => rfl

/-- **Every outcome of an acquisition keeps the invariant.** -/
theorem Inv.acquired (h : Inv s) (ho : Opens s me p) (hinc : inc .count = 1) {o : Outcome}
    (utility : Bool) (hac : Acquired room me q p inc (s.entries q) (s.opened me q p) o e b) :
    Inv (s.set q e me (b.settle q p utility o)) := by
  have hW := ho.not_waits h q
  have hG : (me, p) ∉ (s.entries q).granted := ho.not_granted h q
  have hentry : EntryOk 0 _ (s.entries q) := ho.entry h
  have hback : Function.update (s.backends me).increments p none = (s.backends me).increments := by
    rw [← ho.increments_none h, update_eq_self]
  cases hac with
  | noLock l hlock hl =>
    have hempty : (s.entries q).granted = [] := (hentry.lock_none hlock).1
    refine ho.keep h (v := none) (w := some l) ⟨?_, fun _ _ => Iff.rfl, fun _ _ => Iff.rfl,
      fun _ _ => about_failed, ?_, ?_, ?_, rfl, ?_, ?_, ?_, ?_⟩ rfl
    · exact hentry.congr_extra fun pid => by simp [settle, leavesProcLock]
    · exact hback.symm
    · simp [settle, hempty]
    · simp
    · simp [settle, hempty, hW, hl, leavesProcLock]
    · simp [settle, leavesLocalLock]
    · simp [settle, hW]
    · simp [settle]
  | noProcLock hprocLock =>
    have hnone : ¬ ∃ p', (me, p') ∈ (s.entries q).granted := by
      rw [← held_pos]
      intro hheld
      have hsome := (hentry.procLock_isSome me).2 (.inl hheld)
      rw [hprocLock] at hsome
      cases hsome
    have hwaiters : (s.entries q).enterLock.dropLock.waiters = (s.entries q).waiters := by
      rw [hentry.enterLock.waiters_dropLock, waiters_enterLock]
    refine ho.keep h (v := none) (w := some ⟨true, false⟩)
      ⟨?_, ?_, ?_, fun _ _ => about_failed, ?_, ?_, ?_, rfl, ?_, ?_, ?_, ?_⟩ rfl
    · exact hentry.enterLock.dropLock.congr_extra fun pid => by
        simp [settle, leavesProcLock]
    · simp
    · simp [hwaiters]
    · exact hback.symm
    · simp [settle, hG]
    · simp
    · simpa [settle, hwaiters, hW, leavesProcLock] using hnone
    · simp [settle, leavesLocalLock]
    · simp [settle, hwaiters, hW]
    · simp [settle]
  | lingering err herr =>
    have herr' : err.leavesLocalLock = true := by
      cases err <;> first | rfl | cases herr
    refine ho.keep h (v := none) (w := some ⟨true, true⟩)
      ⟨?_, ?_, ?_, fun _ _ => about_failed, ?_, ?_, ?_, rfl, ?_, ?_, ?_, ?_⟩ rfl
    · exact (hentry.enter me).unrequest.congr_extra fun pid => by simp [settle, herr]
    · simp
    · simp
    · exact hback.symm
    · simp [settle, hG]
    · simp
    · simp [settle, herr]
    · simp [settle, herr']
    · simp [settle, hW]
    · rintro ⟨⟩
      cases herr
  | refused o ho' =>
    rw [ho.removeLastLocalLock_eq h]
    rcases ho' with rfl | rfl
    · cases utility with
      | true =>
        have hb : (s.opened me q p).settle q p true .notAvail =
            { s.opened me q p with phase := .running } := by
          rw [← ho.running]
          rfl
        rw [hb]
        exact ho.keep_refused h (.inl rfl)
      | false => exact ho.keep_reset h
    · exact ho.keep_refused h (.inr rfl)
  | granted queue hqueue hcheck =>
    have hb : ((s.opened me q p).entered q p inc).settle q p utility .ok =
        { (s.opened me q p).entered q p inc with phase := .running } := by
      rw [← ho.running]
      rfl
    rw [hb]
    exact ho.keep_granted h hinc hqueue (.inl rfl)
  | deadlock queue hqueue hcheck hself => exact ho.keep_granted h hinc hqueue (.inr rfl)
  | queued queue hqueue hcheck hself =>
    have henter : EntryOk 1 _ ((s.entries q).entered me) := hentry.enter me
    obtain ⟨l, hl⟩ := henter.lock_isSome (.inr one_ne_zero)
    have hwaiters : (((s.entries q).entered me).joinQueue me).waiters =
        (s.entries q).waiters ++ [me] := by
      rw [waiters_joinQueue _ _ hl, waiters_entered]
    have hjoin := henter.joinQueue (by rwa [waiters_entered])
      ((henter.procLock_isSome me).2 (.inr (.inr (.inl rfl))))
    refine ho.keep h (v := some inc) (w := some ⟨true, true⟩)
      ⟨?_, ?_, ?_, fun _ _ => about_waiting, rfl, ?_, ?_, rfl, ?_, ?_, ?_, ?_⟩ rfl
    · refine hjoin.congr_extra fun pid => ?_
      by_cases hpid : pid = me
      · subst hpid
        simp [hwaiters]
      · simp [hpid]
    · simp
    · intro pid hpid
      simp [hwaiters, hpid]
    · simp [settle]
    · rintro _ ⟨⟩
      exact hinc
    · simp [hwaiters]
    · simp [hwaiters]
    · simp [settle, hwaiters, hG]
    · simp [settle]

end Keep

end Cloudberry.ResScheduler
