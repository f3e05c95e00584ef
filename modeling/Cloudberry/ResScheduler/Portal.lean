/-
# Acquiring and releasing a queue for a portal

`src/backend/utils/resscheduler/resqueue.c` and `resscheduler.c`, with `ResLockWaitCancel` of
`src/backend/storage/lmgr/proc.c`.

The shared state is one `Entry` for each queue id and the table of portal increments; each backend
has its own table of local locks and of portals. A step is one critical section (`Event`): an
acquisition goes up to the point where it returns, raises an error or goes to sleep, and a release
may come again for a portal already released. After an error a backend is in `failed` until its
handler has run; other backends may come in between.
-/

import Cloudberry.Lib.Machine
import Cloudberry.ResScheduler.Entry

namespace Cloudberry.ResScheduler

open Function

variable {π κ ρ : Type*}

/-- Where an acquisition failed, with the text of the error. -/
inductive ResLockError
  /-- "out of shared memory": no room for the `LOCK`. -/
  | lockOutOfSharedMemory
  /-- "out of shared memory": no room for the `PROCLOCK`. -/
  | procLockOutOfSharedMemory
  /-- "cannot find queue id %d". -/
  | queueGone
  /-- "out of shared memory adding portal increments". -/
  | incrementOutOfSharedMemory
  /-- "duplicate portal id %u for proc %d". -/
  | duplicatePortal
  /-- "statement requires more resources than resource queue allows". -/
  | tooLarge
  /-- "deadlock detected, locking against self". -/
  | selfDeadlock
  /-- The wait was interrupted. -/
  | cancelled
  /-- "ResLockAcquire failed": woken without a grant. -/
  | notHeld
  deriving DecidableEq, Repr

/-- The errors after which the `PROCLOCK` is left to the error handler. -/
def ResLockError.leavesProcLock : ResLockError → Bool
  | .queueGone | .incrementOutOfSharedMemory | .duplicatePortal => true
  | _ => false

/-- The errors after which the local lock is left to the error handler. -/
def ResLockError.leavesLocalLock : ResLockError → Bool
  | .lockOutOfSharedMemory | .procLockOutOfSharedMemory => true
  | err => err.leavesProcLock

/-- `LOCALLOCK`: whether its pointers to the shared entries are set. -/
structure LocalLock where
  lock : Bool
  procLock : Bool
  deriving DecidableEq, Repr

/-- Where a backend is: outside of `ResLockAcquire`, asleep in it for a portal
(`lockAwaited`, `waitPortalId`), or thrown out of it and before its handler's
release. -/
inductive Phase (κ ρ : Type*)
  | running
  | waiting (q : κ) (p : ρ)
  | failed (q : κ) (p : ρ) (err : ResLockError)

namespace Phase

/-- A failed acquisition has left its `PROCLOCK` of the queue to the handler. -/
def lingers (phase : Phase κ ρ) (q : κ) : Prop :=
  ∃ p err, phase = .failed q p err ∧ err.leavesProcLock = true

/-- A failed acquisition has left its local lock of the queue to the handler. -/
def lingersLocally (phase : Phase κ ρ) (q : κ) : Prop :=
  ∃ p err, phase = .failed q p err ∧ err.leavesLocalLock = true

@[simp] theorem not_lingers_running (q : κ) : ¬ (running : Phase κ ρ).lingers q := by
  rintro ⟨_, _, h, _⟩
  cases h

@[simp] theorem not_lingers_waiting (q q' : κ) (p : ρ) : ¬ (waiting q' p).lingers q := by
  rintro ⟨_, _, h, _⟩
  cases h

@[simp] theorem lingers_failed (q q' : κ) (p : ρ) (err : ResLockError) :
    (failed q' p err).lingers q ↔ q' = q ∧ err.leavesProcLock = true := by
  constructor
  · rintro ⟨_, _, h, herr⟩
    cases h
    exact ⟨rfl, herr⟩
  · rintro ⟨rfl, herr⟩
    exact ⟨p, err, rfl, herr⟩

@[simp] theorem not_lingersLocally_running (q : κ) : ¬ (running : Phase κ ρ).lingersLocally q := by
  rintro ⟨_, _, h, _⟩
  cases h

@[simp] theorem not_lingersLocally_waiting (q q' : κ) (p : ρ) :
    ¬ (waiting q' p).lingersLocally q := by
  rintro ⟨_, _, h, _⟩
  cases h

@[simp] theorem lingersLocally_failed (q q' : κ) (p : ρ) (err : ResLockError) :
    (failed q' p err).lingersLocally q ↔ q' = q ∧ err.leavesLocalLock = true := by
  constructor
  · rintro ⟨_, _, h, herr⟩
    cases h
    exact ⟨rfl, herr⟩
  · rintro ⟨rfl, herr⟩
    exact ⟨p, err, rfl, herr⟩

end Phase

/-- A backend: its local locks, its rows of the portal increment hash, its open
portals with their queue, and its phase. -/
structure Backend (κ ρ : Type*) where
  localLocks : κ → Option LocalLock
  increments : ρ → Option Increments
  portals : List (ρ × κ)
  phase : Phase κ ρ

/-- The state of the system. -/
structure State (π κ ρ : Type*) where
  entries : κ → Entry π ρ
  backends : π → Backend κ ρ

/-- Whether the shared tables have room for a new entry. -/
structure Room where
  lock : Bool
  procLock : Bool
  increment : Bool

/-- What `ResLockAcquire` comes to: `LOCKACQUIRE_OK`, `LOCKACQUIRE_NOT_AVAIL`,
asleep, or an error. -/
inductive Outcome
  | ok
  | notAvail
  | queued
  | error (err : ResLockError)

namespace Backend

/-- The portal the backend waits for, with its increments. -/
def waitingFor (b : Backend κ ρ) : Option (ρ × Increments) :=
  match b.phase with
  | .waiting _ p => (b.increments p).map (p, ·)
  | _ => none

section

variable [DecidableEq κ]

section

variable (b : Backend κ ρ) (q : κ)

def setLocalLock (l : LocalLock) : Backend κ ρ :=
  { b with localLocks := update b.localLocks q (some l) }

def removeLocalLock : Backend κ ρ :=
  { b with localLocks := update b.localLocks q none }

/-- The local lock stands for all portals of the backend in the queue: it goes
with the last one. -/
def removeLastLocalLock (procLock : Option ProcLock) : Backend κ ρ :=
  match procLock with
  | some pl => if pl.nLocks = 0 then b.removeLocalLock q else b
  | none => b

/-- The increments that `TotalResPortalIncrements` adds up: those of the open
portals of the queue, as far as they are found. -/
def ownIncrements : List Increments :=
  b.portals.filterMap fun portal => if portal.2 = q then b.increments portal.1 else none

end

end

section

variable [DecidableEq ρ]

def resIncrementRemove (b : Backend κ ρ) (p : ρ) : Backend κ ρ :=
  { b with increments := update b.increments p none }

/-- `ResIncrementAdd`: the error, if any, and the table after it. A duplicate
entry is removed. -/
def resIncrementAdd (b : Backend κ ρ) (room : Bool) (p : ρ) (inc : Increments) :
    Option ResLockError × Backend κ ρ :=
  match b.increments p with
  | some _ => (some .duplicatePortal, b.resIncrementRemove p)
  | none =>
    if room then (none, { b with increments := update b.increments p (some inc) })
    else (some .incrementOutOfSharedMemory, b)

/-- `portal->queueId = InvalidOid`, `portal->portalId = INVALID_PORTALID`. -/
def resetPortal (b : Backend κ ρ) (p : ρ) : Backend κ ρ :=
  { b with portals := b.portals.filter (·.1 ≠ p) }

end

end Backend

variable [DecidableEq π] [DecidableEq κ] [DecidableEq ρ]

/-- `ResLockAcquire` from the limit check on. -/
def resLockDecide (queue : ResQueue) (me : π) (q : κ) (p : ρ) (inc : Increments) (e : Entry π ρ)
    (b : Backend κ ρ) : Outcome × Entry π ρ × Backend κ ρ :=
  match queue.resLockCheckLimit inc with
  | .error =>
    (.error .tooLarge, e.unrequest.collect me,
      (b.removeLastLocalLock q (e.procLocks me)).resIncrementRemove p)
  | .ok => (.ok, e.grant me p inc, b)
  | .found =>
    if queue.resCheckSelfDeadLock (b.ownIncrements q) then
      -- the lock is granted so that the handler's release takes it back
      (.error .selfDeadlock,
        if (e.lock.any fun l => decide (l.nGranted < l.nRequested)) then e.grant me p inc else e, b)
    else (.queued, e.joinQueue me, b)

section

variable (room : Room) (me : π) (q : κ) (p : ρ) (inc : Increments) (e : Entry π ρ) (b : Backend κ ρ)

/-- `ResLockAcquire` once the entries are there and the request is counted. -/
def resLockRequest : Outcome × Entry π ρ × Backend κ ρ :=
  match e.queue with
  | none => (.error .queueGone, e.unrequest, b)
  | some queue =>
    if inc .cost < queue.ignoreCostLimit then
      (.notAvail, e.unrequest.collect me, b.removeLastLocalLock q (e.procLocks me))
    else
      match b.resIncrementAdd room.increment p inc with
      | (some err, b) => (.error err, e.unrequest, b)
      | (none, b) => resLockDecide queue me q p inc e b

/-- `ResLockAcquire` up to its return, its error or its sleep. -/
def resLockAcquire : Outcome × Entry π ρ × Backend κ ρ :=
  let localLock := (b.localLocks q).getD ⟨false, false⟩
  if e.lock.isNone && !room.lock then
    (.error .lockOutOfSharedMemory, e, b.setLocalLock q { localLock with lock := false })
  else if (e.procLocks me).isNone && !room.procLock then
    (.error .procLockOutOfSharedMemory, e.enterLock.dropLock, b.setLocalLock q ⟨true, false⟩)
  else
    resLockRequest room me q p inc (e.entered me) (b.setLocalLock q ⟨true, true⟩)

end

section

variable (waitingFor : π → Option (ρ × Increments)) (me : π) (q : κ) (p : ρ) (e : Entry π ρ) (b : Backend κ ρ)

/-- `ResLockRelease`. A local lock without pointers is removed, and nothing else
is done; a dangling pointer is not defined. -/
def resLockRelease : Option (Entry π ρ × Backend κ ρ) :=
  match b.localLocks q with
  | none => some (e, b)
  | some localLock =>
    if !localLock.lock || !localLock.procLock then some (e, b.removeLocalLock q)
    else
      match e.lock, e.procLocks me with
      | some _, some procLock =>
        if procLock.holdMask = false ∨ procLock.nLocks ≤ 0 then
          some (e.collect me, b.removeLocalLock q)
        else
          match b.increments p with
          | none =>
            (e.resCleanUpLock waitingFor me).map (·, b.removeLastLocalLock q (some procLock))
          | some inc =>
            if e.queue.isNone then none
            else
              let e := (e.resUnGrantLock me p).resLockUpdateLimit inc false
              (e.resCleanUpLock waitingFor me).map
                (·, (b.removeLastLocalLock q (e.procLocks me)).resIncrementRemove p)
      | _, _ => none

/-- `ResLockWaitCancel` of a backend asleep for the portal `p`, with
`ResRemoveFromWaitQueue`. A backend that has been granted in the meantime leaves
the grant to its handler. -/
def resLockWaitCancel : Option (Entry π ρ × Backend κ ρ) :=
  if me ∈ e.waiters then
    (((e.leaveQueue me).unrequest).resCleanUpLock waitingFor me).map
      (·, (b.removeLastLocalLock q (e.procLocks me)).resIncrementRemove p)
  else some (e, b)

end

/-- The settings of a queue, as `ResCreateQueue` and `ResAlterQueue` take them; the
commands accept positive limits only. -/
structure QueueSettings where
  limits : ResLimitType → Option ℚ
  overcommit : Bool
  ignoreLimit : ℚ
  limits_pos : ∀ i limit, limits i = some limit → 0 < limit

def resCreateQueue (settings : QueueSettings) : ResQueue :=
  ⟨settings.limits, fun _ => 0, settings.overcommit, settings.ignoreLimit⟩

/-- `ResAlterQueue`; `none` is `ALTERQUEUE_OVERCOMMITTED`: overcommit is not
turned off while the queue could be overcommitted. -/
def resAlterQueue (settings : QueueSettings) (queue : ResQueue) : Option ResQueue :=
  if (settings.limits .cost).isSome && !settings.overcommit && queue.overcommit &&
      decide ((1 : ℚ) / 10 < queue.currentValue .cost) then none
  else
    some { queue with
      thresholdValue := settings.limits
      overcommit := settings.overcommit
      ignoreCostLimit := settings.ignoreLimit }

/-- `ResDestroyQueue` removes a queue whose counters are all zero. -/
def resDestroyQueue (queue : ResQueue) : Bool :=
  decide (queue.currentValue .count = 0) && decide (queue.currentValue .cost = 0) &&
    decide (queue.currentValue .memory = 0)

/-- The critical sections. -/
inductive Event (π κ ρ : Type*)
  /-- `ResLockAcquire` for a new portal of cost and memory, called by
  `ResLockPortal` or by `ResLockUtilityPortal`. -/
  | acquire (me : π) (q : κ) (p : ρ) (cost memory : ℚ) (utility : Bool) (room : Room)
  /-- A sleeper has been woken and returns. -/
  | awakened (me : π)
  /-- A sleeper is interrupted: `ResLockWaitCancel`. -/
  | cancel (me : π)
  /-- The error handler's `ResLockRelease`. -/
  | handleError (me : π)
  /-- `ResUnLockPortal`. -/
  | release (me : π) (p : ρ)
  | createQueue (q : κ) (settings : QueueSettings)
  | alterQueue (q : κ) (settings : QueueSettings)
  | dropQueue (q : κ)

def Event.actor : Event π κ ρ → Option π
  | .acquire me .. | .awakened me | .cancel me | .handleError me | .release me _ => some me
  | .createQueue .. | .alterQueue .. | .dropQueue _ => none

namespace State

def set (s : State π κ ρ) (q : κ) (e : Entry π ρ) (me : π) (b : Backend κ ρ) : State π κ ρ :=
  ⟨update s.entries q e, update s.backends me b⟩

def setQueue (s : State π κ ρ) (q : κ) (queue : Option ResQueue) : State π κ ρ :=
  { s with entries := update s.entries q { s.entries q with queue := queue } }

def waitingFor (s : State π κ ρ) (pid : π) : Option (ρ × Increments) := (s.backends pid).waitingFor

end State

/-- `ResLockPortal` and `ResLockUtilityPortal` after `ResLockAcquire`: a statement
too small for the queue forgets its queue, a utility statement does not. -/
def Backend.settle (b : Backend κ ρ) (q : κ) (p : ρ) (utility : Bool) : Outcome → Backend κ ρ
  | .ok => b
  | .notAvail => if utility then b else b.resetPortal p
  | .queued => { b with phase := .waiting q p }
  | .error err => { b with phase := .failed q p err }

/-- The portal with this id, for a backend that is not inside `ResLockAcquire`. -/
def Backend.runningPortal (b : Backend κ ρ) (p : ρ) : Option κ :=
  match b.phase with
  | .running => (b.portals.find? (·.1 = p)).map Prod.snd
  | _ => none

def step (s : State π κ ρ) : Event π κ ρ → Option (State π κ ρ)
  | .acquire me q p cost memory utility room =>
    match (s.backends me).phase with
    | .running =>
      if p ∈ (s.backends me).portals.map Prod.fst then none
      else
        let b := s.backends me
        let r := resLockAcquire room me q p (portalIncrements cost memory) (s.entries q)
          { b with portals := (p, q) :: b.portals }
        some (s.set q r.2.1 me (r.2.2.settle q p utility r.1))
    | _ => none
  | .awakened me =>
    match (s.backends me).phase with
    | .waiting q p =>
      if me ∈ (s.entries q).waiters then none
      else
        let held := ((s.entries q).procLocks me).any ProcLock.holdMask
        some (s.set q (s.entries q) me
          { s.backends me with phase := if held then .running else .failed q p .notHeld })
    | _ => none
  | .cancel me =>
    match (s.backends me).phase with
    | .waiting q p =>
      (resLockWaitCancel s.waitingFor me q p (s.entries q) (s.backends me)).map fun r =>
        s.set q r.1 me { r.2 with phase := .failed q p .cancelled }
    | _ => none
  | .handleError me =>
    match (s.backends me).phase with
    | .failed q p _ =>
      (resLockRelease s.waitingFor me q p (s.entries q) (s.backends me)).map fun r =>
        s.set q r.1 me { r.2.resetPortal p with phase := .running }
    | _ => none
  | .release me p =>
    match (s.backends me).runningPortal p with
    | some q =>
      (resLockRelease s.waitingFor me q p (s.entries q) (s.backends me)).map fun r =>
        s.set q r.1 me r.2
    | none => none
  | .createQueue q settings =>
    match (s.entries q).queue with
    | none => some (s.setQueue q (some (resCreateQueue settings)))
    | some _ => none
  | .alterQueue q settings =>
    match (s.entries q).queue with
    | none => none
    | some queue => (resAlterQueue settings queue).map fun queue => s.setQueue q (some queue)
  | .dropQueue q =>
    match (s.entries q).queue with
    | none => none
    | some queue => if resDestroyQueue queue then some (s.setQueue q none) else none

/-- Nothing is used yet; the queues that exist have the given settings. -/
def initial (settings : κ → Option QueueSettings) : State π κ ρ where
  entries q := ⟨(settings q).map resCreateQueue, none, fun _ => none, []⟩
  backends _ := ⟨fun _ => none, fun _ => none, [], .running⟩

end Cloudberry.ResScheduler
