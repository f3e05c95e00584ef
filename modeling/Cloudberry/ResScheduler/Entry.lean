/-
# The shared entries of one resource queue

`src/backend/utils/resscheduler/resqueue.c`: the `LOCK` that stands for a queue,
the `PROCLOCK`s of the backends that use it, and the functions that work on them
with the partition lock and `ResQueueLock` held.

`granted` is not in the source: it lists the portals that have been granted and
not been taken back, so that the counters can be compared with something. All
changes are made of a few moves, and `EntryOk` says what each of them keeps. It has two parameters, for the moments between two moves:
the number of requests that are counted but neither granted nor waiting, and the
backends whose `PROCLOCK` stands although they neither hold nor wait.
-/

import Mathlib.Data.List.Nodup
import Cloudberry.Lib.Sweep
import Cloudberry.ResScheduler.Limits

namespace Cloudberry.ResScheduler

open List Function Option

variable {π ρ : Type*}

/-- `LOCK`: the requests, granted or waiting, the granted ones, and the wait
queue. There is one lock mode, so the arrays `requested` and `granted` have one
used element each. -/
structure Lock (π : Type*) where
  nRequested : ℤ
  nGranted : ℤ
  waitProcs : List π

/-- `PROCLOCK`: how many portals of the backend have been granted, and whether
the bit of `ExclusiveLock` is in `holdMask`. -/
structure ProcLock where
  nLocks : ℤ
  holdMask : Bool

/-- What the shared tables hold for one queue id. -/
structure Entry (π ρ : Type*) where
  queue : Option ResQueue
  lock : Option (Lock π)
  procLocks : π → Option ProcLock
  granted : List (π × ρ)

namespace Entry

section

variable (e : Entry π ρ)

def waiters : List π :=
  match e.lock with
  | some l => l.waitProcs
  | none => []

/-- `hash_search(LockMethodLockHash, …, HASH_ENTER_NULL, …)` with room for a new
entry. -/
def enterLock : Entry π ρ := { e with lock := some (e.lock.getD ⟨0, 0, []⟩) }

/-- The request is counted at once, whether it is granted or has to wait. -/
def request : Entry π ρ :=
  { e with lock := e.lock.map fun l => { l with nRequested := l.nRequested + 1 } }

def unrequest : Entry π ρ :=
  { e with lock := e.lock.map fun l => { l with nRequested := l.nRequested - 1 } }

/-- `lock->nRequested == 0`: nobody uses the lock, the entry is
garbage-collected. -/
def dropLock : Entry π ρ :=
  match e.lock with
  | some l => if l.nRequested = 0 then { e with lock := none } else e
  | none => e

/-- `ResLockUpdateLimit` on the queue of the lock. -/
def resLockUpdateLimit (inc : Increments) (increment : Bool) : Entry π ρ :=
  { e with queue := e.queue.map (·.resLockUpdateLimit inc increment) }

end

variable [DecidableEq π]

section

variable (e : Entry π ρ)

/-- The number of granted portals of a backend. -/
def held (pid : π) : ℕ := e.granted.countP (·.1 = pid)

/-- `hash_search(LockMethodProcLockHash, …, HASH_ENTER_NULL, …)` with room for a
new entry. -/
def enterProcLock (me : π) : Entry π ρ :=
  { e with procLocks := update e.procLocks me (some ((e.procLocks me).getD ⟨0, false⟩)) }

/-- The entry once its parts are there and the request is counted. -/
def entered (me : π) : Entry π ρ := (e.enterLock.enterProcLock me).request

/-- `ResGrantLock` for the portal `p` of a backend. -/
def resGrantLock (pid : π) (p : ρ) : Entry π ρ :=
  { e with
    lock := e.lock.map fun l => { l with nGranted := l.nGranted + 1 }
    procLocks := update e.procLocks pid
      ((e.procLocks pid).map fun pl => ⟨pl.nLocks + 1, true⟩)
    granted := (pid, p) :: e.granted }

/-- `ResGrantLock` and `ResLockUpdateLimit`, which always go together. -/
def grant (pid : π) (p : ρ) (inc : Increments) : Entry π ρ :=
  (e.resGrantLock pid p).resLockUpdateLimit inc true

end

/-- `ResUnGrantLock` for the portal `p` of a backend. -/
def resUnGrantLock [DecidableEq ρ] (e : Entry π ρ) (pid : π) (p : ρ) : Entry π ρ :=
  { e with
    lock := e.lock.map fun l =>
      { l with nRequested := l.nRequested - 1, nGranted := l.nGranted - 1 }
    procLocks := update e.procLocks pid
      ((e.procLocks pid).map fun pl =>
        ⟨pl.nLocks - 1, if pl.nLocks - 1 = 0 then false else pl.holdMask⟩)
    granted := e.granted.erase (pid, p) }

section

variable (e : Entry π ρ)

/-- The process goes to the end of the wait queue (`ResProcSleep`). -/
def joinQueue (pid : π) : Entry π ρ :=
  { e with lock := e.lock.map fun l => { l with waitProcs := l.waitProcs ++ [pid] } }

/-- The process is taken out of the wait queue. -/
def leaveQueue (pid : π) : Entry π ρ :=
  { e with lock := e.lock.map fun l => { l with waitProcs := l.waitProcs.erase pid } }

/-- The last hold of the backend is gone: its `PROCLOCK` is deleted. -/
def dropProcLock (me : π) : Entry π ρ :=
  match e.procLocks me with
  | some pl =>
    if pl.holdMask = false ∧ pl.nLocks = 0 then
      { e with procLocks := update e.procLocks me none }
    else e
  | none => e

/-- `ResCleanUpLock` without wakeup. -/
def collect (me : π) : Entry π ρ := (e.dropProcLock me).dropLock

/-- A waiter is granted and woken: `ResGrantLock`, `ResLockUpdateLimit`,
`ResProcWakeup`. -/
def wake (pid : π) (p : ρ) (inc : Increments) : Entry π ρ :=
  (e.leaveQueue pid).grant pid p inc

end

/-- The loop of `ResProcLockRemoveSelfAndWakeup` over the wait queue as it was at
the start. `waitingFor` is the portal a process waits for, with its increments;
`none` when the increments are not found, which raises an error. If the queue
itself is gone, the check raises an error and the rest is not looked at. -/
def resProcLockRemoveSelfAndWakeup (waitingFor : π → Option (ρ × Increments)) (me : π) :
    List π → Entry π ρ → Option (Entry π ρ)
  | [], e => some e
  | proc :: procs, e =>
    if proc = me then resProcLockRemoveSelfAndWakeup waitingFor me procs (e.leaveQueue me)
    else
      match waitingFor proc with
      | none => none
      | some (p, inc) =>
        match e.queue with
        | none => some e
        | some queue =>
          if queue.resLockCheckLimit inc = .ok then
            resProcLockRemoveSelfAndWakeup waitingFor me procs (e.wake proc p inc)
          else resProcLockRemoveSelfAndWakeup waitingFor me procs e

/-- `ResCleanUpLock` with `wakeupNeeded`. When the lock entry has just been
removed nobody can be waiting in it. -/
def resCleanUpLock (waitingFor : π → Option (ρ × Increments)) (me : π) (e : Entry π ρ) :
    Option (Entry π ρ) :=
  resProcLockRemoveSelfAndWakeup waitingFor me (e.collect me).waiters (e.collect me)

section

variable (e : Entry π ρ) (pid me : π) (p : ρ) (inc : Increments) (up : Bool)

section

omit [DecidableEq π]

@[simp] theorem waiters_enterLock : e.enterLock.waiters = e.waiters := by
  simp only [waiters, enterLock]
  cases e.lock <;> rfl

@[simp] theorem waiters_request : e.request.waiters = e.waiters := by
  simp only [waiters, request]
  cases e.lock <;> rfl

@[simp] theorem waiters_unrequest : e.unrequest.waiters = e.waiters := by
  simp only [waiters, unrequest]
  cases e.lock <;> rfl

@[simp] theorem waiters_resLockUpdateLimit : (e.resLockUpdateLimit inc up).waiters = e.waiters := rfl

theorem waiters_joinQueue {l : Lock π} (hl : e.lock = some l) :
    (e.joinQueue pid).waiters = e.waiters ++ [pid] := by
  simp [waiters, joinQueue, hl]

@[simp] theorem granted_enterLock : e.enterLock.granted = e.granted := rfl

@[simp] theorem granted_unrequest : e.unrequest.granted = e.granted := rfl

@[simp] theorem granted_joinQueue : (e.joinQueue me).granted = e.granted := rfl

@[simp] theorem granted_dropLock : e.dropLock.granted = e.granted := by
  unfold dropLock
  split
  · split <;> rfl
  · rfl

@[simp] theorem queue_dropLock : e.dropLock.queue = e.queue := by
  unfold dropLock
  split
  · split <;> rfl
  · rfl

@[simp] theorem procLocks_dropLock : e.dropLock.procLocks = e.procLocks := by
  unfold dropLock
  split
  · split <;> rfl
  · rfl

end

@[simp] theorem waiters_enterProcLock : (e.enterProcLock me).waiters = e.waiters := rfl

@[simp] theorem waiters_grant : (e.grant pid p inc).waiters = e.waiters := by
  simp only [waiters, grant, resGrantLock, resLockUpdateLimit]
  cases e.lock <;> rfl

@[simp] theorem waiters_resUnGrantLock [DecidableEq ρ] :
    (e.resUnGrantLock pid p).waiters = e.waiters := by
  simp only [waiters, resUnGrantLock]
  cases e.lock <;> rfl

@[simp] theorem waiters_leaveQueue : (e.leaveQueue pid).waiters = e.waiters.erase pid := by
  simp only [waiters, leaveQueue]
  cases e.lock <;> rfl

@[simp] theorem waiters_dropProcLock : (e.dropProcLock me).waiters = e.waiters := by
  unfold dropProcLock
  split
  · split <;> rfl
  · rfl

@[simp] theorem waiters_wake : (e.wake pid p inc).waiters = e.waiters.erase pid := by
  rw [wake, waiters_grant, waiters_leaveQueue]

@[simp] theorem granted_entered : (e.entered me).granted = e.granted := rfl

@[simp] theorem queue_entered : (e.entered me).queue = e.queue := rfl

@[simp] theorem waiters_entered : (e.entered me).waiters = e.waiters := by
  rw [entered, waiters_request, waiters_enterProcLock, waiters_enterLock]

@[simp] theorem granted_wake : (e.wake pid p inc).granted = (pid, p) :: e.granted := rfl

@[simp] theorem granted_grant : (e.grant pid p inc).granted = (pid, p) :: e.granted := rfl

@[simp] theorem granted_dropProcLock : (e.dropProcLock me).granted = e.granted := by
  unfold dropProcLock
  split
  · split <;> rfl
  · rfl

@[simp] theorem granted_collect : (e.collect me).granted = e.granted := by
  rw [collect, granted_dropLock, granted_dropProcLock]

@[simp] theorem queue_dropProcLock : (e.dropProcLock me).queue = e.queue := by
  unfold dropProcLock
  split
  · split <;> rfl
  · rfl

@[simp] theorem queue_collect : (e.collect me).queue = e.queue := by
  rw [collect, queue_dropLock, queue_dropProcLock]

@[simp] theorem lock_dropProcLock : (e.dropProcLock me).lock = e.lock := by
  unfold dropProcLock
  split
  · split <;> rfl
  · rfl

end

variable {e : Entry π ρ} {pid me : π} {p : ρ} {inc : Increments}

theorem held_pos : 0 < e.held pid ↔ ∃ p, (pid, p) ∈ e.granted := by
  rw [held, countP_pos_iff]
  constructor
  · rintro ⟨⟨pid', p⟩, hmem, heq⟩
    obtain rfl : pid' = pid := by simpa using heq
    exact ⟨p, hmem⟩
  · rintro ⟨p, hmem⟩
    exact ⟨(pid, p), hmem, by simp⟩

theorem held_cons {e' : Entry π ρ} (hg : e'.granted = (me, p) :: e.granted) :
    e'.held pid = e.held pid + if me = pid then 1 else 0 := by
  rw [held, hg, countP_cons, held]
  simp

/-- The counters of an entry tell what is granted and what waits. `pending`
requests are counted but neither granted nor waiting, and the backends with
`extra` have a `PROCLOCK` although they neither hold nor wait. -/
structure EntryOk (pending : ℕ) (extra : π → Prop) (e : Entry π ρ) : Prop where
  granted_nodup : e.granted.Nodup
  waiters_nodup : e.waiters.Nodup
  lock_some : ∀ l, e.lock = some l → l.nGranted = e.granted.length ∧
    l.nRequested = e.granted.length + e.waiters.length + pending
  lock_none : e.lock = none → e.granted = [] ∧ pending = 0
  procLock_some : ∀ pid pl, e.procLocks pid = some pl →
    pl.nLocks = e.held pid ∧ (pl.holdMask = true ↔ 0 < e.held pid)
  procLock_isSome : ∀ pid, (e.procLocks pid).isSome = true ↔
    0 < e.held pid ∨ pid ∈ e.waiters ∨ extra pid
  queue_some : ∀ queue, e.queue = some queue → queue.currentValue .count = e.granted.length
  queue_none : e.queue = none → e.granted = []

namespace EntryOk

variable {pending : ℕ} {extra extra' : π → Prop}

theorem congr_extra (h : EntryOk pending extra e) (heq : ∀ pid, (0 < e.held pid ∨ pid ∈ e.waiters ∨
      extra pid) ↔ (0 < e.held pid ∨ pid ∈ e.waiters ∨ extra' pid)) : EntryOk pending extra' e :=
  { h with procLock_isSome := fun pid => (h.procLock_isSome pid).trans (heq pid) }

theorem lock_isSome (h : EntryOk pending extra e) (hpos : e.granted ≠ [] ∨ pending ≠ 0) :
    ∃ l, e.lock = some l := by
  cases hl : e.lock with
  | some l => exact ⟨l, rfl⟩
  | none =>
    obtain ⟨hg, hp⟩ := h.lock_none hl
    exact absurd hpos (by simp [hg, hp])

theorem lock_eq_none_iff (h : EntryOk pending extra e)
    (hfull : e.lock.isSome = true → e.granted ≠ [] ∨ e.waiters ≠ []) :
    e.lock = none ↔ e.granted = [] ∧ e.waiters = [] := by
  constructor
  · intro hl
    exact ⟨(h.lock_none hl).1, by rw [waiters, hl]⟩
  · rintro ⟨hg, hw⟩
    rw [← not_isSome_iff_eq_none]
    exact fun hsome => (hfull hsome).elim (· hg) (· hw)

theorem enterLock (h : EntryOk 0 extra e) : EntryOk 0 extra e.enterLock where
  granted_nodup := h.granted_nodup
  waiters_nodup := by simpa using h.waiters_nodup
  lock_some := by
    intro l hl
    rw [waiters_enterLock]
    cases hlock : e.lock with
    | none =>
      obtain rfl : l = ⟨0, 0, []⟩ := by simpa [Entry.enterLock, hlock, eq_comm] using hl
      have hw : e.waiters = [] := by rw [waiters, hlock]
      have hg : e.enterLock.granted = [] := (h.lock_none hlock).1
      rw [hw, hg]
      exact ⟨rfl, rfl⟩
    | some l₀ =>
      obtain rfl : l = l₀ := by simpa [Entry.enterLock, hlock, eq_comm] using hl
      exact h.lock_some l hlock
  lock_none := by
    intro hl
    simp [Entry.enterLock] at hl
  procLock_some := h.procLock_some
  procLock_isSome := by
    intro pid
    rw [waiters_enterLock]
    exact h.procLock_isSome pid
  queue_some := h.queue_some
  queue_none := h.queue_none

theorem enter (h : EntryOk 0 extra e) (me : π) :
    EntryOk 1 (fun pid => pid = me ∨ extra pid) (e.entered me) where
  granted_nodup := h.granted_nodup
  waiters_nodup := by simpa using h.waiters_nodup
  lock_some := by
    intro l hl
    rw [waiters_entered, granted_entered]
    rw [entered, request, map_eq_some_iff] at hl
    obtain ⟨l₀, hlock, rfl⟩ := hl
    obtain ⟨hgr, hreq⟩ := h.enterLock.lock_some l₀ hlock
    rw [waiters_enterLock, granted_enterLock] at hreq
    refine ⟨hgr, ?_⟩
    rw [hreq]
    ring
  lock_none := by
    intro hl
    simp [entered, request, enterProcLock, Entry.enterLock] at hl
  procLock_some := by
    intro pid pl hpl
    have hpl' : update e.procLocks me (some ((e.procLocks me).getD ⟨0, false⟩)) pid = some pl := hpl
    change pl.nLocks = e.held pid ∧ (pl.holdMask = true ↔ 0 < e.held pid)
    by_cases hpid : pid = me
    · subst hpid
      rw [update_self] at hpl'
      cases hold : e.procLocks pid with
      | some pl₀ =>
        rw [hold] at hpl'
        obtain rfl := some.inj hpl'
        exact h.procLock_some pid pl₀ hold
      | none =>
        rw [hold] at hpl'
        obtain rfl := some.inj hpl'
        have hnot : ¬ 0 < e.held pid := fun hheld => by
          have hsome := (h.procLock_isSome pid).2 (.inl hheld)
          rw [hold] at hsome
          cases hsome
        have hzero : e.held pid = 0 := by omega
        simp [hzero]
    · rw [update_of_ne hpid] at hpl'
      exact h.procLock_some pid pl hpl'
  procLock_isSome := by
    intro pid
    rw [waiters_entered]
    change (update e.procLocks me (some ((e.procLocks me).getD ⟨0, false⟩)) pid).isSome =
      true ↔ 0 < e.held pid ∨ pid ∈ e.waiters ∨ pid = me ∨ extra pid
    by_cases hpid : pid = me
    · subst hpid
      simp
    · rw [update_of_ne hpid, h.procLock_isSome pid]
      simp [hpid]
  queue_some := h.queue_some
  queue_none := h.queue_none

section

variable (h : EntryOk (pending + 1) extra e)
include h

theorem unrequest : EntryOk pending extra e.unrequest where
  granted_nodup := h.granted_nodup
  waiters_nodup := by simpa using h.waiters_nodup
  lock_some := by
    intro l hl
    simp only [waiters_unrequest]
    obtain ⟨l₀, hlock, rfl⟩ := map_eq_some_iff.1 hl
    obtain ⟨hgr, hreq⟩ := h.lock_some l₀ hlock
    refine ⟨hgr, ?_⟩
    dsimp only [Entry.unrequest]
    rw [hreq]
    push_cast
    ring
  lock_none := by
    intro hl
    have hlock : e.lock = none := by simpa [Entry.unrequest] using hl
    exact absurd (h.lock_none hlock).2 (by omega)
  procLock_some := h.procLock_some
  procLock_isSome := by
    intro pid
    rw [waiters_unrequest]
    exact h.procLock_isSome pid
  queue_some := h.queue_some
  queue_none := h.queue_none

theorem grant (hnew : (me, p) ∉ e.granted) (hme : (e.procLocks me).isSome = true)
    (hqueue : e.queue.isSome = true) (hcount : inc .count = 1) :
    EntryOk pending extra (e.grant me p inc) := by
  have hheld : ∀ pid, (e.grant me p inc).held pid = e.held pid + if me = pid then 1 else 0 :=
    fun pid => held_cons rfl
  refine ⟨nodup_cons.2 ⟨hnew, h.granted_nodup⟩, by simpa using h.waiters_nodup, ?_, ?_, ?_, ?_,
    ?_, ?_⟩
  · intro l hl
    rw [waiters_grant, granted_grant]
    obtain ⟨l₀, hlock, rfl⟩ := map_eq_some_iff.1 hl
    obtain ⟨hgr, hreq⟩ := h.lock_some l₀ hlock
    simp only [length_cons]
    push_cast at hreq ⊢
    constructor
    · rw [hgr]
    · rw [hreq]
      ring
  · intro hl
    have hlock : e.lock = none := by
      simpa [Entry.grant, Entry.resLockUpdateLimit, resGrantLock] using hl
    exact absurd (h.lock_none hlock).2 (by omega)
  · intro pid pl hpl
    rw [hheld]
    have hpl' : update e.procLocks me
        ((e.procLocks me).map fun pl => ⟨pl.nLocks + 1, true⟩) pid = some pl := hpl
    by_cases hpid : pid = me
    · subst hpid
      rw [update_self] at hpl'
      obtain ⟨pl₀, hold, rfl⟩ := map_eq_some_iff.1 hpl'
      simp [(h.procLock_some pid pl₀ hold).1]
    · rw [update_of_ne hpid] at hpl'
      rw [if_neg (Ne.symm hpid)]
      exact h.procLock_some pid pl hpl'
  · intro pid
    rw [hheld, waiters_grant]
    change (update e.procLocks me ((e.procLocks me).map fun pl => ⟨pl.nLocks + 1, true⟩)
      pid).isSome = true ↔ _
    by_cases hpid : pid = me
    · subst hpid
      simp [hme]
    · rw [update_of_ne hpid, if_neg (Ne.symm hpid)]
      exact h.procLock_isSome pid
  · intro queue hq
    obtain ⟨queue₀, hq₀, rfl⟩ := map_eq_some_iff.1 hq
    have hcur := h.queue_some queue₀ hq₀
    have hone : inc .count = ((1 : ℕ) : ℚ) := by simpa using hcount
    exact ResQueue.resLockUpdateLimit_up hcur hone (.inl rfl)
  · intro hq
    have hnone : e.queue = none := by
      simpa [Entry.grant, Entry.resLockUpdateLimit, resGrantLock] using hq
    rw [hnone] at hqueue
    cases hqueue

theorem joinQueue (hnew : me ∉ e.waiters) (hme : (e.procLocks me).isSome = true) :
    EntryOk pending extra (e.joinQueue me) := by
  obtain ⟨_, hlock⟩ := h.lock_isSome (.inr (by omega))
  have hw : (e.joinQueue me).waiters = e.waiters ++ [me] := waiters_joinQueue e me hlock
  refine ⟨h.granted_nodup, ?_, ?_, ?_, h.procLock_some, ?_, h.queue_some, h.queue_none⟩
  · rw [hw]
    exact nodup_append.2 ⟨h.waiters_nodup, nodup_singleton me,
      fun a ha b hb hab => hnew (mem_singleton.1 hb ▸ hab ▸ ha)⟩
  · intro l hl
    rw [hw]
    obtain ⟨l₁, hlock₁, rfl⟩ := map_eq_some_iff.1 hl
    obtain ⟨hgr, hreq⟩ := h.lock_some l₁ hlock₁
    refine ⟨hgr, ?_⟩
    dsimp only [Entry.joinQueue]
    rw [hreq, length_append, length_singleton]
    push_cast
    ring
  · intro hl
    have hnone : e.lock = none := by simpa [Entry.joinQueue] using hl
    exact absurd (h.lock_none hnone).2 (by omega)
  · intro pid
    rw [hw, mem_append, mem_singleton]
    have hpid := h.procLock_isSome pid
    change (e.procLocks pid).isSome = true ↔ 0 < e.held pid ∨ (pid ∈ e.waiters ∨ pid = me) ∨ extra pid
    by_cases heq : pid = me
    · subst heq
      simp [hme]
    · tauto

end

section

variable (h : EntryOk pending extra e)
include h

theorem leaveQueue (hme : me ∈ e.waiters) :
    EntryOk (pending + 1) (fun pid => pid = me ∨ extra pid) (e.leaveQueue me) := by
  have hlen : e.waiters.length = (e.waiters.erase me).length + 1 := by
    rw [length_erase_of_mem hme]
    have := length_pos_of_mem hme
    omega
  refine ⟨h.granted_nodup, ?_, ?_, ?_, h.procLock_some, ?_, h.queue_some, h.queue_none⟩
  · rw [waiters_leaveQueue]
    exact h.waiters_nodup.erase me
  · intro l hl
    rw [waiters_leaveQueue]
    obtain ⟨l₁, hlock₁, rfl⟩ := map_eq_some_iff.1 hl
    obtain ⟨hgr, hreq⟩ := h.lock_some l₁ hlock₁
    refine ⟨hgr, ?_⟩
    dsimp only [Entry.leaveQueue]
    rw [hreq, hlen]
    push_cast
    ring
  · intro hl
    have hnone : e.lock = none := by simpa [Entry.leaveQueue] using hl
    have hempty : e.waiters = [] := by rw [waiters, hnone]
    rw [hempty] at hme
    exact absurd hme not_mem_nil
  · intro pid
    rw [waiters_leaveQueue, h.waiters_nodup.mem_erase_iff]
    change (e.procLocks pid).isSome = true ↔
      0 < e.held pid ∨ (pid ≠ me ∧ pid ∈ e.waiters) ∨ pid = me ∨ extra pid
    have hpid := h.procLock_isSome pid
    by_cases heq : pid = me
    · subst heq
      simp [hpid, hme]
    · tauto

theorem wake (hpid : pid ∈ e.waiters) (hnew : (pid, p) ∉ e.granted) (hqueue : e.queue.isSome = true)
    (hcount : inc .count = 1) : EntryOk pending extra (e.wake pid p inc) := by
  have hleft := h.leaveQueue hpid
  have hgrant := hleft.grant hnew
    ((hleft.procLock_isSome pid).2 (.inr (.inr (.inl rfl)))) hqueue hcount
  refine hgrant.congr_extra fun pid' => ?_
  by_cases heq : pid' = pid
  · subst heq
    have hheld : 0 < ((e.leaveQueue pid').grant pid' p inc).held pid' :=
      held_pos.2 ⟨p, mem_cons_self⟩
    tauto
  · tauto

theorem ungrant [DecidableEq ρ] (hmem : (me, p) ∈ e.granted) (hcount : inc .count = 1) :
    EntryOk pending (fun pid => pid = me ∨ extra pid)
      ((e.resUnGrantLock me p).resLockUpdateLimit inc false) := by
  have hperm : e.granted.Perm ((me, p) :: e.granted.erase (me, p)) := perm_cons_erase hmem
  have hlen : e.granted.length = (e.granted.erase (me, p)).length + 1 := hperm.length_eq
  have hheld : ∀ pid, e.held pid = ((e.resUnGrantLock me p).resLockUpdateLimit inc false).held pid +
        if me = pid then 1 else 0 := by
    intro pid
    rw [held, hperm.countP_eq, countP_cons]
    simp only [decide_eq_true_eq]
    rfl
  refine ⟨h.granted_nodup.erase _, by simpa using h.waiters_nodup, ?_, ?_, ?_, ?_, ?_, ?_⟩
  · intro l hl
    rw [waiters_resLockUpdateLimit, waiters_resUnGrantLock]
    obtain ⟨l₀, hlock, rfl⟩ := map_eq_some_iff.1 hl
    obtain ⟨hgr, hreq⟩ := h.lock_some l₀ hlock
    dsimp only [resUnGrantLock, Entry.resLockUpdateLimit]
    rw [hgr, hreq, hlen]
    push_cast
    constructor <;> ring
  · intro hl
    have hlock : e.lock = none := by
      simpa [Entry.resLockUpdateLimit, resUnGrantLock] using hl
    rw [(h.lock_none hlock).1] at hmem
    exact absurd hmem not_mem_nil
  · intro pid pl hpl
    have hpl' : update e.procLocks me ((e.procLocks me).map fun pl =>
        ⟨pl.nLocks - 1, if pl.nLocks - 1 = 0 then false else pl.holdMask⟩) pid = some pl := hpl
    have hpid := hheld pid
    by_cases heq : pid = me
    · subst heq
      rw [update_self] at hpl'
      obtain ⟨pl₀, hold, rfl⟩ := map_eq_some_iff.1 hpl'
      obtain ⟨hn, hmask⟩ := h.procLock_some pid pl₀ hold
      rw [if_pos rfl] at hpid
      have hn' : pl₀.nLocks - 1 =
          ((e.resUnGrantLock pid p).resLockUpdateLimit inc false).held pid := by
        rw [hn, hpid]
        push_cast
        ring
      refine ⟨hn', ?_⟩
      split
      · have hzero : ((e.resUnGrantLock pid p).resLockUpdateLimit inc false).held pid = 0 := by
          omega
        simp [hzero]
      · rw [hmask]
        omega
    · rw [update_of_ne heq] at hpl'
      rw [if_neg (Ne.symm heq), Nat.add_zero] at hpid
      rw [← hpid]
      exact h.procLock_some pid pl hpl'
  · intro pid
    rw [waiters_resLockUpdateLimit, waiters_resUnGrantLock]
    change (update e.procLocks me ((e.procLocks me).map fun pl =>
        ⟨pl.nLocks - 1, if pl.nLocks - 1 = 0 then false else pl.holdMask⟩) pid).isSome = true ↔ _
    have hpid := hheld pid
    by_cases heq : pid = me
    · subst heq
      simp [(h.procLock_isSome pid).2 (.inl (held_pos.2 ⟨p, hmem⟩))]
    · rw [update_of_ne heq, h.procLock_isSome pid]
      rw [if_neg (Ne.symm heq)] at hpid
      rw [hpid]
      tauto
  · intro queue hq
    obtain ⟨queue₀, hq₀, rfl⟩ := map_eq_some_iff.1 hq
    have hcur := h.queue_some queue₀ hq₀
    rw [hlen] at hcur
    have hone : inc .count = ((1 : ℕ) : ℚ) := by simpa using hcount
    exact ResQueue.resLockUpdateLimit_down hcur hone (.inl rfl)
  · intro hq
    have hnone : e.queue = none := by
      simpa [Entry.resLockUpdateLimit, resUnGrantLock] using hq
    rw [h.queue_none hnone] at hmem
    exact absurd hmem not_mem_nil

/-- The `PROCLOCK` of a backend that does not wait is there afterwards only if it
holds. -/
theorem dropProcLock (hme : me ∉ e.waiters) :
    EntryOk pending (fun pid => pid ≠ me ∧ extra pid) (e.dropProcLock me) := by
  have hheld : ∀ pid, (e.dropProcLock me).held pid = e.held pid := by
    intro pid
    rw [held, held, granted_dropProcLock]
  -- the entry of the backend, and those of the others
  have hsome : ∀ pid, (e.dropProcLock me).procLocks pid =
      if pid = me ∧ e.held me = 0 then none else e.procLocks pid := by
    intro pid
    unfold Entry.dropProcLock
    cases hold : e.procLocks me with
    | none =>
      by_cases hpid : pid = me
      · subst hpid
        simp [hold]
      · simp [hpid]
    | some pl =>
      obtain ⟨hn, hmask⟩ := h.procLock_some me pl hold
      have hcond : (pl.holdMask = false ∧ pl.nLocks = 0) ↔ e.held me = 0 := by
        rw [← Bool.not_eq_true, hmask]
        omega
      simp only [hcond]
      by_cases hzero : e.held me = 0
      · rw [if_pos hzero]
        by_cases hpid : pid = me
        · subst hpid
          simp [hzero]
        · simp [hpid]
      · simp [hzero]
  refine ⟨by simpa using h.granted_nodup, by simpa using h.waiters_nodup, ?_, ?_, ?_, ?_, ?_, ?_⟩
  · simpa using h.lock_some
  · simpa using h.lock_none
  · intro pid pl hpl
    rw [hsome] at hpl
    rw [hheld]
    split_ifs at hpl
    exact h.procLock_some pid pl hpl
  · intro pid
    rw [hsome, hheld, waiters_dropProcLock]
    by_cases hpid : pid = me
    · subst hpid
      have hpid := h.procLock_isSome pid
      by_cases hzero : e.held pid = 0
      · simp [hzero, hme]
      · have hpos : 0 < e.held pid := by omega
        rw [if_neg (by tauto), hpid]
        simp [hpos]
    · rw [if_neg (by tauto), h.procLock_isSome pid]
      tauto
  · simpa using h.queue_some
  · simpa using h.queue_none

theorem waiters_eq_nil {l : Lock π} (hl : e.lock = some l) (hzero : l.nRequested = 0) :
    e.granted = [] ∧ e.waiters = [] := by
  obtain ⟨-, _⟩ := h.lock_some l hl
  exact ⟨length_eq_zero_iff.1 (by omega), length_eq_zero_iff.1 (by omega)⟩

theorem waiters_dropLock : e.dropLock.waiters = e.waiters := by
  unfold Entry.dropLock
  cases hl : e.lock with
  | none => rfl
  | some l =>
    dsimp only
    split
    · rw [(h.waiters_eq_nil hl ‹_›).2]
      rfl
    · rfl

end

variable (h : EntryOk 0 extra e)
include h

theorem dropLock : EntryOk 0 extra e.dropLock := by
  have hheld : ∀ pid, e.dropLock.held pid = e.held pid := by
    intro pid
    rw [held, held, granted_dropLock]
  refine ⟨by simpa using h.granted_nodup, by rw [h.waiters_dropLock]; exact h.waiters_nodup, ?_, ?_,
    ?_, ?_, by simpa using h.queue_some, by simpa using h.queue_none⟩
  · intro l hl
    rw [granted_dropLock, h.waiters_dropLock]
    unfold Entry.dropLock at hl
    cases hlock : e.lock with
    | none =>
      simp [hlock] at hl
    | some l₀ =>
      simp only [hlock] at hl
      split_ifs at hl
      exact h.lock_some l hl
  · intro hl
    rw [granted_dropLock]
    unfold Entry.dropLock at hl
    cases hlock : e.lock with
    | none => exact h.lock_none hlock
    | some l₀ =>
      simp only [hlock] at hl
      split at hl
      · exact ⟨(h.waiters_eq_nil hlock ‹_›).1, rfl⟩
      · rw [hlock] at hl
        cases hl
  · intro pid pl hpl
    rw [procLocks_dropLock] at hpl
    rw [hheld]
    exact h.procLock_some pid pl hpl
  · intro pid
    rw [procLocks_dropLock, hheld, h.waiters_dropLock]
    exact h.procLock_isSome pid

theorem lock_dropLock (hl : e.dropLock.lock.isSome = true) :
    e.dropLock.granted ≠ [] ∨ e.dropLock.waiters ≠ [] := by
  rw [h.waiters_dropLock]
  unfold Entry.dropLock at hl
  cases hlock : e.lock with
  | none =>
    simp [hlock] at hl
  | some l =>
    simp only [hlock] at hl
    split at hl
    · cases hl
    · obtain ⟨-, _⟩ := h.lock_some l hlock
      by_contra hempty
      simp_all

variable (hme : me ∉ e.waiters)
include hme

theorem collect : EntryOk 0 (fun pid => pid ≠ me ∧ extra pid) (e.collect me) :=
  (h.dropProcLock hme).dropLock

theorem lock_collect (hl : (e.collect me).lock.isSome = true) :
    (e.collect me).granted ≠ [] ∨ (e.collect me).waiters ≠ [] :=
  (h.dropProcLock hme).lock_dropLock hl

theorem waiters_collect : (e.collect me).waiters = e.waiters := by
  rw [Entry.collect, (h.dropProcLock hme).waiters_dropLock, waiters_dropProcLock]

end EntryOk

section Wakeup

variable {waitingFor : π → Option (ρ × Increments)} {e' : Entry π ρ}

section

variable (waitingFor : π → Option (ρ × Increments)) (e : Entry π ρ) (proc : π)

def admits : Bool :=
  match waitingFor proc, e.queue with
  | some (_, inc), some queue => queue.resLockCheckLimit inc = .ok
  | _, _ => false

/-- What the wakeup loop does for a process that passes the test. -/
def letIn : Entry π ρ :=
  match waitingFor proc with
  | some (p, inc) => e.wake proc p inc
  | none => e

end

omit [DecidableEq π] in
theorem admits_eq_true {proc : π} : admits waitingFor e proc = true ↔
    ∃ p inc queue, waitingFor proc = some (p, inc) ∧ e.queue = some queue ∧
      queue.resLockCheckLimit inc = .ok := by
  unfold admits
  cases waitingFor proc with
  | none => simp
  | some w =>
    obtain ⟨p, inc⟩ := w
    cases e.queue with
    | none => simp
    | some queue => simp [and_assoc]

/-- The wakeup loop is one pass over the waiters, as far as it raises no error. -/
theorem resProcLockRemoveSelfAndWakeup_eq {procs : List π} (hme : me ∉ procs)
    (h : resProcLockRemoveSelfAndWakeup waitingFor me procs e = some e') :
    e' = Sweep.sweep (admits waitingFor) (letIn waitingFor) procs e := by
  induction procs generalizing e with
  | nil => exact (some.inj h).symm
  | cons proc procs ih =>
    have hproc : proc ≠ me := fun heq => hme (heq ▸ mem_cons_self)
    have hprocs : me ∉ procs := fun hmem => hme (mem_cons_of_mem _ hmem)
    rw [resProcLockRemoveSelfAndWakeup, if_neg hproc] at h
    cases hw : waitingFor proc with
    | none =>
      rw [hw] at h
      cases h
    | some w =>
      obtain ⟨p, inc⟩ := w
      rw [hw] at h
      cases hq : e.queue with
      | none =>
        -- without the queue nobody passes
        rw [hq] at h
        obtain rfl := some.inj h
        refine (Sweep.sweep_induct (P := fun t => t = e) ?_ rfl).symm
        rintro t a - rfl hpass
        obtain ⟨_, _, queue, _, hqueue, _⟩ := admits_eq_true.1 hpass
        rw [hq] at hqueue
        cases hqueue
      | some queue =>
        simp only [hq] at h
        have hletIn : letIn waitingFor e proc = e.wake proc p inc := by simp [letIn, hw]
        split_ifs at h with hok
        · rw [Sweep.sweep, if_pos (admits_eq_true.2 ⟨p, inc, queue, hw, hq, hok⟩), hletIn]
          exact ih hprocs h
        have hfail : ¬ admits waitingFor e proc = true := by
          simp only [admits, hw, hq, decide_eq_true_eq]
          exact hok
        rw [Sweep.sweep, if_neg hfail]
        exact ih hprocs h

/-- What waking a waiter that passes the check keeps, the wakeup loop keeps. -/
theorem resProcLockRemoveSelfAndWakeup_rule {P : Entry π ρ → Prop}
    (hwake : ∀ e proc p inc queue, P e → proc ∈ e.waiters → waitingFor proc = some (p, inc) →
      e.queue = some queue → queue.resLockCheckLimit inc = .ok → P (e.wake proc p inc))
    (hnodup : e.waiters.Nodup) (hme : me ∉ e.waiters) (he : P e)
    (h : resProcLockRemoveSelfAndWakeup waitingFor me e.waiters e = some e') : P e' := by
  rw [resProcLockRemoveSelfAndWakeup_eq hme h]
  -- those whose turn is still to come are still in the wait queue
  refine (Sweep.sweep_rule
    (P := fun procs t => procs.Nodup ∧ (∀ proc ∈ procs, proc ∈ t.waiters) ∧ P t) ?_ ?_
    ⟨hnodup, fun _ hproc => hproc, he⟩).2.2
  · rintro proc procs t ⟨hnd, hsub, hP⟩ -
    exact ⟨(nodup_cons.1 hnd).2, fun x hx => hsub x (mem_cons_of_mem _ hx), hP⟩
  rintro proc procs t ⟨hnd, hsub, hP⟩ hpass
  obtain ⟨p, inc, queue, hw, hq, hok⟩ := admits_eq_true.1 hpass
  have hletIn : letIn waitingFor t proc = t.wake proc p inc := by simp [letIn, hw]
  rw [hletIn]
  refine ⟨(nodup_cons.1 hnd).2, fun x hx => ?_,
    hwake t proc p inc queue hP (hsub proc mem_cons_self) hw hq hok⟩
  rw [waiters_wake]
  have hne : x ≠ proc := fun heq => (nodup_cons.1 hnd).1 (heq ▸ hx)
  exact (mem_erase_of_ne hne).2 (hsub x (mem_cons_of_mem _ hx))

end Wakeup

end Entry
end Cloudberry.ResScheduler
