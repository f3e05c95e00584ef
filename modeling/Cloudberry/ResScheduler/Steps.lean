/-
# What a step can do

Every critical section is one of six moves (`Stepped`): an acquisition with its
outcome, a sleeper that has been granted and goes on, a portal given back (by a
cancellation, by an error handler or by an ordinary release), and the three
commands on queues. Each keeps the invariant; everything else that is shown
about runs goes over these moves.
-/

import Cloudberry.ResScheduler.Release

namespace Cloudberry.ResScheduler

open Entry Function Option Backend Phase Prod State

variable {π κ ρ : Type*} [DecidableEq π] [DecidableEq κ] [DecidableEq ρ]
  {s t : State π κ ρ} {me : π} {q : κ} {p : ρ}

/-- The backend, the queue and the portal of a request that is turned away, cancelled or given back
by an event, as far as the backend has a `PROCLOCK` to be tidied up. -/
def State.givesUp (s : State π κ ρ) : Event π κ ρ → Option (π × κ × ρ)
  | .acquire me q p cost memory _ room =>
    if (s.entries q).refuses room me (portalIncrements cost memory) then some (me, q, p) else none
  | .cancel me =>
    match (s.backends me).phase with
    | .waiting q p => if me ∈ (s.entries q).waiters then some (me, q, p) else none
    | _ => none
  | .handleError me =>
    match (s.backends me).phase with
    | .failed q p _ => if ((s.entries q).procLocks me).isSome then some (me, q, p) else none
    | _ => none
  | .release me p =>
    match (s.backends me).runningPortal p with
    | some q => if ((s.entries q).procLocks me).isSome then some (me, q, p) else none
    | none => none
  | _ => none

/-- **What a step can do.** -/
inductive Stepped (s : State π κ ρ) : Event π κ ρ → State π κ ρ → Prop
  | acquired {me : π} {q : κ} {p : ρ} {cost memory : ℚ} {utility : Bool} {room : Room} {o : Outcome}
      {e : Entry π ρ} {b : Backend κ ρ} (ho : Opens s me p)
      (hac : Acquired room me q p (portalIncrements cost memory) (s.entries q) (s.opened me q p) o
        e b) :
    Stepped s (.acquire me q p cost memory utility room) (s.set q e me (b.settle q p utility o))
  | leaves {a : Event π κ ρ} {me : π} {q : κ} {p : ρ} {phase : Phase κ ρ}
      (hactor : a.actor = some me) (hgives : s.givesUp a = none)
      (hphase : (s.backends me).phase = .waiting q p) (hme : me ∉ (s.entries q).waiters)
      (hnew : phase = .running ∨ phase = .failed q p .cancelled) :
    Stepped s a (s.set q (s.entries q) me { s.backends me with phase := phase })
  | givenBack {a : Event π κ ρ} {me : π} {q : κ} {p : ρ} {e e' : Entry π ρ} {b b₁ : Backend κ ρ}
      (hactor : a.actor = some me)
      (hgives : s.givesUp a =
        if ((s.entries q).procLocks me).isSome then some (me, q, p) else none)
      (ha : ActsOn s me q p) (hphase : b.phase = .running ∨ b.phase = .failed q p .cancelled)
      (hrel : Released s me q p e b₁)
      (hinc : b.increments = Function.update (s.backends me).increments p none)
      (hkeep : Inv (s.set q e me b)) (hwake : Wakes s me q e e') :
    Stepped s a (s.set q e' me b)
  | created {q : κ} {settings : QueueSettings} (hqueue : (s.entries q).queue = none) :
    Stepped s (.createQueue q settings) (s.setQueue q (some (resCreateQueue settings)))
  | altered {q : κ} {settings : QueueSettings} {queue queue' : ResQueue}
      (hqueue : (s.entries q).queue = some queue)
      (halter : resAlterQueue settings queue = some queue') :
    Stepped s (.alterQueue q settings) (s.setQueue q (some queue'))
  | dropped {q : κ} {queue : ResQueue} (hqueue : (s.entries q).queue = some queue)
      (hdrop : resDestroyQueue queue = true) :
    Stepped s (.dropQueue q) (s.setQueue q none)

omit [DecidableEq κ] in
theorem Backend.runningPortal_eq_some {b : Backend κ ρ} (h : b.runningPortal p = some q) :
    b.phase = .running ∧ (p, q) ∈ b.portals := by
  unfold runningPortal at h
  split at h
  next hphase =>
    obtain ⟨portal, hfind, rfl⟩ := map_eq_some_iff.1 h
    have hp : portal.1 = p := by simpa using List.find?_some hfind
    exact ⟨hphase, hp ▸ List.mem_of_find?_eq_some hfind⟩
  · cases h

theorem resLockRelease_phase {waitingFor : π → Option (ρ × Increments)} {e e' : Entry π ρ}
    {b b' : Backend κ ρ} (hr : resLockRelease waitingFor me q p e b = some (e', b')) :
    b'.phase = b.phase := by
  unfold resLockRelease at hr
  split at hr
  · obtain ⟨rfl, rfl⟩ := mk.inj (some.inj hr)
    rfl
  split at hr
  · obtain ⟨rfl, rfl⟩ := mk.inj (some.inj hr)
    rfl
  split at hr
  · split at hr
    · obtain ⟨rfl, rfl⟩ := mk.inj (some.inj hr)
      rfl
    split at hr
    · obtain ⟨_, -, heq⟩ := map_eq_some_iff.1 hr
      obtain ⟨rfl, rfl⟩ := mk.inj heq
      exact removeLastLocalLock_phase _ _
    · split_ifs at hr
      obtain ⟨_, -, heq⟩ := map_eq_some_iff.1 hr
      obtain ⟨rfl, rfl⟩ := mk.inj heq
      exact removeLastLocalLock_phase _ _
  · cases hr

variable {a : Event π κ ρ}

/-- **Every step is one of the moves.** -/
theorem step_spec (h : Inv s) (hstep : step s a = some t) : Stepped s a t := by
  cases a with simp only [step] at hstep
  | acquire me q p cost memory utility room =>
    split at hstep
    next hphase =>
      split_ifs at hstep with hfresh
      cases hstep
      have ho : Opens s me p := ⟨hphase, hfresh⟩
      have hnew : (s.opened me q p).increments p = none := ho.increments_none h
      exact .acquired ho (resLockAcquire_spec hnew (h.entry q) rfl)
    · cases hstep
  | awakened me =>
    split at hstep
    next q p hphase =>
      split at hstep
      · cases hstep
      next hme =>
        cases hstep
        -- a sleeper that is not in the wait queue any more has been granted
        have hg : (me, p) ∈ (s.entries q).granted := by
          by_contra hg
          exact hme (((h.backend me).waits q).2 ⟨p, hphase, hg⟩)
        have hheld : 0 < (s.entries q).held me := held_pos.2 ⟨p, hg⟩
        obtain ⟨pl, hpl⟩ := isSome_iff_exists.1 (((h.entry q).procLock_isSome me).2 (.inl hheld))
        have hmask : ((s.entries q).procLocks me).any ProcLock.holdMask = true := by
          rw [hpl]
          exact ((h.entry q).procLock_some me pl hpl).2.2 hheld
        rw [if_pos hmask]
        exact .leaves rfl rfl hphase hme (.inl rfl)
    · cases hstep
  | cancel me =>
    split at hstep
    next q p hphase =>
      obtain ⟨⟨e', b'⟩, hr, rfl⟩ := map_eq_some_iff.1 hstep
      have ha : ActsOn s me q p := by
        refine ⟨fun q' p' hab => ?_, (h.backend me).portals.about q p (.inl hphase)⟩
        rw [hphase] at hab
        exact about_waiting hab
      unfold resLockWaitCancel at hr
      split at hr
      next hme =>
        obtain ⟨_, hwake, heq⟩ := map_eq_some_iff.1 hr
        obtain ⟨rfl, rfl⟩ := mk.inj heq
        have hpl := ((h.entry q).procLock_isSome me).2 (.inr (.inl hme))
        have hrel := Released.cancelled h hphase hme
        have hkeep := ha.keep h hrel (.inr rfl) (.inl rfl)
        rw [← hrel.portals] at hkeep
        exact .givenBack rfl (by simp [givesUp, hphase, hme, hpl]) ha (.inr rfl) hrel hrel.increments
          hkeep (.inr hwake)
      next hme =>
        obtain ⟨rfl, rfl⟩ := mk.inj (some.inj hr)
        exact .leaves rfl (by simp [givesUp, hphase, hme]) hphase hme (.inr rfl)
    · cases hstep
  | handleError me =>
    split at hstep
    next q p err hphase =>
      obtain ⟨⟨e', b'⟩, hr, rfl⟩ := map_eq_some_iff.1 hstep
      have ha : ActsOn s me q p := by
        refine ⟨fun q' p' hab => ?_, (h.backend me).portals.about q p (.inr ⟨err, hphase⟩)⟩
        rw [hphase] at hab
        exact about_failed hab
      obtain ⟨e, hrel, hwake⟩ := resLockRelease_spec h ha (by simp [hphase]) hr
      have hkeep := ha.keep h hrel (.inl rfl) (.inr ⟨rfl, rfl⟩)
      rw [← hrel.portals] at hkeep
      exact .givenBack rfl (by simp only [givesUp, hphase]) ha (.inl rfl) hrel hrel.increments hkeep
        hwake
    · cases hstep
  | release me p =>
    split at hstep
    next q hportal =>
      obtain ⟨hphase, hmem⟩ := runningPortal_eq_some hportal
      obtain ⟨⟨e', b'⟩, hr, rfl⟩ := map_eq_some_iff.1 hstep
      have ha : ActsOn s me q p := by
        refine ⟨fun q' p' hab => ?_, hmem⟩
        rw [hphase] at hab
        exact absurd hab not_about_running
      obtain ⟨e, hrel, hwake⟩ := resLockRelease_spec h ha (by simp [hphase]) hr
      have hb : b'.phase = .running := (resLockRelease_phase hr).trans hphase
      have hback : { b' with phase := .running, portals := (s.backends me).portals } = b' := by
        rw [← hrel.portals, ← hb]
      have hkeep := ha.keep h hrel (.inl rfl) (.inl rfl)
      rw [hback] at hkeep
      exact .givenBack rfl (by simp only [givesUp, hportal]) ha (.inl hb) hrel hrel.increments hkeep
        hwake
    · cases hstep
  | createQueue q settings =>
    split at hstep
    · cases hstep
      exact .created ‹_›
    · cases hstep
  | alterQueue q settings =>
    split at hstep
    · cases hstep
    · obtain ⟨_, halter, rfl⟩ := map_eq_some_iff.1 hstep
      exact .altered ‹_› halter
  | dropQueue q =>
    split at hstep
    · cases hstep
    split_ifs at hstep
    cases hstep
    exact .dropped ‹_› ‹_›

theorem Inv.leaves (h : Inv s) (hphase : (s.backends me).phase = .waiting q p)
    (hme : me ∉ (s.entries q).waiters) {phase : Phase κ ρ}
    (hnew : phase = .running ∨ phase = .failed q p .cancelled) :
    Inv (s.set q (s.entries q) me { s.backends me with phase := phase }) := by
  have hb := h.backend me
  have hg : (me, p) ∈ (s.entries q).granted := by
    by_contra hg
    exact hme ((hb.waits q).2 ⟨p, hphase, hg⟩)
  obtain ⟨hnot, -, hwaiting, -, habout⟩ := clean hnew (.inl rfl)
  have hold : ∀ q' p', (s.backends me).phase.about q' p' → q' = q ∧ p' = p := by
    intro q' p' hab
    rw [hphase] at hab
    exact about_waiting hab
  have hportal : (p, q) ∈ (s.backends me).portals := hb.portals.about q p (.inl hphase)
  refine h.update (v := (s.backends me).increments p) (w := (s.backends me).localLocks q)
    ⟨?_, fun _ _ => Iff.rfl, fun _ _ => Iff.rfl, habout, ?_, ?_, ?_, ?_, ?_, ?_, ?_, ?_⟩ hold ?_ ?_
  · refine (h.entry q).congr_extra fun pid => ?_
    by_cases hpid : pid = me
    · subst hpid
      simp [hphase, hnot]
    · simp [hpid]
  · rw [update_eq_self]
  · exact iff_of_true ((hb.increments.isSome p).2 (.inl ⟨q, hg⟩)) (.inl hg)
  · exact fun inc hinc => hb.increments.count p inc hinc
  · rw [update_eq_self]
  · exact iff_of_true ((hb.localLocks.complete q).2 (.inl ⟨p, hg⟩)) (.inl ⟨p, hg⟩)
  · exact iff_of_true ((hb.localLocks.isSome q).2 (.inl ⟨p, hg⟩)) (.inl ⟨p, hg⟩)
  · simp [hme, hwaiting]
  · exact fun _ => hg
  · exact fun q' hq hg' => hq (hb.portals.unique (hb.portals.granted q' p hg') hportal)
  · refine hb.portals.mono hportal (fun q' p' hg' => ?_) habout
    rw [State.set, update_eq_self] at hg'
    exact .inl hg'

omit [DecidableEq π] [DecidableEq ρ] in
/-- A command on a queue leaves everything but the queue itself as it is. -/
theorem State.setQueue_entries (s : State π κ ρ) (q : κ) (queue : Option ResQueue) (q' : κ) :
    ∃ queue', (s.setQueue q queue).entries q' = { s.entries q' with queue := queue' } := by
  by_cases hq : q' = q
  · subst hq
    exact ⟨queue, update_self ..⟩
  · exact ⟨_, update_of_ne hq ..⟩

omit [DecidableEq ρ] in
theorem Inv.setQueue (h : Inv s) {queue : Option ResQueue} (hsome : ∀ queue', queue = some queue' →
      queue'.currentValue .count = (s.entries q).granted.length)
    (hnone : queue = none → (s.entries q).granted = []) : Inv (s.setQueue q queue) := by
  refine ⟨fun q' => ?_, fun pid => (h.backend pid).congr (fun q' p' => ?_) fun q' => ?_⟩
  · by_cases hq : q' = q
    · subst hq
      simp only [setQueue, update_self]
      exact { h.entry q' with queue_some := hsome, queue_none := hnone }
    · simp only [State.setQueue, update_of_ne hq]
      exact h.entry q'
  · obtain ⟨_, hq⟩ := s.setQueue_entries q queue q'
    rw [grantedTo, hq, grantedTo]
  · obtain ⟨_, hq⟩ := s.setQueue_entries q queue q'
    rw [waitsIn, hq, waitsIn]
    rfl

/-- **Every step keeps the invariant.** -/
theorem Stepped.inv (h : Inv s) (hs : Stepped s a t) : Inv t := by
  cases hs with
  | acquired ho hac => exact h.acquired ho rfl _ hac
  | leaves _ _ hphase hme hnew => exact h.leaves hphase hme hnew
  | givenBack _ _ _ _ hrel _ hkeep hwake => exact hkeep.wakes (hrel.not_waits h) hwake
  | created hqueue =>
    refine h.setQueue ?_ (by simp)
    rintro _ ⟨⟩
    rw [(h.entry _).queue_none hqueue]
    rfl
  | altered hqueue halter =>
    refine h.setQueue ?_ (by simp)
    rintro _ ⟨⟩
    unfold resAlterQueue at halter
    split_ifs at halter
    cases halter
    have hcount := (h.entry _).queue_some _ hqueue
    exact hcount
  | dropped hqueue hdrop =>
    refine h.setQueue (by simp) fun _ => ?_
    have hcount := (h.entry _).queue_some _ hqueue
    simp only [resDestroyQueue, Bool.and_eq_true, decide_eq_true_eq] at hdrop
    rw [hdrop.1.1] at hcount
    exact List.length_eq_zero_iff.1 (by exact_mod_cast hcount.symm)

theorem Inv.step (h : Inv s) (hstep : step s a = some t) : Inv t := (step_spec h hstep).inv h

end Cloudberry.ResScheduler
