/-
# What a release and a cancellation can do

`ResLockRelease` is called for a portal that is granted, for one that is not any
more, and by the error handlers for one that may never have been. In every case
the portal is not granted afterwards and has no increments, and the local lock
goes with the backend's last portal (`Released`); then the waiters may be looked
at once more.
-/

import Cloudberry.ResScheduler.Acquire

namespace Cloudberry.ResScheduler

open Entry List Function Option State Prod

variable {π κ ρ : Type*} [DecidableEq π] [DecidableEq κ] [DecidableEq ρ]
  {s : State π κ ρ} {me : π} {q : κ} {p : ρ}

/-- **What a release or a cancellation does to its own portal**, before anybody is
woken. -/
structure Released (s : State π κ ρ) (me : π) (q : κ) (p : ρ) (e : Entry π ρ) (b : Backend κ ρ) :
    Prop where
  entry : EntryOk 0 (fun pid => pid ≠ me ∧ (s.backends pid).phase.lingers q) e
  granted : e.granted = (s.entries q).granted.erase (me, p)
  waiters : e.waiters = (s.entries q).waiters.erase me
  increments : b.increments = update (s.backends me).increments p none
  localLocks : ∃ w, b.localLocks = update (s.backends me).localLocks q w ∧
    (w = some ⟨true, true⟩ ↔ ∃ p', (me, p') ∈ e.granted) ∧
    (w.isSome = true ↔ ∃ p', (me, p') ∈ e.granted)
  portals : b.portals = (s.backends me).portals
  lock : ((s.entries q).procLocks me).isSome = true ∧
      (e.lock.isSome = true → e.granted ≠ [] ∨ e.waiters ≠ []) ∨
    (s.entries q).procLocks me = none ∧ e = s.entries q
  queue : ((me, p) ∉ (s.entries q).granted ∧ e.queue = (s.entries q).queue) ∨
    ∃ inc, (s.backends me).increments p = some inc ∧ (me, p) ∈ (s.entries q).granted ∧
      e.queue = (s.entries q).queue.map (·.resLockUpdateLimit inc false)

variable {b : Backend κ ρ} {e : Entry π ρ}

theorem Released.not_waits (h : Inv s) (hrel : Released s me q p e b) : me ∉ e.waiters := by
  rw [hrel.waiters]
  exact (h.entry q).waiters_nodup.not_mem_erase

structure ActsOn (s : State π κ ρ) (me : π) (q : κ) (p : ρ) : Prop where
  about : ∀ q' p', (s.backends me).phase.about q' p' → q' = q ∧ p' = p
  portal : (p, q) ∈ (s.backends me).portals

namespace ActsOn

variable (ha : ActsOn s me q p) (h : Inv s)

include ha h

omit [DecidableEq κ] [DecidableEq ρ] in
theorem increments_isSome : ((s.backends me).increments p).isSome = true ↔
    (me, p) ∈ (s.entries q).granted ∨ (s.backends me).phase = .waiting q p := by
  rw [(h.backend me).increments.isSome p]
  constructor
  · rintro (⟨q', hg⟩ | ⟨q', hphase⟩)
    · obtain rfl := (h.backend me).portals.unique ((h.backend me).portals.granted q' p hg) ha.portal
      exact .inl hg
    · obtain ⟨rfl, -⟩ := ha.about q' p (.inl hphase)
      exact .inr hphase
  · rintro (hg | hphase)
    · exact .inl ⟨q, hg⟩
    · exact .inr ⟨q, hphase⟩

theorem keep (hrel : Released s me q p e b) {phase : Phase κ ρ}
    (hphase : phase = .running ∨ phase = .failed q p .cancelled) {portals : List (ρ × κ)}
    (hportals : portals = (s.backends me).portals ∨
      phase = .running ∧ portals = (s.backends me).portals.filter (·.1 ≠ p)) :
    Inv (s.set q e me { b with phase := phase, portals := portals }) := by
  obtain ⟨hnot, hlocally, hwaiting, hdead, habout⟩ := Phase.clean hphase (.inl rfl)
  have hnodup := (h.entry q).granted_nodup
  have hG : (me, p) ∉ e.granted := by
    rw [hrel.granted]
    exact hnodup.not_mem_erase
  have hW : me ∉ e.waiters := hrel.not_waits h
  have hgranted : ∀ g, g ≠ (me, p) → (g ∈ e.granted ↔ g ∈ (s.entries q).granted) := by
    intro g hg
    rw [hrel.granted, mem_erase_of_ne hg]
  have hone : ∀ q', q' ≠ q → ¬ s.grantedTo me q' p := fun q' hq hg =>
    hq ((h.backend me).portals.unique ((h.backend me).portals.granted q' p hg) ha.portal)
  obtain ⟨w, hlocal, hw, hw'⟩ := hrel.localLocks
  refine h.update (v := none) (w := w)
    ⟨?_, hgranted, ?_, habout, hrel.increments, ?_, ?_, hlocal, ?_, ?_, ?_, ?_⟩ ha.about hone ?_
  · exact hrel.entry.congr_extra fun pid => by simp [hnot]
  · intro pid hpid
    rw [hrel.waiters, mem_erase_of_ne hpid]
  · simp [hG, hwaiting]
  · simp
  · rw [hw]
    simp [hW, hnot]
  · rw [hw']
    simp [hW, hlocally]
  · simp [hW, hwaiting]
  · simp [hdead]
  · have hsub : ∀ q' p', (s.set q e me { b with phase := phase, portals := portals }).grantedTo me q'
        p' → s.grantedTo me q' p' ∧ p' ≠ p := by
      intro q' p' hg
      have hp : p' ≠ p := by
        rintro rfl
        by_cases hq : q' = q
        · subst hq
          exact hG (by simpa [grantedTo] using hg)
        · exact hone q' hq ((grantedTo_set_iff hgranted (.inr (.inl hq))).1 hg)
      exact ⟨(grantedTo_set_iff hgranted (.inr (.inr hp))).1 hg, hp⟩
    rcases hportals with rfl | ⟨rfl, rfl⟩
    · exact (h.backend me).portals.mono ha.portal (fun q' p' hg => .inl (hsub q' p' hg).1) habout
    · exact (h.backend me).portals.reset hsub

end ActsOn

/-- What the wakeup that follows may add: nothing if the queue's counters have not
moved, or one pass over the waiters. -/
def Wakes (s : State π κ ρ) (me : π) (q : κ) (e e' : Entry π ρ) : Prop :=
  (e' = e ∧ e.queue = (s.entries q).queue) ∨
    resProcLockRemoveSelfAndWakeup s.waitingFor me e.waiters e = some e'

theorem Inv.wakes {e e' : Entry π ρ} (h : Inv (s.set q e me b)) (hme : me ∉ e.waiters)
    (hwake : Wakes s me q e e') : Inv (s.set q e' me b) := by
  rcases hwake with ⟨rfl, -⟩ | hwake
  · exact h
  · exact (h.wakeup_rule (P := fun _ => True) hme trivial (fun _ _ _ _ _ _ _ _ _ _ _ _ _ _ => trivial)
      hwake).1

section Release

variable {e' : Entry π ρ} {b' : Backend κ ρ}

omit [DecidableEq π] [DecidableEq ρ] in
theorem Backend.removeLastLocalLock_some {pl : ProcLock} {n : ℕ} (hn : pl.nLocks = n)
    (hlocal : b.localLocks q = some ⟨true, true⟩) : b.removeLastLocalLock q (some pl) = { b with
      localLocks := update b.localLocks q (if n = 0 then none else some ⟨true, true⟩) } := by
  simp only [Backend.removeLastLocalLock, hn]
  by_cases hzero : n = 0
  · rw [if_pos (by rw [hzero]; rfl), if_pos hzero]
    rfl
  · rw [if_neg (by exact_mod_cast hzero), if_neg hzero, ← hlocal, update_eq_self]

section NotWaiting

variable (h : Inv s) (ha : ActsOn s me q p) (hphase : ∀ q p, (s.backends me).phase ≠ .waiting q p)
include h hphase

omit [DecidableEq κ] [DecidableEq ρ] in
theorem Inv.not_waits : me ∉ (s.entries q).waiters := by
  intro hw
  obtain ⟨p', hw, -⟩ := ((h.backend me).waits q).1 hw
  exact hphase q p' hw

include ha

omit [DecidableEq κ] [DecidableEq ρ] in
theorem ActsOn.increments_eq_none (hg : (me, p) ∉ (s.entries q).granted) :
    (s.backends me).increments p = none := by
  rw [← not_isSome_iff_eq_none, ha.increments_isSome h]
  simp [hg, hphase q p]

theorem Released.nothing (hlocal : (s.backends me).localLocks q ≠ some ⟨true, true⟩) :
    Released s me q p (s.entries q) ((s.backends me).removeLocalLock q) := by
  have hnone := mt ((h.backend me).localLocks.complete q).2 hlocal
  simp only [not_or] at hnone
  obtain ⟨hG, hW, hlinger⟩ := hnone
  have hg : (me, p) ∉ (s.entries q).granted := fun hg => hG ⟨p, hg⟩
  have hpl : (s.entries q).procLocks me = none := by
    rw [← not_isSome_iff_eq_none, (h.entry q).procLock_isSome me, held_pos]
    simp only [not_or]
    exact ⟨hG, hW, hlinger⟩
  refine ⟨?_, ?_, ?_, ?_, ⟨none, rfl, ?_, ?_⟩, rfl, .inr ⟨hpl, rfl⟩, .inl ⟨hg, rfl⟩⟩
  · refine (h.entry q).congr_extra fun pid => ?_
    by_cases hpid : pid = me
    · subst hpid
      simp [hlinger]
    · simp [hpid]
  · exact (erase_of_not_mem hg).symm
  · exact (erase_of_not_mem hW).symm
  · rw [← ha.increments_eq_none h hphase hg, update_eq_self]
    rfl
  · simpa [grantedTo] using hG
  · simpa [grantedTo] using hG

/-- Where the portal is not granted, the entry is only tidied up. -/
theorem Released.collected (hpl : ((s.entries q).procLocks me).isSome = true)
    (hg : (me, p) ∉ (s.entries q).granted)
    (hb : b.increments = (s.backends me).increments ∧ b.portals = (s.backends me).portals)
    {w : Option LocalLock} (hlocal : b.localLocks = update (s.backends me).localLocks q w)
    (hw : w = some ⟨true, true⟩ ↔ ∃ p', (me, p') ∈ (s.entries q).granted)
    (hw' : w.isSome = true ↔ ∃ p', (me, p') ∈ (s.entries q).granted) :
    Released s me q p ((s.entries q).collect me) b := by
  have hW : me ∉ (s.entries q).waiters := h.not_waits hphase
  refine ⟨(h.entry q).collect hW, ?_, ?_, ?_, ⟨w, hlocal, ?_, ?_⟩, hb.2,
    .inl ⟨hpl, (h.entry q).lock_collect hW⟩, .inl ⟨hg, by simp⟩⟩
  · rw [granted_collect, erase_of_not_mem hg]
  · rw [(h.entry q).waiters_collect hW, erase_of_not_mem hW]
  · rw [hb.1, ← ha.increments_eq_none h hphase hg, update_eq_self]
  · rwa [granted_collect]
  · rwa [granted_collect]

theorem Released.notHeld (hpl : ((s.entries q).procLocks me).isSome = true)
    (hheld : ¬ 0 < (s.entries q).held me) :
    Released s me q p ((s.entries q).collect me) ((s.backends me).removeLocalLock q) := by
  have hG : ¬ ∃ p', (me, p') ∈ (s.entries q).granted := by rwa [← held_pos]
  refine .collected h ha hphase hpl (fun hg => hG ⟨p, hg⟩) ⟨rfl, rfl⟩ (w := none) rfl ?_ ?_
  · simpa using hG
  · simpa using hG

theorem Released.other (hheld : 0 < (s.entries q).held me)
    (hinc : (s.backends me).increments p = none) :
    Released s me q p ((s.entries q).collect me) (s.backends me) := by
  have hG : ∃ p', (me, p') ∈ (s.entries q).granted := held_pos.1 hheld
  have hg : (me, p) ∉ (s.entries q).granted := fun hg => by
    have hsome := (ha.increments_isSome h).2 (.inl hg)
    rw [hinc] at hsome
    cases hsome
  have hpl := ((h.entry q).procLock_isSome me).2 (.inl hheld)
  refine .collected h ha hphase hpl hg ⟨rfl, rfl⟩ (w := some ⟨true, true⟩) ?_ ?_ ?_
  · rw [← ((h.backend me).localLocks.complete q).2 (.inl hG), update_eq_self]
  · simpa using hG
  · simpa using hG

theorem Released.given {inc : Increments} (hinc : (s.backends me).increments p = some inc)
    (he : e = ((s.entries q).resUnGrantLock me p).resLockUpdateLimit inc false) :
    Released s me q p (e.collect me)
      (((s.backends me).removeLastLocalLock q (e.procLocks me)).resIncrementRemove p) := by
  have hg : (me, p) ∈ (s.entries q).granted := by
    have hsome := (ha.increments_isSome h).1 (by rw [hinc]; rfl)
    exact hsome.resolve_right (hphase q p)
  have hW : me ∉ (s.entries q).waiters := h.not_waits hphase
  have hcomplete : (s.backends me).localLocks q = some ⟨true, true⟩ :=
    ((h.backend me).localLocks.complete q).2 (.inl ⟨p, hg⟩)
  have hungrant := (h.entry q).ungrant hg ((h.backend me).increments.count p inc hinc)
  rw [← he] at hungrant
  have hgranted : e.granted = (s.entries q).granted.erase (me, p) := by rw [he]; rfl
  have hwaiters : e.waiters = (s.entries q).waiters := by simp [he]
  have hW' : me ∉ e.waiters := by rwa [hwaiters]
  obtain ⟨pl, hpl⟩ := isSome_iff_exists.1 ((hungrant.procLock_isSome me).2 (.inr (.inr (.inl rfl))))
  obtain ⟨hn, -⟩ := hungrant.procLock_some me pl hpl
  rw [hpl, Backend.removeLastLocalLock_some hn hcomplete]
  have hown := ((h.entry q).procLock_isSome me).2 (.inl (held_pos.2 ⟨p, hg⟩))
  refine ⟨?_, ?_, ?_, rfl, ⟨_, rfl, ?_, ?_⟩, rfl, .inl ⟨hown, hungrant.lock_collect hW'⟩,
    .inr ⟨inc, hinc, hg, ?_⟩⟩
  · refine (hungrant.collect hW').congr_extra fun pid => ?_
    tauto
  · rw [granted_collect, hgranted]
  · rw [hungrant.waiters_collect hW', hwaiters, erase_of_not_mem hW]
  · rw [granted_collect, ← held_pos]
    split <;> simp_all [pos_iff_ne_zero]
  · rw [granted_collect, ← held_pos]
    split <;> simp_all [pos_iff_ne_zero]
  · rw [queue_collect, he]
    rfl

theorem resLockRelease_spec
    (hr : resLockRelease s.waitingFor me q p (s.entries q) (s.backends me) = some (e', b')) :
    ∃ e, Released s me q p e b' ∧ Wakes s me q e e' := by
  unfold resLockRelease at hr
  cases hlocal : (s.backends me).localLocks q with
  | none =>
    simp only [hlocal] at hr
    obtain ⟨rfl, rfl⟩ := mk.inj (some.inj hr)
    have hback : (s.backends me).removeLocalLock q = s.backends me := by
      rw [Backend.removeLocalLock, ← hlocal, update_eq_self]
    have hrel := Released.nothing h ha hphase (by rw [hlocal]; simp)
    rw [hback] at hrel
    exact ⟨_, hrel, .inl ⟨rfl, rfl⟩⟩
  | some l =>
    simp only [hlocal] at hr
    split at hr
    · -- the pointers are not set
      rename_i hnull
      obtain ⟨rfl, rfl⟩ := mk.inj (some.inj hr)
      refine ⟨_, Released.nothing h ha hphase ?_, .inl ⟨rfl, rfl⟩⟩
      rw [hlocal]
      rintro ⟨⟩
      cases hnull
    split at hr
    next l' pl hlock hpl =>
      obtain ⟨hn, hmask⟩ := (h.entry q).procLock_some me pl hpl
      split at hr
      · -- nothing held
        rename_i hnot
        obtain ⟨rfl, rfl⟩ := mk.inj (some.inj hr)
        refine ⟨_, Released.notHeld h ha hphase (by rw [hpl]; rfl) ?_, .inl ⟨rfl, by simp⟩⟩
        rcases hnot with hnot | hnot
        · rw [← hmask, hnot]
          decide
        · omega
      next hholds =>
        have hheld : 0 < (s.entries q).held me := by
          rw [not_or, not_le, hn] at hholds
          exact_mod_cast hholds.2
        split at hr
        · -- other portals only
          rename_i hinc
          obtain ⟨e₁, hwake, heq⟩ := map_eq_some_iff.1 hr
          obtain ⟨rfl, rfl⟩ := mk.inj heq
          have hback : (s.backends me).removeLastLocalLock q (some pl) = s.backends me := by
            rw [Backend.removeLastLocalLock, if_neg]
            rw [hn]
            exact_mod_cast hheld.ne'
          rw [hback]
          exact ⟨_, Released.other h ha hphase hheld hinc, .inr hwake⟩
        next inc hinc =>
          split_ifs at hr
          obtain ⟨e₁, hwake, heq⟩ := map_eq_some_iff.1 hr
          obtain ⟨rfl, rfl⟩ := mk.inj heq
          exact ⟨_, Released.given h ha hphase hinc rfl, .inr hwake⟩
    · cases hr

end NotWaiting

theorem Released.cancelled (h : Inv s) (hphase : (s.backends me).phase = .waiting q p)
    (hme : me ∈ (s.entries q).waiters) :
    Released s me q p (((s.entries q).leaveQueue me).unrequest.collect me)
      (((s.backends me).removeLastLocalLock q ((s.entries q).procLocks me)).resIncrementRemove p) := by
  have hb := h.backend me
  have hnot : (me, p) ∉ (s.entries q).granted := by
    obtain ⟨_, hphase', hnot⟩ := (hb.waits q).1 hme
    rw [hphase] at hphase'
    cases hphase'
    exact hnot
  have hleft := ((h.entry q).leaveQueue hme).unrequest
  have hwaiters : ((s.entries q).leaveQueue me).unrequest.waiters =
      (s.entries q).waiters.erase me := by simp
  have hW : me ∉ ((s.entries q).leaveQueue me).unrequest.waiters := by
    rw [hwaiters]
    exact (h.entry q).waiters_nodup.not_mem_erase
  obtain ⟨pl, hpl⟩ := isSome_iff_exists.1 (((h.entry q).procLock_isSome me).2 (.inr (.inl hme)))
  obtain ⟨hn, -⟩ := (h.entry q).procLock_some me pl hpl
  have hcomplete : (s.backends me).localLocks q = some ⟨true, true⟩ :=
    (hb.localLocks.complete q).2 (.inr (.inl hme))
  have hgranted : (((s.entries q).leaveQueue me).unrequest.collect me).granted =
      (s.entries q).granted := granted_collect _ _
  rw [hpl, Backend.removeLastLocalLock_some hn hcomplete]
  refine ⟨?_, ?_, ?_, rfl, ⟨_, rfl, ?_, ?_⟩, rfl, .inl ⟨by rw [hpl]; rfl, hleft.lock_collect hW⟩,
    .inl ⟨hnot, queue_collect _ _⟩⟩
  · refine (hleft.collect hW).congr_extra fun pid => ?_
    tauto
  · rw [hgranted, erase_of_not_mem hnot]
  · rw [hleft.waiters_collect hW, hwaiters]
  · rw [hgranted, ← held_pos]
    split <;> simp_all [pos_iff_ne_zero]
  · rw [hgranted, ← held_pos]
    split <;> simp_all [pos_iff_ne_zero]

end Release

end Cloudberry.ResScheduler
