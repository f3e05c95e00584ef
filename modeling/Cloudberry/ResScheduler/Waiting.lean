/-
# Nobody waits in a queue for itself alone

The limit check (`ResLockCheckLimit`) lets a request wait when a counter would pass its threshold;
the self deadlock check (`ResCheckSelfDeadLock`) raises an error when the portals of the backend
alone pass a threshold. Where both use the same rule, a request that waits fits beside the backend's
own portals, so somebody else holds what it lacks; and since every release looks at all waiters
once, nobody waits who would pass the check now (`Sweep.sweep_refused`).

With overcommit the rules differ. The self deadlock check lets a single portal
pass whatever cost and memory it asks for; the limit check has that exception for
the cost only. So on a queue with overcommit and a memory threshold, a statement
that asks for more memory than the threshold waits although nobody else is there,
and for ever. `Fits` excludes this.
-/

import Cloudberry.ResScheduler.Load

namespace Cloudberry.ResScheduler

open Entry List Function State ResQueue Backend Prod Machine

variable {π κ ρ : Type*}

/-- No waiting request passes the check, and none is refused for good. -/
def Refused (s : State π κ ρ) (q : κ) : Prop :=
  ∀ pid p inc queue, pid ∈ (s.entries q).waiters → (s.backends pid).phase = .waiting q p →
    (s.backends pid).increments p = some inc → (s.entries q).queue = some queue →
    queue.resLockCheckLimit inc = .found

variable [DecidableEq π] [DecidableEq κ]

section Settings

variable (settings : QueueSettings) (q : κ)

/-- The request is not one that waits in vain: with overcommit it asks for no more
memory than the queue's threshold, or its backend has another portal in the
queue. -/
def Fits (s : State π κ ρ) : Event π κ ρ → Prop
  | .acquire me q' _ _ memory _ _ => q' = q → settings.overcommit = true →
    ∀ threshold, settings.limits .memory = some threshold →
      memory ≤ threshold ∨ ∃ p, (me, p) ∈ (s.entries q).granted
  | _ => True

/-- A waiter has passed the self deadlock check, and asks for no more memory than
it can get. -/
def Parked (s : State π κ ρ) : Prop :=
  ∀ pid p inc, pid ∈ (s.entries q).waiters → (s.backends pid).phase = .waiting q p →
    (s.backends pid).increments p = some inc →
    (resCreateQueue settings).resCheckSelfDeadLock ((s.backends pid).ownIncrements q) = false ∧
    (settings.overcommit = true → ∀ threshold, settings.limits .memory = some threshold →
      inc .memory ≤ threshold ∨ ∃ p', (pid, p') ∈ (s.entries q).granted)

/-- What is known about the waiters of a queue while its limits are unchanged. -/
structure WaitInv (s : State π κ ρ) : Prop where
  refused : Refused s q
  parked : Parked settings q s

end Settings

variable [DecidableEq ρ] {s t : State π κ ρ} {me : π} {q : κ} {p : ρ} {e e' : Entry π ρ}
  {b : Backend κ ρ} {inc : Increments}

variable {v : Option Increments} {q' : κ}

section Step

variable {settings : QueueSettings}

section

variable (hw : WaitInv settings q s)
include hw

omit [DecidableEq π] [DecidableEq ρ] in
theorem WaitInv.keep (hgranted : (t.entries q).granted = (s.entries q).granted)
    (hqueue : (t.entries q).queue = (s.entries q).queue)
    (hwaiters : (t.entries q).waiters = (s.entries q).waiters)
    (hsame : ∀ pid ∈ (s.entries q).waiters, t.backends pid = s.backends pid) :
    WaitInv settings q t := by
  refine ⟨fun pid p' inc' queue hpid => ?_, fun pid p' inc' hpid => ?_⟩
  · rw [hwaiters] at hpid
    rw [hqueue, hsame pid hpid]
    exact hw.refused pid p' inc' queue hpid
  · rw [hwaiters] at hpid
    rw [hgranted, hsame pid hpid]
    exact hw.parked pid p' inc' hpid

omit [DecidableEq ρ] in
theorem WaitInv.set_of_ne (hq : q ≠ q') (hme : me ∉ (s.entries q).waiters) :
    WaitInv settings q (s.set q' e me b) := by
  have hentry : (s.set q' e me b).entries q = s.entries q := set_entries_of_ne hq
  exact hw.keep (by rw [hentry]) (by rw [hentry]) (by rw [hentry])
    fun pid hpid => set_backends_of_ne fun heq => hme (heq ▸ hpid)

omit [DecidableEq π] [DecidableEq ρ] in
theorem WaitInv.setQueue_of_ne {queue : Option ResQueue} (hq : q' ≠ q) :
    WaitInv settings q (s.setQueue q' queue) := by
  have hentry : (s.setQueue q' queue).entries q = s.entries q := update_of_ne hq.symm ..
  exact hw.keep (by rw [hentry]) (by rw [hentry]) (by rw [hentry]) fun _ _ => rfl

end

omit [DecidableEq ρ] in
theorem Parked.set (hp : Parked settings q s) (hme : me ∉ e.waiters)
    (hwaiters : ∀ pid, pid ∈ e.waiters → pid ∈ (s.entries q).waiters)
    (hgranted : ∀ g ∈ (s.entries q).granted, g.1 ≠ me → g ∈ e.granted) :
    Parked settings q (s.set q e me b) := by
  intro pid p' inc' hpid hphase hinc
  rw [set_entries_self] at hpid ⊢
  have hne : pid ≠ me := fun heq => hme (heq ▸ hpid)
  rw [set_backends_of_ne hne] at hphase hinc ⊢
  obtain ⟨hself, hfits⟩ := hp pid p' inc' (hwaiters pid hpid) hphase hinc
  refine ⟨hself, fun hover threshold hthreshold => (hfits hover threshold hthreshold).imp_right ?_⟩
  rintro ⟨p'', hg⟩
  exact ⟨p'', hgranted _ hg hne⟩

theorem WaitInv.effect {o : Outcome} {utility : Bool} (hw : WaitInv settings q s) (h : Inv s)
    (hc : Counted settings q s) (ho : Opens s me p) (hinc : ∀ i, 0 ≤ inc i)
    (hfits : settings.overcommit = true → ∀ threshold, settings.limits .memory = some threshold →
      inc .memory ≤ threshold ∨ ∃ p, (me, p) ∈ (s.entries q).granted)
    (heff : Effect s me q p inc o e b) :
    WaitInv settings q (s.set q e me (b.settle q p utility o)) := by
  have hW := ho.not_waits h q
  obtain ⟨queue₀, hqueue₀, hlimits, _⟩ := hc.tracks
  cases heff with
  | none hgranted hqueue hwaiters ho' hinc' =>
    exact hw.keep (by rw [set_entries_self, hgranted]) (by rw [set_entries_self, hqueue])
      (by rw [set_entries_self, hwaiters])
      fun pid hpid => set_backends_of_ne fun heq => hW (heq ▸ hpid)
  | granted hgranted hqueue hwaiters ho' hinc' =>
    rw [hqueue₀] at hqueue
    refine ⟨?_, ?_⟩
    · intro pid p' inc' queue hpid hphase hincp hq
      rw [set_entries_self] at hpid hq
      rw [hwaiters] at hpid
      have hne : pid ≠ me := fun heq => hW (heq ▸ hpid)
      rw [set_backends_of_ne hne] at hphase hincp
      rw [hqueue] at hq
      cases hq
      exact found_of_le (sameLimits_up inc true)
        (fun i => currentValue_le_up (hc.isCost hqueue₀ i) (hinc i))
        (hw.refused pid p' inc' queue₀ hpid hphase hincp hqueue₀)
    · refine hw.parked.set (by rwa [hwaiters]) (fun pid hpid => hwaiters ▸ hpid) fun g hg _ => ?_
      rw [hgranted]
      exact mem_cons_of_mem _ hg
  | queued queue hgranted hqueue hsameq hwaiters hinc' hcheck hself ho' =>
    have hsame := (settle_increments b utility o (q := q) (p := p)).trans hinc'
    rw [hqueue₀] at hqueue
    cases hqueue
    have hlast : ∀ pid, pid ∈ e.waiters → pid ≠ me → pid ∈ (s.entries q).waiters := by
      intro pid hpid hne
      rw [hwaiters, mem_append, mem_singleton] at hpid
      exact hpid.resolve_right hne
    -- the increments of the new waiter
    have hmine : ∀ p' inc', (b.settle q p utility o).phase = .waiting q p' →
        (b.settle q p utility o).increments p' = some inc' → inc' = inc := by
      intro p' inc' hphase hincp
      rw [ho'] at hphase
      cases hphase
      rw [hsame, update_self] at hincp
      exact (Option.some.inj hincp).symm
    refine ⟨?_, ?_⟩
    · intro pid p' inc' queue hpid hphase hincp hq
      rw [set_entries_self] at hpid hq
      rw [hsameq] at hq
      cases hq
      by_cases hne : pid = me
      · subst hne
        rw [set_backends_self] at hphase hincp
        rw [hmine p' inc' hphase hincp]
        exact hcheck
      · rw [set_backends_of_ne hne] at hphase hincp
        exact hw.refused pid p' inc' queue₀ (hlast pid hpid hne) hphase hincp hqueue₀
    · intro pid p' inc' hpid hphase hincp
      rw [set_entries_self] at hpid ⊢
      rw [hgranted]
      by_cases hne : pid = me
      · subst hne
        rw [set_backends_self] at hphase hincp ⊢
        rw [hmine p' inc' hphase hincp]
        refine ⟨?_, hfits⟩
        rw [← hlimits.resCheckSelfDeadLock, ho']
        exact hself
      · rw [set_backends_of_ne hne] at hphase hincp ⊢
        exact hw.parked pid p' inc' (hlast pid hpid hne) hphase hincp

theorem Parked.wakes (hp : Parked settings q (s.set q e me b)) (h : Inv (s.set q e me b))
    (hme : me ∉ e.waiters)
    (hwake : resProcLockRemoveSelfAndWakeup s.waitingFor me e.waiters e = some e') :
    Parked settings q (s.set q e' me b) ∧ ∀ pid ∈ e'.waiters, pid ∈ e.waiters := by
  refine (h.wakeup_rule (P := fun e₁ => Parked settings q (s.set q e₁ me b) ∧
    ∀ pid ∈ e₁.waiters, pid ∈ e.waiters) hme ⟨hp, fun _ hpid => hpid⟩ ?_ hwake).2
  rintro e₁ proc p inc queue _ ⟨hp₁, hsub⟩ _ hne _ hinc _ hq _
  refine ⟨?_, fun pid hpid => hsub pid ?_⟩
  · intro pid p' inc' hpid hphase' hinc'
    rw [set_entries_self, waiters_wake] at hpid
    have hpid' : pid ∈ ((s.set q e₁ me b).entries q).waiters := by
      rw [set_entries_self]
      exact mem_of_mem_erase hpid
    obtain ⟨hself, hfits⟩ := hp₁ pid p' inc' hpid' hphase' hinc'
    refine ⟨hself, fun hover threshold hthreshold => (hfits hover threshold hthreshold).imp_right ?_⟩
    rintro ⟨p'', hg⟩
    rw [set_entries_self] at hg ⊢
    exact ⟨p'', mem_cons_of_mem _ hg⟩
  · rw [waiters_wake] at hpid
    exact mem_of_mem_erase hpid

omit [DecidableEq κ] [DecidableEq ρ] in
/-- **The wakeup loop leaves nobody who would pass the check.** -/
theorem wakes_refused
    (hnonneg : ∀ pid ∈ e.waiters, ∀ p inc i, s.waitingFor pid = some (p, inc) → 0 ≤ inc i)
    (hcost : ∀ queue, e.queue = some queue → ∀ i, IsCost i (queue.currentValue i))
    (hnodup : e.waiters.Nodup) (hme : me ∉ e.waiters)
    (hwake : resProcLockRemoveSelfAndWakeup s.waitingFor me e.waiters e = some e') {pid : π}
    {queue : ResQueue} (hpid : pid ∈ e'.waiters) (hpid' : pid ∈ e.waiters)
    (hw : s.waitingFor pid = some (p, inc)) (hqueue : e'.queue = some queue) :
    queue.resLockCheckLimit inc ≠ .ok := by
  have hup : ∀ {e₁ : Entry π ρ} {a p inc queue₁ queue₂}, e₁.queue = some queue₁ →
      (e₁.wake a p inc).queue = some queue₂ → queue₂ = queue₁.resLockUpdateLimit inc true := by
    intro e₁ a p inc queue₁ queue₂ hq₁ hq₂
    have hq₂' : e₁.queue.map (·.resLockUpdateLimit inc true) = some queue₂ := hq₂
    rw [hq₁] at hq₂'
    exact (Option.some.inj hq₂').symm
  have hsweep := resProcLockRemoveSelfAndWakeup_eq hme hwake
  have hfail : admits s.waitingFor e' pid = false := by
    rw [hsweep] at hpid ⊢
    refine Sweep.sweep_refused (P := fun e : Entry π ρ => e.waiters.Nodup ∧
      ∀ queue, e.queue = some queue → ∀ i, IsCost i (queue.currentValue i)) ?_ ?_
      (w := fun e pid => pid ∈ e.waiters) ?_ ⟨hnodup, hcost⟩ hpid' hpid
    · rintro e₁ a - ⟨hnd, hcost₁⟩ hpass
      obtain ⟨p, inc, queue₁, ha, hq₁, -⟩ := admits_eq_true.1 hpass
      simp only [letIn, ha, waiters_wake]
      refine ⟨hnd.erase a, fun queue₂ hq₂ => ?_⟩
      rw [hup hq₁ hq₂]
      exact isCost_resLockUpdateLimit queue₁ inc true
    · rintro e₁ a hmem c ⟨hnd, hcost₁⟩ hpass hpass'
      obtain ⟨p, inc, queue₁, ha, hq₁, -⟩ := admits_eq_true.1 hpass
      simp only [letIn, ha] at hpass'
      obtain ⟨p', inc', queue₂, hc, hq₂, hok⟩ := admits_eq_true.1 hpass'
      rw [hup hq₁ hq₂] at hok
      refine admits_eq_true.2 ⟨p', inc', queue₁, hc, hq₁, ?_⟩
      exact ok_of_le (sameLimits_up inc true)
        (fun i => currentValue_le_up (hcost₁ queue₁ hq₁ i) (hnonneg a hmem p inc i ha)) hok
    · rintro e₁ a c ⟨hnd, -⟩ hpass hc
      obtain ⟨p, inc, _, ha, -, -⟩ := admits_eq_true.1 hpass
      simp only [letIn, ha, waiters_wake] at hc
      exact ⟨mem_of_mem_erase hc, (hnd.mem_erase_iff.1 hc).1⟩
  intro hok
  rw [admits_eq_true.2 ⟨p, inc, queue, hw, hqueue, hok⟩] at hfail
  cases hfail

theorem WaitInv.givenBack {b₁ : Backend κ ρ} (hw : WaitInv settings q s) (h : Inv s)
    (hc : Counted settings q s) (hrel : Released s me q p e b₁)
    (hkeep : Inv (s.set q e me b)) (hwake : Wakes s me q e e')
    (hc' : Counted settings q (s.set q e' me b)) : WaitInv settings q (s.set q e' me b) := by
  have hme : me ∉ e.waiters := hrel.not_waits h
  have hsub : ∀ pid, pid ∈ e.waiters → pid ∈ (s.entries q).waiters := by
    intro pid hpid
    rw [hrel.waiters] at hpid
    exact mem_of_mem_erase hpid
  have hparked : Parked settings q (s.set q e me b) := by
    refine hw.parked.set hme hsub fun g hg hne => ?_
    rw [hrel.granted]
    exact (mem_erase_of_ne fun heq => hne (by rw [heq])).2 hg
  rcases hwake with ⟨rfl, hqueue⟩ | hwake
  · refine ⟨?_, hparked⟩
    intro pid p' inc' queue hpid
    rw [set_entries_self] at hpid ⊢
    have hne : pid ≠ me := fun heq => hme (heq ▸ hpid)
    rw [hqueue, set_backends_of_ne hne]
    exact hw.refused pid p' inc' queue (hsub pid hpid)
  obtain ⟨hparked', hsub'⟩ := hparked.wakes hkeep hme hwake
  refine ⟨?_, hparked'⟩
  intro pid p' inc' queue hpid hphase hinc' hq
  rw [set_entries_self] at hpid
  have hne : pid ≠ me := fun heq => hme (heq ▸ hsub' pid hpid)
  rw [set_backends_of_ne hne] at hphase hinc'
  -- it did not pass, and it is not refused for good, as it was not before
  obtain ⟨queue₀, hq₀, hlimits₀, -⟩ := hc.tracks
  obtain ⟨queue₁, hq₁, hlimits₁, -⟩ := hc'.tracks
  rw [hq] at hq₁
  cases hq₁
  rw [set_entries_self] at hq
  have hbefore := hw.refused pid p' inc' queue₀ (hsub pid (hsub' pid hpid)) hphase hinc' hq₀
  have hnonneg : ∀ pid ∈ e.waiters, ∀ p inc i, s.waitingFor pid = some (p, inc) → 0 ≤ inc i := by
    intro pid hpid p inc i hwaiting
    have hmem : inc ∈ s.waitingIncrements q :=
      mem_filterMap.2 ⟨pid, hsub pid hpid, by rw [hwaiting]; rfl⟩
    exact hc.addsUp.nonneg (mem_append_right _ hmem) i
  have hcost : ∀ queue, e.queue = some queue → ∀ i, IsCost i (queue.currentValue i) := by
    intro queue hqueue i
    rcases hrel.queue with ⟨-, hsame⟩ | ⟨inc, -, -, hsame⟩
    · exact hc.isCost (hsame.symm.trans hqueue) i
    · rw [hsame, hq₀] at hqueue
      cases hqueue
      exact isCost_resLockUpdateLimit queue₀ inc false i
  have hok := wakes_refused hnonneg hcost hrel.entry.waiters_nodup hme hwake hpid (hsub' pid hpid)
    (waitingFor_eq hphase hinc') hq
  cases hcheck : queue.resLockCheckLimit inc' with
  | ok => exact absurd hcheck hok
  | found => rfl
  | error =>
    rw [(hlimits₀.symm.trans hlimits₁).error_iff, hbefore] at hcheck
    cases hcheck

/-- **A step keeps what is known about the waiters** of a queue whose limits it
leaves alone. -/
theorem Stepped.waitInv {a : Event π κ ρ} (hs : Stepped s a t) (h : Inv s)
    (hc : Counted settings q s) (hw : WaitInv settings q s) (hregular : Regular q a)
    (hwithin : Within q s a) (hfits : Fits settings q s a) : WaitInv settings q t := by
  have hc' := hs.counted h hc hregular hwithin
  cases hs with
  | @acquired me q' p cost memory utility room o e b ho hac =>
    by_cases hq : q' = q
    · subst hq
      have hadds := hc.addsUp_cons (hregular rfl) (hwithin rfl)
      exact hw.effect h hc ho (hadds.nonneg mem_cons_self) (hfits rfl) (Acquired.effect h ho hac)
    · exact hw.set_of_ne (Ne.symm hq) (ho.not_waits h q)
  | @leaves _ me q' p phase hactor hgives hphase hme hnew =>
    have hentries : (s.set q' (s.entries q') me { s.backends me with phase := phase }).entries =
        s.entries := update_eq_self ..
    exact hw.keep (by rw [hentries]) (by rw [hentries]) (by rw [hentries])
      fun pid hpid => set_backends_of_ne (h.ne_of_mem_waiters hphase hme hpid)
  | @givenBack _ me q' p e e' b b₁ hactor hgives ha hphase hrel hinc hkeep hwake =>
    by_cases hq : q' = q
    · subst hq
      exact hw.givenBack h hc hrel hkeep hwake hc'
    refine hw.set_of_ne (Ne.symm hq) fun hpid => ?_
    obtain ⟨p', hphase', -⟩ := ((h.backend me).waits q).1 hpid
    exact hq (ha.about q p' (.inl hphase')).1.symm
  | created => exact hw.setQueue_of_ne hregular
  | altered => exact hw.setQueue_of_ne hregular
  | dropped => exact hw.setQueue_of_ne hregular

end Step

section Alone

variable {settings : QueueSettings} {pid : π}

omit [DecidableEq ρ]

theorem Backend.ownIncrements_eq (b : Backend κ ρ) (q : κ) : b.ownIncrements q =
    ((b.portals.filter fun portal => decide (portal.2 = q) && (b.increments portal.1).isSome).map
      fst).filterMap b.increments := by
  unfold ownIncrements
  induction b.portals with
  | nil => rfl
  | cons portal portals ih =>
    by_cases hq : portal.2 = q
    · cases hinc : b.increments portal.1 <;> simp [hq, hinc, ih]
    · simp [hq, ih]

/-- **A backend that waits in a queue where all granted portals are its own**: its
increments are those of the request and of the granted portals. -/
theorem Inv.ownIncrements_perm (h : Inv s) (hphase : (s.backends pid).phase = .waiting q p)
    (hnot : (pid, p) ∉ (s.entries q).granted) (hinc : (s.backends pid).increments p = some inc)
    (hall : ∀ g ∈ (s.entries q).granted, g.1 = pid) :
    ((s.backends pid).ownIncrements q).Perm (inc :: s.grantedIncrements q) := by
  have hb := h.backend pid
  have hcons : inc :: s.grantedIncrements q =
      (p :: (s.entries q).granted.map snd).filterMap (s.backends pid).increments := by
    rw [filterMap_cons_some hinc, filterMap_map, grantedIncrements]
    refine congrArg _ (filterMap_congr fun g hg => ?_)
    rw [hall g hg, comp_apply]
  rw [ownIncrements_eq, hcons]
  refine Perm.filterMap _ ((perm_ext_iff_of_nodup ?_ ?_).2 fun p' => ?_)
  · exact (filter_sublist.map fst).nodup hb.portals.nodup
  · refine nodup_cons.2 ⟨?_, (h.entry q).granted_nodup.map_on ?_⟩
    · rw [mem_map]
      rintro ⟨g, hg, rfl⟩
      exact hnot (by rwa [← hall g hg])
    · intro g hg g' hg' heq
      exact Prod.ext ((hall g hg).trans (hall g' hg').symm) heq
  · -- a portal of the queue with increments is granted or the one asked for
    rw [mem_map, mem_cons, mem_map]
    constructor
    · rintro ⟨⟨p', _⟩, hmem, rfl⟩
      simp only [mem_filter, Bool.and_eq_true, decide_eq_true_eq] at hmem
      obtain ⟨hportal, rfl, hsome⟩ := hmem
      rcases (hb.increments.isSome p').1 hsome with ⟨q₁, hg⟩ | ⟨q₁, hphase₁⟩
      · obtain rfl := hb.portals.unique hportal (hb.portals.granted q₁ p' hg)
        exact .inr ⟨(pid, p'), hg, rfl⟩
      · rw [hphase] at hphase₁
        cases hphase₁
        exact .inl rfl
    · intro hp'
      have hin : (p', q) ∈ (s.backends pid).portals ∧
          ((s.backends pid).increments p').isSome = true := by
        rcases hp' with rfl | ⟨g, hg, rfl⟩
        · exact ⟨hb.portals.about q p' (.inl hphase), by rw [hinc]; rfl⟩
        have hg' : s.grantedTo pid q g.2 := by
          rw [← hall g hg]
          exact hg
        exact ⟨hb.portals.granted q g.2 hg', (hb.increments.isSome g.2).2 (.inl ⟨q, hg'⟩)⟩
      exact ⟨(p', q), mem_filter.2 ⟨hin.1, by simp [hin.2]⟩, rfl⟩

omit [DecidableEq κ] in
theorem Inv.exists_waiting (h : Inv s) (hpid : pid ∈ (s.entries q).waiters) :
    ∃ p inc, (s.backends pid).phase = .waiting q p ∧ (pid, p) ∉ (s.entries q).granted ∧
      (s.backends pid).increments p = some inc := by
  obtain ⟨p, hphase, hnot⟩ := ((h.backend pid).waits q).1 hpid
  obtain ⟨inc, hinc⟩ := Option.isSome_iff_exists.1
    (((h.backend pid).increments.isSome p).2 (.inr ⟨q, hphase⟩))
  exact ⟨p, inc, hphase, hnot, hinc⟩

omit [DecidableEq κ] in
theorem Inv.granted_eq_nil (h : Inv s) (hnone : s.grantedIncrements q = []) :
    (s.entries q).granted = [] := by
  refine eq_nil_iff_forall_not_mem.2 fun g hg => ?_
  obtain ⟨inc', hinc'⟩ := Option.isSome_iff_exists.1
    (((h.backend g.1).increments.isSome g.2).2 (.inl ⟨q, hg⟩))
  have hmem : inc' ∈ s.grantedIncrements q := mem_filterMap.2 ⟨g, hg, hinc'⟩
  rw [hnone] at hmem
  exact not_mem_nil hmem

/-- **A waiter has somebody to wait for.** -/
theorem WaitInv.other_holder (hw : WaitInv settings q s) (h : Inv s) (hc : Counted settings q s)
    (hpid : pid ∈ (s.entries q).waiters) : ∃ g ∈ (s.entries q).granted, g.1 ≠ pid := by
  by_contra hnone
  have hall : ∀ g ∈ (s.entries q).granted, g.1 = pid := by
    intro g hg
    by_contra hne
    exact hnone ⟨g, hg, hne⟩
  obtain ⟨p, inc, hphase, hnot, hinc⟩ := h.exists_waiting hpid
  obtain ⟨queue, hqueue, hlimits, htotal⟩ := hc.tracks
  obtain ⟨-, i, hover⟩ :=
    resLockCheckLimit_eq_found.1 (hw.refused pid p inc queue hpid hphase hinc hqueue)
  obtain ⟨hself, hfits⟩ := hw.parked pid p inc hpid hphase hinc
  have hperm := h.ownIncrements_perm hphase hnot hinc hall
  have hadds : AddsUp (inc :: s.grantedIncrements q) := by
    have hmem : inc ∈ s.waitingIncrements q :=
      mem_filterMap.2 ⟨pid, hpid, by rw [waitingFor_eq hphase hinc]; rfl⟩
    exact hc.addsUp.mono ((perm_append_singleton inc _).symm.subperm.trans
      ((subperm_append_left _).2 (singleton_subperm_iff.2 hmem)))
  have hexact : ∀ i, addCost i (queue.currentValue i) (inc i) = queue.currentValue i + inc i := by
    intro i
    obtain ⟨n, hn, hsmall⟩ := hadds.exists_nat i
    rw [map_cons, sum_cons, add_comm, ← total, ← htotal i] at hn
    exact addCost_of_isCost (hn ▸ isCost_natCast hsmall)
  -- what the self deadlock check adds up is what the limit check compares
  have hsum : ∀ i, totalIncrements i ((s.backends pid).ownIncrements q) =
      addCost i (queue.currentValue i) (inc i) := by
    intro i
    have hown := hadds.mono hperm.subperm
    rw [totalIncrements_eq (fun inc' hmem => hown.whole inc' hmem i) (hown.small i),
      (hperm.map (· i)).sum_eq, map_cons, sum_cons, add_comm, ← total, ← htotal i, hexact]
  have hexceeds : ∀ i, queue.exceeds inc i = above ((resCreateQueue settings).thresholdValue i)
      (totalIncrements i ((s.backends pid).ownIncrements q)) := by
    intro i
    rw [exceeds, hsum i, hlimits.thresholdValue]
  have hover' : queue.exceeds inc i = true := exceeds_of_overLimit hover
  unfold resCheckSelfDeadLock at hself
  simp only [← hexceeds] at hself
  split at hself
  · -- a single portal with overcommit: nothing is granted at all
    rename_i hexempt
    simp only [Bool.and_eq_true, beq_iff_eq, Bool.not_eq_true'] at hexempt
    obtain ⟨⟨hovercommit, hlength⟩, hcount⟩ := hexempt
    rw [hperm.length_eq, length_cons, add_eq_right, length_eq_zero_iff] at hlength
    have hnil := h.granted_eq_nil hlength
    have hzero : ∀ i, queue.currentValue i = 0 := by
      intro i
      rw [htotal i, total, hlength]
      rfl
    cases i with
    | count =>
      rw [hcount] at hover'
      cases hover'
    | cost =>
      rw [overLimit, hlimits.overcommit, if_pos hovercommit, hzero] at hover
      norm_num at hover
    | memory =>
      have habove : above (settings.limits .memory) (inc .memory) = true := by
        rw [exceeds, hexact, hzero, zero_add, hlimits.thresholdValue] at hover'
        exact hover'
      cases hthreshold : settings.limits .memory with
      | none =>
        rw [hthreshold] at habove
        exact absurd habove (by simp [above])
      | some threshold =>
        rw [hthreshold, above, decide_eq_true_eq] at habove
        rcases hfits hovercommit threshold hthreshold with hle | ⟨_, hg⟩
        · exact absurd habove (not_lt.2 hle)
        · rw [hnil] at hg
          exact not_mem_nil hg
  · simp only [Bool.or_eq_false_iff] at hself
    have hnot' : queue.exceeds inc i = false := by
      cases i with
      | count => exact hself.1.1
      | cost => exact hself.1.2
      | memory => exact hself.2
    rw [hnot'] at hover'
    cases hover'

end Alone

omit [DecidableEq π] [DecidableEq ρ] in
theorem waitInv_initial {settings : κ → Option QueueSettings} {limits : QueueSettings} :
    WaitInv limits q (initial settings : State π κ ρ) := by
  refine ⟨fun pid p inc queue hpid => ?_, fun pid p inc hpid => ?_⟩
  · exact absurd hpid (by simp [initial, waiters])
  · exact absurd hpid (by simp [initial, waiters])

/-- **Nobody waits in a queue for itself alone**, if with overcommit no single
statement asks for more memory than the queue has, and a `double` holds the sums of
what runs and waits: every waiter finds a granted portal of somebody else and would
not pass the limit check now, and a sleeper is granted as soon as all granted
portals are its own. -/
theorem waiter_has_other_holder (settings : κ → Option QueueSettings) (q : κ)
    (limits : QueueSettings) (as : List (Event π κ ρ)) (t : State π κ ρ)
    (hlimits : settings q = some limits) (hregular : ∀ a ∈ as, Regular q a)
    (hwithin : Machine.Along step (Within q) (initial settings) as)
    (hfits : Machine.Along step (Fits limits q) (initial settings) as)
    (hrun : Machine.run step (initial settings) as = some t) :
    (∀ pid ∈ (t.entries q).waiters, (∃ g ∈ (t.entries q).granted, g.1 ≠ pid) ∧
      ∃ p inc queue, t.waitingFor pid = some (p, inc) ∧ (t.entries q).queue = some queue ∧
        queue.resLockCheckLimit inc ≠ .ok) ∧
    ∀ pid p, (t.backends pid).phase = .waiting q p → (∀ g ∈ (t.entries q).granted, g.1 = pid) →
      (pid, p) ∈ (t.entries q).granted := by
  have hall : Along step (fun s a => (Regular q a ∧ Within q s a) ∧ Fits limits q s a)
      (initial settings) as :=
    along_and (along_and (along_of_forall fun a ha _ => hregular a ha) hwithin) hfits
  obtain ⟨⟨h, hc⟩, hw⟩ : (Inv t ∧ Counted limits q t) ∧ WaitInv limits q t := by
    refine run_invariant_along
      (P := fun s => (Inv s ∧ Counted limits q s) ∧ WaitInv limits q s) ?_
      ⟨⟨inv_initial settings, counted_initial hlimits⟩, waitInv_initial⟩ hall hrun
    rintro s a t ⟨⟨hs, hc⟩, hw⟩ ⟨⟨hreg, hwith⟩, hfit⟩ hstep
    have hstepped := step_spec hs hstep
    exact ⟨⟨hstepped.inv hs, hstepped.counted hs hc hreg hwith⟩,
      hstepped.waitInv hs hc hw hreg hwith hfit⟩
  refine ⟨fun pid hpid => ⟨hw.other_holder h hc hpid, ?_⟩, fun pid p hphase hall => ?_⟩
  · obtain ⟨p, inc, hphase, -, hinc⟩ := h.exists_waiting hpid
    obtain ⟨queue, hqueue, -⟩ := hc.tracks
    refine ⟨p, inc, queue, waitingFor_eq hphase hinc, hqueue, ?_⟩
    rw [hw.refused pid p inc queue hpid hphase hinc hqueue]
    simp
  · by_contra hg
    obtain ⟨g, hmem, hne⟩ := hw.other_holder h hc (((h.backend pid).waits q).2 ⟨p, hphase, hg⟩)
    exact hne (hall g hmem)

/-- One statement at a time. -/
def oneAtATime : QueueSettings where
  limits
    | .count => some 1
    | _ => none
  overcommit := false
  ignoreLimit := 0
  limits_pos i limit h := by
    cases i <;> cases h
    exact one_pos

/-- One backend runs a statement and another one waits for it. -/
theorem second_waits_for_first : ∃ t,
    Machine.run step (initial fun _ => some oneAtATime : State (Fin 2) Unit ℕ)
      [.acquire 0 () 0 1 0 false ⟨true, true, true⟩, .acquire 1 () 0 1 0 false ⟨true, true, true⟩] =
        some t ∧
      (t.entries ()).waiters = [1] ∧ ∃ g ∈ (t.entries ()).granted, g.1 ≠ 1 := by
  refine exists_of_any_imp (by decide +kernel) fun t ht hwaiters => ?_
  refine ((waiter_has_other_holder _ () oneAtATime _ t rfl ?_ (by decide +kernel) ?_ ht).1 1
    (by rw [hwaiters]; simp)).1
  · intro a ha
    simp only [mem_cons, not_mem_nil, or_false] at ha
    rcases ha with rfl | rfl <;> exact fun _ => ⟨⟨1, by simp⟩, ⟨0, by simp⟩⟩
  · refine along_of_forall fun a ha s => ?_
    simp only [mem_cons, not_mem_nil, or_false] at ha
    rcases ha with rfl | rfl <;> exact fun _ hover => absurd hover (by simp [oneAtATime])

/-- A queue with overcommit and a memory limit of 10. -/
def tenOfMemory : QueueSettings where
  limits
    | .memory => some 10
    | _ => none
  overcommit := true
  ignoreLimit := 0
  limits_pos i limit h := by
    cases i <;> cases h
    norm_num

/-- The only statement of the system asks for 11 and waits: nothing is granted, so
nobody will wake it. -/
theorem waits_alone_for_memory : ∃ t,
    Machine.run step (initial fun _ => some tenOfMemory : State (Fin 1) Unit ℕ)
      [.acquire 0 () 0 1 11 false ⟨true, true, true⟩] = some t ∧
      0 ∈ (t.entries ()).waiters ∧ ¬ ∃ g ∈ (t.entries ()).granted, g.1 ≠ 0 := by
  exact exists_of_any (by decide +kernel)

end Cloudberry.ResScheduler
