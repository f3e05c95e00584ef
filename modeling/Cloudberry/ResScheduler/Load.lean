/-
# What released statements leave behind

A granted portal adds its increments to the counters of the queue, and its release takes them off;
`ResLockUpdateLimit` rounds up both times, and `Cost` is a `double`. As long as the increments are
whole numbers whose sums a `double` holds (`Within`), nothing is rounded: the counters are the sums
over the granted portals (`Counted`), and an idle queue is at zero.

Queries ask for whole numbers. A utility statement asks for the ignore-cost limit of the queue: if
that is not a whole number, the counter comes down by less than it went up, and never gets back to
zero.
-/

import Cloudberry.ResScheduler.Steps

namespace Cloudberry.ResScheduler

open Entry List Function State ResQueue Backend Machine

variable {π κ ρ : Type*}

namespace State

variable (s : State π κ ρ) (q : κ)

/-- The increments of the granted portals of a queue. -/
def grantedIncrements : List Increments :=
  (s.entries q).granted.filterMap fun g => (s.backends g.1).increments g.2

/-- The increments of the portals that wait in it. -/
def waitingIncrements : List Increments :=
  (s.entries q).waiters.filterMap fun pid => (s.waitingFor pid).map Prod.snd

/-- What the granted portals add to a counter. -/
def total (i : ResLimitType) : ℚ := ((s.grantedIncrements q).map (· i)).sum

/-- What the counter would be if everybody who waits were granted as well. -/
def load (i : ResLimitType) : ℚ :=
  ((s.grantedIncrements q ++ s.waitingIncrements q).map (· i)).sum

end State

/-- The queue has its first limits, and its counters are the sums over the granted
portals. -/
def Tracks (settings : QueueSettings) (s : State π κ ρ) (q : κ) : Prop :=
  ∃ queue, (s.entries q).queue = some queue ∧ (resCreateQueue settings).SameLimits queue ∧
    ∀ i, queue.currentValue i = s.total q i

/-- **What is known about the counters** of a queue while its limits are unchanged: they track what
is granted, and would do so with everybody who waits. -/
structure Counted (settings : QueueSettings) (q : κ) (s : State π κ ρ) : Prop where
  addsUp : AddsUp (s.grantedIncrements q ++ s.waitingIncrements q)
  tracks : Tracks settings s q

/-- The event leaves the limits of the queue alone and asks it for whole numbers. -/
def Regular (q : κ) : Event π κ ρ → Prop
  | .acquire _ q' _ cost memory _ _ => q' = q → (∃ n : ℕ, cost = n) ∧ ∃ n : ℕ, memory = n
  | .createQueue q' _ | .alterQueue q' _ | .dropQueue q' => q' ≠ q
  | _ => True

/-- A `double` holds the sums of the costs and of the memory of all statements that run or wait in
the queue, with the new one. -/
def Within (q : κ) (s : State π κ ρ) : Event π κ ρ → Prop
  | .acquire _ q' _ cost memory _ _ =>
    q' = q → s.load q .cost + cost ≤ 2 ^ 53 ∧ s.load q .memory + memory ≤ 2 ^ 53
  | _ => True

instance [DecidableEq κ] (q : κ) (s : State π κ ρ) (a : Event π κ ρ) : Decidable (Within q s a) := by
  cases a <;> unfold Within <;> infer_instance

variable [DecidableEq π] [DecidableEq κ] [DecidableEq ρ] {s t : State π κ ρ} {me : π} {q q' : κ}
  {p : ρ} {e e' : Entry π ρ} {b : Backend κ ρ} {inc : Increments} {room : Room}

/-- What an acquisition does to the granted portals, the waiters and the counters
of its queue. -/
inductive Effect (s : State π κ ρ) (me : π) (q : κ) (p : ρ) (inc : Increments) (o : Outcome)
    (e : Entry π ρ) (b : Backend κ ρ) : Prop
  | none (hgranted : e.granted = (s.entries q).granted) (hqueue : e.queue = (s.entries q).queue)
      (hwaiters : e.waiters = (s.entries q).waiters) (ho : o ≠ .queued)
      (hinc : b.increments = (s.backends me).increments)
  | granted (hgranted : e.granted = (me, p) :: (s.entries q).granted)
      (hqueue : e.queue = (s.entries q).queue.map (·.resLockUpdateLimit inc true))
      (hwaiters : e.waiters = (s.entries q).waiters) (ho : o ≠ .queued)
      (hinc : b.increments = update (s.backends me).increments p (some inc))
  | queued (queue : ResQueue) (hgranted : e.granted = (s.entries q).granted)
      (hqueue : (s.entries q).queue = some queue) (hsame : e.queue = some queue)
      (hwaiters : e.waiters = (s.entries q).waiters ++ [me])
      (hinc : b.increments = update (s.backends me).increments p (some inc))
      (hcheck : queue.resLockCheckLimit inc = .found)
      (hself : queue.resCheckSelfDeadLock (b.ownIncrements q) = false) (ho : o = .queued)

theorem Acquired.effect (h : Inv s) (ho : Opens s me p) {o : Outcome}
    (hac : Acquired room me q p inc (s.entries q) (s.opened me q p) o e b) :
    Effect s me q p inc o e b := by
  have hentry : EntryOk 0 _ (s.entries q) := ho.entry h
  cases hac with
  | noLock => exact .none rfl rfl rfl (by simp) rfl
  | noProcLock =>
    refine .none (by simp) (queue_dropLock _) ?_ (by simp) rfl
    rw [hentry.enterLock.waiters_dropLock, waiters_enterLock]
  | lingering => exact .none rfl rfl (by simp) (by simp) rfl
  | refused o ho' _ =>
    have hW : me ∉ ((s.entries q).entered me).unrequest.waiters := by
      simpa using ho.not_waits h q
    refine .none (by simp) (queue_collect _ _) ?_ ?_ ?_
    · rw [(hentry.enter me).unrequest.waiters_collect hW, waiters_unrequest, waiters_entered]
    · rcases ho' with rfl | rfl <;> simp
    · rw [ho.removeLastLocalLock_eq h]
      rfl
  | granted => exact .granted rfl rfl (by simp) (by simp) rfl
  | deadlock => exact .granted rfl rfl (by simp) (by simp) rfl
  | queued queue hqueue hcheck hself _ =>
    obtain ⟨l, hl⟩ := (hentry.enter me).lock_isSome (.inr one_ne_zero)
    refine .queued queue rfl hqueue hqueue ?_ rfl hcheck hself rfl
    rw [waiters_joinQueue _ _ hl, waiters_entered]

omit [DecidableEq κ] in
theorem Backend.settle_increments (b : Backend κ ρ) (utility : Bool) (o : Outcome) :
    (b.settle q p utility o).increments = b.increments := by
  cases o with
  | notAvail => cases utility <;> rfl
  | _ => rfl

variable {v : Option Increments} {settings : QueueSettings}

section Sums

omit [DecidableEq π] [DecidableEq κ] [DecidableEq ρ]

theorem State.grantedIncrements_congr (hgranted : (t.entries q).granted = (s.entries q).granted)
    (hinc : ∀ g ∈ (s.entries q).granted, (t.backends g.1).increments g.2 =
      (s.backends g.1).increments g.2) : t.grantedIncrements q = s.grantedIncrements q := by
  rw [grantedIncrements, hgranted]
  exact filterMap_congr hinc

theorem State.waitingIncrements_congr (hwaiters : (t.entries q).waiters = (s.entries q).waiters)
    (hsame : ∀ pid ∈ (s.entries q).waiters, t.backends pid = s.backends pid) :
    t.waitingIncrements q = s.waitingIncrements q := by
  rw [waitingIncrements, hwaiters]
  refine filterMap_congr fun pid hpid => ?_
  rw [State.waitingFor, hsame pid hpid, State.waitingFor]

/-- A portal is granted that was not before. -/
theorem State.grantedIncrements_cons
    (hgranted : (t.entries q).granted = (me, p) :: (s.entries q).granted)
    (hinc : (t.backends me).increments p = some inc)
    (hothers : ∀ g ∈ (s.entries q).granted, (t.backends g.1).increments g.2 =
      (s.backends g.1).increments g.2) : t.grantedIncrements q = inc :: s.grantedIncrements q := by
  simp only [grantedIncrements, hgranted, filterMap_cons, hinc]
  exact congrArg _ (filterMap_congr hothers)

theorem State.waitingFor_eq {pid : π} (hphase : (s.backends pid).phase = .waiting q p)
    (hinc : (s.backends pid).increments p = some inc) : s.waitingFor pid = some (p, inc) := by
  simp [State.waitingFor, Backend.waitingFor, hphase, hinc]

theorem Counted.congr (hc : Counted settings q s)
    (hqueue : (t.entries q).queue = (s.entries q).queue)
    (hgranted : t.grantedIncrements q = s.grantedIncrements q)
    (hwaiting : t.waitingIncrements q = s.waitingIncrements q) : Counted settings q t := by
  refine ⟨by rw [hgranted, hwaiting]; exact hc.addsUp, ?_⟩
  simp only [Tracks, total, hqueue, hgranted]
  exact hc.tracks

theorem Tracks.grant (ht : Tracks settings s q) (hsum : AddsUp (inc :: s.grantedIncrements q))
    (hqueue : (t.entries q).queue = (s.entries q).queue.map (·.resLockUpdateLimit inc true))
    (hgranted : t.grantedIncrements q = inc :: s.grantedIncrements q) : Tracks settings t q := by
  obtain ⟨queue, hq, hlimits, htotal⟩ := ht
  refine ⟨_, by rw [hqueue, hq]; rfl, hlimits.trans (sameLimits_up inc true), fun i => ?_⟩
  obtain ⟨n, hn, -⟩ := (hsum.mono (sublist_cons_self ..).subperm).exists_nat i
  obtain ⟨k, hk⟩ := hsum.whole inc mem_cons_self i
  have hcons : t.total q i = ((n + k : ℕ) : ℚ) := by
    rw [total, hgranted, map_cons, sum_cons, hn, hk, Nat.cast_add, add_comm]
  obtain ⟨m, hm, hsmall⟩ := hsum.exists_nat i
  rw [map_cons, sum_cons, hn, hk, ← Nat.cast_add, Nat.cast_inj, add_comm] at hm
  rw [hcons, resLockUpdateLimit_up ((htotal i).trans hn) hk (hm ▸ hsmall)]

theorem Tracks.giveBack (ht : Tracks settings s q) (hsum : AddsUp (s.grantedIncrements q))
    (hqueue : (t.entries q).queue = (s.entries q).queue.map (·.resLockUpdateLimit inc false))
    (hgranted : (s.grantedIncrements q).Perm (inc :: t.grantedIncrements q)) :
    Tracks settings t q := by
  obtain ⟨queue, hq, hlimits, htotal⟩ := ht
  refine ⟨_, by rw [hqueue, hq]; rfl, hlimits.trans (sameLimits_up inc false), fun i => ?_⟩
  obtain ⟨n, hn, hsmall⟩ :=
    (hsum.mono ((sublist_cons_self ..).subperm.trans hgranted.symm.subperm)).exists_nat i
  obtain ⟨k, hk⟩ := hsum.whole inc (hgranted.mem_iff.2 mem_cons_self) i
  rw [total, hn]
  refine resLockUpdateLimit_down ?_ hk hsmall
  rw [htotal i, total, (hgranted.map (· i)).sum_eq, map_cons, sum_cons, hn, hk, Nat.cast_add,
    add_comm]

/-- The counters have values that a `double` can have. -/
theorem Counted.isCost (hc : Counted settings q s) {queue : ResQueue}
    (hqueue : (s.entries q).queue = some queue) (i : ResLimitType) :
    IsCost i (queue.currentValue i) := by
  obtain ⟨_, hq, -, htotal⟩ := hc.tracks
  rw [hqueue] at hq
  cases hq
  obtain ⟨n, hn, hsmall⟩ := (hc.addsUp.mono (sublist_append_left ..).subperm).exists_nat i
  rw [htotal i, total, hn]
  exact isCost_natCast hsmall

/-- A new request that `Within` allows. -/
theorem Counted.addsUp_cons {cost memory : ℚ} (hc : Counted settings q s)
    (hregular : (∃ n : ℕ, cost = n) ∧ ∃ n : ℕ, memory = n)
    (hwithin : s.load q .cost + cost ≤ 2 ^ 53 ∧ s.load q .memory + memory ≤ 2 ^ 53) :
    AddsUp (portalIncrements cost memory :: (s.grantedIncrements q ++ s.waitingIncrements q)) := by
  refine ⟨forall_mem_cons.2 ⟨fun i => ?_, hc.addsUp.whole⟩, fun i => ?_⟩
  · cases i with
    | count => exact ⟨1, Nat.cast_one.symm⟩
    | cost => exact hregular.1
    | memory => exact hregular.2
  · rw [map_cons, sum_cons, add_comm]
    cases i with
    | count => exact .inl rfl
    | cost => exact .inr hwithin.1
    | memory => exact .inr hwithin.2

theorem counted_initial {settings : κ → Option QueueSettings} {limits : QueueSettings}
    (hlimits : settings q = some limits) : Counted limits q (initial settings : State π κ ρ) :=
  ⟨⟨nofun, fun _ => .inr (by simp [grantedIncrements, waitingIncrements, initial, waiters])⟩,
    resCreateQueue limits, by simp [initial, hlimits], ⟨rfl, rfl⟩, fun _ => rfl⟩

/-- The increments as the two callers compute them, and unchanged limits: `ResLockPortal` passes
the plan's cost rounded up and its memory, `ResLockUtilityPortal` the ignore-cost limit of the
queue. -/
def Called (limits : QueueSettings) (q : κ) : Event π κ ρ → Prop
  | .acquire _ q' _ cost memory utility _ => q' = q →
    if utility then cost = limits.ignoreLimit ∧ memory = 0
    else (∃ n : ℕ, cost = n) ∧ ∃ n : ℕ, memory = n
  | .createQueue q' _ | .alterQueue q' _ | .dropQueue q' => q' ≠ q
  | _ => True

theorem Called.regular {a : Event π κ ρ} (hwhole : ∃ n : ℕ, settings.ignoreLimit = n)
    (ha : Called settings q a) : Regular q a := by
  cases a with
  | acquire me q' p cost memory utility room =>
    intro hq
    have hcall := ha hq
    split_ifs at hcall
    · exact ⟨hcall.1 ▸ hwhole, 0, by simp [hcall.2]⟩
    · exact hcall
  | _ => exact ha

end Sums

theorem filterMap_perm_cons_erase {α β : Type*} [BEq α] [LawfulBEq α] {f : α → Option β} {a : α}
    {l : List α} {c : β} (hmem : a ∈ l) (hf : f a = some c) :
    (l.filterMap f).Perm (c :: (l.erase a).filterMap f) := by
  simpa [hf] using (perm_cons_erase hmem).filterMap f

theorem increments_set_of_ne (hinc : b.increments = update (s.backends me).increments p v)
    {g : π × ρ} (hg : g ≠ (me, p)) :
    ((s.set q' e me b).backends g.1).increments g.2 = (s.backends g.1).increments g.2 := by
  by_cases hme : g.1 = me
  · rw [hme, set_backends_self, hinc, update_of_ne]
    rintro rfl
    exact hg (Prod.ext hme rfl)
  · rw [set_backends_of_ne hme]

/-- A step of a backend that has no portal in the queue. -/
theorem Counted.set_of_ne (hc : Counted settings q s) (hq : q ≠ q')
    (hinc : b.increments = update (s.backends me).increments p v)
    (hnot : (me, p) ∉ (s.entries q).granted) (hme : me ∉ (s.entries q).waiters) :
    Counted settings q (s.set q' e me b) := by
  have hentry : (s.set q' e me b).entries q = s.entries q := set_entries_of_ne hq
  refine hc.congr (by rw [hentry]) (grantedIncrements_congr (by rw [hentry]) fun g hg => ?_)
    (waitingIncrements_congr (by rw [hentry]) fun pid hpid => ?_)
  · exact increments_set_of_ne hinc fun heq => hnot (heq ▸ hg)
  · exact set_backends_of_ne fun heq => hme (heq ▸ hpid)

theorem Counted.effect {o : Outcome} {utility : Bool} (hc : Counted settings q s) (h : Inv s)
    (ho : Opens s me p)
    (hnew : AddsUp (inc :: (s.grantedIncrements q ++ s.waitingIncrements q)))
    (heff : Effect s me q p inc o e b) :
    Counted settings q (s.set q e me (b.settle q p utility o)) := by
  have hW := ho.not_waits h q
  have hG : (me, p) ∉ (s.entries q).granted := ho.not_granted h q
  have hset := settle_increments b utility o (q := q) (p := p)
  have hothers : ∀ pid ∈ (s.entries q).waiters,
      (s.set q e me (b.settle q p utility o)).backends pid = s.backends pid :=
    fun pid hpid => set_backends_of_ne fun heq => hW (heq ▸ hpid)
  have hkept : ∀ v, (b.settle q p utility o).increments = update (s.backends me).increments p v →
      ∀ g ∈ (s.entries q).granted, ((s.set q e me (b.settle q p utility o)).backends
        g.1).increments g.2 = (s.backends g.1).increments g.2 :=
    fun v hv g hg => increments_set_of_ne hv fun heq => hG (heq ▸ hg)
  cases heff with
  | none hgranted hqueue hwaiters ho' hinc' =>
    refine hc.congr (by rw [set_entries_self, hqueue]) (grantedIncrements_congr
      (by rw [set_entries_self, hgranted]) (hkept ((s.backends me).increments p) ?_))
      (waitingIncrements_congr (by rw [set_entries_self, hwaiters]) hothers)
    rw [hset, hinc', update_eq_self]
  | granted hgranted hqueue hwaiters ho' hinc' =>
    have hsame := hset.trans hinc'
    have hcons := grantedIncrements_cons (by rw [set_entries_self, hgranted])
      (by rw [set_backends_self, hsame, update_self]) (hkept _ hsame)
    refine ⟨?_, hc.tracks.grant (hnew.mono ?_) (by rw [set_entries_self, hqueue]) hcons⟩
    · rw [hcons, waitingIncrements_congr (by rw [set_entries_self, hwaiters]) hothers]
      exact hnew
    · exact ((sublist_append_left ..).cons_cons inc).subperm
  | queued queue hgranted hqueue hsameq hwaiters hinc' hcheck hself ho' =>
    have hsame := hset.trans hinc'
    have hkeep := grantedIncrements_congr (by rw [set_entries_self, hgranted]) (hkept _ hsame)
    -- the new waiter is the last one
    have hlast : (s.set q e me (b.settle q p utility o)).waitingFor me = some (p, inc) := by
      refine waitingFor_eq (q := q) ?_ ?_
      · rw [set_backends_self, ho']
        rfl
      · rw [set_backends_self, hsame, update_self]
    have hwaiting : (s.set q e me (b.settle q p utility o)).waitingIncrements q =
        s.waitingIncrements q ++ [inc] := by
      simp only [waitingIncrements, set_entries_self, hwaiters, filterMap_append, filterMap_cons,
        hlast, Option.map_some, filterMap_nil]
      refine congrArg (· ++ _) (filterMap_congr fun pid hpid => ?_)
      rw [State.waitingFor, hothers pid hpid, State.waitingFor]
    refine ⟨?_, ?_⟩
    · rw [hkeep, hwaiting, ← append_assoc]
      exact hnew.mono (perm_append_singleton ..).subperm
    · simp only [Tracks, total, hkeep, set_entries_self, hsameq, ← hqueue]
      exact hc.tracks

/-- **The wakeup loop moves what is asked for to what is granted.** -/
theorem Counted.wakes (hc : Counted settings q (s.set q e me b)) (h : Inv (s.set q e me b))
    (hme : me ∉ e.waiters) (hwake : Wakes s me q e e') : Counted settings q (s.set q e' me b) := by
  rcases hwake with ⟨rfl, -⟩ | hwake
  · exact hc
  refine (h.wakeup_rule (P := fun e => Counted settings q (s.set q e me b)) hme hc ?_ hwake).2
  intro e proc p inc queue _ hc hproc hne hphase hinc _ hq _
  have hinc' : ∀ e₁, ((s.set q e₁ me b).backends proc).increments p = some inc := by
    intro e₁
    rw [set_backends_of_ne hne]
    exact hinc
  have hcons : (s.set q (e.wake proc p inc) me b).grantedIncrements q =
      inc :: (s.set q e me b).grantedIncrements q :=
    grantedIncrements_cons (by rw [set_entries_self, set_entries_self, granted_wake]) (hinc' _)
      fun _ _ => rfl
  have hwaiting : ((s.set q e me b).waitingIncrements q).Perm
      (inc :: (s.set q (e.wake proc p inc) me b).waitingIncrements q) := by
    have hw : (s.set q e me b).waitingFor proc = some (p, inc) :=
      waitingFor_eq (by rw [set_backends_of_ne hne, hphase]) (hinc' e)
    rw [waitingIncrements, waitingIncrements, set_entries_self, set_entries_self, waiters_wake]
    exact filterMap_perm_cons_erase hproc (by rw [hw]; rfl)
  have hperm : (inc :: (s.set q e me b).grantedIncrements q ++
      (s.set q (e.wake proc p inc) me b).waitingIncrements q).Perm
      ((s.set q e me b).grantedIncrements q ++ (s.set q e me b).waitingIncrements q) :=
    perm_middle.symm.trans (hwaiting.symm.append_left _)
  refine ⟨by rw [hcons]; exact hc.addsUp.mono hperm.subperm, hc.tracks.grant ?_ ?_ hcons⟩
  · exact hc.addsUp.mono ((sublist_append_left ..).subperm.trans hperm.subperm)
  · rw [set_entries_self, set_entries_self]
    rfl

theorem Counted.givenBack {b₁ : Backend κ ρ} (hc : Counted settings q s) (h : Inv s)
    (hrel : Released s me q p e b₁) (hinc : b.increments = update (s.backends me).increments p none)
    (hkeep : Inv (s.set q e me b)) (hwake : Wakes s me q e e') :
    Counted settings q (s.set q e' me b) := by
  have hme : me ∉ e.waiters := hrel.not_waits h
  refine Counted.wakes ?_ hkeep hme hwake
  have hnodup := (h.entry q).granted_nodup
  have hgranted : (s.set q e me b).grantedIncrements q =
      ((s.entries q).granted.erase (me, p)).filterMap fun g => (s.backends g.1).increments g.2 := by
    rw [grantedIncrements, set_entries_self, hrel.granted]
    refine filterMap_congr fun g hg => ?_
    exact increments_set_of_ne hinc fun heq => hnodup.not_mem_erase (heq ▸ hg)
  have hwaiting : ((s.set q e me b).waitingIncrements q).Sublist (s.waitingIncrements q) := by
    rw [waitingIncrements, set_entries_self, hrel.waiters,
      filterMap_congr (g := fun pid => (s.waitingFor pid).map Prod.snd)]
    · exact erase_sublist.filterMap _
    · intro pid hpid
      rw [← hrel.waiters] at hpid
      have hne : pid ≠ me := fun heq => hme (heq ▸ hpid)
      rw [State.waitingFor, set_backends_of_ne hne, State.waitingFor]
  refine ⟨hc.addsUp.mono (Sublist.append ?_ hwaiting).subperm, ?_⟩
  · rw [hgranted]
    exact erase_sublist.filterMap _
  rcases hrel.queue with ⟨hnot, hqueue⟩ | ⟨inc, hsome, hmem, hqueue⟩
  · rw [erase_of_not_mem hnot] at hgranted
    simp only [Tracks, total, set_entries_self, hqueue, hgranted]
    exact hc.tracks
  · have hqueue' : ((s.set q e me b).entries q).queue =
        (s.entries q).queue.map (·.resLockUpdateLimit inc false) := by rw [set_entries_self, hqueue]
    refine hc.tracks.giveBack (hc.addsUp.mono (sublist_append_left ..).subperm) hqueue' ?_
    rw [hgranted]
    refine filterMap_perm_cons_erase hmem ?_
    exact hsome

omit [DecidableEq π] in
theorem Effect.increments {o : Outcome} (heff : Effect s me q p inc o e b) :
    ∃ v, b.increments = update (s.backends me).increments p v := by
  cases heff with
  | none _ _ _ _ hinc => exact ⟨_, by rw [hinc, update_eq_self]⟩
  | granted _ _ _ _ hinc => exact ⟨_, hinc⟩
  | queued _ _ _ _ _ hinc => exact ⟨_, hinc⟩

omit [DecidableEq κ] [DecidableEq ρ] in
/-- A sleeper that has left its wait queue waits in no other one. -/
theorem Inv.ne_of_mem_waiters {pid : π} (h : Inv s) (hphase : (s.backends me).phase = .waiting q' p)
    (hme : me ∉ (s.entries q').waiters) (hpid : pid ∈ (s.entries q).waiters) : pid ≠ me := by
  rintro rfl
  obtain ⟨p', hphase', -⟩ := ((h.backend pid).waits q).1 hpid
  rw [hphase] at hphase'
  cases hphase'
  exact hme hpid

/-- **A step keeps the counters exact.** -/
theorem Stepped.counted {a : Event π κ ρ} (hs : Stepped s a t) (h : Inv s)
    (hc : Counted settings q s) (hregular : Regular q a) (hwithin : Within q s a) :
    Counted settings q t := by
  have hqueue : ∀ q' queue, q' ≠ q → Counted settings q (s.setQueue q' queue) := by
    intro q' queue hq
    have hentry : (s.setQueue q' queue).entries q = s.entries q := update_of_ne hq.symm ..
    exact hc.congr (by rw [hentry]) (grantedIncrements_congr (by rw [hentry]) fun _ _ => rfl)
      (waitingIncrements_congr (by rw [hentry]) fun _ _ => rfl)
  cases hs with
  | @acquired me q' p cost memory utility room o e b ho hac =>
    have heff := Acquired.effect h ho hac
    by_cases hq : q' = q
    · subst hq
      exact hc.effect h ho (hc.addsUp_cons (hregular rfl) (hwithin rfl)) heff
    obtain ⟨v, hinc⟩ := heff.increments
    have hset := settle_increments b utility o (q := q') (p := p)
    exact hc.set_of_ne (Ne.symm hq) (hset.trans hinc) (ho.not_granted h q) (ho.not_waits h q)
  | @leaves _ me q' p phase hactor hgives hphase hme hnew =>
    have hentries : (s.set q' (s.entries q') me { s.backends me with phase := phase }).entries =
        s.entries := update_eq_self ..
    refine hc.congr (by rw [hentries]) (grantedIncrements_congr (by rw [hentries]) fun g _ => ?_)
      (waitingIncrements_congr (by rw [hentries]) fun pid hpid =>
        set_backends_of_ne (h.ne_of_mem_waiters hphase hme hpid))
    by_cases hg : g.1 = me
    · rw [hg, set_backends_self]
    · rw [set_backends_of_ne hg]
  | @givenBack _ me q' p e e' b b₁ hactor hgives ha hphase hrel hinc hkeep hwake =>
    by_cases hq : q' = q
    · subst hq
      exact hc.givenBack h hrel hinc hkeep hwake
    refine hc.set_of_ne (Ne.symm hq) hinc (fun hg => ?_) fun hpid => ?_
    · exact hq ((h.backend me).portals.unique ha.portal ((h.backend me).portals.granted q p hg))
    · obtain ⟨p', hphase', -⟩ := ((h.backend me).waits q).1 hpid
      exact hq (ha.about q p' (.inl hphase')).1.symm
  | created => exact hqueue _ _ hregular
  | altered => exact hqueue _ _ hregular
  | dropped => exact hqueue _ _ hregular

/-- **The counters are exact along every run** whose requests add up. -/
theorem counted_along {settings : κ → Option QueueSettings} {limits : QueueSettings}
    {as : List (Event π κ ρ)} (hlimits : settings q = some limits)
    (hregular : ∀ a ∈ as, Regular q a) (hwithin : Along step (Within q) (initial settings) as)
    (hrun : run step (initial settings) as = some t) : Inv t ∧ Counted limits q t := by
  refine run_invariant_along (c := fun s a => Regular q a ∧ Within q s a)
    (P := fun s => Inv s ∧ Counted limits q s) ?_ ⟨inv_initial settings, counted_initial hlimits⟩
    (along_and (along_of_forall fun a ha _ => hregular a ha) hwithin) hrun
  rintro s a t ⟨hs, hc⟩ ⟨hreg, hwith⟩ hstep
  have hstepped := step_spec hs hstep
  exact ⟨hstepped.inv hs, hstepped.counted hs hc hreg hwith⟩

/-- The counters are what is granted, but for less than one per portal, and an idle queue can be
dropped. -/
structure Bounded (s : State π κ ρ) (q : κ) (queue : ResQueue) : Prop where
  le : ∀ i, s.total q i ≤ queue.currentValue i
  lt : (s.entries q).granted ≠ [] →
    ∀ i, queue.currentValue i < s.total q i + (s.entries q).granted.length
  idle : (s.entries q).granted = [] →
    (∀ i, queue.currentValue i = 0) ∧ resDestroyQueue queue = true

/-- **Released statements leave no load behind.** In every run in which the ignore-cost limit of the
queue is a whole number and a `double` holds the sums of what runs and waits, the counters of the
queue are bounded by what is granted, and zero when nothing is. -/
theorem released_leave_nothing (settings : κ → Option QueueSettings) (q : κ)
    (limits : QueueSettings) (as : List (Event π κ ρ)) (t : State π κ ρ)
    (hlimits : settings q = some limits) (hwhole : ∃ n : ℕ, limits.ignoreLimit = n)
    (hcalled : ∀ a ∈ as, Called limits q a)
    (hwithin : Machine.Along step (Within q) (initial settings) as)
    (hrun : Machine.run step (initial settings) as = some t) :
    ∃ queue, (t.entries q).queue = some queue ∧ Bounded t q queue := by
  obtain ⟨queue, hqueue, -, htotal⟩ := (counted_along hlimits
    (fun a ha => (hcalled a ha).regular hwhole) hwithin hrun).2.tracks
  refine ⟨queue, hqueue, fun i => (htotal i).ge, fun hne i => ?_, fun hnil => ?_⟩
  · rw [htotal i]
    exact lt_add_of_pos_right _ (Nat.cast_pos.2 (length_pos_iff.2 hne))
  · have hzero : ∀ i, queue.currentValue i = 0 := fun i => by
      rw [htotal i, total, grantedIncrements, hnil]
      rfl
    exact ⟨hzero, by simp [resDestroyQueue, hzero]⟩

/-- A queue without limits that ignores statements of a cost below two. -/
def twoIgnored : QueueSettings := ⟨fun _ => none, false, 2, nofun⟩

/-- A query of cost 5 and memory 3 and a utility statement, which asks for the ignore-cost limit,
come and go. -/
def queryAndUtility : List (Event Bool Unit ℕ) :=
  [.acquire false () 0 5 3 false ⟨true, true, true⟩,
    .acquire true () 0 2 0 true ⟨true, true, true⟩, .release false 0, .release true 0]

/-- The run meets the hypotheses: its increments are as the callers compute them, and its sums stay
below 10. -/
theorem queryAndUtility_leave_nothing : ∃ t,
    Machine.run step (initial fun _ => some twoIgnored) queryAndUtility = some t ∧
      (t.entries ()).granted = [] ∧ ∃ queue, (t.entries ()).queue = some queue ∧
        resDestroyQueue queue = true := by
  refine exists_of_any_imp (by decide +kernel) fun t ht hnil => ?_
  have hcalled : ∀ a ∈ queryAndUtility, Called twoIgnored () a := by
    simp only [queryAndUtility, forall_mem_cons]
    exact ⟨fun _ => ⟨⟨5, rfl⟩, 3, rfl⟩, fun _ => ⟨rfl, rfl⟩, trivial, trivial, nofun⟩
  obtain ⟨queue, hqueue, hbounded⟩ := released_leave_nothing _ () twoIgnored queryAndUtility t rfl
    ⟨2, rfl⟩ hcalled (by decide +kernel) ht
  exact ⟨queue, hqueue, (hbounded.idle hnil).2⟩

/-- A queue whose ignore-cost limit is a half. -/
def halfIgnored : QueueSettings := ⟨fun _ => none, false, 1 / 2, nofun⟩

/-- One utility statement, and the cost counter stays at one. -/
theorem utility_leaves_load : ∃ t,
    Machine.run step (initial fun _ => some halfIgnored : State (Fin 1) Unit ℕ)
      [.acquire 0 () 0 (1 / 2) 0 true ⟨true, true, true⟩, .release 0 0] = some t ∧
      (t.entries ()).granted = [] ∧ (t.entries ()).queue.any (fun queue =>
        decide (queue.currentValue .cost = 1) && !resDestroyQueue queue) = true :=
  exists_of_any (by decide +kernel)

end Cloudberry.ResScheduler
