/-
# Advancing the horizon of the distributed log

Every backend that takes a snapshot tries to move `DistributedLogShared->oldestXmin` forward
(`DistributedLog_AdvanceOldestXmin`): it reads the shared value, walks over the log entries
from there while they are of no interest to any distributed snapshot, and publishes where it
stopped with a compare-and-swap that is retried as long as the shared value is behind. Many
do so at once, each with limits of its own.

The steps below are the source's atomic actions, in any interleaving and for any number of
callers. All xids are in one half of the circle from `base` on, where their order is that of
the offsets (`precedes_iff_offset`).
-/

import Cloudberry.Dtm.DistributedLog
import Cloudberry.Lib.Machine

namespace Cloudberry.Dtm

open Machine Function Option List

section

variable (base : TransactionId)

/-- The arguments of a call. `oldestLocalXmin` is a normal xid, as the function asserts, and
in the half circle. -/
structure AdvanceArgs where
  oldestLocalXmin : TransactionId
  xminAllDistributedSnapshots : ℕ
  normal : transactionIdIsNormal oldestLocalXmin = true
  inHalf : offset base oldestLocalXmin < 2 ^ 31

/-- Where a caller is: outside, at the head of the walk, or at the compare-and-swap. -/
inductive Advancing where
  | idle
  | walking (args : AdvanceArgs base) (oldOldestXmin oldestXmin : TransactionId)
  | publishing (args : AdvanceArgs base) (oldestXmin expected : TransactionId)
  | returned (oldestXmin : TransactionId)

/-- The log with its horizon, the callers, and the arguments given so far. -/
structure HorizonState where
  log : DistributedLog
  caller : ℕ → Advancing base
  given : List (AdvanceArgs base)

/-- The actions: a call reads the shared value; one round of the walk; one compare-and-swap;
and some transaction commits and is recorded in the log. -/
inductive HorizonEvent where
  | call (i : ℕ) (args : AdvanceArgs base)
  | walk (i : ℕ)
  | publish (i : ℕ)
  | setCommitted (localXid : TransactionId) (distribXid : ℕ)

end

namespace HorizonState

variable {base : TransactionId}

/-- Put caller `i` in a new place. -/
def setCaller (s : HorizonState base) (i : ℕ) (a : Advancing base) : HorizonState base :=
  { s with caller := update s.caller i a }

/-- One round of the walk of `DistributedLog_AdvanceOldestXmin`, the way out of it included:
there is nothing to publish if the walk did not move. -/
def walkRound (entry : TransactionId → ℕ) (args : AdvanceArgs base)
    (oldOldestXmin oldestXmin : TransactionId) : Advancing base :=
  if transactionIdPrecedes oldestXmin args.oldestLocalXmin = true ∧
      ¬ args.xminAllDistributedSnapshots ≤ entry oldestXmin then
    .walking args oldOldestXmin (transactionIdAdvance oldestXmin)
  else if oldOldestXmin = oldestXmin then .returned oldestXmin
  else .publishing args oldestXmin oldOldestXmin

def step (s : HorizonState base) : HorizonEvent base → Option (HorizonState base)
  | .call i args =>
    match s.caller i with
    | .idle | .returned _ =>
      some { s.setCaller i (.walking args s.log.oldestXmin s.log.oldestXmin) with
        given := args :: s.given }
    | _ => none
  | .walk i =>
    match s.caller i with
    | .walking args oldOldestXmin oldestXmin =>
      some (s.setCaller i (walkRound s.log.entry args oldOldestXmin oldestXmin))
    | _ => none
  | .publish i =>
    match s.caller i with
    | .publishing args oldestXmin expected =>
      if s.log.oldestXmin = expected then
        some { s.setCaller i (.returned oldestXmin) with
          log := { s.log with oldestXmin := oldestXmin } }
      else if transactionIdPrecedesOrEquals oldestXmin s.log.oldestXmin then
        some (s.setCaller i (.returned s.log.oldestXmin))
      else some (s.setCaller i (.publishing args oldestXmin s.log.oldestXmin))
    | _ => none
  | .setCommitted localXid distribXid =>
    -- a transaction older than an `oldestLocalXmin` is finished when that is computed
    if s.log.entry localXid = 0 ∧
        ∀ args ∈ s.given, transactionIdPrecedes localXid args.oldestLocalXmin = false then
      some { s with log := s.log.record localXid distribXid }
    else none

end HorizonState

/-! ### The invariant -/

section Span

variable {base : TransactionId} {entry : TransactionId → ℕ} {given : List (AdvanceArgs base)}
  {start mid stop : TransactionId}

/-- A normal xid in the half circle. -/
structure Placed (base xid : TransactionId) : Prop where
  normal : transactionIdIsNormal xid = true
  inHalf : offset base xid < 2 ^ 31

theorem AdvanceArgs.placed (args : AdvanceArgs base) : Placed base args.oldestLocalXmin :=
  ⟨args.normal, args.inHalf⟩

theorem Placed.precedes_iff {id1 id2 : TransactionId} (h1 : Placed base id1)
    (h2 : Placed base id2) :
    transactionIdPrecedes id1 id2 = true ↔ offset base id1 < offset base id2 :=
  precedes_iff_offset h1.normal h2.normal h1.inHalf h2.inHalf

theorem Placed.precedesOrEquals_iff {id1 id2 : TransactionId} (h1 : Placed base id1)
    (h2 : Placed base id2) :
    transactionIdPrecedesOrEquals id1 id2 = true ↔ offset base id1 ≤ offset base id2 :=
  precedesOrEquals_iff_offset h1.normal h2.normal h1.inHalf h2.inHalf

/-- The log has nothing on the xid that a snapshot known to every caller could need. -/
def Passable (entry : TransactionId → ℕ) (given : List (AdvanceArgs base))
    (xid : TransactionId) : Prop :=
  entry xid = 0 ∨ ∃ args ∈ given, entry xid < args.xminAllDistributedSnapshots

/-- A stretch of the circle, walked over from `start` to `stop`: unless it is empty it ends at
or before a limit given, and every xid in it could be passed. -/
structure Span (base : TransactionId) (entry : TransactionId → ℕ)
    (given : List (AdvanceArgs base)) (start stop : TransactionId) : Prop where
  start_placed : Placed base start
  stop_placed : Placed base stop
  le : offset base start ≤ offset base stop
  bound : stop = start ∨ ∃ args ∈ given, offset base stop ≤ offset base args.oldestLocalXmin
  passable : ∀ xid, Placed base xid → offset base start ≤ offset base xid →
    offset base xid < offset base stop → Passable entry given xid

namespace Span

theorem refl (h : Placed base start) : Span base entry given start start where
  start_placed := h
  stop_placed := h
  le := le_refl _
  bound := Or.inl rfl
  passable xid _ hge hlt := by omega

theorem trans (h : Span base entry given start mid) (h' : Span base entry given mid stop) :
    Span base entry given start stop where
  start_placed := h.start_placed
  stop_placed := h'.stop_placed
  le := h.le.trans h'.le
  bound := by
    rcases h'.bound with rfl | hbound
    · exact h.bound
    · exact Or.inr hbound
  passable xid hxid hge hlt := by
    rcases Nat.lt_or_ge (offset base xid) (offset base mid) with hfirst | hsecond
    · exact h.passable xid hxid hge hfirst
    · exact h'.passable xid hxid hsecond hlt

theorem later (h : Span base entry given start stop) (hmid : Placed base mid)
    (hge : offset base start ≤ offset base mid) (hlt : offset base mid < offset base stop) :
    Span base entry given mid stop where
  start_placed := hmid
  stop_placed := h.stop_placed
  le := hlt.le
  bound := by
    rcases h.bound with rfl | hbound
    · omega
    · exact Or.inr hbound
  passable xid hxid hge' hlt' := h.passable xid hxid (hge.trans hge') hlt'

theorem cons (h : Span base entry given start stop) (args : AdvanceArgs base) :
    Span base entry (args :: given) start stop where
  __ := h
  bound := h.bound.imp_right fun ⟨g, hg, hle⟩ => ⟨g, mem_cons_of_mem _ hg, hle⟩
  passable xid hxid hge hlt := (h.passable xid hxid hge hlt).imp_right
    fun ⟨g, hg, hlt⟩ => ⟨g, mem_cons_of_mem _ hg, hlt⟩

/-- What commits is not older than any limit given, and the stretch is. -/
theorem record {log : DistributedLog} {localXid : TransactionId}
    (h : Span base log.entry given start stop)
    (hguard : ∀ args ∈ given, transactionIdPrecedes localXid args.oldestLocalXmin = false)
    (distribXid : ℕ) : Span base (log.record localXid distribXid).entry given start stop where
  __ := h
  passable xid hxid hge hlt := by
    have hne : xid ≠ localXid := by
      rintro rfl
      rcases h.bound with rfl | ⟨args, hargs, hle⟩
      · omega
      · have hprec := (hxid.precedes_iff args.placed).2 (by omega)
        rw [hguard args hargs] at hprec
        exact Bool.false_ne_true hprec
    have hsame : (log.record localXid distribXid).entry xid = log.entry xid := by
      simp [DistributedLog.record, hne]
    rw [Passable, hsame]
    exact h.passable xid hxid hge hlt

theorem advance {args : AdvanceArgs base} (h : Span base entry given start stop)
    (hargs : args ∈ given) (hprec : transactionIdPrecedes stop args.oldestLocalXmin = true)
    (hentry : entry stop < args.xminAllDistributedSnapshots) :
    Span base entry given start (transactionIdAdvance stop) := by
  have hlt := (h.stop_placed.precedes_iff args.placed).1 hprec
  obtain ⟨hnormal, _, hle, honly⟩ := offset_advance h.stop_placed.normal args.normal hlt
  have hhalf := args.inHalf
  refine ⟨h.start_placed, ⟨hnormal, by omega⟩, by have := h.le; omega, Or.inr ⟨args, hargs, hle⟩, ?_⟩
  intro xid hxid hge hlt'
  rcases Nat.lt_or_ge (offset base xid) (offset base stop) with hold | hnew
  · exact h.passable xid hxid hge hold
  · rw [honly xid hxid.normal hnew hlt']
    exact Or.inr ⟨args, hargs, hentry⟩

end Span

end Span

/-! ### Steps and runs -/

namespace HorizonState

variable {base : TransactionId} {origin : TransactionId} {s t : HorizonState base}

/-- What is known of a caller: the stretch it walked over, from a value the horizon has had. -/
def CallerOk (entry : TransactionId → ℕ) (given : List (AdvanceArgs base))
    (horizon : TransactionId) : Advancing base → Prop
  | .walking args oldOldestXmin oldestXmin =>
    args ∈ given ∧ Span base entry given oldOldestXmin oldestXmin ∧
      offset base oldOldestXmin ≤ offset base horizon
  | .publishing _ oldestXmin expected =>
    Span base entry given expected oldestXmin ∧ offset base expected ≤ offset base horizon
  | .idle => True
  | .returned _ => True

/-- The invariant: the horizon has walked over the stretch from `origin`, and so has every
caller from where it started. -/
structure Inv (origin : TransactionId) (s : HorizonState base) : Prop where
  horizon : Span base s.log.entry s.given origin s.log.oldestXmin
  callers : ∀ i, CallerOk s.log.entry s.given s.log.oldestXmin (s.caller i)

variable {given : List (AdvanceArgs base)} {entry : TransactionId → ℕ} {a : Advancing base}

theorem CallerOk.cons {horizon : TransactionId} (h : CallerOk entry given horizon a)
    (args : AdvanceArgs base) : CallerOk entry (args :: given) horizon a := by
  match a with
  | .walking _ _ _ => exact ⟨mem_cons_of_mem _ h.1, h.2.1.cons args, h.2.2⟩
  | .publishing _ _ _ => exact ⟨h.1.cons args, h.2⟩
  | .idle => trivial
  | .returned _ => trivial

theorem CallerOk.record {log : DistributedLog} {horizon localXid : TransactionId}
    (h : CallerOk log.entry given horizon a)
    (hguard : ∀ args ∈ given, transactionIdPrecedes localXid args.oldestLocalXmin = false)
    (distribXid : ℕ) : CallerOk (log.record localXid distribXid).entry given horizon a := by
  match a with
  | .walking _ _ _ => exact ⟨h.1, h.2.1.record hguard distribXid, h.2.2⟩
  | .publishing _ _ _ => exact ⟨h.1.record hguard distribXid, h.2⟩
  | .idle => trivial
  | .returned _ => trivial

theorem CallerOk.of_le {horizon horizon' : TransactionId} (h : CallerOk entry given horizon a)
    (hle : offset base horizon ≤ offset base horizon') : CallerOk entry given horizon' a := by
  match a with
  | .walking _ _ _ => exact ⟨h.1, h.2.1, h.2.2.trans hle⟩
  | .publishing _ _ _ => exact ⟨h.1, h.2.trans hle⟩
  | .idle => trivial
  | .returned _ => trivial

theorem forall_callerOk_update {horizon : TransactionId} {caller : ℕ → Advancing base} {i : ℕ}
    (h : ∀ j, CallerOk entry given horizon (caller j)) (ha : CallerOk entry given horizon a) :
    ∀ j, CallerOk entry given horizon (update caller i a j) := by
  intro j
  by_cases hj : j = i
  · subst hj
    rwa [update_self]
  · rw [update_of_ne hj]
    exact h j

theorem callerOk_walkRound {horizon oldOldestXmin oldestXmin : TransactionId}
    {args : AdvanceArgs base}
    (h : CallerOk entry given horizon (.walking args oldOldestXmin oldestXmin)) :
    CallerOk entry given horizon (walkRound entry args oldOldestXmin oldestXmin) := by
  obtain ⟨hargs, hspan, hle⟩ := h
  unfold walkRound
  split_ifs with hgo hstay
  · exact ⟨hargs, hspan.advance hargs hgo.1 (Nat.lt_of_not_le hgo.2), hle⟩
  · trivial
  · exact ⟨hspan, hle⟩

/-- **One action** keeps the invariant and does not move the horizon back. -/
theorem Inv.step (hs : Inv origin s) {e : HorizonEvent base} (h : s.step e = some t) :
    Inv origin t ∧ offset base s.log.oldestXmin ≤ offset base t.log.oldestXmin := by
  match e with
  | .call i args =>
    have hcall : t = { s.setCaller i (.walking args s.log.oldestXmin s.log.oldestXmin) with
        given := args :: s.given } := by
      simp only [HorizonState.step] at h
      split at h
      · exact (some.inj h).symm
      · exact (some.inj h).symm
      · exact absurd h nofun
    subst hcall
    refine ⟨⟨hs.horizon.cons args, forall_callerOk_update (fun j => (hs.callers j).cons args) ?_⟩,
      le_refl _⟩
    exact ⟨mem_cons_self .., Span.refl hs.horizon.stop_placed, le_refl _⟩
  | .walk i =>
    simp only [HorizonState.step] at h
    split at h
    next args old cur hcaller =>
      cases h
      have hok := hs.callers i
      rw [hcaller] at hok
      exact ⟨⟨hs.horizon, forall_callerOk_update hs.callers (callerOk_walkRound hok)⟩, le_refl _⟩
    next => exact absurd h nofun
  | .publish i =>
    simp only [HorizonState.step] at h
    split at h
    next args new expected hcaller =>
      have hok := hs.callers i
      rw [hcaller] at hok
      obtain ⟨hspan, hle⟩ := hok
      split_ifs at h with hswap hbehind
      · -- the swap succeeds: the caller's stretch starts where the horizon's ends
        cases h
        subst hswap
        refine ⟨⟨hs.horizon.trans hspan, forall_callerOk_update ?_ trivial⟩, hspan.le⟩
        exact fun j => (hs.callers j).of_le hspan.le
      · cases h
        exact ⟨⟨hs.horizon, forall_callerOk_update hs.callers trivial⟩, le_refl _⟩
      · -- another caller was faster but is behind: try again from its value
        cases h
        have hlt : offset base s.log.oldestXmin < offset base new := by
          rw [hspan.stop_placed.precedesOrEquals_iff hs.horizon.stop_placed] at hbehind
          omega
        exact ⟨⟨hs.horizon, forall_callerOk_update hs.callers
          ⟨hspan.later hs.horizon.stop_placed hle hlt, le_refl _⟩⟩, le_refl _⟩
    next => exact absurd h nofun
  | .setCommitted localXid distribXid =>
    obtain ⟨⟨-, hguard⟩, rfl⟩ := guarded_eq_some.1 h
    exact ⟨⟨hs.horizon.record hguard distribXid,
      fun i => (hs.callers i).record hguard distribXid⟩, le_refl _⟩

/-- **A run** keeps the invariant and does not move the horizon back. -/
theorem Inv.run (hs : Inv origin s) {es : List (HorizonEvent base)}
    (hrun : run HorizonState.step s es = some t) :
    Inv origin t ∧ offset base s.log.oldestXmin ≤ offset base t.log.oldestXmin := by
  have hstep : ∀ (u : HorizonState base) (e : HorizonEvent base) (v : HorizonState base),
      (Inv origin u ∧ offset base s.log.oldestXmin ≤ offset base u.log.oldestXmin) →
      u.step e = some v →
      Inv origin v ∧ offset base s.log.oldestXmin ≤ offset base v.log.oldestXmin := by
    rintro u e v ⟨hu, hle⟩ h
    obtain ⟨hv, hle'⟩ := hu.step h
    exact ⟨hv, hle.trans hle'⟩
  exact run_invariant hstep ⟨hs, le_refl _⟩ hrun

def start (base : TransactionId) (log : DistributedLog) : HorizonState base :=
  { log := log, caller := fun _ => .idle, given := [] }

/-- **The horizon of the distributed log is safe.**  Start from any log whose horizon is a
normal xid of the half circle.  Between any two states `s` and later `t` of a run the horizon
does not go back.  It is where it was or not past some `oldestLocalXmin` given.  A normal xid
it has passed has no gxid in the log, or one below the `xminAllDistributedSnapshots` of some
caller; so a transaction that is not older than what any caller gave is still found. -/
theorem horizon_safe {log : DistributedLog} (hlog : Placed base log.oldestXmin)
    {es es' : List (HorizonEvent base)}
    (hs : Machine.run HorizonState.step (start base log) es = some s)
    (ht : Machine.run HorizonState.step s es' = some t) :
    transactionIdPrecedesOrEquals s.log.oldestXmin t.log.oldestXmin = true ∧
    (t.log.oldestXmin = log.oldestXmin ∨ ∃ args ∈ t.given,
      transactionIdPrecedesOrEquals t.log.oldestXmin args.oldestLocalXmin = true) ∧
    (∀ xid, Placed base xid → transactionIdPrecedesOrEquals log.oldestXmin xid = true →
      transactionIdPrecedes xid t.log.oldestXmin = true →
      t.log.entry xid = 0 ∨ ∃ args ∈ t.given, t.log.entry xid < args.xminAllDistributedSnapshots) ∧
    ∀ xid, Placed base xid → transactionIdPrecedesOrEquals log.oldestXmin xid = true →
      t.log.entry xid ≠ 0 →
      (∀ args ∈ t.given, args.xminAllDistributedSnapshots ≤ t.log.entry xid) →
      t.log.committedCheck xid = .ok (some (t.log.entry xid)) := by
  have hstart : Inv log.oldestXmin (start base log) := ⟨Span.refl hlog, fun _ => trivial⟩
  obtain ⟨hs, -⟩ := hstart.run hs
  obtain ⟨ht, hle⟩ := hs.run ht
  have hpassed : ∀ xid, Placed base xid → transactionIdPrecedesOrEquals log.oldestXmin xid = true →
      transactionIdPrecedes xid t.log.oldestXmin = true → Passable t.log.entry t.given xid :=
    fun xid hxid hge hlt => ht.horizon.passable xid hxid
      ((hlog.precedesOrEquals_iff hxid).1 hge) ((hxid.precedes_iff ht.horizon.stop_placed).1 hlt)
  refine ⟨?_, ?_, hpassed, ?_⟩
  · exact (hs.horizon.stop_placed.precedesOrEquals_iff ht.horizon.stop_placed).2 hle
  · refine ht.horizon.bound.imp_right ?_
    rintro ⟨args, hargs, hbound⟩
    exact ⟨args, hargs, (ht.horizon.stop_placed.precedesOrEquals_iff args.placed).2 hbound⟩
  intro xid hxid hge hset hyoung
  have hinit : t.log.oldestXmin ≠ invalidTransactionId := by
    intro hzero
    have hnormal := ht.horizon.stop_placed.normal
    rw [hzero] at hnormal
    cases hnormal
  have hnot : ¬ transactionIdPrecedes xid t.log.oldestXmin = true := by
    intro hlt
    rcases hpassed xid hxid hge hlt with hzero | ⟨args, hargs, _⟩
    · exact hset hzero
    · have := hyoung args hargs
      omega
  rw [DistributedLog.committedCheck, if_neg hinit, if_neg hnot, if_pos hset]

/-- A base from which the half circle runs over the end of the xids. -/
def wrapBase : TransactionId := 4294967290

def laterArgs : AdvanceArgs wrapBase where
  oldestLocalXmin := 5
  xminAllDistributedSnapshots := 9
  normal := by decide
  inHalf := by decide

def earlierArgs : AdvanceArgs wrapBase where
  oldestLocalXmin := 4
  xminAllDistributedSnapshots := 8
  normal := by decide
  inHalf := by decide

/-- A log with one distributed transaction, at the largest xid. -/
def wrapLog : DistributedLog :=
  { entry := fun xid => if xid = 4294967295 then 7 else 0
    oldestXmin := 4294967293 }

/-- Both call, and the second walks and publishes. -/
def firstEvents : List (HorizonEvent wrapBase) :=
  [.call 0 laterArgs, .call 1 earlierArgs, .walk 1, .walk 1, .walk 1, .walk 1, .walk 1, .publish 1]

/-- Then the first walks, fails to publish once, and tries again. -/
def secondEvents : List (HorizonEvent wrapBase) :=
  [.walk 0, .walk 0, .walk 0, .walk 0, .walk 0, .walk 0, .publish 0, .publish 0]

/-- The hypotheses of `horizon_safe` are satisfiable: two callers race over the wraparound,
the compare-and-swap of one fails once, and the distributed transaction they pass is older
than the snapshots of one of them. -/
theorem race_over_wraparound_safe :
    ∃ s t, Machine.run HorizonState.step (start wrapBase wrapLog) firstEvents = some s ∧
      Machine.run HorizonState.step s secondEvents = some t ∧
      s.log.oldestXmin = 4 ∧ t.log.oldestXmin = 5 ∧
      ∃ args ∈ t.given, t.log.entry 4294967295 < args.xminAllDistributedSnapshots := by
  have heval : (run HorizonState.step (start wrapBase wrapLog) firstEvents).bind
      (fun s => (run HorizonState.step s secondEvents).map fun t =>
        decide (s.log.oldestXmin = 4 ∧ t.log.oldestXmin = 5 ∧ t.log.entry 4294967295 = 7)) =
      some true := by
    decide +kernel
  obtain ⟨s, hs, heval⟩ := bind_eq_some_iff.1 heval
  obtain ⟨t, ht, heval⟩ := map_eq_some_iff.1 heval
  obtain ⟨hhs, hht, hentry⟩ := of_decide_eq_true heval
  obtain ⟨-, -, hpassed, -⟩ := horizon_safe ⟨by decide, by decide⟩ hs ht
  refine ⟨s, t, hs, ht, hhs, hht, ?_⟩
  rcases hpassed 4294967295 ⟨by decide, by decide⟩ (by decide) (by rw [hht]; decide) with hz | hex
  · rw [hentry] at hz
    cases hz
  · exact hex

end HorizonState

end Cloudberry.Dtm
