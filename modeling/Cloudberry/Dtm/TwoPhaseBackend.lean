/-
# What a backend's protocol state promises

While a backend of the dispatcher runs its transaction it knows certain things about the
segments. Before it has an answer from everybody, a segment where the transaction was
aborted can not vote for it any more (`Working`). Once all have voted, nothing about the
transaction is going on anywhere (`Voted`). Once the commit record is in the log, a
segment that acknowledged the second phase has nothing prepared (`Committing`).

`BackendOk` collects these, with what the backend knows about its writer gang: the only
messages on their way to it are those it is waiting for, and only its own transaction is
open there. The gang outlives the transaction, so it has to be clean when the
transaction ends.
-/

import Cloudberry.Dtm.TwoPhaseCore

namespace Cloudberry.Dtm

/-- The command a backend in a state may be waiting for. -/
def DtxState.expects : DtxState → Command → Bool
  | .activeDistributed, .query _ => true
  | .preparing, .dtx .prepare => true
  | .notifyingCommitPrepared, .dtx .commitPrepared => true
  | .retryCommitPrepared, .dtx .retryCommitPrepared => true
  | .notifyingAbortNoPrepared, .dtx .abortNoPrepared => true
  | .notifyingAbortSomePrepared, .dtx .abortSomePrepared => true
  | .notifyingAbortPrepared, .dtx .abortPrepared => true
  | .retryAbortPrepared, .dtx .retryAbortPrepared => true
  | _, _ => false

/-- The commit record is in the log, the forget record is not. -/
def DtxState.committing : DtxState → Bool
  | .insertedCommitted => true
  | .notifyingCommitPrepared => true
  | .retryCommitPrepared => true
  | .insertingForgetCommitted => true
  | _ => false

def DtxState.notified : DtxState → Bool
  | .notifyingCommitPrepared => true
  | .retryCommitPrepared => true
  | .insertingForgetCommitted => true
  | _ => false

namespace DtxState

variable {st : DtxState} {c : Command}

theorem votes_of_expects (hst : st.raisesError = true) (h : st.expects c = true) :
    c.votes = true := by
  cases st <;> cases hst <;> rcases c with _ | c <;> first | rfl | (cases c <;> first | rfl | cases h)

theorem commits_of_expects (hst : st.committing = true) (h : st.expects c = true) :
    c.commits = true := by
  cases st <;> cases hst <;> rcases c with _ | c <;> first | cases h | (cases c <;> first | rfl | cases h)

theorem rollsBack_of_expects (hst : st.rollingBack = true) (h : st.expects c = true) :
    c.votes = false ∧ (st ≠ .retryAbortPrepared → c.rollsBack = true) := by
  cases st <;> cases hst <;> rcases c with _ | c <;>
    first | cases h | (cases c <;> first | exact ⟨rfl, fun _ => rfl⟩ | cases h)
  exact ⟨rfl, fun h => absurd rfl h⟩

theorem uncommitted_of_rollingBack (h : st.rollingBack = true) : st.uncommitted = true := by
  cases st <;> first | rfl | cases h

theorem uncommitted_of_raisesError (h : st.raisesError = true) : st.uncommitted = true := by
  cases st <;> first | rfl | cases h

theorem not_rollingBack_of_raisesError (h : st.raisesError = true) : st.rollingBack = false := by
  cases st <;> first | rfl | cases h

theorem not_committing_of_uncommitted (h : st.uncommitted = true) : st.committing = false := by
  cases st <;> first | rfl | cases h

/-- The four situations in which a backend waits for an answer. -/
theorem cases_of_expects (h : st.expects c = true) : st = .activeDistributed ∨ st = .preparing ∨
      (st.committing = true ∧ st.afterSuccess = .insertingForgetCommitted) ∨
      (st.rollingBack = true ∧ st.afterSuccess = st) := by
  cases st <;> first | exact .inl rfl | exact .inr (.inl rfl) | exact .inr (.inr (.inl ⟨rfl, rfl⟩)) |
    exact .inr (.inr (.inr ⟨rfl, rfl⟩)) | cases h

theorem notified_of_expects (hst : st.committing = true) (h : st.expects c = true) :
    st.notified = true := by
  revert h hst
  cases st <;> rcases c with (_ | _) | c <;> first | decide | (cases c <;> decide)

/-- The state after a failure the protocol deals with is of the same kind. -/
theorem afterFailure_spec (h : st.expects c = true) (hst : st.raisesError = false) :
    (st.afterFailure.committing = true ∨ st.afterFailure.rollingBack = true) ∧
      st.afterFailure ≠ .insertingForgetCommitted ∧
      (st.afterFailure.committing = false → st.uncommitted = true) ∧
      (st.afterFailure.committing = true → st.committing = true) ∧
      st.afterFailure.raisesError = false := by
  revert h hst
  cases st <;> rcases c with (_ | _) | c <;> first | decide | (cases c <;> decide)

/-- A backend that commits waits for nothing but commits, and one that does not commit
never does. -/
theorem kind_of_expects (h : st.expects c = true) : c ≠ .dtx .commitOnephase ∧
    (st.committing = true → c.votes = false ∧ c.aborts = false) ∧
    (st.committing = false → c.commits = false) := by
  revert h
  cases st <;> rcases c with (_ | _) | c <;> first | decide | (cases c <;> decide)

end DtxState

namespace TwoPhase

variable {m : ℕ}

section

variable (slot : DtxSlot) (l : TmGxactLocal m) (segments : Fin m → Segment) (qes : ℕ → Fin m → Qe) (net : Broadcast Request (Fin m))

/-- The first phase, as long as no ERROR was thrown: a segment where the transaction was
aborted has lost its QE or has refused the request the backend is waiting for. -/
structure Working : Prop where
  prepared : ∀ a, slot.gxid ∈ (segments a).prepared → a ∈ l.dtxSegments
  xact : ∀ γ a, (qes γ a).xact = some slot.gxid → γ = l.gang
  aborted : ∀ a, (slot.gxid, .aborted) ∈ (segments a).finished → a ∈ l.dtxSegments ∧
    (qes l.gang a = none ∨ ∃ k, l.dispatch = some k ∧ net.Refused k a)
  onWay : ∀ k a r, OnWay net k a r → r.gid = slot.gxid → l.dispatch = some k
  acked : l.state = .preparing → ∀ k a, l.dispatch = some k → net.Acked k a →
    (slot.gxid, .aborted) ∉ (segments a).finished ∧ ∀ γ, (qes γ a).xact ≠ some slot.gxid

structure Voted : Prop where
  prepared : ∀ a, slot.gxid ∈ (segments a).prepared → a ∈ l.dtxSegments
  unanimous : Unanimous segments qes net slot.gxid

end

section

variable (slot : DtxSlot) (l : TmGxactLocal m) (wal : Wal DtxRecord) (segments : Fin m → Segment)

/-- The second phase of a transaction whose commit record is written. -/
structure Committing (net : Broadcast Request (Fin m)) : Prop where
  prepared : ∀ a, slot.gxid ∈ (segments a).prepared → a ∈ l.dtxSegments
  acked : ∀ k a, l.dispatch = some k → net.Acked k a → slot.gxid ∉ (segments a).prepared
  done : l.state = .insertingForgetCommitted → ∀ a, slot.gxid ∉ (segments a).prepared
  logged : .distributedCommit slot.gxid ∈ wal.records.take l.xactLastRecEnd
  durable : slot.delayChkpt = false ∨ l.state.notified = true → Durable wal slot.gxid

structure BackendOk (qes : ℕ → Fin m → Qe) (net : Broadcast Request (Fin m)) : Prop where
  idle : l.state = .none → slot.state = .idle ∧ l.dispatch = none ∧ l.dtxSegments = ∅
  active : l.state.uncommitted = true → slot.state = .active
  inserting : l.state = .insertingCommitted →
    (slot.state = .inserting ∨ slot.state = .inserted) ∧ l.dispatch = none
  inserted : l.state.committing = true → slot.state = .inserted
  forgotten : l.state = .insertedForgetCommitted → slot.state = .forgotten
  dispatched : ∀ k, l.dispatch = some k → ∃ r dst, net.calls[k]? = some (r, dst) ∧
    r.gid = slot.gxid ∧ r.gang = l.gang ∧ l.state.expects r.cmd = true ∧ dst ⊆ l.dtxSegments ∧
    (l.state ≠ .activeDistributed → dst = l.dtxSegments)
  quiet : ∀ k a r, OnWay net k a r → r.gang = l.gang → l.dispatch = some k
  own : l.state ≠ .none → Devoted qes net l.gang slot.gxid
  reach : ∀ a, (qes l.gang a).xact ≠ none → a ∈ l.dtxSegments
  raised : l.aborting = true → l.state.raisesError = true → l.dispatch = none
  lost : l.gangLost = true → l.aborting = true
  clean : l.state = .retryAbortPrepared ∨ l.gangLost = true → ∀ a, (qes l.gang a).xact = none
  cleaning : l.state.rollingBack = true → ∀ a, (qes l.gang a).xact ≠ none →
    ∃ k, l.dispatch = some k ∧ ¬ net.Acked k a
  working : l.state.raisesError = true → l.aborting = false → Working slot l segments qes net
  voted : l.state = .prepared ∨ slot.state = .inserting → Voted slot l segments qes net
  committing : slot.state = .inserted → Committing slot l wal segments net

end

section

variable {slot : DtxSlot} {l : TmGxactLocal m} {wal : Wal DtxRecord}
  {segments segments' : Fin m → Segment} {qes qes' : ℕ → Fin m → Qe}
  {net net' : Broadcast Request (Fin m)} {γ : ℕ} {a : Fin m} {req : Option (ℕ × Request)}
  {ok : Bool}

section

variable (h : BackendOk slot l wal segments qes net)
include h

theorem BackendOk.request {k : ℕ} {r : Request} (hk : l.dispatch = some k) (hr : Sent net k r) :
    r.gid = slot.gxid ∧ r.gang = l.gang ∧ l.state.expects r.cmd = true := by
  obtain ⟨_, _, hc, hgid, hgang, hex, -⟩ := h.dispatched k hk
  obtain ⟨dst', hr⟩ := hr
  rw [hc] at hr
  cases hr
  exact ⟨hgid, hgang, hex⟩

theorem BackendOk.not_waiting (hst : ∀ c, l.state.expects c = false) : l.dispatch = none := by
  by_contra hd
  obtain ⟨k, hk⟩ := Option.ne_none_iff_exists'.1 hd
  obtain ⟨r, dst, -, -, -, hex, -⟩ := h.dispatched k hk
  rw [hst] at hex
  cases hex

theorem BackendOk.reached {k : ℕ} {a : Fin m} {r : Request} (hk : l.dispatch = some k)
    (hon : OnWay net k a r) : a ∈ l.dtxSegments := by
  obtain ⟨_, _, hc, -, -, -, hdst, -⟩ := h.dispatched k hk
  obtain ⟨dst', hc', ha⟩ := hon.mem_dst
  rw [hc] at hc'
  cases hc'
  exact hdst ha

end

theorem Working.segStep (hw : Working slot l segments qes net)
    (hb : BackendOk slot l wal segments qes net) (hstate : l.state.raisesError = true)
    (hst : SegStep segments segments' qes qes' net net' γ a req ok) :
    Working slot l segments' qes' net' := by
  -- a message about the transaction is one the backend is waiting for, so it is a vote
  have hvote : ∀ k b r, OnWay net k b r → r.gid = slot.gxid →
      l.dispatch = some k ∧ l.state.expects r.cmd = true ∧ r.cmd.votes = true := by
    intro k b r hon hgid
    have hk := hw.onWay k b r hon hgid
    have hex := (hb.request hk hon.2).2.2
    exact ⟨hk, hex, DtxState.votes_of_expects hstate hex⟩
  have haborts : ∀ c : Command, c.votes = true → c.aborts = false := by
    intro c hc
    rcases c with _ | c
    · rfl
    · cases c <;> first | rfl | cases hc
  refine ⟨fun b hg => ?_, fun γ' b hx => ?_, fun b hg => ?_, fun k b r hon => ?_,
    fun hp k b hk hack => ?_⟩
  · rcases hst.prepared_of hg with hg | ⟨k, r, -, hon, -, -, hgid⟩
    · exact hw.prepared b hg
    · exact hb.reached (hvote k b r hon hgid).1 hon
  · rcases hst.xact_of hx with hx | ⟨k, r, -, hon, rfl, hgid, -⟩
    · exact hw.xact γ' b hx
    · exact (hb.request (hvote k b r hon hgid).1 hon.2).2.1
  · rcases hst.finished_of hg with hg | ⟨rfl, -, hx, hq⟩ | ⟨k, r, -, hon, hgid, -, hc⟩
    · obtain ⟨hdtx, hsp⟩ := hw.aborted b hg
      refine ⟨hdtx, hsp.imp hst.none_of fun ⟨k, hk, hr⟩ => ⟨k, hk, ?_⟩⟩
      exact (hst.refused k b).2 (.inl hr)
    · have hγ := hw.xact γ b hx
      subst hγ
      refine ⟨hb.reach b (by rw [hx]; simp), hq.imp id ?_⟩
      rintro ⟨k, r, hreq, hok⟩
      obtain ⟨hon, hgang, -⟩ := hst.onWay k r hreq
      have hk := hb.quiet k b r hon hgang
      have hv := DtxState.votes_of_expects hstate (hb.request hk hon.2).2.2
      rw [hv] at hok
      exact ⟨k, hk, (hst.refused k b).2 (.inr ⟨r, hreq, rfl, hok.resolve_right (by simp)⟩)⟩
    · rcases hc with ⟨ho, -⟩ | ⟨-, hc⟩
      · cases ho
      · rw [haborts _ (hvote k b r hon hgid).2.2] at hc
        cases hc
  · exact hw.onWay k b r (hst.onWay_of hon)
  · -- nobody opens the transaction any more: the backend is waiting for votes on PREPARE
    have hopen : ∀ k b r, OnWay net k b r → r.gid = slot.gxid → r.cmd = .dtx .prepare := by
      intro k b r hon hgid
      have hex := (hvote k b r hon hgid).2.1
      rw [hp] at hex
      rcases hr : r.cmd with _ | c
      · rw [hr] at hex
        cases hex
      · rw [hr] at hex
        cases c <;> first | rfl | cases hex
    rcases (hst.acked k b).1 hack with hack | ⟨r, hreq, rfl, hok⟩
    · obtain ⟨hab, hx⟩ := hw.acked hp k b hk hack
      refine ⟨fun hg => ?_, fun γ' hx' => ?_⟩
      · rcases hst.finished_of hg with hg | ⟨rfl, -, hx', -⟩ | ⟨j, r, -, hon, hgid, -, hc⟩
        · exact hab hg
        · exact hx γ hx'
        · rw [hopen j b r hon hgid] at hc
          rcases hc with ⟨-, hc⟩ | ⟨-, hc⟩ <;> cases hc
      · rcases hst.xact_of hx' with hx' | ⟨j, r, -, hon, -, hgid, -, e, he⟩
        · exact hx γ' hx'
        · rw [hopen j b r hon hgid] at he
          cases he
    · obtain ⟨hon, hgang, halive⟩ := hst.onWay k r hreq
      obtain ⟨hgid, hgang', -⟩ := hb.request hk hon.2
      have hγ : γ = l.gang := hgang.symm.trans hgang'
      have hprep := hopen k b r hon hgid
      have heff := hst.effect.prepare_ok r.gid (by rw [hreq, ← hprep]; rfl) hok
      refine ⟨fun hg => ?_, fun γ' hx' => ?_⟩
      · rw [heff.2.2] at hg
        rcases (hw.aborted b hg).2 with hq | ⟨j, hj, hr⟩
        · exact halive (by rw [hγ]; exact hq)
        · rw [hk] at hj
          cases hj
          exact net.pending k b _ hon.1 hr
      · have hγ' : γ' = γ := by
          rcases hst.xact_of hx' with hold | ⟨j, _, hreq', -, -, -, -, e, he⟩
          · rw [hw.xact γ' b hold, hγ]
          · rw [hreq] at hreq'
            cases hreq'
            rw [hprep] at he
            cases he
        rw [hγ', heff.2.1] at hx'
        cases hx'

theorem Unanimous.segStep {g : ℕ} (hu : Unanimous segments qes net g)
    (hst : SegStep segments segments' qes qes' net net' γ a req ok) :
    Unanimous segments' qes' net' g := by
  refine ⟨fun γ' b hx => ?_, fun b hg => ?_, fun k b r hon => hu.onWay k b r (hst.onWay_of hon)⟩
  · rcases hst.xact_of hx with hx | ⟨k, r, -, hon, -, hgid, -⟩
    · exact hu.xact γ' b hx
    · exact hu.onWay k b r hon hgid
  · rcases hst.finished_of hg with hg | ⟨-, -, hx, -⟩ | ⟨k, r, -, hon, hgid, -⟩
    · exact hu.aborted b hg
    · exact hu.xact _ _ hx
    · exact hu.onWay k b r hon hgid

theorem Voted.segStep (hv : Voted slot l segments qes net)
    (hst : SegStep segments segments' qes qes' net net' γ a req ok) :
    Voted slot l segments' qes' net' := by
  refine ⟨fun b hg => ?_, hv.unanimous.segStep hst⟩
  rcases hst.prepared_of hg with hg | ⟨k, r, -, hon, -, -, hgid⟩
  · exact hv.prepared b hg
  · exact absurd hgid (hv.unanimous.onWay k b r hon)

theorem Committing.segStep (hc : Committing slot l wal segments net)
    (hb : BackendOk slot l wal segments qes net) (hcl : Closed qes net slot.gxid)
    (hstate : l.state.committing = true ∨ l.dispatch = none)
    (hst : SegStep segments segments' qes qes' net net' γ a req ok) :
    Committing slot l wal segments' net' := by
  refine ⟨fun b hg => ?_, fun k b hk hack => ?_, fun hd b => ?_, hc.logged, hc.durable⟩
  · by_contra hdtx
    exact hst.not_prepared hcl (fun hg => hdtx (hc.prepared b hg)) hg
  · rcases (hst.acked k b).1 hack with hack | ⟨r, hreq, rfl, hok⟩
    · exact hst.not_prepared hcl (hc.acked k b hk hack)
    obtain ⟨hon, -, -⟩ := hst.onWay k r hreq
    obtain ⟨hgid, -, hex⟩ := hb.request hk hon.2
    have hcom : l.state.committing = true := hstate.resolve_right (by rw [hk]; simp)
    have hcmd := DtxState.commits_of_expects hcom hex
    rw [← hgid]
    exact hst.effect.commit_ok r.cmd r.gid (by rw [hreq]; rfl) hcmd hok
  · exact hst.not_prepared hcl (hc.done hd b)

/-- **A QE does something**: every backend can still rely on what it knows. -/
theorem BackendOk.segStep (hb : BackendOk slot l wal segments qes net)
    (hcl : slot.state = .inserted → Closed qes net slot.gxid)
    (hst : SegStep segments segments' qes qes' net net' γ a req ok) :
    BackendOk slot l wal segments' qes' net' where
  idle := hb.idle
  active := hb.active
  inserting := hb.inserting
  inserted := hb.inserted
  forgotten := hb.forgotten
  dispatched := fun k hk => by
    rw [hst.calls]
    exact hb.dispatched k hk
  quiet := fun k b r hon => hb.quiet k b r (hst.onWay_of hon)
  own := fun hne => hst.devoted (hb.own hne)
  reach := fun b hx => by
    obtain ⟨g, hx⟩ := Option.ne_none_iff_exists'.1 hx
    rcases hst.xact_of hx with hx | ⟨k, r, -, hon, hgang, -⟩
    · exact hb.reach b (by rw [hx]; simp)
    · exact hb.reached (hb.quiet k b r hon hgang) hon
  raised := hb.raised
  lost := hb.lost
  clean := fun hcln b => by
    cases hx : (qes' l.gang b).xact with
    | none => rfl
    | some g =>
      rcases hst.xact_of hx with hx | ⟨k, r, -, hon, hgang, -, hv, e, he⟩
      · rw [hb.clean hcln b] at hx
        cases hx
      have hk := hb.quiet k b r hon hgang
      have hex := (hb.request hk hon.2).2.2
      rcases hcln with hret | hlost
      · rw [hret, he] at hex
        cases hex
      have hraise : l.state.raisesError = true := by
        rw [he] at hex
        cases hl : l.state <;> rw [hl] at hex <;> first | rfl | cases hex
      rw [hb.raised (hb.lost hlost) hraise] at hk
      cases hk
  cleaning := fun hroll b hx => by
    obtain ⟨g, hx⟩ := Option.ne_none_iff_exists'.1 hx
    rcases hst.xact_of hx with hx' | ⟨k, r, -, hon, hgang, -, hv, -⟩
    · obtain ⟨k, hk, hack⟩ := hb.cleaning hroll b (by rw [hx']; simp)
      refine ⟨k, hk, fun hack' => ?_⟩
      rcases (hst.acked k b).1 hack' with hack' | ⟨r, hreq, rfl, hok⟩
      · exact hack hack'
      obtain ⟨hon, hgang, -⟩ := hst.onWay k r hreq
      obtain ⟨-, hgang', hex⟩ := hb.request hk hon.2
      have hne : l.state ≠ .retryAbortPrepared := fun heq => by
        rw [hb.clean (.inl heq) b] at hx'
        cases hx'
      have hrb := (DtxState.rollsBack_of_expects hroll hex).2 hne
      have hnone := hst.effect.abort_ok r.cmd r.gid (by rw [hreq]; rfl) hrb hok
      rw [← hgang', hgang, hnone] at hx
      cases hx
    · have hk := hb.quiet k b r hon hgang
      rw [(DtxState.rollsBack_of_expects hroll (hb.request hk hon.2).2.2).1] at hv
      cases hv
  working := fun hstate hab => (hb.working hstate hab).segStep hb hstate hst
  voted := fun hv => (hb.voted hv).segStep hst
  committing := fun hins => by
    refine (hb.committing hins).segStep hb (hcl hins) ?_ hst
    by_cases hcom : l.state.committing = true
    · exact .inl hcom
    refine .inr ?_
    cases hl : l.state with
    | none => exact (hb.idle hl).2.1
    | insertingCommitted => exact (hb.inserting hl).2
    | insertedForgetCommitted => rw [hb.forgotten hl] at hins; cases hins
    | insertedCommitted | notifyingCommitPrepared | retryCommitPrepared
    | insertingForgetCommitted => exact absurd (by rw [hl]; rfl) hcom
    | activeDistributed | preparing | prepared | notifyingAbortNoPrepared
    | notifyingAbortSomePrepared | notifyingAbortPrepared | retryAbortPrepared =>
      have := hb.active (by rw [hl]; rfl)
      rw [this] at hins
      cases hins

end

end TwoPhase
end Cloudberry.Dtm
