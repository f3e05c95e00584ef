/-
# What the log, the segments and the network agree on

The part of the protocol's invariant that does not look at a backend (`Core`). It is
about a gid `g` and three facts the log may hold about it:

* its commit record is durable before anything tells a segment to commit it;
* once the record is in the log, nobody has aborted `g`, nobody can still prepare it
  (`Closed`), and a message that would abort it finds nothing prepared;
* once the forget record is, nothing is prepared at all.
-/

import Cloudberry.Dtm.TwoPhase

namespace Cloudberry.Dtm.TwoPhase

open Broadcast

variable {n m : ℕ}

/-! ### The vocabulary -/

/-- The commit record of `g` is in the log. -/
def Logged (wal : Wal DtxRecord) (g : ℕ) : Prop := .distributedCommit g ∈ wal.records

/-- It is, and no crash can take it away. -/
def Durable (wal : Wal DtxRecord) (g : ℕ) : Prop := wal.Durable (.distributedCommit g)

/-- Request number `k` was `r`. -/
def Sent (net : Broadcast Request (Fin m)) (k : ℕ) (r : Request) : Prop :=
  ∃ dst, net.calls[k]? = some (r, dst)

/-- A copy of it is on its way to segment `a`. -/
def OnWay (net : Broadcast Request (Fin m)) (k : ℕ) (a : Fin m) (r : Request) : Prop :=
  (k, a) ∈ net.inFlight ∧ Sent net k r

section

variable (qes : ℕ → Fin m → Qe) (net : Broadcast Request (Fin m))

/-- Nobody can prepare `g` any more: no QE has it open, and no message could open or
prepare it. -/
def Closed (g : ℕ) : Prop :=
  (∀ γ a, (qes γ a).xact ≠ some g) ∧ ∀ k a r, OnWay net k a r → r.gid = g → r.cmd.votes = false

/-- What goes on in gang `γ` is the transaction `g`. -/
def Devoted (γ g : ℕ) : Prop :=
  (∀ a g', (qes γ a).xact = some g' → g' = g) ∧
    ∀ k a r, OnWay net k a r → r.gang = γ → r.cmd.votes = true → r.gid = g

end

section

variable {net : Broadcast Request (Fin m)} {r r' : Request} {dst : Finset (Fin m)} {k : ℕ}
  {a : Fin m}

theorem sent_call (h : Sent (net.call r dst) k r') : Sent net k r' ∨ r' = r := by
  obtain ⟨dst', hc⟩ := h
  rcases calls_call_iff.1 hc with hc | ⟨-, hc⟩
  · exact .inl ⟨dst', hc⟩
  · exact .inr (Prod.mk.inj hc).1

theorem OnWay.mem_dst (h : OnWay net k a r) : ∃ dst, net.calls[k]? = some (r, dst) ∧ a ∈ dst := by
  obtain ⟨hin, dst, hcall⟩ := h
  obtain ⟨c, hc, ha⟩ := net.sent k a hin
  rw [hcall] at hc
  cases hc
  exact ⟨dst, hcall, ha⟩

theorem onWay_call (h : OnWay (net.call r dst) k a r') :
    OnWay net k a r' ∨ k = net.calls.length ∧ r' = r ∧ a ∈ dst := by
  obtain ⟨hin, dst', hcall⟩ := h
  rcases mem_inFlight_call.1 hin with hin | ⟨rfl, ha⟩
  · obtain ⟨c, hc, -⟩ := net.sent k a hin
    rw [calls_call hc] at hcall
    cases hcall
    exact .inl ⟨hin, dst', hc⟩
  · rcases calls_call_iff.1 hcall with hcall | ⟨-, hcall⟩
    · have := (List.getElem?_eq_some_iff.1 hcall).1
      omega
    · cases hcall
      exact .inr ⟨rfl, rfl, ha⟩

end

/-! ### The invariant -/

/-- What the log, the segments, their QEs and the network agree on. -/
structure Core (wal : Wal DtxRecord) (used : List ℕ) (segments : Fin m → Segment)
    (qes : ℕ → Fin m → Qe) (net : Broadcast Request (Fin m)) (nextGang : ℕ) : Prop where
  call_used : ∀ k r, Sent net k r → r.gid ∈ used
  call_gang : ∀ k r, Sent net k r → r.gang < nextGang
  call_two_phase : ∀ k r, Sent net k r → r.cmd ≠ .dtx .commitOnephase
  call_durable : ∀ k r, Sent net k r → r.cmd.commits = true → Durable wal r.gid
  prepared_used : ∀ a g, g ∈ (segments a).prepared → g ∈ used
  finished_used : ∀ a g o, (g, o) ∈ (segments a).finished → g ∈ used
  xact_used : ∀ γ a g, (qes γ a).xact = some g → g ∈ used
  committed : ∀ a g, (g, .committed) ∈ (segments a).finished → Durable wal g
  unaborted : ∀ g, Logged wal g → ∀ a, (g, .aborted) ∉ (segments a).finished
  closed : ∀ g, Logged wal g → Closed qes net g
  abort_settled : ∀ g, Logged wal g → ∀ k a r, OnWay net k a r → r.gid = g →
    r.cmd.aborts = true → ∀ b, g ∉ (segments b).prepared
  forget_closed : ∀ g, .distributedForget g ∈ wal.records → Closed qes net g
  forget_settled : ∀ g, .distributedForget g ∈ wal.records → ∀ a, g ∉ (segments a).prepared
  gang_new : ∀ γ, nextGang ≤ γ → ∀ a, (qes γ a).xact = none
  devoted : ∀ γ, ∃ g, Devoted qes net γ g

section

variable {wal : Wal DtxRecord} {used : List ℕ} {segments : Fin m → Segment}
  {qes : ℕ → Fin m → Qe} {net : Broadcast Request (Fin m)} {nextGang : ℕ}

/-- Sending a request that could open or prepare its gid is fine as long as the log has
nothing about it. -/
theorem Closed.call {g : ℕ} (h : Closed qes net g) {r : Request} (dst : Finset (Fin m))
    (hr : r.cmd.votes = true → r.gid ≠ g) : Closed qes (net.call r dst) g := by
  refine ⟨h.1, fun k a r' hon hg => ?_⟩
  rcases onWay_call hon with hon | ⟨-, rfl, -⟩
  · exact h.2 k a r' hon hg
  · by_contra hv
    exact hr (by simpa using hv) hg

theorem Devoted.call {γ g : ℕ} (h : Devoted qes net γ g) {r : Request} (dst : Finset (Fin m))
    (hr : r.gang = γ → r.cmd.votes = true → r.gid = g) : Devoted qes (net.call r dst) γ g := by
  refine ⟨h.1, fun k a r' hon hgang hv => ?_⟩
  rcases onWay_call hon with hon | ⟨-, rfl, -⟩
  · exact h.2 k a r' hon hgang hv
  · exact hr hgang hv

/-- **Sending a request** keeps the agreement, when a commit is durable, a vote is for a
gid the log knows nothing of, and an abort is for a gid that is settled or not committed. -/
theorem Core.call (h : Core wal used segments qes net nextGang) {r : Request} (dst : Finset (Fin m))
    (hused : r.gid ∈ used) (hgang : r.gang < nextGang) (hphase : r.cmd ≠ .dtx .commitOnephase)
    (hcommit : r.cmd.commits = true → Durable wal r.gid) (hvote : r.cmd.votes = true →
      ¬ Logged wal r.gid ∧ .distributedForget r.gid ∉ wal.records ∧ Devoted qes net r.gang r.gid)
    (habort : r.cmd.aborts = true → Logged wal r.gid → ∀ b, r.gid ∉ (segments b).prepared) :
    Core wal used segments qes (net.call r dst) nextGang where
  __ := h
  call_used := fun k r' hs => by
    rcases sent_call hs with hs | rfl
    · exact h.call_used k r' hs
    · exact hused
  call_gang := fun k r' hs => by
    rcases sent_call hs with hs | rfl
    · exact h.call_gang k r' hs
    · exact hgang
  call_two_phase := fun k r' hs => by
    rcases sent_call hs with hs | rfl
    · exact h.call_two_phase k r' hs
    · exact hphase
  call_durable := fun k r' hs => by
    rcases sent_call hs with hs | rfl
    · exact h.call_durable k r' hs
    · exact hcommit
  closed := fun g hg => (h.closed g hg).call dst fun hv heq => (hvote hv).1 (heq ▸ hg)
  abort_settled := fun g hg k a r' hon hgid hab => by
    rcases onWay_call hon with hon | ⟨-, rfl, -⟩
    · exact h.abort_settled g hg k a r' hon hgid hab
    · subst hgid
      exact habort hab hg
  forget_closed := fun g hg =>
    (h.forget_closed g hg).call dst fun hv heq => (hvote hv).2.1 (heq ▸ hg)
  devoted := fun γ => by
    by_cases hγ : r.gang = γ ∧ r.cmd.votes = true
    · obtain ⟨rfl, hv⟩ := hγ
      exact ⟨r.gid, (hvote hv).2.2.call dst fun _ _ => rfl⟩
    · obtain ⟨g, hg⟩ := h.devoted γ
      exact ⟨g, hg.call dst fun h₁ h₂ => absurd ⟨h₁, h₂⟩ hγ⟩

end

/-! ### A QE does something -/

/-- One QE, that of gang `γ` on segment `a`, handles a message (`req`, number and request)
and answers `ok`, or just ends; or a message gets lost. -/
structure SegStep (segments segments' : Fin m → Segment) (qes qes' : ℕ → Fin m → Qe)
    (net net' : Broadcast Request (Fin m)) (γ : ℕ) (a : Fin m) (req : Option (ℕ × Request))
    (ok : Bool) : Prop where
  calls : net'.calls = net.calls
  inFlight : net'.inFlight ⊆ net.inFlight
  acked : ∀ k b, net'.Acked k b ↔ net.Acked k b ∨ ∃ r, req = some (k, r) ∧ b = a ∧ ok = true
  refused : ∀ k b, net'.Refused k b ↔ net.Refused k b ∨ ∃ r, req = some (k, r) ∧ b = a ∧ ok = false
  qes_ne : ∀ γ' b, γ' ≠ γ ∨ b ≠ a → qes' γ' b = qes γ' b
  seg_ne : ∀ b, b ≠ a → segments' b = segments b
  effect : Effect (req.map fun p => (p.2.cmd, p.2.gid)) (qes γ a) (qes' γ a) (segments a)
    (segments' a) ok
  onWay : ∀ k r, req = some (k, r) → OnWay net k a r ∧ r.gang = γ ∧ qes γ a ≠ none
  exited : qes γ a = none → qes' γ a = none

section

variable {wal : Wal DtxRecord} {used : List ℕ} {segments segments' : Fin m → Segment}
  {qes qes' : ℕ → Fin m → Qe} {net net' : Broadcast Request (Fin m)} {nextGang : ℕ} {γ : ℕ}
  {a : Fin m} {req : Option (ℕ × Request)} {ok : Bool}

namespace SegStep

variable (h : SegStep segments segments' qes qes' net net' γ a req ok) {γ' g k : ℕ} {b : Fin m}
  {r : Request}
include h

theorem sent_iff : Sent net' k r ↔ Sent net k r := by
  rw [Sent, Sent, h.calls]

theorem onWay_of (hon : OnWay net' k b r) : OnWay net k b r :=
  ⟨h.inFlight hon.1, h.sent_iff.1 hon.2⟩

theorem request_of {c : Command} (hreq : req.map (fun p => (p.2.cmd, p.2.gid)) = some (c, g)) :
    ∃ k r, req = some (k, r) ∧ OnWay net k a r ∧ r.gang = γ ∧ r.cmd = c ∧ r.gid = g := by
  obtain ⟨⟨k, r⟩, hp, heq⟩ := Option.map_eq_some_iff.1 hreq
  obtain ⟨rfl, rfl⟩ := Prod.mk.inj heq
  obtain ⟨hon, hγ, -⟩ := h.onWay k r hp
  exact ⟨k, r, hp, hon, hγ, rfl, rfl⟩

theorem prepared_of (hg : g ∈ (segments' b).prepared) : g ∈ (segments b).prepared ∨
      ∃ k r, req = some (k, r) ∧ OnWay net k b r ∧ r.gang = γ ∧ r.cmd = .dtx .prepare ∧
        r.gid = g := by
  by_cases hb : b = a
  · subst hb
    refine (h.effect.prepared_of g hg).imp id fun hreq => ?_
    exact h.request_of hreq
  · rw [h.seg_ne b hb] at hg
    exact .inl hg

theorem finished_of {o : Outcome} (hg : (g, o) ∈ (segments' b).finished) :
    (g, o) ∈ (segments b).finished ∨ (b = a ∧ o = .aborted ∧ (qes γ a).xact = some g ∧
        (qes' γ a = none ∨ ∃ k r, req = some (k, r) ∧ (ok = false ∨ r.cmd.votes = false))) ∨
      ∃ k r, req = some (k, r) ∧ OnWay net k b r ∧ r.gid = g ∧ g ∈ (segments b).prepared ∧
        (o = .committed ∧ r.cmd.commits = true ∨ o = .aborted ∧ r.cmd.aborts = true) := by
  by_cases hb : b = a
  · subst hb
    rcases h.effect.finished_of g o hg with hg | ⟨ho, hx, hq⟩ | ⟨c, hreq, hp, hc⟩
    · exact .inl hg
    · refine .inr (.inl ⟨rfl, ho, hx, hq.imp id ?_⟩)
      rintro ⟨c, _, hreq, hc⟩
      obtain ⟨k, r, hr, -, -, rfl, -⟩ := h.request_of hreq
      exact ⟨k, r, hr, hc⟩
    · obtain ⟨k, r, hr, hon, -, rfl, hgid⟩ := h.request_of hreq
      exact .inr (.inr ⟨k, r, hr, hon, hgid, hp, hc⟩)
  · rw [h.seg_ne b hb] at hg
    exact .inl hg

theorem xact_of (hx : (qes' γ' b).xact = some g) : (qes γ' b).xact = some g ∨
      ∃ k r, req = some (k, r) ∧ OnWay net k b r ∧ r.gang = γ' ∧ r.gid = g ∧ r.cmd.votes = true ∧
        ∃ e, r.cmd = .query e := by
  by_cases hb : γ' = γ ∧ b = a
  · obtain ⟨rfl, rfl⟩ := hb
    refine (h.effect.xact_of g hx).imp id fun ⟨e, hreq⟩ => ?_
    obtain ⟨k, r, hr, hon, hγ, hc, hgid⟩ := h.request_of hreq
    exact ⟨k, r, hr, hon, hγ, hgid, by rw [hc]; rfl, e, hc⟩
  · rw [h.qes_ne γ' b (by tauto)] at hx
    exact .inl hx

theorem none_of (hq : qes γ' b = none) : qes' γ' b = none := by
  by_cases hb : γ' = γ ∧ b = a
  · obtain ⟨rfl, rfl⟩ := hb
    exact h.exited hq
  · rw [h.qes_ne γ' b (by tauto)]
    exact hq

theorem closed (hg : Closed qes net g) : Closed qes' net' g := by
  refine ⟨fun γ' b hx => ?_, fun k b r hon => hg.2 k b r (h.onWay_of hon)⟩
  rcases h.xact_of hx with hx | ⟨k, r, -, hon, -, hgid, hv, -⟩
  · exact hg.1 γ' b hx
  · rw [hg.2 k b r hon hgid] at hv
    cases hv

theorem not_prepared (hg : Closed qes net g) (hp : g ∉ (segments b).prepared) :
    g ∉ (segments' b).prepared := by
  intro hp'
  rcases h.prepared_of hp' with hp' | ⟨k, r, -, hon, -, hc, hgid⟩
  · exact hp hp'
  · have hv := hg.2 k b r hon hgid
    rw [hc] at hv
    cases hv

theorem devoted (hg : Devoted qes net γ' g) : Devoted qes' net' γ' g := by
  refine ⟨fun b g' hx => ?_, fun k b r hon => hg.2 k b r (h.onWay_of hon)⟩
  rcases h.xact_of hx with hx | ⟨k, r, -, hon, hγ, rfl, hv, -⟩
  · exact hg.1 b g' hx
  · exact hg.2 k b r hon hγ hv

end SegStep

/-- **What a QE does** keeps the agreement. -/
theorem Core.segStep (h : Core wal used segments qes net nextGang)
    (hst : SegStep segments segments' qes qes' net net' γ a req ok) :
    Core wal used segments' qes' net' nextGang where
  call_used := fun k r hs => h.call_used k r (hst.sent_iff.1 hs)
  call_gang := fun k r hs => h.call_gang k r (hst.sent_iff.1 hs)
  call_two_phase := fun k r hs => h.call_two_phase k r (hst.sent_iff.1 hs)
  call_durable := fun k r hs => h.call_durable k r (hst.sent_iff.1 hs)
  prepared_used := fun b g hg => by
    rcases hst.prepared_of hg with hg | ⟨k, r, -, hon, -, -, rfl⟩
    · exact h.prepared_used b g hg
    · exact h.call_used k r hon.2
  finished_used := fun b g o hg => by
    rcases hst.finished_of hg with hg | ⟨-, -, hx, -⟩ | ⟨k, r, -, hon, rfl, -⟩
    · exact h.finished_used b g o hg
    · exact h.xact_used _ _ g hx
    · exact h.call_used k r hon.2
  xact_used := fun γ' b g hx => by
    rcases hst.xact_of hx with hx | ⟨k, r, -, hon, -, rfl, -⟩
    · exact h.xact_used γ' b g hx
    · exact h.call_used k r hon.2
  committed := fun b g hg => by
    rcases hst.finished_of hg with hg | ⟨-, ho, -⟩ | ⟨k, r, -, hon, rfl, -, hc⟩
    · exact h.committed b g hg
    · cases ho
    · rcases hc with ⟨-, hc⟩ | ⟨ho, -⟩
      · exact h.call_durable k r hon.2 hc
      · cases ho
  unaborted := fun g hg b hb => by
    rcases hst.finished_of hb with hb | ⟨-, -, hx, -⟩ | ⟨k, r, -, hon, hgid, hp, hc⟩
    · exact h.unaborted g hg b hb
    · exact (h.closed g hg).1 _ _ hx
    · rcases hc with ⟨ho, -⟩ | ⟨-, hc⟩
      · cases ho
      · exact h.abort_settled g hg k b r hon hgid hc b hp
  closed := fun g hg => hst.closed (h.closed g hg)
  abort_settled := fun g hg k b r hon hgid hab c =>
    hst.not_prepared (h.closed g hg) (h.abort_settled g hg k b r (hst.onWay_of hon) hgid hab c)
  forget_closed := fun g hg => hst.closed (h.forget_closed g hg)
  forget_settled := fun g hg b => hst.not_prepared (h.forget_closed g hg) (h.forget_settled g hg b)
  gang_new := fun γ' hγ' b => by
    cases hx : (qes' γ' b).xact with
    | none => rfl
    | some g =>
      rcases hst.xact_of hx with hx | ⟨k, r, -, hon, rfl, -⟩
      · rw [h.gang_new γ' hγ' b] at hx
        cases hx
      · have := h.call_gang k r hon.2
        omega
  devoted := fun γ' => by
    obtain ⟨g, hg⟩ := h.devoted γ'
    exact ⟨g, hst.devoted hg⟩

end

/-! ### The log changes -/

/-- Every segment has voted for `g` and nothing else about it is going on: the state of
affairs in which its commit record is written. -/
structure Unanimous (segments : Fin m → Segment) (qes : ℕ → Fin m → Qe)
    (net : Broadcast Request (Fin m)) (g : ℕ) : Prop where
  xact : ∀ γ a, (qes γ a).xact ≠ some g
  aborted : ∀ a, (g, .aborted) ∉ (segments a).finished
  onWay : ∀ k a r, OnWay net k a r → r.gid ≠ g

section

variable {wal wal' : Wal DtxRecord} {used used' : List ℕ} {segments : Fin m → Segment}
  {qes : ℕ → Fin m → Qe} {net : Broadcast Request (Fin m)} {nextGang nextGang' : ℕ}

theorem Unanimous.closed {g : ℕ} (h : Unanimous segments qes net g) : Closed qes net g :=
  ⟨h.xact, fun k a r hon hgid => absurd hgid (h.onWay k a r hon)⟩

/-- **The log changes**: nothing durable is lost, a commit record is new only for a gid
all segments voted for, a forget record only for one that is settled. -/
theorem Core.log (h : Core wal used segments qes net nextGang)
    (hdur : ∀ g, Durable wal g → Durable wal' g)
    (hcommit : ∀ g, Logged wal' g → Logged wal g ∨ Unanimous segments qes net g)
    (hforget : ∀ g, .distributedForget g ∈ wal'.records → .distributedForget g ∈ wal.records ∨
      Closed qes net g ∧ ∀ a, g ∉ (segments a).prepared) (hused : used ⊆ used')
    (hgang : nextGang ≤ nextGang') :
    Core wal' used' segments qes net nextGang' where
  call_used := fun k r hs => hused (h.call_used k r hs)
  call_gang := fun k r hs => Nat.lt_of_lt_of_le (h.call_gang k r hs) hgang
  call_two_phase := h.call_two_phase
  call_durable := fun k r hs hc => hdur _ (h.call_durable k r hs hc)
  prepared_used := fun a g hg => hused (h.prepared_used a g hg)
  finished_used := fun a g o hg => hused (h.finished_used a g o hg)
  xact_used := fun γ a g hx => hused (h.xact_used γ a g hx)
  committed := fun a g hg => hdur g (h.committed a g hg)
  unaborted := fun g hg => (hcommit g hg).elim (h.unaborted g) fun hu => hu.aborted
  closed := fun g hg => (hcommit g hg).elim (h.closed g) fun hu => hu.closed
  abort_settled := fun g hg k a r hon hgid => by
    rcases hcommit g hg with hg | hu
    · exact h.abort_settled g hg k a r hon hgid
    · exact absurd hgid (hu.onWay k a r hon)
  forget_closed := fun g hg => (hforget g hg).elim (h.forget_closed g) fun hc => hc.1
  forget_settled := fun g hg => (hforget g hg).elim (h.forget_settled g) fun hc => hc.2
  gang_new := fun γ hγ => h.gang_new γ (Nat.le_trans hgang hγ)
  devoted := h.devoted

theorem Core.newGang (h : Core wal used segments qes net nextGang) :
    Core wal used segments qes net (nextGang + 1) :=
  h.log (fun _ hg => hg) (fun _ hg => .inl hg) (fun _ hg => .inl hg) (List.Subset.refl _)
    (Nat.le_succ _)

end

end Cloudberry.Dtm.TwoPhase
