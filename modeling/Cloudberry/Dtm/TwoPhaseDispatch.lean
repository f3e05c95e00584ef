/-
# What a backend's own steps do to its promises

The step lemmas of `BackendOk` for the dispatcher: others send requests and write to the
log (`grow`, `call`), and the backend itself starts a transaction, dispatches a command,
gets its answers or loses its gang, and takes the transaction through the log.
-/

import Cloudberry.Dtm.TwoPhaseBackend

namespace Cloudberry.Dtm.TwoPhase

open Broadcast

variable {m : ℕ} {slot : DtxSlot} {l : TmGxactLocal m} {wal wal' : Wal DtxRecord} {used : List ℕ}
  {segments : Fin m → Segment} {qes : ℕ → Fin m → Qe} {net : Broadcast Request (Fin m)}
  {nextGang : ℕ} {st : DtxState} {cmd : Command} {segs dst : Finset (Fin m)}

/-! ### Waiting, and waiting for nothing -/

theorem Unanimous.call {g : ℕ} (hu : Unanimous segments qes net g) {r : Request}
    (dst : Finset (Fin m)) (hr : r.gid ≠ g) : Unanimous segments qes (net.call r dst) g := by
  refine ⟨hu.xact, hu.aborted, fun k a r' hon => ?_⟩
  rcases onWay_call hon with hon | ⟨-, rfl, -⟩
  · exact hu.onWay k a r' hon
  · exact hr

theorem Core.onWay_gang (h : Core wal used segments qes net nextGang) {γ : ℕ} (hγ : nextGang ≤ γ)
    (k : ℕ) (a : Fin m) (r : Request) (hon : OnWay net k a r) : r.gang ≠ γ := by
  have := h.call_gang k r hon.2
  omega

variable {k : ℕ}

theorem answered_dispatch (hk : l.dispatch = some k) (hans : net.answered k = true) (j : ℕ)
    (a : Fin m) (r : Request) (hon : OnWay net j a r) : l.dispatch ≠ some j := by
  rw [hk]
  rintro ⟨⟩
  exact not_inFlight_of_answered hans hon.1

theorem Working.dispatch (hw : Working slot l segments qes net) (hnone : l.dispatch = none)
    (hsegs : l.dtxSegments ⊆ segs) :
    Working slot { l with state := st, dtxSegments := segs, dispatch := some net.calls.length }
      segments qes (net.call ⟨cmd, slot.gxid, l.gang⟩ dst) where
  prepared := fun a hg => hsegs (hw.prepared a hg)
  xact := hw.xact
  aborted := fun a hg => by
    obtain ⟨ha, hsp⟩ := hw.aborted a hg
    refine ⟨hsegs ha, .inl (hsp.resolve_right ?_)⟩
    rintro ⟨k, hk, -⟩
    rw [hnone] at hk
    cases hk
  onWay := fun k a r hon hg => by
    rcases onWay_call hon with hon | ⟨rfl, -, -⟩
    · have := hw.onWay k a r hon hg
      rw [hnone] at this
      cases this
    · rfl
  acked := fun _ k a hk hack => by
    cases hk
    exact absurd hack not_acked_length

theorem Committing.dispatch (hc : Committing slot l wal segments net)
    (hdur : Durable wal slot.gxid) (hst : st ≠ .insertingForgetCommitted) (r : Request) :
    Committing slot { l with state := st, dispatch := some net.calls.length } wal segments
      (net.call r dst) where
  prepared := hc.prepared
  acked := fun k a hk hack => by
    cases hk
    exact absurd hack not_acked_length
  done := fun h => absurd h hst
  logged := hc.logged
  durable := fun _ => hdur

theorem BackendOk.of_idle {γ : ℕ} (hx : ∀ a, (qes γ a).xact = none)
    (hon : ∀ k a r, OnWay net k a r → r.gang ≠ γ) :
    BackendOk DtxSlot.empty (.idle m γ) wal segments qes net where
  idle := fun _ => ⟨rfl, rfl, rfl⟩
  active := nofun
  inserting := nofun
  inserted := nofun
  forgotten := nofun
  dispatched := fun k h => by cases h
  quiet := fun k a r h hg => absurd hg (hon k a r h)
  own := fun h => absurd rfl h
  reach := fun a h => absurd (hx a) h
  raised := nofun
  lost := nofun
  clean := fun _ => hx
  cleaning := nofun
  working := nofun
  voted := fun h => by rcases h with h | h <;> cases h
  committing := nofun

/-- The slot of a transaction in state `st`, which is not about to write a record. -/
structure SlotFits (slot : DtxSlot) (wal : Wal DtxRecord) (st : DtxState) : Prop where
  active : st.committing = false → slot.state = .active
  inserted : st.committing = true → slot.state = .inserted ∧ Durable wal slot.gxid

namespace SlotFits

theorem of_active (h : slot.state = .active) (hst : st.committing = false) : SlotFits slot wal st :=
  ⟨fun _ => h, fun hc => by rw [hst] at hc; cases hc⟩

theorem of_inserted (h : slot.state = .inserted) (hdur : Durable wal slot.gxid)
    (hst : st.committing = true) : SlotFits slot wal st :=
  ⟨fun hc => (by rw [hst] at hc; cases hc), fun _ => ⟨h, hdur⟩⟩

theorem ne (h : SlotFits slot wal st) {x : CommitState} (hx : .active ≠ x ∧ .inserted ≠ x) :
    slot.state ≠ x := by
  cases hc : st.committing with
  | false => rw [h.active hc]; exact hx.1
  | true => rw [(h.inserted hc).1]; exact hx.2

theorem committing (h : SlotFits slot wal st) (hslot : slot.state = .inserted) :
    st.committing = true := by
  by_contra hc
  rw [h.active (by simpa using hc)] at hslot
  cases hslot

end SlotFits

/-- **A backend that waits for nothing**, in a state between the records of its transaction. -/
theorem BackendOk.rest (hnone : l.dispatch = none)
    (hst : l.state ≠ .none ∧ l.state ≠ .insertingCommitted ∧ l.state ≠ .insertedForgetCommitted)
    (hfits : SlotFits slot wal l.state) (hquiet : ∀ k a r, OnWay net k a r → r.gang ≠ l.gang)
    (hown : Devoted qes net l.gang slot.gxid)
    (hreach : ∀ a, (qes l.gang a).xact ≠ none → a ∈ l.dtxSegments)
    (hlost : l.gangLost = true → l.aborting = true)
    (hclean : l.state.rollingBack = true ∨ l.gangLost = true → ∀ a, (qes l.gang a).xact = none)
    (hworking : l.state.raisesError = true → l.aborting = false → Working slot l segments qes net)
    (hvoted : l.state = .prepared → Voted slot l segments qes net)
    (hcommitting : slot.state = .inserted → Committing slot l wal segments net) :
    BackendOk slot l wal segments qes net where
  idle := fun h => absurd h hst.1
  active := fun h => hfits.active (DtxState.not_committing_of_uncommitted h)
  inserting := fun h => absurd h hst.2.1
  inserted := fun h => (hfits.inserted h).1
  forgotten := fun h => absurd h hst.2.2
  dispatched := fun j hj => by
    rw [hnone] at hj
    cases hj
  quiet := fun j a r hon hg => absurd hg (hquiet j a r hon)
  own := fun _ => hown
  reach := hreach
  raised := fun _ _ => hnone
  lost := hlost
  clean := fun h => hclean (h.imp (fun h => by rw [h]; rfl) id)
  cleaning := fun h a hx => absurd (hclean (.inl h) a) hx
  working := hworking
  voted := fun h => hvoted (h.resolve_right (hfits.ne (by decide)))
  committing := hcommitting

/-! ### The backend itself, and others, take a step -/

section

variable (hb : BackendOk slot l wal segments qes net)
include hb

theorem BackendOk.grow (hw : wal.Grows wal') : BackendOk slot l wal' segments qes net where
  __ := hb
  committing := fun hins =>
    let hc := hb.committing hins
    { hc with
      logged := hw.mem_take (Nat.le_refl _) hc.logged
      durable := fun hd => hw.durable (hc.durable hd) }

/-- Somebody else sends a request: over another gang, and not about a transaction that is
still undecided. -/
theorem BackendOk.call {r : Request} (dst : Finset (Fin m)) (hgang : r.gang ≠ l.gang)
    (hgid : slot.state = .active ∨ slot.state = .inserting → r.gid ≠ slot.gxid) :
    BackendOk slot l wal segments qes (net.call r dst) where
  __ := hb
  dispatched := fun k hk => by
    obtain ⟨r', dst', hc, hrest⟩ := hb.dispatched k hk
    exact ⟨r', dst', calls_call hc r dst, hrest⟩
  quiet := fun k a r' hon hg => by
    rcases onWay_call hon with hon | ⟨-, rfl, -⟩
    · exact hb.quiet k a r' hon hg
    · exact absurd hg hgang
  own := fun hne => (hb.own hne).call dst fun hg => absurd hg hgang
  cleaning := hb.cleaning
  working := fun hst hab =>
    let hw := hb.working hst hab
    { hw with
      onWay := fun k a r' hon hg => by
        rcases onWay_call hon with hon | ⟨-, rfl, -⟩
        · exact hw.onWay k a r' hon hg
        · have hactive := hb.active (DtxState.uncommitted_of_raisesError hst)
          exact absurd hg (hgid (.inl hactive)) }
  voted := fun hv =>
    { hb.voted hv with
      unanimous := (hb.voted hv).unanimous.call dst (hgid (hv.imp (fun hp => hb.active (by
        rw [hp]; rfl)) id)) }
  committing := fun hins => { hb.committing hins with }

/-- A backend that waits for nothing, with nothing of its transaction open on its gang,
has a clean gang. -/
theorem BackendOk.quiet_gang (hnone : l.dispatch = none) (k : ℕ) (a : Fin m) (r : Request)
    (hon : OnWay net k a r) : r.gang ≠ l.gang := by
  intro hg
  rw [hb.quiet k a r hon hg] at hnone
  cases hnone

theorem BackendOk.activate (hcore : Core wal used segments qes net nextGang)
    (hstate : l.state = .none) {gxid : ℕ} (hfresh : gxid ∉ used) :
    BackendOk ⟨gxid, .active, false, false⟩ (.activated m l.gang) wal segments qes net := by
  obtain ⟨-, hnone, hsegs⟩ := hb.idle hstate
  have hx : ∀ a, (qes l.gang a).xact = none := by
    intro a
    by_contra hx
    have := hb.reach a hx
    rw [hsegs] at this
    cases this
  have hon := hb.quiet_gang hnone
  refine .rest rfl (by simp [TmGxactLocal.activated]) (.of_active rfl rfl) hon
    ⟨fun a g hg => ?_, fun k a r h hg => absurd hg (hon k a r h)⟩ (fun a h => absurd (hx a) h)
    nofun (fun _ => hx) (fun _ _ => ?_) nofun nofun
  · cases (hx a).symm.trans hg
  exact
    { prepared := fun a hg => absurd (hcore.prepared_used a gxid hg) hfresh
      xact := fun γ a hg => absurd (hcore.xact_used γ a gxid hg) hfresh
      aborted := fun a hg => absurd (hcore.finished_used a gxid _ hg) hfresh
      onWay := fun k a r h hg => by
        have hgid : r.gid = gxid := hg
        exact absurd (hgid ▸ hcore.call_used k r h.2) hfresh
      acked := fun h => by cases h }

/-- **A backend dispatches a command** of its transaction and waits. -/
theorem BackendOk.dispatch (st : DtxState) (cmd : Command) (segs dst : Finset (Fin m))
    (hnone : l.dispatch = none) (hne : l.state ≠ .none) (hex : st.expects cmd = true)
    (hsegs : l.dtxSegments ⊆ segs) (hdst : dst ⊆ segs)
    (hdst' : st ≠ .activeDistributed → dst = segs) (hfits : SlotFits slot wal st)
    (hraised : st.raisesError = true → l.aborting = false)
    (hclean : st = .retryAbortPrepared → ∀ a, (qes l.gang a).xact = none)
    (hworking : st.raisesError = true → Working slot l segments qes net)
    (hcommitting : st.committing = true → segs = l.dtxSegments) :
    BackendOk slot { l with state := st, dtxSegments := segs, dispatch := some net.calls.length }
      wal segments qes (net.call ⟨cmd, slot.gxid, l.gang⟩ dst) := by
  have hst : ∀ st', st'.expects cmd = false → st ≠ st' := fun st' h heq => by
    rw [← heq, hex] at h
    cases h
  exact
    { idle := fun h => absurd h (hst _ rfl)
      active := fun h => hfits.active (DtxState.not_committing_of_uncommitted h)
      inserting := fun h => absurd h (hst _ rfl)
      inserted := fun h => (hfits.inserted h).1
      forgotten := fun h => absurd h (hst _ rfl)
      dispatched := fun k hk => by
        cases hk
        exact ⟨_, dst, calls_call_iff.2 (.inr ⟨rfl, rfl⟩), rfl, rfl, hex, hdst, hdst'⟩
      quiet := fun k a r hon hg => by
        rcases onWay_call hon with hon | ⟨rfl, -, -⟩
        · exact absurd hg (hb.quiet_gang hnone k a r hon)
        · rfl
      own := fun _ => (hb.own hne).call dst fun _ _ => rfl
      reach := fun a hx => hsegs (hb.reach a hx)
      raised := fun hab hr => by
        rw [hraised hr] at hab
        cases hab
      lost := hb.lost
      clean := fun h => h.elim hclean fun hl => hb.clean (.inr hl)
      cleaning := fun _ a _ => ⟨_, rfl, not_acked_length⟩
      working := fun hr _ => (hworking hr).dispatch hnone hsegs
      voted := fun h => h.elim (fun h => absurd h (hst _ rfl)) fun h =>
        absurd h (hfits.ne (by decide))
      committing := fun h => by
        have hc := hfits.committing h
        rw [hcommitting hc]
        exact (hb.committing h).dispatch (hfits.inserted hc).2 (hst _ rfl) _ }

/-- Everybody the request went to acknowledged it, so every segment of the transaction,
but for a statement that went to some only. -/
theorem BackendOk.acked_of_succeeded (hk : l.dispatch = some k) (hsucc : net.succeeded k = true)
    (hst : l.state ≠ .activeDistributed) {a : Fin m} (ha : a ∈ l.dtxSegments) : net.Acked k a := by
  obtain ⟨r, _, hc, -, -, -, -, hdst⟩ := hb.dispatched k hk
  rw [← hdst hst] at ha
  exact Broadcast.acked_of_succeeded hsucc hc ha

theorem BackendOk.all_voted (hw : Working slot l segments qes net) (hst : l.state = .preparing)
    (hk : l.dispatch = some k) (hsucc : net.succeeded k = true) :
    Voted slot l segments qes net := by
  have hack : ∀ a ∈ l.dtxSegments, net.Acked k a := fun a ha =>
    hb.acked_of_succeeded hk hsucc (by rw [hst]; simp) ha
  refine ⟨hw.prepared, fun γ a hx => ?_, fun a hg => ?_, fun j a r hon hg => ?_⟩
  · have hγ := hw.xact γ a hx
    have ha : a ∈ l.dtxSegments := hb.reach a (by rw [← hγ, hx]; simp)
    exact (hw.acked hst k a hk (hack a ha)).2 γ hx
  · exact (hw.acked hst k a hk (hack a (hw.aborted a hg).1)).1 hg
  · exact answered_dispatch hk (answered_of_succeeded hsucc) j a r hon
      (hw.onWay j a r hon hg)

theorem BackendOk.settle (hquiet : ∀ j a r, OnWay net j a r → r.gang ≠ l.gang)
    (hne : l.state ≠ .none)
    (hst : st ≠ .none ∧ st ≠ .insertingCommitted ∧ st ≠ .insertedForgetCommitted)
    (hfits : SlotFits slot wal st)
    (hclean : st.rollingBack = true → ∀ a, (qes l.gang a).xact = none)
    (hworking : st.raisesError = true → l.aborting = false →
      Working slot { l with dispatch := none, state := st } segments qes net)
    (hvoted : st = .prepared → Voted slot l segments qes net)
    (hdone : st = .insertingForgetCommitted → ∀ a, slot.gxid ∉ (segments a).prepared) :
    BackendOk slot { l with dispatch := none, state := st } wal segments qes net :=
  .rest rfl hst hfits hquiet (hb.own hne) hb.reach hb.lost
    (fun h => h.elim hclean fun hl => hb.clean (.inr hl)) hworking
    (fun h => { hvoted h with }) fun h =>
      { hb.committing h with
        acked := nofun
        done := hdone
        durable := fun _ => (hfits.inserted (hfits.committing h)).2 }

/-- **The dispatch succeeded.** -/
theorem BackendOk.succeed (hk : l.dispatch = some k) (hsucc : net.succeeded k = true) :
    BackendOk slot { l with dispatch := none, state := l.state.afterSuccess } wal segments qes
      net := by
  obtain ⟨r, _, -, -, -, hex, -⟩ := hb.dispatched k hk
  have hans := answered_dispatch hk (answered_of_succeeded hsucc)
  have hquiet : ∀ j a r, OnWay net j a r → r.gang ≠ l.gang := fun j a r hon hg =>
    hans j a r hon (hb.quiet j a r hon hg)
  rcases DtxState.cases_of_expects hex with hst | hst | ⟨hst, hnext⟩ | ⟨hst, hnext⟩
  · rw [hst]
    refine hb.settle hquiet (by rw [hst]; simp) (by simp [DtxState.afterSuccess])
      (.of_active (hb.active (by rw [hst]; rfl)) rfl) nofun (fun _ hab => ?_) nofun nofun
    have hw := hb.working (by rw [hst]; rfl) hab
    refine { hw with aborted := fun a hg => ?_, onWay := fun j a r hon hg => ?_, acked := ?_ }
    · refine (hw.aborted a hg).imp id fun h => .inl (h.resolve_right ?_)
      rintro ⟨j, hj, hr⟩
      rw [hk] at hj
      cases hj
      exact not_refused_of_succeeded hsucc hr
    · exact absurd (hw.onWay j a r hon hg) (hans j a r hon)
    · exact fun h => by cases h
  · rw [hst]
    have hab : l.aborting = false := by
      by_contra hab
      rw [hb.raised (by simpa using hab) (by rw [hst]; rfl)] at hk
      cases hk
    refine hb.settle hquiet (by rw [hst]; simp) (by simp [DtxState.afterSuccess])
      (.of_active (hb.active (by rw [hst]; rfl)) rfl) nofun nofun (fun _ => ?_) nofun
    exact hb.all_voted (hb.working (by rw [hst]; rfl) hab) hst hk hsucc
  · rw [hnext]
    have hne : l.state ≠ .activeDistributed := fun h => by rw [h] at hst; cases hst
    have hc := hb.committing (hb.inserted hst)
    refine hb.settle hquiet (fun h => by rw [h] at hst; cases hst) (by simp)
      (.of_inserted (hb.inserted hst)
        (hc.durable (.inr (DtxState.notified_of_expects hst hex))) rfl)
      nofun nofun nofun (fun _ a hg => ?_)
    exact hc.acked k a hk (hb.acked_of_succeeded hk hsucc hne (hc.prepared a hg)) hg
  · rw [hnext]
    have hunc := DtxState.uncommitted_of_rollingBack hst
    have hne : ∀ st : DtxState, st.rollingBack = false → l.state ≠ st := fun st h heq => by
      rw [← heq, hst] at h
      cases h
    refine hb.settle hquiet (hne .none rfl) ⟨hne .none rfl, hne _ rfl, hne _ rfl⟩
      (.of_active (hb.active hunc) (DtxState.not_committing_of_uncommitted hunc)) (fun _ a => ?_)
      (fun h => ?_) (fun h => absurd h (hne _ rfl)) (fun h => absurd h (hne _ rfl))
    · by_contra hx
      obtain ⟨j, hj, hack⟩ := hb.cleaning hst a hx
      rw [hk] at hj
      cases hj
      exact hack (hb.acked_of_succeeded hk hsucc (hne _ rfl) (hb.reach a hx))
    · exact absurd rfl (hne l.state (DtxState.not_rollingBack_of_raisesError h))

/-! ### A lost gang, and the way through the log -/

/-- **The gang is replaced by a new one**, and the backend goes on in state `st`. -/
theorem BackendOk.newGang (hcore : Core wal used segments qes net nextGang)
    {aborting gangLost : Bool}
    (hst : st.raisesError = true ∨ st.committing = true ∨ st.rollingBack = true)
    (hdone : st ≠ .insertingForgetCommitted) (hfits : SlotFits slot wal st)
    (hab : st.raisesError = true → aborting = true) (hlost : gangLost = true → aborting = true) :
    BackendOk slot { l with
      dispatch := none, state := st, gang := nextGang, aborting := aborting,
      gangLost := gangLost } wal segments qes net := by
  have hnew := hcore.gang_new nextGang (Nat.le_refl _)
  have hon := hcore.onWay_gang (Nat.le_refl nextGang)
  have hne : ∀ st' : DtxState, ¬ (st'.raisesError = true ∨ st'.committing = true ∨
      st'.rollingBack = true) → st ≠ st' := fun st' h heq => h (heq ▸ hst)
  refine .rest rfl ⟨hne _ (by decide), hne _ (by decide), hne _ (by decide)⟩ hfits hon
    ⟨fun a g hg => ?_, fun k a r h hg => absurd hg (hon k a r h)⟩ (fun a hx => absurd (hnew a) hx)
    hlost (fun _ => hnew) (fun h h' => ?_) (fun h => absurd h (hne _ (by decide))) fun h => ?_
  · cases (hnew a).symm.trans hg
  · rw [hab h] at h'
    cases h'
  · exact
      { hb.committing h with
        acked := nofun
        done := fun h => absurd h hdone
        durable := fun _ => (hfits.inserted (hfits.committing h)).2 }

/-- **The dispatch failed** where that is an ERROR and the gang is still there: everybody
has answered. -/
theorem BackendOk.raise (hk : l.dispatch = some k) (hans : net.answered k = true)
    (hst : l.state.raisesError = true) :
    BackendOk slot { l with dispatch := none, aborting := true, gangLost := false } wal segments qes
      net := by
  have hne : ∀ st : DtxState, st.raisesError = false → l.state ≠ st := fun st h heq => by
    rw [← heq, hst] at h
    cases h
  have hunc := DtxState.uncommitted_of_raisesError hst
  have hact := hb.active hunc
  refine .rest rfl ⟨hne _ rfl, hne _ rfl, hne _ rfl⟩
    (.of_active hact (DtxState.not_committing_of_uncommitted hunc))
    (fun j a r hon hg => answered_dispatch hk hans j a r hon (hb.quiet j a r hon hg))
    (hb.own (hne _ rfl)) hb.reach (fun _ => rfl) (fun h => ?_) nofun
    (fun h => absurd h (hne _ rfl)) fun h => ?_
  · have h : l.state.rollingBack = true := h.resolve_right (by simp)
    rw [DtxState.not_rollingBack_of_raisesError hst] at h
    cases h
  · cases hact.symm.trans h

theorem BackendOk.retryAbort (hst : l.state = .preparing) (hnone : l.dispatch = none)
    (hlost : l.gangLost = true) :
    BackendOk slot { l with state := .retryAbortPrepared } wal segments qes net := by
  have hact := hb.active (by rw [hst]; rfl)
  refine .rest hnone (by simp) (.of_active hact rfl) (hb.quiet_gang hnone)
    (hb.own (by rw [hst]; simp)) hb.reach hb.lost (fun _ => hb.clean (.inr hlost)) nofun nofun
    fun h => ?_
  cases hact.symm.trans h

/-- A step through the log, in a state in which the backend waits for nothing: the slot
and the state change, what the backend knows about the segments does not. -/
theorem BackendOk.advance {slot' : DtxSlot} {l' : TmGxactLocal m} {st st' : DtxState}
    (hst : l.state = st) (hst' : l'.state = st') (hgxid : slot'.gxid = slot.gxid)
    (hl' : l'.dispatch = l.dispatch ∧ l'.gang = l.gang ∧ l'.dtxSegments = l.dtxSegments ∧
      l'.aborting = l.aborting ∧ l'.gangLost = l.gangLost)
    (hwait : ∀ c, st.expects c = false) (hne : st ≠ .none) (hne' : st' ≠ .none)
    (hunc : st'.uncommitted = false)
    (hinserting : st' = .insertingCommitted → slot'.state = .inserting ∨ slot'.state = .inserted)
    (hinserted : st'.committing = true → slot'.state = .inserted)
    (hforgotten : st' = .insertedForgetCommitted → slot'.state = .forgotten)
    (hvoted : slot'.state = .inserting → Voted slot l segments qes net)
    (hcommitting : slot'.state = .inserted → Committing slot' l' wal segments net) :
    BackendOk slot' l' wal segments qes net := by
  subst hst hst'
  obtain ⟨hd, hg, hs, ha, hl⟩ := hl'
  have hnone := hb.not_waiting hwait
  rw [hnone] at hd
  have hroll : l'.state.rollingBack = false := by
    by_contra h
    rw [DtxState.uncommitted_of_rollingBack (by simpa using h)] at hunc
    cases hunc
  exact
    { idle := fun h => absurd h hne'
      active := fun h => by rw [hunc] at h; cases h
      inserting := fun h => ⟨hinserting h, hd⟩
      inserted := hinserted
      forgotten := hforgotten
      dispatched := fun j hj => by rw [hd] at hj; cases hj
      quiet := fun k a r hon h => by
        rw [hg] at h
        exact absurd h (hb.quiet_gang hnone k a r hon)
      own := fun _ => by
        rw [hg, hgxid]
        exact hb.own hne
      reach := fun a hx => by
        rw [hg] at hx
        rw [hs]
        exact hb.reach a hx
      raised := fun _ _ => hd
      lost := fun h => by
        rw [ha]
        rw [hl] at h
        exact hb.lost h
      clean := fun h => by
        rcases h with h | h
        · rw [h] at hunc
          cases hunc
        · rw [hg]
          rw [hl] at h
          exact hb.clean (.inr h)
      cleaning := fun h => by rw [hroll] at h; cases h
      working := fun h => by
        rw [DtxState.uncommitted_of_raisesError h] at hunc
        cases hunc
      voted := fun h => by
        rcases h with h | h
        · rw [h] at hunc
          cases hunc
        have hv := hvoted h
        refine ⟨fun a hp => ?_, ?_⟩
        · rw [hs]
          rw [hgxid] at hp
          exact hv.prepared a hp
        · rw [hgxid]
          exact hv.unanimous
      committing := hcommitting }

end

end Cloudberry.Dtm.TwoPhase
