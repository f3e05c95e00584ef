/-
# The invariant of the two-phase protocol

`Inv` puts together what the coordinator knows about its log (`DtxServer.Inv`), what log,
segments and network agree on (`Core`) and what every backend (`BackendOk`) and the dtx
recovery process (`PhaseOk`) know.

The steps of the network and the query executors keep it (`Inv.segStep`), and so do those
of a backend, provided it keeps its own promises: `Inv.ownStep` for a step that sends
nothing, `Inv.dispatch` for one that does.
-/

import Cloudberry.Dtm.DtxCheckpoint
import Cloudberry.Dtm.TwoPhaseDispatch

namespace Cloudberry.Dtm.TwoPhase

open Function Finset Broadcast DtxServer List

variable {n m : ℕ}

/-- What the dtx recovery process knows in each phase. -/
def PhaseOk (phase : RecoveryPhase) (qd : DtxServer n) (gang : ℕ) (segments : Fin m → Segment)
    (net : Broadcast Request (Fin m)) : Prop :=
  match phase with
  | .notifying none => True
  | .notifying (some k) => ∃ g, qd.shmCommittedGxidArray[qd.recoverIdx]? = some g ∧
      net.calls[k]? = some (⟨.dtx .recoveryCommitPrepared, g, gang⟩, Finset.univ) ∧
      ∀ a, net.Acked k a → g ∉ (segments a).prepared
  | .gathering gids => qd.recovered = true ∧ ∀ g ∈ gids, g ∈ qd.used
  | .aborting gids _ => qd.recovered = true ∧ ∀ g ∈ gids, g ∈ qd.used
  | .sleeping => qd.recovered = true

/-- What every run keeps. -/
structure Inv (s : TwoPhase n m) : Prop where
  qd : s.qd.Inv
  core : Core s.qd.wal s.qd.used s.segments s.qes s.net s.nextGang
  backend : ∀ i, BackendOk (s.qd.slots i) (s.backends i) s.qd.wal s.segments s.qes s.net
  phase : PhaseOk s.phase s.qd s.recoveryGang s.segments s.net
  array_durable : ∀ g ∈ s.qd.shmCommittedGxidArray, Durable s.qd.wal g
  recovered : s.qd.recovered = true → s.qd.shmCommittedGxidArray = []
  started : s.dtmStarted = true → s.qd.recovered = true
  stopped : s.dtmStarted = false → ∀ i, (s.backends i).state = .none
  gang_lt : ∀ i, (s.backends i).gang < s.nextGang
  gang_ne : ∀ i j, i ≠ j → (s.backends i).gang ≠ (s.backends j).gang
  recoveryGang_lt : s.recoveryGang < s.nextGang
  recoveryGang_ne : ∀ i, (s.backends i).gang ≠ s.recoveryGang

variable {s : TwoPhase n m}

theorem inv_boot : (boot : TwoPhase n m).Inv where
  qd := DtxServer.inv_boot
  core :=
    { call_used := fun _ _ ⟨_, h⟩ => by cases h
      call_gang := fun _ _ ⟨_, h⟩ => by cases h
      call_two_phase := fun _ _ ⟨_, h⟩ => by cases h
      call_durable := fun _ _ ⟨_, h⟩ => by cases h
      prepared_used := nofun
      finished_used := nofun
      xact_used := nofun
      committed := nofun
      unaborted := nofun
      closed := nofun
      abort_settled := nofun
      forget_closed := nofun
      forget_settled := nofun
      gang_new := fun _ _ _ => rfl
      devoted := fun _ => ⟨0, nofun, fun _ _ _ h => (by cases h.1)⟩ }
  backend := fun i => .of_idle (fun _ => rfl) fun _ _ _ h => by cases h.1
  phase := trivial
  array_durable := nofun
  recovered := fun _ => rfl
  started := nofun
  stopped := fun _ _ => rfl
  gang_lt := fun i => Nat.lt_succ_of_lt i.isLt
  gang_ne := fun i j hij h => hij (Fin.ext h)
  recoveryGang_lt := Nat.lt_succ_self n
  recoveryGang_ne := fun i => Nat.ne_of_lt i.isLt

/-! ### The network and the query executors -/

/-- A committed transaction nobody is running, and that recovery has dealt with, is
settled: its forget record is in the log. -/
theorem Inv.settled (hs : s.Inv) (hrec : s.qd.recovered = true) {g : ℕ}
    (hrun : ∀ i, (s.qd.slots i).state ≠ .idle → (s.qd.slots i).gxid ≠ g)
    (hg : Logged s.qd.wal g) (a : Fin m) : g ∉ (s.segments a).prepared := by
  rcases hs.qd.accounts.accounted g hg with hf | harr | ⟨i, hst, hgxid⟩
  · exact hs.core.forget_settled g hf a
  · rw [hs.recovered hrec] at harr
    cases harr
  · exact absurd hgxid (hrun i (by rw [hst]; simp))

variable {i : Fin n}

theorem Inv.closed_of_inserted (hs : s.Inv) (hst : (s.qd.slots i).state = .inserted) :
    Closed s.qes s.net (s.qd.slots i).gxid := by
  have hok := hs.qd.accounts.slot_of_state hst
  exact hs.core.closed _ hok.1

variable {net' : Broadcast Request (Fin m)} {a : Fin m}

theorem Inv.phase_segStep (hs : s.Inv) {segments' : Fin m → Segment} {qes' : ℕ → Fin m → Qe} {γ : ℕ}
    {req : Option (ℕ × Request)} {ok : Bool}
    (hst : SegStep s.segments segments' s.qes qes' s.net net' γ a req ok) :
    PhaseOk s.phase s.qd s.recoveryGang segments' net' := by
  have hphase := hs.phase
  unfold PhaseOk at hphase ⊢
  split at hphase
  next => trivial
  next k _ =>
    obtain ⟨g, hg, hcall, hack⟩ := hphase
    have hlogged := hs.qd.accounts.array_committed g (mem_of_getElem? hg)
    refine ⟨g, hg, by rw [hst.calls]; exact hcall, fun b hb => ?_⟩
    rcases (hst.acked k b).1 hb with hb | ⟨r, hreq, rfl, hok⟩
    · exact hst.not_prepared (hs.core.closed g hlogged) (hack b hb)
    obtain ⟨⟨-, _, hcall'⟩, -⟩ := hst.onWay k r hreq
    rw [hcall] at hcall'
    cases hcall'
    exact hst.effect.commit_ok _ _ (by rw [hreq]; rfl) rfl hok
  next => exact hphase
  next => exact hphase
  next => exact hphase

/-- **A QE does something, or a message gets lost.** -/
theorem Inv.segStep (hs : s.Inv) {segments' : Fin m → Segment} {qes' : ℕ → Fin m → Qe} {γ : ℕ}
    {req : Option (ℕ × Request)} {ok : Bool}
    (hst : SegStep s.segments segments' s.qes qes' s.net net' γ a req ok) :
    ({ s with segments := segments', qes := qes', net := net' } : TwoPhase n m).Inv where
  __ := hs
  core := hs.core.segStep hst
  backend := fun i => (hs.backend i).segStep hs.closed_of_inserted hst
  phase := hs.phase_segStep hst

theorem setQe_qes_ne {γ : ℕ} {q : Qe} {seg : Segment} (γ' : ℕ) (b : Fin m) (hne : γ' ≠ γ ∨ b ≠ a) :
    (s.setQe γ a q seg).qes γ' b = s.qes γ' b := by
  simp only [setQe]
  by_cases hγ : γ' = γ
  · subst hγ
    rw [update_self, update_of_ne (hne.resolve_left (by simp))]
  · rw [update_of_ne hγ]

theorem segStep_answer {k : ℕ} {r : Request} {dst : Finset (Fin m)} {ctx : DtxContext} {q : Qe}
    {seg : Segment} {ok : Bool} (h : (k, a) ∈ s.net.inFlight)
    (hcall : s.net.calls[k]? = some (r, dst)) (hctx : s.qes r.gang a = some ctx)
    (heff : Effect (some (r.cmd, r.gid)) (some ctx) q (s.segments a) seg ok) :
    SegStep s.segments (s.setQe r.gang a q seg).segments s.qes (s.setQe r.gang a q seg).qes s.net
      (s.net.answer k a ok h) r.gang a (some (k, r)) ok where
  calls := rfl
  inFlight := erase_subset _ _
  acked := fun j b => by
    rw [acked_answer]
    refine or_congr Iff.rfl ⟨?_, ?_⟩
    · rintro ⟨rfl, rfl, hok⟩
      exact ⟨r, rfl, rfl, hok⟩
    · rintro ⟨r', heq, rfl, hok⟩
      cases heq
      exact ⟨rfl, rfl, hok⟩
  refused := fun j b => by
    rw [refused_answer]
    refine or_congr Iff.rfl ⟨?_, ?_⟩
    · rintro ⟨rfl, rfl, hok⟩
      exact ⟨r, rfl, rfl, hok⟩
    · rintro ⟨r', heq, rfl, hok⟩
      cases heq
      exact ⟨rfl, rfl, hok⟩
  qes_ne := setQe_qes_ne
  seg_ne := fun b hb => by simp [setQe, update_of_ne hb]
  effect := by
    simp only [setQe, update_self, hctx]
    exact heff
  onWay := fun j r' heq => by
    cases heq
    exact ⟨⟨h, dst, hcall⟩, rfl, by rw [hctx]; simp⟩
  exited := fun hq => by
    rw [hctx] at hq
    cases hq

/-- A QE that handles a message, without or with an ERROR: how it answers is up to it. -/
theorem answer_of_deliver {k : ℕ} {t : TwoPhase n m}
    (h : s.deliver k a = some t ∨ s.deliverError k a = some t) :
    ∃ (hin : (k, a) ∈ s.net.inFlight) (r : Request) (dst : Finset (Fin m)) (ctx : DtxContext)
      (q : Qe) (seg : Segment) (ok : Bool), s.net.calls[k]? = some (r, dst) ∧
      s.qes r.gang a = some ctx ∧
      (r.cmd ≠ .dtx .commitOnephase →
        Effect (some (r.cmd, r.gid)) (some ctx) q (s.segments a) seg ok) ∧
      t = { s.setQe r.gang a q seg with net := s.net.answer k a ok hin } := by
  unfold deliver deliverError at h
  split at h
  next hin =>
    split at h
    next r dst hcall =>
      split at h
      next ctx hctx =>
        rcases h with h | h
        · cases h
          exact ⟨hin, r, dst, ctx, _, _, _, hcall, hctx, serve_effect _ _ _ _, rfl⟩
        · cases h
          exact ⟨hin, r, dst, ctx, _, _, _, hcall, hctx, fun _ => raiseError_effect _ _ _ _, rfl⟩
      next => simp at h
    next => simp at h
  next => simp at h

theorem Inv.deliver (hs : s.Inv) {k : ℕ} {t : TwoPhase n m}
    (h : s.deliver k a = some t ∨ s.deliverError k a = some t) : t.Inv := by
  obtain ⟨hin, r, dst, _, q, _, _, hcall, hctx, heff, rfl⟩ := answer_of_deliver h
  exact hs.segStep (segStep_answer hin hcall hctx (heff (hs.core.call_two_phase k r ⟨dst, hcall⟩)))

theorem segStep_lose (k : ℕ) (a : Fin m) :
    SegStep s.segments s.segments s.qes s.qes s.net (s.net.lose k a) 0 a none false where
  calls := rfl
  inFlight := erase_subset _ _
  acked := fun j b => by simp [Acked, lose]
  refused := fun j b => by simp [Refused, lose]
  qes_ne := fun _ _ _ => rfl
  seg_ne := fun _ _ => rfl
  effect := effect_refuse _ _ _
  onWay := nofun
  exited := id

theorem segStep_exit (γ : ℕ) (a : Fin m) : SegStep s.segments
      (s.setQe γ a none ((s.segments a).abortXact (s.qes γ a).xact)).segments s.qes
      (s.setQe γ a none ((s.segments a).abortXact (s.qes γ a).xact)).qes s.net s.net γ a none
      false where
  calls := rfl
  inFlight := Subset.refl _
  acked := fun j b => by simp
  refused := fun j b => by simp
  qes_ne := setQe_qes_ne
  seg_ne := fun b hb => update_of_ne hb _ _
  effect := by
    simp only [setQe, update_self]
    exact effect_exit _ _ _
  onWay := nofun
  exited := fun _ => by simp [setQe]

/-! ### A backend takes a step -/

theorem PhaseOk.call {phase : RecoveryPhase} {qd : DtxServer n} {gang : ℕ}
    {segments : Fin m → Segment} {net : Broadcast Request (Fin m)}
    (h : PhaseOk phase qd gang segments net) (r : Request) (dst : Finset (Fin m)) :
    PhaseOk phase qd gang segments (net.call r dst) := by
  unfold PhaseOk at h ⊢
  split at h
  next => trivial
  next =>
    obtain ⟨g, hg, hcall, hack⟩ := h
    exact ⟨g, hg, calls_call hcall r dst, hack⟩
  next => exact h
  next => exact h
  next => exact h

theorem PhaseOk.grow {phase : RecoveryPhase} {qd qd' : DtxServer n} {gang : ℕ}
    {segments : Fin m → Segment} {net : Broadcast Request (Fin m)}
    (h : PhaseOk phase qd gang segments net)
    (harr : qd'.shmCommittedGxidArray = qd.shmCommittedGxidArray)
    (hidx : qd'.recoverIdx = qd.recoverIdx) (hrec : qd'.recovered = qd.recovered)
    (hused : qd.used ⊆ qd'.used) : PhaseOk phase qd' gang segments net := by
  unfold PhaseOk at h ⊢
  split at h
  next => trivial
  next =>
    rw [harr, hidx]
    exact h
  next => exact ⟨hrec ▸ h.1, fun g hg => hused (h.2 g hg)⟩
  next => exact ⟨hrec ▸ h.1, fun g hg => hused (h.2 g hg)⟩
  next => exact hrec ▸ h

@[simp] theorem setBackend_self (s : TwoPhase n m) (i : Fin n) (l : TmGxactLocal m) :
    (s.setBackend i l).backends i = l := by
  simp [setBackend]

theorem setBackend_ne (s : TwoPhase n m) {i j : Fin n} (h : j ≠ i) (l : TmGxactLocal m) :
    (s.setBackend i l).backends j = s.backends j := by
  simp [setBackend, h]

variable {l : TmGxactLocal m}

theorem forall_setBackend {P : Fin n → TmGxactLocal m → Prop} (hi : P i l)
    (hj : ∀ j, j ≠ i → P j (s.backends j)) (j : Fin n) : P j ((s.setBackend i l).backends j) := by
  by_cases hji : j = i
  · subst hji
    rw [setBackend_self]
    exact hi
  · rw [setBackend_ne s hji]
    exact hj j hji

/-- What a step of backend `i` may do to the coordinator. -/
structure OwnStep (qd qd' : DtxServer n) (i : Fin n) : Prop where
  grows : qd.wal.Grows qd'.wal
  slots : ∀ j, j ≠ i → qd'.slots j = qd.slots j
  used : qd.used ⊆ qd'.used
  array : qd'.shmCommittedGxidArray = qd.shmCommittedGxidArray
  recoverIdx : qd'.recoverIdx = qd.recoverIdx
  recovered : qd'.recovered = qd.recovered

/-- Backend `i` takes a step: it changes its slot, the log, its own state, perhaps its gang
for a new one, and perhaps sends something. -/
theorem Inv.backendStep (hs : s.Inv) {qd' : DtxServer n} {nextGang : ℕ} (hqd : qd'.Inv)
    (hown : OwnStep s.qd qd' i) (hcore : Core qd'.wal qd'.used s.segments s.qes net' nextGang)
    (hothers : ∀ j, j ≠ i → BackendOk (s.qd.slots j) (s.backends j) s.qd.wal s.segments s.qes net')
    (hphase : PhaseOk s.phase s.qd s.recoveryGang s.segments net')
    (hback : BackendOk (qd'.slots i) l qd'.wal s.segments s.qes net')
    (hstart : s.dtmStarted = false → l.state = .none) (hgang : s.nextGang ≤ nextGang ∧ l.gang =
      (s.backends i).gang ∨ nextGang = s.nextGang + 1 ∧ l.gang = s.nextGang) :
    Inv { s.setBackend i l with qd := qd', net := net', nextGang := nextGang } where
  qd := hqd
  core := hcore
  backend := forall_setBackend
    (P := fun j l => BackendOk (qd'.slots j) l qd'.wal s.segments s.qes net') hback fun j hj => by
      rw [hown.slots j hj]
      exact (hothers j hj).grow hown.grows
  phase := hphase.grow hown.array hown.recoverIdx hown.recovered hown.used
  array_durable := fun g hg => by
    have hg : g ∈ qd'.shmCommittedGxidArray := hg
    rw [hown.array] at hg
    exact hown.grows.durable (hs.array_durable g hg)
  recovered := fun h => by
    show qd'.shmCommittedGxidArray = []
    rw [hown.array]
    exact hs.recovered (hown.recovered ▸ h)
  started := fun h => hown.recovered ▸ hs.started h
  stopped := fun h => forall_setBackend (P := fun _ l => l.state = .none) (hstart h) fun j _ =>
    hs.stopped h j
  gang_lt := forall_setBackend (P := fun _ l => l.gang < nextGang)
    (by have := hs.gang_lt i; omega) fun j _ => by have := hs.gang_lt j; omega
  gang_ne := by
    have hother : ∀ j, j ≠ i → (s.backends j).gang ≠ l.gang := fun j hj => by
      have h₁ := hs.gang_lt j
      have h₂ := hs.gang_ne j i hj
      omega
    intro j k hjk
    by_cases hj : j = i
    · subst hj
      rw [setBackend_self, setBackend_ne s hjk.symm]
      exact (hother k hjk.symm).symm
    by_cases hk : k = i
    · subst hk
      rw [setBackend_self, setBackend_ne s hj]
      exact hother j hj
    · show ((s.setBackend i l).backends j).gang ≠ ((s.setBackend i l).backends k).gang
      rw [setBackend_ne s hj, setBackend_ne s hk]
      exact hs.gang_ne j k hjk
  recoveryGang_lt := by
    have := hs.recoveryGang_lt
    show s.recoveryGang < nextGang
    omega
  recoveryGang_ne := forall_setBackend (P := fun _ l => l.gang ≠ s.recoveryGang)
    (by
      have h₁ := hs.recoveryGang_ne i
      have h₂ := hs.recoveryGang_lt
      omega) fun j _ => hs.recoveryGang_ne j

/-- **Backend `i` takes a step that sends nothing.** -/
theorem Inv.ownStep (hs : s.Inv) {qd' : DtxServer n} {nextGang : ℕ} (hqd : qd'.Inv)
    (hown : OwnStep s.qd qd' i) (hcore : Core qd'.wal qd'.used s.segments s.qes s.net nextGang)
    (hback : BackendOk (qd'.slots i) l qd'.wal s.segments s.qes s.net)
    (hstart : s.dtmStarted = false → l.state = .none) (hgang : s.nextGang ≤ nextGang ∧ l.gang =
      (s.backends i).gang ∨ nextGang = s.nextGang + 1 ∧ l.gang = s.nextGang) :
    ({ s.setBackend i l with qd := qd', nextGang := nextGang } : TwoPhase n m).Inv :=
  hs.backendStep hqd hown hcore (fun j _ => hs.backend j) hs.phase hback hstart hgang

theorem OwnStep.refl (qd : DtxServer n) (i : Fin n) : OwnStep qd qd i :=
  ⟨.refl _, fun _ _ => rfl, Subset.refl _, rfl, rfl, rfl⟩

/-- **Backend `i` dispatches a command** of its transaction. -/
theorem Inv.dispatch (hs : s.Inv) {cmd : Command} {dst : Finset (Fin m)}
    (hbusy : (s.qd.slots i).state ≠ .idle) (hgang : l.gang = (s.backends i).gang)
    (hcommit : cmd.commits = true → Durable s.qd.wal (s.qd.slots i).gxid)
    (hvote : cmd.votes = true → (s.qd.slots i).state = .active)
    (habort : cmd.aborts = true → (s.qd.slots i).state = .active)
    (hphase : cmd ≠ .dtx .commitOnephase)
    (hback : BackendOk (s.qd.slots i) { l with dispatch := some s.net.calls.length } s.qd.wal
      s.segments s.qes (s.net.call ⟨cmd, (s.qd.slots i).gxid, l.gang⟩ dst)) :
    (s.dispatch i cmd dst l).Inv := by
  have hne : (s.backends i).state ≠ .none := fun h => hbusy ((hs.backend i).idle h).1
  have hactive : (s.qd.slots i).state = .active → ¬ Logged s.qd.wal (s.qd.slots i).gxid ∧
      .distributedForget (s.qd.slots i).gxid ∉ s.qd.wal.records := fun hst => by
    have hok := hs.qd.accounts.slot_of_state hst
    exact ⟨hok.1, hok.2.1⟩
  have hcore : Core s.qd.wal s.qd.used s.segments s.qes
      (s.net.call ⟨cmd, (s.qd.slots i).gxid, l.gang⟩ dst) s.nextGang := by
    refine hs.core.call dst (hs.qd.accounts.slot_used i hbusy) ?_ hphase hcommit (fun hv => ?_)
      fun ha hlog => absurd hlog (hactive (habort ha)).1
    · rw [hgang]
      exact hs.gang_lt i
    · refine ⟨(hactive (hvote hv)).1, (hactive (hvote hv)).2, ?_⟩
      rw [hgang]
      exact (hs.backend i).own hne
  refine hs.backendStep hs.qd (.refl _ i) hcore (fun j hj => ?_) (hs.phase.call _ _) hback
    (fun h => absurd (hs.stopped h i) hne) (.inl ⟨le_refl _, hgang⟩)
  refine (hs.backend j).call dst ?_ fun hst => ?_
  · show l.gang ≠ _
    rw [hgang]
    exact hs.gang_ne i j hj.symm
  · refine fun heq => hj.symm (hs.qd.accounts.distinct i j hbusy ?_ heq)
    rcases hst with hst | hst <;> rw [hst] <;> simp

theorem OwnStep.setSlot (qd : DtxServer n) (i : Fin n) (slot : DtxSlot) :
    OwnStep qd (qd.setSlot i slot) i :=
  ⟨.refl _, fun _ hj => setSlot_slots_ne hj slot, Subset.refl _, rfl, rfl, rfl⟩

theorem OwnStep.insert (qd : DtxServer n) (i : Fin n) (slot : DtxSlot) (r : DtxRecord) :
    OwnStep qd { qd.setSlot i slot with wal := qd.wal.insert r } i :=
  ⟨.insert _ _, fun _ hj => setSlot_slots_ne hj slot, Subset.refl _, rfl, rfl, rfl⟩

theorem Inv.slotStep (hs : s.Inv) {slot : DtxSlot} (hqd : (s.qd.setSlot i slot).Inv)
    (hback : BackendOk slot l s.qd.wal s.segments s.qes s.net) (hne : (s.backends i).state ≠ .none)
    (hgang : l.gang = (s.backends i).gang) :
    ({ s.setBackend i l with qd := s.qd.setSlot i slot } : TwoPhase n m).Inv := by
  refine hs.ownStep hqd (.setSlot _ _ _) hs.core ?_ (fun h => absurd (hs.stopped h i) hne)
    (.inl ⟨le_refl _, hgang⟩)
  rw [DtxServer.setSlot_slots_self]
  exact hback

theorem Inv.insertStep (hs : s.Inv) {slot : DtxSlot} {r : DtxRecord}
    (hqd : DtxServer.Inv { s.qd.setSlot i slot with wal := s.qd.wal.insert r })
    (hcommit : ∀ g, .distributedCommit g = r → Unanimous s.segments s.qes s.net g)
    (hforget : ∀ g, .distributedForget g = r → Closed s.qes s.net g ∧ ∀ a,
      g ∉ (s.segments a).prepared)
    (hback : BackendOk slot l (s.qd.wal.insert r) s.segments s.qes s.net)
    (hne : (s.backends i).state ≠ .none) (hgang : l.gang = (s.backends i).gang) :
    ({ s.setBackend i l with qd := { s.qd.setSlot i slot with wal := s.qd.wal.insert r } } :
      TwoPhase n m).Inv := by
  refine hs.ownStep hqd (.insert _ _ _ _) ?_ ?_ (fun h => absurd (hs.stopped h i) hne)
    (.inl ⟨le_refl _, hgang⟩)
  · exact hs.core.log (fun g hg => (Wal.Grows.insert _ _).durable hg)
      (fun g hg => (List.mem_append.1 hg).imp id fun hg => hcommit g (List.mem_singleton.1 hg))
      (fun g hg => (List.mem_append.1 hg).imp id fun hg => hforget g (List.mem_singleton.1 hg))
      (Subset.refl _) (le_refl _)
  · show BackendOk ((s.qd.setSlot i _).slots i) _ _ _ _ _
    rw [DtxServer.setSlot_slots_self]
    exact hback

end Cloudberry.Dtm.TwoPhase
