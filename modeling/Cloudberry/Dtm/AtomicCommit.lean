/-
# Atomic commit

No segment commits a two-phase transaction that another one aborts.

Abort can come from four places. A backend that rolls back has written no commit record.
The start-up recovery and the cleaner of orphans send it for a gid nobody is running; if
its commit record is in the log, so is the forget record (`Accounts.accounted`), and then
nothing is prepared any more.
-/

import Cloudberry.Dtm.TwoPhaseSteps

namespace Cloudberry.Dtm.TwoPhase

open Command Finset Broadcast Wal List TwoPhase Machine Option

variable {n m : ℕ} {s : TwoPhase n m}

/-! ### What goes on in the background -/

section

variable {maxTmGxacts : ℕ} {qd qd' : DtxServer n} {e : DtxEvent n}

/-- What happens in the background: the log grows, by checkpoint records at most. -/
structure Background (qd qd' : DtxServer n) : Prop where
  grows : qd.wal.Grows qd'.wal
  commit : ∀ g, Logged qd'.wal g → Logged qd.wal g
  forget : ∀ g, .distributedForget g ∈ qd'.wal.records → .distributedForget g ∈ qd.wal.records
  slots : qd'.slots = qd.slots
  used : qd'.used = qd.used
  array : qd'.shmCommittedGxidArray = qd.shmCommittedGxidArray
  recoverIdx : qd'.recoverIdx = qd.recoverIdx
  recovered : qd'.recovered = qd.recovered

theorem Background.ckpt (control : DtxCheckPoint) (c : DtxCkptPhase n) :
    Background qd { qd with control := control, ckpt := c } :=
  ⟨.refl _, fun _ h => h, fun _ h => h, rfl, rfl, rfl, rfl, rfl⟩

theorem background_of_ckptStep (h : qd.ckptStep = some qd') : Background qd qd' := by
  rcases DtxServer.ckptStep_cases h with ⟨_, _, rfl⟩ | ⟨_, _, rfl⟩
  · exact .ckpt _ _
  refine ⟨.insert _ _, fun g hg => ?_, fun g hg => ?_, rfl, rfl, rfl, rfl, rfl⟩
  · exact (List.mem_append.1 hg).resolve_right fun h => by cases List.mem_singleton.1 h
  · exact (List.mem_append.1 hg).resolve_right fun h => by cases List.mem_singleton.1 h

theorem background_of_step (he : isBackground e = true)
    (h : qd.step maxTmGxacts e = some qd') : Background qd qd' := by
  cases e with
  | flush k =>
    rw [DtxServer.step] at h
    split_ifs at h with hk
    cases h
    exact ⟨.flush hk, fun _ h => h, fun _ h => h, rfl, rfl, rfl, rfl, rfl⟩
  | ckptStart =>
    obtain ⟨-, rfl⟩ := guarded_eq_some.1 h
    exact .ckpt _ _
  | ckptStep => exact background_of_ckptStep h
  | ckptAbandon =>
    cases h
    exact .ckpt _ _
  | _ => cases he

end

/-! ### The dtx recovery process -/

section

variable (hs : s.Inv) {maxTmGxacts : ℕ} {t : TwoPhase n m} {e : TwoPhaseEvent n m}
include hs

theorem Inv.recoveryCall {c : DtxProtocolCommand} {gid : ℕ} {phase : RecoveryPhase}
    (hused : gid ∈ s.qd.used) (hvote : (dtx c).votes = false) (hc : c ≠ .commitOnephase)
    (hcommit : (dtx c).commits = true → Durable s.qd.wal gid)
    (habort : (dtx c).aborts = true → Logged s.qd.wal gid → ∀ b, gid ∉ (s.segments b).prepared)
    (hslots : ∀ j, (s.qd.slots j).state = .active ∨ (s.qd.slots j).state = .inserting →
      gid ≠ (s.qd.slots j).gxid)
    (hphase : PhaseOk phase s.qd s.recoveryGang s.segments
      (s.net.call ⟨.dtx c, gid, s.recoveryGang⟩ univ)) :
    (s.recoveryCall c gid phase).Inv where
  __ := hs
  core := hs.core.call univ hused hs.recoveryGang_lt (fun h => hc (dtx.inj h)) hcommit
    (fun h => by rw [show (dtx c).votes = true from h] at hvote; cases hvote) habort
  backend := fun j => (hs.backend j).call univ (hs.recoveryGang_ne j).symm (hslots j)
  phase := hphase

theorem Inv.notifyInDoubt (h : s.recoveryStep maxTmGxacts .notifyInDoubt = some t) : t.Inv := by
  simp only [recoveryStep] at h
  split at h
  next gxid hphase hg =>
    cases h
    have hmem := mem_of_getElem? hg
    have hlogged := hs.qd.accounts.array_committed gxid hmem
    refine hs.recoveryCall (hs.qd.accounts.record_used gxid (.inl hlogged)) rfl (by simp)
      (fun _ => hs.array_durable gxid hmem) nofun (fun j hst heq => ?_) ?_
    · subst heq
      rcases hst with hst | hst
      · exact (hs.qd.accounts.slot_of_state hst).1 hlogged
      · exact (hs.qd.accounts.slot_of_state hst).1 hlogged
    · exact ⟨gxid, hg, calls_call_iff.2 (.inr ⟨rfl, rfl⟩),
        fun a hack => absurd hack not_acked_length⟩
  next => cases h

/-- The forget record of a transaction recovery found committed, once every segment has
been told. -/
theorem Inv.forgetInDoubt (h : s.recoveryStep maxTmGxacts .forgetInDoubt = some t) : t.Inv := by
  simp only [recoveryStep] at h
  split at h
  next k hphase =>
    simp only [ite_none_right_eq_some] at h
    obtain ⟨hsucc, h⟩ := h
    obtain ⟨qd, hqd, rfl⟩ := map_eq_some_iff.1 h
    have hinv := DtxServer.Inv.step _ _ _ _ hs.qd hqd
    have hok := hs.phase
    rw [hphase] at hok
    obtain ⟨g, hg, hcall, hack⟩ := hok
    simp only [DtxServer.step, hg, some.injEq] at hqd
    subst hqd
    have hlogged := hs.qd.accounts.array_committed g (mem_of_getElem? hg)
    refine
      { hs with
        qd := hinv
        core := ?_
        backend := fun j => (hs.backend j).grow (.insert _ _)
        phase := trivial
        array_durable := fun g' hg' => (Grows.insert _ _).durable (hs.array_durable g' hg') }
    refine hs.core.log (fun g' hg' => (Grows.insert _ _).durable hg') (fun g' hg' => .inl ?_)
      (fun g' hg' => ?_) (Subset.refl _) (le_refl _)
    · exact (List.mem_append.1 hg').resolve_right fun h => by cases List.mem_singleton.1 h
    rcases mem_append.1 hg' with hg' | hg'
    · exact .inl hg'
    · cases List.mem_singleton.1 hg'
      exact .inr ⟨hs.core.closed g hlogged, fun a =>
        hack a (acked_of_succeeded hsucc hcall (mem_univ a))⟩
  next => cases h

theorem Inv.clearInDoubt (h : s.recoveryStep maxTmGxacts .clearInDoubt = some t) : t.Inv := by
  simp only [recoveryStep] at h
  split at h
  next hphase =>
    obtain ⟨qd, hqd, rfl⟩ := map_eq_some_iff.1 h
    have hinv := DtxServer.Inv.step _ _ _ _ hs.qd hqd
    obtain ⟨-, rfl⟩ := guarded_eq_some.1 hqd
    exact
      { hs with
        qd := hinv
        phase := ⟨rfl, fun g hg => by cases hg⟩
        array_durable := fun g hg => by cases hg
        recovered := fun _ => rfl
        started := fun _ => rfl }
  next => cases h

/-- `abortRMInDoubtTransactions` and `abortOrphanedTransactions`: nobody is running the
transaction, so it is settled if it was ever committed. -/
theorem Inv.abortNext {gid : ℕ} (h : s.abortNext gid = some t) : t.Inv := by
  unfold TwoPhase.abortNext at h
  split at h
  next gids hphase =>
    have hok := hs.phase
    rw [hphase] at hok
    obtain ⟨hrec, hused⟩ := hok
    have hused' : ∀ g ∈ gids.erase gid, g ∈ s.qd.used := fun g hg =>
      hused g (mem_of_mem_erase hg)
    simp only [ite_none_right_eq_some] at h
    obtain ⟨hmem, h⟩ := h
    split at h
    next =>
      cases h
      exact { hs with phase := ⟨hrec, hused'⟩ }
    next hrun =>
      cases h
      have hnobody : ∀ i, (s.qd.slots i).state ≠ .idle → (s.qd.slots i).gxid ≠ gid := by
        intro i hi heq
        cases hstart : s.dtmStarted with
        | false => exact hi ((hs.backend i).idle (hs.stopped hstart i)).1
        | true =>
          refine hrun ?_
          rw [hstart, Bool.true_and, isDtxInProgress, decide_eq_true_eq]
          exact ⟨i, heq⟩
      refine hs.recoveryCall (hused gid hmem) rfl (by simp) nofun
        (fun _ hlog => hs.settled hrec hnobody hlog) (fun j hst => ?_) ⟨hrec, hused'⟩
      exact (hnobody j (by rcases hst with h | h <;> rw [h] <;> simp)).symm
  next => cases h

theorem Inv.newGang {phase : RecoveryPhase} (h : PhaseOk phase s.qd s.nextGang s.segments s.net) :
    ({ s with phase := phase, recoveryGang := s.nextGang, nextGang := s.nextGang + 1 } :
      TwoPhase n m).Inv where
  __ := hs
  core := hs.core.newGang
  phase := h
  gang_lt := fun i => Nat.lt_succ_of_lt (hs.gang_lt i)
  recoveryGang_lt := Nat.lt_succ_self _
  recoveryGang_ne := fun i => Nat.ne_of_lt (hs.gang_lt i)

theorem Inv.recoveryRestart (h : s.recoveryStep maxTmGxacts .recoveryRestart = some t) : t.Inv := by
  simp only [recoveryStep] at h
  split at h
  next hstart =>
    cases h
    exact hs.newGang (hs.started hstart)
  obtain ⟨qd, hqd, rfl⟩ := map_eq_some_iff.1 h
  have hinv := DtxServer.Inv.step _ _ _ _ hs.qd hqd
  cases hqd
  have hnew : Inv _ := hs.newGang (show PhaseOk (.notifying none) _ _ _ _ from trivial)
  exact { hnew with qd := hinv, phase := trivial }

/-- **A step of the dtx recovery process.** -/
theorem Inv.recoveryStep (h : s.recoveryStep maxTmGxacts e = some t) : t.Inv := by
  have hphase := hs.phase
  cases e with
  | notifyInDoubt => exact hs.notifyInDoubt h
  | forgetInDoubt => exact hs.forgetInDoubt h
  | clearInDoubt => exact hs.clearInDoubt h
  | abortNext gid => exact hs.abortNext h
  | recoveryRestart => exact hs.recoveryRestart h
  | gather a gids =>
    simp only [recoveryStep] at h
    split at h
    next gids' hp =>
      obtain ⟨hsub, rfl⟩ := guarded_eq_some.1 h
      rw [hp] at hphase
      refine { hs with phase := ⟨hphase.1, fun g hg => ?_⟩ }
      rcases mem_union.1 hg with hg | hg
      · exact hphase.2 g hg
      · exact hs.core.prepared_used a g (hsub hg)
    next => cases h
  | gathered =>
    simp only [recoveryStep] at h
    split at h
    next gids hp =>
      cases h
      rw [hp] at hphase
      exact { hs with phase := hphase }
    next => cases h
  | abortSucceeded =>
    simp only [recoveryStep] at h
    split at h
    next gids k hp =>
      obtain ⟨-, rfl⟩ := guarded_eq_some.1 h
      rw [hp] at hphase
      exact { hs with phase := hphase }
    next => cases h
  | abortFailed =>
    simp only [recoveryStep] at h
    split at h
    next gids k hp =>
      cases h
      rw [hp] at hphase
      exact hs.newGang hphase
    next => cases h
  | recoveryFinished =>
    simp only [recoveryStep] at h
    split at h
    next gids hp =>
      obtain ⟨-, rfl⟩ := guarded_eq_some.1 h
      rw [hp] at hphase
      exact { hs with phase := hphase.1, started := fun _ => hphase.1, stopped := fun h => by cases h }
    next => cases h
  | wakeUp =>
    simp only [recoveryStep] at h
    split at h
    next hp =>
      cases h
      rw [hp] at hphase
      exact { hs with phase := ⟨hphase, fun g hg => by cases hg⟩ }
    next => cases h
  | _ => cases h

/-! ### The rest of the coordinator -/

theorem Inv.background {qd : DtxServer n} (hqd : qd.Inv) (hbg : Background s.qd qd) :
    ({ s with qd := qd } : TwoPhase n m).Inv where
  __ := hs
  qd := hqd
  core := hs.core.log (fun _ h => hbg.grows.durable h) (fun g h => .inl (hbg.commit g h))
    (fun g h => .inl (hbg.forget g h)) (by rw [hbg.used]; exact Subset.refl _) (le_refl _)
  backend := fun i => by
    show BackendOk (qd.slots i) _ _ _ _ _
    rw [hbg.slots]
    exact (hs.backend i).grow hbg.grows
  phase := hs.phase.grow hbg.array hbg.recoverIdx hbg.recovered
    (by rw [hbg.used]; exact Subset.refl _)
  array_durable := fun g hg => by
    have hg : g ∈ qd.shmCommittedGxidArray := hg
    rw [hbg.array] at hg
    exact hbg.grows.durable (hs.array_durable g hg)
  recovered := fun h => by
    show qd.shmCommittedGxidArray = []
    rw [hbg.array]
    exact hs.recovered (hbg.recovered ▸ h)
  started := fun h => hbg.recovered ▸ hs.started h

/-- **The coordinator crashes** and comes up again. -/
theorem Inv.crash {k : ℕ} (h : s.crash maxTmGxacts k = some t) : t.Inv := by
  obtain ⟨qd, hqd, rfl⟩ := map_eq_some_iff.1 h
  have hinv := DtxServer.Inv.step _ _ _ _ hs.qd hqd
  rw [DtxServer.step] at hqd
  split_ifs at hqd with hk
  split at hqd
  next => cases hqd
  next array hrec =>
    cases hqd
    exact
      { qd := hinv
        core := hs.core.log (fun _ h => Durable.crash h hk)
          (fun _ h => .inl (mem_of_mem_take h)) (fun _ h => .inl (mem_of_mem_take h))
          (Subset.refl _) (by show s.nextGang ≤ s.nextGang + n + 1; omega)
        backend := fun i => .of_idle (hs.core.gang_new _ (Nat.le_add_right _ _))
          (hs.core.onWay_gang (Nat.le_add_right _ _))
        phase := trivial
        array_durable := fun g hg => by
          have hmem : _ ∈ s.qd.wal.records.take k := hinv.accounts.array_committed g hg
          show _ ∈ (s.qd.wal.records.take k).take k
          rw [take_take, min_self]
          exact hmem
        recovered := fun h => by cases h
        started := fun h => by cases h
        stopped := fun _ _ => rfl
        gang_lt := fun i => by
          show s.nextGang + i < s.nextGang + n + 1
          omega
        gang_ne := fun i j hij h => hij (Fin.ext (Nat.add_left_cancel h))
        recoveryGang_lt := Nat.lt_succ_self _
        recoveryGang_ne := fun i h => by
          have h : s.nextGang + i = s.nextGang + n := h
          omega }

theorem Inv.stepBackend (h : s.backendStep maxTmGxacts e = some t) : t.Inv := by
  cases e with
  | activate i gxid => exact hs.activate h
  | dispatchQuery i e segs => exact hs.dispatchQuery h
  | prepare i => exact hs.prepare h
  | dispatchSucceeded i => exact hs.dispatchSucceeded h
  | dispatchFailed i lost => exact hs.dispatchFailed h
  | rollback i => exact hs.rollback h
  | retryAbort i => exact hs.retryAbort h
  | endAbort i => exact hs.endAbort h
  | procExit i => exact hs.procExit h
  | insertingCommitted i => exact hs.insertingCommitted h
  | insertCommit i => exact hs.insertCommit h
  | insertedCommitted i => exact hs.insertedCommitted h
  | releaseCkpt i => exact hs.releaseCkpt h
  | notifyCommit i => exact hs.notifyCommit h
  | retryCommit i => exact hs.retryCommit h
  | insertForget i => exact hs.insertForget h
  | excludeCkpt i => exact hs.excludeCkpt h
  | endCommit i => exact hs.endCommit h
  | _ => cases h

end

/-- **One step keeps the invariant.** -/
theorem Inv.step (maxTmGxacts : ℕ) (s : TwoPhase n m) (e : TwoPhaseEvent n m) (t : TwoPhase n m)
    (hs : s.Inv) (h : s.step maxTmGxacts e = some t) : t.Inv := by
  cases e with
  | deliver k a => exact hs.deliver (.inl h)
  | deliverError k a => exact hs.deliver (.inr h)
  | lose k a =>
    cases h
    exact hs.segStep (segStep_lose k a)
  | qeExit γ a =>
    obtain ⟨-, rfl⟩ := guarded_eq_some.1 h
    exact hs.segStep (segStep_exit γ a)
  | background e =>
    simp only [TwoPhase.step, ite_none_right_eq_some] at h
    obtain ⟨he, h⟩ := h
    obtain ⟨qd, hqd, rfl⟩ := map_eq_some_iff.1 h
    exact hs.background (DtxServer.Inv.step _ _ _ _ hs.qd hqd) (background_of_step he hqd)
  | crash k => exact hs.crash h
  | notifyInDoubt | forgetInDoubt | clearInDoubt | gather _ _ | gathered | abortNext _
  | abortSucceeded | abortFailed | recoveryFinished | wakeUp | recoveryRestart =>
    simp only [TwoPhase.step] at h
    exact hs.recoveryStep h
  | _ =>
    simp only [TwoPhase.step] at h
    exact hs.stepBackend h

/-! ### Whole runs -/

section

variable {maxTmGxacts : ℕ} {t : TwoPhase n m} {e : TwoPhaseEvent n m}

theorem inv_of_run {es : List (TwoPhaseEvent n m)}
    (hrun : run (TwoPhase.step maxTmGxacts) boot es = some s) : s.Inv :=
  run_invariant (Inv.step maxTmGxacts) inv_boot hrun

/-- What the coordinator does is a step of its own, or nothing. -/
def QdStep (maxTmGxacts : ℕ) (qd qd' : DtxServer n) : Prop :=
  qd' = qd ∨ ∃ e, qd.step maxTmGxacts e = some qd'

theorem QdStep.onQd {e : DtxEvent n} {i : Fin n} {l : TmGxactLocal m}
    (h : s.onQd maxTmGxacts e i l = some t) : QdStep maxTmGxacts s.qd t.qd := by
  obtain ⟨_, hqd, rfl⟩ := map_eq_some_iff.1 h
  exact .inr ⟨e, hqd⟩

theorem QdStep.backendStep (h : s.backendStep maxTmGxacts e = some t) :
    QdStep maxTmGxacts s.qd t.qd := by
  cases e with
  | dispatchQuery i e segs | prepare i | retryAbort i | notifyCommit i | retryCommit i =>
    obtain ⟨-, rfl⟩ := guarded_eq_some.1 h
    exact .inl rfl
  | activate i gxid | endAbort i | insertingCommitted i | insertCommit i | insertedCommitted i
  | releaseCkpt i | insertForget i | excludeCkpt i | endCommit i =>
    simp only [backendStep, ite_none_right_eq_some] at h
    exact .onQd h.2
  | procExit i =>
    simp only [backendStep, ite_none_right_eq_some] at h
    obtain ⟨u, hu, rfl⟩ := map_eq_some_iff.1 h.2
    show QdStep maxTmGxacts s.qd u.qd
    exact .onQd hu
  | dispatchSucceeded i =>
    simp only [backendStep] at h
    split at h
    next =>
      obtain ⟨-, rfl⟩ := guarded_eq_some.1 h
      exact .inl rfl
    next => cases h
  | dispatchFailed i lost =>
    simp only [backendStep] at h
    split at h
    next =>
      simp only [ite_none_right_eq_some] at h
      obtain ⟨-, h⟩ := h
      split at h <;> cases h <;> exact .inl rfl
    next => cases h
  | rollback i =>
    simp only [backendStep, ite_none_right_eq_some, rollback] at h
    obtain ⟨-, h⟩ := h
    split at h
    next =>
      split_ifs at h
      cases h
      exact .inl rfl
    next => split at h <;> cases h <;> exact .inl rfl
    next =>
      cases h
      exact .inl rfl
    next => cases h
  | _ => cases h

theorem QdStep.recoveryStep (h : s.recoveryStep maxTmGxacts e = some t) :
    QdStep maxTmGxacts s.qd t.qd := by
  cases e with simp only [recoveryStep] at h
  | abortNext gid =>
    simp only [TwoPhase.abortNext] at h
    split at h
    next =>
      simp only [ite_none_right_eq_some] at h
      obtain ⟨-, h⟩ := h
      split at h <;> cases h <;> exact .inl rfl
    next => cases h
  | forgetInDoubt =>
    split at h
    next =>
      simp only [ite_none_right_eq_some] at h
      obtain ⟨qd, hqd, rfl⟩ := map_eq_some_iff.1 h.2
      exact .inr ⟨_, hqd⟩
    next => cases h
  | clearInDoubt =>
    split at h
    next =>
      obtain ⟨qd, hqd, rfl⟩ := map_eq_some_iff.1 h
      exact .inr ⟨_, hqd⟩
    next => cases h
  | recoveryRestart =>
    split at h
    next =>
      cases h
      exact .inl rfl
    next =>
      obtain ⟨qd, hqd, rfl⟩ := map_eq_some_iff.1 h
      exact .inr ⟨_, hqd⟩
  | notifyInDoubt | gathered | abortFailed | wakeUp =>
    split at h
    · cases h
      exact .inl rfl
    · cases h
  | gather a gids | abortSucceeded | recoveryFinished =>
    split at h
    · obtain ⟨-, rfl⟩ := guarded_eq_some.1 h
      exact .inl rfl
    · cases h
  | _ => cases h

/-- **The coordinator's part of a run is a run of the coordinator.** -/
theorem qdStep_of_step (h : s.step maxTmGxacts e = some t) : QdStep maxTmGxacts s.qd t.qd := by
  cases e with
  | deliver k a =>
    obtain ⟨-, r, dst, ctx, q, seg, ok, -, -, -, rfl⟩ := answer_of_deliver (.inl h)
    exact .inl rfl
  | deliverError k a =>
    obtain ⟨-, r, dst, ctx, q, seg, ok, -, -, -, rfl⟩ := answer_of_deliver (.inr h)
    exact .inl rfl
  | lose k a =>
    cases h
    exact .inl rfl
  | qeExit γ a =>
    obtain ⟨-, rfl⟩ := guarded_eq_some.1 h
    exact .inl rfl
  | background e =>
    simp only [TwoPhase.step, ite_none_right_eq_some] at h
    obtain ⟨qd, hqd, rfl⟩ := map_eq_some_iff.1 h.2
    exact .inr ⟨_, hqd⟩
  | crash k =>
    obtain ⟨qd, hqd, rfl⟩ := map_eq_some_iff.1 h
    exact .inr ⟨_, hqd⟩
  | notifyInDoubt | forgetInDoubt | clearInDoubt | gather _ _ | gathered | abortNext _
  | abortSucceeded | abortFailed | recoveryFinished | wakeUp | recoveryRestart =>
    simp only [TwoPhase.step] at h
    exact .recoveryStep h
  | _ =>
    simp only [TwoPhase.step] at h
    exact .backendStep h

theorem durable_of_qd_step {qd qd' : DtxServer n} {e : DtxEvent n} {g : ℕ}
    (h : qd.step maxTmGxacts e = some qd') (hg : Durable qd.wal g) : Durable qd'.wal g := by
  cases e with
  | ckptStep | ckptStart | ckptAbandon | flush _ =>
    exact (background_of_step rfl h).grows.durable hg
  | crash k =>
    rw [DtxServer.step] at h
    split_ifs at h with hk
    split at h
    · cases h
    · cases h
      exact Durable.crash hg hk
  | recoverForget =>
    simp only [DtxServer.step] at h
    split at h
    next =>
      cases h
      exact (Grows.insert _ _).durable hg
    next => cases h
  | recoverRestart =>
    cases h
    exact hg
  | insertCommit i | insertForget i =>
    obtain ⟨-, rfl⟩ := guarded_eq_some.1 h
    exact (Grows.insert _ _).durable hg
  | _ =>
    obtain ⟨-, rfl⟩ := guarded_eq_some.1 h
    exact hg

theorem durable_of_run {g : ℕ} {es : List (TwoPhaseEvent n m)} (hg : Durable s.qd.wal g)
    (hrun : run (TwoPhase.step maxTmGxacts) s es = some t) : Durable t.qd.wal g := by
  have hstep : ∀ (u : TwoPhase n m) e v, Durable u.qd.wal g → u.step maxTmGxacts e = some v →
      Durable v.qd.wal g := by
    intro u e v hu he
    rcases qdStep_of_step he with heq | ⟨_, he'⟩
    · rw [heq]
      exact hu
    · exact durable_of_qd_step he' hu
  exact run_invariant hstep hg hrun

/-- **Two-phase commit is atomic.**  In every run, from the first start of the coordinator
on, with any number of backends and segments, any interleaving of their steps, messages
and replies lost or delayed, query executors dying, the coordinator crashing at any point
of its log, start-up recovery and the cleaning of orphans: no gid ends as committed on one
segment and as aborted on another, and once its distributed commit record is durable, no
segment aborts it, then or later. -/
theorem committed_nowhere_aborted (maxTmGxacts : ℕ) (es : List (TwoPhaseEvent n m))
    (s : TwoPhase n m) (hrun : Machine.run (TwoPhase.step maxTmGxacts) boot es = some s) (g : ℕ) :
    (∀ a b, (g, .committed) ∈ (s.segments a).finished → (g, .aborted) ∉ (s.segments b).finished) ∧
    (Durable s.qd.wal g → ∀ fs t, Machine.run (TwoPhase.step maxTmGxacts) s fs = some t →
      ∀ b, (g, .aborted) ∉ (t.segments b).finished) := by
  have hs := inv_of_run hrun
  constructor
  · intro a b hc
    exact hs.core.unaborted g (hs.core.committed a g hc).mem_records b
  · intro hdur fs t hfs b
    have ht : t.Inv := run_invariant (Inv.step maxTmGxacts) hs hfs
    exact ht.core.unaborted g (durable_of_run hdur hfs).mem_records b

/-- **A segment commits only what no crash takes back.** Once a segment has committed a gid, or a
message on its way tells one to, the commit record is durable and stays so in every further run. -/
theorem commit_durable_for_good (maxTmGxacts : ℕ) (es : List (TwoPhaseEvent n m))
    (s : TwoPhase n m) (hrun : run (TwoPhase.step maxTmGxacts) boot es = some s) (g : ℕ)
    (hcommit : (∃ a, (g, .committed) ∈ (s.segments a).finished) ∨
      ∃ k a r, OnWay s.net k a r ∧ r.gid = g ∧ r.cmd.commits = true)
    (fs : List (TwoPhaseEvent n m)) (t : TwoPhase n m)
    (hfs : run (TwoPhase.step maxTmGxacts) s fs = some t) : Durable t.qd.wal g := by
  have hcore := (inv_of_run hrun).core
  refine durable_of_run ?_ hfs
  rcases hcommit with ⟨a, hc⟩ | ⟨k, _, r, hway, rfl, hcmd⟩
  · exact hcore.committed a g hc
  · exact hcore.call_durable k r hway.2 hcmd

/-- **A committed transaction is settled, or a backend still sees to it.** While the DTM is started,
a gid whose commit record is in the log belongs to a backend that has not forgotten it yet, or no
segment has it prepared and no QE has it open. -/
theorem committed_settled_or_owned (maxTmGxacts : ℕ) (es : List (TwoPhaseEvent n m))
    (s : TwoPhase n m) (hrun : run (TwoPhase.step maxTmGxacts) boot es = some s)
    (hstarted : s.dtmStarted = true) (g : ℕ) (hlogged : Logged s.qd.wal g) :
    (∃ i, s.qd.Owns i g) ∨
      ∀ a, g ∉ (s.segments a).prepared ∧ ∀ γ, (s.qes γ a).xact ≠ some g := by
  have hs := inv_of_run hrun
  rcases hs.qd.accounts.accounted g hlogged with hforget | harray | howns
  · exact .inr fun a => ⟨hs.core.forget_settled g hforget a, fun γ =>
      (hs.core.forget_closed g hforget).1 γ a⟩
  · -- what a crash has left in the array is dealt with before the DTM is started
    rw [hs.recovered (hs.started hstarted)] at harray
    cases harray
  · exact .inl howns

end

/-- A transaction over two segments: the first is told to commit, the message to the second
is lost, the coordinator crashes, and recovery finds the commit record and tells both. -/
def crashBetweenCommits : List (TwoPhaseEvent 1 2) :=
  [.clearInDoubt, .gathered, .recoveryFinished,
   .activate 0 7, .dispatchQuery 0 true {0, 1}, .deliver 0 0, .deliver 0 1, .dispatchSucceeded 0,
   .prepare 0, .deliver 1 0, .deliver 1 1, .dispatchSucceeded 0,
   .insertingCommitted 0, .insertCommit 0, .insertedCommitted 0, .background (.flush 1),
   .releaseCkpt 0, .notifyCommit 0, .deliver 2 0, .lose 2 1, .crash 1,
   .notifyInDoubt, .deliver 3 0, .deliver 3 1, .forgetInDoubt]

/-- The hypotheses of `committed_nowhere_aborted` are satisfiable: in the run of
`crashBetweenCommits` both segments commit, and none aborts. -/
theorem crash_between_commits_atomic : ∃ s : TwoPhase 1 2,
    Machine.run (TwoPhase.step 10) boot crashBetweenCommits = some s ∧
      (7, .committed) ∈ (s.segments 0).finished ∧ (7, .committed) ∈ (s.segments 1).finished ∧
      (7, .aborted) ∉ (s.segments 0).finished ∧ (7, .aborted) ∉ (s.segments 1).finished := by
  obtain ⟨s, hrun, h₀, h₁⟩ : ∃ s : TwoPhase 1 2,
      run (TwoPhase.step 10) boot crashBetweenCommits = some s ∧
        (7, .committed) ∈ (s.segments 0).finished ∧ (7, .committed) ∈ (s.segments 1).finished :=
    exists_of_any (by decide +kernel)
  have hatomic := (committed_nowhere_aborted 10 crashBetweenCommits s hrun 7).1
  exact ⟨s, hrun, h₀, h₁, hatomic 0 0 h₀, hatomic 0 1 h₀⟩

/-- The run with a crash between the two commits meets the hypotheses. -/
theorem durable_after_crash : ∃ s : TwoPhase 1 2,
    run (TwoPhase.step 10) boot crashBetweenCommits = some s ∧
      (7, .committed) ∈ (s.segments 0).finished ∧ Durable s.qd.wal 7 :=
  exists_of_any_imp (by decide +kernel) fun s hrun hc =>
    commit_durable_for_good 10 _ s hrun 7 (.inl ⟨0, hc⟩) [] s rfl

/-- The run goes on until recovery has finished, with the commit record of 7 kept. -/
theorem settled_after_recovery : ∃ s : TwoPhase 1 2,
    run (TwoPhase.step 10) boot
        (crashBetweenCommits ++ [.clearInDoubt, .gathered, .recoveryFinished]) = some s ∧
      (s.dtmStarted = true ∧ .distributedCommit 7 ∈ s.qd.wal.records) ∧
      ((∃ i, s.qd.Owns i 7) ∨
        ∀ a, 7 ∉ (s.segments a).prepared ∧ ∀ γ, (s.qes γ a).xact ≠ some 7) :=
  exists_of_any_imp (by decide +kernel) fun s hrun h =>
    committed_settled_or_owned 10 _ s hrun h.1 7 h.2

end Cloudberry.Dtm.TwoPhase
