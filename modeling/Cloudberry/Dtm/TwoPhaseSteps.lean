/-
# The steps of a backend keep the invariant

One lemma for each step of a transaction on the dispatcher: started, dispatching,
answered, rolled back, and on its way through the log.
-/

import Cloudberry.Dtm.TwoPhaseInv

namespace Cloudberry.Dtm.TwoPhase

open Option DtxServer List Machine Finset

variable {n m : ℕ} {s : TwoPhase n m}

section

variable {maxTmGxacts : ℕ} {i : Fin n} {t : TwoPhase n m} (hs : s.Inv)
include hs

theorem Inv.onQd {c : Prop} [Decidable c] {e : DtxEvent n} {l : TmGxactLocal m}
    (h : (if c then s.onQd maxTmGxacts e i l else none) = some t) :
    c ∧ ∃ qd, s.qd.step maxTmGxacts e = some qd ∧ qd.Inv ∧
      t = { s.setBackend i l with qd := qd } := by
  simp only [ite_none_right_eq_some] at h
  obtain ⟨hc, h⟩ := h
  obtain ⟨qd, hqd, rfl⟩ := map_eq_some_iff.1 h
  exact ⟨hc, qd, hqd, Inv.step _ _ _ _ hs.qd hqd, rfl⟩

theorem Inv.activate {gxid : ℕ}
    (h : s.backendStep maxTmGxacts (.activate i gxid) = some t) : t.Inv := by
  obtain ⟨⟨hstart, hst⟩, _, hqd, hinv, rfl⟩ := hs.onQd h
  obtain ⟨⟨-, -, hfresh⟩, rfl⟩ := guarded_eq_some.1 hqd
  refine hs.ownStep hinv ⟨.refl _, fun _ hj => setSlot_slots_ne hj _,
    subset_cons_self _ _, rfl, rfl, rfl⟩ ?_ ?_ (fun h => ?_) (.inl ⟨le_refl _, rfl⟩)
  · exact hs.core.log (fun _ h => h) (fun _ h => .inl h) (fun _ h => .inl h)
      (subset_cons_self _ _) (le_refl _)
  · show BackendOk ((s.qd.setSlot i _).slots i) _ _ _ _ _
    rw [setSlot_slots_self]
    exact (hs.backend i).activate hs.core hst hfresh
  · rw [h] at hstart
    cases hstart

theorem Inv.dispatchQuery {e : Bool} {segs : Finset (Fin m)}
    (h : s.backendStep maxTmGxacts (.dispatchQuery i e segs) = some t) : t.Inv := by
  obtain ⟨⟨hst, hnone, hab⟩, rfl⟩ := guarded_eq_some.1 h
  have hb := hs.backend i
  have hactive := hb.active (by rw [hst]; rfl)
  refine hs.dispatch (by rw [hactive]; simp) rfl nofun (fun _ => hactive) nofun (by simp) ?_
  have := hb.dispatch .activeDistributed (.query e) ((s.backends i).dtxSegments ∪ segs) segs hnone
    (by rw [hst]; simp) rfl subset_union_left subset_union_right
    (fun h => absurd rfl h) (.of_active hactive rfl) (fun _ => hab) nofun
    (fun _ => hb.working (by rw [hst]; rfl) hab) nofun
  rw [← hst] at this
  exact this

theorem Inv.dispatchCommand {c : DtxProtocolCommand} {st : DtxState}
    (hnone : (s.backends i).dispatch = none) (hne : (s.backends i).state ≠ .none)
    (hex : st.expects (.dtx c) = true) (hfits : SlotFits (s.qd.slots i) s.qd.wal st)
    (hraised : st.raisesError = true → (s.backends i).aborting = false)
    (hclean : st = .retryAbortPrepared → ∀ a, (s.qes (s.backends i).gang a).xact = none)
    (hworking : st.raisesError = true →
      Working (s.qd.slots i) (s.backends i) s.segments s.qes s.net) :
    (s.dispatchCommand i c st).Inv := by
  obtain ⟨hphase, hcom, hunc⟩ := DtxState.kind_of_expects hex
  refine hs.dispatch (hfits.ne (by decide)) rfl (fun h => ?_) (fun h => hfits.active ?_)
    (fun h => hfits.active ?_) hphase ?_
  · refine (hfits.inserted ?_).2
    by_contra hc
    rw [hunc (by simpa using hc)] at h
    cases h
  · by_contra hc
    rw [(hcom (by simpa using hc)).1] at h
    cases h
  · by_contra hc
    rw [(hcom (by simpa using hc)).2] at h
    cases h
  · exact (hs.backend i).dispatch st (.dtx c) _ _ hnone hne hex (Subset.refl _)
      (Subset.refl _) (fun _ => rfl) hfits hraised hclean hworking (fun _ => rfl)

theorem Inv.prepare (h : s.backendStep maxTmGxacts (.prepare i) = some t) : t.Inv := by
  obtain ⟨⟨hst, hnone, hab, -⟩, rfl⟩ := guarded_eq_some.1 h
  have hb := hs.backend i
  exact hs.dispatchCommand hnone (by rw [hst]; simp) rfl
    (.of_active (hb.active (by rw [hst]; rfl)) rfl) (fun _ => hab) nofun
    (fun _ => hb.working (by rw [hst]; rfl) hab)

theorem Inv.dispatchSucceeded
    (h : s.backendStep maxTmGxacts (.dispatchSucceeded i) = some t) : t.Inv := by
  simp only [TwoPhase.backendStep] at h
  split at h
  next k hk =>
    obtain ⟨hsucc, rfl⟩ := guarded_eq_some.1 h
    have hb := hs.backend i
    have hne : (s.backends i).state ≠ .none := fun hst => by
      rw [(hb.idle hst).2.1] at hk
      cases hk
    exact hs.ownStep hs.qd (.refl _ i) hs.core (hb.succeed hk hsucc)
      (fun h => absurd (hs.stopped h i) hne) (.inl ⟨le_refl _, rfl⟩)
  next => cases h

theorem Inv.dispatchFailed {lost : Bool}
    (h : s.backendStep maxTmGxacts (.dispatchFailed i lost) = some t) : t.Inv := by
  simp only [TwoPhase.backendStep] at h
  split at h
  next k hk =>
    simp only [ite_none_right_eq_some] at h
    obtain ⟨hcond, h⟩ := h
    have hb := hs.backend i
    obtain ⟨r, _, -, -, -, hex, -⟩ := hb.dispatched k hk
    have hne : (s.backends i).state ≠ .none := fun hst => by
      rw [(hb.idle hst).2.1] at hk
      cases hk
    have hstart : s.dtmStarted = false → ∀ st, st = DtxState.none := fun h =>
      absurd (hs.stopped h i) hne
    have hcore : Core s.qd.wal s.qd.used s.segments s.qes s.net (s.nextGang + 1) :=
      hs.core.log (fun _ h => h) (fun _ h => .inl h) (fun _ h => .inl h) (Subset.refl _)
        (Nat.le_succ _)
    split at h
    next hraise =>
      cases h
      have hunc := DtxState.uncommitted_of_raisesError hraise
      cases lost with
      | true =>
        refine hs.ownStep hs.qd (.refl _ i) hcore ?_ (fun h => hstart h _) (.inr ⟨rfl, rfl⟩)
        exact hb.newGang hs.core (.inl hraise) (fun h => by rw [h] at hraise; cases hraise)
          (.of_active (hb.active hunc) (DtxState.not_committing_of_uncommitted hunc))
          (fun _ => rfl) (fun _ => rfl)
      | false =>
        refine hs.ownStep hs.qd (.refl _ i) hcore ?_ (fun h => hstart h _) (.inl ⟨Nat.le_succ _, rfl⟩)
        exact hb.raise hk (hcond.resolve_left (by simp)) hraise
    next hraise =>
      cases h
      refine hs.ownStep hs.qd (.refl _ i) hcore ?_ (fun h => hstart h _) (.inr ⟨rfl, rfl⟩)
      obtain ⟨hkind, hdone, hact, hins, hr⟩ :=
        DtxState.afterFailure_spec hex (by simpa using hraise)
      exact hb.newGang hs.core (.inr hkind) hdone ⟨fun h => hb.active (hact h), fun h =>
        ⟨hb.inserted (hins h), (hb.committing (hb.inserted (hins h))).durable
          (.inr (DtxState.notified_of_expects (hins h) hex))⟩⟩
        (fun h => by rw [hr] at h; cases h) hb.lost
  next => cases h

theorem Inv.dispatchAbort {c : DtxProtocolCommand} {st : DtxState}
    (hnone : (s.backends i).dispatch = none) (hunc : (s.backends i).state.uncommitted = true)
    (hex : st.expects (.dtx c) = true) (hst : st.committing = false)
    (hraise : st.raisesError = false) (hne : st ≠ .retryAbortPrepared) :
    (s.dispatchCommand i c st).Inv := by
  have hno : st.raisesError ≠ true := by simp [hraise]
  exact hs.dispatchCommand hnone (fun h => by rw [h] at hunc; cases hunc) hex
    (.of_active ((hs.backend i).active hunc) hst) (fun h => absurd h hno) (fun h => absurd h hne)
    (fun h => absurd h hno)

theorem Inv.rollback (h : s.backendStep maxTmGxacts (.rollback i) = some t) : t.Inv := by
  simp only [TwoPhase.backendStep, ite_none_right_eq_some] at h
  obtain ⟨hnone, h⟩ := h
  have hb := hs.backend i
  unfold TwoPhase.rollback at h
  dsimp only at h
  split at h
  next hst =>
    split_ifs at h
    cases h
    exact hs.dispatchAbort hnone (by rw [hst]; rfl) rfl rfl rfl (by decide)
  next hst =>
    split at h
    next hlost =>
      cases h
      exact hs.ownStep hs.qd (.refl _ i) hs.core (hb.retryAbort hst hnone hlost)
        (fun h => absurd (hs.stopped h i) (by rw [hst]; simp)) (.inl ⟨le_refl _, rfl⟩)
    next =>
      cases h
      exact hs.dispatchAbort hnone (by rw [hst]; rfl) rfl rfl rfl (by decide)
  next hst =>
    cases h
    exact hs.dispatchAbort hnone (by rw [hst]; rfl) rfl rfl rfl (by decide)
  next => cases h

theorem Inv.retryAbort (h : s.backendStep maxTmGxacts (.retryAbort i) = some t) : t.Inv := by
  obtain ⟨⟨hst, hnone⟩, rfl⟩ := guarded_eq_some.1 h
  have hb := hs.backend i
  have hactive := hb.active (by rw [hst]; rfl)
  refine hs.dispatch (by rw [hactive]; simp) rfl nofun nofun (fun _ => hactive) (by simp) ?_
  have := hb.dispatch .retryAbortPrepared (.dtx .retryAbortPrepared) univ univ hnone
    (by rw [hst]; simp) rfl (Finset.subset_univ _) (Finset.Subset.refl _) (fun _ => rfl)
    (.of_active hactive rfl) nofun (fun _ => hb.clean (.inl hst)) nofun nofun
  rw [← hst] at this
  exact this

theorem Inv.retryCommit (h : s.backendStep maxTmGxacts (.retryCommit i) = some t) : t.Inv := by
  obtain ⟨⟨hst, hnone⟩, rfl⟩ := guarded_eq_some.1 h
  have hb := hs.backend i
  have hins := hb.inserted (by rw [hst]; rfl)
  exact hs.dispatchCommand hnone (by rw [hst]; simp) rfl
    (.of_inserted hins ((hb.committing hins).durable (.inr (by rw [hst]; rfl))) rfl)
    nofun nofun nofun

theorem Inv.notifyCommit (h : s.backendStep maxTmGxacts (.notifyCommit i) = some t) : t.Inv := by
  obtain ⟨⟨hst, hdelay⟩, rfl⟩ := guarded_eq_some.1 h
  have hb := hs.backend i
  have hins := hb.inserted (by rw [hst]; rfl)
  have hnone := hb.not_waiting (fun c => by rw [hst]; rfl)
  exact hs.dispatchCommand hnone (by rw [hst]; simp) rfl
    (.of_inserted hins ((hb.committing hins).durable (.inl hdelay)) rfl) nofun nofun nofun

/-- The transaction ends: the slot is given up, and the gang is kept if it is clean, or
replaced. -/
theorem Inv.idleStep {qd : DtxServer n} {e : DtxEvent n} (hqd : s.qd.step maxTmGxacts e = some qd)
    (heq : qd = s.qd.setSlot i DtxSlot.empty) {γ nextGang : ℕ} (hx : ∀ a, (s.qes γ a).xact = none)
    (hon : ∀ k a r, OnWay s.net k a r → r.gang ≠ γ) (hgang : s.nextGang ≤ nextGang ∧ γ =
      (s.backends i).gang ∨ nextGang = s.nextGang + 1 ∧ γ = s.nextGang) :
    ({ s.setBackend i (.idle m γ) with qd := qd, nextGang := nextGang } : TwoPhase n m).Inv := by
  have hinv := Inv.step _ _ _ _ hs.qd hqd
  subst heq
  refine hs.ownStep hinv (.setSlot _ _ _) ?_ ?_ (fun _ => rfl) hgang
  · exact hs.core.log (fun _ h => h) (fun _ h => .inl h) (fun _ h => .inl h) (Subset.refl _)
      (by rcases hgang with h | h <;> omega)
  · rw [setSlot_slots_self]
    exact .of_idle hx hon

theorem Inv.endAbort (h : s.backendStep maxTmGxacts (.endAbort i) = some t) : t.Inv := by
  obtain ⟨⟨hnone, hst⟩, _, hqd, -, rfl⟩ := hs.onQd h
  have hb := hs.backend i
  refine hs.idleStep hqd (guarded_eq_some.1 hqd).2.symm (fun a => ?_)
    (hb.quiet_gang hnone) (.inl ⟨le_refl _, rfl⟩)
  by_contra hx
  rcases hst with hst | ⟨-, hsegs | hlost⟩
  · obtain ⟨k, hk, -⟩ := hb.cleaning hst a hx
    rw [hnone] at hk
    cases hk
  · have := hb.reach a hx
    rw [hsegs] at this
    cases this
  · exact hx (hb.clean (.inr hlost) a)

theorem Inv.procExit (h : s.backendStep maxTmGxacts (.procExit i) = some t) : t.Inv := by
  simp only [TwoPhase.backendStep, ite_none_right_eq_some] at h
  obtain ⟨-, h⟩ := h
  obtain ⟨u, hu, rfl⟩ := map_eq_some_iff.1 h
  obtain ⟨_, hqd, rfl⟩ := map_eq_some_iff.1 hu
  exact hs.idleStep hqd (guarded_eq_some.1 hqd).2.symm
    (hs.core.gang_new _ (le_refl _)) (hs.core.onWay_gang (le_refl _)) (.inr ⟨rfl, rfl⟩)

theorem Inv.endCommit (h : s.backendStep maxTmGxacts (.endCommit i) = some t) : t.Inv := by
  obtain ⟨hst, _, hqd, -, rfl⟩ := hs.onQd h
  have hb := hs.backend i
  have hforgotten := hb.forgotten hst
  have hclosed := hs.core.closed _ (hs.qd.accounts.slot_of_state hforgotten).1
  have hnone := hb.not_waiting (fun c => by rw [hst]; rfl)
  refine hs.idleStep hqd (guarded_eq_some.1 hqd).2.symm (fun a => ?_)
    (hb.quiet_gang hnone) (.inl ⟨le_refl _, rfl⟩)
  -- what is open on the gang is the transaction, and that is closed
  by_contra hx
  obtain ⟨g, hx⟩ := ne_none_iff_exists'.1 hx
  have hg := (hb.own (by rw [hst]; simp)).1 a g hx
  exact hclosed.1 _ a (hg ▸ hx)

/-! #### The way through the log -/

theorem Inv.insertingCommitted
    (h : s.backendStep maxTmGxacts (.insertingCommitted i) = some t) : t.Inv := by
  obtain ⟨hst, _, hqd, hinv, rfl⟩ := hs.onQd h
  obtain ⟨-, rfl⟩ := guarded_eq_some.1 hqd
  have hb := hs.backend i
  exact hs.slotStep hinv
    (hb.advance hst rfl rfl ⟨rfl, rfl, rfl, rfl, rfl⟩ (fun _ => rfl) nofun nofun rfl
      (fun _ => .inl rfl) nofun nofun (fun _ => hb.voted (.inl hst)) nofun)
    (by rw [hst]; simp) rfl

theorem Inv.insertCommit (h : s.backendStep maxTmGxacts (.insertCommit i) = some t) : t.Inv := by
  obtain ⟨hst, _, hqd, hinv, rfl⟩ := hs.onQd h
  obtain ⟨hslot, rfl⟩ := guarded_eq_some.1 hqd
  have hb := hs.backend i
  have hnone := hb.not_waiting (fun c => by rw [hst]; rfl)
  have hvoted := hb.voted (.inr hslot)
  have hdelay := (hs.qd.accounts.slot_of_state hslot).2.2.1
  refine hs.insertStep hinv (fun g hg => ?_) nofun ?_ (by rw [hst]; simp) rfl
  · cases hg
    exact hvoted.unanimous
  refine (hb.grow (.insert _ _)).advance hst hst rfl ⟨rfl, rfl, rfl, rfl, rfl⟩ (fun _ => rfl)
    nofun nofun rfl (fun _ => .inr rfl) (fun _ => rfl) nofun nofun (fun _ => ?_)
  refine ⟨hvoted.prepared, fun k a hk => ?_, fun h => ?_, ?_, fun h => ?_⟩
  · cases hnone.symm.trans hk
  · cases hst.symm.trans h
  · show _ ∈ (s.qd.wal.records ++ [_]).take (s.qd.wal.records.length + 1)
    rw [take_of_length_le (by simp)]
    exact List.mem_append_right _ (List.mem_singleton.2 rfl)
  · rcases h with h | h
    · cases hdelay.symm.trans h
    · have h : (s.backends i).state.notified = true := h
      rw [hst] at h
      cases h

theorem Inv.insertedCommitted
    (h : s.backendStep maxTmGxacts (.insertedCommitted i) = some t) : t.Inv := by
  obtain ⟨hst, _, hqd, hinv, rfl⟩ := hs.onQd h
  obtain ⟨⟨hslot, -⟩, rfl⟩ := guarded_eq_some.1 hqd
  have hb := hs.backend i
  have hc := hb.committing hslot
  refine hs.slotStep hinv (hb.advance hst rfl rfl ⟨rfl, rfl, rfl, rfl, rfl⟩ (fun _ => rfl)
    nofun nofun rfl nofun (fun _ => hslot) nofun (fun h => ?_) fun _ => ?_)
    (by rw [hst]; simp) rfl
  · cases hslot.symm.trans h
  · exact { hc with
      done := nofun
      durable := fun h => hc.durable (.inl (h.resolve_right (by simp [DtxState.notified]))) }

theorem Inv.releaseCkpt (h : s.backendStep maxTmGxacts (.releaseCkpt i) = some t) : t.Inv := by
  obtain ⟨⟨hst, hflushed⟩, _, hqd, hinv, rfl⟩ := hs.onQd h
  obtain ⟨⟨hslot, -⟩, rfl⟩ := guarded_eq_some.1 hqd
  have hb := hs.backend i
  have hc := hb.committing hslot
  -- the record ends at `xactLastRecEnd`, and that much of the log is on disk
  have hdur : Durable s.qd.wal (s.qd.slots i).gxid :=
    (take_prefix_take_left hflushed).subset hc.logged
  refine hs.slotStep hinv (hb.advance hst hst rfl ⟨rfl, rfl, rfl, rfl, rfl⟩ (fun _ => rfl)
    nofun nofun rfl nofun (fun _ => hslot) nofun (fun h => ?_)
    fun _ => { hc with durable := fun _ => hdur }) (by rw [hst]; simp) rfl
  cases hslot.symm.trans h

theorem Inv.insertForget (h : s.backendStep maxTmGxacts (.insertForget i) = some t) : t.Inv := by
  obtain ⟨hst, _, hqd, hinv, rfl⟩ := hs.onQd h
  obtain ⟨⟨hslot, -⟩, rfl⟩ := guarded_eq_some.1 hqd
  have hb := hs.backend i
  refine hs.insertStep hinv nofun (fun g hg => ?_) ?_ (by rw [hst]; simp) rfl
  · cases hg
    exact ⟨hs.closed_of_inserted hslot, (hb.committing hslot).done hst⟩
  · exact (hb.grow (.insert _ _)).advance hst rfl rfl ⟨rfl, rfl, rfl, rfl, rfl⟩ (fun _ => rfl)
      nofun nofun rfl nofun nofun (fun _ => rfl) nofun nofun

theorem Inv.excludeCkpt (h : s.backendStep maxTmGxacts (.excludeCkpt i) = some t) : t.Inv := by
  obtain ⟨hst, _, hqd, hinv, rfl⟩ := hs.onQd h
  obtain ⟨hslot, rfl⟩ := guarded_eq_some.1 hqd
  refine hs.slotStep hinv ((hs.backend i).advance hst hst rfl ⟨rfl, rfl, rfl, rfl, rfl⟩
    (fun _ => rfl) nofun nofun rfl nofun nofun (fun _ => hslot) (fun h => ?_)
    fun h => ?_) (by rw [hst]; simp) rfl
  · cases hslot.symm.trans h
  · cases hslot.symm.trans h

end

end Cloudberry.Dtm.TwoPhase
