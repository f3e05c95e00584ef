/-
# Checkpoints and crash recovery keep the committed global transactions

A checkpoint lists gxids that it read from flags long after it fixed its REDO pointer,
while backends go on committing and forgetting; recovery adds to that list what the log
has from the REDO pointer on. `Evolves` says once what a step can do to what the
checkpointer is looking for; from it follow the conditions on a checkpoint under way
(`CkptOk`), and at its end that it is `Complete`: whatever was committed before REDO is
listed or forgotten before the checkpoint's own record.

That is all recovery needs, provided the array is large enough. It is sized for one
global transaction per backend, but a backend that commits, forgets and commits again
while the checkpoint is between its REDO pointer and its scan has two in play during
replay.
-/

import Cloudberry.Dtm.DtxAccounts

namespace Cloudberry.Dtm
namespace DtxServer

open List Machine Nat

variable {n : ℕ} {s t : DtxServer n}

/-! ### What a step can do to what the checkpointer looks for -/

/-- The log grows, and a committed gxid stays where it was, at least as visible to the
checkpointer, until it is forgotten. -/
structure Evolves (s t : DtxServer n) : Prop where
  records : s.wal.records <+: t.wal.records
  flushed : s.wal.flushed ≤ t.wal.flushed
  owns : ∀ i g, s.Owns i g →
    (t.Owns i g ∧ ((s.slots i).includeInCkpt → (t.slots i).includeInCkpt)) ∨
      .distributedForget g ∈ t.wal.records
  array : t.shmCommittedGxidArray = s.shmCommittedGxidArray ∨
    ∀ g ∈ s.shmCommittedGxidArray, .distributedForget g ∈ t.wal.records

theorem evolves_of_slot (i : Fin n) (hrec : s.wal.records <+: t.wal.records)
    (hflushed : s.wal.flushed ≤ t.wal.flushed) (hslots : ∀ j, j ≠ i → t.slots j = s.slots j)
    (howns : ∀ g, s.Owns i g → (t.Owns i g ∧ ((s.slots i).includeInCkpt →
      (t.slots i).includeInCkpt)) ∨ .distributedForget g ∈ t.wal.records)
    (harray : t.shmCommittedGxidArray = s.shmCommittedGxidArray) : s.Evolves t := by
  refine ⟨hrec, hflushed, fun j g hj => ?_, .inl harray⟩
  by_cases hji : j = i
  · subst hji
    exact howns g hj
  · rw [Owns, hslots j hji]
    exact .inl ⟨hj, id⟩

theorem evolves_of_slots_eq (hrec : s.wal.records <+: t.wal.records)
    (hflushed : s.wal.flushed ≤ t.wal.flushed) (hslots : t.slots = s.slots)
    (harray : t.shmCommittedGxidArray = s.shmCommittedGxidArray) : s.Evolves t :=
  ⟨hrec, hflushed, fun j g hj => by rw [Owns, hslots]; exact .inl ⟨hj, id⟩, .inl harray⟩

theorem ckptStep_evolves (h : s.ckptStep = some t) : s.Evolves t := by
  rcases ckptStep_cases h with ⟨_, _, rfl⟩ | ⟨_, _, rfl⟩
  · exact evolves_of_slots_eq (prefix_refl _) le_rfl rfl rfl
  · exact evolves_of_slots_eq (prefix_append _ _) le_rfl rfl rfl

/-- **What every step but a crash does**, as far as a checkpoint is concerned. -/
theorem Accounts.step_evolves {maxTmGxacts : ℕ} {e : DtxEvent n} (hs : s.Accounts)
    (he : ∀ k, e ≠ .crash k) (h : s.step maxTmGxacts e = some t) : s.Evolves t := by
  -- a slot that is not in state `inserted` has nothing to keep
  have hother : ∀ (i : Fin n) (slot : DtxSlot), (s.slots i).state ≠ .inserted →
      s.Evolves (s.setSlot i slot) := fun i slot hst =>
    evolves_of_slot i (prefix_refl _) le_rfl (fun j hj => setSlot_slots_ne hj slot)
      (fun g hg => absurd hg.1 hst) rfl
  -- a commit stays, and does not become less visible
  have hkept : ∀ (i : Fin n) (slot : DtxSlot), slot.state = (s.slots i).state →
      slot.gxid = (s.slots i).gxid → ((s.slots i).includeInCkpt → slot.includeInCkpt) →
      s.Evolves (s.setSlot i slot) := fun i slot hst hgxid hinc =>
    evolves_of_slot i (prefix_refl _) le_rfl (fun j hj => setSlot_slots_ne hj slot)
      (fun g hg => .inl (by rw [Owns, setSlot_slots_self, hst, hgxid]; exact ⟨hg, hinc⟩)) rfl
  cases e with
  | activate i gxid =>
    obtain ⟨⟨-, hidle, -⟩, rfl⟩ := guarded_eq_some.1 h
    have := hother i ⟨gxid, .active, false, false⟩ (by rw [hidle]; simp)
    exact ⟨this.records, this.flushed, this.owns, this.array⟩
  | abort i | endGxact i =>
    obtain ⟨⟨hst, -⟩, rfl⟩ := guarded_eq_some.1 h
    exact hother i _ (by rw [hst]; simp)
  | delay i | excludeCkpt i =>
    obtain ⟨hst, rfl⟩ := guarded_eq_some.1 h
    exact hother i _ (by rw [hst]; simp)
  | insertCommit i =>
    obtain ⟨hst, rfl⟩ := guarded_eq_some.1 h
    refine evolves_of_slot i (prefix_append _ _) le_rfl (fun j hj => setSlot_slots_ne hj _)
      (fun g hg => ?_) rfl
    rw [Owns, hst] at hg
    cases hg.1
  | includeCkpt i =>
    obtain ⟨-, rfl⟩ := guarded_eq_some.1 h
    exact hkept i _ rfl rfl fun _ => rfl
  | release i =>
    obtain ⟨-, rfl⟩ := guarded_eq_some.1 h
    exact hkept i _ rfl rfl id
  | insertForget i =>
    obtain ⟨-, rfl⟩ := guarded_eq_some.1 h
    refine evolves_of_slot i (prefix_append _ _) le_rfl (fun j hj => setSlot_slots_ne hj _)
      (fun g hg => .inr ?_) rfl
    rw [← hg.2]
    exact mem_append_right _ (mem_singleton.2 rfl)
  | recoverForget =>
    simp only [DtxServer.step] at h
    split at h
    next =>
      cases h
      exact evolves_of_slots_eq (prefix_append _ _) le_rfl rfl rfl
    next => cases h
  | recoverRestart | ckptAbandon =>
    cases h
    exact evolves_of_slots_eq (prefix_refl _) le_rfl rfl rfl
  | recoverDone =>
    obtain ⟨_, rfl⟩ := guarded_eq_some.1 h
    refine ⟨prefix_refl _, le_rfl, fun _ _ hg => .inl ⟨hg, id⟩, .inr fun g hg => ?_⟩
    obtain ⟨j, hj, rfl⟩ := mem_iff_getElem.1 hg
    exact hs.recover_done j _ (by omega) (getElem?_eq_getElem hj)
  | flush k =>
    rw [DtxServer.step] at h
    split_ifs at h with hk
    cases h
    exact evolves_of_slots_eq (prefix_refl _) hk.1 rfl rfl
  | ckptStart =>
    obtain ⟨-, rfl⟩ := guarded_eq_some.1 h
    exact evolves_of_slots_eq (prefix_refl _) le_rfl rfl rfl
  | ckptStep => exact ckptStep_evolves h
  | crash k => exact absurd rfl (he k)

/-! ### What a checkpoint has established -/

/-- The list of `c` is right for the log `R`: what was committed before REDO is listed or
forgotten, and what is listed was committed. -/
structure Complete (R : List DtxRecord) (c : DtxCheckPoint) : Prop where
  listed : ∀ g, .distributedCommit g ∈ R.take c.redo →
    .distributedForget g ∈ R ∨ g ∈ c.committedGxidArray
  committed : ∀ g ∈ c.committedGxidArray, .distributedCommit g ∈ R

theorem take_eq_of_extends {R R' : List DtxRecord} (h : R <+: R') {k : ℕ} (hk : k ≤ R.length) :
    R'.take k = R.take k := by
  obtain ⟨_, rfl⟩ := h
  exact take_append_of_le_length hk

theorem Complete.mono {R R' : List DtxRecord} {c : DtxCheckPoint} (hc : Complete R c)
    (h : R <+: R') (hredo : c.redo ≤ R.length) : Complete R' c where
  listed := fun g hg => by
    rw [take_eq_of_extends h hredo] at hg
    exact (hc.listed g hg).imp (fun hf => h.subset hf) id
  committed := fun g hg => h.subset (hc.committed g hg)

/-- What was committed before `redo` is forgotten by now or satisfies `Q`. -/
def Tracked (s : DtxServer n) (redo : ℕ) (Q : ℕ → Prop) : Prop :=
  ∀ g, .distributedCommit g ∈ s.wal.records.take redo → .distributedForget g ∈ s.wal.records ∨ Q g

theorem Tracked.evolve {redo : ℕ} {Q Q' : ℕ → Prop} (h : s.Tracked redo Q) (hev : s.Evolves t)
    (hredo : redo ≤ s.wal.endPos)
    (hQ : ∀ g, Q g → .distributedForget g ∈ t.wal.records ∨ Q' g) : t.Tracked redo Q' := by
  intro g hg
  rw [take_eq_of_extends hev.records hredo] at hg
  rcases h g hg with hf | hq
  · exact .inl (hev.records.subset hf)
  · exact hQ g hq

/-- The conditions on a checkpoint under way: where each gxid committed before REDO is
still to be found. -/
def CkptOk (s : DtxServer n) : Prop :=
  match s.ckpt with
  | .idle => True
  | .collecting redo idx delaying =>
    redo ≤ s.wal.endPos ∧ s.Tracked redo fun g => g ∈ s.shmCommittedGxidArray ∨
      ∃ i, s.Owns i g ∧ (i.val < idx → (s.slots i).includeInCkpt ∨ (i, g) ∈ delaying)
  | .waiting redo delaying =>
    redo ≤ s.wal.endPos ∧ s.Tracked redo fun g => g ∈ s.shmCommittedGxidArray ∨
      ∃ i, s.Owns i g ∧ ((s.slots i).includeInCkpt ∨ (i, g) ∈ delaying)
  | .copying redo gxids idx =>
    redo ≤ s.wal.endPos ∧ (∀ g ∈ gxids, .distributedCommit g ∈ s.wal.records) ∧
      s.Tracked redo fun g => g ∈ gxids ∨ g ∈ s.shmCommittedGxidArray.drop idx ∨
        ∃ i, s.Owns i g ∧ (s.slots i).includeInCkpt
  | .scanning redo gxids idx =>
    redo ≤ s.wal.endPos ∧ (∀ g ∈ gxids, .distributedCommit g ∈ s.wal.records) ∧
      s.Tracked redo fun g => g ∈ gxids ∨ ∃ i, idx ≤ i.val ∧ s.Owns i g ∧ (s.slots i).includeInCkpt
  | .gathered c => c.redo ≤ s.wal.endPos ∧ Complete s.wal.records c
  | .inserted c pos => c.redo ≤ pos ∧ pos ≤ s.wal.endPos ∧ Complete (s.wal.records.take pos) c

theorem Evolves.endPos_le (h : s.Evolves t) : s.wal.endPos ≤ t.wal.endPos := h.records.length_le

theorem Evolves.array_mem (h : s.Evolves t) {g : ℕ} (hg : g ∈ s.shmCommittedGxidArray) :
    .distributedForget g ∈ t.wal.records ∨ g ∈ t.shmCommittedGxidArray := by
  rcases h.array with heq | hall
  · exact .inr (heq ▸ hg)
  · exact .inl (hall g hg)

/-- Who owned a commit owns it still, no less visible, unless it is forgotten. -/
theorem Evolves.owned (h : s.Evolves t) {i : Fin n} {g : ℕ} {P : Prop} (ho : s.Owns i g)
    (hP : t.Owns i g → ((s.slots i).includeInCkpt → (t.slots i).includeInCkpt) → P) :
    .distributedForget g ∈ t.wal.records ∨ P :=
  (h.owns i g ho).symm.imp_right fun hown => hP hown.1 hown.2

theorem CkptOk.evolve (h : s.CkptOk) (hev : s.Evolves t) (hckpt : t.ckpt = s.ckpt) : t.CkptOk := by
  have hend := hev.endPos_le
  unfold CkptOk at h ⊢
  rw [hckpt]
  split at h
  next => trivial
  next redo idx delaying _ =>
    refine ⟨h.1.trans hend, h.2.evolve hev h.1 ?_⟩
    rintro g (ha | ⟨i, ho, hi⟩)
    · exact (hev.array_mem ha).imp id .inl
    · exact hev.owned ho fun ho' hinc => .inr ⟨i, ho', fun hlt => (hi hlt).imp hinc id⟩
  next redo delaying _ =>
    refine ⟨h.1.trans hend, h.2.evolve hev h.1 ?_⟩
    rintro g (ha | ⟨i, ho, hi⟩)
    · exact (hev.array_mem ha).imp id .inl
    · exact hev.owned ho fun ho' hinc => .inr ⟨i, ho', hi.imp hinc id⟩
  next redo gxids idx _ =>
    refine ⟨h.1.trans hend, fun g hg => hev.records.subset (h.2.1 g hg), h.2.2.evolve hev h.1 ?_⟩
    rintro g (hl | ha | ⟨i, ho, hi⟩)
    · exact .inr (.inl hl)
    · rcases hev.array with heq | hall
      · exact .inr (.inr (.inl (heq ▸ ha)))
      · exact .inl (hall g (mem_of_mem_drop ha))
    · exact hev.owned ho fun ho' hinc => .inr (.inr ⟨i, ho', hinc hi⟩)
  next redo gxids idx _ =>
    refine ⟨h.1.trans hend, fun g hg => hev.records.subset (h.2.1 g hg), h.2.2.evolve hev h.1 ?_⟩
    rintro g (hl | ⟨i, hidx, ho, hi⟩)
    · exact .inr (.inl hl)
    · exact hev.owned ho fun ho' hinc => .inr ⟨i, hidx, ho', hinc hi⟩
  next c _ => exact ⟨h.1.trans hend, h.2.mono hev.records h.1⟩
  next c pos _ =>
    refine ⟨h.1, h.2.1.trans hend, ?_⟩
    rw [take_eq_of_extends hev.records h.2.1]
    exact h.2.2

/-- What every run keeps. -/
structure Inv (s : DtxServer n) : Prop where
  accounts : s.Accounts
  control_durable : s.control.redo ≤ s.wal.flushed
  control_ok : Complete (s.wal.records.take s.wal.flushed) s.control
  ckpt_ok : s.CkptOk

theorem Accounts.delaying_or_included (hs : s.Accounts) {i : Fin n} {g : ℕ} (ho : s.Owns i g) :
    (s.slots i).delayChkpt = true ∨ (s.slots i).includeInCkpt = true :=
  (hs.slot_of_state ho.1).2

section

variable (hs : s.Inv)
include hs

theorem CkptOk.collect {redo idx : ℕ} {delaying : List (Fin n × ℕ)}
    (hckpt : s.ckpt = .collecting redo idx delaying) (h : idx < n) : ({ s with
      ckpt := .collecting redo (idx + 1)
        (if (s.slots ⟨idx, h⟩).delayChkpt then delaying ++ [(⟨idx, h⟩, (s.slots ⟨idx, h⟩).gxid)]
          else delaying) } : DtxServer n).CkptOk := by
  have hok := hs.ckpt_ok
  unfold CkptOk at hok
  rw [hckpt] at hok
  refine ⟨hok.1, fun g hg => (hok.2 g hg).imp id (Or.imp id ?_)⟩
  rintro ⟨i, ho, hi⟩
  refine ⟨i, ho, fun hlt => ?_⟩
  rcases Nat.lt_succ_iff_lt_or_eq.1 hlt with hlt | heq
  · refine (hi hlt).imp id fun hmem => ?_
    split
    next => exact mem_append_left _ hmem
    next => exact hmem
  · obtain rfl : i = ⟨idx, h⟩ := Fin.ext heq
    rcases hs.accounts.delaying_or_included ho with hd | hinc
    · refine .inr ?_
      rw [if_pos hd, ho.2]
      exact mem_append_right _ (mem_singleton.2 rfl)
    · exact .inl hinc

/-- Once the backends waited for are through, every gxid is published. -/
theorem CkptOk.released {redo : ℕ} {delaying : List (Fin n × ℕ)}
    (hckpt : s.ckpt = .waiting redo delaying)
    (hall : delaying.all fun (i, gxid) => !((s.slots i).delayChkpt && (s.slots i).gxid == gxid)) :
    ({ s with ckpt := .copying redo [] 0 } : DtxServer n).CkptOk := by
  have hok := hs.ckpt_ok
  unfold CkptOk at hok
  rw [hckpt] at hok
  refine ⟨hok.1, fun _ hg => (by cases hg), fun g hg => (hok.2 g hg).imp id ?_⟩
  rintro (ha | ⟨i, ho, hinc | hmem⟩)
  · exact .inr (.inl ha)
  · exact .inr (.inr ⟨i, ho, hinc⟩)
  have hrel := all_eq_true.1 hall (i, g) hmem
  have hd : (s.slots i).delayChkpt = false := by simpa [ho.2] using hrel
  rcases hs.accounts.delaying_or_included ho with hd' | hinc
  · rw [hd] at hd'
    cases hd'
  · exact .inr (.inr ⟨i, ho, hinc⟩)

theorem CkptOk.scan {redo idx : ℕ} {gxids : List ℕ} (hckpt : s.ckpt = .scanning redo gxids idx)
    (h : idx < n) : ({ s with
      ckpt := .scanning redo
        (if (s.slots ⟨idx, h⟩).includeInCkpt then gxids ++ [(s.slots ⟨idx, h⟩).gxid] else gxids)
        (idx + 1) } : DtxServer n).CkptOk := by
  have hok := hs.ckpt_ok
  unfold CkptOk at hok
  rw [hckpt] at hok
  refine ⟨hok.1, fun g hg => ?_, fun g hg => (hok.2.2 g hg).imp id ?_⟩
  · split at hg
    next hinc =>
      rcases mem_append.1 hg with hg | hg
      · exact hok.2.1 g hg
      · rw [mem_singleton.1 hg]
        exact (hs.accounts.slot_ok _).committed_of_include hinc
    next => exact hok.2.1 g hg
  · rintro (hl | ⟨i, hidx, ho, hinc⟩)
    · refine .inl ?_
      split
      next => exact mem_append_left _ hl
      next => exact hl
    · rcases eq_or_lt_of_le hidx with heq | hlt
      · obtain rfl : i = ⟨idx, h⟩ := Fin.ext heq.symm
        refine .inl ?_
        rw [if_pos hinc, ho.2]
        exact mem_append_right _ (mem_singleton.2 rfl)
      · exact .inr ⟨i, hlt, ho, hinc⟩

theorem CkptOk.copy {redo idx gxid : ℕ} {gxids : List ℕ} (hckpt : s.ckpt = .copying redo gxids idx)
    (hget : s.shmCommittedGxidArray[idx]? = some gxid) :
    ({ s with ckpt := .copying redo (gxids ++ [gxid]) (idx + 1) } : DtxServer n).CkptOk := by
  have hok := hs.ckpt_ok
  unfold CkptOk at hok
  rw [hckpt] at hok
  refine ⟨hok.1, fun g hg => ?_, fun g hg => (hok.2.2 g hg).imp id ?_⟩
  · rcases mem_append.1 hg with hg | hg
    · exact hok.2.1 g hg
    · rw [mem_singleton.1 hg]
      exact hs.accounts.array_committed gxid (mem_of_getElem? hget)
  rintro (hl | ha | ho)
  · exact .inl (mem_append_left _ hl)
  · obtain ⟨hlt, hval⟩ := List.getElem?_eq_some_iff.1 hget
    rw [drop_eq_getElem_cons hlt, hval] at ha
    rcases mem_cons.1 ha with rfl | ha
    · exact .inl (mem_append_right _ (mem_singleton.2 rfl))
    · exact .inr (.inl ha)
  · exact .inr (.inr ho)

/-- **A step of the checkpointer keeps the invariant.** -/
theorem Inv.ckptStep (h : s.ckptStep = some t) : t.Inv := by
  have hacc := hs.accounts.ckptStep h
  have hok := hs.ckpt_ok
  have hsame : ∀ ckpt, ({ s with ckpt := ckpt } : DtxServer n).Accounts →
      ({ s with ckpt := ckpt } : DtxServer n).CkptOk → ({ s with ckpt := ckpt } : DtxServer n).Inv :=
    fun _ h₁ h₂ => ⟨h₁, hs.control_durable, hs.control_ok, h₂⟩
  unfold CkptOk at hok
  unfold DtxServer.ckptStep at h
  split at h
  next => cases h
  next redo idx delaying hckpt =>
    rw [hckpt] at hok
    split at h
    next hidx =>
      cases h
      exact hsame _ hacc (CkptOk.collect hs hckpt hidx)
    next hidx =>
      cases h
      refine hsame _ hacc ⟨hok.1, fun g hg => (hok.2 g hg).imp id (Or.imp id ?_)⟩
      rintro ⟨i, ho, hi⟩
      exact ⟨i, ho, hi (by have := i.isLt; omega)⟩
  next redo delaying hckpt =>
    split_ifs at h with hall
    cases h
    exact hsame _ hacc (CkptOk.released hs hckpt hall)
  next redo gxids idx hckpt =>
    rw [hckpt] at hok
    split at h
    next gxid hget =>
      cases h
      exact hsame _ hacc (CkptOk.copy hs hckpt hget)
    next hnone =>
      cases h
      refine hsame _ hacc ⟨hok.1, hok.2.1, fun g hg => (hok.2.2 g hg).imp id (Or.imp id ?_)⟩
      have hdrop : s.shmCommittedGxidArray.drop idx = [] :=
        drop_eq_nil_of_le (getElem?_eq_none_iff.1 hnone)
      rintro (ha | ⟨i, ho, hinc⟩)
      · rw [hdrop] at ha
        cases ha
      · exact ⟨i, zero_le _, ho, hinc⟩
  next redo gxids idx hckpt =>
    rw [hckpt] at hok
    split at h
    next hidx =>
      cases h
      exact hsame _ hacc (CkptOk.scan hs hckpt hidx)
    next hidx =>
      cases h
      refine hsame _ hacc ⟨hok.1, fun g hg => (hok.2.2 g hg).imp id ?_, hok.2.1⟩
      rintro (hl | ⟨i, _, -⟩)
      · exact hl
      · exact absurd i.isLt (by omega)
  next c hckpt =>
    rw [hckpt] at hok
    cases h
    have hend : (s.wal.records ++ [DtxRecord.checkpoint c]).take s.wal.endPos = s.wal.records :=
      take_left
    refine ⟨hacc, hs.control_durable, ?_, hok.1, ?_, ?_⟩
    · dsimp only
      rw [Wal.insert, take_eq_of_extends (prefix_append _ _) s.wal.flushed_le]
      exact hs.control_ok
    · rw [Wal.endPos_insert]
      omega
    · show Complete ((s.wal.records ++ [DtxRecord.checkpoint c]).take s.wal.endPos) c
      rw [hend]
      exact hok.2
  next c pos hckpt =>
    rw [hckpt] at hok
    split_ifs at h with hflushed
    cases h
    refine ⟨hacc, hok.1.trans hflushed.le, ?_, trivial⟩
    exact hok.2.2.mono (take_prefix_take_left hflushed.le)
      (by rw [length_take]; have := hok.1; have := hok.2.1; unfold Wal.endPos at this; omega)

theorem Inv.evolve (hacc : t.Accounts) (hev : s.Evolves t) (hckpt : t.ckpt = s.ckpt)
    (hcontrol : t.control = s.control) : t.Inv := by
  refine ⟨hacc, ?_, ?_, hs.ckpt_ok.evolve hev hckpt⟩
  · rw [hcontrol]
    exact hs.control_durable.trans hev.flushed
  rw [hcontrol]
  have hprefix : s.wal.records.take s.wal.flushed <+: t.wal.records.take t.wal.flushed := by
    rw [← take_eq_of_extends hev.records s.wal.flushed_le]
    exact take_prefix_take_left hev.flushed
  refine hs.control_ok.mono hprefix ?_
  rw [length_take, min_eq_left s.wal.flushed_le]
  exact hs.control_durable

end

/-! ### Crash recovery -/

/-- At no position from REDO to `k` are there more outstanding gxids than fit. -/
def Fits (maxTmGxacts : ℕ) (s : DtxServer n) (k : ℕ) : Prop :=
  ∀ j, s.control.redo ≤ j → j ≤ k →
    (outstanding s.control.committedGxidArray
      ((s.wal.records.take j).drop s.control.redo)).card ≤ maxTmGxacts

instance (maxTmGxacts : ℕ) (s : DtxServer n) (k : ℕ) : Decidable (s.Fits maxTmGxacts k) :=
  decidable_of_iff (∀ j ≤ k, s.control.redo ≤ j → (outstanding s.control.committedGxidArray
    ((s.wal.records.take j).drop s.control.redo)).card ≤ maxTmGxacts)
    (forall_congr' fun _ => Imp.swap)

/-- What crash recovery should leave in the array: no duplicates, every gxid whose commit
record is durable and whose forget record is not, and only committed ones. -/
structure Keeps (s : DtxServer n) (k : ℕ) (array : List ℕ) : Prop where
  nodup : array.Nodup
  kept : ∀ g, .distributedCommit g ∈ s.wal.records.take k →
    .distributedForget g ∉ s.wal.records.take k → g ∈ array
  committed : ∀ g ∈ array, .distributedCommit g ∈ s.wal.records.take k

theorem mem_take_iff {R : List DtxRecord} {r : DtxRecord} {redo k : ℕ} (h : redo ≤ k) :
    r ∈ R.take k ↔ r ∈ R.take redo ∨ r ∈ (R.take k).drop redo := by
  conv_lhs => rw [← take_append_drop redo (R.take k)]
  rw [mem_append, take_take, min_eq_left h]

/-- **Replay from the control file's checkpoint.** It goes through exactly if everything
fits, and what it leaves is right. -/
theorem Inv.recover_spec (hs : s.Inv) (maxTmGxacts : ℕ) {k : ℕ} (hk : s.wal.Survives k) :
    (∀ a, s.recover maxTmGxacts k = .ok a → s.Keeps k a) ∧
      ((∃ a, s.recover maxTmGxacts k = .ok a) ↔ s.Fits maxTmGxacts k) := by
  have hredo : s.control.redo ≤ k := hs.control_durable.trans hk.1
  have hdurable : s.wal.records.take s.wal.flushed <+: s.wal.records.take k :=
    take_prefix_take_left hk.1
  have hcontrol : Complete (s.wal.records.take k) s.control := by
    refine hs.control_ok.mono hdurable ?_
    rw [length_take, min_eq_left s.wal.flushed_le]
    exact hs.control_durable
  have hredotake : (s.wal.records.take k).take s.control.redo = s.wal.records.take s.control.redo := by
    rw [take_take, min_eq_left hredo]
  obtain ⟨hlists, hfits⟩ := redo_spec maxTmGxacts s.control.committedGxidArray
    ((s.wal.records.take k).drop s.control.redo) (hs.accounts.fresh.window _ _)
  refine ⟨fun a ha => ?_, ?_⟩
  · have hlist := hlists a ha
    refine ⟨hlist.nodup, fun g hc hf => ?_, fun g hg => ?_⟩
    · rw [hlist.mem_iff, mem_outstanding]
      refine ⟨?_, fun h => hf (mem_of_mem_drop h)⟩
      rcases (mem_take_iff hredo).1 hc with hc | hc
      · exact .inl ((hcontrol.listed g (hredotake ▸ hc)).resolve_left hf)
      · exact .inr hc
    · rw [hlist.mem_iff, mem_outstanding] at hg
      rcases hg.1 with hg | hg
      · exact hcontrol.committed g hg
      · exact mem_of_mem_drop hg
  · rw [recover, Wal.replay, hfits]
    have hlen : s.wal.records.length = s.wal.endPos := rfl
    have hkend := hk.2
    constructor
    · intro h j hj hjk
      have := h (j - s.control.redo) (by rw [length_drop, length_take]; omega)
      rwa [take_drop, take_take, Nat.add_sub_cancel' hj, Nat.min_eq_left hjk] at this
    · intro h j hj
      rw [length_drop, length_take] at hj
      have := h (s.control.redo + j) (le_add_right _ _) (by omega)
      rwa [take_drop, take_take, min_eq_left (by omega)]

theorem Inv.crash (hs : s.Inv) {maxTmGxacts k : ℕ}
    (h : s.step maxTmGxacts (.crash k) = some t) : t.Inv := by
  rw [DtxServer.step] at h
  split_ifs at h with hk
  split at h
  next => cases h
  next array hrec =>
    cases h
    have hkeeps := (hs.recover_spec maxTmGxacts hk).1 array hrec
    have hsub : ∀ r, r ∈ s.wal.records.take k → r ∈ s.wal.records := fun r hr =>
      mem_of_mem_take hr
    have hfresh : CommitsFresh (s.wal.records.take k) := by
      have := hs.accounts.fresh
      rw [← take_append_drop k s.wal.records] at this
      exact this.of_append
    refine ⟨⟨fun i => rfl, fun i hi => absurd rfl hi, fun i j hi => absurd rfl hi,
      fun g hg => hs.accounts.record_used g (hg.imp (hsub _) (hsub _)), hfresh, fun g hg => ?_,
      hkeeps.committed, fun j g hj => absurd hj (not_lt_zero _)⟩,
      hs.control_durable.trans hk.1, ?_, trivial⟩
    · by_cases hf : .distributedForget g ∈ s.wal.records.take k
      · exact .inl hf
      · exact .inr (.inl (hkeeps.kept g hg hf))
    · show Complete ((s.wal.records.take k).take k) s.control
      rw [take_take, min_self]
      refine hs.control_ok.mono (take_prefix_take_left hk.1) ?_
      rw [length_take, min_eq_left s.wal.flushed_le]
      exact hs.control_durable

/-! ### Runs -/

theorem inv_boot : (boot : DtxServer n).Inv where
  accounts :=
    { slot_ok := fun _ => rfl
      slot_used := fun _ hi => absurd rfl hi
      distinct := fun _ _ hi => absurd rfl hi
      record_used := fun _ hg => by rcases hg with h | h <;> cases h
      fresh := fun before g after heq => absurd heq (by simp [boot, Wal.nil])
      accounted := nofun
      array_committed := nofun
      recover_done := fun _ _ hj => absurd hj (not_lt_zero _) }
  control_durable := le_rfl
  control_ok :=
    { listed := nofun
      committed := fun _ hg => by cases hg }
  ckpt_ok := trivial

/-- **One step keeps the invariant.** -/
theorem Inv.step (maxTmGxacts : ℕ) (s : DtxServer n) (e : DtxEvent n) (t : DtxServer n) (hs : s.Inv)
    (h : s.step maxTmGxacts e = some t) : t.Inv := by
  by_cases hcrash : ∃ k, e = .crash k
  · obtain ⟨k, rfl⟩ := hcrash
    exact hs.crash h
  have hne : ∀ k, e ≠ .crash k := fun k hk => hcrash ⟨k, hk⟩
  have hacc := hs.accounts.step hne h
  have hev := hs.accounts.step_evolves hne h
  cases e with
  | ckptStep => exact hs.ckptStep h
  | ckptStart =>
    obtain ⟨-, rfl⟩ := guarded_eq_some.1 h
    refine ⟨hacc, hs.control_durable, hs.control_ok, le_rfl, fun g hg => ?_⟩
    refine (hs.accounts.accounted g (mem_of_mem_take hg)).imp id (Or.imp id ?_)
    rintro ⟨i, ho⟩
    exact ⟨i, ho, fun hlt => absurd hlt (not_lt_zero _)⟩
  | ckptAbandon =>
    cases h
    exact ⟨hacc, hs.control_durable, hs.control_ok, trivial⟩
  | crash k => exact absurd rfl (hne k)
  | recoverForget =>
    refine hs.evolve hacc hev ?_ ?_ <;>
    · simp only [DtxServer.step] at h
      split at h
      next =>
        cases h
        rfl
      next => cases h
  | recoverRestart =>
    cases h
    exact hs.evolve hacc hev rfl rfl
  | flush k =>
    rw [DtxServer.step] at h
    split_ifs at h
    cases h
    exact hs.evolve hacc hev rfl rfl
  | _ =>
    obtain ⟨-, rfl⟩ := guarded_eq_some.1 h
    exact hs.evolve hacc hev rfl rfl

theorem inv_of_run {maxTmGxacts : ℕ} {es : List (DtxEvent n)}
    (hrun : run (DtxServer.step maxTmGxacts) boot es = some s) : s.Inv :=
  run_invariant (Inv.step maxTmGxacts) inv_boot hrun

/-- **Crash recovery keeps every committed global transaction, exactly as long as they
fit.**  In every run, for a crash that leaves any prefix of the log with the durable part
in it: replaying the last completed checkpoint and the records from its REDO pointer on
ends with an array that has no duplicates, has every gxid whose distributed commit record
survived and whose forget record did not, and has only gxids whose commit record was
written, if and only if at no position from REDO on more than `max_tm_gxacts` gxids are
outstanding. -/
theorem recovery_keeps_committed_iff_fits (maxTmGxacts : ℕ) (es : List (DtxEvent n))
    (s : DtxServer n) (hrun : Machine.run (DtxServer.step maxTmGxacts) boot es = some s) (k : ℕ)
    (hk : s.wal.Survives k) :
    (∃ array, s.recover maxTmGxacts k = .ok array ∧ s.Keeps k array) ↔ s.Fits maxTmGxacts k := by
  have hspec := (inv_of_run hrun).recover_spec maxTmGxacts hk
  rw [← hspec.2]
  constructor
  · rintro ⟨array, hrec, -⟩
    exact ⟨array, hrec⟩
  · rintro ⟨array, hrec⟩
    exact ⟨array, hrec, hspec.1 array hrec⟩

/-- Backend `i` commits `gxid`. -/
def commitTrace (i : Fin n) (gxid : ℕ) : List (DtxEvent n) :=
  [.activate i gxid, .delay i, .insertCommit i, .includeCkpt i, .release i]

/-- Backend `i` forgets it and ends the transaction. -/
def forgetTrace (i : Fin n) : List (DtxEvent n) := [.insertForget i, .excludeCkpt i, .endGxact i]

/-- Every backend commits, forgets and commits again after a checkpoint has fixed its
REDO pointer and before it looks at the slots; then the checkpoint completes. -/
def twiceDuringCheckpoint (n : ℕ) : List (DtxEvent n) :=
  [.recoverDone, .ckptStart] ++
    (finRange n).flatMap (fun i => commitTrace i (i.val + 1)) ++
    (finRange n).flatMap (fun i => forgetTrace i ++ commitTrace i (n + i.val + 1)) ++
    replicate (2 * n + 5) .ckptStep ++ [.flush (3 * n + 1), .ckptStep]

/-- The hypotheses of `recovery_keeps_committed_iff_fits` are satisfiable: two backends commit,
forget and commit again during a checkpoint, which lists the second gxid of each; all records are
durable and four gxids fit, so a crash now keeps the two that are not forgotten. -/
theorem recovery_keeps_two_committed : ∃ s,
      Machine.run (DtxServer.step 14) (boot : DtxServer 2) (twiceDuringCheckpoint 2) = some s ∧
      s.control = ⟨0, [3, 4]⟩ ∧ .distributedForget 1 ∈ s.wal.records ∧
      ∃ array, s.recover 14 7 = .ok array ∧ s.Keeps 7 array := by
  obtain ⟨s, hrun, hcontrol, hforget, hsurvives, hfits⟩ : ∃ s,
      run (DtxServer.step 14) (boot : DtxServer 2) (twiceDuringCheckpoint 2) = some s ∧
      s.control = ⟨0, [3, 4]⟩ ∧ .distributedForget 1 ∈ s.wal.records ∧ s.wal.Survives 7 ∧
      s.Fits 14 7 :=
    exists_of_any (by decide +kernel)
  exact ⟨s, hrun, hcontrol, hforget,
    (recovery_keeps_committed_iff_fits 14 _ s hrun 7 hsurvives).2 hfits⟩

/-- **Two transactions per backend do not fit.**  Eight backends, `max_tm_gxacts` 14: each
of them commits, forgets and commits again between the REDO pointer and the scan of one
checkpoint.  After a crash the checkpoint brings eight gxids and the log another eight
before their forget records, and replay stops with FATAL. -/
theorem replay_overflows_between_redo_and_scan :
    ∃ s, Machine.run (DtxServer.step 14) (boot : DtxServer 8) (twiceDuringCheckpoint 8) = some s ∧
      s.wal.Survives 25 ∧
      ¬ ∃ array, s.recover 14 25 = .ok array ∧ s.Keeps 25 array := by
  have hrun : (run (DtxServer.step 14) (boot : DtxServer 8) (twiceDuringCheckpoint 8)).map
      (fun s => (decide (s.wal.Survives 25), (s.recover 14 25).isOk)) = some (true, false) := by
    decide +kernel
  obtain ⟨s, hs, heq⟩ := Option.map_eq_some_iff.1 hrun
  simp only [Prod.mk.injEq, decide_eq_true_eq] at heq
  refine ⟨s, hs, heq.1, ?_⟩
  rintro ⟨array, hrec, -⟩
  rw [hrec] at heq
  exact nomatch heq.2

end DtxServer

end Cloudberry.Dtm
