/-
# Every committed global transaction is accounted for

Where a committed gxid may be while the coordinator runs: forgotten, in the array crash
recovery left, or in the slot of the backend that committed it (`Accounts`). The slot of
a backend promises something about the log in each of its states (`SlotOk`); above all,
between the commit record and the forget record it has `delayChkpt` or `includeInCkpt`
set. `Accounts.step` is the step lemma for everything but a crash.
-/

import Cloudberry.Lib.Machine
import Cloudberry.Dtm.DtxServer

namespace Cloudberry.Dtm
namespace DtxServer

open List Machine

variable {n : ℕ}

/-! ### What a slot promises -/

/-- What the log `R` holds about the gxid of a slot in each state. In `inserted` the
checkpointer is held up or the gxid is published. -/
def SlotOk (R : List DtxRecord) (slot : DtxSlot) : Prop :=
  match slot.state with
  | .idle => slot = DtxSlot.empty
  | .active => .distributedCommit slot.gxid ∉ R ∧ .distributedForget slot.gxid ∉ R ∧
      slot.delayChkpt = false ∧ slot.includeInCkpt = false
  | .inserting => .distributedCommit slot.gxid ∉ R ∧ .distributedForget slot.gxid ∉ R ∧
      slot.delayChkpt = true ∧ slot.includeInCkpt = false
  | .inserted => .distributedCommit slot.gxid ∈ R ∧
      (slot.delayChkpt = true ∨ slot.includeInCkpt = true)
  | .forgotten => .distributedCommit slot.gxid ∈ R ∧ .distributedForget slot.gxid ∈ R ∧
      slot.delayChkpt = false

variable {slot : DtxSlot} {r : DtxRecord}

theorem SlotOk.concat {R : List DtxRecord} (h : SlotOk R slot) (hne : slot.state ≠ .idle →
      .distributedCommit slot.gxid ∉ R → r ≠ .distributedCommit slot.gxid ∧
      r ≠ .distributedForget slot.gxid) : SlotOk (R ++ [r]) slot := by
  have hpre : slot.state ≠ .idle → .distributedCommit slot.gxid ∉ R →
      .distributedForget slot.gxid ∉ R → .distributedCommit slot.gxid ∉ R ++ [r] ∧
        .distributedForget slot.gxid ∉ R ++ [r] := fun hst hc hf => by
    obtain ⟨h₁, h₂⟩ := hne hst hc
    simp only [mem_append, mem_singleton, not_or]
    exact ⟨⟨hc, h₁.symm⟩, hf, h₂.symm⟩
  unfold SlotOk at h ⊢
  split at h
  next => exact h
  next heq =>
    obtain ⟨hc, hf⟩ := hpre (by rw [heq]; simp) h.1 h.2.1
    exact ⟨hc, hf, h.2.2⟩
  next heq =>
    obtain ⟨hc, hf⟩ := hpre (by rw [heq]; simp) h.1 h.2.1
    exact ⟨hc, hf, h.2.2⟩
  next => exact ⟨mem_append_left _ h.1, h.2⟩
  next => exact ⟨mem_append_left _ h.1, mem_append_left _ h.2.1, h.2.2⟩

theorem SlotOk.committed_of_include {R : List DtxRecord} (h : SlotOk R slot)
    (hinc : slot.includeInCkpt = true) : .distributedCommit slot.gxid ∈ R := by
  unfold SlotOk at h
  split at h
  next => rw [h] at hinc; cases hinc
  next => rw [h.2.2.2] at hinc; cases hinc
  next => rw [h.2.2.2] at hinc; cases hinc
  next => exact h.1
  next => exact h.1

/-- Backend `i` has the commit of `g` in the log and has not forgotten it. -/
def Owns (s : DtxServer n) (i : Fin n) (g : ℕ) : Prop :=
  (s.slots i).state = .inserted ∧ (s.slots i).gxid = g

/-- Every committed gxid is accounted for, and no gxid is in two places. -/
structure Accounts (s : DtxServer n) : Prop where
  slot_ok : ∀ i, SlotOk s.wal.records (s.slots i)
  slot_used : ∀ i, (s.slots i).state ≠ .idle → (s.slots i).gxid ∈ s.used
  distinct : ∀ i j, (s.slots i).state ≠ .idle → (s.slots j).state ≠ .idle →
    (s.slots i).gxid = (s.slots j).gxid → i = j
  record_used : ∀ g, .distributedCommit g ∈ s.wal.records ∨ .distributedForget g ∈ s.wal.records →
    g ∈ s.used
  fresh : CommitsFresh s.wal.records
  accounted : ∀ g, .distributedCommit g ∈ s.wal.records →
    .distributedForget g ∈ s.wal.records ∨ g ∈ s.shmCommittedGxidArray ∨ ∃ i, s.Owns i g
  array_committed : ∀ g ∈ s.shmCommittedGxidArray, .distributedCommit g ∈ s.wal.records
  recover_done : ∀ j g, j < s.recoverIdx → s.shmCommittedGxidArray[j]? = some g →
    .distributedForget g ∈ s.wal.records

variable {s t : DtxServer n}

@[simp] theorem setSlot_slots_self (i : Fin n) (slot : DtxSlot) :
    (s.setSlot i slot).slots i = slot := by
  simp [setSlot]

theorem setSlot_slots_ne {i j : Fin n} (h : j ≠ i) (slot : DtxSlot) :
    (s.setSlot i slot).slots j = s.slots j := by
  simp [setSlot, h]

variable {i : Fin n}

variable (hs : s.Accounts)
include hs

theorem Accounts.setSlot (hok : SlotOk s.wal.records slot)
    (hgxid : slot.state = .idle ∨ (s.slots i).state ≠ .idle ∧ slot.gxid = (s.slots i).gxid)
    (howns : ∀ g, s.Owns i g → slot.state = .inserted ∧ slot.gxid = g) :
    (s.setSlot i slot).Accounts := by
  have hbusy : ∀ j, ((s.setSlot i slot).slots j).state ≠ .idle →
      (s.slots j).state ≠ .idle ∧ ((s.setSlot i slot).slots j).gxid = (s.slots j).gxid := by
    intro j hj
    by_cases hji : j = i
    · subst hji
      rw [setSlot_slots_self] at hj ⊢
      exact hgxid.resolve_left hj
    · rw [setSlot_slots_ne hji] at hj ⊢
      exact ⟨hj, rfl⟩
  refine ⟨fun j => ?_, fun j hj => ?_, fun j k hj hk heq => ?_, hs.record_used, hs.fresh,
    fun g hg => ?_, hs.array_committed, hs.recover_done⟩
  · by_cases hji : j = i
    · subst hji
      rw [setSlot_slots_self]
      exact hok
    · rw [setSlot_slots_ne hji]
      exact hs.slot_ok j
  · rw [(hbusy j hj).2]
    exact hs.slot_used j (hbusy j hj).1
  · rw [(hbusy j hj).2, (hbusy k hk).2] at heq
    exact hs.distinct j k (hbusy j hj).1 (hbusy k hk).1 heq
  · refine (hs.accounted g hg).imp id (Or.imp id fun ⟨j, hj⟩ => ⟨j, ?_⟩)
    by_cases hji : j = i
    · subst hji
      rw [Owns, setSlot_slots_self]
      exact howns g hj
    · rw [Owns, setSlot_slots_ne hji]
      exact hj

theorem Accounts.insertSlot (hbusy : (s.slots i).state ≠ .idle)
    (hgxid : slot.gxid = (s.slots i).gxid)
    (hr : r = .distributedCommit (s.slots i).gxid ∨ r = .distributedForget (s.slots i).gxid)
    (hok : SlotOk (s.wal.records ++ [r]) slot)
    (hfresh : r = .distributedCommit (s.slots i).gxid →
      .distributedForget (s.slots i).gxid ∉ s.wal.records)
    (haccount : .distributedForget (s.slots i).gxid ∈ s.wal.records ++ [r] ∨
      slot.state = .inserted) :
    ({ s.setSlot i slot with wal := s.wal.insert r } : DtxServer n).Accounts := by
  have hslots : ∀ j, j ≠ i →
      ({ s.setSlot i slot with wal := s.wal.insert r } : DtxServer n).slots j = s.slots j :=
    fun j hj => setSlot_slots_ne hj slot
  have hself : ({ s.setSlot i slot with wal := s.wal.insert r } : DtxServer n).slots i = slot :=
    setSlot_slots_self i slot
  have hrgxid : ∀ g, r = .distributedCommit g ∨ r = .distributedForget g → g = (s.slots i).gxid := by
    rintro g (rfl | rfl) <;> simpa using hr
  have howned : ∀ g, g = (s.slots i).gxid → .distributedForget g ∈ s.wal.records ++ [r] ∨
      ({ s.setSlot i slot with wal := s.wal.insert r } : DtxServer n).Owns i g := by
    rintro g rfl
    refine haccount.imp id fun hst => ?_
    rw [Owns, hself]
    exact ⟨hst, hgxid⟩
  refine ⟨fun j => ?_, fun j hj => ?_, fun j k hj hk heq => ?_, fun g hg => ?_, ?_, fun g hg => ?_,
    fun g hg => mem_append_left _ (hs.array_committed g hg),
    fun j g hj hg => mem_append_left _ (hs.recover_done j g hj hg)⟩
  · by_cases hji : j = i
    · subst hji
      rw [hself]
      exact hok
    · rw [hslots j hji]
      refine (hs.slot_ok j).concat fun hst _ => ?_
      have hne : (s.slots j).gxid ≠ (s.slots i).gxid := fun heq =>
        hji (hs.distinct j i hst hbusy heq)
      exact ⟨fun h => hne (hrgxid _ (.inl h)), fun h => hne (hrgxid _ (.inr h))⟩
  · by_cases hji : j = i
    · subst hji
      rw [hself, hgxid]
      exact hs.slot_used j hbusy
    · rw [hslots j hji] at hj ⊢
      exact hs.slot_used j hj
  · by_cases hji : j = i <;> by_cases hki : k = i
    · rw [hji, hki]
    · subst hji
      rw [hslots k hki] at hk heq
      rw [hself, hgxid] at heq
      exact hs.distinct j k hbusy hk heq
    · subst hki
      rw [hslots j hji] at hj heq
      rw [hself, hgxid] at heq
      exact hs.distinct j k hj hbusy heq
    · rw [hslots j hji] at hj heq
      rw [hslots k hki] at hk heq
      exact hs.distinct j k hj hk heq
  · have hused := hs.slot_used i hbusy
    have hold := hs.record_used g
    have hnew := hrgxid g
    simp only [Wal.insert, mem_append, mem_singleton] at hg
    rcases hg with (hg | hg) | (hg | hg)
    · exact hold (.inl hg)
    · exact hnew (.inl hg.symm) ▸ hused
    · exact hold (.inr hg)
    · exact hnew (.inr hg.symm) ▸ hused
  · exact hs.fresh.concat fun g hg => by
      have hgi := hrgxid g (.inl hg)
      subst hgi
      exact hfresh hg
  · simp only [Wal.insert, mem_append, mem_singleton] at hg
    rcases hg with hg | hg
    · rcases hs.accounted g hg with hf | ha | ⟨j, hj⟩
      · exact .inl (mem_append_left _ hf)
      · exact .inr (.inl ha)
      by_cases hji : j = i
      · subst hji
        exact (howned g hj.2.symm).imp id fun h => .inr ⟨j, h⟩
      · refine .inr (.inr ⟨j, ?_⟩)
        rw [Owns, hslots j hji]
        exact hj
    · exact (howned g (hrgxid g (.inl hg.symm))).imp id fun h => .inr ⟨i, h⟩

theorem Accounts.insertRecord (hcommit : ∀ g, r ≠ .distributedCommit g)
    (hforget : ∀ g, r = .distributedForget g → .distributedCommit g ∈ s.wal.records)
    (hwal : t.wal = s.wal.insert r) (hslots : t.slots = s.slots)
    (harray : t.shmCommittedGxidArray = s.shmCommittedGxidArray) (hused : t.used = s.used)
    (hdone : ∀ j g, j < t.recoverIdx → s.shmCommittedGxidArray[j]? = some g →
      .distributedForget g ∈ s.wal.records ++ [r]) : t.Accounts := by
  have hrec : t.wal.records = s.wal.records ++ [r] := by
    rw [hwal]
    rfl
  refine ⟨?_, ?_, ?_, ?_, ?_, ?_, ?_, ?_⟩ <;> simp only [hrec, hslots, harray, hused, Owns]
  · intro j
    refine (hs.slot_ok j).concat fun _ hnot => ⟨hcommit _, fun h => hnot (hforget _ h)⟩
  · exact hs.slot_used
  · exact hs.distinct
  · rintro g (hg | hg) <;> simp only [mem_append, mem_singleton] at hg
    · exact hs.record_used g (.inl (hg.resolve_right (Ne.symm (hcommit g))))
    · rcases hg with hg | hg
      · exact hs.record_used g (.inr hg)
      · exact hs.record_used g (.inl (hforget g hg.symm))
  · exact hs.fresh.concat fun g hg => absurd hg (hcommit g)
  · intro g hg
    simp only [mem_append, mem_singleton] at hg
    exact (hs.accounted g (hg.resolve_right (Ne.symm (hcommit g)))).imp (mem_append_left _) id
  · exact fun g hg => mem_append_left _ (hs.array_committed g hg)
  · exact hdone

theorem Accounts.congr (hrec : t.wal.records = s.wal.records) (hslots : t.slots = s.slots)
    (harray : t.shmCommittedGxidArray = s.shmCommittedGxidArray) (hused : t.used = s.used)
    (hidx : t.recoverIdx ≤ s.recoverIdx) : t.Accounts := by
  refine ⟨?_, ?_, ?_, ?_, ?_, ?_, ?_, ?_⟩ <;> simp [hrec, hslots, harray, hused, Owns]
  · exact hs.slot_ok
  · exact hs.slot_used
  · exact hs.distinct
  · exact hs.record_used
  · exact hs.fresh
  · exact hs.accounted
  · exact hs.array_committed
  · exact fun j g hj => hs.recover_done j g (hj.trans_le hidx)

theorem Accounts.activate {gxid : ℕ} (hidle : (s.slots i).state = .idle) (hnew : gxid ∉ s.used) :
    ({ s.setSlot i ⟨gxid, .active, false, false⟩ with used := gxid :: s.used } :
      DtxServer n).Accounts := by
  have hself : (s.setSlot i ⟨gxid, .active, false, false⟩).slots i = ⟨gxid, .active, false, false⟩ :=
    setSlot_slots_self i _
  have hslots : ∀ j, j ≠ i → (s.setSlot i ⟨gxid, .active, false, false⟩).slots j = s.slots j :=
    fun j hj => setSlot_slots_ne hj _
  have hlog : .distributedCommit gxid ∉ s.wal.records ∧ .distributedForget gxid ∉ s.wal.records :=
    ⟨fun h => hnew (hs.record_used gxid (.inl h)), fun h => hnew (hs.record_used gxid (.inr h))⟩
  refine ⟨fun j => ?_, fun j hj => ?_, fun j k hj hk heq => ?_,
    fun g hg => mem_cons_of_mem _ (hs.record_used g hg), hs.fresh, fun g hg => ?_,
    hs.array_committed, hs.recover_done⟩
  · by_cases hji : j = i
    · subst hji
      rw [hself]
      exact ⟨hlog.1, hlog.2, rfl, rfl⟩
    · rw [hslots j hji]
      exact hs.slot_ok j
  · by_cases hji : j = i
    · subst hji
      rw [hself]
      exact mem_cons_self
    · rw [hslots j hji] at hj ⊢
      exact mem_cons_of_mem _ (hs.slot_used j hj)
  · by_cases hji : j = i <;> by_cases hki : k = i
    · rw [hji, hki]
    · subst hji
      rw [hslots k hki] at hk heq
      rw [hself] at heq
      exact absurd (hs.slot_used k hk) (by rw [← heq]; exact hnew)
    · subst hki
      rw [hslots j hji] at hj heq
      rw [hself] at heq
      exact absurd (hs.slot_used j hj) (by rw [heq]; exact hnew)
    · rw [hslots j hji] at hj heq
      rw [hslots k hki] at hk heq
      exact hs.distinct j k hj hk heq
  · refine (hs.accounted g hg).imp id (Or.imp id fun ⟨j, hj⟩ => ⟨j, ?_⟩)
    have hji : j ≠ i := by
      rintro rfl
      rw [Owns, hidle] at hj
      cases hj.1
    rw [Owns]
    rw [hslots j hji]
    exact hj

theorem Accounts.recoverDone (hidx : s.recoverIdx = s.shmCommittedGxidArray.length) :
    ({ s with shmCommittedGxidArray := [], recoverIdx := 0, recovered := true } :
      DtxServer n).Accounts := by
  refine ⟨hs.slot_ok, hs.slot_used, hs.distinct, hs.record_used, hs.fresh, fun g hg => ?_,
    fun _ h => (by cases h), fun _ _ h => absurd h (Nat.not_lt_zero _)⟩
  rcases hs.accounted g hg with hf | ha | ho
  · exact .inl hf
  · obtain ⟨j, hj, rfl⟩ := mem_iff_getElem.1 ha
    exact .inl (hs.recover_done j _ (by omega) (getElem?_eq_getElem hj))
  · exact .inr (.inr ho)

theorem Accounts.ckptStep (h : s.ckptStep = some t) : t.Accounts := by
  rcases ckptStep_cases h with ⟨_, _, rfl⟩ | ⟨_, _, rfl⟩
  · exact hs.congr rfl rfl rfl rfl le_rfl
  · exact hs.insertRecord (by simp) (by simp) rfl rfl rfl rfl
      fun j g hj hg => mem_append_left _ (hs.recover_done j g hj hg)

theorem Accounts.slot_of_state {st : CommitState} (hst : (s.slots i).state = st) :
    SlotOk s.wal.records { s.slots i with state := st } := by
  subst hst
  exact hs.slot_ok i

/-- **Every step but a crash keeps the accounts.** -/
theorem Accounts.step {maxTmGxacts : ℕ} {e : DtxEvent n} (he : ∀ k, e ≠ .crash k)
    (h : s.step maxTmGxacts e = some t) : t.Accounts := by
  cases e with
  | activate i gxid =>
    obtain ⟨⟨-, hidle, hnew⟩, rfl⟩ := guarded_eq_some.1 h
    exact hs.activate hidle hnew
  | abort i | endGxact i =>
    obtain ⟨⟨hst, -⟩, rfl⟩ := guarded_eq_some.1 h
    exact hs.setSlot rfl (.inl rfl) fun g hg => by rw [Owns, hst] at hg; cases hg.1
  | delay i =>
    obtain ⟨hst, rfl⟩ := guarded_eq_some.1 h
    obtain ⟨hc, hf, -, hinc⟩ := hs.slot_of_state hst
    refine hs.setSlot ⟨hc, hf, rfl, hinc⟩ (.inr ⟨by rw [hst]; simp, rfl⟩) fun g hg => ?_
    rw [Owns, hst] at hg
    cases hg.1
  | insertCommit i =>
    obtain ⟨hst, rfl⟩ := guarded_eq_some.1 h
    obtain ⟨-, hf, hdelay, -⟩ := hs.slot_of_state hst
    exact hs.insertSlot (by rw [hst]; simp) rfl (.inl rfl)
      ⟨mem_append_right _ (mem_singleton.2 rfl), .inl hdelay⟩ (fun _ => hf) (.inr rfl)
  | includeCkpt i =>
    obtain ⟨⟨hst, -⟩, rfl⟩ := guarded_eq_some.1 h
    have hok := hs.slot_of_state hst
    refine hs.setSlot ?_ (.inr ⟨by rw [hst]; simp, rfl⟩) fun g hg => hg
    dsimp only
    rw [hst]
    exact ⟨hok.1, .inr rfl⟩
  | release i =>
    obtain ⟨⟨hst, hinc⟩, rfl⟩ := guarded_eq_some.1 h
    have hok := hs.slot_of_state hst
    refine hs.setSlot ?_ (.inr ⟨by rw [hst]; simp, rfl⟩) fun g hg => hg
    dsimp only
    rw [hst]
    exact ⟨hok.1, .inr hinc⟩
  | insertForget i =>
    obtain ⟨⟨hst, hdelay⟩, rfl⟩ := guarded_eq_some.1 h
    have hok := hs.slot_of_state hst
    have hlast : .distributedForget (s.slots i).gxid ∈
        s.wal.records ++ [.distributedForget (s.slots i).gxid] :=
      mem_append_right _ (mem_singleton.2 rfl)
    exact hs.insertSlot (by rw [hst]; simp) rfl (.inr rfl)
      ⟨mem_append_left _ hok.1, hlast, hdelay⟩ (fun h => nomatch h) (.inl hlast)
  | excludeCkpt i =>
    obtain ⟨hst, rfl⟩ := guarded_eq_some.1 h
    have hok := hs.slot_of_state hst
    refine hs.setSlot ?_ (.inr ⟨by rw [hst]; simp, rfl⟩) fun g hg => ?_
    · unfold SlotOk
      rw [hst]
      exact hok
    · rw [Owns, hst] at hg
      cases hg.1
  | recoverForget =>
    simp only [DtxServer.step] at h
    split at h
    next gxid hget =>
      cases h
      have hmem : gxid ∈ s.shmCommittedGxidArray := mem_of_getElem? hget
      refine hs.insertRecord (by simp) ?_ rfl rfl rfl rfl fun j g hj hg => ?_
      · rintro g hg
        cases hg
        exact hs.array_committed _ hmem
      · rcases Nat.lt_succ_iff_lt_or_eq.1 hj with hlt | rfl
        · exact mem_append_left _ (hs.recover_done j g hlt hg)
        · rw [hget] at hg
          cases hg
          exact mem_append_right _ (mem_singleton.2 rfl)
    next => cases h
  | recoverRestart | ckptAbandon =>
    cases h
    exact hs.congr rfl rfl rfl rfl (by simp)
  | recoverDone =>
    obtain ⟨hidx, rfl⟩ := guarded_eq_some.1 h
    exact hs.recoverDone hidx
  | flush k =>
    rw [DtxServer.step] at h
    split_ifs at h
    cases h
    exact hs.congr rfl rfl rfl rfl le_rfl
  | ckptStart =>
    obtain ⟨-, rfl⟩ := guarded_eq_some.1 h
    exact hs.congr rfl rfl rfl rfl le_rfl
  | ckptStep => exact hs.ckptStep h
  | crash k => exact absurd rfl (he k)

end DtxServer

end Cloudberry.Dtm
