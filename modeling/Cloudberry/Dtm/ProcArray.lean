/-
# Published gxids and distributed snapshots

The coordinator's part of `src/backend/storage/ipc/procarray.c`. A backend
publishes the gxid of its global transaction in its `TMGXACT` slot
(`currentDtxActivate`, `src/backend/cdb/cdbtm.c`), clears it when the transaction
ends and then raises `latestCompletedGxid` (`ProcArrayEndGxact`). A distributed
snapshot is one pass over all slots under `ProcArrayLock`
(`CreateDistributedSnapshot`), sorted by `GetSnapshotData`.
-/

import Cloudberry.Dtm.DistributedSnapshot
import Cloudberry.Dtm.Gxid

namespace Cloudberry.Dtm

open Function DistributedSnapshot List

/-- The shared state of one backend's global transaction (`TMGXACT`). -/
structure TmGxact where
  gxid : ℕ
  atomicGxid : ℕ
  xminDistributedSnapshot : ℕ
  includeInCkpt : Bool
  deriving DecidableEq, Repr

def TmGxact.empty : TmGxact := ⟨0, 0, 0, false⟩

/-- The shared memory of the coordinator that snapshots read and write, for `n`
backends registered in the process array. -/
structure ProcArray (n : ℕ) where
  gen : GxidGen
  latestCompletedGxid : ℕ
  shmNumCommittedGxacts : ℕ
  shmNextSnapshotId : ℕ
  allTmGxact : Fin n → TmGxact

namespace ProcArray

variable {n : ℕ}

/-- What `StartupXLOG` leaves: `GxidCount` zero, `latestCompletedGxid = nextGxid`
(the retreat by one that follows is applied to `latestCompletedXid` only), no
published gxid, and the transactions crash recovery still has to finish. -/
def startupXLOG (nextGxid numCommitted : ℕ) : ProcArray n where
  gen := ⟨nextGxid, 0⟩
  latestCompletedGxid := nextGxid
  shmNumCommittedGxacts := numCommitted
  shmNextSnapshotId := 0
  allTmGxact := fun _ => TmGxact.empty

/-- `currentDtxActivate` once a gxid is available: publish it. -/
def currentDtxActivate (s : ProcArray n) (me : Fin n) : Option (ProcArray n) :=
  s.gen.take.map fun (gxid, gen) =>
    { s with
      gen := gen
      allTmGxact := update s.allTmGxact me
        { s.allTmGxact me with atomicGxid := gxid, gxid := gxid } }

/-- `ProcArrayEndGxact`: clear the slot, then remember the newest ended gxid. -/
def procArrayEndGxact (s : ProcArray n) (me : Fin n) : ProcArray n :=
  let gxid := (s.allTmGxact me).gxid
  { s with
    allTmGxact := update s.allTmGxact me TmGxact.empty
    latestCompletedGxid :=
      if gxid ≠ invalidDistributedTransactionId ∧ s.latestCompletedGxid < gxid then gxid
      else s.latestCompletedGxid }

end ProcArray

/-- The accumulators of the loop in `CreateDistributedSnapshot`. -/
structure SnapshotLoop where
  globalXmin : ℕ
  xmin : ℕ
  inProgress : List ℕ
  deriving DecidableEq, Repr

/-- `globalXminDistributedSnapshots` becomes the smallest valid `dxid`. -/
def SnapshotLoop.lowerGlobalXmin (acc : SnapshotLoop) (dxid : ℕ) : SnapshotLoop :=
  if dxid ≠ invalidDistributedTransactionId ∧ dxid < acc.globalXmin then
    { acc with globalXmin := dxid } else acc

/-- The part of an iteration that looks at the slot's gxid. The backend's own gxid
takes part in `xmin` but is not listed. -/
def SnapshotLoop.addGxid (acc : SnapshotLoop) (xmax : ℕ) (mine : Bool) (gxid : ℕ) : SnapshotLoop :=
  if gxid = invalidDistributedTransactionId ∨ xmax ≤ gxid then acc
  else
    let acc := if gxid < acc.xmin then { acc with xmin := gxid } else acc
    if mine then acc else { acc with inProgress := acc.inProgress ++ [gxid] }

/-- One iteration of that loop over the slot `cand`; `mine` when it is `MyTmGxact`. -/
def gatherGxact (xmax : ℕ) (mine : Bool) (acc : SnapshotLoop) (cand : TmGxact) : SnapshotLoop :=
  (acc.lowerGlobalXmin cand.xminDistributedSnapshot).addGxid xmax mine cand.atomicGxid

namespace SnapshotLoop

@[simp] theorem lowerGlobalXmin_xmin (acc : SnapshotLoop) (dxid : ℕ) :
    (acc.lowerGlobalXmin dxid).xmin = acc.xmin := by
  unfold lowerGlobalXmin
  split <;> rfl

@[simp] theorem lowerGlobalXmin_inProgress (acc : SnapshotLoop) (dxid : ℕ) :
    (acc.lowerGlobalXmin dxid).inProgress = acc.inProgress := by
  unfold lowerGlobalXmin
  split <;> rfl

theorem addGxid_skip {acc : SnapshotLoop} {xmax gxid : ℕ} {mine : Bool}
    (h : ¬ (gxid ≠ invalidDistributedTransactionId ∧ gxid < xmax)) :
    acc.addGxid xmax mine gxid = acc := by
  unfold addGxid
  exact if_pos (by omega)

theorem addGxid_count (acc : SnapshotLoop) (mine : Bool) {xmax gxid : ℕ}
    (h : gxid ≠ invalidDistributedTransactionId ∧ gxid < xmax) :
    (acc.addGxid xmax mine gxid).xmin = min acc.xmin gxid ∧
      (acc.addGxid xmax mine gxid).inProgress =
        if mine then acc.inProgress else acc.inProgress ++ [gxid] := by
  have hskip : ¬ (gxid = invalidDistributedTransactionId ∨ xmax ≤ gxid) := by omega
  unfold addGxid
  rw [if_neg hskip]
  split
  next hlt =>
    rw [min_eq_right hlt.le]
    cases mine <;> exact ⟨rfl, rfl⟩
  next hlt =>
    rw [min_eq_left (not_lt.1 hlt)]
    cases mine <;> exact ⟨rfl, rfl⟩

end SnapshotLoop

namespace ProcArray

variable {n : ℕ}

/-- The whole loop, in the order of the process array. -/
def gather (s : ProcArray n) (me : Fin n) : List (Fin n) → SnapshotLoop → SnapshotLoop
  | [], acc => acc
  | i :: is, acc =>
    s.gather me is (gatherGxact (s.latestCompletedGxid + 1) (i == me) acc (s.allTmGxact i))

variable (s : ProcArray n)

/-- `CreateDistributedSnapshot`, with the error it raises before DTM recovery is
over; it returns the snapshot and the shared memory it leaves. -/
def createDistributedSnapshot (me : Fin n) : Except String (DistributedSnapshot × ProcArray n) :=
  if s.shmNumCommittedGxacts ≠ 0 then
    .error "Create distributed snapshot before DTM recovery finish"
  else
    let xmax := s.latestCompletedGxid + 1
    let acc := s.gather me (finRange n) ⟨xmax, xmax, []⟩
    let distribSnapshotId := (s.shmNextSnapshotId + 1) % 2 ^ 32
    let globalXmin := if acc.xmin < acc.globalXmin then acc.xmin else acc.globalXmin
    let slot := s.allTmGxact me
    .ok (⟨globalXmin, distribSnapshotId, acc.xmin, xmax, acc.inProgress⟩, { s with
        shmNextSnapshotId := distribSnapshotId
        allTmGxact := update s.allTmGxact me
          (if slot.xminDistributedSnapshot = invalidDistributedTransactionId then
            { slot with xminDistributedSnapshot := acc.xmin } else slot) })

/-- `GetSnapshotData` on the coordinator: take the snapshot and sort its array. -/
def getSnapshotData (me : Fin n) : Except String (DistributedSnapshot × ProcArray n) :=
  match s.createDistributedSnapshot me with
  | .error e => .error e
  | .ok (ds, t) => .ok (ds.sortInProgress, t)

/-! ### What the pass over the slots collects -/

/-- The gxid of slot `i` counts for a snapshot: it is set and below `xmax`. -/
def Counts (i : Fin n) : Prop :=
  (s.allTmGxact i).atomicGxid ≠ invalidDistributedTransactionId ∧
    (s.allTmGxact i).atomicGxid < s.latestCompletedGxid + 1

instance (s : ProcArray n) (i : Fin n) : Decidable (s.Counts i) :=
  inferInstanceAs (Decidable (_ ∧ _))

/-- What holds of the accumulators `acc'` once the slots `is` have been visited
from `acc`. -/
structure Gathered (s : ProcArray n) (me : Fin n) (is : List (Fin n))
    (acc acc' : SnapshotLoop) : Prop where
  mem_inProgress : ∀ g, g ∈ acc'.inProgress ↔
    g ∈ acc.inProgress ∨ ∃ i ∈ is, i ≠ me ∧ s.Counts i ∧ (s.allTmGxact i).atomicGxid = g
  xmin_le : acc'.xmin ≤ acc.xmin
  xmin_le_slot : ∀ i ∈ is, s.Counts i → acc'.xmin ≤ (s.allTmGxact i).atomicGxid
  xmin_source : acc'.xmin = acc.xmin ∨ ∃ i ∈ is, s.Counts i ∧ acc'.xmin = (s.allTmGxact i).atomicGxid

theorem gatherGxact_spec (me i : Fin n) (acc : SnapshotLoop) : s.Gathered me [i] acc
      (gatherGxact (s.latestCompletedGxid + 1) (i == me) acc (s.allTmGxact i)) := by
  set acc₁ := acc.lowerGlobalXmin (s.allTmGxact i).xminDistributedSnapshot with hacc₁
  have hx : acc₁.xmin = acc.xmin := SnapshotLoop.lowerGlobalXmin_xmin _ _
  have hp : acc₁.inProgress = acc.inProgress := SnapshotLoop.lowerGlobalXmin_inProgress _ _
  rw [gatherGxact, ← hacc₁]
  by_cases hc : s.Counts i
  · obtain ⟨hxmin, hlist⟩ := SnapshotLoop.addGxid_count acc₁ (i == me) hc
    refine ⟨fun g => ?_, ?_, ?_, ?_⟩
    · rw [hlist, hp]
      by_cases hme : i = me
      · simp [hme]
      · simp [hme, hc, eq_comm (a := g)]
    · rw [hxmin, hx]
      exact min_le_left _ _
    · intro j hj _
      obtain rfl : j = i := by simpa using hj
      rw [hxmin]
      exact min_le_right _ _
    · rw [hxmin, hx]
      rcases le_total acc.xmin (s.allTmGxact i).atomicGxid with h | h
      · exact .inl (min_eq_left h)
      · exact .inr ⟨i, by simp, hc, min_eq_right h⟩
  · rw [SnapshotLoop.addGxid_skip hc]
    exact ⟨fun g => by simp [hp, hc], hx.le, by simp [hc], .inl hx⟩

theorem Gathered.cons {s : ProcArray n} {me i : Fin n} {is : List (Fin n)}
    {acc acc₁ acc₂ : SnapshotLoop} (h₁ : s.Gathered me [i] acc acc₁)
    (h₂ : s.Gathered me is acc₁ acc₂) : s.Gathered me (i :: is) acc acc₂ := by
  refine ⟨?_, h₂.xmin_le.trans h₁.xmin_le, ?_, ?_⟩
  · intro g
    rw [h₂.mem_inProgress, h₁.mem_inProgress]
    simp only [mem_cons, not_mem_nil, or_false, exists_eq_or_imp, exists_eq_left]
    tauto
  · intro j hj hc
    rcases mem_cons.1 hj with rfl | hj
    · exact h₂.xmin_le.trans (h₁.xmin_le_slot j (by simp) hc)
    · exact h₂.xmin_le_slot j hj hc
  · rcases h₂.xmin_source with h | ⟨j, hj, hc, h⟩
    · rcases h₁.xmin_source with h' | ⟨j, hj, hc, h'⟩
      · exact .inl (h.trans h')
      · obtain rfl : j = i := by simpa using hj
        exact .inr ⟨j, by simp, hc, h.trans h'⟩
    · exact .inr ⟨j, mem_cons_of_mem _ hj, hc, h⟩

/-- **The loop collects exactly the slots it visits.** -/
theorem gather_spec (me : Fin n) (is : List (Fin n)) (acc : SnapshotLoop) :
    s.Gathered me is acc (s.gather me is acc) := by
  induction is generalizing acc with
  | nil => exact ⟨by simp [gather], le_rfl, by simp, .inl rfl⟩
  | cons i is ih => exact (gatherGxact_spec s me i acc).cons (ih _)

/-- What a snapshot of `getSnapshotData` lists and compares with, and what is left
of the shared memory apart from the slot's own `xminDistributedSnapshot`. -/
structure Snapshotted (s : ProcArray n) (me : Fin n) (ds : DistributedSnapshot)
    (t : ProcArray n) : Prop where
  recovered : s.shmNumCommittedGxacts = 0
  wellFormed : ds.WellFormed
  xmax_eq : ds.xmax = s.latestCompletedGxid + 1
  mem_iff : ∀ g, g ∈ ds.inProgressXidArray ↔
    ∃ i, i ≠ me ∧ s.Counts i ∧ (s.allTmGxact i).atomicGxid = g
  xmin_le_xmax : ds.xmin ≤ ds.xmax
  xmin_le_slot : ∀ i, s.Counts i → ds.xmin ≤ (s.allTmGxact i).atomicGxid
  xmin_source : ds.xmin = ds.xmax ∨ ∃ i, s.Counts i ∧ ds.xmin = (s.allTmGxact i).atomicGxid
  gen_eq : t.gen = s.gen
  latest_eq : t.latestCompletedGxid = s.latestCompletedGxid
  gxid_eq : ∀ i, (t.allTmGxact i).gxid = (s.allTmGxact i).gxid
  atomicGxid_eq : ∀ i, (t.allTmGxact i).atomicGxid = (s.allTmGxact i).atomicGxid

/-- **Every snapshot lists exactly the other backends' gxids below `xmax`.** -/
theorem getSnapshotData_spec {s t : ProcArray n} {me : Fin n} {ds : DistributedSnapshot}
    (h : s.getSnapshotData me = .ok (ds, t)) : s.Snapshotted me ds t := by
  have hg := gather_spec s me (finRange n)
    ⟨s.latestCompletedGxid + 1, s.latestCompletedGxid + 1, []⟩
  unfold getSnapshotData createDistributedSnapshot at h
  by_cases hrec : s.shmNumCommittedGxacts = 0
  · simp only [hrec, ne_eq, not_true_eq_false, ↓reduceIte] at h
    set acc := s.gather me (finRange n)
      ⟨s.latestCompletedGxid + 1, s.latestCompletedGxid + 1, []⟩ with hacc
    obtain ⟨rfl, rfl⟩ := Prod.mk.inj (Except.ok.inj h)
    have hmem : ∀ g, g ∈ acc.inProgress ↔
        ∃ i, i ≠ me ∧ s.Counts i ∧ (s.allTmGxact i).atomicGxid = g := fun g => by
      simpa using hg.mem_inProgress g
    refine
      { recovered := hrec
        wellFormed := ⟨sortInProgress_sorted _, ?_, ?_, ?_⟩
        xmax_eq := by simp
        mem_iff := by simpa using hmem
        xmin_le_xmax := by simpa using hg.xmin_le
        xmin_le_slot := fun i hc => by simpa using hg.xmin_le_slot i (mem_finRange i) hc
        xmin_source := by simpa using hg.xmin_source
        gen_eq := rfl
        latest_eq := rfl
        gxid_eq := fun i => ?_
        atomicGxid_eq := fun i => ?_ }
    · simp only [mem_sortInProgress, sortInProgress_xmin]
      intro g hmemg
      obtain ⟨i, -, hc, rfl⟩ := (hmem g).1 hmemg
      exact hg.xmin_le_slot i (mem_finRange i) hc
    · simp only [mem_sortInProgress, sortInProgress_xmax]
      intro g hmemg
      obtain ⟨i, -, hc, rfl⟩ := (hmem g).1 hmemg
      exact hc.2
    · simp only [sortInProgress_xmin, sortInProgress_xminAll]
      split <;> omega
    · by_cases hi : i = me
      · subst hi
        simp only [update_self]
        split <;> rfl
      · simp [hi]
    · by_cases hi : i = me
      · subst hi
        simp only [update_self]
        split <;> rfl
      · simp [hi]
  · simp [hrec] at h

end ProcArray

end Cloudberry.Dtm
