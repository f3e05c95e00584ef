/-
# The distributed snapshot and its visibility rule

`DistributedSnapshot` (`src/include/cdb/cdbdistributedsnapshot.h`) says which
gxids a query sees as committed: everything below `xmin`, nothing from `xmax` on,
and in between everything that is not listed in `inProgressXidArray`. The test
itself is the tail of `DistributedSnapshotWithLocalMapping_CommittedTest`
(`src/backend/cdb/cdbdistributedsnapshot.c`), which walks the array and stops at
the first larger member; on a sorted array that walk is membership
(`scanInProgress_eq_true`).
-/

import Mathlib.Data.List.Sort

namespace Cloudberry.Dtm

open List

/-- The answers of the committed test (`DistributedSnapshotCommitted`). -/
inductive DistributedSnapshotCommitted where
  | inProgress
  | visible
  | ignore
  | unknown
  deriving DecidableEq, Repr

/-- A distributed snapshot; `ds->count` is the length of the array. -/
structure DistributedSnapshot where
  xminAllDistributedSnapshots : ℕ
  distribSnapshotId : ℕ
  xmin : ℕ
  xmax : ℕ
  inProgressXidArray : List ℕ
  deriving DecidableEq, Repr

/-- The loop over `inProgressXidArray`: found, or a larger member ends it. -/
def scanInProgress (distribXid : ℕ) : List ℕ → Bool
  | [] => false
  | x :: xs =>
    if distribXid = x then true
    else if distribXid < x then false
    else scanInProgress distribXid xs

/-- **On a sorted array the walk is membership.** Past the first larger member
nothing can be equal any more. -/
theorem scanInProgress_eq_true {distribXid : ℕ} {xs : List ℕ} (hs : xs.Pairwise (· ≤ ·)) :
    scanInProgress distribXid xs = true ↔ distribXid ∈ xs := by
  induction xs with
  | nil => simp [scanInProgress]
  | cons x xs ih =>
    obtain ⟨hx, hxs⟩ := pairwise_cons.1 hs
    unfold scanInProgress
    split
    next heq => simp [heq]
    next hne =>
      split
      next hlt =>
        have hnot : distribXid ∉ xs := fun hmem => by
          have := hx _ hmem
          omega
        simp [hne, hnot]
      next => simp [ih hxs, hne]

namespace DistributedSnapshot

/-- The comparisons with `xmin`, `xmax` and the array, in the order of the source. -/
def rangeTest (ds : DistributedSnapshot) (distribXid : ℕ) : DistributedSnapshotCommitted :=
  if distribXid < ds.xmin then .visible
  else if ds.xmax ≤ distribXid then .inProgress
  else if scanInProgress distribXid ds.inProgressXidArray then .inProgress
  else .visible

/-- The shape every snapshot taken on the coordinator has: a sorted array of
members of `[xmin, xmax)`, and no snapshot older than `xminAllDistributedSnapshots`. -/
structure WellFormed (ds : DistributedSnapshot) : Prop where
  sorted : ds.inProgressXidArray.Pairwise (· ≤ ·)
  member_ge : ∀ g ∈ ds.inProgressXidArray, ds.xmin ≤ g
  member_lt : ∀ g ∈ ds.inProgressXidArray, g < ds.xmax
  xminAll_le : ds.xminAllDistributedSnapshots ≤ ds.xmin

theorem rangeTest_eq_visible {ds : DistributedSnapshot} {g : ℕ}
    (hs : ds.inProgressXidArray.Pairwise (· ≤ ·)) :
    ds.rangeTest g = .visible ↔ g < ds.xmin ∨ (g < ds.xmax ∧ g ∉ ds.inProgressXidArray) := by
  have hscan : scanInProgress g ds.inProgressXidArray = true ↔ g ∈ ds.inProgressXidArray :=
    scanInProgress_eq_true hs
  unfold rangeTest
  split
  next hlt => simp [hlt]
  next hge =>
    split
    next hmax => simp [hge, Nat.not_lt.2 hmax]
    next hmax =>
      split
      next hin => simp [hge, hscan.1 hin]
      next hout => simp [hge, hscan.not.1 hout, Nat.lt_of_not_le hmax]

/-- The `qsort` of `GetSnapshotData`, done only when there is something to sort. -/
def sortInProgress (ds : DistributedSnapshot) : DistributedSnapshot :=
  { ds with
    inProgressXidArray :=
      if 1 < ds.inProgressXidArray.length then ds.inProgressXidArray.insertionSort (· ≤ ·)
      else ds.inProgressXidArray }

variable (ds : DistributedSnapshot)
include ds

@[simp] theorem sortInProgress_xmin : ds.sortInProgress.xmin = ds.xmin := rfl

@[simp] theorem sortInProgress_xmax : ds.sortInProgress.xmax = ds.xmax := rfl

@[simp] theorem sortInProgress_xminAll :
    ds.sortInProgress.xminAllDistributedSnapshots = ds.xminAllDistributedSnapshots := rfl

@[simp] theorem mem_sortInProgress (g : ℕ) :
    g ∈ ds.sortInProgress.inProgressXidArray ↔ g ∈ ds.inProgressXidArray := by
  unfold sortInProgress
  dsimp only
  split
  next => exact mem_insertionSort _
  next => exact Iff.rfl

theorem sortInProgress_sorted : ds.sortInProgress.inProgressXidArray.Pairwise (· ≤ ·) := by
  unfold sortInProgress
  dsimp only
  split
  next => exact pairwise_insertionSort _ _
  next hlen =>
    match ds.inProgressXidArray, hlen with
    | [], _ => exact Pairwise.nil
    | [x], _ => exact pairwise_singleton _ x
    | _ :: _ :: _, hlen => simp at hlen

end DistributedSnapshot

end Cloudberry.Dtm
