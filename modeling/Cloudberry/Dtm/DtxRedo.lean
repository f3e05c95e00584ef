/-
# Replaying distributed commit and forget records

During crash recovery the coordinator collects in `shmCommittedGxidArray` the global
transactions that were committed but not yet forgotten: first those a checkpoint lists
(`redoDtxCheckPoint`), then one by one those of the log
(`redoDistributedCommitRecord`, `redoDistributedForgetCommitRecord`, all in
`src/backend/cdb/cdbdtxrecovery.c`). The array has room for `max_tm_gxacts` entries;
one more is FATAL.
-/

import Mathlib.Data.Finset.Card
import Cloudberry.Lib.SwapRemove

namespace Cloudberry.Dtm

open List Finset

/-- The part of a checkpoint record that concerns global transactions: its REDO pointer
and `TMGXACT_CHECKPOINT`. -/
structure DtxCheckPoint where
  redo : ℕ
  committedGxidArray : List ℕ
  deriving DecidableEq, Repr

/-- The WAL records of the two-phase commit protocol. -/
inductive DtxRecord where
  | distributedCommit (gxid : ℕ)
  | distributedForget (gxid : ℕ)
  | checkpoint (c : DtxCheckPoint)
  deriving DecidableEq, Repr

def dumpCommittedGxids (array : List ℕ) : String :=
  String.join (array.zipIdx.map fun (gxid, j) => s!"shmCommittedGxactArray[{j}]: {gxid}\n")

/-- `redoDistributedCommitRecord`: known gxids are skipped, a full array is FATAL. -/
def redoDistributedCommitRecord (maxTmGxacts : ℕ) (array : List ℕ) (gxid : ℕ) :
    Except String (List ℕ) :=
  if gxid ∈ array then .ok array
  else if maxTmGxacts ≤ array.length then
    let dump := dumpCommittedGxids array
    let len := array.length
    .error s!"the limit of {maxTmGxacts} distributed transactions has been reached while adding gid = {gxid}. Committed gid array length: {len}, dump:\n{dump}"
  else .ok (array ++ [gxid])

/-- `redoDistributedForgetCommitRecord`: the last entry takes the place of the forgotten
one; an unknown gxid is only logged. -/
def redoDistributedForgetCommitRecord (array : List ℕ) (gxid : ℕ) : List ℕ :=
  if gxid ∈ array then array.swapRemove (array.idxOf gxid) else array

/-- `redoDtxCheckPoint`: the listed gxids one by one. -/
def redoDtxCheckPoint (maxTmGxacts : ℕ) : List ℕ → List ℕ → Except String (List ℕ)
  | array, [] => .ok array
  | array, gxid :: gxids =>
    match redoDistributedCommitRecord maxTmGxacts array gxid with
    | .error e => .error e
    | .ok array => redoDtxCheckPoint maxTmGxacts array gxids

/-- One record of the log. A checkpoint record met on the way is not replayed: only the
one recovery starts from is (`ReadCheckpointRecord`). -/
def redoDtxRecord (maxTmGxacts : ℕ) (array : Except String (List ℕ)) (r : DtxRecord) :
    Except String (List ℕ) :=
  match array, r with
  | .error e, _ => .error e
  | .ok array, .distributedCommit gxid => redoDistributedCommitRecord maxTmGxacts array gxid
  | .ok array, .distributedForget gxid => .ok (redoDistributedForgetCommitRecord array gxid)
  | .ok array, .checkpoint _ => .ok array

/-- The gxids committed in a stretch of the log. -/
def committedIn (rs : List DtxRecord) : Finset ℕ :=
  (rs.filterMap fun | .distributedCommit gxid => some gxid | _ => none).toFinset

/-- The gxids forgotten in a stretch of the log. -/
def forgottenIn (rs : List DtxRecord) : Finset ℕ :=
  (rs.filterMap fun | .distributedForget gxid => some gxid | _ => none).toFinset

/-- What a checkpoint and the log after it leave outstanding. -/
def outstanding (gxids : List ℕ) (rs : List DtxRecord) : Finset ℕ :=
  (gxids.toFinset ∪ committedIn rs) \ forgottenIn rs

variable {g : ℕ} {rs : List DtxRecord}

@[simp] theorem mem_committedIn : g ∈ committedIn rs ↔ .distributedCommit g ∈ rs := by
  rw [committedIn, List.mem_toFinset, List.mem_filterMap]
  constructor
  · rintro ⟨r, hr, heq⟩
    split at heq <;> simp_all
  · intro hr
    exact ⟨_, hr, rfl⟩

@[simp] theorem mem_forgottenIn : g ∈ forgottenIn rs ↔ .distributedForget g ∈ rs := by
  rw [forgottenIn, List.mem_toFinset, List.mem_filterMap]
  constructor
  · rintro ⟨r, hr, heq⟩
    split at heq <;> simp_all
  · intro hr
    exact ⟨_, hr, rfl⟩

variable {gxids : List ℕ}

@[simp] theorem mem_outstanding : g ∈ outstanding gxids rs ↔
      (g ∈ gxids ∨ .distributedCommit g ∈ rs) ∧ .distributedForget g ∉ rs := by
  simp [outstanding]

/-! ### The array as a set -/

/-- `array` lists the set `x`, each member once. -/
structure Lists (array : List ℕ) (x : Finset ℕ) : Prop where
  nodup : array.Nodup
  toFinset_eq : array.toFinset = x

variable {maxTmGxacts : ℕ} {array : List ℕ} {x : Finset ℕ}

theorem Lists.length_eq (h : Lists array x) : array.length = x.card := by
  rw [← h.toFinset_eq, toFinset_card_of_nodup h.nodup]

theorem Lists.mem_iff (h : Lists array x) : g ∈ array ↔ g ∈ x := by
  rw [← h.toFinset_eq, mem_toFinset]

theorem redoDistributedCommitRecord_spec (gxid : ℕ) (h : Lists array x) (hle : x.card ≤ maxTmGxacts) :
    (∀ a, redoDistributedCommitRecord maxTmGxacts array gxid = .ok a → Lists a (insert gxid x)) ∧
      ((∃ a, redoDistributedCommitRecord maxTmGxacts array gxid = .ok a) ↔
        (insert gxid x).card ≤ maxTmGxacts) := by
  have hlen := h.length_eq
  unfold redoDistributedCommitRecord
  split
  next hin =>
    have hx : insert gxid x = x := insert_eq_of_mem (h.mem_iff.1 hin)
    rw [hx]
    refine ⟨fun a ha => ?_, fun _ => hle, fun _ => ⟨array, rfl⟩⟩
    cases ha
    exact h
  next hout =>
    have hcard : (insert gxid x).card = x.card + 1 :=
      card_insert_of_notMem fun hx => hout (h.mem_iff.2 hx)
    split
    next hfull =>
      refine ⟨fun _ ha => (by cases ha), ?_, fun hroom => by omega⟩
      rintro ⟨a, ha⟩
      cases ha
    next hroom =>
      refine ⟨fun a ha => ?_, fun _ => by omega, fun _ => ⟨_, rfl⟩⟩
      cases ha
      refine ⟨?_, ?_⟩
      · rw [nodup_append]
        refine ⟨h.nodup, nodup_singleton _, ?_⟩
        rintro a ha b hb rfl
        exact hout ((List.mem_singleton.1 hb) ▸ ha)
      · rw [toFinset_append, h.toFinset_eq]
        ext g
        simp

theorem redoDistributedForgetCommitRecord_spec (gxid : ℕ) (h : Lists array x) :
    Lists (redoDistributedForgetCommitRecord array gxid) (x.erase gxid) := by
  unfold redoDistributedForgetCommitRecord
  split
  next hin =>
    have hperm := swapRemove_idxOf_perm hin
    refine ⟨hperm.nodup_iff.2 (h.nodup.erase _), ?_⟩
    ext g
    rw [mem_toFinset, hperm.mem_iff, h.nodup.mem_erase_iff, h.mem_iff, mem_erase]
  next hout =>
    refine ⟨h.nodup, ?_⟩
    rw [h.toFinset_eq, erase_eq_of_notMem]
    exact fun hx => hout (h.mem_iff.2 hx)

theorem redoDtxCheckPoint_spec (gxids : List ℕ) (h : Lists array x) (hle : x.card ≤ maxTmGxacts) :
    (∀ a, redoDtxCheckPoint maxTmGxacts array gxids = .ok a → Lists a (x ∪ gxids.toFinset)) ∧
      ((∃ a, redoDtxCheckPoint maxTmGxacts array gxids = .ok a) ↔
        (x ∪ gxids.toFinset).card ≤ maxTmGxacts) := by
  induction gxids generalizing array x with
  | nil =>
    simp only [toFinset_nil, union_empty]
    refine ⟨fun a ha => ?_, fun _ => hle, fun _ => ⟨array, rfl⟩⟩
    cases ha
    exact h
  | cons gxid gxids ih =>
    have hstep := redoDistributedCommitRecord_spec gxid h hle
    have hx : x ∪ (gxid :: gxids).toFinset = insert gxid x ∪ gxids.toFinset := by
      ext g
      simp only [toFinset_cons, mem_union, mem_insert]
      tauto
    rw [hx]
    cases hone : redoDistributedCommitRecord maxTmGxacts array gxid with
    | error e =>
      have hbig : ¬ (insert gxid x).card ≤ maxTmGxacts := fun hroom => by
        obtain ⟨a, ha⟩ := hstep.2.2 hroom
        rw [hone] at ha
        cases ha
      have hmono : (insert gxid x).card ≤ (insert gxid x ∪ gxids.toFinset).card :=
        card_le_card subset_union_left
      simp only [redoDtxCheckPoint, hone]
      refine ⟨fun _ ha => (by cases ha), ?_, fun hroom => by omega⟩
      rintro ⟨a, ha⟩
      cases ha
    | ok a =>
      simp only [redoDtxCheckPoint, hone]
      exact ih (hstep.1 a hone) (hstep.2.1 ⟨a, hone⟩)

/-! ### A whole stretch of the log -/

/-- In `rs` no gxid is committed after it was forgotten: gxids are not reused. -/
def CommitsFresh (rs : List DtxRecord) : Prop :=
  ∀ before g after, rs = before ++ .distributedCommit g :: after → .distributedForget g ∉ before

theorem CommitsFresh.of_append {rs rs' : List DtxRecord} (h : CommitsFresh (rs ++ rs')) :
    CommitsFresh rs := by
  rintro before g after rfl
  exact h before g (after ++ rs') (by simp)

theorem CommitsFresh.concat {r : DtxRecord} (h : CommitsFresh rs)
    (hr : ∀ g, r = .distributedCommit g → .distributedForget g ∉ rs) :
    CommitsFresh (rs ++ [r]) := by
  intro before g after heq
  rcases eq_nil_or_concat after with rfl | ⟨after, z, rfl⟩
  · obtain ⟨rfl, hlast⟩ := append_inj' heq rfl
    exact hr g (singleton_inj.1 hlast)
  · rw [concat_eq_append, ← cons_append, ← append_assoc] at heq
    obtain ⟨rfl, -⟩ := append_inj' heq rfl
    exact h before g after rfl

theorem CommitsFresh.window (h : CommitsFresh rs) (redo k : ℕ) :
    CommitsFresh ((rs.take k).drop redo) := by
  intro before g after heq
  have hsplit : rs = (rs.take k).take redo ++ before ++
      .distributedCommit g :: (after ++ rs.drop k) := by
    conv_lhs => rw [← take_append_drop k rs, ← take_append_drop redo (rs.take k), heq]
    simp
  have hnot := h _ g _ hsplit
  exact fun hmem => hnot (mem_append_right _ hmem)

theorem outstanding_concat_commit (hfresh : .distributedForget g ∉ rs) :
    outstanding gxids (rs ++ [.distributedCommit g]) = insert g (outstanding gxids rs) := by
  ext y
  simp only [mem_outstanding, mem_insert, List.mem_append, List.mem_singleton,
    DtxRecord.distributedCommit.injEq, reduceCtorEq, or_false]
  constructor
  · rintro ⟨hy | hy | rfl, hn⟩
    · exact .inr ⟨.inl hy, hn⟩
    · exact .inr ⟨.inr hy, hn⟩
    · exact .inl rfl
  · rintro (rfl | ⟨hy | hy, hn⟩)
    · exact ⟨.inr (.inr rfl), hfresh⟩
    · exact ⟨.inl hy, hn⟩
    · exact ⟨.inr (.inl hy), hn⟩

theorem outstanding_concat_forget :
    outstanding gxids (rs ++ [.distributedForget g]) = (outstanding gxids rs).erase g := by
  ext y
  simp only [mem_outstanding, mem_erase, List.mem_append, List.mem_singleton,
    DtxRecord.distributedForget.injEq, reduceCtorEq, or_false]
  tauto

theorem outstanding_concat_checkpoint {c : DtxCheckPoint} :
    outstanding gxids (rs ++ [.checkpoint c]) = outstanding gxids rs := by
  ext y
  simp

theorem forall_take_concat {r : DtxRecord} {P : List DtxRecord → Prop} :
    (∀ j ≤ (rs ++ [r]).length, P ((rs ++ [r]).take j)) ↔
      (∀ j ≤ rs.length, P (rs.take j)) ∧ P (rs ++ [r]) := by
  constructor
  · intro h
    refine ⟨fun j hj => ?_, ?_⟩
    · have := h j (by simp; omega)
      rwa [take_append_of_le_length hj] at this
    · have := h _ le_rfl
      rwa [take_length] at this
  · rintro ⟨hold, _⟩ j hj
    rcases Nat.lt_or_ge rs.length j with hlt | hge
    · rwa [take_of_length_le (by simp; omega)]
    · rw [take_append_of_le_length hge]
      exact hold j hge

/-- **Replay computes the outstanding set, as long as it fits.** From a checkpoint
listing `gxids` and the records `rs` after its REDO pointer, replay ends with an array
that lists `outstanding gxids rs`; and it goes through exactly if at no position the
outstanding set has more than `max_tm_gxacts` members. -/
theorem redo_spec (maxTmGxacts : ℕ) (gxids : List ℕ) (rs : List DtxRecord)
    (hfresh : CommitsFresh rs) :
    (∀ a, rs.foldl (redoDtxRecord maxTmGxacts) (redoDtxCheckPoint maxTmGxacts [] gxids) = .ok a →
        Lists a (outstanding gxids rs)) ∧
      ((∃ a, rs.foldl (redoDtxRecord maxTmGxacts) (redoDtxCheckPoint maxTmGxacts [] gxids) = .ok a) ↔
        ∀ j ≤ rs.length, (outstanding gxids (rs.take j)).card ≤ maxTmGxacts) := by
  induction rs using reverseRecOn with
  | nil =>
    have hempty : outstanding gxids [] = ∅ ∪ gxids.toFinset := by
      ext g
      simp
    have hload := redoDtxCheckPoint_spec gxids (⟨nodup_nil, rfl⟩ : Lists [] ∅)
      (Nat.zero_le maxTmGxacts)
    rw [hempty]
    simpa [hempty] using hload
  | append_singleton rs r ih =>
    obtain ⟨hlists, hfits⟩ := ih hfresh.of_append
    rw [forall_take_concat (P := fun l => (outstanding gxids l).card ≤ maxTmGxacts),
      foldl_append, foldl_cons, foldl_nil]
    cases hrun : rs.foldl (redoDtxRecord maxTmGxacts) (redoDtxCheckPoint maxTmGxacts [] gxids) with
    | error e =>
      -- FATAL before this record already
      have hnot : ¬ ∀ j ≤ rs.length, (outstanding gxids (rs.take j)).card ≤ maxTmGxacts :=
        fun hall => by
          obtain ⟨a, ha⟩ := hfits.2 hall
          rw [hrun] at ha
          cases ha
      refine ⟨fun _ ha => (nomatch ha), fun ⟨_, ha⟩ => (nomatch ha), fun h => absurd h.1 hnot⟩
    | ok array =>
      have hlist := hlists array hrun
      have hall := hfits.1 ⟨array, hrun⟩
      have hcard : (outstanding gxids rs).card ≤ maxTmGxacts := by
        have := hall rs.length le_rfl
        rwa [take_length] at this
      cases r with
      | distributedCommit g =>
        have hout : .distributedForget g ∉ rs := hfresh rs g [] rfl
        have hone := redoDistributedCommitRecord_spec g hlist hcard
        rw [← outstanding_concat_commit hout] at hone
        exact ⟨hone.1, fun h => ⟨hall, hone.2.1 h⟩, fun h => hone.2.2 h.2⟩
      | distributedForget g =>
        have hone := redoDistributedForgetCommitRecord_spec g hlist
        rw [← outstanding_concat_forget] at hone
        refine ⟨fun a ha => ?_, fun _ => ⟨hall, ?_⟩, fun _ => ⟨_, rfl⟩⟩
        · cases ha
          exact hone
        · rw [outstanding_concat_forget]
          exact (card_erase_le).trans hcard
      | checkpoint c =>
        rw [outstanding_concat_checkpoint]
        refine ⟨fun a ha => ?_, fun _ => ⟨hall, hcard⟩, fun _ => ⟨_, rfl⟩⟩
        cases ha
        exact hlist

end Cloudberry.Dtm
