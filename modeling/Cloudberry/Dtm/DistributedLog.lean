/-
# The distributed log

Every segment keeps, for each local transaction that took part in a distributed one and
committed, the gxid of the latter (`distributedlog.c`). The log is a table over all local
transaction ids in which 0 means nothing recorded. Beside it is a horizon: transactions
before `oldestXmin` are visible to all distributed snapshots, and the log no longer answers
for them.
-/

import Cloudberry.Dtm.TransactionId

namespace Cloudberry.Dtm

/-- The entries of the log and `DistributedLogShared->oldestXmin`. -/
structure DistributedLog where
  entry : TransactionId → ℕ
  oldestXmin : TransactionId

namespace DistributedLog

/-- `DistributedLog_CommittedCheck`: the gxid recorded for a transaction, if any. The error
is a PANIC. -/
def committedCheck (log : DistributedLog) (localXid : TransactionId) : Except String (Option ℕ) :=
  if log.oldestXmin = invalidTransactionId then
    .error "DistributedLog's OldestXmin not initialized yet"
  else if transactionIdPrecedes localXid log.oldestXmin then .ok none
  else if log.entry localXid ≠ 0 then .ok (some (log.entry localXid))
  else .ok none

theorem entry_of_committedCheck {log : DistributedLog} {localXid : TransactionId} {gxid : ℕ}
    (h : log.committedCheck localXid = .ok (some gxid)) : log.entry localXid = gxid ∧ gxid ≠ 0 := by
  unfold committedCheck at h
  split_ifs at h with _ hprec hne
  · exact absurd (Except.ok.inj h) nofun
  · cases Except.ok.inj h
    exact ⟨rfl, hne⟩
  · exact absurd (Except.ok.inj h) nofun

theorem exists_committedCheck {log : DistributedLog} (hinit : log.oldestXmin ≠ invalidTransactionId)
    (localXid : TransactionId) : ∃ found, log.committedCheck localXid = .ok found := by
  rw [committedCheck, if_neg hinit]
  split_ifs
  · exact ⟨_, rfl⟩
  · exact ⟨_, rfl⟩
  · exact ⟨_, rfl⟩

/-- A committed transaction is recorded, as a table without pages has it. -/
def record (log : DistributedLog) (localXid : TransactionId) (gxid : ℕ) : DistributedLog :=
  { log with entry := fun x => if x = localXid then gxid else log.entry x }

theorem foldl_record (log : DistributedLog) (xids : List TransactionId) (gxid : ℕ) :
    xids.foldl (fun log x => log.record x gxid) log =
      { log with entry := fun x => if x ∈ xids then gxid else log.entry x } := by
  induction xids generalizing log with
  | nil => simp
  | cons y xids ih =>
    rw [List.foldl_cons, ih]
    refine congrArg (DistributedLog.mk · log.oldestXmin) (funext fun x => ?_)
    by_cases hx : x = y <;> simp [record, hx]

end DistributedLog

end Cloudberry.Dtm
