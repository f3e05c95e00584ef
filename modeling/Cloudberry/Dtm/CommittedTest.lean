/-
# The committed test and its caches

`DistributedSnapshotWithLocalMapping_CommittedTest` (`cdbdistributedsnapshot.c`) decides whether a
local transaction counts as committed for a distributed snapshot. Three caches stand before the
decision.

`uncachedRule` is the decision without them. Over any run of tests they do not change it
(`committedTest_transparent`), by two invariants: a local xid remembered as in progress has a
gxid of the snapshot's array in the log (`MappingOk`), and the process-local cache repeats the
log (`CacheOk`).
-/

import Cloudberry.Dtm.DistributedSnapshot
import Cloudberry.Dtm.LocalDistribXactCache
import Cloudberry.Lib.Machine

namespace Cloudberry.Dtm

open List Machine DistributedLog LocalDistribXactCache

/-- The part of `DistributedSnapshotWithLocalMapping` behind the snapshot:
`inProgressMappedLocalXids`, of which `currentLocalXidsCount` is the length. -/
structure LocalMapping where
  inProgressMappedLocalXids : List TransactionId
  minCachedLocalXid : TransactionId
  maxCachedLocalXid : TransactionId
  deriving DecidableEq, Repr

namespace LocalMapping

/-- `SnapshotResetDslm` (`procarray.c`). -/
def reset : LocalMapping :=
  { inProgressMappedLocalXids := []
    minCachedLocalXid := invalidTransactionId
    maxCachedLocalXid := invalidTransactionId }

/-- The first look: is the local xid known to be in progress? -/
def knownInProgress (dslm : LocalMapping) (localXid : TransactionId) : Bool :=
  if 0 < dslm.inProgressMappedLocalXids.length then
    if localXid = dslm.minCachedLocalXid ∨ localXid = dslm.maxCachedLocalXid then true
    else if transactionIdFollows localXid dslm.minCachedLocalXid &&
        transactionIdPrecedes localXid dslm.maxCachedLocalXid then
      dslm.inProgressMappedLocalXids.contains localXid
    else false
  else false

/-- Remember that a local xid is in progress, as long as there is room for `count`. -/
def add (dslm : LocalMapping) (count : ℕ) (localXid : TransactionId) : LocalMapping :=
  if dslm.inProgressMappedLocalXids.length < count then
    { inProgressMappedLocalXids := dslm.inProgressMappedLocalXids ++ [localXid]
      minCachedLocalXid := if dslm.minCachedLocalXid = invalidTransactionId ∨
            transactionIdPrecedes localXid dslm.minCachedLocalXid = true then localXid
        else dslm.minCachedLocalXid
      maxCachedLocalXid := if dslm.maxCachedLocalXid = invalidTransactionId ∨
            transactionIdFollows localXid dslm.maxCachedLocalXid = true then localXid
        else dslm.maxCachedLocalXid }
  else dslm

end LocalMapping

section

variable (ds : DistributedSnapshot)

/-- `DistributedSnapshotWithLocalMapping_CommittedTest`: the answer, and the caches after. -/
def committedTest (maxCache : ℕ) (log : DistributedLog)
    (dslm : LocalMapping) (cache : LocalDistribXactCache) (localXid : TransactionId)
    (isVacuumCheck : Bool) :
    Except String (DistributedSnapshotCommitted × LocalMapping × LocalDistribXactCache) :=
  if !transactionIdIsNormal localXid then .ok (.ignore, dslm, cache)
  else if dslm.knownInProgress localXid then .ok (.inProgress, dslm, cache)
  else
    match lookup maxCache log cache localXid with
    | .error e => .error e
    | .ok (none, cache) => .ok (.unknown, dslm, cache)
    | .ok (some distribXid, cache) =>
      if distribXid < ds.xminAllDistributedSnapshots then .ok (.ignore, dslm, cache)
      else if isVacuumCheck then .ok (.inProgress, dslm, cache)
      else if distribXid < ds.xmin then .ok (.visible, dslm, cache)
      else if ds.xmax ≤ distribXid then .ok (.inProgress, dslm, cache)
      else if scanInProgress distribXid ds.inProgressXidArray then
        .ok (.inProgress, dslm.add ds.inProgressXidArray.length localXid, cache)
      else .ok (.visible, dslm, cache)

/-- What the test is for: how a snapshot sees the distributed transaction `distribXid`. -/
def uncachedRule (distribXid : ℕ) (isVacuumCheck : Bool) : DistributedSnapshotCommitted :=
  if distribXid < ds.xminAllDistributedSnapshots then .ignore
  else if isVacuumCheck then .inProgress
  else if distribXid < ds.xmin then .visible
  else if ds.xmax ≤ distribXid then .inProgress
  else if distribXid ∈ ds.inProgressXidArray then .inProgress
  else .visible

/-- Every local xid remembered as in progress has a gxid of the snapshot's array in the log. -/
structure MappingOk (entry : TransactionId → ℕ) (dslm : LocalMapping) : Prop where
  length_le : dslm.inProgressMappedLocalXids.length ≤ ds.inProgressXidArray.length
  mem : ∀ xid ∈ dslm.inProgressMappedLocalXids, entry xid ≠ 0 ∧ entry xid ∈ ds.inProgressXidArray
  min_mem : dslm.inProgressMappedLocalXids ≠ [] →
    dslm.minCachedLocalXid ∈ dslm.inProgressMappedLocalXids
  max_mem : dslm.inProgressMappedLocalXids ≠ [] →
    dslm.maxCachedLocalXid ∈ dslm.inProgressMappedLocalXids
  min_nil : dslm.inProgressMappedLocalXids = [] → dslm.minCachedLocalXid = invalidTransactionId
  max_nil : dslm.inProgressMappedLocalXids = [] → dslm.maxCachedLocalXid = invalidTransactionId

end

namespace MappingOk

variable {ds : DistributedSnapshot} {entry : TransactionId → ℕ} {dslm : LocalMapping}
  {localXid : TransactionId}

theorem reset (ds : DistributedSnapshot) (entry : TransactionId → ℕ) :
    MappingOk ds entry LocalMapping.reset := by
  constructor <;> simp [LocalMapping.reset]

theorem mem_of_knownInProgress (h : MappingOk ds entry dslm)
    (hknown : dslm.knownInProgress localXid = true) :
    localXid ∈ dslm.inProgressMappedLocalXids := by
  unfold LocalMapping.knownInProgress at hknown
  split_ifs at hknown with hlen heq hbetween
  · have hne : dslm.inProgressMappedLocalXids ≠ [] := length_pos_iff.1 hlen
    rcases heq with rfl | rfl
    · exact h.min_mem hne
    · exact h.max_mem hne
  · exact contains_iff_mem.1 hknown

theorem add (h : MappingOk ds entry dslm)
    (hin : entry localXid ≠ 0 ∧ entry localXid ∈ ds.inProgressXidArray) :
    MappingOk ds entry (dslm.add ds.inProgressXidArray.length localXid) := by
  by_cases hroom : dslm.inProgressMappedLocalXids.length < ds.inProgressXidArray.length
  · rw [LocalMapping.add, if_pos hroom]
    have hlast : localXid ∈ dslm.inProgressMappedLocalXids ++ [localXid] := by simp
    -- an old smallest or largest xid is a member, or there was none
    have hkeep : ∀ xid, (dslm.inProgressMappedLocalXids ≠ [] →
          xid ∈ dslm.inProgressMappedLocalXids) →
        (dslm.inProgressMappedLocalXids = [] → xid = invalidTransactionId) →
        ∀ p : Prop, [Decidable p] → (if xid = invalidTransactionId ∨ p then localXid else xid) ∈
          dslm.inProgressMappedLocalXids ++ [localXid] := by
      intro xid hmem hnil p _
      split_ifs with hnew
      · exact hlast
      · rw [not_or] at hnew
        exact mem_append_left _ (hmem fun heq => hnew.1 (hnil heq))
    refine ⟨?_, ?_, fun _ => hkeep _ h.min_mem h.min_nil _, fun _ => hkeep _ h.max_mem h.max_nil _,
      by simp, by simp⟩
    · rw [length_append, length_singleton]
      omega
    intro xid hxid
    rcases mem_append.1 hxid with hold | hnew
    · exact h.mem xid hold
    · rw [mem_singleton.1 hnew]
      exact hin
  · rw [LocalMapping.add, if_neg hroom]
    exact h

end MappingOk

variable {ds : DistributedSnapshot} {distribXid : ℕ}

theorem uncachedRule_of_mem (hds : ds.WellFormed) (hmem : distribXid ∈ ds.inProgressXidArray)
    (isVacuumCheck : Bool) : uncachedRule ds distribXid isVacuumCheck = .inProgress := by
  have hge := hds.member_ge distribXid hmem
  have hall := hds.xminAll_le
  have hlt := hds.member_lt distribXid hmem
  have h₁ : ¬ distribXid < ds.xminAllDistributedSnapshots := by omega
  have h₂ : ¬ distribXid < ds.xmin := by omega
  have h₃ : ¬ ds.xmax ≤ distribXid := by omega
  simp [uncachedRule, h₁, h₂, h₃, hmem]

variable {log : DistributedLog}

/-- The decision of the test once the gxid is known: the uncached rule, and an xid is
remembered only if its gxid is in the snapshot's array. -/
theorem committedTest_of_lookup (hds : ds.WellFormed) {maxCache : ℕ} {dslm : LocalMapping}
    {cache cache' : LocalDistribXactCache} {localXid : TransactionId}
    (hnormal : transactionIdIsNormal localXid = true)
    (hknown : ¬ dslm.knownInProgress localXid = true)
    (hlookup : lookup maxCache log cache localXid = .ok (some distribXid, cache'))
    (isVacuumCheck : Bool) :
    ∃ dslm', committedTest ds maxCache log dslm cache localXid isVacuumCheck =
        .ok (uncachedRule ds distribXid isVacuumCheck, dslm', cache') ∧
      (dslm' = dslm ∨ distribXid ∈ ds.inProgressXidArray ∧
        dslm' = dslm.add ds.inProgressXidArray.length localXid) := by
  have hscan : scanInProgress distribXid ds.inProgressXidArray = true ↔
      distribXid ∈ ds.inProgressXidArray := scanInProgress_eq_true hds.sorted
  simp only [committedTest, hnormal, hknown, hlookup, uncachedRule, hscan]
  simp only [Bool.not_true, Bool.false_eq_true, if_false]
  split_ifs with h₁ h₂ h₃ h₄ h₅
  · exact ⟨_, rfl, Or.inl rfl⟩
  · exact ⟨_, rfl, Or.inl rfl⟩
  · exact ⟨_, rfl, Or.inl rfl⟩
  · exact ⟨_, rfl, Or.inl rfl⟩
  · exact ⟨_, rfl, Or.inr ⟨h₅, rfl⟩⟩
  · exact ⟨_, rfl, Or.inl rfl⟩

/-- **One test.** It keeps both invariants, does not fail if the log can be asked, and
answers by the uncached rule for a transaction the log answers for. -/
theorem committedTest_spec (hds : ds.WellFormed) (maxCache : ℕ) {dslm : LocalMapping}
    {cache : LocalDistribXactCache} (hmap : MappingOk ds log.entry dslm)
    (hcache : CacheOk log.entry cache) {localXid : TransactionId} {found : Option ℕ}
    (hcheck : log.committedCheck localXid = .ok found) (isVacuumCheck : Bool) :
    ∃ answer dslm' cache', committedTest ds maxCache log dslm cache localXid isVacuumCheck =
        .ok (answer, dslm', cache') ∧
      MappingOk ds log.entry dslm' ∧ CacheOk log.entry cache' ∧
      (transactionIdIsNormal localXid = true → ∀ gxid, found = some gxid →
        answer = uncachedRule ds gxid isVacuumCheck) := by
  by_cases hnormal : transactionIdIsNormal localXid = true
  swap
  · exact ⟨.ignore, dslm, cache, by simp [committedTest, hnormal], hmap, hcache,
      fun h => absurd h hnormal⟩
  by_cases hknown : dslm.knownInProgress localXid = true
  · refine ⟨.inProgress, dslm, cache, by simp [committedTest, hnormal, hknown], hmap, hcache, ?_⟩
    rintro - gxid rfl
    have hin := (hmap.mem localXid (hmap.mem_of_knownInProgress hknown)).2
    rw [(entry_of_committedCheck hcheck).1] at hin
    exact (uncachedRule_of_mem hds hin isVacuumCheck).symm
  obtain ⟨found', cache', hlookup, hcache', hentry, hfound⟩ := lookup_spec maxCache hcache hcheck
  match found' with
  | none =>
    refine ⟨.unknown, dslm, cache', by simp [committedTest, hnormal, hknown, hlookup], hmap, hcache',
      fun _ gxid heq => absurd (hfound gxid heq) nofun⟩
  | some distribXid =>
    obtain ⟨dslm', htest, hdslm'⟩ := committedTest_of_lookup hds hnormal hknown hlookup
      isVacuumCheck
    refine ⟨_, dslm', cache', htest, ?_, hcache', fun _ gxid heq => ?_⟩
    · obtain ⟨hgxid, hne⟩ := hentry distribXid rfl
      rcases hdslm' with rfl | ⟨hin, rfl⟩
      · exact hmap
      · rw [← hgxid] at hin hne
        exact hmap.add ⟨hne, hin⟩
    · rw [Option.some.inj (hfound gxid heq)]

/-! ### Runs -/

/-- The log of a segment and the caches of one backend in it. -/
structure VisibilityState where
  log : DistributedLog
  dslm : LocalMapping
  cache : LocalDistribXactCache

/-- What can happen: some transaction is recorded in the log, the log's horizon moves, or the
backend tests a local xid. -/
inductive VisibilityEvent where
  | setCommitted (localXid : TransactionId) (distribXid : ℕ)
  | advance (oldestXmin : TransactionId)
  | test (localXid : TransactionId) (isVacuumCheck : Bool)
  deriving DecidableEq, Repr

/-- One event. An entry of the log never changes once it is set; the horizon is never
invalid again once it is initialised. -/
def visibilityStep (ds : DistributedSnapshot) (maxCache : ℕ) (s : VisibilityState) :
    VisibilityEvent → Option VisibilityState
  | .setCommitted localXid distribXid =>
    if s.log.entry localXid = 0 then some { s with log := s.log.record localXid distribXid }
    else none
  | .advance oldestXmin =>
    if oldestXmin ≠ invalidTransactionId then
      some { s with log := { s.log with oldestXmin := oldestXmin } }
    else none
  | .test localXid isVacuumCheck =>
    match committedTest ds maxCache s.log s.dslm s.cache localXid isVacuumCheck with
    | .ok (_, dslm, cache) => some { s with dslm := dslm, cache := cache }
    | .error _ => none

structure VisibilityOk (ds : DistributedSnapshot) (s : VisibilityState) : Prop where
  mapping : MappingOk ds s.log.entry s.dslm
  cache : CacheOk s.log.entry s.cache
  initialized : s.log.oldestXmin ≠ invalidTransactionId

theorem entry_record_of_ne_zero {localXid xid : TransactionId} (hnew : log.entry localXid = 0)
    (hset : log.entry xid ≠ 0) : (log.record localXid distribXid).entry xid = log.entry xid := by
  have hne : xid ≠ localXid := by
    rintro rfl
    exact hset hnew
  simp [record, hne]

theorem VisibilityOk.step (hds : ds.WellFormed) {maxCache : ℕ} (s : VisibilityState)
    (e : VisibilityEvent) (t : VisibilityState) (hs : VisibilityOk ds s)
    (h : visibilityStep ds maxCache s e = some t) : VisibilityOk ds t := by
  match e with
  | .setCommitted localXid distribXid =>
    obtain ⟨hnew, rfl⟩ := guarded_eq_some.1 h
    refine ⟨{ hs.mapping with mem := fun xid hxid => ?_ },
      ⟨hs.cache.consistent, fun c hc e he => ?_⟩, hs.initialized⟩
    · obtain ⟨hne, hin⟩ := hs.mapping.mem xid hxid
      rw [entry_record_of_ne_zero hnew hne]
      exact ⟨hne, hin⟩
    · obtain ⟨heq, hne⟩ := hs.cache.agrees c hc e he
      rw [entry_record_of_ne_zero hnew (by rwa [heq])]
      exact ⟨heq, hne⟩
  | .advance oldestXmin =>
    obtain ⟨hvalid, rfl⟩ := guarded_eq_some.1 h
    exact ⟨hs.mapping, hs.cache, hvalid⟩
  | .test localXid isVacuumCheck =>
    obtain ⟨_, hcheck⟩ := exists_committedCheck hs.initialized localXid
    obtain ⟨answer, dslm', cache', htest, hmap, hcache, -⟩ :=
      committedTest_spec hds maxCache hs.mapping hs.cache hcheck isVacuumCheck
    rw [visibilityStep, htest] at h
    cases h
    exact ⟨hmap, hcache, hs.initialized⟩

/-- **The caches are transparent.**  Take a well-formed snapshot with a fresh mapping, a log
whose horizon is initialised and a process-local cache of any size that agrees with the log.
After any events: no test fails; a test of a normal xid for which the log has an answer gives
the uncached one; the mapped xids are no more than the snapshot's array; and the counter of
the cache is the number of its hash entries and of its list members. -/
theorem committedTest_transparent {ds : DistributedSnapshot} (hds : ds.WellFormed) (maxCache : ℕ)
    {s₀ s : VisibilityState} (hcache : CacheOk s₀.log.entry s₀.cache)
    (hdslm : s₀.dslm = LocalMapping.reset) (hinit : s₀.log.oldestXmin ≠ invalidTransactionId)
    {events : List VisibilityEvent}
    (hrun : Machine.run (visibilityStep ds maxCache) s₀ events = some s) :
    (∀ localXid isVacuumCheck, ∃ answer dslm cache,
      committedTest ds maxCache s.log s.dslm s.cache localXid isVacuumCheck =
        .ok (answer, dslm, cache) ∧
      (transactionIdIsNormal localXid = true → ∀ distribXid,
        s.log.committedCheck localXid = .ok (some distribXid) →
        answer = uncachedRule ds distribXid isVacuumCheck)) ∧
    s.dslm.inProgressMappedLocalXids.length ≤ ds.inProgressXidArray.length ∧
    ∀ c, s.cache = some c → c.count = c.hash.length ∧ c.count = c.lru.length := by
  have hs₀ : VisibilityOk ds s₀ := ⟨hdslm ▸ MappingOk.reset ds _, hcache, hinit⟩
  have hs : VisibilityOk ds s := run_invariant (VisibilityOk.step hds) hs₀ hrun
  refine ⟨fun localXid isVacuumCheck => ?_, hs.mapping.length_le, fun c hc => ?_⟩
  · obtain ⟨_, hcheck⟩ := exists_committedCheck hs.initialized localXid
    obtain ⟨answer, dslm, cache, htest, -, -, hanswer⟩ :=
      committedTest_spec hds maxCache hs.mapping hs.cache hcheck isVacuumCheck
    refine ⟨answer, dslm, cache, htest, fun hnormal distribXid hfound => ?_⟩
    rw [hcheck] at hfound
    exact hanswer hnormal distribXid (Except.ok.inj hfound)
  · exact ⟨(hs.cache.consistent c hc).count_hash, (hs.cache.consistent c hc).count_eq⟩

/-- A snapshot with two transactions in progress. -/
def snapshotInstance : DistributedSnapshot :=
  { xminAllDistributedSnapshots := 5
    distribSnapshotId := 1
    xmin := 10
    xmax := 20
    inProgressXidArray := [12, 15] }

theorem snapshotInstance_wellFormed : snapshotInstance.WellFormed := by
  constructor <;> decide

/-- Nothing recorded, no cache yet. -/
def visibilityStart : VisibilityState :=
  { log := { entry := fun _ => 0, oldestXmin := 3 }
    dslm := LocalMapping.reset
    cache := none }

/-- Tests of three transactions with a cache of one entry, so that it is evicted every time. -/
def visibilityEvents : List VisibilityEvent :=
  [.setCommitted 100 12, .setCommitted 101 15, .setCommitted 4294967295 11, .test 101 false,
    .test 4294967295 false, .test 100 false, .advance 90, .test 4294967295 true]

/-- The hypotheses of `committedTest_transparent` are satisfiable: after a run in which the
array, the smallest and largest xid and the process-local cache have all been used, the test
of a remembered xid gives what the rule says of its gxid. -/
theorem caches_in_use_transparent :
    ∃ s dslm cache, Machine.run (visibilityStep snapshotInstance 1) visibilityStart
        visibilityEvents = some s ∧
      s.dslm.inProgressMappedLocalXids = [101, 100] ∧
      committedTest snapshotInstance 1 s.log s.dslm s.cache 101 false =
        .ok (uncachedRule snapshotInstance 15 false, dslm, cache) := by
  have heval : (run (visibilityStep snapshotInstance 1) visibilityStart
      visibilityEvents).map (fun s => decide (s.dslm.inProgressMappedLocalXids = [101, 100] ∧
        s.log.committedCheck 101 = .ok (some 15))) = some true := by
    decide +kernel
  obtain ⟨s, hrun, hs⟩ := Option.map_eq_some_iff.1 heval
  obtain ⟨hmapped, hcheck⟩ := of_decide_eq_true hs
  obtain ⟨htest, -, -⟩ := committedTest_transparent snapshotInstance_wellFormed 1
    (CacheOk.notMade _) rfl (by decide) hrun
  obtain ⟨_, dslm, cache, hanswer, hrule⟩ := htest 101 false
  refine ⟨s, dslm, cache, hrun, hmapped, ?_⟩
  rw [hanswer, hrule (by decide) 15 hcheck]

end Cloudberry.Dtm
