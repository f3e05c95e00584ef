/-
# The process-local cache of the distributed log

Reading the distributed log is expensive, so a backend remembers the pairs of local and
distributed transaction ids it has read (`cdblocaldistribxact.c`), at most
`gp_max_local_distributed_cache` of them, the least recently used one making room for a new
one. The cache is made at its first use.
-/

import Cloudberry.Dtm.DistributedLog
import Cloudberry.Lib.LruCache

namespace Cloudberry.Dtm

open Option LruCache List DistributedLog

/-- `LocalDistribXactCache` with its hash table; `none` before its first use. -/
abbrev LocalDistribXactCache := Option (LruCache TransactionId ℕ)

namespace LocalDistribXactCache

section

variable (maxCache : ℕ) (cache : LocalDistribXactCache) (localXid : TransactionId)

/-- `LocalDistribXactCache_CommittedFind`, with `maxCache` for
`gp_max_local_distributed_cache`. -/
def committedFind : Option ℕ × LocalDistribXactCache :=
  if maxCache = 0 then (none, cache)
  else
    let c := cache.getD .empty
    match c.find localXid with
    | some gxid => (some gxid, some (c.touch localXid))
    | none => (none, some c)

def addCommitted (gxid : ℕ) : Except String LocalDistribXactCache :=
  if maxCache = 0 then .ok cache
  else
    match cache with
    | none => .error "LocalDistribCacheHtab != NULL"
    | some c =>
      let c := if maxCache ≤ c.count then c.evict else c
      if (c.find localXid).isSome then
        .error ("Add should not have found local xid = " ++
          String.ofList (Nat.toDigits 16 localXid.toNat))
      else .ok (some (c.insert localXid gxid))

end

/-- Ask the cache, then the log; what only the log knows is added to the cache. -/
def lookup (maxCache : ℕ) (log : DistributedLog) (cache : LocalDistribXactCache)
    (localXid : TransactionId) : Except String (Option ℕ × LocalDistribXactCache) :=
  match committedFind maxCache cache localXid with
  | (some gxid, cache) => .ok (some gxid, cache)
  | (none, cache) =>
    match log.committedCheck localXid with
    | .error e => .error e
    | .ok none => .ok (none, cache)
    | .ok (some gxid) =>
      match addCommitted maxCache cache localXid gxid with
      | .error e => .error e
      | .ok cache => .ok (some gxid, cache)

end LocalDistribXactCache

/-- The table, the list and the counter of the cache agree with each other and with the
entries of the log. -/
structure CacheOk (entry : TransactionId → ℕ) (cache : LocalDistribXactCache) : Prop where
  consistent : ∀ c, cache = some c → c.Consistent
  agrees : ∀ c, cache = some c → ∀ e ∈ c.hash, entry e.1 = e.2 ∧ e.2 ≠ 0

namespace CacheOk

open LocalDistribXactCache

variable {entry : TransactionId → ℕ} {cache : LocalDistribXactCache} {maxCache : ℕ}
  {localXid : TransactionId} {gxid : ℕ}

theorem some_iff {c : LruCache TransactionId ℕ} :
    CacheOk entry (some c) ↔ c.Consistent ∧ ∀ e ∈ c.hash, entry e.1 = e.2 ∧ e.2 ≠ 0 := by
  constructor
  · exact fun h => ⟨h.consistent c rfl, h.agrees c rfl⟩
  · rintro ⟨hc, ha⟩
    exact ⟨fun c' heq => some.inj heq ▸ hc, fun c' heq => some.inj heq ▸ ha⟩

theorem notMade (entry : TransactionId → ℕ) : CacheOk entry none := ⟨nofun, nofun⟩

variable (h : CacheOk entry cache)
include h

theorem getD : CacheOk entry (some (cache.getD .empty)) := by
  match cache with
  | none => exact some_iff.2 ⟨LruCache.consistent_empty, by simp [empty]⟩
  | some c => exact h

theorem committedFind (maxCache : ℕ) (localXid : TransactionId) :
    CacheOk entry (committedFind maxCache cache localXid).2 ∧
      (∀ gxid, (committedFind maxCache cache localXid).1 = some gxid →
        entry localXid = gxid ∧ gxid ≠ 0) ∧
      ((committedFind maxCache cache localXid).1 = none → maxCache ≠ 0 →
        ∃ c, (committedFind maxCache cache localXid).2 = some c ∧ c.find localXid = none) := by
  unfold LocalDistribXactCache.committedFind
  by_cases hmax : maxCache = 0
  · simp [hmax, h]
  obtain ⟨hc, ha⟩ := some_iff.1 h.getD
  rw [if_neg hmax]
  cases hfind : (cache.getD .empty).find localXid with
  | some gxid =>
    simp only [hfind]
    refine ⟨some_iff.2 ⟨hc.touch hfind, ha⟩, ?_, by simp⟩
    rintro g ⟨⟩
    exact ha _ (mem_hash_of_find hfind)
  | none =>
    simp only [hfind]
    exact ⟨h.getD, by simp, fun _ _ => ⟨_, rfl, hfind⟩⟩

theorem addCommitted (hgxid : entry localXid = gxid ∧ gxid ≠ 0)
    (hnew : maxCache ≠ 0 → ∃ c, cache = some c ∧ c.find localXid = none) :
    ∃ cache', addCommitted maxCache cache localXid gxid = .ok cache' ∧ CacheOk entry cache' := by
  unfold LocalDistribXactCache.addCommitted
  by_cases hmax : maxCache = 0
  · exact ⟨cache, by simp [hmax], h⟩
  obtain ⟨c, rfl, hfind⟩ := hnew hmax
  obtain ⟨hc, ha⟩ := some_iff.1 h
  -- after making room the cache is in order, and still has no entry for the xid
  obtain ⟨c', hc'eq, hc', hsub⟩ : ∃ c', c' = (if maxCache ≤ c.count then c.evict else c) ∧
      c'.Consistent ∧ ∀ e ∈ c'.hash, e ∈ c.hash := by
    refine ⟨_, rfl, ?_⟩
    split_ifs
    · exact ⟨hc.evict, fun e => mem_hash_evict⟩
    · exact ⟨hc, fun e he => he⟩
  have hnot : localXid ∉ c'.hash.map Prod.fst := fun hmem => by
    obtain ⟨e, he, hkey⟩ := mem_map.1 hmem
    exact notMem_of_find_none hfind (mem_map.2 ⟨e, hsub e he, hkey⟩)
  have hfind' : c'.find localXid = none := by
    by_contra hsome
    obtain ⟨g, hg⟩ := ne_none_iff_exists'.1 hsome
    exact hnot (mem_map.2 ⟨_, mem_hash_of_find hg, rfl⟩)
  refine ⟨some (c'.insert localXid gxid), ?_, some_iff.2 ⟨hc'.insert hnot, ?_⟩⟩
  · simp [hmax, ← hc'eq, hfind']
  · exact forall_mem_cons.2 ⟨hgxid, fun e he => ha e (hsub e he)⟩

end CacheOk

/-- **Asking through the cache gives what the log has.** If the check of the log finds a gxid
the lookup does; it finds nothing else; and it fails only if the check of the log fails. -/
theorem lookup_spec (maxCache : ℕ) {log : DistributedLog} {cache : LocalDistribXactCache}
    (h : CacheOk log.entry cache) {localXid : TransactionId} {found : Option ℕ}
    (hcheck : log.committedCheck localXid = .ok found) :
    ∃ found' cache', LocalDistribXactCache.lookup maxCache log cache localXid =
        .ok (found', cache') ∧ CacheOk log.entry cache' ∧
      (∀ gxid, found' = some gxid → log.entry localXid = gxid ∧ gxid ≠ 0) ∧
      (∀ gxid, found = some gxid → found' = some gxid) := by
  obtain ⟨hok, hfound, hnew⟩ := h.committedFind maxCache localXid
  unfold LocalDistribXactCache.lookup
  cases hfind : LocalDistribXactCache.committedFind maxCache cache localXid with
  | mk answer cache' =>
    rw [hfind] at hok hfound hnew
    match answer with
    | some gxid =>
      refine ⟨some gxid, cache', rfl, hok, hfound, ?_⟩
      rintro g rfl
      rw [← (hfound gxid rfl).1, (entry_of_committedCheck hcheck).1]
    | none =>
      match found with
      | none => exact ⟨none, cache', by simp [hcheck], hok, by simp, by simp⟩
      | some gxid =>
        have hentry := entry_of_committedCheck hcheck
        obtain ⟨cache'', hadd, hok'⟩ := hok.addCommitted hentry (hnew rfl)
        refine ⟨some gxid, cache'', by simp [hcheck, hadd], hok', ?_, fun _ heq => heq⟩
        rintro g ⟨⟩
        exact hentry

end Cloudberry.Dtm
