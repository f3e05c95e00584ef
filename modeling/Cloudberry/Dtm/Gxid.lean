/-
# The gxid generator

A distributed transaction id (`DistributedTransactionId`, here gxid) is a plain
`uint64` counter kept in `ShmemVariableCache`: `nextGxid` is the next one to hand
out and `GxidCount` how many may be handed out before the WAL has to say so.
`bumpGxid` (`src/backend/cdb/cdbtm.c`) raises the second by
`gp_gxid_prefetch_num`, `currentDtxActivate` takes one from the first.

All arithmetic is that of the C types, `% 2 ^ 64` for gxids and `% 2 ^ 32` for
the count. `GxidGen.Sound` is what makes the reductions vanish: the PANIC of
`bumpGxid` keeps `nextGxid + GxidCount` a whole batch below the largest gxid.
-/

import Mathlib.Algebra.Ring.Nat
import Mathlib.Tactic.Common

namespace Cloudberry.Dtm

open Nat

/-- `InvalidDistributedTransactionId` (`src/include/c.h`). -/
def invalidDistributedTransactionId : ℕ := 0

def firstDistributedTransactionId : ℕ := 1

def lastDistributedTransactionId : ℕ := 2 ^ 64 - 1

/-- The setting `gp_gxid_prefetch_num` with the bounds its GUC entry imposes
(`guc_gp.c`: 512 to `INT_MAX`). -/
structure PrefetchNum where
  num : ℕ
  lower : 512 ≤ num
  upper : num ≤ 2 ^ 31 - 1

/-- The shared counters protected by `shmGxidGenLock`. -/
structure GxidGen where
  nextGxid : ℕ
  gxidCount : ℕ
  deriving DecidableEq, Repr

namespace GxidGen

section

variable (p : PrefetchNum)

/-- `GXID_PRETCH_THRESHOLD`: half a batch. -/
def prefetchThreshold : ℕ := p.num >>> 1

/-- The limit `bumpGxid` is about to log. -/
def nextLimit (g : GxidGen) : ℕ :=
  (g.nextGxid + (g.gxidCount + p.num) % 2 ^ 32) % 2 ^ 64

/-- The condition under which `bumpGxid` raises PANIC instead of logging. -/
def limitReached (g : GxidGen) : Bool :=
  lastDistributedTransactionId - p.num ≤ g.nextLimit p

/-- `GxidCount += gp_gxid_prefetch_num`, the last update of `bumpGxid`. -/
def addPrefetch (g : GxidGen) : GxidGen :=
  { g with gxidCount := (g.gxidCount + p.num) % 2 ^ 32 }

end

/-- The critical section of `currentDtxActivate`: the next gxid if one is left. -/
def take (g : GxidGen) : Option (ℕ × GxidGen) :=
  if 0 < g.gxidCount then
    some (g.nextGxid, ⟨(g.nextGxid + 1) % 2 ^ 64, g.gxidCount - 1⟩)
  else none

/-- `bumpGxid` as one step: nothing to do above the threshold, `none` on PANIC. -/
def bumpGxid (p : PrefetchNum) (g : GxidGen) : Option GxidGen :=
  if prefetchThreshold p < g.gxidCount then some g
  else if g.limitReached p then none
  else some (g.addPrefetch p)

/-- The range in which the counters stay: valid ids only, and a batch of room
above `nextGxid + GxidCount`, so that no sum of the source wraps. -/
structure Sound (p : PrefetchNum) (g : GxidGen) : Prop where
  valid : firstDistributedTransactionId ≤ g.nextGxid
  count_le : g.gxidCount ≤ prefetchThreshold p + p.num
  room : g.nextGxid + g.gxidCount < lastDistributedTransactionId - p.num

variable {p : PrefetchNum} {g h : GxidGen}

theorem prefetchThreshold_le (p : PrefetchNum) : 2 * prefetchThreshold p ≤ p.num := by
  rw [prefetchThreshold, shiftRight_eq_div_pow]
  omega

theorem count_add_prefetch (hle : g.gxidCount ≤ prefetchThreshold p) :
    (g.gxidCount + p.num) % 2 ^ 32 = g.gxidCount + p.num := by
  have := prefetchThreshold_le p
  have := p.upper
  exact mod_eq_of_lt (by omega)

variable (hg : g.Sound p)
include hg

theorem Sound.nextLimit_eq (hle : g.gxidCount ≤ prefetchThreshold p) :
    g.nextLimit p = g.nextGxid + g.gxidCount + p.num := by
  have hroom := hg.room
  have hpos := p.upper
  rw [nextLimit, count_add_prefetch hle, mod_eq_of_lt]
  · omega
  · unfold lastDistributedTransactionId at hroom
    omega

theorem Sound.take_eq_some {x : ℕ} (ht : g.take = some (x, h)) :
    0 < g.gxidCount ∧ x = g.nextGxid ∧ h = ⟨g.nextGxid + 1, g.gxidCount - 1⟩ := by
  unfold take at ht
  split_ifs at ht with hpos
  obtain ⟨rfl, rfl⟩ := Prod.mk.inj (Option.some.inj ht)
  have hroom := hg.room
  unfold lastDistributedTransactionId at hroom
  rw [mod_eq_of_lt (by omega)]
  exact ⟨hpos, rfl, rfl⟩

theorem Sound.take_sound {x : ℕ} (ht : g.take = some (x, h)) : h.Sound p := by
  obtain ⟨_, -, rfl⟩ := hg.take_eq_some ht
  have hv := hg.valid
  have hc := hg.count_le
  have hr := hg.room
  constructor <;> dsimp only <;> omega

theorem Sound.addPrefetch_sound (hle : g.gxidCount ≤ prefetchThreshold p)
    (hlim : g.limitReached p = false) : (g.addPrefetch p).Sound p := by
  have hlim' : ¬ lastDistributedTransactionId - p.num ≤ g.nextLimit p := by
    simpa [limitReached] using hlim
  rw [hg.nextLimit_eq hle] at hlim'
  refine ⟨hg.valid, ?_, ?_⟩ <;> simp only [addPrefetch, count_add_prefetch hle] <;> omega

theorem Sound.bumpGxid_eq_some (hb : g.bumpGxid p = some h) :
    h.nextGxid = g.nextGxid ∧ h.Sound p := by
  unfold bumpGxid at hb
  split at hb
  next =>
    cases hb
    exact ⟨rfl, hg⟩
  next hle =>
    split_ifs at hb with hlim
    cases hb
    exact ⟨rfl, hg.addPrefetch_sound (by omega) (by simpa using hlim)⟩

end GxidGen

/-- The `nextGxid` recovery hands to `StartupXLOG`: a valid id with a batch of room
above it, as every logged limit has. -/
structure StartGxid (p : PrefetchNum) where
  gxid : ℕ
  sound : GxidGen.Sound p ⟨gxid, 0⟩

def defaultPrefetchNum : PrefetchNum := ⟨8192, by decide, by decide⟩

/-- A new cluster starts at `FirstDistributedTransactionId`. -/
def firstStart : StartGxid defaultPrefetchNum :=
  ⟨firstDistributedTransactionId, by decide, by decide, by decide⟩

end Cloudberry.Dtm
