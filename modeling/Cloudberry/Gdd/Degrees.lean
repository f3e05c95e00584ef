/-
# Degree accounting

The detector keeps every edge in two lists and four counters, and takes edges out through
iterators, through scans and with whole vertices. Whatever is called in whatever order, the
books agree (`degrees_exact`): the degrees are the lengths of the lists, an edge in one list
is in the other list it belongs to, once, and a vertex that has an edge is in the map.

Everything follows from `Links`, the invariant with one set of linked edges behind all of
them, which each call keeps (`Links.step`).
-/

import Cloudberry.Gdd.BreakDeadLock
import Cloudberry.Lib.Machine
import Mathlib.Algebra.BigOperators.Group.Finset.Basic
import Mathlib.Algebra.Order.Ring.Nat

namespace Cloudberry.Gdd

open List GddEdge Option Prod

/-- The calls. A number bounds the walks or the rounds of a loop. -/
inductive Call
  | addEdge (e : WaitEdge)
  | vertReduce (v : VertRef)
  | removeVid (vid : DistributedTransactionId)
  | reduce (n : ℕ)
  | breakDeadLock (n : ℕ)
  deriving Repr

/-- One call that returns; `gddVertReduce` is called for a vertex that exists. -/
def call (ctx : GddCtx) : Call → Option GddCtx
  | .addEdge e => some (gddCtxAddEdge ctx e)
  | .vertReduce v =>
    if v.1 ∈ ctx.graphs ∧ v.2 ∈ ctx.verts v.1 then some (gddVertReduce ctx v).1 else none
  | .removeVid vid => some (gddCtxRemoveVid ctx vid)
  | .reduce n => gddCtxReduce n ctx
  | .breakDeadLock n => (gddCtxBreakDeadLock n ctx).map snd

/-- The sum over the segments of the number of edges that the vertex with this id has there. -/
def degreeSum (ctx : GddCtx) (edges : GddVert → List GddEdge) (vid : DistributedTransactionId) :
    ℕ :=
  ((ctx.graphs.filter fun segid => vid ∈ ctx.verts segid).map fun segid =>
    (edges (ctx.vert (segid, vid))).length).sum

structure DegreesExact (ctx : GddCtx) : Prop where
  top_in : ctx.topstat.indeg = (inEdges ctx).length
  top_out : ctx.topstat.outdeg = (outEdges ctx).length
  same : (inEdges ctx).Perm (outEdges ctx)
  stat_in : ∀ vid, (ctx.stat vid).indeg = degreeSum ctx GddVert.edgesIn vid
  stat_out : ∀ vid, (ctx.stat vid).outdeg = degreeSum ctx GddVert.edgesOut vid
  out_in : ∀ v, ∀ e ∈ (ctx.vert v).edgesOut,
    e.source = v ∧ (ctx.vert v).edgesOut.count e = 1 ∧ (ctx.vert e.target).edgesIn.count e = 1
  in_out : ∀ v, ∀ e ∈ (ctx.vert v).edgesIn,
    e.target = v ∧ (ctx.vert v).edgesIn.count e = 1 ∧ (ctx.vert e.source).edgesOut.count e = 1
  mapped : ∀ v, (ctx.vert v).edgesIn ≠ [] ∨ (ctx.vert v).edgesOut ≠ [] →
    v.1 ∈ ctx.graphs ∧ v.2 ∈ ctx.verts v.1

section Sums

variable {L : Finset GddEdge} {ctx : GddCtx}

theorem Links.card_eq_degreeSum (h : Links L ctx) (edges : GddVert → List GddEdge)
    (atVert : GddEdge → VertRef) (hseg : ∀ e ∈ L, (atVert e).1 ∈ ctx.graphs)
    (hvid : ∀ e ∈ L, (atVert e).2 ∈ ctx.verts (atVert e).1)
    (hnodup : ∀ v, (edges (ctx.vert v)).Nodup)
    (hmem : ∀ v e, e ∈ edges (ctx.vert v) ↔ e ∈ L ∧ atVert e = v) (vid : DistributedTransactionId) :
    (L.filter fun e => (atVert e).2 = vid).card = degreeSum ctx edges vid := by
  have hmaps : Set.MapsTo (fun e => (atVert e).1) (L.filter fun e => (atVert e).2 = vid)
      (ctx.graphs.filter fun segid => vid ∈ ctx.verts segid).toFinset := by
    intro e he
    obtain ⟨heL, rfl⟩ := Finset.mem_filter.1 (Finset.mem_coe.1 he)
    simp [hseg e heL, hvid e heL]
  rw [Finset.card_eq_sum_card_fiberwise hmaps, degreeSum,
    ← sum_toFinset _ (h.mapped.nodup_graphs.filter _)]
  refine Finset.sum_congr rfl fun segid _ => ?_
  rw [← toFinset_card_of_nodup (hnodup (segid, vid))]
  congr 1
  ext e
  simp only [Finset.mem_filter, List.mem_toFinset, hmem, Prod.ext_iff]
  tauto

/-- **The invariant says that the books agree.** -/
theorem Links.degreesExact (h : Links L ctx) : DegreesExact ctx := by
  have hin : ((inEdges ctx : List GddEdge) : Multiset GddEdge) = L.val :=
    h.coe_flatMap_eq (fun v => (ctx.vert v).edgesIn) target h.mapped.mem_graphs
      h.mapped.vto_mem h.rep.nodup_in h.rep.mem_in
  have hout : ((outEdges ctx : List GddEdge) : Multiset GddEdge) = L.val :=
    h.coe_flatMap_eq (fun v => (ctx.vert v).edgesOut) source h.mapped.mem_graphs
      h.mapped.vfrom_mem h.rep.nodup_out h.rep.mem_out
  refine ⟨?_, ?_, Multiset.coe_eq_coe.1 (hin.trans hout.symm), fun vid => ?_, fun vid => ?_,
    fun v e he => ?_, fun v e he => ?_, fun v hv => ?_⟩
  · rw [h.rep.top_in, ← Multiset.coe_card, hin]
    rfl
  · rw [h.rep.top_out, ← Multiset.coe_card, hout]
    rfl
  · rw [h.rep.stat_in]
    exact congrArg Nat.cast (h.card_eq_degreeSum GddVert.edgesIn target
      h.mapped.mem_graphs h.mapped.vto_mem h.rep.nodup_in h.rep.mem_in vid)
  · rw [h.rep.stat_out]
    exact congrArg Nat.cast (h.card_eq_degreeSum GddVert.edgesOut source
      h.mapped.mem_graphs h.mapped.vfrom_mem h.rep.nodup_out h.rep.mem_out vid)
  · obtain ⟨heL, rfl⟩ := (h.rep.mem_out v e).1 he
    exact ⟨rfl, count_eq_one_of_mem (h.rep.nodup_out _) he,
      count_eq_one_of_mem (h.rep.nodup_in _) ((h.rep.mem_in _ e).2 ⟨heL, rfl⟩)⟩
  · obtain ⟨heL, rfl⟩ := (h.rep.mem_in v e).1 he
    exact ⟨rfl, count_eq_one_of_mem (h.rep.nodup_in _) he,
      count_eq_one_of_mem (h.rep.nodup_out _) ((h.rep.mem_out _ e).2 ⟨heL, rfl⟩)⟩
  · rcases hv with hv | hv
    · obtain ⟨e, he⟩ := exists_mem_of_ne_nil _ hv
      obtain ⟨heL, rfl⟩ := (h.rep.mem_in v e).1 he
      exact ⟨h.mapped.mem_graphs e heL, h.mapped.vto_mem e heL⟩
    · obtain ⟨e, he⟩ := exists_mem_of_ne_nil _ hv
      obtain ⟨heL, rfl⟩ := (h.rep.mem_out v e).1 he
      exact ⟨h.mapped.mem_graphs e heL, h.mapped.vfrom_mem e heL⟩

end Sums

section Calls

variable {ctx ctx' : GddCtx}

theorem Links.reduce {L : Finset GddEdge} (h : Links L ctx) {n : ℕ}
    (hreduce : gddCtxReduce n ctx = some ctx') : ∃ L', Links L' ctx' := by
  obtain ⟨_, L₁, hreduce₁, h₁, -⟩ := gddCtxReduce_spec _ L ctx h (Nat.lt_succ_self L.card)
  obtain rfl := gddCtxReduce_unique hreduce hreduce₁
  exact ⟨L₁, h₁⟩

theorem Links.breakDeadLock {n : ℕ} :
    ∀ {L : Finset GddEdge} {ctx : GddCtx} {vids : List DistributedTransactionId}, Links L ctx →
      gddCtxBreakDeadLock n ctx = some (vids, ctx') → ∃ L', Links L' ctx' := by
  induction n with
  | zero => exact fun _ hbreak => absurd hbreak (by simp [gddCtxBreakDeadLock])
  | succ n ih =>
    intro L ctx vids h hbreak
    rw [gddCtxBreakDeadLock] at hbreak
    split at hbreak
    · obtain ⟨-, rfl⟩ := mk.inj (some.inj hbreak)
      exact ⟨L, h⟩
    obtain ⟨_, hreduce, hmap⟩ := bind_eq_some_iff.1 hbreak
    obtain ⟨⟨vids₁, ctx₂⟩, hnext, heq⟩ := map_eq_some_iff.1 hmap
    obtain ⟨-, rfl⟩ := mk.inj heq
    obtain ⟨L₁, h₁⟩ := (h.removeVid _).reduce hreduce
    exact ih h₁ hnext

/-- **Every call keeps the invariant.** -/
theorem Links.step {L : Finset GddEdge} (h : Links L ctx) {a : Call}
    (hcall : call ctx a = some ctx') : ∃ L', Links L' ctx' := by
  cases a with
  | addEdge e =>
    cases hcall
    exact ⟨_, (h.addEdge e).2⟩
  | vertReduce v =>
    rw [call] at hcall
    split_ifs at hcall
    cases hcall
    exact ⟨_, (h.vertReduce v false).1⟩
  | removeVid vid =>
    cases hcall
    exact ⟨_, h.removeVid vid⟩
  | reduce n => exact h.reduce hcall
  | breakDeadLock n =>
    rw [call, map_eq_some_iff] at hcall
    obtain ⟨⟨_, _⟩, hbreak, rfl⟩ := hcall
    exact h.breakDeadLock hbreak

/-- **The degrees are exact after any calls**, in any order. -/
theorem degrees_exact (calls : List Call) (ctx : GddCtx)
    (hrun : Machine.run call gddCtxNew calls = some ctx) : DegreesExact ctx := by
  obtain ⟨L, h⟩ := Machine.run_invariant (P := fun ctx => ∃ L, Links L ctx)
    (fun ctx a ctx' h hcall => h.elim fun L hL => hL.step hcall) ⟨∅, links_new⟩ hrun
  exact h.degreesExact

/-- Parallel edges and a self edge, one vertex reduced and one id removed. -/
theorem degrees_exact_selfEdge : ∃ ctx, Machine.run call gddCtxNew
    [.addEdge ⟨0, 1, 2, true⟩, .addEdge ⟨0, 1, 2, false⟩, .addEdge ⟨0, 2, 2, true⟩,
      .addEdge ⟨1, 2, 1, true⟩, .vertReduce (0, 2), .removeVid 1] = some ctx ∧
      ctx.topstat = ⟨1, 1⟩ ∧ DegreesExact ctx := by
  have hrun : (Machine.run call gddCtxNew
      [.addEdge ⟨0, 1, 2, true⟩, .addEdge ⟨0, 1, 2, false⟩, .addEdge ⟨0, 2, 2, true⟩,
        .addEdge ⟨1, 2, 1, true⟩, .vertReduce (0, 2), .removeVid 1]).map GddCtx.topstat =
        some ⟨1, 1⟩ := by
    decide +kernel
  obtain ⟨ctx, hctx, htop⟩ := Option.map_eq_some_iff.1 hrun
  exact ⟨ctx, hctx, htop, degrees_exact _ ctx hctx⟩

end Calls

end Cloudberry.Gdd
