/-
# The reduction of a wait-for graph

The main result about `GddCtxReduce`. Whatever order the edges are added in, the edges left
are the greatest sub-multiset in which every edge has support (`waitRule`): a waiter that is
waited for, a holder that waits, on the same segment if the edge is dotted.
-/

import Cloudberry.Gdd.AddEdge
import Cloudberry.Gdd.Reduce
import Cloudberry.Lib.DirectedCycle

namespace Cloudberry.Gdd

open List Multiset SupportRule

open SupportRule (values mem_values)

/-- A new context to which `GddCtxAddEdge` has added the edges of a list, one by one. -/
def gddCtxOf (es : List WaitEdge) : GddCtx := es.foldl gddCtxAddEdge gddCtxNew

/-- The linked edges, as the vertices they leave have them. -/
def linkedOut (ctx : GddCtx) : Multiset WaitEdge := (outEdges ctx).map GddEdge.toWaitEdge

/-- The linked edges, as the vertices they enter have them. -/
def linkedIn (ctx : GddCtx) : Multiset WaitEdge := (inEdges ctx).map GddEdge.toWaitEdge

/-! ### What is linked before the reduction, and how it is read off -/

section Linked

variable {L : Finset GddEdge} {ctx : GddCtx}

theorem Links.addEdges (es : List WaitEdge) : ∀ {L : Finset GddEdge} {ctx : GddCtx}, Links L ctx →
      ∃ E, Links E (es.foldl gddCtxAddEdge ctx) ∧ handedIn E = handedIn L + es := by
  induction es with
  | nil => exact fun {L ctx} h => ⟨L, h, by simp⟩
  | cons e es ih =>
    intro L ctx h
    obtain ⟨hfresh, hadd⟩ := h.addEdge e
    obtain ⟨E, hE, heq⟩ := ih hadd
    refine ⟨E, hE, ?_⟩
    rw [heq, handedIn, values, Finset.insert_val_of_notMem hfresh, Multiset.map_cons,
      cons_add, ← add_cons, cons_coe]
    rfl

theorem links_gddCtxOf (es : List WaitEdge) :
    ∃ E, Links E (gddCtxOf es) ∧ handedIn E = (es : Multiset WaitEdge) := by
  obtain ⟨E, hE, heq⟩ := links_new.addEdges es
  exact ⟨E, hE, by simpa [handedIn, values] using heq⟩

theorem Links.coe_flatMap_eq (h : Links L ctx) (edges : VertRef → List GddEdge)
    (atVert : GddEdge → VertRef) (hseg : ∀ e ∈ L, (atVert e).1 ∈ ctx.graphs)
    (hvid : ∀ e ∈ L, (atVert e).2 ∈ ctx.verts (atVert e).1)
    (hnodup : ∀ v, (edges v).Nodup) (hmem : ∀ v e, e ∈ edges v ↔ e ∈ L ∧ atVert e = v) :
    ((ctx.graphs.flatMap fun segid => (ctx.verts segid).flatMap fun vid => edges (segid, vid) :
      List GddEdge) : Multiset GddEdge) = L.val := by
  refine (Nodup.ext (coe_nodup.2 ?_) L.nodup).2 fun e => ?_
  · -- an edge is at one vertex only
    have hdisj : ∀ v w, v ≠ w → List.Disjoint (edges v) (edges w) := fun v w hvw e hv hw =>
      hvw (((hmem v e).1 hv).2.symm.trans ((hmem w e).1 hw).2)
    refine nodup_flatMap.2 ⟨fun segid _ => nodup_flatMap.2 ⟨fun vid _ => hnodup _, ?_⟩, ?_⟩
    · refine (h.mapped.nodup_verts segid).imp fun hne => hdisj _ _ ?_
      simpa using hne
    refine h.mapped.nodup_graphs.imp fun hne => ?_
    intro e hs ht
    obtain ⟨v, -, hv⟩ := mem_flatMap.1 hs
    obtain ⟨w, -, hw⟩ := mem_flatMap.1 ht
    exact hdisj _ _ (fun heq => hne (Prod.mk.inj heq).1) hv hw
  · rw [mem_coe, mem_flatMap]
    constructor
    · rintro ⟨segid, -, hs⟩
      obtain ⟨vid, -, hv⟩ := mem_flatMap.1 hs
      exact ((hmem _ e).1 hv).1
    · intro he
      exact ⟨_, hseg e he, mem_flatMap.2 ⟨_, hvid e he, (hmem _ e).2 ⟨he, rfl⟩⟩⟩

theorem Links.linkedOut_eq (h : Links L ctx) : linkedOut ctx = handedIn L := by
  have hout := h.coe_flatMap_eq (fun v => (ctx.vert v).edgesOut) GddEdge.source
    h.mapped.mem_graphs h.mapped.vfrom_mem h.rep.nodup_out h.rep.mem_out
  rw [linkedOut, handedIn, values, ← hout]
  rfl

theorem Links.linkedIn_eq (h : Links L ctx) : linkedIn ctx = handedIn L := by
  have hin := h.coe_flatMap_eq (fun v => (ctx.vert v).edgesIn) GddEdge.target
    h.mapped.mem_graphs h.mapped.vto_mem h.rep.nodup_in h.rep.mem_in
  rw [linkedIn, handedIn, values, ← hin]
  rfl

end Linked

/-! ### Cycles -/

section Cycles

variable {S : Multiset WaitEdge}

/-- The edges of a solid cycle support each other, with all their copies. -/
theorem stable_filter_mem_cycle (c : Cycle WaitEdge) [DecidablePred (· ∈ c)]
    (hc : c.Chain fun a b => a.vto = b.vfrom) (hS : ∀ e ∈ c, e ∈ S ∧ e.solid = true) :
    waitRule.Stable (S.filter (· ∈ c)) := by
  have hmem : ∀ e ∈ c, e ∈ S.filter (· ∈ c) := fun e he =>
    mem_filter.2 ⟨(hS e he).1, he⟩
  intro e he
  have hec : e ∈ c := (mem_filter.1 he).2
  obtain ⟨a, ha, hav⟩ := hc.exists_prev hec
  obtain ⟨b, hb, hbv⟩ := hc.exists_next hec
  refine ⟨⟨a, hmem a ha, hav⟩, ⟨b, hmem b hb, hbv.symm⟩, fun hdotted => ?_⟩
  rw [(hS e hec).2] at hdotted
  exact absurd hdotted.symm Bool.false_ne_true

/-- A nonempty stable set of edges has a cycle of waiting transactions. -/
theorem exists_cycle_of_stable (hS : waitRule.Stable S) (hne : S ≠ 0) :
    ∃ c : Cycle DistributedTransactionId, c ≠ Cycle.nil ∧ c.Nodup ∧
      c.Chain fun v w => ∃ e ∈ S, e.vfrom = v ∧ e.vto = w := by
  classical
  have hstart : ((S.map fun e => e.vfrom).toFinset : Set DistributedTransactionId).Nonempty := by
    obtain ⟨e, he⟩ := exists_mem_of_ne_zero hne
    exact ⟨e.vfrom, by simpa using ⟨e, he, rfl⟩⟩
  -- a waiter waits for one that is itself a waiter
  have hnext : ∀ v ∈ ((S.map fun e => e.vfrom).toFinset : Set DistributedTransactionId),
      ∃ w ∈ ((S.map fun e => e.vfrom).toFinset : Set DistributedTransactionId),
        ∃ e ∈ S, e.vfrom = v ∧ e.vto = w := by
    intro v hv
    obtain ⟨e, he, rfl⟩ : ∃ e ∈ S, e.vfrom = v := by simpa using hv
    obtain ⟨-, ⟨b, hb, hbv⟩, -⟩ := hS e he
    exact ⟨e.vto, by simpa using ⟨b, hb, hbv⟩, e, he, rfl, rfl⟩
  obtain ⟨c, hnil, hnodup, hchain, -⟩ :=
    exists_cycle_of_forall_next (Finset.finite_toSet _) hstart hnext
  exact ⟨c, hnil, hnodup, hchain⟩

end Cycles

/-- From any order of adding the edges the reduction ends at the greatest stable part, which
has every copy of an edge of a stable part. -/
theorem exists_reduce_isGreatest (es : List WaitEdge) {n : ℕ} (hn : es.length < n) :
    ∃ ctx kept, gddCtxReduce n (gddCtxOf es) = some ctx ∧ linkedOut ctx = kept ∧
      linkedIn ctx = kept ∧
      IsGreatest {S | S ≤ (es : Multiset WaitEdge) ∧ waitRule.Stable S} kept ∧
      ∀ T ≤ (es : Multiset WaitEdge), waitRule.Stable T → ∀ e ∈ T,
        kept.count e = (es : Multiset WaitEdge).count e := by
  obtain ⟨E, hE, heq⟩ := links_gddCtxOf es
  have hcard : E.card = es.length := by
    rw [← coe_card es, ← heq, handedIn, values, card_map]
    rfl
  obtain ⟨ctx, L, hctx, hL, hsub, hcov, hstable⟩ := gddCtxReduce_spec n E _ hE (by omega)
  have hcovE := hcov E covers_self
  rw [← heq]
  exact ⟨ctx, handedIn L, hctx, hL.linkedOut_eq, hL.linkedIn_eq,
    isGreatest_of_covers hsub hcovE hstable,
    fun T hT hTs e he => hcovE.count_values hsub hT hTs he⟩

/-- **The reduction finds the greatest deadlocked part, whatever the order of the edges.**
For any edges there is one multiset `kept`, the greatest stable one, that every order of
adding them leads to; `GddCtxReduce` needs no more walks than there are edges, and one.  Every
copy of every edge of a solid cycle is kept, and if any edge is kept there is a cycle of
transactions each of which waits for the next by a kept edge. -/
theorem reduce_greatest (es : List WaitEdge) : ∃ kept : Multiset WaitEdge,
      IsGreatest {S | S ≤ (es : Multiset WaitEdge) ∧ waitRule.Stable S} kept ∧
      (∀ es' : List WaitEdge, es'.Perm es → ∀ n, es.length < n →
        ∃ ctx, gddCtxReduce n (gddCtxOf es') = some ctx ∧ linkedOut ctx = kept ∧
          linkedIn ctx = kept) ∧
      (∀ c : Cycle WaitEdge, c.Chain (fun a b => a.vto = b.vfrom) →
        (∀ e ∈ c, e ∈ es ∧ e.solid = true) → ∀ e ∈ c, kept.count e = es.count e) ∧
      (kept ≠ 0 → ∃ c : Cycle DistributedTransactionId, c ≠ Cycle.nil ∧ c.Nodup ∧
        c.Chain fun v w => ∃ e ∈ kept, e.vfrom = v ∧ e.vto = w) := by
  classical
  obtain ⟨-, kept, -, -, -, hgreat, hcount⟩ := exists_reduce_isGreatest es (Nat.lt_succ_self _)
  refine ⟨kept, hgreat, ?_, ?_, exists_cycle_of_stable hgreat.1.2⟩
  · intro es' hperm n hn
    obtain ⟨ctx', kept', hctx', hout', hin', hgreat', -⟩ :=
      exists_reduce_isGreatest es' (by rwa [hperm.length_eq])
    obtain rfl : kept' = kept := by
      rw [coe_eq_coe.2 hperm] at hgreat'
      exact hgreat'.unique hgreat
    exact ⟨ctx', hctx', hout', hin'⟩
  · intro c hc hsolid e he
    have hstable := stable_filter_mem_cycle (S := es) c hc hsolid
    rw [← coe_count]
    exact hcount _ (filter_le _ _) hstable e
      (mem_filter.2 ⟨(hsolid e he).1, he⟩)

/-- **More waits never hide a deadlock**: what is kept of some of the edges is kept of all. -/
theorem reduce_mono {es es' : List WaitEdge} (hsub : es.Subperm es') {n : ℕ}
    (hn : es'.length < n) : ∃ ctx ctx', gddCtxReduce n (gddCtxOf es) = some ctx ∧
      gddCtxReduce n (gddCtxOf es') = some ctx' ∧ linkedOut ctx ≤ linkedOut ctx' := by
  obtain ⟨ctx, _, hctx, hout, -, hgreat, -⟩ :=
    exists_reduce_isGreatest es (hsub.length_le.trans_lt hn)
  obtain ⟨ctx', _, hctx', hout', -, hgreat', -⟩ := exists_reduce_isGreatest es' hn
  refine ⟨ctx, ctx', hctx, hctx', ?_⟩
  rw [hout, hout']
  exact hgreat'.2 ⟨hgreat.1.1.trans (coe_le.2 hsub), hgreat.1.2⟩

/-- A third transaction joins two that are deadlocked. -/
theorem reduce_mono_third : ∃ ctx ctx',
    gddCtxReduce 4 (gddCtxOf [⟨0, 1, 2, true⟩, ⟨1, 2, 1, true⟩]) = some ctx ∧
      gddCtxReduce 4 (gddCtxOf [⟨1, 3, 1, true⟩, ⟨0, 1, 2, true⟩, ⟨1, 2, 1, true⟩]) = some ctx' ∧
      linkedOut ctx ≤ linkedOut ctx' :=
  reduce_mono (sublist_cons_self _ _).subperm (by decide)

end Cloudberry.Gdd
