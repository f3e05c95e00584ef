/-
# Building a context

`GddCtxAddEdge` finds or makes the graph, the two vertices and their global degrees before
it links the edge. What it makes new has no edges yet, because every vertex, graph and
degree of a linked edge is already in its map (`Mapped`); so each of these steps leaves the
linked edges alone, and the whole call adds exactly one (`Links.addEdge`).
-/

import Cloudberry.Gdd.Linked

namespace Cloudberry.Gdd

open Finset List

variable {L : Finset GddEdge} {ctx : GddCtx}

theorem links_new : Links ∅ gddCtxNew where
  rep := by constructor <;> simp [gddCtxNew, gddVertNew, gddStatInit]
  mapped := by constructor <;> simp [gddCtxNew]

theorem Links.getGraph (h : Links L ctx) (segid : ℤ) : Links L (gddCtxGetGraph ctx segid) := by
  unfold gddCtxGetGraph
  split_ifs with hmem
  · exact h
  have hm := h.mapped
  -- the graph is new, so no edge is on it
  have hne : ∀ e ∈ L, e.segid ≠ segid := fun e he heq => hmem (heq ▸ hm.mem_graphs e he)
  refine ⟨{ h.rep with }, { hm with
    nodup_graphs := ?_, nodup_verts := ?_, mem_graphs := ?_, vfrom_mem := ?_, vto_mem := ?_ }⟩
  · rw [nodup_append]
    exact ⟨hm.nodup_graphs, by simp, by rintro a ha b hb rfl; simp_all⟩
  · intro s
    by_cases hs : s = segid
    · simp [hs]
    · simp [hs, hm.nodup_verts s]
  · exact fun e he => mem_append_left _ (hm.mem_graphs e he)
  · intro e he
    simpa [hne e he] using hm.vfrom_mem e he
  · intro e he
    simpa [hne e he] using hm.vto_mem e he

theorem mem_graphs_getGraph (ctx : GddCtx) (segid : ℤ) :
    segid ∈ (gddCtxGetGraph ctx segid).graphs := by
  unfold gddCtxGetGraph
  split_ifs with hmem
  · exact hmem
  · simp

theorem Links.getVert (h : Links L ctx) (v : VertRef) : Links L (gddGraphGetVert ctx v) := by
  obtain ⟨segid, vid⟩ := v
  unfold gddGraphGetVert
  split_ifs with hmem
  · exact h
  have hr := h.rep
  have hm := h.mapped
  -- the vertex is new, so no edge is at it
  have hsource : ∀ e ∈ L, e.source ≠ (segid, vid) := by
    rintro e he heq
    obtain ⟨rfl, rfl⟩ := Prod.mk.inj heq
    exact hmem (hm.vfrom_mem e he)
  have htarget : ∀ e ∈ L, e.target ≠ (segid, vid) := by
    rintro e he heq
    obtain ⟨rfl, rfl⟩ := Prod.mk.inj heq
    exact hmem (hm.vto_mem e he)
  have hgrow : ∀ s w, w ∈ ctx.verts s →
      w ∈ Function.update ctx.verts segid (ctx.verts segid ++ [vid]) s := by
    intro s w hw
    by_cases hs : s = segid
    · subst hs
      simp [hw]
    · simp [hs, hw]
  refine ⟨{ hr with nodup_in := ?_, nodup_out := ?_, mem_in := ?_, mem_out := ?_ },
    { hm with nodup_verts := ?_, vfrom_mem := ?_, vto_mem := ?_ }⟩
  · intro w
    by_cases hw : w = (segid, vid)
    · simp [hw, gddVertNew]
    · simp [hw, hr.nodup_in w]
  · intro w
    by_cases hw : w = (segid, vid)
    · simp [hw, gddVertNew]
    · simp [hw, hr.nodup_out w]
  · intro w e
    by_cases hw : w = (segid, vid)
    · subst hw
      simpa [gddVertNew] using htarget e
    · simp [hw, hr.mem_in w e]
  · intro w e
    by_cases hw : w = (segid, vid)
    · subst hw
      simpa [gddVertNew] using hsource e
    · simp [hw, hr.mem_out w e]
  · intro s
    by_cases hs : s = segid
    · subst hs
      simp only [Function.update_self, nodup_append]
      exact ⟨hm.nodup_verts s, by simp, by rintro a ha b hb rfl; simp_all⟩
    · simp [hs, hm.nodup_verts s]
  · exact fun e he => hgrow _ _ (hm.vfrom_mem e he)
  · exact fun e he => hgrow _ _ (hm.vto_mem e he)

theorem Links.getGlobalStat (h : Links L ctx) (vid : DistributedTransactionId) :
    Links L (gddCtxGetGlobalStat ctx vid) := by
  unfold gddCtxGetGlobalStat
  split_ifs with hmem
  · exact h
  have hr := h.rep
  have hm := h.mapped
  have hin : (L.filter fun e => e.vto = vid) = ∅ :=
    filter_eq_empty_iff.2 fun e he heq => hmem (heq ▸ hm.vto_global e he)
  have hout : (L.filter fun e => e.vfrom = vid) = ∅ :=
    filter_eq_empty_iff.2 fun e he heq => hmem (heq ▸ hm.vfrom_global e he)
  refine ⟨{ hr with stat_in := ?_, stat_out := ?_ }, { hm with
    vfrom_global := fun e he => mem_append_left _ (hm.vfrom_global e he)
    vto_global := fun e he => mem_append_left _ (hm.vto_global e he) }⟩
  · intro w
    by_cases hw : w = vid
    · subst hw
      simp [gddStatInit, hin]
    · simpa [hw] using hr.stat_in w
  · intro w
    by_cases hw : w = vid
    · subst hw
      simp [gddStatInit, hout]
    · simpa [hw] using hr.stat_out w

theorem mem_verts_getVert (ctx : GddCtx) (v : VertRef) :
    v.2 ∈ (gddGraphGetVert ctx v).verts v.1 := by
  unfold gddGraphGetVert
  split_ifs with hmem
  · exact hmem
  · simp

theorem mem_verts_getVert_of_mem {s : ℤ} {w : DistributedTransactionId} (v : VertRef)
    (hw : w ∈ ctx.verts s) : w ∈ (gddGraphGetVert ctx v).verts s := by
  unfold gddGraphGetVert
  split_ifs with hmem
  · exact hw
  by_cases hs : s = v.1
  · subst hs
    simp [hw]
  · simp [hs, hw]

@[simp]
theorem graphs_getVert (v : VertRef) : (gddGraphGetVert ctx v).graphs = ctx.graphs := by
  unfold gddGraphGetVert
  split_ifs <;> rfl

@[simp]
theorem nextAddr_getVert (v : VertRef) : (gddGraphGetVert ctx v).nextAddr = ctx.nextAddr := by
  unfold gddGraphGetVert
  split_ifs <;> rfl

@[simp]
theorem nextAddr_getGraph (segid : ℤ) : (gddCtxGetGraph ctx segid).nextAddr = ctx.nextAddr := by
  unfold gddCtxGetGraph
  split_ifs <;> rfl

theorem maps_getGlobalStat (ctx : GddCtx) (vid : DistributedTransactionId) :
    vid ∈ (gddCtxGetGlobalStat ctx vid).globals ∧
      (∀ w ∈ ctx.globals, w ∈ (gddCtxGetGlobalStat ctx vid).globals) ∧
      (gddCtxGetGlobalStat ctx vid).graphs = ctx.graphs ∧
      (gddCtxGetGlobalStat ctx vid).verts = ctx.verts ∧
      (gddCtxGetGlobalStat ctx vid).nextAddr = ctx.nextAddr := by
  unfold gddCtxGetGlobalStat
  split_ifs with hmem
  · exact ⟨hmem, fun _ hw => hw, rfl, rfl, rfl⟩
  · exact ⟨by simp, fun _ hw => mem_append_left _ hw, rfl, rfl, rfl⟩

theorem Links.link {e : GddEdge} (h : Links L ctx) (he : e ∉ L) (hgraph : e.segid ∈ ctx.graphs)
    (hfrom : e.vfrom ∈ ctx.verts e.segid) (hto : e.vto ∈ ctx.verts e.segid)
    (hgfrom : e.vfrom ∈ ctx.globals) (hgto : e.vto ∈ ctx.globals)
    (haddr : e.addr < ctx.nextAddr) : Links (insert e L) (gddEdgeLink ctx e) where
  rep := h.rep.link he
  mapped := by
    have hm := h.mapped
    exact { hm with
      mem_graphs := forall_mem_insert _ _ _ |>.2 ⟨hgraph, hm.mem_graphs⟩
      vfrom_mem := forall_mem_insert _ _ _ |>.2 ⟨hfrom, hm.vfrom_mem⟩
      vto_mem := forall_mem_insert _ _ _ |>.2 ⟨hto, hm.vto_mem⟩
      vfrom_global := forall_mem_insert _ _ _ |>.2 ⟨hgfrom, hm.vfrom_global⟩
      vto_global := forall_mem_insert _ _ _ |>.2 ⟨hgto, hm.vto_global⟩
      addr_lt := forall_mem_insert _ _ _ |>.2 ⟨haddr, hm.addr_lt⟩ }

/-- **`GddCtxAddEdge` adds one edge**, at a new address. -/
theorem Links.addEdge (h : Links L ctx) (e : WaitEdge) : { e with addr := ctx.nextAddr } ∉ L ∧
      Links (insert { e with addr := ctx.nextAddr } L) (gddCtxAddEdge ctx e) := by
  have hfresh : ({ e with addr := ctx.nextAddr } : GddEdge) ∉ L := fun hmem =>
    lt_irrefl _ (h.mapped.addr_lt _ hmem)
  refine ⟨hfresh, ?_⟩
  -- the context after the graph and both vertices are there
  set made := gddGraphGetVert (gddGraphGetVert (gddCtxGetGraph ctx e.segid) (e.segid, e.vfrom))
    (e.segid, e.vto) with hmade
  have hmadeL : Links L made := ((h.getGraph _).getVert _).getVert _
  have haddr : made.nextAddr = ctx.nextAddr := by simp [hmade]
  have hmade' : Links L { made with nextAddr := made.nextAddr + 1 } :=
    ⟨{ hmadeL.rep with }, { hmadeL.mapped with
      addr_lt := fun a ha => Nat.lt_succ_of_lt (hmadeL.mapped.addr_lt a ha) }⟩
  obtain ⟨hg1, -, hgr1, hv1, ha1⟩ :=
    maps_getGlobalStat { made with nextAddr := made.nextAddr + 1 } e.vfrom
  obtain ⟨hg2, hgk2, hgr2, hv2, ha2⟩ := maps_getGlobalStat
    (gddCtxGetGlobalStat { made with nextAddr := made.nextAddr + 1 } e.vfrom) e.vto
  have hlink := ((hmade'.getGlobalStat e.vfrom).getGlobalStat e.vto).link hfresh ?_ ?_ ?_
    (hgk2 _ hg1) hg2 ?_
  · have hedge : ({ e with addr := made.nextAddr } : GddEdge) = { e with addr := ctx.nextAddr } := by
      rw [haddr]
    show Links _ (gddEdgeLink _ { e with addr := made.nextAddr })
    rw [hedge]
    exact hlink
  · rw [hgr2, hgr1]
    simpa [hmade] using mem_graphs_getGraph ctx e.segid
  · rw [hv2, hv1]
    exact mem_verts_getVert_of_mem _ (mem_verts_getVert _ (e.segid, e.vfrom))
  · rw [hv2, hv1]
    exact mem_verts_getVert _ (e.segid, e.vto)
  · rw [ha2, ha1]
    show ctx.nextAddr < made.nextAddr + 1
    omega

end Cloudberry.Gdd
