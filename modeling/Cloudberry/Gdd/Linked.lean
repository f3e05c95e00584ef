/-
# The linked edges of a context

A context keeps every edge several times over: in the out-list of the vertex it leaves, in the
in-list of the vertex it enters, and as one unit of four counters. `Represents L ctx` says that
all of them speak of the same set `L` of edges, `Mapped L` that the maps know every vertex `L`
needs. Linking adds an edge to `L` (`Represents.link`) and unlinking takes one away
(`Represents.unlink`).
-/

import Cloudberry.Gdd.Detector
import Mathlib.Data.Finset.Card

namespace Cloudberry.Gdd

open Finset GddCtx

/-! ### Reading a context after an update -/

section Updates

variable (ctx : GddCtx) (v w : VertRef) (edges : List GddEdge)
  (vid : DistributedTransactionId) (d : ℤ)

@[simp]
theorem edgesIn_setOut : ((ctx.setOut v edges).vert w).edgesIn = (ctx.vert w).edgesIn := by
  by_cases hw : w = v
  · subst hw; simp [setOut]
  · simp [setOut, hw]

@[simp]
theorem edgesOut_setIn : ((ctx.setIn v edges).vert w).edgesOut = (ctx.vert w).edgesOut := by
  by_cases hw : w = v
  · subst hw; simp [setIn]
  · simp [setIn, hw]

@[simp]
theorem edgesOut_setOut :
    ((ctx.setOut v edges).vert w).edgesOut = if w = v then edges else (ctx.vert w).edgesOut := by
  by_cases hw : w = v <;> simp [setOut, hw]

@[simp]
theorem edgesIn_setIn :
    ((ctx.setIn v edges).vert w).edgesIn = if w = v then edges else (ctx.vert w).edgesIn := by
  by_cases hw : w = v <;> simp [setIn, hw]

@[simp] theorem vert_addOutdeg : (ctx.addOutdeg vid d).vert = ctx.vert := rfl

@[simp] theorem vert_addIndeg : (ctx.addIndeg vid d).vert = ctx.vert := rfl

section

variable (u : DistributedTransactionId)
include u

@[simp]
theorem outdeg_addOutdeg :
    ((ctx.addOutdeg vid d).stat u).outdeg = (ctx.stat u).outdeg + if vid = u then d else 0 := by
  by_cases hu : u = vid
  · subst hu; simp [addOutdeg]
  · simp [addOutdeg, hu, Ne.symm hu]

@[simp]
theorem indeg_addOutdeg : ((ctx.addOutdeg vid d).stat u).indeg = (ctx.stat u).indeg := by
  by_cases hu : u = vid
  · subst hu; simp [addOutdeg]
  · simp [addOutdeg, hu]

@[simp]
theorem indeg_addIndeg :
    ((ctx.addIndeg vid d).stat u).indeg = (ctx.stat u).indeg + if vid = u then d else 0 := by
  by_cases hu : u = vid
  · subst hu; simp [addIndeg]
  · simp [addIndeg, hu, Ne.symm hu]

@[simp]
theorem outdeg_addIndeg : ((ctx.addIndeg vid d).stat u).outdeg = (ctx.stat u).outdeg := by
  by_cases hu : u = vid
  · subst hu; simp [addIndeg]
  · simp [addIndeg, hu]

end

@[simp] theorem stat_setIn : (ctx.setIn v edges).stat = ctx.stat := rfl

@[simp] theorem stat_setOut : (ctx.setOut v edges).stat = ctx.stat := rfl

end Updates

/-- What a step that only links and unlinks leaves alone. -/
structure SameMaps (ctx ctx' : GddCtx) : Prop where
  globals : ctx'.globals = ctx.globals
  graphs : ctx'.graphs = ctx.graphs
  verts : ctx'.verts = ctx.verts
  nextAddr : ctx'.nextAddr = ctx.nextAddr

namespace SameMaps

variable {a b c : GddCtx}

theorem refl (a : GddCtx) : SameMaps a a := ⟨rfl, rfl, rfl, rfl⟩

theorem trans (hab : SameMaps a b) (hbc : SameMaps b c) : SameMaps a c :=
  ⟨hbc.globals.trans hab.globals, hbc.graphs.trans hab.graphs, hbc.verts.trans hab.verts,
    hbc.nextAddr.trans hab.nextAddr⟩

end SameMaps

theorem sameMaps_unlink (ctx : GddCtx) (edge : GddEdge) (fromiter toiter) :
    SameMaps ctx (gddEdgeUnlink ctx edge fromiter toiter) := by
  cases fromiter <;> cases toiter <;> exact ⟨rfl, rfl, rfl, rfl⟩

/-! ### The invariant -/

/-- The lists and counters of `ctx` all speak of the edges `L`. -/
structure Represents (L : Finset GddEdge) (ctx : GddCtx) : Prop where
  nodup_in : ∀ v, (ctx.vert v).edgesIn.Nodup
  nodup_out : ∀ v, (ctx.vert v).edgesOut.Nodup
  mem_in : ∀ v e, e ∈ (ctx.vert v).edgesIn ↔ e ∈ L ∧ e.target = v
  mem_out : ∀ v e, e ∈ (ctx.vert v).edgesOut ↔ e ∈ L ∧ e.source = v
  top_in : ctx.topstat.indeg = L.card
  top_out : ctx.topstat.outdeg = L.card
  stat_in : ∀ vid, (ctx.stat vid).indeg = (L.filter fun e => e.vto = vid).card
  stat_out : ∀ vid, (ctx.stat vid).outdeg = (L.filter fun e => e.vfrom = vid).card

/-- The maps hold no key twice and every key the edges `L` need; addresses from `nextAddr` on
are free. -/
structure Mapped (L : Finset GddEdge) (globals : List DistributedTransactionId)
    (graphs : List ℤ) (verts : ℤ → List DistributedTransactionId) (nextAddr : ℕ) : Prop where
  nodup_graphs : graphs.Nodup
  nodup_verts : ∀ segid, (verts segid).Nodup
  mem_graphs : ∀ e ∈ L, e.segid ∈ graphs
  vfrom_mem : ∀ e ∈ L, e.vfrom ∈ verts e.segid
  vto_mem : ∀ e ∈ L, e.vto ∈ verts e.segid
  vfrom_global : ∀ e ∈ L, e.vfrom ∈ globals
  vto_global : ∀ e ∈ L, e.vto ∈ globals
  addr_lt : ∀ e ∈ L, e.addr < nextAddr

/-- The invariant of a context with linked edges `L`. -/
structure Links (L : Finset GddEdge) (ctx : GddCtx) : Prop where
  rep : Represents L ctx
  mapped : Mapped L ctx.globals ctx.graphs ctx.verts ctx.nextAddr

theorem Mapped.subset {L L' : Finset GddEdge} {globals graphs verts nextAddr}
    (h : Mapped L globals graphs verts nextAddr) (hsub : L' ⊆ L) :
    Mapped L' globals graphs verts nextAddr where
  __ := h
  mem_graphs e he := h.mem_graphs e (hsub he)
  vfrom_mem e he := h.vfrom_mem e (hsub he)
  vto_mem e he := h.vto_mem e (hsub he)
  vfrom_global e he := h.vfrom_global e (hsub he)
  vto_global e he := h.vto_global e (hsub he)
  addr_lt e he := h.addr_lt e (hsub he)

theorem SameMaps.mapped {L L' : Finset GddEdge} {ctx ctx' : GddCtx} (h : SameMaps ctx ctx')
    (hm : Mapped L ctx.globals ctx.graphs ctx.verts ctx.nextAddr) (hsub : L' ⊆ L) :
    Mapped L' ctx'.globals ctx'.graphs ctx'.verts ctx'.nextAddr := by
  rw [h.globals, h.graphs, h.verts, h.nextAddr]
  exact hm.subset hsub

/-! ### Counting -/

section Counting

variable {L : Finset GddEdge} {e : GddEdge} (p : GddEdge → Prop) [DecidablePred p]

theorem card_filter_erase (he : e ∈ L) :
    (((L.erase e).filter p).card : ℤ) = (L.filter p).card + if p e then -1 else 0 := by
  rw [filter_erase]
  by_cases hp : p e
  · have hmem : e ∈ L.filter p := mem_filter.2 ⟨he, hp⟩
    have hpos : 0 < (L.filter p).card := card_pos.2 ⟨e, hmem⟩
    rw [card_erase_of_mem hmem, if_pos hp]
    omega
  · have hmem : e ∉ L.filter p := fun h => hp (mem_filter.1 h).2
    rw [erase_eq_of_notMem hmem, if_neg hp]
    omega

theorem card_filter_insert (he : e ∉ L) :
    (((insert e L).filter p).card : ℤ) = (L.filter p).card + if p e then 1 else 0 := by
  rw [filter_insert]
  by_cases hp : p e
  · have hmem : e ∉ L.filter p := fun h => he (mem_filter.1 h).1
    rw [if_pos hp, if_pos hp, card_insert_of_notMem hmem]
    omega
  · rw [if_neg hp, if_neg hp]
    omega

end Counting

/-! ### Linking and unlinking one edge -/

section OneEdge

variable {L : Finset GddEdge} {ctx : GddCtx} {e : GddEdge}

/-- **Linking an edge adds it.** -/
theorem Represents.link (h : Represents L ctx) (he : e ∉ L) :
    Represents (insert e L) (gddEdgeLink ctx e) where
  nodup_in v := by
    have hnot : e ∉ (ctx.vert e.target).edgesIn := fun hmem => he ((h.mem_in _ _).1 hmem).1
    by_cases hv : v = e.target
    · simp [gddEdgeLink, hv, List.nodup_append, h.nodup_in e.target]
      exact fun a ha hae => hnot (hae ▸ ha)
    · simp [gddEdgeLink, hv, h.nodup_in v]
  nodup_out v := by
    have hnot : e ∉ (ctx.vert e.source).edgesOut := fun hmem => he ((h.mem_out _ _).1 hmem).1
    by_cases hv : v = e.source
    · simp [gddEdgeLink, hv, List.nodup_append, h.nodup_out e.source]
      exact fun a ha hae => hnot (hae ▸ ha)
    · simp [gddEdgeLink, hv, h.nodup_out v]
  mem_in v a := by
    by_cases hv : v = e.target
    · subst hv
      simp [gddEdgeLink, h.mem_in]
      tauto
    · simp [gddEdgeLink, h.mem_in, hv]
      grind
  mem_out v a := by
    by_cases hv : v = e.source
    · subst hv
      simp [gddEdgeLink, h.mem_out]
      tauto
    · simp [gddEdgeLink, h.mem_out, hv]
      grind
  top_in := by
    have := h.top_in
    rw [card_insert_of_notMem he]
    simp [gddEdgeLink, addIndeg, addOutdeg, setIn, setOut, this]
  top_out := by
    have := h.top_out
    rw [card_insert_of_notMem he]
    simp [gddEdgeLink, addIndeg, addOutdeg, setIn, setOut, this]
  stat_in vid := by
    rw [card_filter_insert _ he, ← h.stat_in]
    simp [gddEdgeLink]
  stat_out vid := by
    rw [card_filter_insert _ he, ← h.stat_out]
    simp [gddEdgeLink]

/-- **Unlinking an edge takes it away.** -/
theorem Represents.unlink (h : Represents L ctx) (he : e ∈ L) :
    Represents (L.erase e) (gddEdgeUnlink ctx e none none) where
  nodup_in v := by
    by_cases hv : v = e.target
    · simp [gddEdgeUnlink, gddEdgeUnlinkFrom, gddEdgeUnlinkTo, hv, (h.nodup_in e.target).erase]
    · simp [gddEdgeUnlink, gddEdgeUnlinkFrom, gddEdgeUnlinkTo, hv, h.nodup_in v]
  nodup_out v := by
    by_cases hv : v = e.source
    · simp [gddEdgeUnlink, gddEdgeUnlinkFrom, gddEdgeUnlinkTo, hv, (h.nodup_out e.source).erase]
    · simp [gddEdgeUnlink, gddEdgeUnlinkFrom, gddEdgeUnlinkTo, hv, h.nodup_out v]
  mem_in v a := by
    by_cases hv : v = e.target
    · subst hv
      simp [gddEdgeUnlink, gddEdgeUnlinkFrom, gddEdgeUnlinkTo, (h.nodup_in e.target).mem_erase_iff,
        h.mem_in, and_assoc]
    · simp [gddEdgeUnlink, gddEdgeUnlinkFrom, gddEdgeUnlinkTo, hv, h.mem_in]
      grind
  mem_out v a := by
    by_cases hv : v = e.source
    · subst hv
      simp [gddEdgeUnlink, gddEdgeUnlinkFrom, gddEdgeUnlinkTo, (h.nodup_out e.source).mem_erase_iff,
        h.mem_out, and_assoc]
    · simp [gddEdgeUnlink, gddEdgeUnlinkFrom, gddEdgeUnlinkTo, hv, h.mem_out]
      grind
  top_in := by
    have hpos : 0 < L.card := card_pos.2 ⟨e, he⟩
    have htop := h.top_in
    rw [card_erase_of_mem he]
    show ctx.topstat.indeg + -1 = _
    omega
  top_out := by
    have hpos : 0 < L.card := card_pos.2 ⟨e, he⟩
    have htop := h.top_out
    rw [card_erase_of_mem he]
    show ctx.topstat.outdeg + -1 = _
    omega
  stat_in vid := by
    rw [card_filter_erase _ he, ← h.stat_in]
    simp [gddEdgeUnlink, gddEdgeUnlinkFrom, gddEdgeUnlinkTo]
  stat_out vid := by
    rw [card_filter_erase _ he, ← h.stat_out]
    simp [gddEdgeUnlink, gddEdgeUnlinkFrom, gddEdgeUnlinkTo]

theorem list_delete_eq_erase {l : List GddEdge} {i : ℕ} (hnodup : l.Nodup)
    (hi : l[i]? = some e) : (ListIter.standing l i).delete.list = l.erase e := by
  obtain ⟨hlt, hget⟩ := List.getElem?_eq_some_iff.1 hi
  rw [ListIter.list_delete_standing hlt, ← hget, hnodup.erase_getElem]

theorem gddEdgeUnlink_toiter {i : ℕ} (hnodup : (ctx.vert e.target).edgesIn.Nodup)
    (hi : (ctx.vert e.target).edgesIn[i]? = some e) :
    gddEdgeUnlink ctx e none (some (.standing (ctx.vert e.target).edgesIn i)) =
      gddEdgeUnlink ctx e none none := by
  simp [gddEdgeUnlink, gddEdgeUnlinkFrom, gddEdgeUnlinkTo, list_delete_eq_erase hnodup hi]

theorem gddEdgeUnlink_fromiter {i : ℕ} (hnodup : (ctx.vert e.source).edgesOut.Nodup)
    (hi : (ctx.vert e.source).edgesOut[i]? = some e) :
    gddEdgeUnlink ctx e (some (.standing (ctx.vert e.source).edgesOut i)) none =
      gddEdgeUnlink ctx e none none := by
  simp [gddEdgeUnlink, gddEdgeUnlinkFrom, gddEdgeUnlinkTo, list_delete_eq_erase hnodup hi]

end OneEdge

end Cloudberry.Gdd
