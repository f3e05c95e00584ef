/-
# What the reduction computes

An edge of the wait-for graph is held up by others: its waiter must be waited for, its
holder must itself wait, and if it is dotted the holder must wait on the same segment
(`waitRule`). `reduceAt` takes away only edges that are not held up (`not_holds_of_removed`)
and has nothing to do at any vertex only if all are (`stable_of_reduceAt_eq`).
-/

import Cloudberry.Gdd.VertReduce
import Cloudberry.Lib.StableSubset

namespace Cloudberry.Gdd

open List Finset Function

open SupportRule (values exists_mem_values)

/-- When a set of edges keeps an edge from being removed. -/
def waitRule : SupportRule WaitEdge where
  holds p e := (∃ a, p a ∧ a.vto = e.vfrom) ∧ (∃ b, p b ∧ b.vfrom = e.vto) ∧
      (e.solid = false → ∃ b, p b ∧ b.vfrom = e.vto ∧ b.segid = e.segid)
  mono := by
    rintro p q e hpq ⟨⟨a, ha, hav⟩, ⟨b, hb, hbv⟩, hdotted⟩
    refine ⟨⟨a, hpq a ha, hav⟩, ⟨b, hpq b hb, hbv⟩, fun hs => ?_⟩
    obtain ⟨c, hc, hcv⟩ := hdotted hs
    exact ⟨c, hpq c hc, hcv⟩

/-- The edges `L` as they were handed in. -/
abbrev handedIn (L : Finset GddEdge) : Multiset WaitEdge := values GddEdge.toWaitEdge L

theorem waitRule_holds_iff {L : Finset GddEdge} {e : WaitEdge} : waitRule.holds (· ∈ handedIn L) e ↔
      (∃ a ∈ L, a.vto = e.vfrom) ∧ (∃ b ∈ L, b.vfrom = e.vto) ∧
        (e.solid = false → ∃ b ∈ L, b.vfrom = e.vto ∧ b.segid = e.segid) := by
  simp [waitRule, exists_mem_values]

section Rule

variable {L : Finset GddEdge} {v : VertRef} {e : GddEdge}

/-- **`reduceAt` removes only edges without support.** -/
theorem not_holds_of_removed (he : e ∈ L) (hgone : e ∉ reduceAt L v) :
    ¬ waitRule.holds (· ∈ handedIn L) e.toWaitEdge := by
  rw [waitRule_holds_iff]
  rintro ⟨⟨a, ha, hin⟩, ⟨b, hb, hout⟩, hdotted⟩
  unfold reduceAt at hgone
  split_ifs at hgone with hend hlocal
  · -- the edge is at `v`, and `v` has no in-edges or no out-edges at all
    have hat : e.target = v ∨ e.source = v := by
      by_contra hno
      rw [not_or] at hno
      exact hgone (mem_filter.2 ⟨he, hno⟩)
    rcases hat with rfl | rfl
    · rcases hend with hend | hend
      · exact hend e he rfl
      · exact hend b hb hout
    · rcases hend with hend | hend
      · exact hend a ha hin
      · exact hend e he rfl
  · -- the edge is dotted and enters `v`, which has no out-edge on this segment
    have hat : e.target = v ∧ e.solid = false := by
      by_contra hno
      refine hgone (mem_filter.2 ⟨he, fun htarget => ?_⟩)
      by_contra hsolid
      exact hno ⟨htarget, by simpa using hsolid⟩
    obtain ⟨c, hc, hcv, hcs⟩ := hdotted hat.2
    refine hlocal c hc ?_
    rw [← hat.1]
    exact Prod.ext hcs hcv
  · exact hgone he

/-- Nothing to remove at the vertex an edge leaves: the vertex is waited for. -/
theorem exists_in_of_reduceAt_eq (he : e ∈ L) (hsame : reduceAt L e.source = L) :
    ∃ a ∈ L, a.vto = e.vfrom := by
  by_contra hno
  have hend : ∀ a ∈ L, a.vto ≠ e.source.2 := fun a ha heq => hno ⟨a, ha, heq⟩
  have hmem : e ∈ reduceAt L e.source := by rw [hsame]; exact he
  rw [reduceAt, if_pos (Or.inl hend)] at hmem
  exact (mem_filter.1 hmem).2.2 rfl

/-- Nothing to remove at the vertex an edge enters: the vertex waits, and on the same segment
if the edge is dotted. -/
theorem exists_out_of_reduceAt_eq (he : e ∈ L) (hsame : reduceAt L e.target = L) :
    (∃ b ∈ L, b.vfrom = e.vto) ∧
      (e.solid = false → ∃ b ∈ L, b.vfrom = e.vto ∧ b.segid = e.segid) := by
  have hmem : e ∈ reduceAt L e.target := by rw [hsame]; exact he
  have hend : ¬ ((∀ a ∈ L, a.vto ≠ e.target.2) ∨ ∀ a ∈ L, a.vfrom ≠ e.target.2) := by
    intro hend
    rw [reduceAt, if_pos hend] at hmem
    exact (mem_filter.1 hmem).2.1 rfl
  constructor
  · by_contra hno
    push Not at hno
    exact hend (Or.inr hno)
  intro hdotted
  by_contra hno
  push Not at hno
  have hlocal : ∀ a ∈ L, a.source ≠ e.target := by
    intro a ha heq
    obtain ⟨hs, hv⟩ := Prod.mk.inj heq
    exact hno a ha hv hs
  rw [reduceAt, if_neg hend, if_pos hlocal] at hmem
  have hsolid := (mem_filter.1 hmem).2 rfl
  rw [hdotted] at hsolid
  exact Bool.false_ne_true hsolid

/-- **If no vertex of an edge has anything to remove, every edge has support.** -/
theorem stable_of_reduceAt_eq (hsame : ∀ e ∈ L, reduceAt L e.source = L ∧ reduceAt L e.target = L) :
    waitRule.Stable (handedIn L) := by
  intro b hb
  obtain ⟨e, he, rfl⟩ := SupportRule.mem_values.1 hb
  rw [waitRule_holds_iff]
  exact ⟨exists_in_of_reduceAt_eq he (hsame e he).1, exists_out_of_reduceAt_eq he (hsame e he).2⟩

end Rule

/-! ### The walks -/

/-- What a walk that had found `dirty` and now finds `dirty'` did to the linked edges. -/
structure Walked (L L' : Finset GddEdge) (dirty dirty' : Bool) : Prop where
  subset : L' ⊆ L
  covers : ∀ E, waitRule.Covers GddEdge.toWaitEdge E L → waitRule.Covers GddEdge.toWaitEdge E L'
  dirty_iff : dirty' = true ↔ dirty = true ∨ L' ≠ L

theorem Walked.refl (L : Finset GddEdge) (dirty : Bool) : Walked L L dirty dirty :=
  ⟨Subset.refl _, fun _ h => h, by simp⟩

theorem Walked.trans {L₀ L₁ L₂ : Finset GddEdge} {d₀ d₁ d₂ : Bool} (h : Walked L₀ L₁ d₀ d₁)
    (h' : Walked L₁ L₂ d₁ d₂) : Walked L₀ L₂ d₀ d₂ where
  subset := h'.subset.trans h.subset
  covers E hE := h'.covers E (h.covers E hE)
  dirty_iff := by
    rw [h'.dirty_iff, h.dirty_iff, ne_iff_of_subset h.subset h'.subset, or_assoc]

section Walk

variable {L : Finset GddEdge} {ctx : GddCtx}

theorem Links.vertReduce (h : Links L ctx) (v : VertRef) (dirty : Bool) :
    Links (reduceAt L v) (gddVertReduce ctx v).1 ∧ (gddVertReduce ctx v).1.verts = ctx.verts ∧
      Walked L (reduceAt L v) dirty (if (gddVertReduce ctx v).2 then true else dirty) := by
  obtain ⟨hrep, hmaps, hdirty⟩ := h.rep.vertReduce v
  refine ⟨⟨hrep, hmaps.mapped h.mapped (reduceAt_subset L v)⟩, hmaps.verts,
    ⟨reduceAt_subset L v, fun E hE => hE.prune fun e he => not_holds_of_removed he, ?_⟩⟩
  by_cases hr : (gddVertReduce ctx v).2 = true
  · simp [hr, hdirty.1 hr]
  have hsame : reduceAt L v = L := by
    by_contra hne
    exact hr (hdirty.2 hne)
  simp [hr, hsame]

theorem Links.deleteVert {segid : ℤ} {vid : DistributedTransactionId}
    {visited rest : List DistributedTransactionId} (h : Links L ctx)
    (hverts : ctx.verts segid = visited ++ vid :: rest)
    (hin : (ctx.vert (segid, vid)).edgesIn = []) (hout : (ctx.vert (segid, vid)).edgesOut = []) :
    ∃ rest' : List DistributedTransactionId, rest'.Perm rest ∧
      (ctx.verts segid).swapRemove visited.length = visited ++ rest' ∧
      Links L { ctx with verts := update ctx.verts segid (visited ++ rest') } := by
  obtain ⟨rest', hperm, heq⟩ := swapRemove_append_cons visited vid rest
  have hm := h.mapped
  have hnodup : (visited ++ rest').Nodup := by
    have hall := hm.nodup_verts segid
    rw [hverts, nodup_middle] at hall
    exact (hperm.append_left visited).nodup_iff.2 (nodup_cons.1 hall).2
  -- a vertex that has an edge is another one, and stays
  have hstay : ∀ w, w ≠ vid → w ∈ ctx.verts segid → w ∈ visited ++ rest' := by
    intro w hne hw
    rw [hverts, List.mem_append, List.mem_cons] at hw
    rw [mem_append, hperm.mem_iff]
    tauto
  have hkeep : ∀ s w, (s, w) ≠ (segid, vid) → w ∈ ctx.verts s →
      w ∈ update ctx.verts segid (visited ++ rest') s := by
    intro s w hne hw
    by_cases hs : s = segid
    · subst hs
      rw [update_self]
      exact hstay w (fun heq => hne (by rw [heq])) hw
    · rwa [update_of_ne hs]
  have hsource : ∀ e ∈ L, e.source ≠ (segid, vid) := fun e he heq => by
    have hmem := (h.rep.mem_out (segid, vid) e).2 ⟨he, heq⟩
    rw [hout] at hmem
    exact absurd hmem not_mem_nil
  have htarget : ∀ e ∈ L, e.target ≠ (segid, vid) := fun e he heq => by
    have hmem := (h.rep.mem_in (segid, vid) e).2 ⟨he, heq⟩
    rw [hin] at hmem
    exact absurd hmem not_mem_nil
  refine ⟨rest', hperm, by rw [hverts, heq], { h.rep with }, { hm with
    nodup_verts := ?_
    vfrom_mem := fun e he => hkeep _ _ (hsource e he) (hm.vfrom_mem e he)
    vto_mem := fun e he => hkeep _ _ (htarget e he) (hm.vto_mem e he) }⟩
  intro s
  show (update ctx.verts segid (visited ++ rest') s).Nodup
  by_cases hs : s = segid
  · subst hs
    rwa [update_self]
  · rw [update_of_ne hs]
    exact hm.nodup_verts s

/-- One round of the walk over the vertices of a graph: the walk goes on from a context that
has the vertex reduced, with the same vertices to see, whether this one stays in the map or
is deleted. -/
theorem reduceVerts_round {segid : ℤ} {vid : DistributedTransactionId}
    {visited rest : List DistributedTransactionId} (h : Links L ctx)
    (hverts : ctx.verts segid = visited ++ vid :: rest) (n : ℕ) (dirty : Bool) :
    ∃ (ctx' : GddCtx) (visited' rest' : List DistributedTransactionId) (dirty' : Bool),
      reduceVerts segid (n + 1) visited.length ctx dirty =
        reduceVerts segid n visited'.length ctx' dirty' ∧
      Links (reduceAt L (segid, vid)) ctx' ∧
      ctx'.verts segid = visited' ++ rest' ∧ rest'.Perm rest ∧
      Walked L (reduceAt L (segid, vid)) dirty dirty' := by
  have hget : (ctx.verts segid)[visited.length]? = some vid := by simp [hverts]
  obtain ⟨h₁, hverts₁, hwalk⟩ := h.vertReduce (segid, vid) dirty
  rw [← hverts₁] at hverts
  by_cases hempty : ((gddVertReduce ctx (segid, vid)).1.vert (segid, vid)).edgesIn.length = 0 ∧
      ((gddVertReduce ctx (segid, vid)).1.vert (segid, vid)).edgesOut.length = 0
  · obtain ⟨rest', hperm, heq, h₂⟩ := h₁.deleteVert hverts
      (length_eq_zero_iff.1 hempty.1) (length_eq_zero_iff.1 hempty.2)
    refine ⟨_, visited, rest', _, ?_, h₂, by simp, hperm, hwalk⟩
    rw [reduceVerts, hget]
    simp only [if_pos hempty, heq]
  · refine ⟨_, visited ++ [vid], rest, _, ?_, h₁, by simpa using hverts, Perm.refl _, hwalk⟩
    rw [reduceVerts, hget]
    simp only [if_neg hempty]
    simp

/-- **A walk over the vertices of a graph.** `rest` is what the walk has still to see; if
nothing is removed from here on, nothing is removable at any vertex of `rest`. -/
theorem reduceVerts_spec (segid : ℤ) (n : ℕ) :
    ∀ (L : Finset GddEdge) (ctx : GddCtx) (visited rest : List DistributedTransactionId)
      (dirty : Bool), Links L ctx → ctx.verts segid = visited ++ rest → rest.length ≤ n →
      ∃ L', Links L' (reduceVerts segid n visited.length ctx dirty).1 ∧
        Walked L L' dirty (reduceVerts segid n visited.length ctx dirty).2 ∧
        (L' = L → ∀ vid ∈ rest, reduceAt L (segid, vid) = L) := by
  induction n with
  | zero =>
    intro L ctx visited rest dirty h hverts hn
    obtain rfl : rest = [] := length_eq_zero_iff.1 (Nat.le_zero.1 hn)
    exact ⟨L, h, Walked.refl L dirty, by simp⟩
  | succ n ih =>
    intro L ctx visited rest dirty h hverts hn
    match rest with
    | [] =>
      have hstop : reduceVerts segid (n + 1) visited.length ctx dirty = (ctx, dirty) := by
        simp [reduceVerts, hverts]
      rw [hstop]
      exact ⟨L, h, Walked.refl L dirty, by simp⟩
    | vid :: rest =>
      obtain ⟨ctx', visited', rest', dirty', hstep, h', hverts', hperm, hwalk⟩ :=
        reduceVerts_round h hverts n dirty
      have hn' : rest'.length ≤ n := by
        rw [hperm.length_eq]
        simpa using hn
      obtain ⟨L', hL', hwalk', hsettled⟩ := ih _ ctx' visited' rest' dirty' h' hverts' hn'
      rw [hstep]
      refine ⟨L', hL', hwalk.trans hwalk', fun hsame => ?_⟩
      -- nothing was removed in all, so nothing in this round
      have hround : reduceAt L (segid, vid) = L :=
        (reduceAt_subset _ _).antisymm (hsame ▸ hwalk'.subset)
      rw [hround] at hsettled
      exact forall_mem_cons.2 ⟨hround, fun w hw => hsettled hsame w (hperm.mem_iff.2 hw)⟩

/-- **A walk over the graphs.** If it removes nothing, nothing is removable at the ends of
any edge. -/
theorem reduceGraphs_spec (graphs : List ℤ) :
    ∀ (L : Finset GddEdge) (ctx : GddCtx) (dirty : Bool), Links L ctx →
      ∃ L', Links L' (reduceGraphs graphs ctx dirty).1 ∧
        Walked L L' dirty (reduceGraphs graphs ctx dirty).2 ∧
        (L' = L → ∀ e ∈ L, e.segid ∈ graphs →
          reduceAt L e.source = L ∧ reduceAt L e.target = L) := by
  induction graphs with
  | nil => exact fun L ctx dirty h => ⟨L, h, Walked.refl L dirty, by simp⟩
  | cons segid graphs ih =>
    intro L ctx dirty h
    obtain ⟨L₁, h₁, hwalk₁, hsettled₁⟩ := reduceVerts_spec segid (ctx.verts segid).length L ctx []
      (ctx.verts segid) dirty h rfl le_rfl
    obtain ⟨L₂, h₂, hwalk₂, hsettled₂⟩ := ih L₁ _ _ h₁
    refine ⟨L₂, h₂, hwalk₁.trans hwalk₂, fun hsame e he hseg => ?_⟩
    obtain rfl : L₁ = L := hwalk₁.subset.antisymm (hsame ▸ hwalk₂.subset)
    rcases mem_cons.1 hseg with rfl | hseg
    · exact ⟨hsettled₁ rfl _ (h.mapped.vfrom_mem e he), hsettled₁ rfl _ (h.mapped.vto_mem e he)⟩
    · exact hsettled₂ hsame e he hseg

/-- **The walks end, and what they leave is stable.** One more walk than there are edges is
enough. -/
theorem gddCtxReduce_spec (n : ℕ) :
    ∀ (L : Finset GddEdge) (ctx : GddCtx), Links L ctx → L.card < n →
      ∃ ctx' L', gddCtxReduce n ctx = some ctx' ∧ Links L' ctx' ∧ L' ⊆ L ∧
        (∀ E, waitRule.Covers GddEdge.toWaitEdge E L → waitRule.Covers GddEdge.toWaitEdge E L') ∧
        waitRule.Stable (handedIn L') := by
  induction n with
  | zero => intro L ctx _ hn; omega
  | succ n ih =>
    intro L ctx h hn
    obtain ⟨L₁, h₁, hwalk, hsettled⟩ := reduceGraphs_spec ctx.graphs L ctx false h
    match hpass : reduceGraphs ctx.graphs ctx false with
    | (ctx₁, true) =>
      rw [hpass] at h₁ hwalk
      have hne : L₁ ≠ L := by simpa using hwalk.dirty_iff.1 rfl
      have hlt : L₁.card < L.card := card_lt_card (hwalk.subset.ssubset_of_ne hne)
      obtain ⟨ctx', L', hreduce, h', hsub, hcov, hstable⟩ := ih L₁ ctx₁ h₁ (by omega)
      refine ⟨ctx', L', ?_, h', hsub.trans hwalk.subset,
        fun E hE => hcov E (hwalk.covers E hE), hstable⟩
      rw [gddCtxReduce, hpass]
      exact hreduce
    | (ctx₁, false) =>
      rw [hpass] at h₁ hwalk
      obtain rfl : L₁ = L := by
        by_contra hne
        exact Bool.false_ne_true (hwalk.dirty_iff.2 (Or.inr hne))
      refine ⟨ctx₁, L₁, by rw [gddCtxReduce, hpass], h₁, Subset.refl _, fun _ hE => hE, ?_⟩
      exact stable_of_reduceAt_eq fun e he => hsettled rfl e he (h.mapped.mem_graphs e he)

end Walk

end Cloudberry.Gdd
