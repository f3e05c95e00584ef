/-
# Reducing at one vertex

What `gddVertReduce` does to the linked edges, as a function on sets of edges: `reduceAt`.
The two loops behind it delete from the list they run over; `foreachInEdge_spec` and
`foreachOutEdge_spec` say that they unlink exactly the edges they should, whatever else the
unlinking moves around. `gddVertReduce_spec` puts them together: the context goes from
representing `L` to representing `reduceAt L v`, and `dirty` tells whether these differ.
-/

import Cloudberry.Gdd.Linked

namespace Cloudberry.Gdd

open List Finset ListIter SameMaps

/-- What `gddVertReduce` leaves of the linked edges `L` at the vertex `v`. -/
def reduceAt (L : Finset GddEdge) (v : VertRef) : Finset GddEdge :=
  if (∀ e ∈ L, e.vto ≠ v.2) ∨ (∀ e ∈ L, e.vfrom ≠ v.2) then
    L.filter fun e => e.target ≠ v ∧ e.source ≠ v
  else if ∀ e ∈ L, e.source ≠ v then
    L.filter fun e => e.target = v → e.solid = true
  else L

theorem reduceAt_subset (L : Finset GddEdge) (v : VertRef) : reduceAt L v ⊆ L := by
  unfold reduceAt
  split_ifs
  · exact filter_subset _ _
  · exact filter_subset _ _
  · exact Subset.refl _

theorem ne_iff_of_subset {L L₁ L₂ : Finset GddEdge} (h₁ : L₁ ⊆ L) (h₂ : L₂ ⊆ L₁) :
    L₂ ≠ L ↔ L₁ ≠ L ∨ L₂ ≠ L₁ := by
  rw [← not_and_or, not_iff_not]
  constructor
  · rintro rfl
    exact ⟨h₁.antisymm h₂, h₂.antisymm h₁⟩
  · rintro ⟨rfl, rfl⟩
    rfl

section Loops

variable {L : Finset GddEdge} {ctx : GddCtx} {v : VertRef}

theorem edgesIn_unlink (h : Represents L ctx) {kept rest : List GddEdge} {e : GddEdge}
    (hlist : (ctx.vert e.target).edgesIn = kept ++ e :: rest) :
    ((gddEdgeUnlink ctx e none none).vert e.target).edgesIn = kept ++ rest := by
  have hnodup := h.nodup_in e.target
  rw [hlist] at hnodup
  have hnot : e ∉ kept := fun hmem =>
    (nodup_append.1 hnodup).2.2 e hmem e (mem_cons_self ..) rfl
  simp [gddEdgeUnlink, gddEdgeUnlinkFrom, gddEdgeUnlinkTo, hlist, erase_append_right _ hnot]

theorem edgesOut_unlink {rest : List GddEdge} {e : GddEdge}
    (hlist : (ctx.vert e.source).edgesOut = e :: rest) :
    ((gddEdgeUnlink ctx e none none).vert e.source).edgesOut = rest := by
  simp [gddEdgeUnlink, gddEdgeUnlinkFrom, gddEdgeUnlinkTo, hlist]

/-- **A loop over the in-edges unlinks those it does not skip.** The invariant: the list is
what the loop has passed and kept, then what it has not seen. -/
theorem foreachInEdge_spec (skip : GddEdge → Bool) (rest : List GddEdge) :
    ∀ (n : ℕ) (L : Finset GddEdge) (ctx : GddCtx) (kept : List GddEdge) (dirty : Bool),
      Represents L ctx → (ctx.vert v).edgesIn = kept ++ rest → rest.length ≤ n →
      Represents (L \ (rest.filter fun e => !skip e).toFinset)
          (foreachInEdge skip v n ctx (.standing (kept ++ rest) kept.length) dirty).1 ∧
        SameMaps ctx (foreachInEdge skip v n ctx (.standing (kept ++ rest) kept.length) dirty).1 ∧
        (foreachInEdge skip v n ctx (.standing (kept ++ rest) kept.length) dirty).2 =
          (dirty || rest.any fun e => !skip e) := by
  induction rest with
  | nil =>
    intro n L ctx kept dirty h hlist hn
    have hstop : foreachInEdge skip v n ctx (.standing (kept ++ []) kept.length) dirty =
        (ctx, dirty) := by
      cases n with
      | zero => rfl
      | succ n => simp [foreachInEdge, ptr_standing]
    rw [hstop]
    simp [h, refl]
  | cons e rest ih =>
    intro n L ctx kept dirty h hlist hn
    obtain ⟨n, rfl⟩ : ∃ m, n = m + 1 := ⟨n - 1, by simp at hn; omega⟩
    have hn' : rest.length ≤ n := by simpa using hn
    have hget : (kept ++ e :: rest)[kept.length]? = some e := by simp
    have hlt : kept.length < (kept ++ e :: rest).length := by simp
    obtain ⟨heL, rfl⟩ := (h.mem_in v e).1 (by rw [hlist]; simp)
    by_cases hskip : skip e = true
    · -- the edge is kept: it goes over to the part that is behind
      have hstep : foreachInEdge skip e.target (n + 1) ctx
          (.standing (kept ++ e :: rest) kept.length) dirty =
          foreachInEdge skip e.target n ctx
            (.standing ((kept ++ [e]) ++ rest) (kept ++ [e]).length) dirty := by
        rw [foreachInEdge, ptr_standing, hget]
        simp only [hskip, if_true, hlist, next_standing hlt]
        simp
      rw [hstep]
      have hlist' : (ctx.vert e.target).edgesIn = (kept ++ [e]) ++ rest := by
        rw [hlist, append_assoc, singleton_append]
      simpa [hskip] using ih n L ctx (kept ++ [e]) dirty h hlist' hn'
    · -- the edge goes: the rest moves down to where the iterator stands
      have herase : (kept ++ e :: rest).eraseIdx kept.length = kept ++ rest := by
        rw [eraseIdx_append_of_length_le (Nat.le_refl _), Nat.sub_self, eraseIdx_cons_zero]
      have hrest := edgesIn_unlink h hlist
      have hstep : foreachInEdge skip e.target (n + 1) ctx
          (.standing (kept ++ e :: rest) kept.length) dirty =
          foreachInEdge skip e.target n (gddEdgeUnlink ctx e none none)
            (.standing (kept ++ rest) kept.length) true := by
        have hunlink := gddEdgeUnlink_toiter (h.nodup_in e.target) (by rw [hlist]; exact hget)
        rw [hlist] at hunlink
        rw [foreachInEdge, ptr_standing, hget]
        simp only [hskip, hunlink, hrest]
        have hnext := delete_next hlt
        rw [herase] at hnext
        simp [hnext]
      rw [hstep]
      obtain ⟨hrep, hmaps, hdirty⟩ := ih n (L.erase e) _ kept true (h.unlink heL) hrest hn'
      refine ⟨?_, (sameMaps_unlink _ _ _ _).trans hmaps, ?_⟩
      · simpa [hskip, sdiff_insert, erase_sdiff_comm] using hrep
      · simp [hdirty, hskip]

/-- **The loop over the out-edges unlinks all of them.** -/
theorem foreachOutEdge_spec (rest : List GddEdge) :
    ∀ (n : ℕ) (L : Finset GddEdge) (ctx : GddCtx) (dirty : Bool),
      Represents L ctx → (ctx.vert v).edgesOut = rest → rest.length ≤ n →
      Represents (L \ rest.toFinset) (foreachOutEdge v n ctx (.standing rest 0) dirty).1 ∧
        SameMaps ctx (foreachOutEdge v n ctx (.standing rest 0) dirty).1 ∧
        (foreachOutEdge v n ctx (.standing rest 0) dirty).2 = (dirty || !rest.isEmpty) := by
  induction rest with
  | nil =>
    intro n L ctx dirty h hlist hn
    have hstop : foreachOutEdge v n ctx (.standing [] 0) dirty = (ctx, dirty) := by
      cases n with
      | zero => rfl
      | succ n => simp [foreachOutEdge, ptr_standing]
    rw [hstop]
    simp [h, refl]
  | cons e rest ih =>
    intro n L ctx dirty h hlist hn
    obtain ⟨n, rfl⟩ : ∃ m, n = m + 1 := ⟨n - 1, by simp at hn; omega⟩
    have hn' : rest.length ≤ n := by simpa using hn
    obtain ⟨heL, rfl⟩ := (h.mem_out v e).1 (by rw [hlist]; simp)
    have hrest := edgesOut_unlink hlist
    have hstep : foreachOutEdge e.source (n + 1) ctx (.standing (e :: rest) 0) dirty =
        foreachOutEdge e.source n (gddEdgeUnlink ctx e none none) (.standing rest 0) true := by
      have hunlink := gddEdgeUnlink_fromiter (h.nodup_out e.source) (i := 0)
        (by rw [hlist, getElem?_cons_zero])
      rw [hlist] at hunlink
      rw [foreachOutEdge, ptr_standing, getElem?_cons_zero]
      have hnext := delete_next (l := e :: rest) (i := 0) (by simp)
      rw [eraseIdx_cons_zero] at hnext
      simp [hunlink, hrest, hnext]
    rw [hstep]
    obtain ⟨hrep, hmaps, hdirty⟩ := ih n (L.erase e) _ true (h.unlink heL) hrest hn'
    refine ⟨?_, (sameMaps_unlink _ _ _ _).trans hmaps, ?_⟩
    · simpa [sdiff_insert, erase_sdiff_comm] using hrep
    · simp [hdirty]

end Loops

section VertReduce

variable {L : Finset GddEdge} {ctx : GddCtx} {v : VertRef}

section

variable (h : Represents L ctx)
include h

theorem Represents.foreachInEdge (skip : GddEdge → Bool) (v : VertRef) :
    let r := foreachInEdge skip v (ctx.vert v).edgesIn.length ctx
      (.start (ctx.vert v).edgesIn) false
    Represents (L.filter fun e => e.target = v → skip e = true) r.1 ∧ SameMaps ctx r.1 ∧
      (r.2 = true ↔ (L.filter fun e => e.target = v → skip e = true) ≠ L) := by
  obtain ⟨hrep, hmaps, hdirty⟩ := foreachInEdge_spec skip (ctx.vert v).edgesIn _ L ctx [] false h
    rfl le_rfl
  have hleft : L \ ((ctx.vert v).edgesIn.filter fun e => !skip e).toFinset =
      L.filter fun e => e.target = v → skip e = true := by
    ext e
    simp [h.mem_in v e]
    tauto
  rw [start_eq_standing]
  refine ⟨hleft ▸ hrep, hmaps, ?_⟩
  simp only [List.nil_append, List.length_nil] at hdirty
  simp [hdirty, h.mem_in v, and_assoc]

theorem Represents.foreachOutEdge (v : VertRef) (dirty : Bool) :
    let r := foreachOutEdge v (ctx.vert v).edgesOut.length ctx
      (.start (ctx.vert v).edgesOut) dirty
    Represents (L.filter fun e => e.source ≠ v) r.1 ∧ SameMaps ctx r.1 ∧
      (r.2 = true ↔ dirty = true ∨ (L.filter fun e => e.source ≠ v) ≠ L) := by
  obtain ⟨hrep, hmaps, hdirty⟩ := foreachOutEdge_spec (ctx.vert v).edgesOut _ L ctx dirty h
    rfl le_rfl
  have hleft : L \ (ctx.vert v).edgesOut.toFinset = L.filter fun e => e.source ≠ v := by
    ext e
    simp [h.mem_out v e]
    tauto
  rw [start_eq_standing]
  refine ⟨hleft ▸ hrep, hmaps, ?_⟩
  have hempty : (ctx.vert v).edgesOut ≠ [] ↔ ∃ e ∈ L, e.source = v := by
    rw [Ne, eq_nil_iff_forall_not_mem]
    simp [h.mem_out v]
  simp [hdirty, hempty]

theorem Represents.unlinkAll (v : VertRef) :
    Represents (L.filter fun e => e.target ≠ v ∧ e.source ≠ v) (gddVertUnlinkAll ctx v).1 ∧
      SameMaps ctx (gddVertUnlinkAll ctx v).1 ∧
      ((gddVertUnlinkAll ctx v).2 = true ↔
        (L.filter fun e => e.target ≠ v ∧ e.source ≠ v) ≠ L) := by
  obtain ⟨hrepIn, hmapsIn, hdirtyIn⟩ := h.foreachInEdge (fun _ => false) v
  obtain ⟨hrepOut, hmapsOut, hdirtyOut⟩ := hrepIn.foreachOutEdge v
    (Gdd.foreachInEdge (fun _ => false) v (ctx.vert v).edgesIn.length ctx
      (.start (ctx.vert v).edgesIn) false).2
  have hboth : ((L.filter fun e => e.target = v → false = true).filter fun e => e.source ≠ v) =
      L.filter fun e => e.target ≠ v ∧ e.source ≠ v := by
    rw [Finset.filter_filter]
    simp
  refine ⟨hboth ▸ hrepOut, hmapsIn.trans hmapsOut, ?_⟩
  show (Gdd.foreachOutEdge _ _ _ _ _).2 = true ↔ _
  rw [hdirtyOut, hdirtyIn, ← hboth]
  exact (ne_iff_of_subset (filter_subset _ _) (filter_subset _ _)).symm

/-- **`gddVertReduce` refines `reduceAt`.** -/
theorem Represents.vertReduce (v : VertRef) :
    Represents (reduceAt L v) (gddVertReduce ctx v).1 ∧ SameMaps ctx (gddVertReduce ctx v).1 ∧
      ((gddVertReduce ctx v).2 = true ↔ reduceAt L v ≠ L) := by
  have hindeg : (ctx.stat v.2).indeg = 0 ↔ ∀ e ∈ L, e.vto ≠ v.2 := by
    rw [h.stat_in, Int.natCast_eq_zero, card_eq_zero, filter_eq_empty_iff]
  have houtdeg : (ctx.stat v.2).outdeg = 0 ↔ ∀ e ∈ L, e.vfrom ≠ v.2 := by
    rw [h.stat_out, Int.natCast_eq_zero, card_eq_zero, filter_eq_empty_iff]
  have hlocal : (ctx.vert v).edgesOut.length = 0 ↔ ∀ e ∈ L, e.source ≠ v := by
    rw [length_eq_zero_iff, eq_nil_iff_forall_not_mem]
    simp [h.mem_out v]
  unfold gddVertReduce reduceAt
  simp only [hindeg, houtdeg, hlocal]
  split_ifs
  · exact h.unlinkAll v
  · exact h.foreachInEdge (fun edge => edge.solid) v
  · exact ⟨h, refl _, by simp⟩

end

end VertReduce

end Cloudberry.Gdd
