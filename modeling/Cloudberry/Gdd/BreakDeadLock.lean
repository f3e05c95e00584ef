/-
# Breaking deadlocks

While any edge is left, `GddCtxBreakDeadLock` takes the largest id that still has one,
removes its vertex on every segment and reduces again. Each round should take away an edge,
so the rounds should end (`exists_broken`).

`DistributedTransactionId` has 64 bits, but `gddCtxGetMaxVid` returns the id as an `int`. An
id that does not survive the way through `int` comes back as another one; removing that one
removes nothing in general, the reduction finds nothing to do either, and the loop never
ends.
-/

import Cloudberry.Gdd.Deadlock

namespace Cloudberry.Gdd

open List Option Finset Bool BitVec Prod

/-! ### The functions -/

/-- `gddGraphRemoveVid`: the first vertex with this id loses its edges and its place in the
map. -/
def gddGraphRemoveVid (ctx : GddCtx) (segid : ℤ) (vid : DistributedTransactionId) : GddCtx :=
  if vid ∈ ctx.verts segid then
    let ctx := (gddVertUnlinkAll ctx (segid, vid)).1
    let verts := (ctx.verts segid).swapRemove ((ctx.verts segid).idxOf vid)
    { ctx with verts := Function.update ctx.verts segid verts }
  else ctx

/-- The loop of `gddCtxRemoveVid` over the graphs. -/
def removeVidFrom (vid : DistributedTransactionId) (graphs : List ℤ) (ctx : GddCtx) : GddCtx :=
  graphs.foldl (fun ctx segid => gddGraphRemoveVid ctx segid vid) ctx

section

variable (ctx : GddCtx)

def gddCtxRemoveVid (vid : DistributedTransactionId) : GddCtx :=
  removeVidFrom vid ctx.graphs ctx

/-- The ids that the loop of `gddCtxGetMaxVid` does not skip. -/
def vidsWithEdges : List DistributedTransactionId :=
  ctx.graphs.flatMap fun segid => (ctx.verts segid).filter fun vid =>
    (ctx.vert (segid, vid)).edgesIn.length ≠ 0 ∨ (ctx.vert (segid, vid)).edgesOut.length ≠ 0

/-- `maxvid` of `gddCtxGetMaxVid`, before it is returned. -/
def maxVid : DistributedTransactionId :=
  (vidsWithEdges ctx).foldl (fun maxvid vid => if maxvid > vid then maxvid else vid) 0

/-- `gddCtxGetMaxVid`: what it returns is an `int`. -/
def gddCtxGetMaxVid : Int32 := (maxVid ctx).toUInt32.toInt32

def gddCtxEmpty : Bool := ctx.topstat.indeg = 0

end

/-- `GddCtxBreakDeadLock`: the ids to cancel and the context that is left. The number bounds
the rounds, and the walks of each reduction; without an answer when it is used up. -/
def gddCtxBreakDeadLock : ℕ → GddCtx → Option (List DistributedTransactionId × GddCtx)
  | 0, _ => none
  | n + 1, ctx =>
    if gddCtxEmpty ctx then some ([], ctx)
    else
      -- the `int` is assigned to a `DistributedTransactionId`
      let maxvid := (gddCtxGetMaxVid ctx).toInt64.toUInt64
      (gddCtxReduce (n + 1) (gddCtxRemoveVid ctx maxvid)).bind fun ctx =>
        (gddCtxBreakDeadLock n ctx).map fun r => (maxvid :: r.1, r.2)

/-! ### What breaking should do -/

def HasEdge (ctx : GddCtx) (vid : DistributedTransactionId) : Prop :=
  ∃ segid ∈ ctx.graphs, vid ∈ ctx.verts segid ∧
    ((ctx.vert (segid, vid)).edgesIn ≠ [] ∨ (ctx.vert (segid, vid)).edgesOut ≠ [])

/-- The ids `vids` are cancelled one by one, each the largest that has an edge at that time,
until no edge is left. -/
inductive Broken : GddCtx → List DistributedTransactionId → GddCtx → Prop
  | empty {ctx : GddCtx} (hempty : gddCtxEmpty ctx = true) : Broken ctx [] ctx
  | cancel {ctx ctx₁ ctx' : GddCtx} {vid : DistributedTransactionId}
      {vids : List DistributedTransactionId} {n : ℕ} (hempty : gddCtxEmpty ctx = false)
      (hmax : IsGreatest {w | HasEdge ctx w} vid)
      (hreduce : gddCtxReduce n (gddCtxRemoveVid ctx vid) = some ctx₁)
      (hrest : Broken ctx₁ vids ctx') : Broken ctx (vid :: vids) ctx'

/-- `GddCtxBreakDeadLock` returns, and its answer is right. -/
def BreaksDeadlocks (ctx : GddCtx) : Prop :=
  ∃ n vids ctx', gddCtxBreakDeadLock n ctx = some (vids, ctx') ∧ Broken ctx vids ctx' ∧
    vids.Nodup ∧ ctx'.topstat = ⟨0, 0⟩ ∧ outEdges ctx' = [] ∧ inEdges ctx' = []

/-- The id is the same after it has been an `int`. -/
def SurvivesInt (vid : DistributedTransactionId) : Prop :=
  vid.toUInt32.toInt32.toInt64.toUInt64 = vid

/-- Ids below 2^31 survive, and those that are negative numbers of 32 bits. -/
theorem survivesInt_iff (vid : DistributedTransactionId) :
    SurvivesInt vid ↔ vid.toNat < 2 ^ 31 ∨ 2 ^ 64 - 2 ^ 31 ≤ vid.toNat := by
  have hbits : (vid.toUInt32.toInt32.toInt64.toUInt64).toBitVec =
      (vid.toBitVec.setWidth 32).signExtend 64 := rfl
  have hlt : vid.toBitVec.toNat < 2 ^ 64 := vid.toBitVec.isLt
  rw [SurvivesInt, ← UInt64.toBitVec_inj, hbits, ← toNat_inj, toNat_signExtend,
    msb_eq_decide, toNat_setWidth, toNat_setWidth, ← UInt64.toNat_toBitVec]
  generalize vid.toBitVec.toNat = n at hlt ⊢
  by_cases hsign : 2 ^ (32 - 1) ≤ n % 2 ^ 32
  · rw [decide_eq_true hsign, if_pos rfl]
    omega
  · rw [decide_eq_false hsign, if_neg Bool.false_ne_true]
    omega

/-! ### Removing an id -/

section Remove

variable {L : Finset GddEdge} {ctx : GddCtx}

theorem Links.graphRemoveVid (h : Links L ctx) (segid : ℤ) (vid : DistributedTransactionId) :
    Links (L.filter fun e => e.target ≠ (segid, vid) ∧ e.source ≠ (segid, vid))
        (gddGraphRemoveVid ctx segid vid) ∧
      (gddGraphRemoveVid ctx segid vid).graphs = ctx.graphs := by
  unfold gddGraphRemoveVid
  by_cases hmem : vid ∈ ctx.verts segid
  · rw [if_pos hmem]
    obtain ⟨hrep, hmaps, -⟩ := h.rep.unlinkAll (segid, vid)
    have h₁ : Links _ (gddVertUnlinkAll ctx (segid, vid)).1 :=
      ⟨hrep, hmaps.mapped h.mapped (filter_subset _ _)⟩
    obtain ⟨visited, _, hverts⟩ := append_of_mem hmem
    rw [← hmaps.verts] at hverts
    have hnot : vid ∉ visited := by
      have hnodup := h₁.mapped.nodup_verts segid
      rw [hverts, nodup_middle] at hnodup
      exact fun hv => (nodup_cons.1 hnodup).1 (mem_append_left _ hv)
    have hidx : ((gddVertUnlinkAll ctx (segid, vid)).1.verts segid).idxOf vid = visited.length := by
      rw [hverts, idxOf_append_of_notMem hnot, idxOf_cons_self, add_zero]
    have hin : ((gddVertUnlinkAll ctx (segid, vid)).1.vert (segid, vid)).edgesIn = [] := by
      refine eq_nil_iff_forall_not_mem.2 fun e he => ?_
      obtain ⟨heL, htarget⟩ := (hrep.mem_in _ e).1 he
      exact (mem_filter.1 heL).2.1 htarget
    have hout : ((gddVertUnlinkAll ctx (segid, vid)).1.vert (segid, vid)).edgesOut = [] := by
      refine eq_nil_iff_forall_not_mem.2 fun e he => ?_
      obtain ⟨heL, hsource⟩ := (hrep.mem_out _ e).1 he
      exact (mem_filter.1 heL).2.2 hsource
    obtain ⟨_, -, hswap, h₂⟩ := h₁.deleteVert hverts hin hout
    dsimp only
    rw [hidx, hswap]
    exact ⟨h₂, hmaps.graphs⟩
  · -- no vertex, so no edge there
    rw [if_neg hmem]
    have hall : (L.filter fun e => e.target ≠ (segid, vid) ∧ e.source ≠ (segid, vid)) = L := by
      refine filter_true_of_mem fun e he => ⟨?_, ?_⟩
      · rintro heq
        obtain ⟨rfl, rfl⟩ := mk.inj heq
        exact hmem (h.mapped.vto_mem e he)
      · rintro heq
        obtain ⟨rfl, rfl⟩ := mk.inj heq
        exact hmem (h.mapped.vfrom_mem e he)
    rw [hall]
    exact ⟨h, rfl⟩

theorem Links.removeVidFrom (vid : DistributedTransactionId) (graphs : List ℤ) :
    ∀ {L : Finset GddEdge} {ctx : GddCtx}, Links L ctx →
      Links (L.filter fun e => e.segid ∈ graphs → e.vto ≠ vid ∧ e.vfrom ≠ vid)
        (removeVidFrom vid graphs ctx) := by
  induction graphs with
  | nil =>
    intro L ctx h
    have hall : (L.filter fun e => e.segid ∈ ([] : List ℤ) → e.vto ≠ vid ∧ e.vfrom ≠ vid) = L :=
      filter_true_of_mem fun e _ hseg => absurd hseg not_mem_nil
    rw [hall]
    exact h
  | cons segid graphs ih =>
    intro L ctx h
    have hnext := ih (h.graphRemoveVid segid vid).1
    have hboth : ((L.filter fun e => e.target ≠ (segid, vid) ∧ e.source ≠ (segid, vid)).filter
        fun e => e.segid ∈ graphs → e.vto ≠ vid ∧ e.vfrom ≠ vid) =
        L.filter fun e => e.segid ∈ segid :: graphs → e.vto ≠ vid ∧ e.vfrom ≠ vid := by
      rw [Finset.filter_filter]
      refine filter_congr fun e _ => ?_
      simp only [GddEdge.target, GddEdge.source, ne_eq, Prod.mk.injEq, List.mem_cons]
      grind
    rw [hboth] at hnext
    exact hnext

/-- **`gddCtxRemoveVid` takes away every edge at the id**, on all segments. -/
theorem Links.removeVid (h : Links L ctx) (vid : DistributedTransactionId) :
    Links (L.filter fun e => e.vto ≠ vid ∧ e.vfrom ≠ vid) (gddCtxRemoveVid ctx vid) := by
  have hall : (L.filter fun e => e.segid ∈ ctx.graphs → e.vto ≠ vid ∧ e.vfrom ≠ vid) =
      L.filter fun e => e.vto ≠ vid ∧ e.vfrom ≠ vid :=
    filter_congr fun e he => ⟨fun hseg => hseg (h.mapped.mem_graphs e he), fun hne _ => hne⟩
  rw [← hall]
  exact Links.removeVidFrom vid ctx.graphs h

end Remove

/-! ### The largest id -/

section Largest

variable {L : Finset GddEdge} {ctx : GddCtx}

theorem mem_vidsWithEdges {vid : DistributedTransactionId} :
    vid ∈ vidsWithEdges ctx ↔ HasEdge ctx vid := by
  simp [vidsWithEdges, HasEdge]

theorem Links.hasEdge_iff (h : Links L ctx) {vid : DistributedTransactionId} :
    HasEdge ctx vid ↔ ∃ e ∈ L, e.vto = vid ∨ e.vfrom = vid := by
  constructor
  · rintro ⟨_, -, -, hin | hout⟩
    · obtain ⟨e, he⟩ := exists_mem_of_ne_nil _ hin
      obtain ⟨heL, htarget⟩ := (h.rep.mem_in _ e).1 he
      exact ⟨e, heL, .inl (mk.inj htarget).2⟩
    · obtain ⟨e, he⟩ := exists_mem_of_ne_nil _ hout
      obtain ⟨heL, hsource⟩ := (h.rep.mem_out _ e).1 he
      exact ⟨e, heL, .inr (mk.inj hsource).2⟩
  · rintro ⟨e, he, rfl | rfl⟩
    · refine ⟨e.segid, h.mapped.mem_graphs e he, h.mapped.vto_mem e he, .inl ?_⟩
      exact ne_nil_of_mem ((h.rep.mem_in e.target e).2 ⟨he, rfl⟩)
    · refine ⟨e.segid, h.mapped.mem_graphs e he, h.mapped.vfrom_mem e he, .inr ?_⟩
      exact ne_nil_of_mem ((h.rep.mem_out e.source e).2 ⟨he, rfl⟩)

theorem foldl_max_spec (vids : List DistributedTransactionId) : ∀ start : DistributedTransactionId,
      start ≤ vids.foldl (fun m vid => if m > vid then m else vid) start ∧
      (∀ vid ∈ vids, vid ≤ vids.foldl (fun m vid => if m > vid then m else vid) start) ∧
      (vids.foldl (fun m vid => if m > vid then m else vid) start = start ∨
        vids.foldl (fun m vid => if m > vid then m else vid) start ∈ vids) := by
  induction vids with
  | nil => exact fun start => ⟨UInt64.le_refl start, by simp, .inl rfl⟩
  | cons vid vids ih =>
    intro start
    obtain ⟨hle, hall, hor⟩ := ih (if start > vid then start else vid)
    rw [foldl_cons]
    have hboth : start ≤ (if start > vid then start else vid) ∧
        vid ≤ (if start > vid then start else vid) := by
      split
      · exact ⟨UInt64.le_refl start, UInt64.le_of_lt ‹_›⟩
      · exact ⟨UInt64.not_lt.1 ‹_›, UInt64.le_refl vid⟩
    refine ⟨UInt64.le_trans hboth.1 hle, ?_, ?_⟩
    · exact forall_mem_cons.2 ⟨UInt64.le_trans hboth.2 hle, hall⟩
    rcases hor with heq | hmem
    · rw [heq]
      split
      · exact .inl rfl
      · exact .inr mem_cons_self
    · exact .inr (mem_cons_of_mem _ hmem)

theorem Links.empty_iff (h : Links L ctx) : gddCtxEmpty ctx = true ↔ L = ∅ := by
  rw [gddCtxEmpty, decide_eq_true_eq, h.rep.top_in, Int.natCast_eq_zero, Finset.card_eq_zero]

/-- **The loop of `gddCtxGetMaxVid` finds the largest id that has an edge.** -/
theorem Links.isGreatest_maxVid (h : Links L ctx) (hne : gddCtxEmpty ctx = false) :
    IsGreatest {w | HasEdge ctx w} (maxVid ctx) := by
  obtain ⟨-, hall, hor⟩ := foldl_max_spec (vidsWithEdges ctx) 0
  refine ⟨?_, fun vid hvid => hall vid (mem_vidsWithEdges.2 hvid)⟩
  obtain ⟨e, he⟩ : L.Nonempty := by
    rw [nonempty_iff_ne_empty]
    intro hL
    rw [h.empty_iff.2 hL] at hne
    exact Bool.noConfusion hne
  have hvto : HasEdge ctx e.vto := h.hasEdge_iff.2 ⟨e, he, .inl rfl⟩
  rcases hor with heq | hmem
  · -- the largest is 0, so every id is
    have hzero : e.vto = 0 := by
      have hle := hall e.vto (mem_vidsWithEdges.2 hvto)
      rw [heq] at hle
      exact UInt64.le_antisymm hle UInt64.zero_le
    rw [maxVid, heq, ← hzero]
    exact hvto
  · exact mem_vidsWithEdges.1 hmem

theorem isGreatest_unique {S : Set DistributedTransactionId} {v w : DistributedTransactionId}
    (hv : IsGreatest S v) (hw : IsGreatest S w) : v = w :=
  UInt64.le_antisymm (hw.2 hv.1) (hv.2 hw.1)

end Largest

/-! ### The rounds -/

theorem gddCtxReduce_mono {n m : ℕ} {ctx ctx' : GddCtx} (h : gddCtxReduce n ctx = some ctx')
    (hnm : n ≤ m) : gddCtxReduce m ctx = some ctx' := by
  induction n generalizing m ctx with
  | zero => exact absurd h (by simp [gddCtxReduce])
  | succ n ih =>
    obtain ⟨m, rfl⟩ : ∃ k, m = k + 1 := ⟨m - 1, by omega⟩
    rw [gddCtxReduce] at h ⊢
    rcases hpass : reduceGraphs ctx.graphs ctx false with ⟨_, _ | _⟩
    · rw [hpass] at h
      exact h
    · rw [hpass] at h
      exact ih h (by omega)

theorem gddCtxReduce_unique {n m : ℕ} {ctx a b : GddCtx} (ha : gddCtxReduce n ctx = some a)
    (hb : gddCtxReduce m ctx = some b) : a = b := by
  have h₁ := gddCtxReduce_mono ha (le_max_left n m)
  have h₂ := gddCtxReduce_mono hb (le_max_right n m)
  rw [h₁] at h₂
  exact Option.some.inj h₂

section Rounds

variable {L : Finset GddEdge} {ctx ctx' : GddCtx} {vid : DistributedTransactionId}
  {vids : List DistributedTransactionId}

/-- **One round takes at least one edge away**, and no edge at the cancelled id is left. -/
theorem Links.round (h : Links L ctx) (hvid : HasEdge ctx vid) {n : ℕ} (hn : L.card ≤ n) :
    ∃ ctx₁ L₁, gddCtxReduce n (gddCtxRemoveVid ctx vid) = some ctx₁ ∧ Links L₁ ctx₁ ∧
      L₁.card < L.card ∧ L₁ ⊆ L ∧ ∀ e ∈ L₁, e.vto ≠ vid ∧ e.vfrom ≠ vid := by
  obtain ⟨e, he, hat⟩ := h.hasEdge_iff.1 hvid
  have hsub : (L.filter fun e => e.vto ≠ vid ∧ e.vfrom ≠ vid) ⊂ L := by
    refine (filter_ssubset).2 ⟨e, he, ?_⟩
    rintro ⟨hto, hfrom⟩
    exact hat.elim hto hfrom
  have hcard := card_lt_card hsub
  obtain ⟨ctx₁, L₁, hreduce, h₁, hsub₁, -, -⟩ :=
    gddCtxReduce_spec n _ _ (h.removeVid vid) (by omega)
  refine ⟨ctx₁, L₁, hreduce, h₁, ?_, hsub₁.trans hsub.1, fun e he => ?_⟩
  · exact lt_of_le_of_lt (card_le_card hsub₁) hcard
  · exact (mem_filter.1 (hsub₁ he)).2

/-- **The rounds end**: there is a way to break all deadlocks, it takes each id once, and no
edge is left. -/
theorem exists_broken (k : ℕ) : ∀ {L : Finset GddEdge} {ctx : GddCtx}, Links L ctx → L.card ≤ k →
      ∃ vids ctx', Broken ctx vids ctx' ∧ Links ∅ ctx' ∧ vids.Nodup ∧
        ∀ vid ∈ vids, ∃ e ∈ L, e.vto = vid ∨ e.vfrom = vid := by
  induction k with
  | zero =>
    intro L ctx h hk
    obtain rfl : L = ∅ := card_eq_zero.1 (Nat.le_zero.1 hk)
    exact ⟨[], ctx, .empty (h.empty_iff.2 rfl), h, nodup_nil, by simp⟩
  | succ k ih =>
    intro L ctx h hk
    cases hempty : gddCtxEmpty ctx with
    | true =>
      obtain rfl := h.empty_iff.1 hempty
      exact ⟨[], ctx, .empty hempty, h, nodup_nil, by simp⟩
    | false =>
      have hmax := h.isGreatest_maxVid hempty
      obtain ⟨_, _, hreduce, h₁, _, hsub, hgone⟩ := h.round hmax.1 le_rfl
      obtain ⟨vids, ctx', hbroken, hlast, hnodup, hvids⟩ := ih h₁ (by omega)
      refine ⟨maxVid ctx :: vids, ctx', .cancel hempty hmax hreduce hbroken, hlast, ?_, ?_⟩
      · refine nodup_cons.2 ⟨fun hmem => ?_, hnodup⟩
        obtain ⟨e, he, hat⟩ := hvids _ hmem
        exact hat.elim (hgone e he).1 (hgone e he).2
      · refine forall_mem_cons.2 ⟨h.hasEdge_iff.1 hmax.1, fun vid hvid => ?_⟩
        obtain ⟨e, he, hat⟩ := hvids vid hvid
        exact ⟨e, hsub he, hat⟩

/-- There is only one way. -/
theorem Broken.unique {ctx₁ ctx₂ : GddCtx} {vids₁ vids₂ : List DistributedTransactionId}
    (h₁ : Broken ctx vids₁ ctx₁) (h₂ : Broken ctx vids₂ ctx₂) : vids₁ = vids₂ ∧ ctx₁ = ctx₂ := by
  induction h₁ generalizing vids₂ with
  | empty hempty =>
    cases h₂ with
    | empty => exact ⟨rfl, rfl⟩
    | cancel hempty' =>
      rw [hempty] at hempty'
      exact Bool.noConfusion hempty'
  | cancel hempty hmax hreduce _ ih =>
    cases h₂ with
    | empty hempty' =>
      rw [hempty] at hempty'
      exact Bool.noConfusion hempty'
    | cancel _ hmax' hreduce' hrest' =>
      obtain rfl := isGreatest_unique hmax hmax'
      obtain rfl := gddCtxReduce_unique hreduce hreduce'
      obtain ⟨rfl, rfl⟩ := ih hrest'
      exact ⟨rfl, rfl⟩

theorem Broken.breakDeadLock_eq (hb : Broken ctx vids ctx') :
    ∀ {L : Finset GddEdge} {n : ℕ}, Links L ctx → L.card < n → (∀ vid ∈ vids, SurvivesInt vid) →
      gddCtxBreakDeadLock n ctx = some (vids, ctx') := by
  induction hb with
  | empty hempty =>
    intro L n h hn _
    obtain ⟨n, rfl⟩ : ∃ k, n = k + 1 := ⟨n - 1, by omega⟩
    rw [gddCtxBreakDeadLock, if_pos hempty]
  | @cancel ctx ctx₁ ctx' vid vids m hempty hmax hreduce hrest ih =>
    intro L n h hn hsurvive
    obtain ⟨n, rfl⟩ : ∃ k, n = k + 1 := ⟨n - 1, by omega⟩
    have hmaxvid : (gddCtxGetMaxVid ctx).toInt64.toUInt64 = vid := by
      rw [gddCtxGetMaxVid, isGreatest_unique (h.isGreatest_maxVid hempty) hmax]
      exact hsurvive vid mem_cons_self
    obtain ⟨_, L₂, hreduce₂, h₂, _, -, -⟩ := h.round hmax.1 hn.le
    obtain rfl := gddCtxReduce_unique hreduce hreduce₂
    have hnext := ih h₂ (by omega : L₂.card < n) fun w hw => hsurvive w (mem_cons_of_mem _ hw)
    rw [gddCtxBreakDeadLock, if_neg (by rw [hempty]; exact false_ne_true)]
    dsimp only
    rw [hmaxvid, hreduce₂, bind_some, hnext, map_some]

theorem Broken.survivesInt (hb : Broken ctx vids ctx') :
    ∀ {L : Finset GddEdge} {n : ℕ}, Links L ctx →
      gddCtxBreakDeadLock n ctx = some (vids, ctx') → ∀ vid ∈ vids, SurvivesInt vid := by
  induction hb with
  | empty => exact fun _ _ vid hvid => absurd hvid not_mem_nil
  | @cancel ctx ctx₁ ctx' vid vids m hempty hmax hreduce hrest ih =>
    intro L n h hcode
    cases n with
    | zero => exact absurd hcode (by simp [gddCtxBreakDeadLock])
    | succ n =>
      rw [gddCtxBreakDeadLock, if_neg (by rw [hempty]; exact false_ne_true)] at hcode
      obtain ⟨_, hreduce₂, hmap⟩ := bind_eq_some_iff.1 hcode
      obtain ⟨⟨vids₂, ctx₃⟩, hnext, heq⟩ := map_eq_some_iff.1 hmap
      obtain ⟨hcons, rfl⟩ := mk.inj heq
      obtain ⟨hhead, rfl⟩ := List.cons.inj hcons
      have hsurvive : SurvivesInt vid := by
        rw [gddCtxGetMaxVid, isGreatest_unique (h.isGreatest_maxVid hempty) hmax] at hhead
        exact hhead
      rw [hhead] at hreduce₂
      obtain rfl := gddCtxReduce_unique hreduce hreduce₂
      obtain ⟨ctx₄, L₁, hreduce₄, h₁, -⟩ := h.round hmax.1 le_rfl
      obtain rfl := gddCtxReduce_unique hreduce hreduce₄
      exact forall_mem_cons.2 ⟨hsurvive, ih h₁ hnext⟩

theorem Links.breaksDeadlocks_iff (h : Links L ctx) : BreaksDeadlocks ctx ↔
    ∀ vids ctx', Broken ctx vids ctx' → ∀ vid ∈ vids, SurvivesInt vid := by
  constructor
  · rintro ⟨n, vids, ctx', hcode, hb, -⟩ _ _ hb₂
    obtain ⟨rfl, rfl⟩ := hb.unique hb₂
    exact hb.survivesInt h hcode
  intro hsurvive
  obtain ⟨vids, ctx', hb, hlast, hnodup, -⟩ := exists_broken L.card h le_rfl
  have hcode := hb.breakDeadLock_eq h (Nat.lt_succ_self L.card) (hsurvive vids ctx' hb)
  refine ⟨_, vids, ctx', hcode, hb, hnodup, ?_, ?_, ?_⟩
  · exact congrArg₂ GddStat.mk hlast.rep.top_in hlast.rep.top_out
  · have hout : linkedOut ctx' = 0 := hlast.linkedOut_eq
    exact map_eq_nil_iff.1 ((Multiset.coe_eq_zero _).1 hout)
  · have hin : linkedIn ctx' = 0 := hlast.linkedIn_eq
    exact map_eq_nil_iff.1 ((Multiset.coe_eq_zero _).1 hin)

end Rounds

/-- **`GddCtxBreakDeadLock` does what it should exactly if every id it has to cancel survives
the way through `int`**, for a context built from any edges, reduced before or not. -/
theorem breakDeadLock_correct_iff (es : List WaitEdge) : (BreaksDeadlocks (gddCtxOf es) ↔
      ∀ vids ctx', Broken (gddCtxOf es) vids ctx' → ∀ vid ∈ vids, SurvivesInt vid) ∧
    ∀ n ctx, gddCtxReduce n (gddCtxOf es) = some ctx →
      (BreaksDeadlocks ctx ↔ ∀ vids ctx', Broken ctx vids ctx' → ∀ vid ∈ vids, SurvivesInt vid) := by
  obtain ⟨E, hE, -⟩ := links_gddCtxOf es
  refine ⟨hE.breaksDeadlocks_iff, fun n ctx hreduce => ?_⟩
  obtain ⟨_, L, hreduce₁, hL, -⟩ := gddCtxReduce_spec _ E _ hE (Nat.lt_succ_self E.card)
  obtain rfl := gddCtxReduce_unique hreduce hreduce₁
  exact hL.breaksDeadlocks_iff

theorem breakDeadLock_stuck {ctx : GddCtx} (hempty : gddCtxEmpty ctx = false)
    (hremove : gddCtxRemoveVid ctx (gddCtxGetMaxVid ctx).toInt64.toUInt64 = ctx)
    (hreduce : reduceGraphs ctx.graphs ctx false = (ctx, false)) (n : ℕ) :
    gddCtxBreakDeadLock n ctx = none := by
  induction n with
  | zero => rfl
  | succ n ih =>
    have hsame : gddCtxReduce (n + 1) ctx = some ctx := by rw [gddCtxReduce, hreduce]
    rw [gddCtxBreakDeadLock, if_neg (by rw [hempty]; exact false_ne_true)]
    dsimp only
    rw [hremove, hsame, bind_some, ih, map_none]

/-- Two transactions with the ids 2^31 and 2^31 + 1 wait for each other on one segment.  The
larger id comes back from `gddCtxGetMaxVid` as 2^64 - 2^31 + 1, which no vertex has. -/
theorem breakDeadLock_never_ends : ¬ ∃ n, (gddCtxBreakDeadLock n
    (gddCtxOf [⟨0, 2147483648, 2147483649, true⟩, ⟨0, 2147483649, 2147483648, true⟩])).isSome := by
  rintro ⟨n, hn⟩
  rw [breakDeadLock_stuck (by decide +kernel) rfl rfl n] at hn
  cases hn

end Cloudberry.Gdd
