/-
# What the second walk assigns

The limits of the groups are computed on the way, the children of a group together when the
first of them is reached. `limit` gives the same numbers from the tree of groups alone, from
the root downwards. `assignWalker_spec` says that the second walk finds every operator in the
place where the first one counted it, and that the groups it uses have these limits.
-/

import Cloudberry.MemQuota.Placement

namespace Cloudberry.MemQuota

open PolicyEagerFreeContext List Nat OperatorGroupNode Bool

section

variable (H : ℕ → OperatorGroupNode) (fixedMemKB queryMemKB : ℕ)

/-- The operators of the child groups of `p` that can be active together. -/
def total (mem : Bool) (p : ℕ) : ℕ := ((H p).childGroups.map fun c => (H c).conc mem).sum

/-- The memory of a group from that of its parent, and of the root group from the query. -/
def limit (x : ℕ) : ℕ :=
  match (H x).parentGroup with
  | none => queryMemKB
  | some p =>
    if p < x then
      childGroupMemKB fixedMemKB (limit p) (total H true p) (total H false p) (H x)
    else 0
termination_by x

/-- The share of a memory-intensive operator in a group. -/
def share (x : ℕ) : ℕ :=
  computeAvgMemKBForMemIntenseOp fixedMemKB
    ((H x).withMemKB (limit H fixedMemKB queryMemKB x))

def spotMemKB (s : Spot) : ℕ :=
  if isMemoryIntensiveOperator s.op = false then fixedMemKB
  else
    match s.border with
    | none => share H fixedMemKB queryMemKB s.group
    | some p => min (share H fixedMemKB queryMemKB s.group) (share H fixedMemKB queryMemKB p)

end

section Limits

variable {H : ℕ → OperatorGroupNode} {S : List Spot} {numGroups queryMemKB fixedMemKB : ℕ}

/-! ### The limits of child groups -/

/-- What each memory-intensive operator of the child groups is planned with. -/
def memIntenseOpMemKB (fixedMemKB parentMemKB totalMem totalNonMem : ℕ) : ℚ :=
  ((parentMemKB - totalNonMem * fixedMemKB : ℕ) : ℚ) / totalMem

theorem childGroupMemKB_eq (parentMemKB totalMem totalNonMem : ℕ) (g : OperatorGroupNode) :
    childGroupMemKB fixedMemKB parentMemKB totalMem totalNonMem g =
      ⌊memIntenseOpMemKB fixedMemKB parentMemKB totalMem totalNonMem * g.conc true +
        fixedMemKB * g.conc false⌋₊ := by
  have hmem : (if totalMem > 0 then
      ((parentMemKB - totalNonMem * fixedMemKB : ℕ) : ℚ) / totalMem else 0) =
      memIntenseOpMemKB fixedMemKB parentMemKB totalMem totalNonMem := by
    split_ifs with hpos
    · rfl
    · rw [memIntenseOpMemKB, Nat.eq_zero_of_not_pos hpos, Nat.cast_zero, div_zero]
  rw [childGroupMemKB, hmem]
  rfl

theorem memIntenseOpMemKB_nonneg (fixedMemKB parentMemKB totalMem totalNonMem : ℕ) :
    0 ≤ memIntenseOpMemKB fixedMemKB parentMemKB totalMem totalNonMem :=
  div_nonneg (cast_nonneg _) (cast_nonneg _)

theorem conc_mul_le_childGroupMemKB (parentMemKB totalMem totalNonMem : ℕ) (g : OperatorGroupNode) :
    g.conc false * fixedMemKB ≤ childGroupMemKB fixedMemKB parentMemKB totalMem totalNonMem g := by
  rw [childGroupMemKB_eq]
  apply le_floor
  have hnonneg := mul_nonneg
    (memIntenseOpMemKB_nonneg fixedMemKB parentMemKB totalMem totalNonMem)
    (cast_nonneg (g.conc true))
  push_cast
  linarith [mul_comm (fixedMemKB : ℚ) (g.conc false)]

/-- **The children share the memory of their parent.** -/
theorem sum_childGroupMemKB_le {parentMemKB : ℕ} {children : List OperatorGroupNode}
    (hfits : (children.map (·.conc false)).sum * fixedMemKB ≤ parentMemKB) :
    (children.map (childGroupMemKB fixedMemKB parentMemKB (children.map (·.conc true)).sum
      (children.map (·.conc false)).sum)).sum ≤ parentMemKB := by
  generalize htotalMem : (children.map (·.conc true)).sum = totalMem
  generalize htotalNonMem : (children.map (·.conc false)).sum = totalNonMem at hfits ⊢
  set r := memIntenseOpMemKB fixedMemKB parentMemKB totalMem totalNonMem with hr
  -- rounding each share down only loses memory
  have hround : ∀ l : List OperatorGroupNode,
      (((l.map (childGroupMemKB fixedMemKB parentMemKB totalMem totalNonMem)).sum : ℕ) : ℚ) ≤
        r * (l.map (·.conc true)).sum + fixedMemKB * (l.map (·.conc false)).sum := by
    intro l
    induction l with
    | nil => simp
    | cons g l ih =>
      have hle : (childGroupMemKB fixedMemKB parentMemKB totalMem totalNonMem g : ℚ) ≤
          r * g.conc true + fixedMemKB * g.conc false := by
        rw [childGroupMemKB_eq]
        refine floor_le (add_nonneg (mul_nonneg ?_ (cast_nonneg _)) ?_)
        · exact memIntenseOpMemKB_nonneg ..
        · exact mul_nonneg (cast_nonneg _) (cast_nonneg _)
      simp only [map_cons, sum_cons, cast_add]
      linarith
  have hshare : r * totalMem ≤ (parentMemKB - totalNonMem * fixedMemKB : ℕ) := by
    rw [hr, memIntenseOpMemKB]
    rcases Nat.eq_zero_or_pos totalMem with hzero | hpos
    · rw [hzero, cast_zero, mul_zero]
      exact cast_nonneg _
    · rw [div_mul_cancel₀ _ (cast_ne_zero.2 hpos.ne')]
  rw [cast_sub hfits] at hshare
  have hall := hround children
  rw [htotalMem, htotalNonMem] at hall
  push_cast at hshare
  have hle : (((children.map (childGroupMemKB fixedMemKB parentMemKB totalMem totalNonMem)).sum :
      ℕ) : ℚ) ≤ parentMemKB := by
    linarith [mul_comm (fixedMemKB : ℚ) totalNonMem]
  exact_mod_cast hle

/-! ### The tree of groups -/

namespace GroupTree

variable (hT : GroupTree H S numGroups queryMemKB)
include hT

section

variable {p c : ℕ} (hp : p < numGroups)
include hp

theorem child_iff : c ∈ (H p).childGroups ↔ ∃ s ∈ S, s.border = some p ∧ s.group = c := by
  rw [(hT.isGroup p hp).childGroups, mem_kids]

theorem maxConc_eq_total (mem : Bool) : (H p).maxConc mem = total H mem p := by
  rw [(hT.isGroup p hp).maxConc, total, (hT.isGroup p hp).childGroups]

section

variable (hc : c ∈ (H p).childGroups)
include hc

theorem lt_of_child : p < c ∧ c < numGroups := by
  obtain ⟨s, hs, hborder, rfl⟩ := (hT.child_iff hp).1 hc
  have := (hT.inScope s hs).border p hborder
  omega

theorem parent_of_child : (H c).parentGroup = some p := by
  obtain ⟨s, hs, hborder, rfl⟩ := (hT.child_iff hp).1 hc
  exact hT.parent s hs p hborder

theorem limit_child : limit H fixedMemKB queryMemKB c =
      childGroupMemKB fixedMemKB (limit H fixedMemKB queryMemKB p) (total H true p)
        (total H false p) (H c) := by
  rw [limit, hT.parent_of_child hp hc]
  exact if_pos (hT.lt_of_child hp hc).1

/-- **Below the root group the check never fails**: the limit of a group that is a child itself
covers the fixed memory of its own children. -/
theorem total_mul_le_limit : total H false c * fixedMemKB ≤ limit H fixedMemKB queryMemKB c := by
  have hc' := (hT.lt_of_child hp hc).2
  calc total H false c * fixedMemKB
      ≤ (H c).conc false * fixedMemKB := by
        rw [← hT.maxConc_eq_total hc']
        exact mul_le_mul_right _ (le_max_left _ _)
    _ ≤ limit H fixedMemKB queryMemKB c := by
        rw [hT.limit_child hp hc]
        exact conc_mul_le_childGroupMemKB ..

theorem num_mul_le_limit : (H c).num false * fixedMemKB ≤ limit H fixedMemKB queryMemKB c := by
  calc (H c).num false * fixedMemKB
      ≤ (H c).conc false * fixedMemKB := mul_le_mul_right _ (le_max_right _ _)
    _ ≤ limit H fixedMemKB queryMemKB c := by
        rw [hT.limit_child hp hc]
        exact conc_mul_le_childGroupMemKB ..

end

theorem sum_limit_le (hfits : total H false p * fixedMemKB ≤ limit H fixedMemKB queryMemKB p) :
    ((H p).childGroups.map (limit H fixedMemKB queryMemKB)).sum ≤
      limit H fixedMemKB queryMemKB p := by
  have hsum : ∀ mem, (((H p).childGroups.map H).map (·.conc mem)).sum = total H mem p := by
    intro mem
    rw [map_map]
    rfl
  have hlimits : (H p).childGroups.map (limit H fixedMemKB queryMemKB) =
      ((H p).childGroups.map H).map (childGroupMemKB fixedMemKB
        (limit H fixedMemKB queryMemKB p) (total H true p) (total H false p)) := by
    rw [map_map]
    exact map_congr_left fun c hc => hT.limit_child hp hc
  rw [hlimits, ← hsum true, ← hsum false]
  exact sum_childGroupMemKB_le (by rwa [hsum false])

end

theorem exists_parent {x : ℕ} (hpos : 0 < x) (hx : x < numGroups) :
    ∃ p < numGroups, x ∈ (H p).childGroups := by
  obtain ⟨s, hs, p, hborder, rfl⟩ := hT.covered x hpos hx
  have hlt := ((hT.inScope s hs).border p hborder).2.1
  have hp : p < numGroups := hlt.trans hx
  exact ⟨p, hp, (hT.child_iff hp).2 ⟨s, hs, hborder, rfl⟩⟩

theorem limit_root : limit H fixedMemKB queryMemKB 0 = queryMemKB := by
  rw [limit, hT.root_parent]

end GroupTree

/-! ### Computing the limits -/

/-- The groups in the second walk: as the first walk left them, with the limits of the children
of a group either all computed or all still zero. -/
structure Limited (H : ℕ → OperatorGroupNode) (numGroups fixedMemKB queryMemKB : ℕ)
    (h : ℕ → OperatorGroupNode) : Prop where
  shape : ∀ x, h x = (H x).withMemKB (h x).groupMemKB
  children : ∀ p < numGroups, (total H false p * fixedMemKB ≤ limit H fixedMemKB queryMemKB p ∧
      ∀ c ∈ (H p).childGroups, (h c).groupMemKB = limit H fixedMemKB queryMemKB c) ∨
    ∀ c ∈ (H p).childGroups, (h c).groupMemKB = 0

def Keeps (H : ℕ → OperatorGroupNode) (fixedMemKB queryMemKB : ℕ)
    (h h' : ℕ → OperatorGroupNode) : Prop :=
  ∀ x, (h x).groupMemKB = limit H fixedMemKB queryMemKB x →
    (h' x).groupMemKB = limit H fixedMemKB queryMemKB x

variable {h h' : ℕ → OperatorGroupNode}

theorem childTotals_of_zero {children : List ℕ} (hzero : ∀ c ∈ children, (h c).groupMemKB = 0) :
    childTotals h children = some ((children.map fun c => (h c).concMem).sum,
        (children.map fun c => (h c).concNonMem).sum) := by
  induction children with
  | nil => rfl
  | cons c children ih =>
    obtain ⟨hc, hrest⟩ := forall_mem_cons.1 hzero
    rw [childTotals, if_neg (not_not.2 hc), ih hrest]
    rfl

theorem childTotals_of_computed {children : List ℕ} {c : ℕ} (hc : c ∈ children)
    (hpos : (h c).groupMemKB ≠ 0) : childTotals h children = none := by
  induction children with
  | nil => cases hc
  | cons d children ih =>
    rw [childTotals]
    split_ifs with hd
    · rfl
    rcases mem_cons.1 hc with rfl | hc
    · exact absurd hpos hd
    · rw [ih hc]
      rfl

theorem setChildLimits_ok {parent totalNonMem : ℕ} {children : List ℕ} (totalMem : ℕ)
    (hparent : parent ∉ children) (ctx : PolicyEagerFreeContext)
    (hfits : totalNonMem * fixedMemKB ≤ (ctx.groups parent).groupMemKB) :
    ∃ h', setChildLimits fixedMemKB parent totalMem totalNonMem children ctx =
        .ok { ctx with groups := h' } ∧
      (∀ c ∈ children, h' c = (ctx.groups c).withMemKB (childGroupMemKB fixedMemKB
        (ctx.groups parent).groupMemKB totalMem totalNonMem (ctx.groups c))) ∧
      ∀ c, c ∉ children → h' c = ctx.groups c := by
  induction children generalizing ctx with
  | nil => exact ⟨ctx.groups, rfl, fun c hc => absurd hc not_mem_nil, fun _ _ => rfl⟩
  | cons c children ih =>
    obtain ⟨hne, hrest⟩ := not_or.1 (mt mem_cons.2 hparent)
    set ctx' := ctx.modify c fun g =>
      g.withMemKB (childGroupMemKB fixedMemKB (ctx.groups parent).groupMemKB totalMem totalNonMem g)
      with hctx'
    have hsame : ctx'.groups parent = ctx.groups parent := groups_modify_of_ne hne ..
    obtain ⟨h', hset, hin, hout⟩ := ih hrest ctx' (by rwa [hsame])
    refine ⟨h', ?_, fun d hd => ?_, fun d hd => ?_⟩
    · rw [setChildLimits, if_neg (not_lt.2 hfits), hset]
      rfl
    · by_cases hmem : d ∈ children
      · rw [hin d hmem, hsame]
        by_cases hdc : d = c
        · subst hdc
          rw [groups_modify_self]
          rfl
        · rw [groups_modify_of_ne hdc]
      · obtain rfl := (mem_cons.1 hd).resolve_right hmem
        rw [hout d hmem, groups_modify_self]
    · obtain ⟨hdc, hd⟩ := not_or.1 (mt mem_cons.2 hd)
      rw [hout d hd, groups_modify_of_ne hdc]

namespace GroupTree

variable (hT : GroupTree H S numGroups queryMemKB)
include hT

/-- **Computing the limits of the children of a group** that has its own: they are the ones told
from the tree, or the group is the root and they do not fit. -/
theorem computeMemLimit_spec {p : ℕ} (hp : p < numGroups) {c : ℕ} (hc : c ∈ (H p).childGroups)
    (ctx : PolicyEagerFreeContext) (hh : Limited H numGroups fixedMemKB queryMemKB ctx.groups)
    (hmemKB : (ctx.groups p).groupMemKB = limit H fixedMemKB queryMemKB p) :
    (∃ h', computeMemLimitForChildGroups fixedMemKB p ctx = .ok { ctx with groups := h' } ∧
      Limited H numGroups fixedMemKB queryMemKB h' ∧
      Keeps H fixedMemKB queryMemKB ctx.groups h' ∧
      (h' c).groupMemKB = limit H fixedMemKB queryMemKB c ∧
      total H false p * fixedMemKB ≤ limit H fixedMemKB queryMemKB p) ∨
    computeMemLimitForChildGroups fixedMemKB p ctx = .error (.insufficientForChildrenOf 0) := by
  have hchildren : (ctx.groups p).childGroups = (H p).childGroups := by
    rw [hh.shape p, childGroups_withMemKB]
  have hconc : ∀ x mem, (ctx.groups x).conc mem = (H x).conc mem := by
    intro x mem
    rw [hh.shape x]
    rfl
  have hparent : p ∉ (H p).childGroups := fun hmem => (hT.lt_of_child hp hmem).1.false
  rw [computeMemLimitForChildGroups, hchildren]
  by_cases hcomputed : ∃ d ∈ (H p).childGroups, (ctx.groups d).groupMemKB ≠ 0
  · -- the limits are there already
    obtain ⟨d, hd, hpos⟩ := hcomputed
    obtain ⟨hfits, hdone⟩ := (hh.children p hp).resolve_right fun hzero => hpos (hzero d hd)
    rw [childTotals_of_computed hd hpos]
    exact .inl ⟨ctx.groups, rfl, hh, fun _ hx => hx, hdone c hc, hfits⟩
  have hzero : ∀ d ∈ (H p).childGroups, (ctx.groups d).groupMemKB = 0 :=
    fun d hd => not_not.1 fun hpos => hcomputed ⟨d, hd, hpos⟩
  have htotal : ∀ mem, ((H p).childGroups.map fun d => (ctx.groups d).conc mem).sum =
      total H mem p := fun mem =>
    congrArg List.sum (map_congr_left fun d _ => hconc d mem)
  have htotals : childTotals ctx.groups (H p).childGroups =
      some (total H true p, total H false p) := by
    rw [childTotals_of_zero hzero, ← htotal true, ← htotal false]
    rfl
  rw [htotals]
  by_cases hfits : total H false p * fixedMemKB ≤ limit H fixedMemKB queryMemKB p
  · obtain ⟨h', hset, hin, hout⟩ := setChildLimits_ok (total H true p) hparent ctx
      (hmemKB.symm ▸ hfits)
    have hlimit : ∀ d ∈ (H p).childGroups, (h' d).groupMemKB = limit H fixedMemKB queryMemKB d := by
      intro d hd
      rw [hin d hd, hT.limit_child hp hd, hmemKB, hh.shape d]
      rfl
    refine .inl ⟨h', hset, ⟨fun x => ?_, fun q hq => ?_⟩, fun x hx => ?_, hlimit c hc, hfits⟩
    · by_cases hx : x ∈ (H p).childGroups
      · rw [hin x hx, hh.shape x]
        rfl
      · rw [hout x hx]
        exact hh.shape x
    · by_cases hqp : q = p
      · subst hqp
        exact .inl ⟨hfits, hlimit⟩
      · -- a group has one parent
        have hother : ∀ d ∈ (H q).childGroups, h' d = ctx.groups d := by
          intro d hd
          refine hout d fun hdp => hqp ?_
          exact Option.some.inj ((hT.parent_of_child hq hd).symm.trans (hT.parent_of_child hp hdp))
        rcases hh.children q hq with ⟨hle, hdone⟩ | hnone
        · exact .inl ⟨hle, fun d hd => by rw [hother d hd, hdone d hd]⟩
        · exact .inr fun d hd => by rw [hother d hd, hnone d hd]
    · by_cases hmem : x ∈ (H p).childGroups
      · exact hlimit x hmem
      · rw [hout x hmem, hx]
  · refine .inr ?_
    obtain ⟨d, _, hcons⟩ := exists_cons_of_ne_nil (ne_nil_of_mem hc)
    have hroot : p = 0 := by
      by_contra hne
      obtain ⟨q, hq, hpq⟩ := hT.exists_parent (pos_of_ne_zero hne) hp
      exact hfits (hT.total_mul_le_limit hq hpq)
    rw [hcons]
    simp only [setChildLimits]
    rw [if_pos (hmemKB.symm ▸ not_le.1 hfits), hroot]

/-! ### The second walk -/

omit hT in
theorem avg_eq_share {h : ℕ → OperatorGroupNode} (hh : Limited H numGroups fixedMemKB queryMemKB h)
    {x : ℕ} (hx : (h x).groupMemKB = limit H fixedMemKB queryMemKB x) :
    computeAvgMemKBForMemIntenseOp fixedMemKB (h x) = share H fixedMemKB queryMemKB x := by
  rw [share, ← hx, ← hh.shape x]

omit hT in
theorem assignOperator_inside {op : Operator} {extParam : Bool} {g : ℕ}
    (hroot : isRootOperatorInGroup op extParam = false) (ctx : PolicyEagerFreeContext)
    (hcur : ctx.groupNode = some g) (hh : Limited H numGroups fixedMemKB queryMemKB ctx.groups)
    (hmemKB : (ctx.groups g).groupMemKB = limit H fixedMemKB queryMemKB g) :
    assignOperator fixedMemKB op extParam ctx =
      .ok (⟨⟨op, extParam, g⟩, spotMemKB H fixedMemKB queryMemKB ⟨⟨op, extParam, g⟩, none⟩⟩, ctx) := by
  have hfind : findOperatorGroupForOperator op extParam ctx = .ok ctx := by
    simp [findOperatorGroupForOperator, hcur, hroot]
  have hmem : operatorMemKB fixedMemKB ctx.groups op extParam g =
      spotMemKB H fixedMemKB queryMemKB ⟨⟨op, extParam, g⟩, none⟩ := by
    simp only [operatorMemKB, spotMemKB, avg_eq_share hh hmemKB, hroot, not_eq_true',
      false_eq_true, if_false]
    split_ifs
    · rfl
    · split <;> rfl
  simp only [assignOperator, hfind, current_eq hcur, ok_bind, hroot, pure_eq_ok, false_eq_true,
    if_false, hmem]
  split <;> rfl

theorem find_child {g n : ℕ} (hg : g < numGroups) (hn : n ∈ (H g).childGroups)
    {h : ℕ → OperatorGroupNode} (hh : Limited H numGroups fixedMemKB queryMemKB h) :
    (h g).childGroups.find? (fun c => (h c).groupId == n) = some n := by
  have hid : ∀ c, (h c).groupId = (H c).groupId := fun c => by
    rw [hh.shape c, groupId_withMemKB]
  have hchildren : (h g).childGroups = (H g).childGroups := by
    rw [hh.shape g, childGroups_withMemKB]
  have hown : ∀ c ∈ (H g).childGroups, (h c).groupId = c := fun c hc => by
    rw [hid, (hT.isGroup c (hT.lt_of_child hg hc).2).groupId]
  rw [hchildren]
  cases hfind : (H g).childGroups.find? fun c => (h c).groupId == n with
  | none =>
    have hnone := find?_eq_none.1 hfind n hn
    exact absurd (beq_iff_eq.2 (hown n hn)) hnone
  | some c =>
    have hc := find?_some hfind
    rw [hown c (mem_of_find?_eq_some hfind), beq_iff_eq] at hc
    rw [hc]

theorem assignOperator_root {op : Operator} {extParam : Bool} {g : ℕ} (hg : g < numGroups)
    (hroot : isRootOperatorInGroup op extParam = true) (ctx : PolicyEagerFreeContext)
    (hspot : (⟨⟨op, extParam, ctx.nextGroupId⟩, some g⟩ : Spot) ∈ S)
    (hcur : ctx.groupNode = some g) (hh : Limited H numGroups fixedMemKB queryMemKB ctx.groups)
    (hmemKB : (ctx.groups g).groupMemKB = limit H fixedMemKB queryMemKB g) :
    (∃ h', assignOperator fixedMemKB op extParam ctx = .ok (⟨⟨op, extParam, ctx.nextGroupId⟩,
            spotMemKB H fixedMemKB queryMemKB ⟨⟨op, extParam, ctx.nextGroupId⟩, some g⟩⟩,
          { ctx with
            groups := h', groupNode := some ctx.nextGroupId, nextGroupId := ctx.nextGroupId + 1 }) ∧
      Limited H numGroups fixedMemKB queryMemKB h' ∧
      Keeps H fixedMemKB queryMemKB ctx.groups h' ∧
      (h' ctx.nextGroupId).groupMemKB = limit H fixedMemKB queryMemKB ctx.nextGroupId ∧
      total H false g * fixedMemKB ≤ limit H fixedMemKB queryMemKB g) ∨
    assignOperator fixedMemKB op extParam ctx = .error (.insufficientForChildrenOf 0) := by
  have hchild : ctx.nextGroupId ∈ (H g).childGroups := (hT.child_iff hg).2 ⟨_, hspot, rfl, rfl⟩
  have hparent : ∀ h, Limited H numGroups fixedMemKB queryMemKB h →
      (h ctx.nextGroupId).parentGroup = some g := fun h hh => by
    rw [hh.shape, parentGroup_withMemKB, hT.parent_of_child hg hchild]
  set ctx₁ := { ctx with groupNode := some ctx.nextGroupId, nextGroupId := ctx.nextGroupId + 1 }
    with hctx₁
  have hfind : findOperatorGroupForOperator op extParam ctx = .ok ctx₁ := by
    simp only [findOperatorGroupForOperator, hcur, hroot, if_true, hT.find_child hg hchild hh,
      Option.some_or]
    rfl
  have hstart : assignOperator fixedMemKB op extParam ctx =
      computeMemLimitForChildGroups fixedMemKB g ctx₁ >>= fun ctx =>
        .ok (⟨⟨op, extParam, ctx₁.nextGroupId - 1⟩,
          operatorMemKB fixedMemKB ctx.groups op extParam (ctx₁.nextGroupId - 1)⟩, ctx) := by
    simp [assignOperator, hfind, current, hctx₁, hparent ctx.groups hh, hroot]
  rw [hstart]
  rcases hT.computeMemLimit_spec hg hchild ctx₁ hh hmemKB with
    ⟨h', hcompute, hh', hkeeps, hlimit, hfits⟩ | herror
  · refine .inl ⟨h', ?_, hh', hkeeps, hlimit, hfits⟩
    have hmem : operatorMemKB fixedMemKB h' op extParam ctx.nextGroupId =
        spotMemKB H fixedMemKB queryMemKB ⟨⟨op, extParam, ctx.nextGroupId⟩, some g⟩ := by
      simp only [operatorMemKB, spotMemKB, avg_eq_share hh' hlimit, hparent h' hh',
        avg_eq_share hh' (hkeeps g hmemKB), hroot, if_true, not_eq_true']
      split_ifs with hfixed hless
      · rfl
      · exact (min_eq_right hless.le).symm
      · exact (min_eq_left (not_lt.1 hless)).symm
    rw [hcompute]
    simp [hctx₁, hmem]
  · refine .inr ?_
    rw [herror]
    rfl

end GroupTree

def Spot.assigned (H : ℕ → OperatorGroupNode) (fixedMemKB queryMemKB : ℕ) (s : Spot) : Assigned :=
  ⟨s.toVisit, spotMemKB H fixedMemKB queryMemKB s⟩

/-- How the second walk over a part of the plan ends, if the places of the part are `T`. -/
structure Assigns (H : ℕ → OperatorGroupNode) (numGroups fixedMemKB queryMemKB : ℕ)
    (ctx : PolicyEagerFreeContext) (T : List Spot) (n' : ℕ) (h' : ℕ → OperatorGroupNode)
    (result : Except EagerFreeError (List Assigned × PolicyEagerFreeContext)) : Prop where
  eq : result = .ok (T.map (Spot.assigned H fixedMemKB queryMemKB),
    { ctx with groups := h', nextGroupId := n' })
  limited : Limited H numGroups fixedMemKB queryMemKB h'
  keeps : Keeps H fixedMemKB queryMemKB ctx.groups h'
  fits : ∀ s ∈ T, ∀ p, s.border = some p →
    total H false p * fixedMemKB ≤ limit H fixedMemKB queryMemKB p

mutual

/-- **The second walk** finds every operator in its place and gives it the memory told from the
limits, unless the children of the root group do not fit. -/
theorem assignWalker_spec (hT : GroupTree H S numGroups queryMemKB) :
    ∀ (node : Node) (ctx : PolicyEagerFreeContext) (g : ℕ), g < numGroups →
    (∀ s ∈ spots g ctx.nextGroupId node, s ∈ S) → ctx.groupNode = some g →
    Limited H numGroups fixedMemKB queryMemKB ctx.groups →
    (ctx.groups g).groupMemKB = limit H fixedMemKB queryMemKB g →
    (∃ h', Assigns H numGroups fixedMemKB queryMemKB ctx (spots g ctx.nextGroupId node)
      (ctx.nextGroupId + newGroups node) h' (assignWalker fixedMemKB node ctx)) ∨
    assignWalker fixedMemKB node ctx = .error (.insufficientForChildrenOf 0)
  | .plan op extParam parts, ctx, g, hg, hS, hcur, hh, hmemKB => by
    cases hroot : isRootOperatorInGroup op extParam with
    | false =>
      obtain ⟨hspots, hnew⟩ := spots_inside g ctx.nextGroupId parts hroot
      have hassign := GroupTree.assignOperator_inside hroot ctx hcur hh hmemKB
      rw [hspots] at hS
      rw [hspots, hnew]
      rcases assignWalkers_spec hT parts ctx g hg (fun s hs => hS s (mem_cons_of_mem _ hs))
        hcur hh hmemKB with ⟨h', hrest⟩ | herror
      · refine .inl ⟨h', ?_, hrest.limited, hrest.keeps, ?_⟩
        · simp only [assignWalker, hassign, hrest.eq, ok_bind, hroot, pure_eq_ok, false_eq_true,
            if_false, map_cons]
          rfl
        · intro s hs p hp
          rcases mem_cons.1 hs with rfl | hs
          · cases hp
          · exact hrest.fits s hs p hp
      · refine .inr ?_
        simp [assignWalker, hassign, herror]
    | true =>
      obtain ⟨hspots, hnew⟩ := spots_root g ctx.nextGroupId parts hroot
      rw [hspots] at hS
      rw [hspots, hnew]
      have hspot := hS _ mem_cons_self
      have hchild : ctx.nextGroupId ∈ (H g).childGroups := (hT.child_iff hg).2 ⟨_, hspot, rfl, rfl⟩
      rcases hT.assignOperator_root hg hroot ctx hspot hcur hh hmemKB with
        ⟨h₁, hassign, hh₁, hkeeps₁, hlimit, hfits⟩ | herror
      · rcases assignWalkers_spec hT parts
          { ctx with
            groups := h₁, groupNode := some ctx.nextGroupId, nextGroupId := ctx.nextGroupId + 1 }
          ctx.nextGroupId (hT.lt_of_child hg hchild).2
          (fun s hs => hS s (mem_cons_of_mem _ hs)) rfl hh₁ hlimit with ⟨h', hrest⟩ | herror
        · have hparent : (h' ctx.nextGroupId).parentGroup = ctx.groupNode := by
            rw [hrest.limited.shape, parentGroup_withMemKB, hT.parent_of_child hg hchild, hcur]
          refine .inl ⟨h', ?_, hrest.limited, fun x hx => hrest.keeps x (hkeeps₁ x hx), ?_⟩
          · simp only [assignWalker, hassign, hrest.eq, ok_bind, hroot, pure_eq_ok, if_true,
              map_cons, current, hparent]
            rfl
          · intro s hs p hp
            rcases mem_cons.1 hs with rfl | hs
            · cases hp
              exact hfits
            · exact hrest.fits s hs p hp
        · simp [assignWalker, hassign, herror]
      · simp [assignWalker, herror]
  | .other parts, ctx, g, hg, hS, hcur, hh, hmemKB => by
    exact assignWalkers_spec hT parts ctx g hg hS hcur hh hmemKB

theorem assignWalkers_spec (hT : GroupTree H S numGroups queryMemKB) :
    ∀ (nodes : List Node) (ctx : PolicyEagerFreeContext) (g : ℕ), g < numGroups →
    (∀ s ∈ spotsAll g ctx.nextGroupId nodes, s ∈ S) → ctx.groupNode = some g →
    Limited H numGroups fixedMemKB queryMemKB ctx.groups →
    (ctx.groups g).groupMemKB = limit H fixedMemKB queryMemKB g →
    (∃ h', Assigns H numGroups fixedMemKB queryMemKB ctx (spotsAll g ctx.nextGroupId nodes)
      (ctx.nextGroupId + newGroupsAll nodes) h' (assignWalkers fixedMemKB nodes ctx)) ∨
    assignWalkers fixedMemKB nodes ctx = .error (.insufficientForChildrenOf 0)
  | [], ctx, g, _, _, _, hh, _ =>
    .inl ⟨ctx.groups, rfl, hh, fun _ hx => hx, nofun⟩
  | node :: nodes, ctx, g, hg, hS, hcur, hh, hmemKB => by
    rw [spotsAll] at hS
    rw [spotsAll, newGroupsAll, ← add_assoc]
    rcases assignWalker_spec hT node ctx g hg (fun s hs => hS s (mem_append_left _ hs)) hcur hh
      hmemKB with ⟨h₁, hfirst⟩ | herror
    · rcases assignWalkers_spec hT nodes
        { ctx with groups := h₁, nextGroupId := ctx.nextGroupId + newGroups node } g hg
        (fun s hs => hS s (mem_append_right _ hs)) hcur hfirst.limited
        (hfirst.keeps g hmemKB) with ⟨h₂, hrest⟩ | herror
      · refine .inl ⟨h₂, ?_, hrest.limited, fun x hx => hrest.keeps x (hfirst.keeps x hx), ?_⟩
        · simp [assignWalkers, hfirst.eq, hrest.eq]
        intro s hs p hp
        rcases mem_append.1 hs with hs | hs
        · exact hfirst.fits s hs p hp
        · exact hrest.fits s hs p hp
      · refine .inr ?_
        simp [assignWalkers, hfirst.eq, herror]
    · refine .inr ?_
      simp [assignWalkers, herror]

end

end Limits

end Cloudberry.MemQuota
