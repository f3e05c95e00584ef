/-
# The eager-free policy stays within the memory of the query

Operators of groups of which none is an ancestor of another can be active at the same time.
The operators of one group share its limit (`sum_spotMemKB_le`), the child groups of a group
share the limit of the group, and the limits are a budget that is handed down the tree of groups.
-/

import Cloudberry.Lib.BudgetTree
import Cloudberry.MemQuota.Limits

namespace Cloudberry.MemQuota

open List Nat PolicyEagerFreeContext

variable {H : ℕ → OperatorGroupNode} {S : List Spot} {numGroups queryMemKB fixedMemKB : ℕ}

/-! ### One group -/

variable {x : ℕ}

theorem num_mul_share_le (hfixed : (H x).num false * fixedMemKB ≤ limit H fixedMemKB queryMemKB x) :
    (H x).num true * share H fixedMemKB queryMemKB x + (H x).num false * fixedMemKB ≤
      limit H fixedMemKB queryMemKB x := by
  set L := limit H fixedMemKB queryMemKB x with hL
  rcases Nat.eq_zero_or_pos ((H x).num true) with hzero | hpos
  · rw [hzero, zero_mul, zero_add]
    exact hfixed
  have hleft : (0 : ℚ) ≤ (L : ℚ) - (H x).num false * fixedMemKB := by
    have hcast : (((H x).num false * fixedMemKB : ℕ) : ℚ) ≤ (L : ℚ) := cast_le.2 hfixed
    push_cast at hcast
    linarith
  have hshare : share H fixedMemKB queryMemKB x =
      ⌊((L : ℚ) - (H x).num false * fixedMemKB) / (H x).num true⌋₊ := by
    have hne : ((H x).withMemKB L).numMemIntenseOps ≠ 0 := hpos.ne'
    rw [share, ← hL, computeAvgMemKBForMemIntenseOp, if_neg hne, Int.floor_toNat]
    rfl
  have hpos' : (0 : ℚ) < (H x).num true := cast_pos.2 hpos
  have hle : (share H fixedMemKB queryMemKB x : ℚ) * (H x).num true ≤
      (L : ℚ) - (H x).num false * fixedMemKB := by
    rw [hshare]
    exact (le_div_iff₀ hpos').1 (floor_le (div_nonneg hleft hpos'.le))
  have hsum : (((H x).num true * share H fixedMemKB queryMemKB x +
      (H x).num false * fixedMemKB : ℕ) : ℚ) ≤ L := by
    push_cast
    linarith [mul_comm ((H x).num true : ℚ) (share H fixedMemKB queryMemKB x)]
  exact_mod_cast hsum

theorem spotMemKB_le {s : Spot} (hin : s.isIn x = true) : spotMemKB H fixedMemKB queryMemKB s ≤
      if isMemoryIntensiveOperator s.op = true then share H fixedMemKB queryMemKB x
      else fixedMemKB := by
  simp only [Spot.isIn, Bool.or_eq_true, decide_eq_true_eq] at hin
  unfold spotMemKB
  cases hmem : isMemoryIntensiveOperator s.op with
  | false => exact le_rfl
  | true =>
    simp only [Bool.true_eq_false, if_false, if_true]
    rcases hborder : s.border with _ | p
    · rw [hborder] at hin
      simp only [reduceCtorEq, or_false] at hin
      rw [hin]
    · rw [hborder, Option.some.injEq] at hin
      rcases hin with rfl | rfl
      · exact min_le_left _ _
      · exact min_le_right _ _

theorem sum_spotMemKB_le_count (S : List Spot) (x : ℕ) :
    ((S.filter (·.isIn x)).map (spotMemKB H fixedMemKB queryMemKB)).sum ≤
      count S true x * share H fixedMemKB queryMemKB x + count S false x * fixedMemKB := by
  induction S with
  | nil => simp [count]
  | cons s S ih =>
    rw [count_cons, count_cons]
    cases hin : s.isIn x with
    | false =>
      rw [filter_cons_of_neg (by simp [hin])]
      simpa using ih
    | true =>
      have hle : spotMemKB H fixedMemKB queryMemKB s ≤
          if isMemoryIntensiveOperator s.op = true then share H fixedMemKB queryMemKB x
          else fixedMemKB := spotMemKB_le hin
      rw [filter_cons_of_pos (by simp [hin]), map_cons, sum_cons]
      cases hmem : isMemoryIntensiveOperator s.op with
      | false =>
        rw [hmem, if_neg Bool.false_ne_true] at hle
        simp only [Bool.false_eq_true, false_and, if_false, true_and, if_true, add_mul]
        omega
      | true =>
        rw [hmem, if_pos rfl] at hle
        simp only [Bool.true_eq_false, false_and, if_false, true_and, if_true, add_mul]
        omega

section

variable (hT : GroupTree H S numGroups queryMemKB)
include hT

theorem sum_spotMemKB_le (hx : x < numGroups)
    (hfixed : (H x).num false * fixedMemKB ≤ limit H fixedMemKB queryMemKB x) :
    ((S.filter (·.isIn x)).map (spotMemKB H fixedMemKB queryMemKB)).sum ≤
      limit H fixedMemKB queryMemKB x := by
  have hnum := (hT.isGroup x hx).num
  have hle := num_mul_share_le hfixed
  rw [hnum, hnum] at hle
  exact (sum_spotMemKB_le_count S x).trans hle

/-! ### Groups that are not below each other -/

theorem below_lt {x y : ℕ} (hx : x < numGroups)
    (hxy : BudgetTree.Below (fun p => (H p).childGroups) x y) : y < numGroups := by
  induction hxy with
  | refl => exact hx
  | tail _ hstep ih => exact (hT.lt_of_child ih hstep).2

theorem below_root (hx : x < numGroups) : BudgetTree.Below (fun p => (H p).childGroups) 0 x := by
  induction x using Nat.strong_induction_on with
  | _ x ih =>
    rcases Nat.eq_zero_or_pos x with rfl | hpos
    · exact Relation.ReflTransGen.refl
    · obtain ⟨p, hp, hchild⟩ := hT.exists_parent hpos hx
      exact (ih p (hT.lt_of_child hp hchild).1 hp).tail hchild

/-- **The limits of groups that are not below each other** add up to at most the memory of the
query, if the children of the root group fit. -/
theorem sum_limit_le_query (hfits : ∀ s ∈ S, ∀ p, s.border = some p → total H false p * fixedMemKB ≤
      limit H fixedMemKB queryMemKB p) (A : Finset ℕ) (hA : ∀ g ∈ A, g < numGroups)
    (hanti : ∀ a ∈ A, ∀ b ∈ A, a ≠ b → ¬ BudgetTree.Below (fun p => (H p).childGroups) a b) :
    ∑ g ∈ A, limit H fixedMemKB queryMemKB g ≤ queryMemKB := by
  have hpos := hT.pos
  have hsum : ∑ g ∈ A, limit H fixedMemKB queryMemKB g ≤ limit H fixedMemKB queryMemKB 0 := by
    refine BudgetTree.sum_le_budget (fun g => numGroups - g) (fun y hy c hc => ?_) (fun y hy => ?_) A
      (fun a ha => below_root hT (hA a ha)) hanti
    · have := hT.lt_of_child (below_lt hT hpos hy) hc
      omega
    have hy' := below_lt hT hpos hy
    rcases hchildren : (H y).childGroups with _ | ⟨c, _⟩
    · exact zero_le _
    have hc : c ∈ (H y).childGroups := hchildren ▸ mem_cons_self
    obtain ⟨s, hs, hborder, -⟩ := (hT.child_iff hy').1 hc
    rw [← hchildren]
    exact hT.sum_limit_le hy' (hfits s hs y hborder)
  rwa [hT.limit_root] at hsum

end

/-! ### The policy -/

namespace Distribution

/-- The operator counts in the group: it is in it, or it is the root of one of its children. -/
def countsIn (d : Distribution) (a : Assigned) (g : ℕ) : Bool :=
  a.group = g ||
    isRootOperatorInGroup a.op a.extParam && (d.groups a.group).parentGroup = some g

/-- What the operators of a group have been promised. -/
def memKBIn (d : Distribution) (g : ℕ) : ℕ :=
  ((d.assigned.filter (d.countsIn · g)).map (·.operatorMemKB)).sum

def IsAncestor (d : Distribution) (a b : ℕ) : Prop :=
  Relation.TransGen (fun x p => (d.groups x).parentGroup = some p) b a

end Distribution

mutual

theorem border_spots {g n : ℕ} : ∀ node, ∀ s ∈ spots g n node,
    s.border.isSome = isRootOperatorInGroup s.op s.extParam
  | .plan op extParam parts, s, hs => by
    rw [spots] at hs
    split_ifs at hs with hroot
    · rcases mem_cons.1 hs with rfl | hs
      · exact hroot.symm
      · exact border_spotsAll parts s hs
    · rcases mem_cons.1 hs with rfl | hs
      · exact (Bool.eq_false_iff.2 hroot).symm
      · exact border_spotsAll parts s hs
  | .other parts, s, hs => by
    rw [spots] at hs
    exact border_spotsAll parts s hs

theorem border_spotsAll {g n : ℕ} : ∀ nodes, ∀ s ∈ spotsAll g n nodes,
    s.border.isSome = isRootOperatorInGroup s.op s.extParam
  | [], s, hs => by cases hs
  | node :: nodes, s, hs => by
    rw [spotsAll] at hs
    rcases mem_append.1 hs with hs | hs
    · exact border_spots node s hs
    · exact border_spotsAll nodes s hs

end

theorem assignWalker_top {op : Operator} {extParam : Bool} {parts : List Node}
    (hT : GroupTree H (topSpots op extParam parts) (1 + newGroupsAll parts) queryMemKB) :
    (∃ ctx, assignWalker fixedMemKB (.plan op extParam parts) ⟨H, some 0, none, 0, queryMemKB⟩ =
        .ok ((topSpots op extParam parts).map (Spot.assigned H fixedMemKB queryMemKB), ctx) ∧
      Limited H (1 + newGroupsAll parts) fixedMemKB queryMemKB ctx.groups ∧
      ∀ s ∈ topSpots op extParam parts, ∀ p, s.border = some p →
        total H false p * fixedMemKB ≤ limit H fixedMemKB queryMemKB p) ∨
    assignWalker fixedMemKB (.plan op extParam parts) ⟨H, some 0, none, 0, queryMemKB⟩ =
      .error (.insufficientForChildrenOf 0) := by
  have hroot : (H 0).groupMemKB = limit H fixedMemKB queryMemKB 0 := by
    rw [hT.limit_root, hT.root_memKB]
  have hh : Limited H (1 + newGroupsAll parts) fixedMemKB queryMemKB H := by
    refine ⟨fun x => rfl, fun p hp => .inr fun c hc => ?_⟩
    have := hT.lt_of_child hp hc
    exact hT.memKB c (by omega) this.2
  have hassign : assignOperator fixedMemKB op extParam ⟨H, some 0, none, 0, queryMemKB⟩ =
      .ok (Spot.assigned H fixedMemKB queryMemKB ⟨⟨op, extParam, 0⟩, none⟩,
        ⟨H, some 0, some 0, 1, queryMemKB⟩) := by
    simp [assignOperator, findOperatorGroupForOperator, current, hT.root_parent, operatorMemKB,
      GroupTree.avg_eq_share hh hroot, Spot.assigned, spotMemKB]
  rcases assignWalkers_spec hT parts ⟨H, some 0, some 0, 1, queryMemKB⟩ 0 hT.pos
    (fun s hs => mem_cons_of_mem _ hs) rfl hh hroot with ⟨h', hrest⟩ | herror
  · have hfits : ∀ s ∈ topSpots op extParam parts, ∀ p, s.border = some p →
        total H false p * fixedMemKB ≤ limit H fixedMemKB queryMemKB p := by
      intro s hs p hp
      rcases mem_cons.1 hs with rfl | hs
      · cases hp
      · exact hrest.fits s hs p hp
    refine .inl ?_
    cases htop : isRootOperatorInGroup op extParam with
    | false =>
      refine ⟨⟨h', some 0, some 0, 1 + newGroupsAll parts, queryMemKB⟩, ?_, hrest.limited, hfits⟩
      simp [assignWalker, hassign, hrest.eq, htop, topSpots]
    | true =>
      refine ⟨⟨h', some 0, (h' 0).parentGroup, 1 + newGroupsAll parts, queryMemKB⟩, ?_,
        hrest.limited, hfits⟩
      simp [assignWalker, hassign, hrest.eq, htop, topSpots, current]
  · refine .inr ?_
    simp [assignWalker, hassign, herror]

theorem countsIn_assigned {op : Operator} {extParam : Bool} {parts : List Node}
    (hT : GroupTree H (topSpots op extParam parts) (1 + newGroupsAll parts) queryMemKB)
    {d : Distribution} (hd : ∀ x, (d.groups x).parentGroup = (H x).parentGroup) {s : Spot}
    (hs : s ∈ topSpots op extParam parts) (g : ℕ) :
    d.countsIn (s.assigned H fixedMemKB queryMemKB) g = s.isIn g := by
  have hborder : (isRootOperatorInGroup s.op s.extParam &&
      decide ((d.groups s.group).parentGroup = some g)) = decide (s.border = some g) := by
    rw [hd]
    rcases mem_cons.1 hs with rfl | hs'
    · rw [hT.root_parent]
      simp
    rw [← border_spotsAll parts s hs']
    rcases hp : s.border with _ | p
    · rfl
    · rw [hT.parent s hs p hp]
      rfl
  exact congrArg (decide (s.group = g) || ·) hborder

theorem isAncestor_of_below (hT : GroupTree H S numGroups queryMemKB) {d : Distribution}
    (hd : ∀ x, (d.groups x).parentGroup = (H x).parentGroup) {a b : ℕ} (ha : a < numGroups)
    (hne : a ≠ b) (hab : BudgetTree.Below (fun p => (H p).childGroups) a b) : d.IsAncestor a b := by
  have hlink : ∀ {x c}, BudgetTree.Below (fun p => (H p).childGroups) a x →
      c ∈ (H x).childGroups → (d.groups c).parentGroup = some x := fun hax hc => by
    rw [hd, hT.parent_of_child (below_lt hT ha hax) hc]
  have htrans := (Relation.reflTransGen_iff_eq_or_transGen.1 hab).resolve_left (Ne.symm hne)
  clear hne hab
  induction htrans with
  | single hc => exact .single (hlink Relation.ReflTransGen.refl hc)
  | tail hax hc ih => exact .head (hlink hax.to_reflTransGen hc) ih

theorem policy_cases (fixedMemKB memAvailableBytes : ℕ) (op : Operator) (extParam : Bool)
    (parts : List Node) :
    (∃ H d, policyEagerFreeAssignOperatorMemoryKB fixedMemKB memAvailableBytes op extParam parts =
        .ok d ∧
      GroupTree H (topSpots op extParam parts) (1 + newGroupsAll parts)
        (memAvailableBytes / 1024) ∧
      Limited H (1 + newGroupsAll parts) fixedMemKB (memAvailableBytes / 1024) d.groups ∧
      (H 0).num false * fixedMemKB ≤ memAvailableBytes / 1024 ∧
      (∀ s ∈ topSpots op extParam parts, ∀ p, s.border = some p →
        total H false p * fixedMemKB ≤ limit H fixedMemKB (memAvailableBytes / 1024) p) ∧
      d.numGroups = 1 + newGroupsAll parts ∧
      d.counted = (topSpots op extParam parts).map Spot.toVisit ∧
      d.assigned = (topSpots op extParam parts).map
        (Spot.assigned H fixedMemKB (memAvailableBytes / 1024))) ∨
    policyEagerFreeAssignOperatorMemoryKB fixedMemKB memAvailableBytes op extParam parts =
      .error .insufficientInRoot ∨
    policyEagerFreeAssignOperatorMemoryKB fixedMemKB memAvailableBytes op extParam parts =
      .error (.insufficientForChildrenOf 0) := by
  obtain ⟨H, hprelim, hT⟩ := prelimWalker_top (memAvailableBytes / 1024) op extParam parts
  by_cases hcheck : (H 0).groupMemKB < (H 0).numNonMemIntenseOps * fixedMemKB
  · refine .inr (.inl ?_)
    simp only [policyEagerFreeAssignOperatorMemoryKB, hprelim, ok_bind]
    rw [if_pos hcheck]
  rcases assignWalker_top hT with ⟨ctx, hassign, hlimited, hfits⟩ | herror
  · refine .inl ⟨H, ⟨ctx.groups, 1 + newGroupsAll parts,
      (topSpots op extParam parts).map Spot.toVisit, (topSpots op extParam parts).map
        (Spot.assigned H fixedMemKB (memAvailableBytes / 1024))⟩, ?_, hT, hlimited, ?_, hfits, rfl,
      rfl, rfl⟩
    · simp only [policyEagerFreeAssignOperatorMemoryKB, hprelim, ok_bind]
      rw [if_neg hcheck, hassign]
      rfl
    · rw [not_lt, hT.root_memKB] at hcheck
      exact hcheck
  · refine .inr (.inr ?_)
    simp only [policyEagerFreeAssignOperatorMemoryKB, hprelim, ok_bind]
    rw [if_neg hcheck, herror, error_bind]

/-- **The eager-free policy stays within the memory of the query.**  Without an error the two
walks agree on the group of every operator, and the operators counted in groups of which none is
an ancestor of another have together at most the memory of the query.  An error is for the root
group or for its children. -/
theorem eagerFree_within_query (fixedMemKB memAvailableBytes : ℕ) (op : Operator)
    (extParam : Bool) (parts : List Node) :
    (∀ d, policyEagerFreeAssignOperatorMemoryKB fixedMemKB memAvailableBytes op extParam parts =
        .ok d →
      d.assigned.map Assigned.toVisit = d.counted ∧
      ∀ A : Finset ℕ, (∀ g ∈ A, g < d.numGroups) → (∀ a ∈ A, ∀ b ∈ A, ¬ d.IsAncestor a b) →
        ∑ g ∈ A, d.memKBIn g ≤ memAvailableBytes / 1024) ∧
    ∀ e, policyEagerFreeAssignOperatorMemoryKB fixedMemKB memAvailableBytes op extParam parts =
        .error e →
      e = .insufficientInRoot ∨ e = .insufficientForChildrenOf 0 := by
  rcases policy_cases fixedMemKB memAvailableBytes op extParam parts with
    ⟨H, d, hresult, hT, hlimited, hroot, hfits, hnum, hcounted, hassigned⟩ | herror | herror
  · rw [hresult]
    refine ⟨fun d' hd => ?_, fun e he => by cases he⟩
    cases hd
    have hparent : ∀ x, (d.groups x).parentGroup = (H x).parentGroup := fun x => by
      rw [hlimited.shape x, OperatorGroupNode.parentGroup_withMemKB]
    refine ⟨by rw [hassigned, hcounted, map_map]; rfl, fun A hA hanti => ?_⟩
    rw [hnum] at hA
    have hgroup : ∀ g ∈ A, d.memKBIn g ≤ limit H fixedMemKB (memAvailableBytes / 1024) g := by
      intro g hg
      have hfixed : (H g).num false * fixedMemKB ≤
          limit H fixedMemKB (memAvailableBytes / 1024) g := by
        rcases Nat.eq_zero_or_pos g with rfl | hpos
        · rwa [hT.limit_root]
        · obtain ⟨p, hp, hchild⟩ := hT.exists_parent hpos (hA g hg)
          exact hT.num_mul_le_limit hp hchild
      have hmem : d.memKBIn g = (((topSpots op extParam parts).filter (·.isIn g)).map
          (spotMemKB H fixedMemKB (memAvailableBytes / 1024))).sum := by
        rw [Distribution.memKBIn, hassigned, filter_map, map_map]
        have hfilter : (topSpots op extParam parts).filter
            ((d.countsIn · g) ∘ Spot.assigned H fixedMemKB (memAvailableBytes / 1024)) =
            (topSpots op extParam parts).filter (·.isIn g) :=
          filter_congr fun s hs => countsIn_assigned hT hparent hs g
        rw [hfilter]
        rfl
      rw [hmem]
      exact sum_spotMemKB_le hT (hA g hg) hfixed
    have hbelow : ∀ a ∈ A, ∀ b ∈ A, a ≠ b →
        ¬ BudgetTree.Below (fun p => (H p).childGroups) a b := fun a ha b hb hne hab =>
      hanti a ha b hb (isAncestor_of_below hT hparent (hA a ha) hne hab)
    exact (Finset.sum_le_sum hgroup).trans (sum_limit_le_query hT hfits A hA hbelow)
  · rw [herror]
    exact ⟨fun d hd => (nomatch hd), fun e he => .inl (Except.error.inj he).symm⟩
  · rw [herror]
    exact ⟨fun d hd => (nomatch hd), fun e he => .inr (Except.error.inj he).symm⟩

/-- A sort over a hash join, with 1000 kB: the hash table and the sort are in the root group
together, and the hash table has its own group with the scan below it. -/
example : (policyEagerFreeAssignOperatorMemoryKB 100 (1000 * 1024) .sort false
    [.plan .other false [.plan .other false [], .other [.plan .hash false
      [.plan .other false []]]]]).toOption.map (·.assigned.map (·.operatorMemKB)) =
    some [400, 100, 100, 400, 100] := by
  decide +kernel

end Cloudberry.MemQuota
