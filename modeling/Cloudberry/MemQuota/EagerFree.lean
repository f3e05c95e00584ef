/-
# The eager-free memory policy

`utils/resource_manager/memquota.c`: how the memory of a query is distributed over the
operators of its plan. The plan is divided into groups of operators that are active at the
same time; a blocking operator is the border between two groups and belongs to both. A first
walk over the plan builds the tree of groups and counts operators, a second walk assigns
memory.

The groups are kept by their id, which is also the order in which the first walk creates
them. A null pointer that the code would follow is an error here, and doubles are rationals.
-/

import Mathlib.Data.Rat.Floor

namespace Cloudberry.MemQuota

open Function

/-! ### Plans -/

inductive AggStrategy where
  | plain
  | sorted
  | hashed
  | mixed
deriving DecidableEq, Repr

/-- A plan node, with what the policy asks of it. -/
inductive Operator where
  | bitmapIndexScan
  | hash
  | sort
  | material (cdbStrict : Bool)
  | agg (aggstrategy : AggStrategy) (streaming : Bool) (hasOrderedAggs : Bool)
  | shareInputScan
  | windowAgg
  | tableFunctionScan
  | functionScan
  | result (nFuncExpr : ℕ)
  | other
deriving DecidableEq, Repr

/-- A node that the walkers meet: an operator with what hangs on it in the order of the walk,
or anything else that is walked through (lists, expressions, references to subplans).
`extParam` says whether the set of external parameters is there. -/
inductive Node where
  | plan (op : Operator) (extParam : Bool) (parts : List Node)
  | other (parts : List Node)

def isAggMemoryIntensive (aggstrategy : AggStrategy) (hasOrderedAggs : Bool) : Bool :=
  if aggstrategy = .hashed ∨ aggstrategy = .mixed then true else hasOrderedAggs

def isAggBlockingOperator (aggstrategy : AggStrategy) (streaming : Bool) : Bool :=
  if aggstrategy = .plain then true else aggstrategy = .hashed && !streaming

def isBlockingOperator : Operator → Bool
  | .bitmapIndexScan | .hash | .sort => true
  | .material cdbStrict => cdbStrict
  | .agg aggstrategy streaming _ => isAggBlockingOperator aggstrategy streaming
  | _ => false

def isMemoryIntensiveOperator : Operator → Bool
  | .material _ | .sort | .shareInputScan | .hash | .bitmapIndexScan | .windowAgg
  | .tableFunctionScan | .functionScan => true
  | .agg aggstrategy _ hasOrderedAggs => isAggMemoryIntensive aggstrategy hasOrderedAggs
  | .result nFuncExpr => nFuncExpr != 0
  | .other => false

def isRootOperatorInGroup (op : Operator) (extParam : Bool) : Bool :=
  isBlockingOperator op && !extParam

/-! ### Groups -/

structure OperatorGroupNode where
  groupId : ℕ
  numNonMemIntenseOps : ℕ
  numMemIntenseOps : ℕ
  maxNumConcNonMemIntenseOps : ℕ
  maxNumConcMemIntenseOps : ℕ
  childGroups : List ℕ
  parentGroup : Option ℕ
  groupMemKB : ℕ
deriving DecidableEq, Repr

structure PolicyEagerFreeContext where
  groups : ℕ → OperatorGroupNode
  groupTree : Option ℕ
  groupNode : Option ℕ
  nextGroupId : ℕ
  queryMemKB : ℕ

inductive EagerFreeError where
  /-- "insufficient memory reserved for statement", from the check of the root group. -/
  | insufficientInRoot
  /-- The same, for the child groups of a group. -/
  | insufficientForChildrenOf (group : ℕ)
  | nullPointer
deriving DecidableEq, Repr

/-- An operator that a walk has come to, and the group it is in. -/
structure Visit where
  op : Operator
  extParam : Bool
  group : ℕ
deriving DecidableEq, Repr

namespace PolicyEagerFreeContext

def modify (ctx : PolicyEagerFreeContext) (g : ℕ)
    (f : OperatorGroupNode → OperatorGroupNode) : PolicyEagerFreeContext :=
  { ctx with groups := update ctx.groups g (f (ctx.groups g)) }

@[simp] theorem groups_modify_self (ctx : PolicyEagerFreeContext) (g : ℕ)
    (f : OperatorGroupNode → OperatorGroupNode) : (ctx.modify g f).groups g = f (ctx.groups g) :=
  update_self ..

theorem groups_modify_of_ne {g x : ℕ} (hx : x ≠ g) (ctx : PolicyEagerFreeContext)
    (f : OperatorGroupNode → OperatorGroupNode) : (ctx.modify g f).groups x = ctx.groups x :=
  update_of_ne hx ..

/-- The current group, which is asserted to be there. -/
def current (ctx : PolicyEagerFreeContext) : Except EagerFreeError ℕ :=
  match ctx.groupNode with
  | none => .error .nullPointer
  | some g => .ok g

end PolicyEagerFreeContext

section

variable {α β : Type} (f : α → Except EagerFreeError β)

@[simp] theorem ok_bind (a : α) : (.ok a >>= f) = f a := rfl

@[simp] theorem error_bind (e : EagerFreeError) : (.error e >>= f) = .error e := rfl

@[simp] theorem pure_eq_ok (a : α) : (pure a : Except EagerFreeError α) = .ok a := rfl

end

namespace OperatorGroupNode

def withMemKB (g : OperatorGroupNode) (groupMemKB : ℕ) : OperatorGroupNode :=
  { g with groupMemKB := groupMemKB }

variable (g : OperatorGroupNode) (memKB : ℕ)

@[simp] theorem groupMemKB_withMemKB : (g.withMemKB memKB).groupMemKB = memKB := rfl

@[simp] theorem groupId_withMemKB : (g.withMemKB memKB).groupId = g.groupId := rfl

@[simp] theorem childGroups_withMemKB : (g.withMemKB memKB).childGroups = g.childGroups := rfl

@[simp] theorem parentGroup_withMemKB : (g.withMemKB memKB).parentGroup = g.parentGroup := rfl

end OperatorGroupNode

def createOperatorGroupNode (groupId : ℕ) (parentGroup : Option ℕ) : OperatorGroupNode :=
  ⟨groupId, 0, 0, 0, 0, [], parentGroup, 0⟩

def incrementOperatorCount (op : Operator) (g : OperatorGroupNode) : OperatorGroupNode :=
  if isMemoryIntensiveOperator op then { g with numMemIntenseOps := g.numMemIntenseOps + 1 }
  else { g with numNonMemIntenseOps := g.numNonMemIntenseOps + 1 }

/-- `CreateOperatorGroupForOperator`, with its caller's assignment to the current group. -/
def createOperatorGroupForOperator (op : Operator) (extParam : Bool)
    (ctx : PolicyEagerFreeContext) : PolicyEagerFreeContext :=
  match ctx.groupTree with
  | none =>
    { ctx with
      groups := update ctx.groups ctx.nextGroupId
        ((createOperatorGroupNode ctx.nextGroupId none).withMemKB ctx.queryMemKB)
      groupTree := some ctx.nextGroupId
      groupNode := some ctx.nextGroupId
      nextGroupId := ctx.nextGroupId + 1 }
  | some _ =>
    if isRootOperatorInGroup op extParam then
      let created := { ctx with
          groups := update ctx.groups ctx.nextGroupId
            (createOperatorGroupNode ctx.nextGroupId ctx.groupNode) }
      let linked := match ctx.groupNode with
        | none => created
        | some parent =>
          created.modify parent fun g =>
            { g with childGroups := g.childGroups ++ [ctx.nextGroupId] }
      { linked with groupNode := some ctx.nextGroupId, nextGroupId := ctx.nextGroupId + 1 }
    else ctx

/-- `Max(childGroup->maxNumConcNonMemIntenseOps, childGroup->numNonMemIntenseOps)` -/
def OperatorGroupNode.concNonMem (g : OperatorGroupNode) : ℕ :=
  max g.maxNumConcNonMemIntenseOps g.numNonMemIntenseOps

/-- `Max(childGroup->maxNumConcMemIntenseOps, childGroup->numMemIntenseOps)` -/
def OperatorGroupNode.concMem (g : OperatorGroupNode) : ℕ :=
  max g.maxNumConcMemIntenseOps g.numMemIntenseOps

/-- The end of a group in the first walk: all its child groups are known. -/
def closeGroup (ctx : PolicyEagerFreeContext) : Except EagerFreeError PolicyEagerFreeContext := do
  let g ← ctx.current
  let children := (ctx.groups g).childGroups
  let closed := ctx.modify g fun group =>
    { group with
      maxNumConcNonMemIntenseOps := (children.map fun c => (ctx.groups c).concNonMem).sum
      maxNumConcMemIntenseOps := (children.map fun c => (ctx.groups c).concMem).sum }
  return { closed with groupNode := (closed.groups g).parentGroup }

/-- What the first walk does at an operator before it goes on to what hangs on it. -/
def enterOperator (op : Operator) (extParam : Bool) (ctx : PolicyEagerFreeContext) :
    Except EagerFreeError (ℕ × PolicyEagerFreeContext) := do
  let ctx := createOperatorGroupForOperator op extParam ctx
  let g ← ctx.current
  let ctx := ctx.modify g (incrementOperatorCount op)
  match (ctx.groups g).parentGroup with
  | some parent =>
    if isRootOperatorInGroup op extParam then
      return (g, ctx.modify parent (incrementOperatorCount op))
    else return (g, ctx)
  | none => return (g, ctx)

mutual

/-- `PolicyEagerFreePrelimWalker`: the operators in the order of the walk, each with the group
it was counted in. -/
def prelimWalker : Node → PolicyEagerFreeContext →
    Except EagerFreeError (List Visit × PolicyEagerFreeContext)
  | .plan op extParam parts, ctx => do
    let isTopPlanNode := ctx.groupTree.isNone
    let (g, ctx) ← enterOperator op extParam ctx
    let (visits, ctx) ← prelimWalkers parts ctx
    if isTopPlanNode || isRootOperatorInGroup op extParam then
      let ctx ← closeGroup ctx
      return (⟨op, extParam, g⟩ :: visits, ctx)
    else return (⟨op, extParam, g⟩ :: visits, ctx)
  | .other parts, ctx => prelimWalkers parts ctx

def prelimWalkers : List Node → PolicyEagerFreeContext →
    Except EagerFreeError (List Visit × PolicyEagerFreeContext)
  | [], ctx => .ok ([], ctx)
  | node :: nodes, ctx => do
    let (visits, ctx) ← prelimWalker node ctx
    let (rest, ctx) ← prelimWalkers nodes ctx
    return (visits ++ rest, ctx)

end

/-! ### Memory -/

/-- `FindOperatorGroupForOperator`, with its caller's assignment to the current group. The loop
over the child groups ends with the last one if none has the id. -/
def findOperatorGroupForOperator (op : Operator) (extParam : Bool)
    (ctx : PolicyEagerFreeContext) : Except EagerFreeError PolicyEagerFreeContext :=
  match ctx.groupNode with
  | none => .ok { ctx with groupNode := ctx.groupTree, nextGroupId := ctx.nextGroupId + 1 }
  | some g =>
    if isRootOperatorInGroup op extParam then
      let children := (ctx.groups g).childGroups
      let found := children.find? fun c => (ctx.groups c).groupId == ctx.nextGroupId
      match found.or children.getLast? with
      | none => .error .nullPointer
      | some c => .ok { ctx with groupNode := some c, nextGroupId := ctx.nextGroupId + 1 }
    else .ok ctx

def computeAvgMemKBForMemIntenseOp (fixedMemKB : ℕ) (g : OperatorGroupNode) : ℕ :=
  if g.numMemIntenseOps = 0 then 0
  else ⌊(((g.groupMemKB : ℚ) - g.numNonMemIntenseOps * fixedMemKB) / g.numMemIntenseOps : ℚ)⌋.toNat

/-- The first loop of `ComputeMemLimitForChildGroups`: the totals, or nothing if a limit has been
computed before. -/
def childTotals (groups : ℕ → OperatorGroupNode) : List ℕ → Option (ℕ × ℕ)
  | [] => some (0, 0)
  | c :: children =>
    if (groups c).groupMemKB ≠ 0 then none
    else
      (childTotals groups children).map fun (mem, nonMem) =>
        ((groups c).concMem + mem, (groups c).concNonMem + nonMem)

/-- The limit of a child group from the memory of its parent and the totals over all children. -/
def childGroupMemKB (fixedMemKB parentMemKB totalMem totalNonMem : ℕ) (child : OperatorGroupNode) :
    ℕ :=
  let memIntenseOpMemKB : ℚ := if totalMem > 0 then
      ((parentMemKB - totalNonMem * fixedMemKB : ℕ) : ℚ) / totalMem
    else 0
  ⌊(memIntenseOpMemKB * child.concMem + fixedMemKB * child.concNonMem : ℚ)⌋.toNat

/-- The second loop of `ComputeMemLimitForChildGroups`. -/
def setChildLimits (fixedMemKB : ℕ) (parent : ℕ) (totalMem totalNonMem : ℕ) :
    List ℕ → PolicyEagerFreeContext → Except EagerFreeError PolicyEagerFreeContext
  | [], ctx => .ok ctx
  | c :: children, ctx =>
    if (ctx.groups parent).groupMemKB < totalNonMem * fixedMemKB then
      .error (.insufficientForChildrenOf parent)
    else
      setChildLimits fixedMemKB parent totalMem totalNonMem children
        (ctx.modify c fun g =>
          g.withMemKB (childGroupMemKB fixedMemKB (ctx.groups parent).groupMemKB totalMem
            totalNonMem g))

def computeMemLimitForChildGroups (fixedMemKB : ℕ) (parent : ℕ)
    (ctx : PolicyEagerFreeContext) : Except EagerFreeError PolicyEagerFreeContext :=
  let children := (ctx.groups parent).childGroups
  match childTotals ctx.groups children with
  | none => .ok ctx
  | some (totalMem, totalNonMem) =>
    setChildLimits fixedMemKB parent totalMem totalNonMem children ctx

/-- An operator with the memory that the second walk gives it. -/
structure Assigned extends Visit where
  operatorMemKB : ℕ
deriving DecidableEq, Repr

/-- The memory of an operator in the group `g`. A root operator is in the parent group as well
and takes the smaller share. -/
def operatorMemKB (fixedMemKB : ℕ) (groups : ℕ → OperatorGroupNode) (op : Operator)
    (extParam : Bool) (g : ℕ) : ℕ :=
  if !isMemoryIntensiveOperator op then fixedMemKB
  else
    let memKB := computeAvgMemKBForMemIntenseOp fixedMemKB (groups g)
    match (groups g).parentGroup with
    | some parent =>
      if isRootOperatorInGroup op extParam then
        let memKBInParentGroup := computeAvgMemKBForMemIntenseOp fixedMemKB (groups parent)
        if memKBInParentGroup < memKB then memKBInParentGroup else memKB
      else memKB
    | none => memKB

/-- What the second walk does at an operator before it goes on. -/
def assignOperator (fixedMemKB : ℕ) (op : Operator) (extParam : Bool)
    (ctx : PolicyEagerFreeContext) :
    Except EagerFreeError (Assigned × PolicyEagerFreeContext) := do
  let ctx ← findOperatorGroupForOperator op extParam ctx
  let g ← ctx.current
  let ctx ←
    match (ctx.groups g).parentGroup with
    | some parent =>
      if isRootOperatorInGroup op extParam then
        computeMemLimitForChildGroups fixedMemKB parent ctx
      else .ok ctx
    | none => .ok ctx
  return (⟨⟨op, extParam, g⟩, operatorMemKB fixedMemKB ctx.groups op extParam g⟩, ctx)

mutual

/-- `PolicyEagerFreeAssignWalker` -/
def assignWalker (fixedMemKB : ℕ) : Node → PolicyEagerFreeContext →
    Except EagerFreeError (List Assigned × PolicyEagerFreeContext)
  | .plan op extParam parts, ctx => do
    let (assigned, ctx) ← assignOperator fixedMemKB op extParam ctx
    let (rest, ctx) ← assignWalkers fixedMemKB parts ctx
    if isRootOperatorInGroup op extParam then
      let g ← ctx.current
      return (assigned :: rest, { ctx with groupNode := (ctx.groups g).parentGroup })
    else return (assigned :: rest, ctx)
  | .other parts, ctx => assignWalkers fixedMemKB parts ctx

def assignWalkers (fixedMemKB : ℕ) : List Node → PolicyEagerFreeContext →
    Except EagerFreeError (List Assigned × PolicyEagerFreeContext)
  | [], ctx => .ok ([], ctx)
  | node :: nodes, ctx => do
    let (assigned, ctx) ← assignWalker fixedMemKB node ctx
    let (rest, ctx) ← assignWalkers fixedMemKB nodes ctx
    return (assigned ++ rest, ctx)

end

/-- What the policy leaves behind: the groups, and the operators as the two walks saw them. -/
structure Distribution where
  groups : ℕ → OperatorGroupNode
  numGroups : ℕ
  counted : List Visit
  assigned : List Assigned

/-- `PolicyEagerFreeAssignOperatorMemoryKB` for the plan tree with the given top operator. -/
def policyEagerFreeAssignOperatorMemoryKB (fixedMemKB memAvailableBytes : ℕ) (op : Operator)
    (extParam : Bool) (parts : List Node) : Except EagerFreeError Distribution := do
  let planTree := Node.plan op extParam parts
  let ctx : PolicyEagerFreeContext :=
    ⟨fun _ => createOperatorGroupNode 0 none, none, none, 0, memAvailableBytes / 1024⟩
  let (counted, ctx) ← prelimWalker planTree ctx
  let numGroups := ctx.nextGroupId
  let ctx := { ctx with groupNode := none, nextGroupId := 0 }
  match ctx.groupTree with
  | none => .error .nullPointer
  | some root =>
    if (ctx.groups root).groupMemKB < (ctx.groups root).numNonMemIntenseOps * fixedMemKB then
      .error .insufficientInRoot
    else
      let (assigned, ctx) ← assignWalker fixedMemKB planTree ctx
      return ⟨ctx.groups, numGroups, counted, assigned⟩

end Cloudberry.MemQuota
