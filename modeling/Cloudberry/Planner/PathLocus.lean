/-
# The locus of a path

`CdbPathLocus` of `include/cdb/cdbpathlocus.h` says how the rows of a path are distributed over the
processes. The tests of `cdbpathlocus.c` and `cdbgroup.c` tell from it whether rows that are equal
on given expressions are together, and `choose_grouping_locus` of `cdbgroupingpaths.c` decides with
them whether to redistribute the rows for a grouping.

An equivalence class that was merged into another one stays in the loci and keys that it was used
in; a class is known by its address, which is part of it here.
-/

import Mathlib.Data.Int.Notation
import Mathlib.Data.List.Basic

namespace Cloudberry.Planner

inductive CdbLocusType where
  | null
  | entry
  | singleQE
  | general
  | segmentGeneral
  | segmentGeneralWorkers
  | outerQuery
  | replicated
  | replicatedWorkers
  | hashed
  | hashedOJ
  | strewn
  | hashedWorkers
deriving DecidableEq, Repr

/-- `EquivalenceClass`, with expressions of type `ε`. -/
structure EquivalenceClass (ε : Type*) where
  address : ℕ
  ecMembers : List ε
  ecHasConst : Bool
  ecBelowOuterJoin : Bool
  ecSortref : ℕ
  ecMerged : Option (EquivalenceClass ε)

structure DistributionKey (ε : Type*) where
  dkEclasses : List (EquivalenceClass ε)
  dkEclasses_ne_nil : dkEclasses ≠ []

structure CdbPathLocus (ε : Type*) where
  locustype : CdbLocusType
  distkey : List (DistributionKey ε)
  numsegments : ℤ
  parallelWorkers : ℕ

structure TargetEntry (ε : Type*) where
  expr : ε
  ressortgroupref : ℕ
deriving DecidableEq, Repr

structure PathKey (ε : Type*) where
  pkEclass : EquivalenceClass ε

variable {ε : Type*}

namespace EquivalenceClass

/-- `CdbEquivClassIsConstant` -/
def isConstant (ec : EquivalenceClass ε) : Bool := ec.ecHasConst && !ec.ecBelowOuterJoin

/-- The class that this one was merged into in the end. -/
def canonical : EquivalenceClass ε → EquivalenceClass ε
  | ⟨address, members, hasConst, belowOuterJoin, sortref, none⟩ =>
    ⟨address, members, hasConst, belowOuterJoin, sortref, none⟩
  | ⟨_, _, _, _, _, some ec⟩ => canonical ec

end EquivalenceClass

namespace CdbPathLocus

section

variable (locus : CdbPathLocus ε)

def isBottleneck : Bool :=
  locus.locustype = .entry || locus.locustype = .outerQuery || locus.locustype = .singleQE

def isAnyHashed : Bool :=
  locus.locustype = .hashedWorkers || locus.locustype = .hashed || locus.locustype = .hashedOJ

def isValid : Bool :=
  locus.locustype ≠ .null &&
  (locus.isAnyHashed || locus.distkey.isEmpty) &&
  (!locus.isAnyHashed || !locus.distkey.isEmpty) &&
  (locus.locustype = .general || locus.locustype = .entry || locus.locustype = .outerQuery ||
    locus.numsegments ≠ -1)

end

def makeNull : CdbPathLocus ε := ⟨.null, [], -1, 0⟩

def makeSingleQE (numsegments : ℤ) : CdbPathLocus ε := ⟨.singleQE, [], numsegments, 0⟩

def makeHashed (distkey : List (DistributionKey ε)) (numsegments : ℤ) (parallelWorkers : ℕ) :
    CdbPathLocus ε := ⟨.hashed, distkey, numsegments, parallelWorkers⟩

variable [DecidableEq ε]

section

variable (locus : CdbPathLocus ε)

/-- The tests have this in common: the locus is no worker locus, and is hashed on keys that pass,
or else is not strewn. -/
def isHashedOn (keyFound : DistributionKey ε → Bool) : Bool :=
  if locus.locustype = .hashedWorkers then false
  else if locus.locustype = .hashed || locus.locustype = .hashedOJ then locus.distkey.all keyFound
  else locus.locustype ≠ .strewn

/-- `cdbpathlocus_is_hashed_on_exprs`: one class of each key has one of the expressions. -/
def isHashedOnExprs (exprlist : List ε) (ignoreConstants : Bool) : Bool :=
  locus.isHashedOn fun distkey =>
    distkey.dkEclasses.any fun dkEclass =>
      (ignoreConstants && dkEclass.isConstant) || dkEclass.ecMembers.any (· ∈ exprlist)

/-- `cdbpathlocus_is_hashed_on_eclasses`: one class of each key is one of the classes. -/
def isHashedOnEclasses (eclasses : List (EquivalenceClass ε)) (ignoreConstants : Bool) : Bool :=
  locus.isHashedOn fun distkey =>
    distkey.dkEclasses.any fun dkEc =>
      (ignoreConstants && dkEc.canonical.isConstant) ||
        eclasses.any fun ec => ec.canonical.address = dkEc.canonical.address

end

/-- A class that is found in the target list, by its sort reference if it has one. -/
def foundInTlist (tlist : List (TargetEntry ε)) (dkEclass : EquivalenceClass ε) : Bool :=
  if dkEclass.ecSortref ≠ 0 then
    tlist.any fun tle => tle.ressortgroupref = dkEclass.ecSortref
  else
    dkEclass.ecMembers.any fun em => tlist.any fun tle => tle.expr = em

section

variable (locus : CdbPathLocus ε)

/-- `cdbpathlocus_is_hashed_on_tlist`: every class of each key is found. -/
def isHashedOnTlist (tlist : List (TargetEntry ε)) (ignoreConstants : Bool) : Bool :=
  locus.isHashedOn fun distkey =>
    distkey.dkEclasses.all fun dkEclass =>
      (ignoreConstants && dkEclass.isConstant) || foundInTlist tlist dkEclass

def collocatesPathkeys (pathkeys : List (PathKey ε)) (exactMatch : Bool) : Bool :=
  if locus.isBottleneck then true
  else if locus.locustype ≠ .hashed then false
  else if exactMatch && pathkeys.length ≠ locus.distkey.length then false
  else locus.isHashedOnEclasses (pathkeys.map fun pathkey => pathkey.pkEclass.canonical) true

def collocatesTlist (tlist : List (TargetEntry ε)) : Bool :=
  if locus.isBottleneck then true
  else if tlist.isEmpty then false
  else if locus.locustype ≠ .hashed then false
  else locus.isHashedOnTlist tlist true

end

end CdbPathLocus

/-- What `choose_grouping_locus` reads of the planner's state: the locus of the query's result, the
number of segments, and the class of a grouping column (`cdb_make_distkey_for_expr`), if its type
can be hashed and is mergejoinable. -/
structure PlannerInfo (ε : Type*) where
  finalLocus : CdbPathLocus ε
  segmentCount : ℤ
  eclassForExpr : TargetEntry ε → Option (EquivalenceClass ε)

variable [DecidableEq ε]

/-- The locus made from the grouping columns (`cdbpathlocus_from_exprs`). -/
def locusFromTles (root : PlannerInfo ε) (groupTles : List (TargetEntry ε)) (parallelWorkers : ℕ) :
    CdbPathLocus ε :=
  match groupTles.filterMap root.eclassForExpr with
  | [] => .makeSingleQE root.segmentCount
  | eclasses =>
    .makeHashed (eclasses.map fun ec => ⟨[ec], List.cons_ne_nil _ _⟩) root.segmentCount
      parallelWorkers

/-- `choose_grouping_locus` for a path with this locus and this `parallel_workers`: whether the
rows are redistributed, and to which locus. -/
def chooseGroupingLocus (root : PlannerInfo ε) (pathLocus : CdbPathLocus ε) (parallelWorkers : ℕ)
    (groupTles : List (TargetEntry ε)) : Bool × CdbPathLocus ε :=
  if pathLocus.isBottleneck then (false, .makeNull)
  else if groupTles.isEmpty then (true, .makeSingleQE root.segmentCount)
  else if pathLocus.locustype ≠ .hashedOJ && pathLocus.isHashedOnTlist groupTles true then
    (false, .makeNull)
  else if root.finalLocus.locustype = .hashed && root.finalLocus.isHashedOnTlist groupTles true then
    (true, root.finalLocus)
  else (true, locusFromTles root groupTles parallelWorkers)

end Cloudberry.Planner
