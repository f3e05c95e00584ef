/-
# Hashed distributions

`CDistributionSpecHashed` of the optimizer: the expressions whose hash values determine the segment
of a row, the operator families whose hash functions are used, and whether rows with NULLs are kept
together. A specification can have equivalent specifications, which form a chain, and equivalent
expressions for each of its expressions.

`Matches` and `FSatisfies` compare a delivered distribution with a required one. They explore the
chains on both sides; `Matches` changes the roles of the two sides when it descends into the chain
of the other one.
-/

import Mathlib.Data.List.Basic

namespace Cloudberry.Orca

open List

/-- What is known about scalar expressions `ε` over columns `κ` and about operator families; `φ` are
the references to metadata ids and `μ` the ids. -/
structure ScalarWorld (ε κ φ μ : Type) where
  /-- `CUtils::Equals` on expressions -/
  equals : ε → ε → Bool
  /-- `CCastUtils::PexprWithoutBinaryCoercibleCasts` -/
  withoutBinaryCoercibleCasts : ε → ε
  /-- `GetDistrOpfamilyMdid` of the expression's type, if it is valid -/
  distrOpfamilyMdid : ε → Option φ
  /-- the id that is referred to; `CUtils::Equals` compares the ids of two references -/
  mdid : φ → μ
  /-- `PexprCopyWithRemappedColumns` -/
  remap : (κ → κ) → ε → ε
  /-- the column of an expression that uses exactly one -/
  usedColumn : ε → Option κ
  /-- both sides of the equality predicate for two columns, with the casts that it needs -/
  scalarEqCmp : κ → κ → ε × ε
  /-- `EopttraceConsiderOpfamiliesForDistribution` -/
  considerOpfamilies : Bool
  /-- equal expressions have one type -/
  distrOpfamilyMdid_equals : ∀ {e e'}, equals e e' = true →
    distrOpfamilyMdid e = distrOpfamilyMdid e'
  /-- a column is replaced by one of the same type -/
  distrOpfamilyMdid_remap : ∀ m e, distrOpfamilyMdid (remap m e) = distrOpfamilyMdid e

variable {ε κ φ μ : Type}

namespace ScalarWorld

variable (W : ScalarWorld ε κ φ μ) [DecidableEq μ]

/-- `CUtils::Contains` -/
def contains (exprs : List ε) (exprToMatch : ε) : Bool := exprs.any fun expr => W.equals expr exprToMatch

/-- `CUtils::Equals` on arrays of metadata ids -/
def mdidsEqual : Option (List φ) → Option (List φ) → Bool
  | none, none => true
  | some mdids, some otherMdids => mdids.map W.mdid = otherMdids.map W.mdid
  | _, _ => false

/-- `PopulateDefaultOpfamilies` -/
def defaultOpfamilies (exprs : List ε) : Option (List φ) :=
  if exprs.all fun expr => (W.distrOpfamilyMdid expr).isSome then
    some (exprs.filterMap W.distrOpfamilyMdid)
  else none

def ctorOpfamilies (exprs : List ε) (opfamilies : Option (List φ)) : Option (List φ) :=
  if W.considerOpfamilies && opfamilies.isNone then W.defaultOpfamilies exprs else opfamilies

end ScalarWorld

section

variable (W : ScalarWorld ε κ φ μ)

structure HashedSpec where
  pdrgpexpr : List ε
  opfamilies : Option (List φ)
  fNullsColocated : Bool
  /-- the equivalent expressions of each expression, empty if they are not computed -/
  equivHashExprs : List (List ε)
  isDuplicateSensitive : Bool
  pdrgpexpr_ne_nil : pdrgpexpr ≠ []
  length_opfamilies : ∀ mdids ∈ opfamilies, mdids.length = pdrgpexpr.length
  length_equivHashExprs : equivHashExprs = [] ∨ equivHashExprs.length = pdrgpexpr.length
  /-- the constructor has filled in the default families -/
  opfamilies_populated : W.ctorOpfamilies pdrgpexpr opfamilies = opfamilies

/-- `CDistributionSpecHashed`: a specification and the chain of its equivalent ones. -/
structure CDistributionSpecHashed where
  spec : HashedSpec W
  equivs : List (HashedSpec W)

/-- `CDistributionSpec`, as far as a hashed distribution is compared with it. -/
inductive CDistributionSpec where
  | any
  | nonSingleton
  | nonReplicated
  | hashed (pdshashed : CDistributionSpecHashed W)
  | other

end

variable {W : ScalarWorld ε κ φ μ}

theorem ScalarWorld.length_defaultOpfamilies {exprs : List ε} {mdids : List φ}
    (h : W.defaultOpfamilies exprs = some mdids) : mdids.length = exprs.length := by
  unfold ScalarWorld.defaultOpfamilies at h
  split_ifs at h with hall
  obtain rfl := Option.some.inj h
  clear h
  induction exprs with
  | nil => rfl
  | cons expr exprs ih =>
    rw [all_cons, Bool.and_eq_true] at hall
    obtain ⟨_, hmdid⟩ := Option.isSome_iff_exists.1 hall.1
    rw [filterMap_cons_some hmdid, length_cons, length_cons, ih hall.2]

theorem ScalarWorld.length_ctorOpfamilies {exprs : List ε} {opfamilies : Option (List φ)}
    (hlen : ∀ mdids ∈ opfamilies, mdids.length = exprs.length) :
    ∀ mdids ∈ W.ctorOpfamilies exprs opfamilies, mdids.length = exprs.length := by
  intro mdids hmem
  unfold ScalarWorld.ctorOpfamilies at hmem
  split at hmem
  · exact ScalarWorld.length_defaultOpfamilies hmem
  · exact hlen mdids hmem

theorem ScalarWorld.ctorOpfamilies_idem (exprs : List ε) (opfamilies : Option (List φ)) :
    W.ctorOpfamilies exprs (W.ctorOpfamilies exprs opfamilies) =
      W.ctorOpfamilies exprs opfamilies := by
  unfold ScalarWorld.ctorOpfamilies
  by_cases hfill : (W.considerOpfamilies && opfamilies.isNone) = true
  · rw [if_pos hfill]
    split <;> rfl
  · rw [if_neg hfill, if_neg hfill]

variable [DecidableEq κ] [DecidableEq φ] [DecidableEq μ]

namespace HashedSpec

def make (exprs : List ε) (hne : exprs ≠ []) (fNullsColocated : Bool)
    (opfamilies : Option (List φ)) (hlen : ∀ mdids ∈ opfamilies, mdids.length = exprs.length) :
    HashedSpec W where
  pdrgpexpr := exprs
  opfamilies := W.ctorOpfamilies exprs opfamilies
  fNullsColocated := fNullsColocated
  equivHashExprs := []
  isDuplicateSensitive := false
  pdrgpexpr_ne_nil := hne
  length_opfamilies := ScalarWorld.length_ctorOpfamilies hlen
  length_equivHashExprs := .inl rfl
  opfamilies_populated := W.ctorOpfamilies_idem exprs opfamilies

/-- A copy of one specification: duplicate sensitivity and equivalent expressions are not copied. -/
def copy (n : HashedSpec W) (fNullsColocated : Bool) : HashedSpec W :=
  make n.pdrgpexpr n.pdrgpexpr_ne_nil fNullsColocated n.opfamilies n.length_opfamilies

/-- A copy with other columns and given families. -/
def remap (n : HashedSpec W) (m : κ → κ) (opfamilies : Option (List φ))
    (hlen : ∀ mdids ∈ opfamilies, mdids.length = n.pdrgpexpr.length) : HashedSpec W :=
  make (n.pdrgpexpr.map (W.remap m)) (by simpa using n.pdrgpexpr_ne_nil) n.fNullsColocated opfamilies
    (by simpa using hlen)

variable (n other : HashedSpec W)

def fNullsColocatedCompatible : Bool :=
  n.fNullsColocated || !other.fNullsColocated

def fDuplicateSensitiveCompatible : Bool :=
  n.isDuplicateSensitive || !other.isDuplicateSensitive

/-- An expression of the one side is equal to that of the other one, or is equivalent to it there. -/
def exprMatches (other : HashedSpec W) (ul : ℕ) (exprOther expr : ε) : Bool :=
  W.equals exprOther expr || W.contains (other.equivHashExprs.getD ul []) expr

/-- One turn of the loop of `FMatchHashedDistribution`. -/
def matchesAt (ul : ℕ) : Bool :=
  match other.pdrgpexpr[ul]?, n.pdrgpexpr[ul]? with
  | some exprOther, some expr => other.exprMatches ul exprOther expr
  | _, _ => false

def fMatchHashedDistribution : Bool :=
  if n.pdrgpexpr.length ≠ other.pdrgpexpr.length || !n.fNullsColocatedCompatible other ||
    n.isDuplicateSensitive ≠ other.isDuplicateSensitive then false
  else if !W.mdidsEqual n.opfamilies other.opfamilies then false
  else (range n.pdrgpexpr.length).all (n.matchesAt other)

/-- One turn of the inner loop of `FMatchSubset`, with the families of both expressions if they are
considered: is the own expression equal, or equivalent to the other one? Equivalent expressions are
only looked up for default families. -/
def foundAt (other : HashedSpec W) (ulInner : ℕ) (exprOwn exprOther : ε)
    (opfamilies : Option (φ × φ)) : Bool :=
  match opfamilies with
  | none =>
    W.equals exprOwn exprOther || W.contains (other.equivHashExprs.getD ulInner []) exprOwn
  | some (opfamilyOwn, opfamilyOther) =>
    if W.equals exprOwn exprOther && W.mdid opfamilyOwn = W.mdid opfamilyOther then true
    else if W.distrOpfamilyMdid exprOwn ≠ some opfamilyOwn ||
      W.distrOpfamilyMdid exprOwn ≠ some opfamilyOther then false
    else W.contains (other.equivHashExprs.getD ulInner []) exprOwn

/-- The families that a turn of the inner loop reads. There is no result if they are considered and
one side has none. -/
def opfamiliesAt (ulOuter ulInner : ℕ) : Option (Option (φ × φ)) :=
  if W.considerOpfamilies then
    match n.opfamilies, other.opfamilies with
    | some opfamilies, some otherOpfamilies =>
      match opfamilies[ulOuter]?, otherOpfamilies[ulInner]? with
      | some opfamilyOwn, some opfamilyOther => some (some (opfamilyOwn, opfamilyOther))
      | _, _ => none
    | _, _ => none
  else some none

/-- The inner loop of `FMatchSubset`: is the expression `ulOuter` one of the other side? -/
def findIn (n other : HashedSpec W) (ulOuter : ℕ) (exprOwn : ε) : List ℕ → Option Bool
  | [] => some false
  | ulInner :: rest =>
    match other.pdrgpexpr[ulInner]?, n.opfamiliesAt other ulOuter ulInner with
    | some exprOther, some opfamilies =>
      if other.foundAt ulInner (W.withoutBinaryCoercibleCasts exprOwn)
        (W.withoutBinaryCoercibleCasts exprOther) opfamilies then some true
      else findIn n other ulOuter exprOwn rest
    | _, _ => none

/-- The outer loop of `FMatchSubset`. -/
def findAll (n other : HashedSpec W) : List ℕ → Option Bool
  | [] => some true
  | ulOuter :: rest =>
    match n.pdrgpexpr[ulOuter]? with
    | none => none
    | some exprOwn =>
      match n.findIn other ulOuter exprOwn (range other.pdrgpexpr.length) with
      | none => none
      | some false => some false
      | some true => findAll n other rest

def fMatchSubset : Option Bool :=
  if other.pdrgpexpr.length < n.pdrgpexpr.length || !n.fNullsColocatedCompatible other ||
    !n.fDuplicateSensitiveCompatible other then some false
  else n.findAll other (range n.pdrgpexpr.length)

/-- The equivalent expressions of an expression: itself, and the other sides of the equality
predicates between its column and the columns equivalent to that. -/
def equivExprs (equivClass : κ → Option (List κ)) (expr : ε) : List ε :=
  expr :: match W.usedColumn expr with
    | none => []
    | some colref =>
      ((equivClass colref).getD []).filterMap fun equivCol =>
        if equivCol = colref then none
        else
          let left := W.withoutBinaryCoercibleCasts (W.scalarEqCmp colref equivCol).1
          let right := W.withoutBinaryCoercibleCasts (W.scalarEqCmp colref equivCol).2
          if W.equals left expr then some right
          else if W.equals right expr then some left
          else none

/-- `ComputeEquivHashExprs` for one specification; what is computed once stays. -/
def computeEquivHashExprs (equivClass : κ → Option (List κ)) (n : HashedSpec W) : HashedSpec W :=
  if n.equivHashExprs = [] then
    { n with
      equivHashExprs := n.pdrgpexpr.map (equivExprs (W := W) equivClass)
      length_equivHashExprs := .inr (length_map _) }
  else n

end HashedSpec

namespace CDistributionSpecHashed

def chain (d : CDistributionSpecHashed W) : List (HashedSpec W) := d.spec :: d.equivs

/-- `Matches` for hashed distributions. When the chain of the other side is followed, the two sides
change their roles. -/
def matchesHashed (d r : CDistributionSpecHashed W) : Bool :=
  (match _hd : d.equivs with
    | [] => false
    | n :: ns => matchesHashed ⟨n, ns⟩ r) ||
  (match _hr : r.equivs with
    | [] => false
    | n :: ns => matchesHashed ⟨n, ns⟩ d) ||
  d.spec.fMatchHashedDistribution r.spec
termination_by d.equivs.length + r.equivs.length
decreasing_by
  · simp only [_hd, length_cons]
    omega
  · simp only [_hr, length_cons]
    omega

/-- `Matches` -/
def matchesSpec (d : CDistributionSpecHashed W) : CDistributionSpec W → Bool
  | .hashed r => d.matchesHashed r
  | _ => false

/-- `FSatisfies` for the specification `n` with the chain `ns`. -/
def satisfiesFrom (pds : CDistributionSpec W) (n : HashedSpec W) (ns : List (HashedSpec W)) :
    Option Bool :=
  let own : Option Bool := if matchesSpec ⟨n, ns⟩ pds then some true
    else
      match pds with
      | .any | .nonSingleton | .nonReplicated => some true
      | .hashed r => n.fMatchSubset r.spec
      | .other => some false
  match ns with
  | [] => own
  | n' :: ns' =>
    match satisfiesFrom pds n' ns' with
    | none => none
    | some true => some true
    | some false => own

section

variable (d : CDistributionSpecHashed W)

def fSatisfies (pds : CDistributionSpec W) : Option Bool :=
  satisfiesFrom pds d.spec d.equivs

def copy : CDistributionSpecHashed W where
  spec := d.spec.copy d.spec.fNullsColocated
  equivs := d.equivs.map fun n => n.copy n.fNullsColocated

/-- `Copy` with a given value for the NULLs -/
def copyNullsColocated (fNullsColocated : Bool) : CDistributionSpecHashed W where
  spec := d.spec.copy fNullsColocated
  equivs := d.equivs.map fun n => n.copy fNullsColocated

end

/-- `PdsCopyWithRemappedColumns` for the specification `n` with the chain `ns`: the last one of the
chain is made without its families. -/
def remapFrom (m : κ → κ) (n : HashedSpec W) : List (HashedSpec W) → CDistributionSpecHashed W
  | [] => ⟨n.remap m none (fun mdids h => absurd h (Option.not_mem_none mdids)), []⟩
  | n' :: ns => ⟨n.remap m n.opfamilies n.length_opfamilies, (remapFrom m n' ns).chain⟩

def pdsCopyWithRemappedColumns (d : CDistributionSpecHashed W) (m : κ → κ) :
    CDistributionSpecHashed W :=
  remapFrom m d.spec d.equivs

def stripEquivColumns (d : CDistributionSpecHashed W) : CDistributionSpecHashed W :=
  ⟨d.spec.copy d.spec.fNullsColocated, []⟩

def computeEquivHashExprs (equivClass : κ → Option (List κ)) (d : CDistributionSpecHashed W) :
    CDistributionSpecHashed W where
  spec := d.spec.computeEquivHashExprs equivClass
  equivs := d.equivs.map (HashedSpec.computeEquivHashExprs equivClass)

/-- The loops of `Combine` that turn a chain round. -/
def relink (prev : List (HashedSpec W)) : List (HashedSpec W) → List (HashedSpec W)
  | [] => prev
  | combined :: next => relink (combined :: prev) next

omit [DecidableEq κ] [DecidableEq φ] [DecidableEq μ] in
theorem relink_eq (prev ns : List (HashedSpec W)) : relink prev ns = ns.reverse ++ prev := by
  induction ns generalizing prev with
  | nil => rfl
  | cons n ns ih => rw [relink, ih, reverse_cons, append_assoc, singleton_append]

/-- The chain that `Combine` builds. -/
def combinedChain (d other : CDistributionSpecHashed W) : List (HashedSpec W) :=
  relink [] other.copy.chain ++ relink [] d.copy.chain

omit [DecidableEq κ] [DecidableEq φ] [DecidableEq μ] in
theorem combinedChain_ne_nil (d other : CDistributionSpecHashed W) :
    d.combinedChain other ≠ [] := by
  simp [combinedChain, relink_eq, chain]

def combine (d other : CDistributionSpecHashed W) : CDistributionSpecHashed W where
  spec := (d.combinedChain other).head (d.combinedChain_ne_nil other)
  equivs := (d.combinedChain other).tail

end CDistributionSpecHashed

end Cloudberry.Orca
