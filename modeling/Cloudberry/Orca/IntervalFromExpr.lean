/-
# Intervals from scalar expressions

`PciIntervalFromScalarExpr` of `libgpopt/src/base/CConstraintInterval.cpp`: the interval of the
values for which an expression is true, or with `infer_nulls_as` true or unknown. No interval is
made from an expression that cannot be converted; a conjunction then leaves the conjunct out.

A NULL constant is a datum as any other one, the least of all (`CDefaultComparator`). Its absence,
where a range has no end, is a missing datum.
-/

import Cloudberry.Orca.ScalarExpr
import Mathlib.Data.List.ReduceOption
import Mathlib.Data.List.Sort

namespace Cloudberry.Orca

/-- `IMDIndex::EmdindexType` -/
inductive EmdindexType where
  | btree
  | hash
  | bitmap
  | gist
  | gin
  | brin
  | sentinel
deriving DecidableEq, Repr

/-- The trace flags that are read, and whether the operator belongs to the operator family of the
column and of the constant (`FOpInOpfamily`). -/
structure Options where
  arrayConstraints : Bool
  considerOpfamiliesForDistribution : Bool
  fOpInOpfamilyLeft : ℕ → EmdindexType → Bool
  fOpInOpfamilyRight : ℕ → EmdindexType → Bool

namespace CRange

variable {α : Type*}

/-- The constructor of a range from a comparison with a datum. -/
def ofCmp (cmpType : ECmpType) (datum : α) : CRange α :=
  match cmpType with
  | .eq => ⟨some datum, .included, some datum, .included⟩
  | .l => ⟨none, .excluded, some datum, .excluded⟩
  | .leq => ⟨none, .excluded, some datum, .included⟩
  | .g => ⟨some datum, .excluded, none, .excluded⟩
  | .geq => ⟨some datum, .included, none, .excluded⟩
  | _ => ⟨none, .excluded, none, .excluded⟩

end CRange

namespace CConstraintInterval

variable {α : Type*} [LinearOrder α]

def getDatum : Option α → WithBot α
  | none => ⊥
  | some a => a

def pciRangeFromColConstCmp (cmpType : ECmpType) (datum : WithBot α) :
    Option (List (CRange (WithBot α))) :=
  match cmpType with
  | .other => none
  | .neq => some [.ofCmp .l datum, .ofCmp .g datum]
  | .idf => some [.ofCmp .l datum, .ofCmp .g datum]
  | cmpType => some [.ofCmp cmpType datum]

def pciIntervalFromColConstCmp (colref : CColRef (WithBot α)) (cmpType : ECmpType)
    (const : Option α) (inferNullsAs : Bool) : Option (CConstraintInterval (WithBot α)) :=
  (pciRangeFromColConstCmp cmpType (getDatum const)).map fun ranges =>
    ⟨colref, ranges, inferNullsAs⟩

/-- `PciIntervalFromScalarCmp` of a comparison of the column and a constant. -/
def pciIntervalFromScalarCmp (opts : Options) (colref : CColRef (WithBot α)) (op : ℕ)
    (cmpType : ECmpType) (const : Option α) (inferNullsAs : Bool) (accessMethod : EmdindexType) :
    Option (CConstraintInterval (WithBot α)) :=
  if opts.considerOpfamiliesForDistribution &&
      (!opts.fOpInOpfamilyLeft op accessMethod || !opts.fOpInOpfamilyRight op accessMethod) then
    none
  else pciIntervalFromColConstCmp colref cmpType const inferNullsAs

section

variable (colref : CColRef (WithBot α))

def pciIntervalFromScalarIDF : Option α → Except String (Option (CConstraintInterval (WithBot α)))
  | none => ((⟨colref, [], true⟩ : CConstraintInterval (WithBot α)).pciComplement).map some
  | some a => .ok ((pciRangeFromColConstCmp .idf (getDatum (some a))).map fun ranges =>
      ⟨colref, ranges, true⟩)

def pciIntervalFromScalarNullAndUnknownTest
    (child : CExpression α) : Option (CConstraintInterval (WithBot α)) :=
  if child.fScalarIdent then some ⟨colref, [], true⟩ else none

/-- `PciIntervalFromScalarIdent`, on a boolean column. -/
def pciIntervalFromScalarIdent (inferNullsAs : Bool) :
    Except String (Option (CConstraintInterval (WithBot α))) :=
  match colref.boolDatums with
  | none => .error "not a boolean column"
  | some (_, datumTrue) => .ok (some ⟨colref, [.ofCmp .eq datumTrue], inferNullsAs⟩)

end

/-- The rest of a sorted list, without what is equal to the datum before it. -/
def removeDuplicates (pdatumPrev : WithBot α) : List (WithBot α) → List (WithBot α)
  | [] => []
  | datum :: datums =>
    if datum = pdatumPrev then removeDuplicates pdatumPrev datums
    else datum :: removeDuplicates datum datums

/-- `CDatumSortedSet`: the constants that are not NULL, sorted and without duplicates. -/
def datumSortedSet (consts : List (Option α)) : List (WithBot α) :=
  match (consts.reduceOption.map WithBot.some).insertionSort (· ≤ ·) with
  | [] => []
  | datum :: datums => datum :: removeDuplicates datum datums

/-- The ranges of `NOT IN`: what is between the datums, before the first and after the last one. -/
def notInRanges (pprevdatum : Option (WithBot α)) :
    List (WithBot α) → Except String (List (CRange (WithBot α)))
  | [] =>
    match pprevdatum with
    | none => .error missingDatum
    | some datum => .ok [⟨some datum, .excluded, none, .excluded⟩]
  | datum :: datums =>
    match notInRanges (some datum) datums with
    | .error e => .error e
    | .ok ranges => .ok (⟨pprevdatum, .excluded, some datum, .excluded⟩ :: ranges)

/-- `PcnstrIntervalFromScalarArrayCmp`. Which quantifier it is is not looked at. -/
def pcnstrIntervalFromScalarArrayCmp (colref : CColRef (WithBot α)) (cmpType : ECmpType)
    (consts : List (Option α)) (inferNullsAs : Bool) :
    Except String (Option (CConstraintInterval (WithBot α))) :=
  if consts.length = 0 then .ok none
  else
    match cmpType with
    | .eq => .ok (some ⟨colref, (datumSortedSet consts).map (.ofCmp .eq), inferNullsAs⟩)
    | .neq =>
      match notInRanges none (datumSortedSet consts) with
      | .error e => .error e
      | .ok ranges => .ok (some ⟨colref, ranges, inferNullsAs⟩)
    | _ => .ok none

def complementOf (child : Except String (Option (CConstraintInterval (WithBot α)))) :
    Except String (Option (CConstraintInterval (WithBot α))) :=
  match child with
  | .error e => .error e
  | .ok none => .ok none
  | .ok (some pciChild) => pciChild.pciComplement.map some

def unionPairs : List (CConstraintInterval (WithBot α)) →
    Except String (List (CConstraintInterval (WithBot α)))
  | pci1 :: pci2 :: rest =>
    match pci1.pciUnion pci2 with
    | .error e => .error e
    | .ok pciOr =>
      match unionPairs rest with
      | .error e => .error e
      | .ok constraints => .ok (pciOr :: constraints)
  | rest => .ok rest

theorem unionPairs_length_le {cs ds : List (CConstraintInterval (WithBot α))}
    (h : unionPairs cs = .ok ds) : 2 * ds.length ≤ cs.length + 1 := by
  fun_induction unionPairs cs generalizing ds with
  | case1 | case2 => cases h
  | case3 c d rest union hunion constraints hrest ih =>
    cases h
    have hle := ih hrest
    simp only [List.length_cons]
    omega
  | case4 cs hshort =>
    cases h
    match cs, hshort with
    | [], _ => simp
    | [c], _ => simp
    | c :: d :: rest, hshort => exact (hshort c d rest rfl).elim

/-- The loop of `PciIntervalFromScalarBoolOr`: unions in pairs until one interval is left. -/
def unionAll (cs : List (CConstraintInterval (WithBot α))) :
    Except String (CConstraintInterval (WithBot α)) :=
  match cs with
  | [] => .error "no children"
  | [c] => .ok c
  | c :: d :: rest =>
    match _hpairs : unionPairs (c :: d :: rest) with
    | .error e => .error e
    | .ok constraints => unionAll constraints
termination_by cs.length
decreasing_by
  have hle := unionPairs_length_le _hpairs
  simp only [List.length_cons] at hle ⊢
  omega

mutual

def pciIntervalFromScalarExpr (opts : Options) (colref : CColRef (WithBot α)) :
    CExpression α → Bool → EmdindexType → Except String (Option (CConstraintInterval (WithBot α)))
  | .scalarNullTest child, _, _ => .ok (pciIntervalFromScalarNullAndUnknownTest colref child)
  | .scalarBooleanTest .isTrue child, _, _ =>
    pciIntervalFromScalarExpr opts colref child false .sentinel
  | .scalarBooleanTest .isNotFalse child, _, _ =>
    pciIntervalFromScalarExpr opts colref child true .sentinel
  | .scalarBooleanTest .isNotTrue child, _, _ =>
    complementOf (pciIntervalFromScalarExpr opts colref child false .sentinel)
  | .scalarBooleanTest .isFalse child, _, _ =>
    complementOf (pciIntervalFromScalarExpr opts colref child true .sentinel)
  | .scalarBooleanTest .isUnknown child, _, _ =>
    .ok (pciIntervalFromScalarNullAndUnknownTest colref child)
  | .scalarBooleanTest .isNotUnknown child, _, _ =>
    complementOf (.ok (pciIntervalFromScalarNullAndUnknownTest colref child))
  | .scalarAnd children, inferNullsAs, accessMethod =>
    if children.isEmpty then .error "no children"
    else intersectAll opts colref children inferNullsAs accessMethod none
  | .scalarOr children, inferNullsAs, accessMethod =>
    match childConstraints opts colref children inferNullsAs accessMethod with
    | .error e => .error e
    | .ok none => .ok none
    | .ok (some constraints) => (unionAll constraints).map some
  | .scalarNot child, inferNullsAs, _ =>
    complementOf (pciIntervalFromScalarExpr opts colref child (!inferNullsAs) .sentinel)
  | .scalarIdent, inferNullsAs, _ => pciIntervalFromScalarIdent colref inferNullsAs
  | .scalarCmp op cmpType const, inferNullsAs, accessMethod =>
    .ok (pciIntervalFromScalarCmp opts colref op cmpType const inferNullsAs accessMethod)
  | .scalarIsDistinctFrom const, _, _ => pciIntervalFromScalarIDF colref const
  | .scalarConst value, _, _ =>
    if value = some true then .ok (some (pciUnbounded colref true))
    else .ok (some ⟨colref, [], false⟩)
  | .scalarArrayCmp _ cmpType _ consts, inferNullsAs, _ =>
    if opts.arrayConstraints then
      pcnstrIntervalFromScalarArrayCmp colref cmpType consts inferNullsAs
    else .ok none
  | .other _, _, _ => .ok none

/-- The loop of `PciIntervalFromScalarBoolAnd`. A child without an interval is left out. -/
def intersectAll (opts : Options) (colref : CColRef (WithBot α)) :
    List (CExpression α) → Bool → EmdindexType → Option (CConstraintInterval (WithBot α)) →
      Except String (Option (CConstraintInterval (WithBot α)))
  | [], _, _, pci => .ok pci
  | child :: children, inferNullsAs, accessMethod, pci =>
    match pciIntervalFromScalarExpr opts colref child inferNullsAs accessMethod, pci with
    | .error e, _ => .error e
    | .ok none, pci => intersectAll opts colref children inferNullsAs accessMethod pci
    | .ok (some pciChild), none =>
      intersectAll opts colref children inferNullsAs accessMethod (some pciChild)
    | .ok (some pciChild), some pci =>
      match pci.pciIntersect pciChild with
      | .error e => .error e
      | .ok pciAnd => intersectAll opts colref children inferNullsAs accessMethod (some pciAnd)

/-- The intervals of the children of a disjunction, if each of them has one. -/
def childConstraints (opts : Options) (colref : CColRef (WithBot α)) :
    List (CExpression α) → Bool → EmdindexType →
      Except String (Option (List (CConstraintInterval (WithBot α))))
  | [], _, _ => .ok (some [])
  | child :: children, inferNullsAs, accessMethod =>
    match pciIntervalFromScalarExpr opts colref child inferNullsAs accessMethod with
    | .error e => .error e
    | .ok none => .ok none
    | .ok (some pciChild) =>
      match childConstraints opts colref children inferNullsAs accessMethod with
      | .error e => .error e
      | .ok none => .ok none
      | .ok (some constraints) => .ok (some (pciChild :: constraints))

end

end CConstraintInterval

end Cloudberry.Orca
