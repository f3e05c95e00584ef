/-
# Interval constraints

`CConstraintInterval` of `libgpopt/src/base/CConstraintInterval.cpp`: a list of ranges and a flag
for NULL, with intersection, union, difference and complement. Each of them is one pass over the
two lists; the last range of the result is extended if the next one starts where it ends, and the
difference carries the part of a range that is not dealt with yet (the residual) to the next turn.

A column of type boolean has only the values between its two datums.
-/

import Cloudberry.Orca.Range

namespace Cloudberry.Orca

/-- The column of a constraint, with the datums of false and true if it is a boolean one. -/
structure CColRef (α : Type*) [LinearOrder α] where
  boolDatums : Option (α × α)
  boolOrdered : ∀ bounds, boolDatums = some bounds → bounds.1 < bounds.2
deriving DecidableEq, Repr

structure CConstraintInterval (α : Type*) [LinearOrder α] where
  pcr : CColRef α
  pdrgprng : List (CRange α)
  fIncludesNull : Bool
deriving DecidableEq, Repr

namespace CConstraintInterval

variable {α : Type*} [LinearOrder α]

def appendOrExtend (pdrgprng : List (CRange α)) :
    Option (CRange α) → Except String (List (CRange α))
  | none => .ok pdrgprng
  | some prange =>
    match pdrgprng.getLast? with
    | none => .ok (pdrgprng ++ [prange])
    | some prangeLast =>
      match prangeLast.prngExtend prange with
      | .error e => .error e
      | .ok none => .ok (pdrgprng ++ [prange])
      | .ok (some prangeNew) => .ok (pdrgprng.dropLast ++ [prangeNew])

def addRemainingRanges : List (CRange α) → List (CRange α) → Except String (List (CRange α))
  | [], dest => .ok dest
  | prange :: src, dest =>
    match appendOrExtend dest (some prange) with
    | .error e => .error e
    | .ok dest => addRemainingRanges src dest

/-- The loop of `PciIntersect`, from the ranges at `ulFst` and `ulSnd` on. -/
def intersectLoop (fst snd new : List (CRange α)) : Except String (List (CRange α)) :=
  match fst, snd with
  | prangeThis :: fst, prangeOther :: snd =>
    if prangeOther.fEndsAfter prangeThis then
      match prangeThis.prngIntersect prangeOther with
      | .error e => .error e
      | .ok prangeNew => intersectLoop fst (prangeOther :: snd) (new ++ prangeNew.toList)
    else
      match prangeOther.prngIntersect prangeThis with
      | .error e => .error e
      | .ok prangeNew => intersectLoop (prangeThis :: fst) snd (new ++ prangeNew.toList)
  | _, _ => .ok new
termination_by fst.length + snd.length

def pciIntersect (this pci : CConstraintInterval α) : Except String (CConstraintInterval α) :=
  match intersectLoop this.pdrgprng pci.pdrgprng [] with
  | .error e => .error e
  | .ok new => .ok ⟨this.pcr, new, this.fIncludesNull && pci.fIncludesNull⟩

/-- What a loop leaves: the rest of both lists, and the ranges of the result so far. -/
structure Merged (α : Type*) where
  fst : List (CRange α)
  snd : List (CRange α)
  new : List (CRange α)

/-- The loop of `PciUnion`. -/
def unionLoop (fst snd new : List (CRange α)) : Except String (Merged α) :=
  match fst, snd with
  | prangeThis :: fst, prangeOther :: snd =>
    if prangeOther.fEndsAfter prangeThis then
      match appendOrExtend new (prangeThis.prngDifferenceLeft prangeOther) with
      | .error e => .error e
      | .ok new => unionLoop fst (prangeOther :: snd) new
    else
      match appendOrExtend new (prangeOther.prngDifferenceLeft prangeThis) with
      | .error e => .error e
      | .ok new => unionLoop (prangeThis :: fst) snd new
  | fst, snd => .ok ⟨fst, snd, new⟩
termination_by fst.length + snd.length

def pciUnion (this pci : CConstraintInterval α) : Except String (CConstraintInterval α) :=
  match unionLoop this.pdrgprng pci.pdrgprng [] with
  | .error e => .error e
  | .ok merged =>
    match addRemainingRanges merged.fst merged.new with
    | .error e => .error e
    | .ok new =>
      match addRemainingRanges merged.snd new with
      | .error e => .error e
      | .ok new => .ok ⟨this.pcr, new, this.fIncludesNull || pci.fIncludesNull⟩

/-- `PrangeDiffWithRightResidual`: the difference on the left side, and the residual. -/
def prangeDiffWithRightResidual (prangeFirst prangeSecond : CRange α) :
    Option (CRange α) × Option (CRange α) :=
  if prangeSecond.fDisjointLeft prangeFirst then (none, none)
  else
    (if prangeFirst.contains prangeSecond then prangeFirst.prngDifferenceLeft prangeSecond else none,
      prangeFirst.prngDifferenceRight prangeSecond)

/-- What the loop of `PciDifference` leaves. -/
structure Differed (α : Type*) where
  fst : List (CRange α)
  residual : Option (CRange α)
  new : List (CRange α)

/-- The loop of `PciDifference`. The residual is used in place of the range at `ulFst`. -/
def differenceLoop (fst : List (CRange α)) (residual : Option (CRange α))
    (snd new : List (CRange α)) : Except String (Differed α) :=
  match fst, snd with
  | prangeFirst :: fst, prangeOther :: snd =>
    let prangeThis := residual.getD prangeFirst
    if prangeOther.fEndsWithOrAfter prangeThis then
      match appendOrExtend new (prangeThis.prngDifferenceLeft prangeOther) with
      | .error e => .error e
      | .ok new => differenceLoop fst none (prangeOther :: snd) new
    else
      let (prangeNew, residual) := prangeDiffWithRightResidual prangeThis prangeOther
      match appendOrExtend new prangeNew with
      | .error e => .error e
      | .ok new => differenceLoop (prangeFirst :: fst) residual snd new
  | fst, _ => .ok ⟨fst, residual, new⟩
termination_by fst.length + snd.length

def pciDifference (this pci : CConstraintInterval α) : Except String (CConstraintInterval α) :=
  match differenceLoop this.pdrgprng none pci.pdrgprng [] with
  | .error e => .error e
  | .ok differed =>
    let fst := if differed.residual.isSome then differed.fst.tail else differed.fst
    match appendOrExtend differed.new differed.residual with
    | .error e => .error e
    | .ok new =>
      match addRemainingRanges fst new with
      | .error e => .error e
      | .ok new => .ok ⟨this.pcr, new, this.fIncludesNull && !pci.fIncludesNull⟩

def pciUnbounded (colref : CColRef α) (fIncludesNull : Bool) : CConstraintInterval α :=
  match colref.boolDatums with
  | some (datumFalse, datumTrue) =>
    ⟨colref, [⟨some datumFalse, .included, some datumTrue, .included⟩], fIncludesNull⟩
  | none => ⟨colref, [⟨none, .excluded, none, .excluded⟩], fIncludesNull⟩

section

variable (this : CConstraintInterval α)

def pciComplement : Except String (CConstraintInterval α) :=
  (pciUnbounded this.pcr true).pciDifference this

/-- `FContradiction`. Between the two values of a boolean column there is nothing. -/
def fContradiction : Bool :=
  if !this.fIncludesNull && this.pdrgprng.isEmpty then true
  else
    match this.pdrgprng with
    | [prange] =>
      this.pcr.boolDatums.isSome && !this.fIncludesNull && prange.eriLeft = .excluded &&
        prange.eriRight = .excluded && prange.pdatumLeft.isSome && prange.pdatumRight.isSome
    | _ => false

def isConstraintUnbounded : Bool :=
  match this.pdrgprng with
  | [prange] => this.fIncludesNull && prange.isConstraintUnbounded
  | _ => false

end

def fContainsInterval (this pci : CConstraintInterval α) : Except String Bool :=
  if this.isConstraintUnbounded then .ok true
  else if pci.isConstraintUnbounded || (!this.fIncludesNull && pci.fIncludesNull) then .ok false
  else
    match pci.pciDifference this with
    | .error e => .error e
    | .ok pciDiff => .ok pciDiff.fContradiction

def Mem {β : Type*} [LinearOrder β] (e : α ↪o β) (c : CConstraintInterval α) : Option β → Prop
  | some x => ∃ r ∈ c.pdrgprng, r.Mem e x
  | none => c.fIncludesNull = true

/-- The values of a column, and NULL. -/
def Column {β : Type*} [LinearOrder β] (e : α ↪o β) (colref : CColRef α) : Option β → Prop
  | some x => ∀ bounds, colref.boolDatums = some bounds → e bounds.1 ≤ x ∧ x ≤ e bounds.2
  | none => True

/-- The ranges are sorted, non-empty and pairwise disjoint. -/
structure WellFormed (c : CConstraintInterval α) : Prop where
  sorted : c.pdrgprng.Pairwise fun r s => r.hi ≤ s.lo
  nonEmpty : ∀ r ∈ c.pdrgprng, r.NonEmpty

end CConstraintInterval

end Cloudberry.Orca
