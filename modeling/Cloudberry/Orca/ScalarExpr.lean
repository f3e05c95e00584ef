/-
# Scalar expressions over one column

The scalar expressions that `CConstraintInterval` looks at, and what they mean in SQL: a value of
the column, or NULL, makes an expression true, false or unknown. What an operator that is none of
the comparisons computes, and what a sub-expression of another kind computes, is not known; it may
be anything (`Semantics`).
-/

import Cloudberry.Lib.Kleene
import Cloudberry.Orca.ConstraintInterval

namespace Cloudberry.Orca

open Kleene

/-- `IMDType::ECmpType` -/
inductive ECmpType where
  | eq
  | neq
  | l
  | leq
  | g
  | geq
  | idf
  | other
deriving DecidableEq, Repr

/-- `CScalarBooleanTest::EBoolTest` -/
inductive EBoolTest where
  | isTrue
  | isNotTrue
  | isFalse
  | isNotFalse
  | isUnknown
  | isNotUnknown
deriving DecidableEq, Repr

/-- `CScalarArrayCmp::EArrCmpType` -/
inductive EArrCmpType where
  | any
  | all
deriving DecidableEq, Repr

/-- A scalar expression that uses at most the one column. An operator is its identifier with the
comparison it is. -/
inductive CExpression (α : Type*) where
  | scalarNullTest (child : CExpression α)
  | scalarBooleanTest (ebt : EBoolTest) (child : CExpression α)
  | scalarAnd (children : List (CExpression α))
  | scalarOr (children : List (CExpression α))
  | scalarNot (child : CExpression α)
  | scalarIdent
  | scalarCmp (op : ℕ) (cmpType : ECmpType) (const : Option α)
  | scalarIsDistinctFrom (const : Option α)
  | scalarConst (value : Option Bool)
  | scalarArrayCmp (op : ℕ) (cmpType : ECmpType) (earrcmpt : EArrCmpType) (consts : List (Option α))
  | other (id : ℕ)

namespace CExpression

variable {α : Type*}

/-- `CUtils::FScalarIdent` -/
def fScalarIdent : CExpression α → Bool
  | .scalarIdent => true
  | _ => false

/-- What the operators and sub-expressions of other kinds compute. -/
structure Semantics (α : Type*) where
  otherOp : ℕ → Option α → Option α → Option Bool
  otherExpr : ℕ → Option α → Option Bool

variable [LinearOrder α]

/-- A comparison in SQL: with NULL it is unknown, but for `IS DISTINCT FROM`. -/
def evalCmp (sem : Semantics α) (op : ℕ) : ECmpType → Option α → Option α → Option Bool
  | .idf, v, const => some (v ≠ const)
  | .other, v, const => sem.otherOp op v const
  | .eq, some x, some a => some (x = a)
  | .neq, some x, some a => some (x ≠ a)
  | .l, some x, some a => some (x < a)
  | .leq, some x, some a => some (x ≤ a)
  | .g, some x, some a => some (a < x)
  | .geq, some x, some a => some (a ≤ x)
  | _, _, _ => none

def evalBooleanTest : EBoolTest → Option Bool → Bool
  | .isTrue, b => b.getD false
  | .isNotTrue, b => !b.getD false
  | .isFalse, b => !b.getD true
  | .isNotFalse, b => b.getD true
  | .isUnknown, b => b.isNone
  | .isNotUnknown, b => b.isSome

mutual

/-- The truth value of an expression at a value of the column. -/
def eval (sem : Semantics α) (colref : CColRef (WithBot α)) (v : Option α) :
    CExpression α → Option Bool
  | .scalarNullTest child => some (eval sem colref v child).isNone
  | .scalarBooleanTest ebt child => some (evalBooleanTest ebt (eval sem colref v child))
  | .scalarAnd children => all (evalList sem colref v children)
  | .scalarOr children => any (evalList sem colref v children)
  | .scalarNot child => not (eval sem colref v child)
  | .scalarIdent => v.map fun x : α => colref.boolDatums.any fun bounds => (x : WithBot α) = bounds.2
  | .scalarCmp op cmpType const => evalCmp sem op cmpType v const
  | .scalarIsDistinctFrom const => evalCmp sem 0 .idf v const
  | .scalarConst value => value
  | .scalarArrayCmp op cmpType .any consts => any (consts.map (evalCmp sem op cmpType v))
  | .scalarArrayCmp op cmpType .all consts => all (consts.map (evalCmp sem op cmpType v))
  | .other id => sem.otherExpr id v

def evalList (sem : Semantics α) (colref : CColRef (WithBot α)) (v : Option α) :
    List (CExpression α) → List (Option Bool)
  | [] => []
  | child :: children => eval sem colref v child :: evalList sem colref v children

end

/-- The value is one for which a row is returned, or with `inferNullsAs` one that satisfies a table
constraint. -/
def qualifies (sem : Semantics α) (colref : CColRef (WithBot α)) (inferNullsAs : Bool)
    (pexpr : CExpression α) (v : Option α) : Bool :=
  (eval sem colref v pexpr).getD inferNullsAs

end CExpression

def CColRef.IsValue {α : Type*} [LinearOrder α] (colref : CColRef (WithBot α)) (v : Option α) : Prop :=
  ∀ x ∈ v, ∀ bounds ∈ colref.boolDatums, (x : WithBot α) = bounds.1 ∨ (x : WithBot α) = bounds.2

end Cloudberry.Orca
