/-
# Whether an interval keeps the values that qualify

An interval is used to skip what cannot qualify, so it should have every value at which the
expression is true, and with `infer_nulls_as` every value at which it is true or unknown.

An interval may be too large: a conjunct that is not converted is left out, a comparison with NULL
is taken for one with a least value, and ANY and ALL are not told apart. Below a complement, which
NOT, IS NOT TRUE and IS FALSE take, what is too large becomes too small. `lossless` is a condition
on the expression alone: it follows the complements down to the leaves, and asks at each of them for
an interval that errs, if at all, on the side that does no harm there.

The datums of the column are those of a linear order. Columns of type float4, float8 and numeric are
left out: for the comparator two of their datums are equal if they differ by at most 1e-5
(`IDatum::StatsAreEqual`), so that `x > 1.0 AND x < 1.000005` has an empty interval.
-/

import Cloudberry.Orca.IntervalReading

namespace Cloudberry.Orca

/-- The quantifier of the negated comparison. -/
def EArrCmpType.dual : EArrCmpType → EArrCmpType
  | .any => .all
  | .all => .any

namespace CConstraintInterval

open CExpression

open Kleene (getD_all getD_any getD_not)

variable {α : Type*} [LinearOrder α]

/-- A comparison with a constant has an interval that is not too small, or below a complement not
too large. With NULL, the least datum, it has all values or none, where SQL has unknown. -/
def cmpLossless (inferNullsAs complemented : Bool) : ECmpType → Option α → Bool
  | .idf, some _ => inferNullsAs || complemented
  | .idf, none => !inferNullsAs || !complemented
  | _, some _ => true
  | .eq, none | .l, none | .leq, none => !inferNullsAs || complemented
  | _, none => inferNullsAs || !complemented

/-- The same for `= ANY` and `= ALL`, which have the interval of the constants that are not NULL:
`= ALL` is true at one of them only if there is no other. -/
def inLossless (consts : List (Option α)) (inferNullsAs complemented : Bool) : EArrCmpType → Bool
  | .any => !inferNullsAs || complemented || consts.all Option.isSome
  | .all =>
    if complemented then
      consts.all fun const => const.isNone ||
        consts.all fun other => other = const || (inferNullsAs && other.isNone)
    else !inferNullsAs || consts.any Option.isSome

mutual

/-- Each leaf has an interval that is not too small, or where `complemented` not too large, and no
conjunct is left out below a complement. -/
def lossless (opts : Options) : CExpression α → Bool → Bool → EmdindexType → Bool
  | .scalarBooleanTest .isTrue child, _, complemented, _ =>
    lossless opts child false complemented .sentinel
  | .scalarBooleanTest .isNotFalse child, _, complemented, _ =>
    lossless opts child true complemented .sentinel
  | .scalarBooleanTest .isNotTrue child, _, complemented, _ =>
    lossless opts child false (!complemented) .sentinel
  | .scalarBooleanTest .isFalse child, _, complemented, _ =>
    lossless opts child true (!complemented) .sentinel
  | .scalarAnd children, inferNullsAs, complemented, accessMethod =>
    (!complemented || allConverted opts children accessMethod) &&
      allLossless opts children inferNullsAs complemented accessMethod
  | .scalarOr children, inferNullsAs, complemented, accessMethod =>
    allLossless opts children inferNullsAs complemented accessMethod
  | .scalarNot child, inferNullsAs, complemented, _ =>
    lossless opts child (!inferNullsAs) (!complemented) .sentinel
  | .scalarCmp _ cmpType const, inferNullsAs, complemented, _ =>
    cmpLossless inferNullsAs complemented cmpType const
  | .scalarConst value, inferNullsAs, complemented, _ =>
    value.isSome || !inferNullsAs || complemented
  | .scalarArrayCmp _ .eq earrcmpt consts, inferNullsAs, complemented, _ =>
    inLossless consts inferNullsAs complemented earrcmpt
  | .scalarArrayCmp _ .neq earrcmpt consts, inferNullsAs, complemented, _ =>
    inLossless consts (!inferNullsAs) (!complemented) earrcmpt.dual
  | _, _, _, _ => true

/-- Every child that is converted is `lossless`. -/
def allLossless (opts : Options) : List (CExpression α) → Bool → Bool → EmdindexType → Bool
  | [], _, _, _ => true
  | child :: children, inferNullsAs, complemented, accessMethod =>
    (!converted opts child accessMethod ||
        lossless opts child inferNullsAs complemented accessMethod) &&
      allLossless opts children inferNullsAs complemented accessMethod

end

variable (opts : Options) (sem : Semantics α) (colref : CColRef (WithBot α)) (v : Option α)

/-! ### The leaves -/

theorem eval_isNone_of_fScalarIdent {child : CExpression α} (h : child.fScalarIdent = true) :
    (eval sem colref v child).isNone = v.isNone := by
  cases child with
  | scalarIdent => rw [eval, Option.isNone_map]
  | _ => cases h

/-- A comparison is read too large where it is compared with NULL, and never too small for what
`cmpLossless` admits. -/
theorem reading_cmp_of_lossless (op : ℕ) {cmpType : ECmpType} {const : Option α}
    {inferNullsAs complemented : Bool} (hother : cmpType ≠ .other)
    (h : cmpLossless inferNullsAs complemented cmpType const = true)
    (hq : ((evalCmp sem op cmpType v const).getD inferNullsAs ^^ complemented) = true) :
    ((v.map fun x : α => readingCmp cmpType (x : WithBot α) (getDatum const)).getD inferNullsAs
      ^^ complemented) = true := by
  revert h hq
  cases const <;> cases cmpType <;> cases v <;> cases inferNullsAs <;> cases complemented <;>
    simp [cmpLossless, evalCmp, readingCmp, getDatum]
  all_goals exact absurd rfl hother

variable {consts : List (Option α)}

theorem getD_evalCmp_eq (op : ℕ) (x : α) (const : Option α) (unknown : Bool) :
    (evalCmp sem op .eq (some x) const).getD unknown = true ↔
      const = some x ∨ unknown = true ∧ const = none := by
  cases const <;> simp [evalCmp, eq_comm]

/-- `= ANY` and `= ALL`, as they are read. -/
theorem reading_in_of_lossless (op : ℕ) (earrcmpt : EArrCmpType) {inferNullsAs complemented : Bool}
    (hne : consts ≠ [])
    (h : inLossless consts inferNullsAs complemented earrcmpt = true)
    (hq : ((eval sem colref v (.scalarArrayCmp op .eq earrcmpt consts)).getD inferNullsAs
      ^^ complemented) = true) :
    ((v.map fun x : α => decide (some x ∈ consts)).getD inferNullsAs ^^ complemented) = true := by
  obtain ⟨const, hconst⟩ := List.exists_mem_of_ne_nil consts hne
  cases v with
  | none =>
    have hnull : (consts.map (evalCmp sem op .eq none)) = consts.map fun _ => none := rfl
    cases earrcmpt <;> cases inferNullsAs <;> rw [eval, hnull] at hq <;>
      simpa [getD_any, getD_all, hne] using hq
  | some x =>
    have hiff := getD_evalCmp_eq sem op x
    cases earrcmpt with
    | any =>
      rw [eval, getD_any, List.any_map] at hq
      cases complemented with
      | false =>
        simp only [Bool.xor_false, List.any_eq_true, Function.comp_apply, hiff, Option.map_some, Option.getD_some,
          decide_eq_true_eq, inLossless, Bool.or_eq_true, Bool.not_eq_true', Bool.false_eq_true, or_false,
          List.all_eq_true] at hq h ⊢
        obtain ⟨_, hin, rfl | ⟨hinfer, rfl⟩⟩ := hq
        · exact hin
        · rcases h with h | h
          · exact absurd hinfer (by simp [h])
          · exact absurd (h none hin) (by simp)
      | true =>
        simp only [Bool.xor_true, Bool.not_eq_true', List.any_eq_false, Function.comp_apply, hiff, Option.map_some,
          Option.getD_some, decide_eq_false_iff_not] at hq ⊢
        exact fun hin => hq _ hin (.inl rfl)
    | all =>
      rw [eval, getD_all, List.all_map] at hq
      cases complemented with
      | false =>
        simp only [Bool.xor_false, List.all_eq_true, Function.comp_apply, hiff, Option.map_some, Option.getD_some,
          decide_eq_true_eq, inLossless, Bool.or_eq_true, Bool.not_eq_true', Bool.false_eq_true, if_false,
          List.any_eq_true] at hq h ⊢
        rcases h with h | ⟨other, hin, hsome⟩
        · rcases hq const hconst with rfl | ⟨hinfer, -⟩
          · exact hconst
          · exact absurd hinfer (by simp [h])
        · rcases hq other hin with rfl | ⟨-, rfl⟩
          · exact hin
          · cases hsome
      | true =>
        simp only [Bool.xor_true, Bool.not_eq_true', List.all_eq_false, Function.comp_apply, hiff, Option.map_some,
          Option.getD_some, decide_eq_false_iff_not, inLossless, if_true, List.all_eq_true, Bool.or_eq_true,
          decide_eq_true_eq, Bool.and_eq_true, Option.isNone_iff_eq_none] at hq h ⊢
        obtain ⟨other, hin, hnot⟩ := hq
        refine fun hx => hnot ?_
        exact ((h _ hx).resolve_left nofun other hin)

/-- A comparison with `<>` is the negation of the one with `=` under the other quantifier. -/
theorem eval_neq (op : ℕ) (earrcmpt : EArrCmpType) (unknown : Bool) :
    (eval sem colref v (.scalarArrayCmp op .neq earrcmpt consts)).getD unknown =
      !(eval sem colref v (.scalarArrayCmp op .eq earrcmpt.dual consts)).getD (!unknown) := by
  have hneq : ∀ const, evalCmp sem op .neq v const = Kleene.not (evalCmp sem op .eq v const) := by
    intro const
    cases v <;> cases const <;> simp [evalCmp, Kleene.not]
  cases earrcmpt <;>
    simp [eval, EArrCmpType.dual, getD_any, getD_all, hneq, getD_not, Function.comp_def,
      List.not_all_eq_any_not, List.not_any_eq_all_not]

/-! ### The whole expression -/

mutual

/-- **A lossless expression is read as true where it qualifies**, and below a complement it
qualifies where it is read as true, by induction on it. -/
theorem reading_of_lossless :
    ∀ (pexpr : CExpression α) (inferNullsAs complemented : Bool) (accessMethod : EmdindexType),
      converted opts pexpr accessMethod = true →
      lossless opts pexpr inferNullsAs complemented accessMethod = true →
      (pexpr.qualifies sem colref inferNullsAs v ^^ complemented) = true →
      (reading opts colref v pexpr inferNullsAs accessMethod ^^ complemented) = true
  | .scalarNullTest child, _, _, _, hc, _, hq => by
    rw [converted] at hc
    rwa [qualifies, eval, Option.getD_some, eval_isNone_of_fScalarIdent sem colref v hc] at hq
  | .scalarBooleanTest ebt child, _, complemented, _, hc, h, hq => by
    have ih := fun infer c => reading_of_lossless child infer c .sentinel
    rw [qualifies, eval, Option.getD_some] at hq
    cases ebt <;> simp only [converted, lossless, evalBooleanTest, reading] at hc h hq ⊢
    case isTrue => exact ih false complemented hc h hq
    case isNotTrue => simpa using ih false (!complemented) hc h (by simpa [qualifies] using hq)
    case isFalse => simpa using ih true (!complemented) hc h (by simpa [qualifies] using hq)
    case isNotFalse => exact ih true complemented hc h hq
    case isUnknown => rwa [eval_isNone_of_fScalarIdent sem colref v hc] at hq
    case isNotUnknown =>
      rwa [← Option.not_isNone, eval_isNone_of_fScalarIdent sem colref v hc, Option.not_isNone] at hq
  | .scalarAnd children, inferNullsAs, complemented, accessMethod, _, h, hq => by
    rw [lossless, Bool.and_eq_true] at h
    rw [qualifies, eval, getD_all] at hq
    exact readingAnd_of_lossless children inferNullsAs complemented accessMethod h.1 h.2 hq
  | .scalarOr children, inferNullsAs, complemented, accessMethod, hc, h, hq => by
    rw [converted] at hc
    rw [qualifies, eval, getD_any] at hq
    exact readingOr_of_lossless children inferNullsAs complemented accessMethod hc h hq
  | .scalarNot child, inferNullsAs, complemented, _, hc, h, hq => by
    have ih := reading_of_lossless child (!inferNullsAs) (!complemented) .sentinel hc h
    rw [qualifies, eval, getD_not] at hq
    rw [reading]
    simpa using ih (by simpa [qualifies] using hq)
  | .scalarIdent, _, _, _, _, _, hq => by
    rwa [qualifies, eval] at hq
  | .scalarCmp op cmpType const, inferNullsAs, complemented, _, hc, h, hq => by
    rw [converted, Bool.and_eq_true] at hc
    rw [reading]
    exact reading_cmp_of_lossless sem v op (of_decide_eq_true hc.1) h hq
  | .scalarIsDistinctFrom const, _, _, _, _, _, hq => by
    rw [reading]
    rwa [qualifies, eval, evalCmp, Option.getD_some] at hq
  | .scalarConst value, inferNullsAs, complemented, _, _, h, hq => by
    rw [lossless] at h
    rw [qualifies, eval] at hq
    rw [reading]
    rcases value with _ | _ | _ <;> cases inferNullsAs <;> cases complemented <;> simp_all
  | .scalarArrayCmp op cmpType earrcmpt consts, inferNullsAs, complemented, _, hc, h, hq => by
    rw [converted, Bool.and_eq_true, Bool.and_eq_true, decide_eq_true_eq] at hc
    have hne : consts ≠ [] := fun hnil => hc.1.2 (by rw [hnil]; rfl)
    rw [qualifies] at hq
    rw [reading]
    cases cmpType with
    | eq => exact reading_in_of_lossless sem colref v op earrcmpt hne h hq
    | neq =>
      rw [eval_neq, Bool.not_xor, ← Bool.xor_not] at hq
      have hin := reading_in_of_lossless sem colref v op earrcmpt.dual hne h hq
      cases v <;> simpa using hin
    | _ => cases hc.2
  | .other id, _, _, _, hc, _, _ => by
    rw [converted] at hc
    cases hc

theorem readingAnd_of_lossless :
    ∀ (children : List (CExpression α)) (inferNullsAs complemented : Bool)
      (accessMethod : EmdindexType),
      (!complemented || allConverted opts children accessMethod) = true →
      allLossless opts children inferNullsAs complemented accessMethod = true →
      ((evalList sem colref v children).all (fun b => b.getD inferNullsAs) ^^ complemented) = true →
      (readingAnd opts colref v children inferNullsAs accessMethod ^^ complemented) = true
  | [], _, _, _, _, _, hq => hq
  | child :: children, inferNullsAs, complemented, accessMethod, hc, h, hq => by
    have ih := reading_of_lossless child inferNullsAs complemented accessMethod
    have ihs := readingAnd_of_lossless children inferNullsAs complemented accessMethod
    rw [allLossless, Bool.and_eq_true] at h
    rw [allConverted] at hc
    rw [evalList, List.all_cons] at hq
    rw [readingAnd]
    rw [qualifies] at ih
    cases complemented with
    | false =>
      simp only [Bool.xor_false, Bool.and_eq_true] at hq ih ihs ⊢
      refine ⟨?_, ihs rfl h.2 hq.2⟩
      cases hconv : converted opts child accessMethod with
      | false => rfl
      | true => exact ih hconv (by simpa [hconv] using h.1) hq.1
    | true =>
      simp only [Bool.xor_true, Bool.not_eq_true', Bool.and_eq_false_iff, Bool.not_true, Bool.false_or,
        Bool.and_eq_true] at hc hq ih ihs ⊢
      rw [hc.1]
      rcases hq with hq | hq
      · exact .inl (ih hc.1 (by simpa [hc.1] using h.1) hq)
      · exact .inr (ihs hc.2 h.2 hq)

theorem readingOr_of_lossless :
    ∀ (children : List (CExpression α)) (inferNullsAs complemented : Bool)
      (accessMethod : EmdindexType), allConverted opts children accessMethod = true →
      allLossless opts children inferNullsAs complemented accessMethod = true →
      ((evalList sem colref v children).any (fun b => b.getD inferNullsAs) ^^ complemented) = true →
      (readingOr opts colref v children inferNullsAs accessMethod ^^ complemented) = true
  | [], _, _, _, _, _, hq => hq
  | child :: children, inferNullsAs, complemented, accessMethod, hc, h, hq => by
    rw [allConverted, Bool.and_eq_true] at hc
    rw [allLossless, Bool.and_eq_true, hc.1] at h
    have ih := reading_of_lossless child inferNullsAs complemented accessMethod hc.1 h.1
    have ihs := readingOr_of_lossless children inferNullsAs complemented accessMethod hc.2 h.2
    rw [evalList, List.any_cons] at hq
    rw [readingOr]
    rw [qualifies] at ih
    cases complemented with
    | false =>
      simp only [Bool.xor_false, Bool.or_eq_true] at hq ih ihs ⊢
      exact hq.imp ih ihs
    | true =>
      simp only [Bool.xor_true, Bool.not_eq_true', Bool.or_eq_false_iff] at hq ih ihs ⊢
      exact hq.imp ih ihs

end

variable {colref} {v} {pexpr : CExpression α} {inferNullsAs : Bool} {accessMethod : EmdindexType}
  {c : CConstraintInterval (WithBot α)}

end CConstraintInterval

end Cloudberry.Orca
