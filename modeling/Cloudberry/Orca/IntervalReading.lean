/-
# What an interval from an expression has

The interval that is made from an expression has the values at which the expression is true when it
is read with two truth values only: unknown is taken for one of them, a negation for the complement,
and the conjuncts that are not converted are left out (`reading`).

That is not always what SQL means. A conjunct that is left out makes an interval larger, and the
complement of it smaller; ANY and ALL are not told apart; and a comparison with NULL is no
comparison with a least value.
-/

import Cloudberry.Orca.IntervalFromExpr
import Cloudberry.Orca.SetAlgebra

namespace Cloudberry.Orca

open List Cut

namespace CConstraintInterval

variable {α : Type*} [LinearOrder α]

mutual

def converted (opts : Options) : CExpression α → EmdindexType → Bool
  | .scalarNullTest child, _ => child.fScalarIdent
  | .scalarBooleanTest .isUnknown child, _ => child.fScalarIdent
  | .scalarBooleanTest .isNotUnknown child, _ => child.fScalarIdent
  | .scalarBooleanTest _ child, _ => converted opts child .sentinel
  | .scalarAnd children, accessMethod => anyConverted opts children accessMethod
  | .scalarOr children, accessMethod => allConverted opts children accessMethod
  | .scalarNot child, _ => converted opts child .sentinel
  | .scalarIdent, _ => true
  | .scalarCmp op cmpType _, accessMethod =>
    cmpType ≠ .other && !(opts.considerOpfamiliesForDistribution &&
      (!opts.fOpInOpfamilyLeft op accessMethod || !opts.fOpInOpfamilyRight op accessMethod))
  | .scalarIsDistinctFrom _, _ => true
  | .scalarConst _, _ => true
  | .scalarArrayCmp _ cmpType _ consts, _ =>
    opts.arrayConstraints && consts.length ≠ 0 && (cmpType = .eq || cmpType = .neq)
  | .other _, _ => false

def anyConverted (opts : Options) : List (CExpression α) → EmdindexType → Bool
  | [], _ => false
  | child :: children, accessMethod =>
    converted opts child accessMethod || anyConverted opts children accessMethod

def allConverted (opts : Options) : List (CExpression α) → EmdindexType → Bool
  | [], _ => true
  | child :: children, accessMethod =>
    converted opts child accessMethod && allConverted opts children accessMethod

end

def readingCmp : ECmpType → WithBot α → WithBot α → Bool
  | .eq, x, a => x = a
  | .neq, x, a => x ≠ a
  | .l, x, a => x < a
  | .leq, x, a => x ≤ a
  | .g, x, a => a < x
  | .geq, x, a => a ≤ x
  | .idf, x, a => x ≠ a
  | .other, _, _ => true

mutual

def reading (opts : Options) (colref : CColRef (WithBot α)) (v : Option α) :
    CExpression α → Bool → EmdindexType → Bool
  | .scalarNullTest _, _, _ => v.isNone
  | .scalarBooleanTest .isTrue child, _, _ => reading opts colref v child false .sentinel
  | .scalarBooleanTest .isNotFalse child, _, _ => reading opts colref v child true .sentinel
  | .scalarBooleanTest .isNotTrue child, _, _ => !reading opts colref v child false .sentinel
  | .scalarBooleanTest .isFalse child, _, _ => !reading opts colref v child true .sentinel
  | .scalarBooleanTest .isUnknown _, _, _ => v.isNone
  | .scalarBooleanTest .isNotUnknown _, _, _ => v.isSome
  | .scalarAnd children, inferNullsAs, accessMethod =>
    readingAnd opts colref v children inferNullsAs accessMethod
  | .scalarOr children, inferNullsAs, accessMethod =>
    readingOr opts colref v children inferNullsAs accessMethod
  | .scalarNot child, inferNullsAs, _ => !reading opts colref v child (!inferNullsAs) .sentinel
  | .scalarIdent, inferNullsAs, _ =>
    (v.map fun x : α => colref.boolDatums.any fun bounds =>
      decide ((x : WithBot α) = bounds.2)).getD inferNullsAs
  | .scalarCmp _ cmpType const, inferNullsAs, _ =>
    (v.map fun x : α => readingCmp cmpType (x : WithBot α) (getDatum const)).getD inferNullsAs
  | .scalarIsDistinctFrom const, _, _ => v ≠ const
  | .scalarConst value, _, _ => value = some true
  | .scalarArrayCmp _ cmpType _ consts, inferNullsAs, _ =>
    (v.map fun x : α => if cmpType = .eq then decide (some x ∈ consts)
      else decide (some x ∉ consts)).getD inferNullsAs
  | .other _, _, _ => true

def readingAnd (opts : Options) (colref : CColRef (WithBot α)) (v : Option α) :
    List (CExpression α) → Bool → EmdindexType → Bool
  | [], _, _ => true
  | child :: children, inferNullsAs, accessMethod =>
    (!converted opts child accessMethod || reading opts colref v child inferNullsAs accessMethod) &&
      readingAnd opts colref v children inferNullsAs accessMethod

def readingOr (opts : Options) (colref : CColRef (WithBot α)) (v : Option α) :
    List (CExpression α) → Bool → EmdindexType → Bool
  | [], _, _ => false
  | child :: children, inferNullsAs, accessMethod =>
    reading opts colref v child inferNullsAs accessMethod ||
      readingOr opts colref v children inferNullsAs accessMethod

end

def Holds (c : CConstraintInterval (WithBot α)) (v : Option α) : Prop :=
  c.Mem (RelEmbedding.refl (· ≤ ·)) (v.map WithBot.some)

/-- The interval has the values of the column at which `f` is true. -/
structure Represents (colref : CColRef (WithBot α)) (c : CConstraintInterval (WithBot α))
    (f : Option α → Bool) : Prop where
  wellFormed : c.WellFormed
  pcr : c.pcr = colref
  holds : ∀ v, colref.IsValue v → (c.Holds v ↔ f v = true)

variable {colref : CColRef (WithBot α)} {c d : CConstraintInterval (WithBot α)}
  {f g : Option α → Bool}

theorem Represents.congr (h : Represents colref c f) (hfg : ∀ v, f v = g v) :
    Represents colref c g :=
  ⟨h.wellFormed, h.pcr, fun v hv => by rw [h.holds v hv, hfg v]⟩

/-! ### The operations -/

theorem Represents.intersect (hc : Represents colref c f) (hd : Represents colref d g) :
    ∃ r, c.pciIntersect d = .ok r ∧ Represents colref r fun v => f v && g v := by
  obtain ⟨r, hrun, hr, hpcr, hmem⟩ :=
    pciIntersect_ok (RelEmbedding.refl (· ≤ ·)) hc.wellFormed hd.wellFormed
  refine ⟨r, hrun, hr, hpcr.trans hc.pcr, fun v hv => ?_⟩
  rw [Bool.and_eq_true, ← hc.holds v hv, ← hd.holds v hv]
  exact hmem _

theorem Represents.union (hc : Represents colref c f) (hd : Represents colref d g) :
    ∃ r, c.pciUnion d = .ok r ∧ Represents colref r fun v => f v || g v := by
  obtain ⟨r, hrun, hr, hpcr, hmem⟩ :=
    pciUnion_ok (RelEmbedding.refl (· ≤ ·)) hc.wellFormed hd.wellFormed
  refine ⟨r, hrun, hr, hpcr.trans hc.pcr, fun v hv => ?_⟩
  rw [Bool.or_eq_true, ← hc.holds v hv, ← hd.holds v hv]
  exact hmem _

theorem column_of_isValue {v : Option α} (hv : colref.IsValue v) :
    Column (RelEmbedding.refl (· ≤ ·)) colref (v.map WithBot.some) := by
  cases v with
  | none => trivial
  | some x =>
    intro bounds hbounds
    have hlt := colref.boolOrdered bounds hbounds
    rcases hv x rfl bounds hbounds with hx | hx
    · exact ⟨hx.ge, hx.le.trans hlt.le⟩
    · exact ⟨hlt.le.trans hx.ge, hx.le⟩

theorem Represents.complement (hc : Represents colref c f) :
    ∃ r, c.pciComplement = .ok r ∧ Represents colref r fun v => !f v := by
  obtain ⟨r, hrun, hr, hpcr, hmem⟩ := pciComplement_ok (RelEmbedding.refl (· ≤ ·)) hc.wellFormed
  refine ⟨r, hrun, hr, hpcr.trans hc.pcr, fun v hv => ?_⟩
  rw [Bool.not_eq_true', ← Bool.not_eq_true, ← hc.holds v hv]
  refine (hmem _).trans ⟨fun h => h.2, fun h => ⟨?_, h⟩⟩
  rw [hc.pcr]
  exact column_of_isValue hv

theorem unionPairs_represents {cs : List (CConstraintInterval (WithBot α))}
    {fs : List (Option α → Bool)} (h : Forall₂ (Represents colref) cs fs) :
    ∃ ds gs, unionPairs cs = .ok ds ∧ Forall₂ (Represents colref) ds gs ∧
      ∀ v, (gs.any fun g => g v) = fs.any fun f => f v := by
  fun_induction unionPairs cs generalizing fs with
  | case1 c d rest e herr =>
    obtain ⟨f, fs', hf, hrest, rfl⟩ := forall₂_cons_left_iff.1 h
    obtain ⟨g, fs'', hg, -, rfl⟩ := forall₂_cons_left_iff.1 hrest
    obtain ⟨r, hrun, -⟩ := hf.union hg
    rw [herr] at hrun
    cases hrun
  | case2 c d rest union hunion e herr ih =>
    obtain ⟨f, fs', hf, hrest, rfl⟩ := forall₂_cons_left_iff.1 h
    obtain ⟨g, fs'', hg, hrest', rfl⟩ := forall₂_cons_left_iff.1 hrest
    obtain ⟨ds, gs, hrun, -⟩ := ih hrest'
    rw [herr] at hrun
    cases hrun
  | case3 c d rest union hunion constraints hrest ih =>
    obtain ⟨f, fs', hf, hrest', rfl⟩ := forall₂_cons_left_iff.1 h
    obtain ⟨g, fs'', hg, hrest'', rfl⟩ := forall₂_cons_left_iff.1 hrest'
    obtain ⟨r, hrun, hr⟩ := hf.union hg
    rw [hunion] at hrun
    cases hrun
    obtain ⟨ds, gs, hrun', hds, hany⟩ := ih hrest''
    rw [hrest] at hrun'
    cases hrun'
    refine ⟨_, _, rfl, .cons hr hds, fun v => ?_⟩
    simp [hany v, Bool.or_assoc]
  | case4 cs hshort => exact ⟨cs, fs, rfl, h, fun _ => rfl⟩

theorem unionAll_represents {cs : List (CConstraintInterval (WithBot α))}
    {fs : List (Option α → Bool)} (h : Forall₂ (Represents colref) cs fs)
    (hrun : unionAll cs = .ok c) : Represents colref c fun v => fs.any fun f => f v := by
  fun_induction unionAll cs generalizing fs with
  | case1 => cases hrun
  | case2 c' =>
    cases hrun
    obtain ⟨f, _, hf, hrest, rfl⟩ := forall₂_cons_left_iff.1 h
    obtain rfl := forall₂_nil_left_iff.1 hrest
    exact hf.congr fun v => by simp
  | case3 => cases hrun
  | case4 c' d' rest constraints hpairs ih =>
    obtain ⟨_, _, hrun', hds, hany⟩ := unionPairs_represents h
    rw [hpairs] at hrun'
    cases hrun'
    exact (ih hds hrun).congr hany

/-! ### The leaves -/

/-- `x` is in one of the ranges. -/
def InRanges (x : WithBot α) (ranges : List (CRange (WithBot α))) : Prop :=
  ∃ r ∈ ranges, r.Mem (RelEmbedding.refl (· ≤ ·)) x

theorem represents_ranges {ranges : List (CRange (WithBot α))} {fIncludesNull : Bool} {f : α → Bool}
    (hordered : Ordered ranges) (hin : ∀ x : α, InRanges (x : WithBot α) ranges ↔ f x = true) :
    Represents colref ⟨colref, ranges, fIncludesNull⟩ fun v => (v.map f).getD fIncludesNull := by
  refine ⟨wellFormed_iff.2 hordered, rfl, fun v _ => ?_⟩
  cases v with
  | none => exact Iff.rfl
  | some x => exact hin x

theorem pciRangeFromColConstCmp_ok (cmpType : ECmpType) (datum : WithBot α)
    {ranges : List (CRange (WithBot α))} (h : pciRangeFromColConstCmp cmpType datum = some ranges) :
    Ordered ranges ∧ ∀ x, InRanges x ranges ↔ readingCmp cmpType x datum = true := by
  have hpoint : (CRange.ofCmp .eq datum).NonEmpty := before_lt_after.2 le_rfl
  have htwo : Ordered [CRange.ofCmp .l datum, CRange.ofCmp .g datum] := by
    refine ordered_cons.2 ⟨fun s hs => ?_, bot_lt_before, ordered_cons.2
      ⟨nofun, after_lt_top, ordered_nil⟩⟩
    rw [mem_singleton.1 hs]
    exact before_le_after.2 le_rfl
  cases cmpType with
  | eq =>
    cases h
    refine ⟨ordered_cons.2 ⟨nofun, hpoint, ordered_nil⟩, fun x => ?_⟩
    simp [InRanges, CRange.Mem, CRange.ofCmp, readingCmp, ← le_antisymm_iff, eq_comm]
  | neq =>
    cases h
    exact ⟨htwo, fun x => by simp [InRanges, CRange.Mem, CRange.ofCmp, readingCmp]⟩
  | l =>
    cases h
    refine ⟨ordered_cons.2 ⟨nofun, bot_lt_before, ordered_nil⟩, fun x => ?_⟩
    simp [InRanges, CRange.Mem, CRange.ofCmp, readingCmp]
  | leq =>
    cases h
    refine ⟨ordered_cons.2 ⟨nofun, bot_lt_after, ordered_nil⟩, fun x => ?_⟩
    simp [InRanges, CRange.Mem, CRange.ofCmp, readingCmp]
  | g =>
    cases h
    refine ⟨ordered_cons.2 ⟨nofun, after_lt_top, ordered_nil⟩, fun x => ?_⟩
    simp [InRanges, CRange.Mem, CRange.ofCmp, readingCmp]
  | geq =>
    cases h
    refine ⟨ordered_cons.2 ⟨nofun, before_lt_top, ordered_nil⟩, fun x => ?_⟩
    simp [InRanges, CRange.Mem, CRange.ofCmp, readingCmp]
  | idf =>
    cases h
    exact ⟨htwo, fun x => by simp [InRanges, CRange.Mem, CRange.ofCmp, readingCmp]⟩
  | other => cases h

variable {datums : List (WithBot α)}

theorem removeDuplicates_ok {datum : WithBot α} (hsorted : (datum :: datums).Pairwise (· ≤ ·)) :
    (datum :: removeDuplicates datum datums).Pairwise (· < ·) ∧
      ∀ x, x ∈ datum :: removeDuplicates datum datums ↔ x ∈ datum :: datums := by
  induction datums generalizing datum with
  | nil => exact ⟨pairwise_singleton _ _, fun x => Iff.rfl⟩
  | cons d datums ih =>
    obtain ⟨hle, hrest⟩ := pairwise_cons.1 hsorted
    unfold removeDuplicates
    split
    next heq =>
      subst heq
      obtain ⟨hpairwise, hmem⟩ := ih hrest
      refine ⟨hpairwise, fun x => ?_⟩
      rw [hmem x]
      simp
    next hne =>
      obtain ⟨hpairwise, hmem⟩ := ih hrest
      have hlt : datum < d := lt_of_le_of_ne (hle d mem_cons_self) (Ne.symm hne)
      refine ⟨pairwise_cons.2 ⟨fun x hx => ?_, hpairwise⟩, fun x => ?_⟩
      · rcases mem_cons.1 hx with rfl | hx
        · exact hlt
        · exact hlt.trans ((pairwise_cons.1 hpairwise).1 x hx)
      · rw [mem_cons, hmem x, ← mem_cons]

theorem datumSortedSet_ok (consts : List (Option α)) : (datumSortedSet consts).Pairwise (· < ·) ∧
      ∀ x, x ∈ datumSortedSet consts ↔ ∃ a, some a ∈ consts ∧ (a : WithBot α) = x := by
  have hmem : ∀ x, x ∈ (consts.reduceOption.map WithBot.some).insertionSort (· ≤ ·) ↔
      ∃ a, some a ∈ consts ∧ (a : WithBot α) = x := fun x => by
    simp [reduceOption_mem_iff]
  have hsorted := pairwise_insertionSort (· ≤ ·) (consts.reduceOption.map WithBot.some)
  unfold datumSortedSet
  split
  next hnil =>
    rw [hnil] at hmem
    exact ⟨Pairwise.nil, hmem⟩
  next datum datums hcons =>
    rw [hcons] at hmem hsorted
    obtain ⟨hpairwise, hmem'⟩ := removeDuplicates_ok hsorted
    exact ⟨hpairwise, fun x => (hmem' x).trans (hmem x)⟩

theorem inRanges_ok (hsorted : datums.Pairwise (· < ·)) : Ordered (datums.map (CRange.ofCmp .eq)) ∧
      ∀ x, InRanges x (datums.map (CRange.ofCmp .eq)) ↔ x ∈ datums := by
  refine ⟨⟨pairwise_map.2 (hsorted.imp fun hlt => after_le_before.2 hlt),
    fun r hr => ?_⟩, fun x => ?_⟩
  · obtain ⟨_, -, rfl⟩ := mem_map.1 hr
    exact before_lt_after.2 le_rfl
  · simp [InRanges, CRange.Mem, CRange.ofCmp, ← le_antisymm_iff]

theorem notInRanges_ok {pprevdatum : Option (WithBot α)} {ranges : List (CRange (WithBot α))}
    (h : notInRanges pprevdatum datums = .ok ranges)
    (hsorted : (pprevdatum.toList ++ datums).Pairwise (· < ·)) :
    Ordered ranges ∧ (∀ p ∈ pprevdatum, ∀ r ∈ ranges, after p ≤ r.lo) ∧
      ∀ x, InRanges x ranges ↔ (∀ p ∈ pprevdatum, p < x) ∧ x ∉ datums := by
  induction datums generalizing pprevdatum ranges with
  | nil =>
    cases pprevdatum with
    | none => cases h
    | some p =>
      cases h
      refine ⟨ordered_cons.2 ⟨nofun, after_lt_top, ordered_nil⟩, fun q hq r hr => ?_, fun x => ?_⟩
      · cases hq
        rw [mem_singleton.1 hr]
        exact le_rfl
      · simp [InRanges, CRange.Mem]
  | cons datum datums ih =>
    unfold notInRanges at h
    split at h
    · cases h
    next rest hrest =>
      cases h
      have hsorted' : (datum :: datums).Pairwise (· < ·) := (pairwise_append.1 hsorted).2.1
      obtain ⟨hordered, hafter, hmem⟩ := ih hrest hsorted'
      have hprev : ∀ p ∈ pprevdatum, p < datum := fun p hp =>
        (pairwise_append.1 hsorted).2.2 p (Option.mem_toList.2 hp) datum mem_cons_self
      refine ⟨ordered_cons.2 ⟨fun r hr => ?_, ?_, hordered⟩, fun p hp r hr => ?_, fun x => ?_⟩
      · exact (before_le_after.2 le_rfl).trans (hafter datum rfl r hr)
      · cases pprevdatum with
        | none => exact bot_lt_before
        | some p => exact after_lt_before.2 (hprev p rfl)
      · rcases mem_cons.1 hr with rfl | hr
        · obtain rfl := Option.mem_def.1 hp
          exact le_rfl
        · exact (after_le_after.2 (hprev p hp).le).trans (hafter datum rfl r hr)
      · -- what is in the first range is before the datum, what is in the others is behind it
        have hfirst : (⟨pprevdatum, .excluded, some datum, .excluded⟩ : CRange (WithBot α)).Mem
            (RelEmbedding.refl (· ≤ ·)) x ↔ (∀ p ∈ pprevdatum, p < x) ∧ x < datum := by
          cases pprevdatum <;> simp [CRange.Mem]
        have hcons : InRanges x (⟨pprevdatum, .excluded, some datum, .excluded⟩ :: rest) ↔
            ((∀ p ∈ pprevdatum, p < x) ∧ x < datum) ∨ InRanges x rest := by
          rw [← hfirst]
          simp [InRanges]
        have hdatum : (∀ p ∈ some datum, p < x) ↔ datum < x := by simp
        have hlt : x < datum → x ∉ datums := fun hx hin =>
          lt_asymm hx ((pairwise_cons.1 hsorted').1 x hin)
        have htrans : datum < x → ∀ p ∈ pprevdatum, p < x := fun hx p hp => (hprev p hp).trans hx
        rw [hcons, hmem x, hdatum, mem_cons]
        rcases lt_trichotomy x datum with hx | hx | hx
        · simp [hx, hx.ne, hx.not_gt, hlt hx]
        · simp [hx]
        · simp only [hx, hx.ne', hx.not_gt, and_false, false_or, true_and]
          exact ⟨fun hnot => ⟨htrans hx, hnot⟩, fun hnot => hnot.2⟩

/-! ### The whole expression -/

/-- What is returned for an expression: an interval if it is converted, with the values at which it
is read as true. -/
def Reads (colref : CColRef (WithBot α)) (o : Option (CConstraintInterval (WithBot α)))
    (converts : Bool) (f : Option α → Bool) : Prop :=
  match o with
  | none => converts = false
  | some c => converts = true ∧ Represents colref c f

variable {o : Option (CConstraintInterval (WithBot α))} {converts : Bool}

theorem Represents.reads (h : Represents colref c f) : Reads colref (some c) true f := ⟨rfl, h⟩

theorem reads_nullTest (child : CExpression α) :
    Reads colref (pciIntervalFromScalarNullAndUnknownTest colref child) child.fScalarIdent
      Option.isNone := by
  unfold pciIntervalFromScalarNullAndUnknownTest
  split
  next hident =>
    refine ⟨hident, wellFormed_iff.2 ordered_nil, rfl, fun v _ => ?_⟩
    cases v with
    | none => exact Iff.rfl
    | some x => simp [Holds, Mem]
  next hident => exact Bool.eq_false_iff.2 hident

theorem reads_complementOf {child : Except String (Option (CConstraintInterval (WithBot α)))}
    (hchild : ∀ {o}, child = .ok o → Reads colref o converts f) (h : complementOf child = .ok o) :
    Reads colref o converts fun v => !f v := by
  unfold complementOf at h
  split at h
  · cases h
  · cases h
    exact hchild rfl
  next c =>
    obtain ⟨hconverts, hc⟩ := hchild rfl
    obtain ⟨r, hrun, hr⟩ := hc.complement
    rw [hrun] at h
    cases h
    exact ⟨hconverts, hr⟩

theorem reads_scalarCmp (opts : Options) (op : ℕ) (cmpType : ECmpType) (const : Option α)
    (inferNullsAs : Bool) (accessMethod : EmdindexType) : Reads colref
      (pciIntervalFromScalarCmp opts colref op cmpType const inferNullsAs accessMethod)
      (converted opts (.scalarCmp op cmpType const) accessMethod)
      fun v => reading opts colref v (.scalarCmp op cmpType const) inferNullsAs accessMethod := by
  unfold pciIntervalFromScalarCmp
  split
  next hopfamily => simp [Reads, converted, hopfamily]
  next hopfamily =>
    unfold pciIntervalFromColConstCmp
    cases hranges : pciRangeFromColConstCmp cmpType (getDatum const) with
    | none =>
      obtain rfl : cmpType = .other := by cases cmpType <;> first | rfl | cases hranges
      simp [Reads, converted]
    | some ranges =>
      obtain ⟨hordered, hin⟩ := pciRangeFromColConstCmp_ok _ _ hranges
      have hne : cmpType ≠ .other := by
        rintro rfl
        cases hranges
      refine ⟨by simp [converted, hne, hopfamily], ?_⟩
      refine (represents_ranges hordered fun x => hin x).congr fun v => ?_
      rw [reading]

theorem reads_scalarIDF {const : Option α} (h : pciIntervalFromScalarIDF colref const = .ok o) :
    Reads colref o true fun v => decide (v ≠ const) := by
  cases const with
  | none =>
    have hnull : Represents colref ⟨colref, [], true⟩ (Option.isNone : Option α → Bool) :=
      (reads_nullTest (.scalarIdent : CExpression α)).2
    obtain ⟨r, hrun, hr⟩ := hnull.complement
    unfold pciIntervalFromScalarIDF at h
    rw [hrun] at h
    cases h
    refine ⟨rfl, hr.congr fun v => ?_⟩
    cases v <;> rfl
  | some a =>
    obtain ⟨hordered, hin⟩ := pciRangeFromColConstCmp_ok .idf (getDatum (some a)) rfl
    cases h
    refine ⟨rfl, (represents_ranges hordered fun x => hin x).congr fun v => ?_⟩
    cases v with
    | none => rfl
    | some x => simp [readingCmp, getDatum]

theorem reads_scalarArrayCmp {opts : Options} {op : ℕ} {cmpType : ECmpType}
    {earrcmpt : EArrCmpType} {consts : List (Option α)} {inferNullsAs : Bool}
    {accessMethod : EmdindexType} (harray : opts.arrayConstraints = true)
    (h : pcnstrIntervalFromScalarArrayCmp colref cmpType consts inferNullsAs = .ok o) :
    Reads colref o (converted opts (.scalarArrayCmp op cmpType earrcmpt consts) accessMethod)
      fun v => reading opts colref v (.scalarArrayCmp op cmpType earrcmpt consts) inferNullsAs
        accessMethod := by
  obtain ⟨hsorted, hmem⟩ := datumSortedSet_ok consts
  have hin : ∀ x : α, (x : WithBot α) ∈ datumSortedSet consts ↔ some x ∈ consts := fun x => by
    rw [hmem]
    simp
  unfold pcnstrIntervalFromScalarArrayCmp at h
  split at h
  next hlength =>
    cases h
    simp [Reads, converted, hlength]
  next hlength =>
    split at h
    · cases h
      obtain ⟨hordered, hranges⟩ := inRanges_ok hsorted
      refine ⟨by simp [converted, harray, hlength], ?_⟩
      refine (represents_ranges (f := fun x => decide (some x ∈ consts)) hordered
        fun x => ?_).congr fun v => ?_
      · rw [hranges, hin, decide_eq_true_iff]
      · rfl
    · split at h
      · cases h
      next ranges hnotin =>
        cases h
        obtain ⟨hordered, -, hranges⟩ := notInRanges_ok hnotin hsorted
        refine ⟨by simp [converted, harray, hlength], ?_⟩
        refine (represents_ranges (f := fun x => decide (some x ∉ consts)) hordered
          fun x => ?_).congr fun v => ?_
        · rw [hranges, hin]
          simp
        · rfl
    next hne hne' =>
      cases h
      have hother : (cmpType = .eq || cmpType = .neq) = false := by
        cases cmpType <;> first | rfl | contradiction
      simp [Reads, converted, hother]

mutual

/-- **What is returned for an expression**, by induction on it. -/
theorem pciIntervalFromScalarExpr_reads (opts : Options) :
    ∀ (pexpr : CExpression α) (inferNullsAs : Bool) (accessMethod : EmdindexType)
      {o : Option (CConstraintInterval (WithBot α))},
      pciIntervalFromScalarExpr opts colref pexpr inferNullsAs accessMethod = .ok o →
      Reads colref o (converted opts pexpr accessMethod)
        fun v => reading opts colref v pexpr inferNullsAs accessMethod
  | .scalarNullTest child, _, _, o, h => by
    simp only [pciIntervalFromScalarExpr, converted, reading] at h ⊢
    cases h
    exact reads_nullTest child
  | .scalarBooleanTest ebt child, _, _, o, h => by
    have ih := fun infer => @pciIntervalFromScalarExpr_reads opts child infer .sentinel
    cases ebt <;> simp only [pciIntervalFromScalarExpr, converted, reading] at h ⊢
    case isTrue => exact ih false h
    case isNotTrue => exact reads_complementOf (ih false) h
    case isFalse => exact reads_complementOf (ih true) h
    case isNotFalse => exact ih true h
    case isUnknown =>
      cases h
      exact reads_nullTest child
    case isNotUnknown =>
      have hnot : (Option.isSome : Option α → Bool) = fun v => !v.isNone := by
        funext v
        cases v <;> rfl
      rw [show (fun v : Option α => v.isSome) = fun v => !v.isNone from hnot]
      refine reads_complementOf (fun ho => ?_) h
      cases ho
      exact reads_nullTest child
  | .scalarAnd children, inferNullsAs, accessMethod, o, h => by
    simp only [pciIntervalFromScalarExpr, converted, reading] at h ⊢
    split_ifs at h
    exact intersectAll_reads opts children inferNullsAs accessMethod
      (show Reads colref none false fun _ => true from rfl) h
  | .scalarOr children, inferNullsAs, accessMethod, o, h => by
    simp only [pciIntervalFromScalarExpr, converted, reading] at h ⊢
    have ih := @childConstraints_reads opts children inferNullsAs accessMethod
    split at h
    · cases h
    next hchildren =>
      cases h
      exact ih hchildren
    next constraints hchildren =>
      obtain ⟨hall, _, hfs, hany⟩ := ih hchildren
      cases hunion : unionAll constraints with
      | error e =>
        rw [hunion] at h
        cases h
      | ok c =>
        rw [hunion] at h
        cases h
        exact ⟨hall, (unionAll_represents hfs hunion).congr hany⟩
  | .scalarNot child, inferNullsAs, _, o, h => by
    exact reads_complementOf (pciIntervalFromScalarExpr_reads opts child (!inferNullsAs) .sentinel) h
  | .scalarIdent, _, _, o, h => by
    simp only [pciIntervalFromScalarExpr, pciIntervalFromScalarIdent, converted, reading] at h ⊢
    split at h
    · cases h
    next datumFalse datumTrue hbool =>
      obtain ⟨hordered, hin⟩ := pciRangeFromColConstCmp_ok .eq datumTrue rfl
      cases h
      refine ⟨rfl, (represents_ranges hordered fun x => hin x).congr fun v => ?_⟩
      simp [hbool, readingCmp]
  | .scalarCmp op cmpType const, inferNullsAs, accessMethod, o, h => by
    cases h
    exact reads_scalarCmp opts op cmpType const inferNullsAs accessMethod
  | .scalarIsDistinctFrom const, _, _, o, h => by
    exact reads_scalarIDF h
  | .scalarConst value, _, _, o, h => by
    simp only [pciIntervalFromScalarExpr, converted, reading] at h ⊢
    split at h
    next hvalue =>
      cases h
      refine ⟨rfl, pciUnbounded_wellFormed _ _, pciUnbounded_pcr _ _, fun v hv => ?_⟩
      simp only [hvalue, decide_true, iff_true]
      exact mem_pciUnbounded.2 (column_of_isValue hv)
    next hvalue =>
      cases h
      refine ⟨rfl, wellFormed_iff.2 ordered_nil, rfl, fun v _ => ?_⟩
      cases v <;> simp [Holds, Mem, hvalue]
  | .scalarArrayCmp op cmpType earrcmpt consts, _, _, o, h => by
    rw [pciIntervalFromScalarExpr] at h
    split at h
    next harray => exact reads_scalarArrayCmp harray h
    next harray =>
      cases h
      simp [Reads, converted, harray]
  | .other id, _, _, o, h => by
    cases h
    simp [Reads, converted]

theorem intersectAll_reads (opts : Options) :
    ∀ (children : List (CExpression α)) (inferNullsAs : Bool) (accessMethod : EmdindexType)
      {pci o : Option (CConstraintInterval (WithBot α))} {converts : Bool} {f : Option α → Bool},
      Reads colref pci converts f →
      intersectAll opts colref children inferNullsAs accessMethod pci = .ok o →
      Reads colref o (converts || anyConverted opts children accessMethod)
        fun v => (!converts || f v) && readingAnd opts colref v children inferNullsAs accessMethod
  | [], _, _, pci, o, _, f, hpci, h => by
    rw [intersectAll] at h
    cases h
    simp only [anyConverted, readingAnd, Bool.or_false, Bool.and_true]
    cases pci with
    | none => exact hpci
    | some c =>
      obtain ⟨rfl, hc⟩ := hpci
      exact ⟨rfl, hc.congr fun v => by simp⟩
  | child :: children, inferNullsAs, accessMethod, pci, o, converts, f, hpci, h => by
    have hchild := @pciIntervalFromScalarExpr_reads opts child inferNullsAs accessMethod
    have ih := @intersectAll_reads opts children inferNullsAs accessMethod
    unfold intersectAll at h
    simp only [anyConverted, readingAnd]
    split at h
    · cases h
    next hrun =>
      have hnot : converted opts child accessMethod = false := hchild hrun
      simpa [hnot] using ih hpci h
    next pciChild hrun =>
      obtain ⟨hyes, hread⟩ := hchild hrun
      have hnone : converts = false := hpci
      simpa [hyes, hnone] using ih hread.reads h
    next pciChild pci hrun =>
      obtain ⟨hyes, hread⟩ := hchild hrun
      obtain ⟨rfl, hc⟩ := hpci
      obtain ⟨r, hinter, hr⟩ := hc.intersect hread
      rw [hinter] at h
      simpa [hyes, Bool.and_assoc] using ih hr.reads h

theorem childConstraints_reads (opts : Options) :
    ∀ (children : List (CExpression α)) (inferNullsAs : Bool) (accessMethod : EmdindexType)
      {constraints : Option (List (CConstraintInterval (WithBot α)))},
      childConstraints opts colref children inferNullsAs accessMethod = .ok constraints →
      match constraints with
      | none => allConverted opts children accessMethod = false
      | some cs => allConverted opts children accessMethod = true ∧
          ∃ fs, Forall₂ (Represents colref) cs fs ∧
            ∀ v, (fs.any fun f => f v) = readingOr opts colref v children inferNullsAs accessMethod
  | [], _, _, _, h => by
    rw [childConstraints] at h
    cases h
    exact ⟨rfl, [], .nil, fun v => by rw [readingOr, any_nil]⟩
  | child :: children, inferNullsAs, accessMethod, _, h => by
    have hchild := @pciIntervalFromScalarExpr_reads opts child inferNullsAs accessMethod
    have ih := @childConstraints_reads opts children inferNullsAs accessMethod
    rw [childConstraints] at h
    rw [allConverted]
    split at h
    · cases h
    next hrun =>
      cases h
      have hnot : converted opts child accessMethod = false := hchild hrun
      simp [hnot]
    next pciChild hrun =>
      obtain ⟨hyes, hread⟩ := hchild hrun
      split at h
      · cases h
      next hrest =>
        cases h
        simpa using fun _ => ih hrest
      next rest hrest =>
        cases h
        obtain ⟨hall, fs, hfs, hany⟩ := ih hrest
        refine ⟨by rw [hyes, hall]; rfl, _, .cons hread hfs, fun v => ?_⟩
        rw [any_cons, hany v, readingOr]

end

end CConstraintInterval

end Cloudberry.Orca
