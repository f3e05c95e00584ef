/-
# Interval constraints form the set algebra they stand for

The members of a constraint are the values in its ranges, in the dense reading of their ends, and
NULL. The four operations are the set operations on the members and return sorted, non-empty and
disjoint ranges again; no comparison meets a missing datum.

`FContainsInterval` decides inclusion, but for two things. It does not compare the members when
the second constraint is the unbounded one, so ranges that only together have every value do not
count as all of them. And between the two values of a boolean column there is nothing, whatever
the dense reading says.
-/

import Cloudberry.Orca.IntervalAlgebra
import Mathlib.Algebra.Order.Field.Basic
import Mathlib.Algebra.Order.Field.Rat

namespace Cloudberry.Orca

namespace CConstraintInterval

open CRange List Cut Option

variable {α β : Type*} [LinearOrder α] [LinearOrder β] {e : α ↪o β}
variable {a b c : CConstraintInterval α}

theorem wellFormed_iff : c.WellFormed ↔ Ordered c.pdrgprng :=
  ⟨fun h => ⟨h.sorted, h.nonEmpty⟩, fun h => ⟨h.1, h.2⟩⟩

theorem downward_below (x : β) : Downward (Below e x) := fun _ _ hle hd => hd.anti hle

theorem mem_some {x : β} : c.Mem e (some x) ↔ Has (Below e x) c.pdrgprng := by
  simp [Mem, Has, mem_iff]

theorem mem_none : c.Mem e none ↔ c.fIncludesNull = true := Iff.rfl

/-! ### The four operations -/

theorem pciIntersect_ok (e : α ↪o β) (ha : a.WellFormed) (hb : b.WellFormed) :
    ∃ c, a.pciIntersect b = .ok c ∧ c.WellFormed ∧ c.pcr = a.pcr ∧
      ∀ v, c.Mem e v ↔ a.Mem e v ∧ b.Mem e v := by
  obtain ⟨_, hrun, hout, -, -, hhas⟩ := intersectLoop_ok [] (wellFormed_iff.1 ha)
    (wellFormed_iff.1 hb)
  unfold pciIntersect
  rw [hrun]
  refine ⟨_, rfl, wellFormed_iff.2 hout, rfl, fun v => ?_⟩
  cases v with
  | none => simp only [mem_none, Bool.and_eq_true]
  | some x =>
    rw [mem_some, mem_some, mem_some]
    exact hhas _ (downward_below x)

theorem pciUnion_ok (e : α ↪o β) (ha : a.WellFormed) (hb : b.WellFormed) :
    ∃ c, a.pciUnion b = .ok c ∧ c.WellFormed ∧ c.pcr = a.pcr ∧
      ∀ v, c.Mem e v ↔ a.Mem e v ∨ b.Mem e v := by
  obtain ⟨_, _, _, hrun, hadd, hadd', hnew, hhas⟩ :=
    unionLoop_addRemainingRanges (wellFormed_iff.1 ha) (wellFormed_iff.1 hb)
  unfold pciUnion
  rw [hrun]
  dsimp only
  rw [hadd]
  dsimp only
  rw [hadd']
  refine ⟨_, rfl, wellFormed_iff.2 hnew, rfl, fun v => ?_⟩
  cases v with
  | none => simp only [mem_none, Bool.or_eq_true]
  | some x =>
    rw [mem_some, mem_some, mem_some]
    exact hhas _ (downward_below x)

theorem addRemainder_ok {differed : Differed α}
    (hrest : Ordered (withResidual differed.fst differed.residual)) (hnew : Ordered differed.new)
    (hbefore : Before differed.new (withResidual differed.fst differed.residual)) :
    ∃ new new', appendOrExtend differed.new differed.residual = .ok new ∧
      addRemainingRanges (if differed.residual.isSome then differed.fst.tail else differed.fst) new
        = .ok new' ∧ Ordered new' ∧
      ∀ p, Downward p → (Has p new' ↔
        Has p differed.new ∨ Has p (withResidual differed.fst differed.residual)) := by
  obtain ⟨_, residual, new⟩ := differed
  cases residual with
  | none =>
    obtain ⟨new', hadd, hnew', hhas⟩ := addRemainingRanges_ok hrest hnew hbefore
    exact ⟨new, new', rfl, hadd, hnew', hhas⟩
  | some t =>
    obtain ⟨new', hadd, hnew', hhas⟩ := addRemainingRanges_ok hrest hnew hbefore
    -- the residual is the first one of the ranges that remain
    unfold withResidual addRemainingRanges at hadd
    split at hadd
    · cases hadd
    next new'' happend => exact ⟨new'', new', happend, hadd, hnew', hhas⟩

theorem pciDifference_ok (e : α ↪o β) (ha : a.WellFormed) (hb : b.WellFormed) :
    ∃ c, a.pciDifference b = .ok c ∧ c.WellFormed ∧ c.pcr = a.pcr ∧
      ∀ v, c.Mem e v ↔ a.Mem e v ∧ ¬ b.Mem e v := by
  obtain ⟨_, hrun, h⟩ : ∃ differed, differenceLoop a.pdrgprng none b.pdrgprng [] = .ok differed ∧
      DifferenceLeaves a.pdrgprng none b.pdrgprng [] differed :=
    differenceLoop_ok (wellFormed_iff.1 ha) (wellFormed_iff.1 hb) ordered_nil nofun nofun
  obtain ⟨_, _, happend, hadd, hnew, hhas⟩ := addRemainder_ok h.ordered h.orderedNew h.before
  unfold pciDifference
  rw [hrun]
  dsimp only
  rw [happend]
  dsimp only
  rw [hadd]
  refine ⟨_, rfl, wellFormed_iff.2 hnew, rfl, fun v => ?_⟩
  cases v with
  | none => simp only [mem_none, Bool.and_eq_true, Bool.not_eq_true', Bool.not_eq_true]
  | some x =>
    rw [mem_some, mem_some, mem_some, hhas _ (downward_below x), h.has _ (downward_below x)]
    simp only [has_nil, false_or]
    exact Iff.rfl

theorem pciUnbounded_wellFormed (colref : CColRef α) (fIncludesNull : Bool) :
    (pciUnbounded colref fIncludesNull).WellFormed := by
  refine wellFormed_iff.2 ?_
  unfold pciUnbounded
  split
  next f t hdatums =>
    refine ordered_cons.2 ⟨nofun, ?_, ordered_nil⟩
    exact before_lt_after.2 (colref.boolOrdered _ hdatums).le
  · exact ordered_cons.2 ⟨nofun, bot_lt_top, ordered_nil⟩

theorem pciUnbounded_pcr (colref : CColRef α) (fIncludesNull : Bool) :
    (pciUnbounded colref fIncludesNull).pcr = colref := by
  unfold pciUnbounded
  split <;> rfl

theorem mem_pciUnbounded {colref : CColRef α} {v : Option β} :
    (pciUnbounded colref true).Mem e v ↔ Column e colref v := by
  unfold pciUnbounded
  cases v with
  | none =>
    refine iff_of_true ?_ trivial
    split <;> rfl
  | some x =>
    split
    next f t hdatums => simp [Mem, CRange.Mem, Column, hdatums]
    next hdatums => simp [Mem, CRange.Mem, Column, hdatums]

theorem pciComplement_ok (e : α ↪o β) (ha : a.WellFormed) :
    ∃ c, a.pciComplement = .ok c ∧ c.WellFormed ∧ c.pcr = a.pcr ∧
      ∀ v, c.Mem e v ↔ Column e a.pcr v ∧ ¬ a.Mem e v := by
  obtain ⟨c, hrun, hc, hpcr, hmem⟩ := pciDifference_ok e (pciUnbounded_wellFormed a.pcr true) ha
  refine ⟨c, hrun, hc, hpcr.trans (pciUnbounded_pcr _ _), fun v => ?_⟩
  rw [hmem v, mem_pciUnbounded]

/-! ### Inclusion -/

section dense

variable [DenselyOrdered β] [NoMinOrder β] [NoMaxOrder β] [Nonempty β]

theorem pdrgprng_eq_nil_iff (e : α ↪o β) (hc : c.WellFormed) :
    c.pdrgprng = [] ↔ ∀ x, ¬ c.Mem e (some x) := by
  refine ⟨fun hnil x hmem => ?_, fun hnone => eq_nil_iff_forall_not_mem.2 fun r hr => ?_⟩
  · rw [mem_some, hnil] at hmem
    exact has_nil hmem
  · obtain ⟨x, hlo, hhi⟩ := exists_above_below e (hc.nonEmpty r hr)
    exact hnone x (mem_some.2 ⟨r, hr, hlo, hhi⟩)

theorem fContradiction_of_forall (e : α ↪o β) (hc : c.WellFormed) (hnone : ∀ v, ¬ c.Mem e v) :
    c.fContradiction = true := by
  have hnil : c.pdrgprng = [] := (pdrgprng_eq_nil_iff e hc).2 fun x => hnone (some x)
  have hnull : c.fIncludesNull = false := Bool.eq_false_iff.2 (hnone none)
  simp [fContradiction, hnil, hnull]

end dense

/-- What a contradiction is: nothing, or the open range between the values of a boolean column. -/
theorem fContradiction_cases (h : c.fContradiction = true) :
    c.fIncludesNull = false ∧ (c.pdrgprng = [] ∨ (c.pcr.boolDatums.isSome = true ∧
        ∃ x y, c.pdrgprng = [⟨some x, .excluded, some y, .excluded⟩])) := by
  unfold fContradiction at h
  split at h
  next hempty =>
    rw [Bool.and_eq_true, Bool.not_eq_true', List.isEmpty_iff] at hempty
    exact ⟨hempty.1, .inl hempty.2⟩
  split at h
  next r hr =>
    simp only [Bool.and_eq_true, Bool.not_eq_true', decide_eq_true_eq] at h
    obtain ⟨⟨⟨⟨⟨hbool, hnull⟩, hleft⟩, hright⟩, hx⟩, hy⟩ := h
    obtain ⟨x, hx⟩ := isSome_iff_exists.1 hx
    obtain ⟨y, hy⟩ := isSome_iff_exists.1 hy
    refine ⟨hnull, .inr ⟨hbool, x, y, ?_⟩⟩
    rw [hr]
    obtain ⟨_, _, _, _⟩ := r
    dsimp only at hx hy hleft hright
    rw [hx, hy, hleft, hright]
  · cases h

theorem mem_of_isConstraintUnbounded (h : c.isConstraintUnbounded = true) (v : Option β) :
    c.Mem e v := by
  unfold isConstraintUnbounded at h
  split at h
  next r hr =>
    obtain ⟨hnull, hrange⟩ := Bool.and_eq_true_iff.1 h
    obtain ⟨hleft, hright⟩ := Bool.and_eq_true_iff.1 hrange
    rw [isNone_iff_eq_none] at hleft hright
    cases v with
    | none => exact hnull
    | some x =>
      refine ⟨r, by rw [hr]; exact mem_cons_self, ?_⟩
      simp [CRange.Mem, hleft, hright]
  · cases h

/-- **What `FContainsInterval` answers**, in terms of the difference. -/
theorem fContainsInterval_ok (e : α ↪o β) (ha : a.WellFormed) (hb : b.WellFormed) :
    ∃ answer, a.fContainsInterval b = .ok answer ∧
      ((a.isConstraintUnbounded = true ∧ answer = true) ∨
       (a.isConstraintUnbounded = false ∧ b.isConstraintUnbounded = true ∧ answer = false) ∨
       (a.fIncludesNull = false ∧ b.fIncludesNull = true ∧ answer = false) ∨
       (b.isConstraintUnbounded = false ∧
        ∃ c : CConstraintInterval α, answer = c.fContradiction ∧ c.WellFormed ∧ c.pcr = b.pcr ∧
          ∀ v, c.Mem e v ↔ b.Mem e v ∧ ¬ a.Mem e v)) := by
  unfold fContainsInterval
  split
  next hunbounded => exact ⟨true, rfl, .inl ⟨hunbounded, rfl⟩⟩
  next hunbounded =>
    split
    next hnot =>
      refine ⟨false, rfl, .inr ?_⟩
      rcases Bool.or_eq_true_iff.1 hnot with hb | hnull
      · exact .inl ⟨Bool.eq_false_iff.2 hunbounded, hb, rfl⟩
      · rw [Bool.and_eq_true, Bool.not_eq_true'] at hnull
        exact .inr (.inl ⟨hnull.1, hnull.2, rfl⟩)
    next hnot =>
      obtain ⟨c, hrun, hdiff⟩ := pciDifference_ok e hb ha
      rw [hrun]
      rw [Bool.or_eq_true, not_or, Bool.not_eq_true] at hnot
      exact ⟨_, rfl, .inr (.inr (.inr ⟨hnot.1, c, rfl, hdiff⟩))⟩

/-- The answer is yes if the members of the second constraint are members of the first one, the
unbounded constraint apart. -/
theorem fContainsInterval_of_subset [DenselyOrdered β] [NoMinOrder β] [NoMaxOrder β] [Nonempty β]
    {e : α ↪o β} (ha : a.WellFormed) (hb : b.WellFormed) (hsub : ∀ v, b.Mem e v → a.Mem e v)
    (hunbounded : b.isConstraintUnbounded = true → a.isConstraintUnbounded = true) :
    a.fContainsInterval b = .ok true := by
  obtain ⟨_, hrun, hanswer⟩ := fContainsInterval_ok e ha hb
  rw [hrun]
  rcases hanswer with ⟨-, rfl⟩ | ⟨hnot, hbu, -⟩ | ⟨hnull, hnull', -⟩ | ⟨-, c, rfl, hc, -, hmem⟩
  · rfl
  · rw [hunbounded hbu] at hnot
    cases hnot
  · have hin : a.fIncludesNull = true := hsub none hnull'
    rw [hin] at hnull
    cases hnull
  · refine congrArg Except.ok (fContradiction_of_forall e hc fun v hv => ?_)
    obtain ⟨hin, hnotin⟩ := (hmem v).1 hv
    exact hnotin (hsub v hin)

/-- If the answer is yes, then the values of the column that are in the second constraint, and
NULL, are in the first one. -/
theorem mem_of_fContainsInterval {e : α ↪o β} (ha : a.WellFormed) (hb : b.WellFormed)
    (hpcr : b.pcr = a.pcr) (hyes : a.fContainsInterval b = .ok true) {v : Option β} (hv : ∀ f t,
      a.pcr.boolDatums = some (f, t) → (∀ d, d = f ∨ d = t) ∧ (v = none ∨ ∃ d, v = some (e d)))
    (hin : b.Mem e v) : a.Mem e v := by
  obtain ⟨answer, hrun, hanswer⟩ := fContainsInterval_ok e ha hb
  obtain rfl : answer = true := Except.ok.inj (hrun.symm.trans hyes)
  rcases hanswer with ⟨hunbounded, -⟩ | ⟨-, -, h⟩ | ⟨-, -, h⟩ | ⟨-, c, hcontra, _, hcpcr, hmem⟩
  · exact mem_of_isConstraintUnbounded hunbounded v
  · cases h
  · cases h
  by_contra hnotin
  have hcv : c.Mem e v := (hmem v).2 ⟨hin, hnotin⟩
  obtain ⟨hnull, hnil | ⟨hbool, x, y, hxy⟩⟩ := fContradiction_cases hcontra.symm
  · cases v with
    | none =>
      rw [mem_none, hnull] at hcv
      cases hcv
    | some z =>
      rw [mem_some, hnil] at hcv
      exact has_nil hcv
  · -- the open range is between false and true, so it has neither of them
    obtain ⟨⟨f, t⟩, hdatums⟩ := isSome_iff_exists.1 hbool
    rw [hcpcr, hpcr] at hdatums
    obtain ⟨hall, rfl | ⟨d, rfl⟩⟩ := hv f t hdatums
    · rw [mem_none, hnull] at hcv
      cases hcv
    have hft : f < t := a.pcr.boolOrdered _ hdatums
    obtain ⟨r, hr, hrmem⟩ := hcv
    rw [hxy, mem_singleton] at hr
    subst hr
    have hxd : x < d := e.lt_iff_lt.1 hrmem.1
    have hdy : d < y := e.lt_iff_lt.1 hrmem.2
    rcases hall d with rfl | rfl
    · rcases hall x with rfl | rfl
      · exact lt_irrefl _ hxd
      · exact lt_asymm hft hxd
    · rcases hall y with rfl | rfl
      · exact lt_asymm hft hdy
      · exact lt_irrefl _ hdy

/-- **Interval constraints form the set algebra they stand for.**  For every order of the datums,
its elements read in any dense order `β` without ends.  Inclusion is decided up to the unbounded
constraint; on a boolean column, whose datums are the two values only, a positive answer speaks of
these and of NULL. -/
theorem interval_algebra [DenselyOrdered β] [NoMinOrder β] [NoMaxOrder β] [Nonempty β] (e : α ↪o β)
    {a b : CConstraintInterval α} (ha : a.WellFormed) (hb : b.WellFormed) (hpcr : b.pcr = a.pcr) :
    (∃ c, a.pciIntersect b = .ok c ∧ c.WellFormed ∧ ∀ v, c.Mem e v ↔ a.Mem e v ∧ b.Mem e v) ∧
    (∃ c, a.pciUnion b = .ok c ∧ c.WellFormed ∧ ∀ v, c.Mem e v ↔ a.Mem e v ∨ b.Mem e v) ∧
    (∃ c, a.pciDifference b = .ok c ∧ c.WellFormed ∧ ∀ v, c.Mem e v ↔ a.Mem e v ∧ ¬ b.Mem e v) ∧
    (∃ c, a.pciComplement = .ok c ∧ c.WellFormed ∧
      ∀ v, c.Mem e v ↔ Column e a.pcr v ∧ ¬ a.Mem e v) ∧
    ∃ answer, a.fContainsInterval b = .ok answer ∧ (((∀ v, b.Mem e v → a.Mem e v) ∧
        (b.isConstraintUnbounded = true → a.isConstraintUnbounded = true)) → answer = true) ∧
      (a.pcr.boolDatums = none → answer = true → (∀ v, b.Mem e v → a.Mem e v) ∧
        (b.isConstraintUnbounded = true → a.isConstraintUnbounded = true)) ∧
      (∀ f t, a.pcr.boolDatums = some (f, t) → (∀ d, d = f ∨ d = t) → answer = true →
        (b.Mem e none → a.Mem e none) ∧ ∀ d, b.Mem e (some (e d)) → a.Mem e (some (e d))) := by
  obtain ⟨c, hinter, hc, -, hmem⟩ := pciIntersect_ok e ha hb
  refine ⟨⟨c, hinter, hc, hmem⟩, ?_⟩
  obtain ⟨c, hunion, hc, -, hmem⟩ := pciUnion_ok e ha hb
  refine ⟨⟨c, hunion, hc, hmem⟩, ?_⟩
  obtain ⟨c, hdiff, hc, -, hmem⟩ := pciDifference_ok e ha hb
  refine ⟨⟨c, hdiff, hc, hmem⟩, ?_⟩
  obtain ⟨c, hcompl, hc, -, hmem⟩ := pciComplement_ok e ha
  refine ⟨⟨c, hcompl, hc, hmem⟩, ?_⟩
  obtain ⟨answer, hrun, hanswer⟩ := fContainsInterval_ok e ha hb
  refine ⟨answer, hrun, fun hsub => ?_, fun hbool hyes => ?_, fun f t hbool hall hyes => ?_⟩
  · exact Except.ok.inj (hrun.symm.trans (fContainsInterval_of_subset ha hb hsub.1 hsub.2))
  · subst hyes
    refine ⟨fun v => mem_of_fContainsInterval ha hb hpcr hrun fun f t hdatums => ?_, fun hbu => ?_⟩
    · rw [hbool] at hdatums
      cases hdatums
    rcases hanswer with ⟨hau, -⟩ | ⟨-, -, h⟩ | ⟨-, -, h⟩ | ⟨hnot, -⟩
    · exact hau
    · cases h
    · cases h
    · rw [hnot] at hbu
      cases hbu
  · subst hyes
    refine ⟨mem_of_fContainsInterval ha hb hpcr hrun fun _ _ hdatums => ?_, fun d =>
      mem_of_fContainsInterval ha hb hpcr hrun fun _ _ hdatums => ?_⟩
    · rw [hbool] at hdatums
      cases hdatums
      exact ⟨hall, .inl rfl⟩
    · rw [hbool] at hdatums
      cases hdatums
      exact ⟨hall, .inr ⟨d, rfl⟩⟩

def intInRat : ℤ ↪o ℚ := OrderEmbedding.ofStrictMono (fun n => (n : ℚ)) Int.cast_strictMono

def intColumn : CColRef ℤ := ⟨none, nofun⟩

/-- `x >= 1 AND x < 5 OR x IS NULL` -/
def oneToFive : CConstraintInterval ℤ := ⟨intColumn, [⟨some 1, .included, some 5, .excluded⟩], true⟩

/-- `x < 0 OR x >= 5` -/
def zeroAndFive : CConstraintInterval ℤ :=
  ⟨intColumn, [⟨none, .excluded, some 0, .excluded⟩, ⟨some 5, .included, none, .excluded⟩], false⟩

theorem oneToFive_wellFormed : oneToFive.WellFormed :=
  wellFormed_iff.2 (ordered_cons.2 ⟨nofun, before_lt_before.2 (by decide), ordered_nil⟩)

theorem zeroAndFive_wellFormed : zeroAndFive.WellFormed := by
  refine wellFormed_iff.2 (ordered_cons.2 ⟨fun s hs => ?_, bot_lt_before, ordered_cons.2
    ⟨nofun, before_lt_top, ordered_nil⟩⟩)
  rw [mem_singleton.1 hs]
  exact before_le_before.2 (by decide)

/-- Two well-formed lists on one column, with a gap between 0 and 1. -/
theorem oneToFive_union : ∃ c, oneToFive.pciUnion zeroAndFive = .ok c ∧ c.WellFormed ∧
      ∀ v, c.Mem intInRat v ↔ oneToFive.Mem intInRat v ∨ zeroAndFive.Mem intInRat v :=
  (interval_algebra intInRat oneToFive_wellFormed zeroAndFive_wellFormed rfl).2.1

/-- `x < 0 OR x >= 0 OR x IS NULL`, in two ranges -/
def belowAndAbove : CConstraintInterval ℤ :=
  ⟨intColumn, [⟨none, .excluded, some 0, .excluded⟩, ⟨some 0, .included, none, .excluded⟩], true⟩

theorem belowAndAbove_wellFormed : belowAndAbove.WellFormed := by
  refine wellFormed_iff.2 (ordered_cons.2 ⟨fun s hs => ?_, bot_lt_before, ordered_cons.2
    ⟨nofun, before_lt_top, ordered_nil⟩⟩)
  rw [mem_singleton.1 hs]
  exact le_rfl

/-- The two ranges have every value, and yet the answer is that they do not contain all of them. -/
theorem belowAndAbove_not_contains :
    belowAndAbove.WellFormed ∧ (pciUnbounded intColumn true).WellFormed ∧
      (∀ v, (pciUnbounded intColumn true).Mem intInRat v → belowAndAbove.Mem intInRat v) ∧
      belowAndAbove.fContainsInterval (pciUnbounded intColumn true) = .ok false := by
  refine ⟨belowAndAbove_wellFormed, pciUnbounded_wellFormed _ _, fun v _ => ?_, rfl⟩
  cases v with
  | none => rfl
  | some x =>
    rcases lt_or_ge x (intInRat 0) with hlt | hge
    · exact ⟨⟨none, .excluded, some 0, .excluded⟩, mem_cons_self, trivial, hlt⟩
    · exact ⟨⟨some 0, .included, none, .excluded⟩, mem_cons_of_mem _ mem_cons_self, hge, trivial⟩

end CConstraintInterval

end Cloudberry.Orca
