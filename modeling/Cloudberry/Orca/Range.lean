/-
# Ranges of values

`CRange` of `libgpopt/src/base/CRange.cpp`. A missing datum is an infinite end. The comparator
is a linear order on the datums; a comparison with a missing datum, or a reference taken to one, is
an error (`missingDatum`), so that a result says that there was none.

Each end is a cut of the order of the datums (`lo`, `hi`). The comparisons of ends are comparisons
of cuts, apart from two of them: `FStartsBefore` holds of two ranges that both start at -inf, and
`FEndsAfter` of two ranges that both end at inf.
-/

import Cloudberry.Lib.Cut

namespace Cloudberry.Orca

open Cut

inductive ERangeInclusion where
  | included
  | excluded
deriving DecidableEq, Repr

/-- `EriInverseInclusion` -/
def ERangeInclusion.inverse : ERangeInclusion → ERangeInclusion
  | .included => .excluded
  | .excluded => .included

structure CRange (α : Type*) where
  pdatumLeft : Option α
  eriLeft : ERangeInclusion
  pdatumRight : Option α
  eriRight : ERangeInclusion
deriving DecidableEq, Repr

/-- A datum is used that is not there. -/
def missingDatum : String := "missing datum"

namespace CRange

variable {α : Type*} [LinearOrder α]

section

variable (this prange : CRange α)

/-- Is this range disjoint from the given range and to its left? -/
def fDisjointLeft : Bool :=
  match this.pdatumRight, prange.pdatumLeft with
  | some right, some left =>
    if right < left then true
    else if right = left then this.eriRight = .excluded ∨ prange.eriLeft = .excluded
    else false
  | _, _ => false

/-- Does this range start before the given range starts? -/
def fStartsBefore : Bool :=
  match prange.pdatumLeft, this.pdatumLeft with
  | none, left => left.isNone
  | some _, none => true
  | some otherLeft, some left =>
    if left < otherLeft then true
    else if otherLeft < left then false
    else this.eriLeft = .included ∧ prange.eriLeft = .excluded

/-- Does this range start with or before the given range? -/
def fStartsWithOrBefore : Bool :=
  if this.fStartsBefore prange then true
  else
    match prange.pdatumLeft, this.pdatumLeft with
    | none, none => true
    | some otherLeft, some left => left = otherLeft ∧ this.eriLeft = prange.eriLeft
    | _, _ => false

/-- Does this range end after the given range ends? -/
def fEndsAfter : Bool :=
  match prange.pdatumRight, this.pdatumRight with
  | none, right => right.isNone
  | some _, none => true
  | some otherRight, some right =>
    if otherRight < right then true
    else if right < otherRight then false
    else this.eriRight = .included ∧ prange.eriRight = .excluded

/-- Does this range end with or after the given range? -/
def fEndsWithOrAfter : Bool :=
  if this.fEndsAfter prange then true
  else
    match prange.pdatumRight, this.pdatumRight with
    | none, none => true
    | some otherRight, some right => right = otherRight ∧ this.eriRight = prange.eriRight
    | _, _ => false

def contains : Bool :=
  this.fStartsWithOrBefore prange && this.fEndsWithOrAfter prange

/-- Does this range overlap only the left end of the given range? -/
def fOverlapsLeft : Bool :=
  this.fStartsBefore prange && !this.fEndsAfter prange && !this.fDisjointLeft prange

/-- Does this range overlap only the right end of the given range? -/
def fOverlapsRight : Bool :=
  this.fEndsAfter prange && !this.fStartsBefore prange && !prange.fDisjointLeft this

def prngIntersect : Except String (Option (CRange α)) :=
  if this.contains prange then .ok (some prange)
  else if prange.contains this then .ok (some this)
  else if this.fOverlapsLeft prange then
    match prange.pdatumLeft, this.pdatumRight with
    | some left, some right => .ok (some ⟨some left, prange.eriLeft, some right, this.eriRight⟩)
    | _, _ => .error missingDatum
  else if this.fOverlapsRight prange then
    match this.pdatumLeft, prange.pdatumRight with
    | some left, some right => .ok (some ⟨some left, this.eriLeft, some right, prange.eriRight⟩)
    | _, _ => .error missingDatum
  else .ok none

def prngDifferenceLeft : Option (CRange α) :=
  if this.fDisjointLeft prange then some this
  else
    match prange.pdatumLeft with
    | some left =>
      if this.fStartsBefore prange then
        some ⟨this.pdatumLeft, this.eriLeft, some left, prange.eriLeft.inverse⟩
      else none
    | none => none

def prngDifferenceRight : Option (CRange α) :=
  if prange.fDisjointLeft this then some this
  else
    match prange.pdatumRight with
    | some right =>
      if this.fEndsAfter prange then
        some ⟨some right, prange.eriRight.inverse, this.pdatumRight, this.eriRight⟩
      else none
    | none => none

/-- `PrngExtend`. The datums are compared without a look at whether they are there. -/
def prngExtend : Except String (Option (CRange α)) :=
  if prange.eriLeft = .included ∨ this.eriRight = .included then
    match prange.pdatumLeft, this.pdatumRight with
    | some left, some right =>
      if left = right then
        .ok (some ⟨this.pdatumLeft, this.eriLeft, prange.pdatumRight, prange.eriRight⟩)
      else .ok none
    | _, _ => .error missingDatum
  else .ok none

end

/-- `CRange::IsConstraintUnbounded` -/
def isConstraintUnbounded (this : CRange α) : Bool :=
  this.pdatumLeft.isNone && this.pdatumRight.isNone

/-! ### The ends as cuts -/

def lo (r : CRange α) : Cut α :=
  match r.pdatumLeft, r.eriLeft with
  | none, _ => .bot
  | some a, .included => .before a
  | some a, .excluded => .after a

def hi (r : CRange α) : Cut α :=
  match r.pdatumRight, r.eriRight with
  | none, _ => .top
  | some a, .included => .after a
  | some a, .excluded => .before a

/-- `x` is in the range. -/
def Mem {β : Type*} [LinearOrder β] (e : α ↪o β) (x : β) (r : CRange α) : Prop :=
  (match r.pdatumLeft, r.eriLeft with
    | none, _ => True
    | some a, .included => e a ≤ x
    | some a, .excluded => e a < x) ∧
  (match r.pdatumRight, r.eriRight with
    | none, _ => True
    | some a, .included => x ≤ e a
    | some a, .excluded => x < e a)

theorem mem_iff {β : Type*} [LinearOrder β] {e : α ↪o β} {x : β} {r : CRange α} :
    r.Mem e x ↔ r.lo.Below e x ∧ ¬ r.hi.Below e x := by
  obtain ⟨left, eriLeft, right, eriRight⟩ := r
  refine and_congr ?_ ?_
  · cases left with
    | none => exact Iff.rfl
    | some a => cases eriLeft <;> exact Iff.rfl
  cases right with
  | none => exact ⟨fun _ h => h, fun _ => trivial⟩
  | some a =>
    cases eriRight with
    | included => exact not_lt.symm
    | excluded => exact not_le.symm

/-- The range holds something, when there is a value between any two. -/
def NonEmpty (r : CRange α) : Prop := r.lo < r.hi

variable {r s : CRange α}

theorem lo_lt_top (r : CRange α) : r.lo < .top := by
  unfold lo
  split <;> simp

theorem bot_lt_hi (r : CRange α) : .bot < r.hi := by
  unfold hi
  split <;> simp

omit [LinearOrder α] in
theorem lo_eq_bot : r.lo = .bot ↔ r.pdatumLeft = none := by
  unfold lo
  split <;> simp_all

omit [LinearOrder α] in
theorem hi_eq_top : r.hi = .top ↔ r.pdatumRight = none := by
  unfold hi
  split <;> simp_all

theorem exists_right_of_hi_lt {c : Cut α} (h : r.hi < c) : ∃ b, r.pdatumRight = some b := by
  refine Option.ne_none_iff_exists'.1 fun hright => ?_
  rw [hi_eq_top.2 hright] at h
  exact h.not_ge (le_top _)

theorem exists_left_of_lt_lo {c : Cut α} (h : c < r.lo) : ∃ a, r.pdatumLeft = some a := by
  refine Option.ne_none_iff_exists'.1 fun hleft => ?_
  rw [lo_eq_bot.2 hleft] at h
  exact h.not_ge (bot_le _)

theorem fDisjointLeft_iff : r.fDisjointLeft s = true ↔ r.hi ≤ s.lo := by
  have hhi := r.bot_lt_hi
  have hlo := s.lo_lt_top
  obtain ⟨_, _, right, eriRight⟩ := r
  obtain ⟨left', eriLeft', right', eriRight'⟩ := s
  unfold fDisjointLeft
  cases right with
  | none => exact ⟨nofun, fun h => absurd (hlo.trans_le h) (lt_irrefl _)⟩
  | some b =>
    cases left' with
    | none => exact ⟨nofun, fun h => absurd (hhi.trans_le h) (lt_irrefl _)⟩
    | some a =>
      rcases lt_trichotomy b a with hlt | rfl | hgt
      · cases eriRight <;> cases eriLeft' <;> simp [lo, hi, hlt, hlt.le]
      · cases eriRight <;> cases eriLeft' <;> simp [lo, hi]
      · cases eriRight <;> cases eriLeft' <;>
          simp [lo, hi, hgt.not_gt, hgt.ne', hgt.not_ge]

theorem fStartsBefore_iff :
    r.fStartsBefore s = true ↔ r.lo < s.lo ∨ (r.lo = .bot ∧ s.lo = .bot) := by
  obtain ⟨left, eriLeft, _, _⟩ := r
  obtain ⟨left', eriLeft', right', eriRight'⟩ := s
  unfold fStartsBefore
  cases left' with
  | none =>
    cases left with
    | none => simp [lo]
    | some a => cases eriLeft <;> simp [lo, not_lt.2 (bot_le _)]
  | some b =>
    cases left with
    | none => cases eriLeft' <;> simp [lo]
    | some a =>
      rcases lt_trichotomy a b with hlt | rfl | hgt
      · cases eriLeft <;> cases eriLeft' <;> simp [lo, hlt, hlt.le]
      · cases eriLeft <;> cases eriLeft' <;> simp [lo]
      · cases eriLeft <;> cases eriLeft' <;> simp [lo, hgt, hgt.not_gt, hgt.not_ge]

theorem fEndsAfter_iff : r.fEndsAfter s = true ↔ s.hi < r.hi ∨ (r.hi = .top ∧ s.hi = .top) := by
  obtain ⟨_, _, right, eriRight⟩ := r
  obtain ⟨left', eriLeft', right', eriRight'⟩ := s
  unfold fEndsAfter
  cases right' with
  | none =>
    cases right with
    | none => simp [hi]
    | some a => cases eriRight <;> simp [hi, not_lt.2 (le_top _)]
  | some b =>
    cases right with
    | none => cases eriRight' <;> simp [hi]
    | some a =>
      rcases lt_trichotomy a b with hlt | rfl | hgt
      · cases eriRight <;> cases eriRight' <;> simp [hi, hlt, hlt.not_gt, hlt.not_ge]
      · cases eriRight <;> cases eriRight' <;> simp [hi]
      · cases eriRight <;> cases eriRight' <;> simp [hi, hgt, hgt.le]

theorem fStartsWithOrBefore_iff : r.fStartsWithOrBefore s = true ↔ r.lo ≤ s.lo := by
  unfold fStartsWithOrBefore
  split_ifs with hbefore
  · refine iff_of_true rfl ?_
    rcases fStartsBefore_iff.1 hbefore with hlt | ⟨hr, -⟩
    · exact hlt.le
    · rw [hr]
      exact bot_le _
  · have hnot : ¬ r.lo < s.lo := fun hlt => hbefore (fStartsBefore_iff.2 (.inl hlt))
    have hsame : r.lo ≤ s.lo ↔ r.lo = s.lo := ⟨fun h => h.antisymm (not_lt.1 hnot), fun h => h.le⟩
    rw [hsame]
    obtain ⟨left, eriLeft, _, _⟩ := r
    obtain ⟨left', eriLeft', right', eriRight'⟩ := s
    cases left <;> cases left' <;> cases eriLeft <;> cases eriLeft' <;> simp [lo]

theorem fEndsWithOrAfter_iff : r.fEndsWithOrAfter s = true ↔ s.hi ≤ r.hi := by
  unfold fEndsWithOrAfter
  split_ifs with hafter
  · refine iff_of_true rfl ?_
    rcases fEndsAfter_iff.1 hafter with hlt | ⟨hr, -⟩
    · exact hlt.le
    · rw [hr]
      exact le_top _
  · have hnot : ¬ s.hi < r.hi := fun hlt => hafter (fEndsAfter_iff.2 (.inl hlt))
    have hsame : s.hi ≤ r.hi ↔ r.hi = s.hi := ⟨fun h => (not_lt.1 hnot).antisymm h, fun h => h.ge⟩
    rw [hsame]
    obtain ⟨_, _, right, eriRight⟩ := r
    obtain ⟨left', eriLeft', right', eriRight'⟩ := s
    cases right <;> cases right' <;> cases eriRight <;> cases eriRight' <;> simp [hi]

theorem contains_iff : r.contains s = true ↔ r.lo ≤ s.lo ∧ s.hi ≤ r.hi := by
  rw [contains, Bool.and_eq_true, fStartsWithOrBefore_iff, fEndsWithOrAfter_iff]

/-! ### What the operations return -/

/-- The range that is returned starts and ends at these cuts; none is returned if there is nothing
between them. -/
def Spans (lo hi : Cut α) : Option (CRange α) → Prop
  | some t => t.lo = lo ∧ t.hi = hi ∧ lo < hi
  | none => hi ≤ lo

theorem prngIntersect_ok (hr : r.NonEmpty) (hs : s.NonEmpty) :
    ∃ o, r.prngIntersect s = .ok o ∧ Spans (max r.lo s.lo) (min r.hi s.hi) o := by
  unfold prngIntersect
  by_cases hrs : r.contains s = true
  · rw [if_pos hrs]
    obtain ⟨hlo, hhi⟩ := contains_iff.1 hrs
    refine ⟨_, rfl, ?_⟩
    rw [max_eq_right hlo, min_eq_right hhi]
    exact ⟨rfl, rfl, hs⟩
  rw [if_neg hrs]
  by_cases hsr : s.contains r = true
  · rw [if_pos hsr]
    obtain ⟨hlo, hhi⟩ := contains_iff.1 hsr
    refine ⟨_, rfl, ?_⟩
    rw [max_eq_left hlo, min_eq_left hhi]
    exact ⟨rfl, rfl, hr⟩
  rw [if_neg hsr]
  rw [contains_iff, not_and] at hrs hsr
  -- neither range contains the other one, so one of them starts and ends first
  rcases le_total r.lo s.lo with hlo | hlo
  · have hhi : r.hi < s.hi := not_le.1 (hrs hlo)
    have hne : r.lo < s.lo := lt_of_not_ge fun hge => hsr hge hhi.le
    rw [max_eq_right hlo, min_eq_left hhi.le]
    have hstarts : r.fStartsBefore s = true := fStartsBefore_iff.2 (.inl hne)
    have hends : r.fEndsAfter s = false := by
      rw [Bool.eq_false_iff, ne_eq, fEndsAfter_iff]
      rintro (hlt | ⟨htop, -⟩)
      · exact lt_asymm hhi hlt
      · exact absurd (htop ▸ hhi) (not_lt.2 (le_top _))
    by_cases hdis : r.fDisjointLeft s = true
    · refine ⟨none, ?_, fDisjointLeft_iff.1 hdis⟩
      rw [if_neg (by simp [fOverlapsLeft, hdis]), if_neg (by simp [fOverlapsRight, hends])]
    have hover : s.lo < r.hi := lt_of_not_ge fun h => hdis (fDisjointLeft_iff.2 h)
    rw [if_pos (by simp [fOverlapsLeft, hstarts, hends, hdis])]
    obtain ⟨b, hb⟩ := exists_right_of_hi_lt hhi
    obtain ⟨a, ha⟩ := exists_left_of_lt_lo hne
    rw [ha, hb]
    refine ⟨_, rfl, ?_, ?_, hover⟩
    · rw [lo, lo, ha]
    · rw [hi, hi, hb]
  · have hhi : s.hi < r.hi := not_le.1 (hsr hlo)
    have hne : s.lo < r.lo := lt_of_not_ge fun hge => hrs hge hhi.le
    rw [max_eq_left hlo, min_eq_right hhi.le]
    have hstarts : r.fStartsBefore s = false := by
      rw [Bool.eq_false_iff, ne_eq, fStartsBefore_iff]
      rintro (hlt | ⟨hbot, -⟩)
      · exact lt_asymm hne hlt
      · exact absurd (hbot ▸ hne) (not_lt.2 (bot_le _))
    have hends : r.fEndsAfter s = true := fEndsAfter_iff.2 (.inl hhi)
    rw [if_neg (by simp [fOverlapsLeft, hstarts])]
    by_cases hdis : s.fDisjointLeft r = true
    · refine ⟨none, ?_, fDisjointLeft_iff.1 hdis⟩
      rw [if_neg (by simp [fOverlapsRight, hdis])]
    have hover : r.lo < s.hi := lt_of_not_ge fun h => hdis (fDisjointLeft_iff.2 h)
    rw [if_pos (by simp [fOverlapsRight, hstarts, hends, hdis])]
    obtain ⟨b, hb⟩ := exists_right_of_hi_lt hhi
    obtain ⟨a, ha⟩ := exists_left_of_lt_lo hne
    rw [ha, hb]
    refine ⟨_, rfl, ?_, ?_, hover⟩
    · rw [lo, lo, ha]
    · rw [hi, hi, hb]

theorem prngDifferenceLeft_spans (hr : r.NonEmpty) :
    Spans r.lo (min r.hi s.lo) (r.prngDifferenceLeft s) := by
  unfold prngDifferenceLeft
  by_cases hdis : r.fDisjointLeft s = true
  · rw [if_pos hdis, min_eq_left (fDisjointLeft_iff.1 hdis)]
    exact ⟨rfl, rfl, hr⟩
  rw [if_neg hdis]
  have hover : s.lo < r.hi := lt_of_not_ge fun h => hdis (fDisjointLeft_iff.2 h)
  rw [min_eq_right hover.le]
  split
  next left hleft =>
    split
    next hbefore =>
      have hlt : r.lo < s.lo := by
        rcases fStartsBefore_iff.1 hbefore with hlt | ⟨-, hbot⟩
        · exact hlt
        · rw [lo_eq_bot, hleft] at hbot
          cases hbot
      refine ⟨rfl, ?_, hlt⟩
      rw [hi, lo, hleft]
      cases s.eriLeft <;> rfl
    next hbefore => exact le_of_not_gt fun hlt => hbefore (fStartsBefore_iff.2 (.inl hlt))
  next hleft =>
    rw [lo_eq_bot.2 hleft]
    exact bot_le _

theorem prngDifferenceRight_spans (hr : r.NonEmpty) :
    Spans (max r.lo s.hi) r.hi (r.prngDifferenceRight s) := by
  unfold prngDifferenceRight
  by_cases hdis : s.fDisjointLeft r = true
  · rw [if_pos hdis, max_eq_left (fDisjointLeft_iff.1 hdis)]
    exact ⟨rfl, rfl, hr⟩
  rw [if_neg hdis]
  have hover : r.lo < s.hi := lt_of_not_ge fun h => hdis (fDisjointLeft_iff.2 h)
  rw [max_eq_right hover.le]
  split
  next right hright =>
    split
    next hafter =>
      have hlt : s.hi < r.hi := by
        rcases fEndsAfter_iff.1 hafter with hlt | ⟨-, htop⟩
        · exact hlt
        · rw [hi_eq_top, hright] at htop
          cases htop
      refine ⟨?_, rfl, hlt⟩
      rw [hi, lo, hright]
      cases s.eriRight <;> rfl
    next hafter => exact le_of_not_gt fun hlt => hafter (fEndsAfter_iff.2 (.inl hlt))
  next hright =>
    rw [hi_eq_top.2 hright]
    exact le_top _

/-- A range right behind another one extends it if no value is left out between them. -/
theorem prngExtend_ok (hle : r.hi ≤ s.lo) : (r.hi < s.lo ∧ r.prngExtend s = .ok none) ∨
      (r.hi = s.lo ∧ ∃ t, r.prngExtend s = .ok (some t) ∧ t.lo = r.lo ∧ t.hi = s.hi) := by
  obtain ⟨b, hb⟩ := exists_right_of_hi_lt (hle.trans_lt s.lo_lt_top)
  obtain ⟨a, ha⟩ := exists_left_of_lt_lo (r.bot_lt_hi.trans_le hle)
  obtain ⟨left, eriLeft, _, eriRight⟩ := r
  obtain ⟨left', eriLeft', right', eriRight'⟩ := s
  subst ha hb
  cases eriRight with
  | included =>
    cases eriLeft' with
    | included =>
      have hlt : b < a := after_le_before.1 hle
      refine .inl ⟨?_, ?_⟩
      · exact after_lt_before.2 hlt
      · simp [prngExtend, hlt.ne']
    | excluded =>
      rcases (after_le_after.1 hle).lt_or_eq with hlt | rfl
      · refine .inl ⟨Cut.after_lt_after.2 hlt, ?_⟩
        simp [prngExtend, hlt.ne']
      · refine .inr ⟨rfl, ⟨left, eriLeft, right', eriRight'⟩, ?_, rfl, rfl⟩
        simp [prngExtend]
  | excluded =>
    cases eriLeft' with
    | included =>
      rcases (before_le_before.1 hle).lt_or_eq with hlt | rfl
      · refine .inl ⟨Cut.before_lt_before.2 hlt, ?_⟩
        simp [prngExtend, hlt.ne']
      · refine .inr ⟨rfl, ⟨left, eriLeft, right', eriRight'⟩, ?_, rfl, rfl⟩
        simp [prngExtend]
    | excluded =>
      refine .inl ⟨Cut.before_lt_after.2 (before_le_after.1 hle), ?_⟩
      simp [prngExtend]

end CRange

end Cloudberry.Orca
