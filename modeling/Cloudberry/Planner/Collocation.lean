/-
# Grouping without a Motion

A locus means something for the placement of the rows on the processes (`Placed`). If one of the
tests says yes, then rows that are equal on the given expressions, NULL counted as equal to NULL,
are held by the same processes, whatever the placement.

There is one exception. A locus that is neither hashed nor strewn is taken to have all rows in each
process, but a SegmentGeneralWorkers locus has them spread over the workers of a segment.
-/

import Cloudberry.Planner.PathLocus
import Mathlib.Data.List.Forall2
import Mathlib.Data.Set.Insert

namespace Cloudberry.Planner

open List CdbPathLocus

structure Process where
  segment : ℕ
  worker : ℕ
deriving DecidableEq, Repr

variable {ε : Type*}

/-- What the expressions mean in the rows. `classes` are the equivalence classes of the query and
`tles` its grouping columns. -/
structure Meaning (classes : Set (EquivalenceClass ε)) (tles : List (TargetEntry ε))
    (Row V : Type*) where
  ecValue : EquivalenceClass ε → Row → Option V
  tleValue : TargetEntry ε → Row → Option V
  /-- An address belongs to one class. -/
  address : ∀ ec ∈ classes, ∀ ec' ∈ classes, ec.address = ec'.address → ecValue ec = ecValue ec'
  /-- Merged classes agree. -/
  merged : ∀ ec ∈ classes, ∀ ec' ∈ ec.ecMerged, ec' ∈ classes ∧ ecValue ec = ecValue ec'
  /-- A constant has the same value everywhere. -/
  constant : ∀ ec ∈ classes, ec.isConstant = true → ∀ r r', ecValue ec r = ecValue ec r'
  /-- The members of a class agree. -/
  member : ∀ ec ∈ classes, ∀ tle ∈ tles, tle.expr ∈ ec.ecMembers → tleValue tle = ecValue ec
  /-- The class of a sort clause has the value of the column with its label. -/
  sortref : ∀ ec ∈ classes, ec.ecSortref ≠ 0 → ∀ tle ∈ tles, tle.ressortgroupref = ec.ecSortref →
    tleValue tle = ecValue ec

section placement

variable {classes : Set (EquivalenceClass ε)} {tles : List (TargetEntry ε)} {Row V : Type*}

/-- The classes of a locus are among those of the query. -/
def CdbPathLocus.UsesClasses (locus : CdbPathLocus ε) (classes : Set (EquivalenceClass ε)) : Prop :=
  ∀ distkey ∈ locus.distkey, ∀ ec ∈ distkey.dkEclasses, ec ∈ classes

section

variable (m : Meaning classes tles Row V) (locus : CdbPathLocus ε)

/-- The values of the distribution key in a row: any class of a key gives the value. -/
def KeyValues (r : Row) (values : List (Option V)) : Prop :=
  Forall₂ (fun distkey v => ∀ ec ∈ distkey.dkEclasses, m.ecValue ec r = v) locus.distkey values

/-- The values of the distribution key after an outer join: each key has a class that is not NULL,
and the classes that are not NULL agree. -/
def KeyValuesOJ (r : Row) (values : List V) : Prop :=
  Forall₂ (fun distkey v => (∃ ec ∈ distkey.dkEclasses, m.ecValue ec r = some v) ∧
    ∀ ec ∈ distkey.dkEclasses, m.ecValue ec r = none ∨ m.ecValue ec r = some v) locus.distkey values

/-- **What a locus means**: which processes hold a row. -/
def Placed (holders : Row → Set Process) : Prop :=
  match locus.locustype with
  | .null => True
  | .entry | .singleQE => ∃ p, ∀ r, holders r = {p}
  | .general | .segmentGeneral | .outerQuery | .replicated | .replicatedWorkers =>
    ∃ ps, ∀ r, holders r = ps
  | .segmentGeneralWorkers =>
    ∃ worker : ℕ → Row → ℕ, (∀ segment r, worker segment r < max 1 locus.parallelWorkers) ∧
      ∀ r, holders r = {p | (p.segment : ℤ) < locus.numsegments ∧ p.worker = worker p.segment r}
  | .hashed =>
    ∃ place : List (Option V) → Process, ∀ r, ∃ values, KeyValues m locus r values ∧
      holders r = {place values}
  | .hashedOJ =>
    ∃ place : List V → Process, ∀ r,
      (∃ values, KeyValuesOJ m locus r values ∧ holders r = {place values}) ∨
        (∃ distkey ∈ locus.distkey, ∀ ec ∈ distkey.dkEclasses, m.ecValue ec r = none) ∧
          ∃ p, holders r = {p}
  | .strewn => ∀ r, ∃ p, holders r = {p}
  | .hashedWorkers =>
    ∃ place : List (Option V) → ℕ, ∀ r, ∃ values worker, KeyValues m locus r values ∧
      holders r = {⟨place values, worker⟩}

end

variable {m : Meaning classes tles Row V} {locus : CdbPathLocus ε} {holders : Row → Set Process}
  {r r' : Row}

theorem Meaning.canonical (m : Meaning classes tles Row V) :
    ∀ ec : EquivalenceClass ε, ec ∈ classes →
      ec.canonical ∈ classes ∧ m.ecValue ec = m.ecValue ec.canonical
  | ⟨_, _, _, _, _, none⟩, hec => by
    rw [EquivalenceClass.canonical]
    exact ⟨hec, rfl⟩
  | ⟨address, members, hasConst, belowOuterJoin, sortref, some ec⟩, hec => by
    rw [EquivalenceClass.canonical]
    obtain ⟨hmerged, hvalue⟩ := m.merged _ hec ec rfl
    obtain ⟨hin, hvalue'⟩ := m.canonical ec hmerged
    exact ⟨hin, hvalue.trans hvalue'⟩

theorem keyValues_unique {distkeys : List (DistributionKey ε)} {values values' : List (Option V)}
    (h : Forall₂ (fun distkey v => ∀ ec ∈ distkey.dkEclasses, m.ecValue ec r = v) distkeys values)
    (h' : Forall₂ (fun distkey v => ∀ ec ∈ distkey.dkEclasses,
      m.ecValue ec r' = v) distkeys values')
    (hkeys : ∀ distkey ∈ distkeys, ∃ ec ∈ distkey.dkEclasses, m.ecValue ec r = m.ecValue ec r') :
    values = values' := by
  induction h generalizing values' with
  | nil => rw [forall₂_nil_left_iff.1 h']
  | cons hv _ ih =>
    obtain ⟨_, _, hv', hrest', rfl⟩ := forall₂_cons_left_iff.1 h'
    obtain ⟨ec, hec, hsame⟩ := hkeys _ mem_cons_self
    have hhead := (hv ec hec).symm.trans (hsame.trans (hv' ec hec))
    rw [hhead, ih hrest' fun distkey hdistkey => hkeys distkey (mem_cons_of_mem _ hdistkey)]

/-- **A hashed locus holds rows with the same key in one process.** -/
theorem holders_eq_of_hashed (hplaced : Placed m locus holders) (htype : locus.locustype = .hashed)
    (hkeys : ∀ distkey ∈ locus.distkey, ∃ ec ∈ distkey.dkEclasses,
      m.ecValue ec r = m.ecValue ec r') :
    holders r = holders r' := by
  unfold Placed at hplaced
  rw [htype] at hplaced
  obtain ⟨_, hplace⟩ := hplaced
  obtain ⟨values, hvalues, hr⟩ := hplace r
  obtain ⟨_, hvalues', hr'⟩ := hplace r'
  rw [hr, hr', keyValues_unique hvalues hvalues' hkeys]

/-- A locus of one process, or with all rows in each process. -/
theorem holders_eq_of_bottleneck (hplaced : Placed m locus holders)
    (hbottleneck : locus.isBottleneck = true) : holders r = holders r' := by
  unfold Placed at hplaced
  simp only [isBottleneck, Bool.or_eq_true, decide_eq_true_eq] at hbottleneck
  rcases hbottleneck with (htype | htype) | htype <;> rw [htype] at hplaced <;>
    obtain ⟨p, hp⟩ := hplaced <;> rw [hp r, hp r']

/-- The two rows have the same values in the target list. -/
def Meaning.Agree (m : Meaning classes tles Row V) (r r' : Row) : Prop :=
  ∀ tle ∈ tles, m.tleValue tle r = m.tleValue tle r'

variable [DecidableEq ε]

theorem ecValue_eq_of_foundInTlist {ec : EquivalenceClass ε} (hec : ec ∈ classes)
    (hfound : foundInTlist tles ec = true) (hagree : m.Agree r r') :
    m.ecValue ec r = m.ecValue ec r' := by
  unfold foundInTlist at hfound
  split at hfound
  next hsortref =>
    obtain ⟨tle, htle, hlabel⟩ := any_eq_true.1 hfound
    rw [← m.sortref ec hec hsortref tle htle (of_decide_eq_true hlabel)]
    exact hagree tle htle
  · obtain ⟨_, _, hfound⟩ := any_eq_true.1 hfound
    obtain ⟨tle, htle, hexpr⟩ := any_eq_true.1 hfound
    rw [← m.member ec hec tle htle (by rwa [of_decide_eq_true hexpr])]
    exact hagree tle htle

section

variable (hplaced : Placed m locus holders)
include hplaced

variable (huses : locus.UsesClasses classes)
include huses

theorem holders_eq_of_hashedOnTlist (htype : locus.locustype = .hashed)
    (hfound : locus.isHashedOnTlist tles true = true)
    (hagree : m.Agree r r') : holders r = holders r' := by
  have hall : ∀ distkey ∈ locus.distkey, ∀ ec ∈ distkey.dkEclasses,
      ec.isConstant = true ∨ foundInTlist tles ec = true := by
    simpa [isHashedOnTlist, isHashedOn, htype] using hfound
  refine holders_eq_of_hashed hplaced htype fun distkey hdistkey => ?_
  obtain ⟨ec, _, hcons⟩ := exists_cons_of_ne_nil distkey.dkEclasses_ne_nil
  have hec : ec ∈ distkey.dkEclasses := hcons ▸ mem_cons_self
  have hin : ec ∈ classes := huses distkey hdistkey ec hec
  refine ⟨ec, hec, ?_⟩
  rcases hall distkey hdistkey ec hec with hconst | hfound
  · exact m.constant ec hin hconst r r'
  · exact ecValue_eq_of_foundInTlist hin hfound hagree

theorem holders_eq_of_hashedOnExprs (htype : locus.locustype = .hashed)
    (hfound : locus.isHashedOnExprs (tles.map TargetEntry.expr) true = true)
    (hagree : m.Agree r r') : holders r = holders r' := by
  have hany : ∀ distkey ∈ locus.distkey, ∃ ec ∈ distkey.dkEclasses,
      ec.isConstant = true ∨ ∃ em ∈ ec.ecMembers, ∃ tle ∈ tles, tle.expr = em := by
    simpa [isHashedOnExprs, isHashedOn, htype] using hfound
  refine holders_eq_of_hashed hplaced htype fun distkey hdistkey => ?_
  obtain ⟨ec, hec, hcase⟩ := hany distkey hdistkey
  have hin : ec ∈ classes := huses distkey hdistkey ec hec
  refine ⟨ec, hec, ?_⟩
  rcases hcase with hconst | ⟨em, hem, tle, htle, rfl⟩
  · exact m.constant ec hin hconst r r'
  · rw [← m.member ec hin tle htle hem]
    exact hagree tle htle

omit [DecidableEq ε] in
/-- **The test on path keys.** -/
theorem holders_eq_of_collocatesPathkeys {pathkeys : List (PathKey ε)} {exactMatch : Bool}
    (hpathkeys : ∀ pathkey ∈ pathkeys, pathkey.pkEclass ∈ classes)
    (hyes : locus.collocatesPathkeys pathkeys exactMatch = true)
    (hagree : ∀ pathkey ∈ pathkeys, m.ecValue pathkey.pkEclass r = m.ecValue pathkey.pkEclass r') :
    holders r = holders r' := by
  unfold collocatesPathkeys at hyes
  split at hyes
  next hbottleneck => exact holders_eq_of_bottleneck hplaced hbottleneck
  split at hyes
  · cases hyes
  next htype =>
    rw [not_not] at htype
    split at hyes
    · cases hyes
    have hany : ∀ distkey ∈ locus.distkey, ∃ ec ∈ distkey.dkEclasses,
        ec.canonical.isConstant = true ∨ ∃ pathkey ∈ pathkeys,
          pathkey.pkEclass.canonical.canonical.address = ec.canonical.address := by
      simpa [isHashedOnEclasses, isHashedOn, htype] using hyes
    refine holders_eq_of_hashed hplaced htype fun distkey hdistkey => ?_
    obtain ⟨ec, hec, hcase⟩ := hany distkey hdistkey
    obtain ⟨hin, hvalue⟩ := m.canonical ec (huses distkey hdistkey ec hec)
    refine ⟨ec, hec, ?_⟩
    rcases hcase with hconst | ⟨pathkey, hpathkey, haddress⟩
    · rw [hvalue]
      exact m.constant _ hin hconst r r'
    · obtain ⟨hin', hvalue'⟩ := m.canonical pathkey.pkEclass (hpathkeys pathkey hpathkey)
      obtain ⟨hin'', hvalue''⟩ := m.canonical _ hin'
      rw [hvalue, ← m.address _ hin'' _ hin haddress, ← hvalue'', ← hvalue']
      exact hagree pathkey hpathkey

/-- **The test on a target list.** -/
theorem holders_eq_of_collocatesTlist (hyes : locus.collocatesTlist tles = true)
    (hagree : m.Agree r r') : holders r = holders r' := by
  unfold collocatesTlist at hyes
  split at hyes
  next hbottleneck => exact holders_eq_of_bottleneck hplaced hbottleneck
  split at hyes
  · cases hyes
  · split_ifs at hyes with htype
    exact holders_eq_of_hashedOnTlist hplaced huses (not_not.1 htype) hyes hagree

end

/-- The planner's state goes with the meaning: the class of a grouping column has its value. -/
def PlannerInfo.Fits (root : PlannerInfo ε) (m : Meaning classes tles Row V) : Prop :=
  root.finalLocus.UsesClasses classes ∧
    ∀ tle ∈ tles, ∀ ec ∈ root.eclassForExpr tle, ec ∈ classes ∧ m.tleValue tle = m.ecValue ec

variable {root : PlannerInfo ε} {workers : ℕ}

omit [DecidableEq ε] in
theorem holders_eq_of_locusFromTles (hroot : root.Fits m)
    (hplaced : Placed m (locusFromTles root tles workers) holders)
    (hagree : m.Agree r r') : holders r = holders r' := by
  unfold locusFromTles at hplaced
  split at hplaced
  · exact holders_eq_of_bottleneck hplaced rfl
  refine holders_eq_of_hashed hplaced rfl fun distkey hdistkey => ?_
  obtain ⟨ec, hec, rfl⟩ := mem_map.1 hdistkey
  obtain ⟨tle, htle, heclass⟩ := mem_filterMap.1 hec
  refine ⟨ec, mem_cons_self, ?_⟩
  rw [← (hroot.2 tle htle ec heclass).2]
  exact hagree tle htle

/-- **The locus that the rows are redistributed to** holds equal rows in one process. -/
theorem holders_eq_of_redistribute {pathLocus : CdbPathLocus ε} (hroot : root.Fits m)
    (hchoice : (chooseGroupingLocus root pathLocus workers tles).1 = true)
    (hplaced : Placed m (chooseGroupingLocus root pathLocus workers tles).2 holders)
    (hagree : m.Agree r r') : holders r = holders r' := by
  unfold chooseGroupingLocus at hchoice hplaced
  split at hchoice
  · cases hchoice
  next hbottleneck =>
    rw [if_neg hbottleneck] at hplaced
    split at hchoice
    next hempty =>
      rw [if_pos hempty] at hplaced
      exact holders_eq_of_bottleneck hplaced rfl
    next hempty =>
      rw [if_neg hempty] at hplaced
      split at hchoice
      · cases hchoice
      next hin =>
        rw [if_neg hin] at hplaced
        split at hplaced
        next hfinal =>
          rw [Bool.and_eq_true, decide_eq_true_eq] at hfinal
          exact holders_eq_of_hashedOnTlist hplaced hroot.1 hfinal.1 hfinal.2 hagree
        · exact holders_eq_of_locusFromTles hroot hplaced hagree

omit [DecidableEq ε] in
/-- A locus that is neither hashed, nor strewn, nor spread over workers has all rows in each of its
processes. -/
theorem holders_eq_of_everywhere (hplaced : Placed m locus holders) (hvalid : locus.isValid = true)
    (hhashed : locus.isAnyHashed = false) (hstrewn : locus.locustype ≠ .strewn)
    (hworkers : locus.locustype ≠ .segmentGeneralWorkers) : holders r = holders r' := by
  have hnull : locus.locustype ≠ .null := by
    simp only [isValid, Bool.and_eq_true, decide_eq_true_eq] at hvalid
    exact hvalid.1.1.1
  simp only [isAnyHashed, Bool.or_eq_false_iff, decide_eq_false_iff_not] at hhashed
  obtain ⟨⟨hhashedWorkers, hhashed⟩, hhashedOJ⟩ := hhashed
  unfold Placed at hplaced
  split at hplaced
  case h_1 htype => exact absurd htype hnull
  case h_9 htype => exact absurd htype hworkers
  case h_10 htype => exact absurd htype hhashed
  case h_11 htype => exact absurd htype hhashedOJ
  case h_12 htype => exact absurd htype hstrewn
  case h_13 htype => exact absurd htype hhashedWorkers
  all_goals
    obtain ⟨_, hps⟩ := hplaced
    rw [hps r, hps r']

/-- The rows of the locus are spread over the workers of a segment. -/
def CdbPathLocus.Spread (locus : CdbPathLocus ε) : Prop :=
  locus.locustype = .segmentGeneralWorkers ∧ 1 < locus.parallelWorkers ∧ 0 < locus.numsegments

omit [DecidableEq ε] in
theorem holders_eq_of_not_spread (hplaced : Placed m locus holders)
    (htype : locus.locustype = .segmentGeneralWorkers) (hspread : ¬ locus.Spread) :
    holders r = holders r' := by
  unfold Placed at hplaced
  rw [htype] at hplaced
  obtain ⟨_, hworker, hholders⟩ := hplaced
  rw [hholders r, hholders r']
  ext p
  refine and_congr_right fun hp => ?_
  have hsegments : 0 < locus.numsegments := lt_of_le_of_lt (Int.natCast_nonneg _) hp
  have hone : locus.parallelWorkers ≤ 1 := not_lt.1 fun h => hspread ⟨htype, h, hsegments⟩
  have hr := hworker p.segment r
  have hr' := hworker p.segment r'
  omega

/-- **Grouping in place**: the choice not to redistribute is right for a valid locus whose rows are
not spread over workers. -/
theorem holders_eq_of_in_place (hvalid : locus.isValid = true) (huses : locus.UsesClasses classes)
    (hplaced : Placed m locus holders)
    (hchoice : (chooseGroupingLocus root locus workers tles).1 = false)
    (hspread : ¬ (locus.Spread ∧ tles ≠ [])) (hagree : m.Agree r r') : holders r = holders r' := by
  unfold chooseGroupingLocus at hchoice
  split at hchoice
  next hbottleneck => exact holders_eq_of_bottleneck hplaced hbottleneck
  split at hchoice
  · cases hchoice
  next hempty =>
    have hne : tles ≠ [] := fun hnil => hempty (isEmpty_iff.2 hnil)
    split at hchoice
    next hin =>
      rw [Bool.and_eq_true, decide_eq_true_eq] at hin
      obtain ⟨hnotOJ, hfound⟩ := hin
      by_cases hhashed : locus.locustype = .hashed
      · exact holders_eq_of_hashedOnTlist hplaced huses hhashed hfound hagree
      by_cases hworkers : locus.locustype = .segmentGeneralWorkers
      · exact holders_eq_of_not_spread hplaced hworkers fun h => hspread ⟨h, hne⟩
      have hnot : locus.locustype ≠ .hashedWorkers ∧ locus.locustype ≠ .strewn := by
        simpa [isHashedOnTlist, isHashedOn, hhashed, hnotOJ] using hfound
      refine holders_eq_of_everywhere hplaced hvalid ?_ hnot.2 hworkers
      simp [isAnyHashed, hnot.1, hhashed, hnotOJ]
    · split at hchoice <;> cases hchoice

end placement

section choice

variable [DecidableEq ε]

/-- Whatever the values and the placement: if the answer is yes, then rows that agree on the
grouping columns are held by the same processes. -/
def CollocatesWhen (locus : CdbPathLocus ε) (tles : List (TargetEntry ε)) (answer : Bool) : Prop :=
  ∀ (Row V : Type) (classes : Set (EquivalenceClass ε)) (m : Meaning classes tles Row V)
    (holders : Row → Set Process), locus.UsesClasses classes → Placed m locus holders →
    answer = true → ∀ r r', (∀ tle ∈ tles, m.tleValue tle r = m.tleValue tle r') →
      holders r = holders r'

/-- The same for path keys. -/
def CollocatesPathkeysWhen (locus : CdbPathLocus ε) (pathkeys : List (PathKey ε)) (answer : Bool) :
    Prop :=
  ∀ (Row V : Type) (classes : Set (EquivalenceClass ε)) (m : Meaning classes [] Row V)
    (holders : Row → Set Process), locus.UsesClasses classes →
    (∀ pathkey ∈ pathkeys, pathkey.pkEclass ∈ classes) → Placed m locus holders →
    answer = true → ∀ r r',
      (∀ pathkey ∈ pathkeys, m.ecValue pathkey.pkEclass r = m.ecValue pathkey.pkEclass r') →
      holders r = holders r'

/-- The same for the locus that the rows are redistributed to. -/
def CollocatesAfterRedistribute (root : PlannerInfo ε) (locus : CdbPathLocus ε) (workers : ℕ)
    (tles : List (TargetEntry ε)) : Prop :=
  ∀ (Row V : Type) (classes : Set (EquivalenceClass ε)) (m : Meaning classes tles Row V)
    (holders : Row → Set Process), root.Fits m →
    (chooseGroupingLocus root locus workers tles).1 = true →
    Placed m (chooseGroupingLocus root locus workers tles).2 holders →
    ∀ r r', (∀ tle ∈ tles, m.tleValue tle r = m.tleValue tle r') → holders r = holders r'

def allNull (tles : List (TargetEntry ε)) : Meaning (∅ : Set (EquivalenceClass ε)) tles Bool Unit where
  ecValue _ _ := none
  tleValue _ _ := none
  address _ _ _ _ _ := rfl
  merged _ h := h.elim
  constant _ _ _ _ _ := rfl
  member _ _ _ _ _ := rfl
  sortref _ _ _ _ _ _ := rfl

/-- The two rows are in two workers of each segment. -/
def spreadHolders (numsegments : ℤ) (r : Bool) : Set Process :=
  {p | (p.segment : ℤ) < numsegments ∧ p.worker = cond r 1 0}

theorem spreadHolders_ne {numsegments : ℤ} (h : 0 < numsegments) :
    spreadHolders numsegments true ≠ spreadHolders numsegments false := by
  intro heq
  have hin : (⟨0, 1⟩ : Process) ∈ spreadHolders numsegments true := ⟨h, rfl⟩
  rw [heq] at hin
  exact absurd hin.2 Nat.one_ne_zero

omit [DecidableEq ε] in
theorem spreadHolders_placed {locus : CdbPathLocus ε} {tles : List (TargetEntry ε)}
    (hspread : locus.Spread) : Placed (allNull tles) locus (spreadHolders locus.numsegments) := by
  unfold Placed
  rw [hspread.1]
  refine ⟨fun _ r => cond r 1 0, fun _ r => ?_, fun _ => rfl⟩
  have hworkers := hspread.2.1
  cases r <;> simp only [cond_true, cond_false] <;> omega

theorem choose_in_place_of_spread {locus : CdbPathLocus ε} {tles : List (TargetEntry ε)}
    (root : PlannerInfo ε) (workers : ℕ) (hspread : locus.Spread) (hne : tles ≠ []) :
    (chooseGroupingLocus root locus workers tles).1 = false := by
  have hempty : tles.isEmpty = false := by
    rwa [← Bool.not_eq_true, List.isEmpty_iff]
  simp [chooseGroupingLocus, isBottleneck, isHashedOnTlist, isHashedOn, hspread.1, hempty]

/-- **When the planner groups without a Motion, equal rows are together.**  The tests on path keys
and on a target list are right for every locus and every placement, and so is the locus that the
rows are redistributed to.  The choice not to redistribute is right for every placement if and only
if the locus does not spread its rows over the workers of a segment, or there is nothing to group
by. -/
theorem grouping_in_place_iff (root : PlannerInfo ε) {locus : CdbPathLocus ε}
    (hvalid : locus.isValid = true) : (∀ pathkeys exactMatch,
      CollocatesPathkeysWhen locus pathkeys (locus.collocatesPathkeys pathkeys exactMatch)) ∧
    (∀ tles, CollocatesWhen locus tles (locus.collocatesTlist tles)) ∧
    (∀ workers tles, CollocatesAfterRedistribute root locus workers tles) ∧
    ∀ workers tles, CollocatesWhen locus tles (!(chooseGroupingLocus root locus workers tles).1) ↔
      ¬ (locus.Spread ∧ tles ≠ []) := by
  refine ⟨fun pathkeys exactMatch => ?_, fun tles => ?_, fun workers tles => ?_,
    fun workers tles => ⟨?_, ?_⟩⟩
  · intro Row V classes m holders huses hpathkeys hplaced hyes r r' hagree
    exact holders_eq_of_collocatesPathkeys hplaced huses hpathkeys hyes hagree
  · intro Row V classes m holders huses hplaced hyes r r' hagree
    exact holders_eq_of_collocatesTlist hplaced huses hyes hagree
  · intro Row V classes m holders hroot hchoice hplaced r r' hagree
    exact holders_eq_of_redistribute hroot hchoice hplaced hagree
  · -- two equal rows in two workers
    rintro hright ⟨hspread, hne⟩
    have hdistkey : locus.distkey = [] := by
      simp only [CdbPathLocus.isValid, CdbPathLocus.isAnyHashed, hspread.1] at hvalid
      have h : locus.distkey = [] ∧ ¬ locus.numsegments = -1 := by simpa using hvalid
      exact h.1
    refine spreadHolders_ne hspread.2.2 (hright Bool Unit ∅ (allNull tles)
      (spreadHolders locus.numsegments) ?_ (spreadHolders_placed hspread) ?_ true false
      fun _ _ => rfl)
    · intro distkey hin
      rw [hdistkey] at hin
      cases hin
    · rw [choose_in_place_of_spread root workers hspread hne]
      rfl
  · intro hspread Row V classes m holders huses hplaced hyes r r' hagree
    exact holders_eq_of_in_place hvalid huses hplaced (by simpa using hyes) hspread hagree

/-- A table that is distributed by its first column, over three segments. -/
def firstColumnLocus : CdbPathLocus ℕ :=
  .makeHashed [⟨[⟨0, [1], false, false, 0, none⟩], cons_ne_nil _ _⟩] 3 0

def plainInfo : PlannerInfo ℕ := ⟨.makeNull, 3, fun _ => none⟩

/-- The locus of that table is valid and not spread over workers, so rows that are grouped by the
first two columns may stay where they are. -/
theorem firstColumnLocus_in_place : CollocatesWhen firstColumnLocus [⟨1, 0⟩, ⟨2, 0⟩]
      (!(chooseGroupingLocus plainInfo firstColumnLocus 0 [⟨1, 0⟩, ⟨2, 0⟩]).1) := by
  have hvalid : firstColumnLocus.isValid = true := rfl
  refine ((grouping_in_place_iff plainInfo hvalid).2.2.2 0 _).2 ?_
  rintro ⟨⟨htype, -⟩, -⟩
  cases htype

/-- A parallel scan of a replicated table, by two workers on each of three segments. -/
def replicatedScanLocus : CdbPathLocus ℕ := ⟨.segmentGeneralWorkers, [], 3, 2⟩

/-- Two equal rows are in two workers, and yet they are grouped in place. -/
theorem replicatedScan_groups_in_place : replicatedScanLocus.isValid = true ∧
      (chooseGroupingLocus plainInfo replicatedScanLocus 2 [⟨1, 0⟩]).1 = false ∧
      Placed (allNull [⟨1, 0⟩]) replicatedScanLocus (spreadHolders 3) ∧
      (∀ tle ∈ [(⟨1, 0⟩ : TargetEntry ℕ)],
        (allNull [⟨1, 0⟩]).tleValue tle true = (allNull [⟨1, 0⟩]).tleValue tle false) ∧
      spreadHolders 3 true ≠ spreadHolders 3 false := by
  have hspread : replicatedScanLocus.Spread := ⟨rfl, by decide, by decide⟩
  exact ⟨rfl, rfl, spreadHolders_placed hspread, fun _ _ => rfl, spreadHolders_ne (by decide)⟩

end choice

end Cloudberry.Planner
