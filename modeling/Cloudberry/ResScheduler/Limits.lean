/-
# The limits of a resource queue

`src/backend/utils/resscheduler/resqueue.c`, with `TotalResPortalIncrements` of
`src/backend/utils/mmgr/portalmem.c`.

A queue limits the number of active statements, their cost and their memory.
Whether a request runs, waits or is refused is decided by two functions with
different rules: the limit check compares the queue's current values, the self
deadlock check the totals of the backend's own portals. `Cost` is a `double`: a
rational number here, with sums that are rounded (`addCost`).
-/

import Cloudberry.Lib.RoundNearest
import Mathlib.Algebra.Order.BigOperators.Group.List

namespace Cloudberry.ResScheduler

open Int Bool List RoundNearest

/-- `RES_COUNT_LIMIT`, `RES_COST_LIMIT` and `RES_MEMORY_LIMIT`. -/
inductive ResLimitType
  | count
  | cost
  | memory
  deriving DecidableEq, Repr

/-- The `increments` of a `ResPortalIncrement`: what a portal adds to each
counter. -/
abbrev Increments := ResLimitType → ℚ

/-- The increments of a statement as `ResLockPortal` sets them up: each portal
counts one. -/
def portalIncrements (cost memory : ℚ) : Increments
  | .count => 1
  | .cost => cost
  | .memory => memory

/-- `ResQueueData`; a threshold that is `INVALID_RES_LIMIT_THRESHOLD` is `none`. -/
structure ResQueue where
  thresholdValue : ResLimitType → Option ℚ
  currentValue : ResLimitType → ℚ
  overcommit : Bool
  ignoreCostLimit : ℚ

/-- `LIMIT_CHECK_OK`, `LIMIT_CHECK_FOUND` and `LIMIT_CHECK_ERROR`. -/
inductive LimitCheck
  | ok
  | found
  | error
  deriving DecidableEq, Repr

/-- The sum of two values of a counter, rounded to the 53 binary digits of a `double`. The counter of
statements moves by one and has no more than a C `int` can count, so its sums are exact. -/
def addCost : ResLimitType → ℚ → ℚ → ℚ
  | .count, a, b => a + b
  | _, a, b => round 53 (a + b)

/-- A value that a counter can have. -/
def IsCost (i : ResLimitType) (a : ℚ) : Prop := i = .count ∨ Representable 53 a

/-- Whether a value is above a threshold, if there is one. -/
def above : Option ℚ → ℚ → Bool
  | none, _ => false
  | some threshold, value => decide (threshold < value)

theorem above_mono {threshold : Option ℚ} {v w : ℚ} (hvw : v ≤ w)
    (hv : above threshold v = true) : above threshold w = true := by
  cases threshold with
  | none => exact hv
  | some t =>
    simp only [above, decide_eq_true_eq] at hv ⊢
    exact lt_of_lt_of_le hv hvw

namespace ResQueue

section

variable (queue : ResQueue) (inc : Increments)

/-- The counter would pass its threshold. -/
def exceeds (i : ResLimitType) : Bool :=
  above (queue.thresholdValue i) (addCost i (queue.currentValue i) (inc i))

/-- `over_limit` as one turn of the loop of `ResLockCheckLimit` sets it. With
overcommit a statement may blow out the cost limit if nobody else is active; the
count and memory limits do not look at overcommit. -/
def overLimit : ResLimitType → Bool
  | .count => queue.exceeds inc .count
  | .cost =>
    if queue.overcommit then
      queue.exceeds inc .cost && decide ((1 : ℚ) / 10 < queue.currentValue .cost)
    else queue.exceeds inc .cost
  | .memory => queue.exceeds inc .memory

/-- `will_overcommit`: the statement alone is above the cost threshold. -/
def willOvercommit : Bool :=
  above (queue.thresholdValue .cost) (inc .cost)

/-- `ResLockCheckLimit` with `increment` true. -/
def resLockCheckLimit : LimitCheck :=
  if queue.willOvercommit inc && !queue.overcommit then .error
  else if queue.overLimit inc .count || queue.overLimit inc .cost || queue.overLimit inc .memory then
    .found
  else .ok

/-- `ResLockUpdateLimit`: the counters move by the increments, rounded up and
never below 0. -/
def resLockUpdateLimit (increment : Bool) : ResQueue :=
  { queue with
    currentValue := fun i =>
      max (⌈addCost i (queue.currentValue i) (if increment then inc i else -1 * inc i)⌉ : ℚ) 0 }

end

/-- What `TotalResPortalIncrements` adds up for one counter. -/
def totalIncrements (i : ResLimitType) (own : List Increments) : ℚ :=
  (own.map (· i)).foldl (addCost i) 0

/-- `ResCheckSelfDeadLock` without the grant it makes: `own` are the increments
that `TotalResPortalIncrements` adds up and counts. -/
def resCheckSelfDeadLock (queue : ResQueue) (own : List Increments) : Bool :=
  let overcommitted i := above (queue.thresholdValue i) (totalIncrements i own)
  if queue.overcommit && own.length == 1 && !overcommitted .count then false
  else overcommitted .count || overcommitted .cost || overcommitted .memory

variable {i : ResLimitType} {queue : ResQueue} {inc : Increments}

/-! ### Sums -/

theorem isCost_natCast {n : ℕ} (h : i = .count ∨ n ≤ 2 ^ 53) : IsCost i n :=
  h.imp_right (representable_of_le (by decide))

theorem addCost_of_isCost {a b : ℚ} (h : IsCost i (a + b)) : addCost i a b = a + b := by
  rcases h with rfl | h
  · rfl
  · cases i with
    | count => rfl
    | cost => exact h.round_eq
    | memory => exact h.round_eq

theorem addCost_mono {a a' : ℚ} (b : ℚ) (h : a ≤ a') : addCost i a b ≤ addCost i a' b := by
  have hle : a + b ≤ a' + b := by linarith
  cases i with
  | count => exact hle
  | cost => exact round_mono (by decide) hle
  | memory => exact round_mono (by decide) hle

/-- Whole numbers whose sum is at most `2 ^ 53` are added up exactly. -/
theorem totalIncrements_eq {own : List Increments} (hwhole : ∀ inc ∈ own, ∃ k : ℕ, inc i = k)
    (hsmall : i = .count ∨ (own.map (· i)).sum ≤ 2 ^ 53) :
    totalIncrements i own = (own.map (· i)).sum := by
  have hfold : ∀ n : ℕ, (i = .count ∨ n + (own.map (· i)).sum ≤ 2 ^ 53) →
      (own.map (· i)).foldl (addCost i) n = n + (own.map (· i)).sum := by
    clear hsmall
    induction own with
    | nil => simp
    | cons inc own ih =>
      intro n hn
      obtain ⟨k, hk⟩ := hwhole inc mem_cons_self
      have hnonneg : 0 ≤ (own.map (· i)).sum := by
        refine sum_nonneg fun x hx => ?_
        obtain ⟨inc', hmem, rfl⟩ := mem_map.1 hx
        obtain ⟨k', hk'⟩ := hwhole inc' (mem_cons_of_mem _ hmem)
        rw [hk']
        exact Nat.cast_nonneg k'
      rw [map_cons, sum_cons, hk, ← add_assoc, ← Nat.cast_add] at hn ⊢
      have hstep : addCost i n (k : ℚ) = ((n + k : ℕ) : ℚ) := by
        rw [Nat.cast_add]
        refine addCost_of_isCost ?_
        rw [← Nat.cast_add]
        refine isCost_natCast (hn.imp_right fun h => ?_)
        exact_mod_cast (le_add_of_nonneg_right hnonneg).trans h
      rw [foldl_cons, hstep]
      exact ih (fun inc' hmem => hwhole inc' (mem_cons_of_mem _ hmem)) (n + k) hn
  simpa [totalIncrements] using hfold 0 (by simpa using hsmall)

/-- Increments that a counter adds up without rounding: whole numbers, whose sums a `double` holds
exactly. -/
structure AddsUp (incs : List Increments) : Prop where
  whole : ∀ inc ∈ incs, ∀ i, ∃ k : ℕ, inc i = k
  small : ∀ i, i = .count ∨ (incs.map (· i)).sum ≤ 2 ^ 53

theorem AddsUp.nonneg {incs : List Increments} (h : AddsUp incs) {inc : Increments}
    (hinc : inc ∈ incs) (i : ResLimitType) : 0 ≤ inc i := by
  obtain ⟨n, hn⟩ := h.whole inc hinc i
  rw [hn]
  exact Nat.cast_nonneg n

theorem AddsUp.mono {incs incs' : List Increments} (h : AddsUp incs) (hsub : incs'.Subperm incs) :
    AddsUp incs' := by
  refine ⟨fun inc hinc => h.whole inc (hsub.subset hinc), fun i => (h.small i).imp_right ?_⟩
  obtain ⟨mid, hperm, hsublist⟩ := hsub
  rw [← (hperm.map (· i)).sum_eq]
  refine ((hsublist.map (· i)).sum_le_sum fun x hx => ?_).trans
  obtain ⟨inc, hinc, rfl⟩ := mem_map.1 hx
  exact h.nonneg hinc i

theorem AddsUp.exists_nat {incs : List Increments} (h : AddsUp incs) (i : ResLimitType) :
    ∃ n : ℕ, (incs.map (· i)).sum = n ∧ (i = .count ∨ n ≤ 2 ^ 53) := by
  obtain ⟨n, hn⟩ : ∃ n : ℕ, (incs.map (· i)).sum = n := by
    have hwhole := h.whole
    clear h
    induction incs with
    | nil => exact ⟨0, by simp⟩
    | cons inc incs ih =>
      obtain ⟨k, hk⟩ := hwhole inc mem_cons_self i
      obtain ⟨n, hn⟩ := ih fun inc' hmem => hwhole inc' (mem_cons_of_mem _ hmem)
      exact ⟨k + n, by rw [map_cons, sum_cons, hk, hn, Nat.cast_add]⟩
  refine ⟨n, hn, (h.small i).imp_right fun hle => ?_⟩
  rw [hn] at hle
  exact_mod_cast hle

/-- Counting up is exact for whole numbers with a sum of at most `2 ^ 53`. -/
theorem resLockUpdateLimit_up {n k : ℕ} (hn : queue.currentValue i = n) (hk : inc i = k)
    (hsmall : i = .count ∨ n + k ≤ 2 ^ 53) :
    (queue.resLockUpdateLimit inc true).currentValue i = ((n + k : ℕ) : ℚ) := by
  have hsum : addCost i (n : ℚ) k = ((n + k : ℕ) : ℚ) := by
    rw [Nat.cast_add]
    refine addCost_of_isCost ?_
    rw [← Nat.cast_add]
    exact isCost_natCast hsmall
  simp only [resLockUpdateLimit, hn, hk, if_true, hsum, ceil_natCast, cast_natCast]
  exact max_eq_left (Nat.cast_nonneg _)

/-- Counting down is exact if what is left is at most `2 ^ 53`. -/
theorem resLockUpdateLimit_down {n k : ℕ} (hn : queue.currentValue i = ((n + k : ℕ) : ℚ))
    (hk : inc i = k) (hsmall : i = .count ∨ n ≤ 2 ^ 53) :
    (queue.resLockUpdateLimit inc false).currentValue i = n := by
  have hsub : ((n + k : ℕ) : ℚ) + -1 * (k : ℚ) = n := by
    push_cast
    ring
  have hsum : addCost i ((n + k : ℕ) : ℚ) (-1 * k) = n := by
    rw [addCost_of_isCost (by rw [hsub]; exact isCost_natCast hsmall), hsub]
  simp only [resLockUpdateLimit, hn, hk, false_eq_true, if_false, hsum, ceil_natCast, cast_natCast]
  exact max_eq_left (Nat.cast_nonneg _)

/-- A counter that has been moved has a value it can have. -/
theorem isCost_resLockUpdateLimit (queue : ResQueue) (inc : Increments) (up : Bool)
    (i : ResLimitType) : IsCost i ((queue.resLockUpdateLimit inc up).currentValue i) := by
  cases i with
  | count => exact .inl rfl
  | cost => exact .inr (representable_ceil_round (by decide) _)
  | memory => exact .inr (representable_ceil_round (by decide) _)

/-- Rounding does not take a counter back below the value it had. -/
theorem currentValue_le_up (hcost : IsCost i (queue.currentValue i)) (hinc : 0 ≤ inc i) :
    queue.currentValue i ≤ (queue.resLockUpdateLimit inc true).currentValue i := by
  have hself : addCost i (queue.currentValue i - inc i) (inc i) = queue.currentValue i := by
    rw [addCost_of_isCost (by rwa [sub_add_cancel]), sub_add_cancel]
  simp only [resLockUpdateLimit, if_true]
  calc queue.currentValue i = addCost i (queue.currentValue i - inc i) (inc i) := hself.symm
    _ ≤ addCost i (queue.currentValue i) (inc i) := addCost_mono _ (by linarith)
    _ ≤ ⌈addCost i (queue.currentValue i) (inc i)⌉ := le_ceil _
    _ ≤ max (⌈addCost i (queue.currentValue i) (inc i)⌉ : ℚ) 0 := le_max_left _ _

section Compare

variable {queue queue' : ResQueue} {inc : Increments}

/-- Two moments of a queue whose limits are unchanged. -/
structure SameLimits (queue queue' : ResQueue) : Prop where
  thresholdValue : queue'.thresholdValue = queue.thresholdValue
  overcommit : queue'.overcommit = queue.overcommit

theorem sameLimits_up (inc : Increments) (up : Bool) :
    SameLimits queue (queue.resLockUpdateLimit inc up) := ⟨rfl, rfl⟩

section

variable (h : SameLimits queue queue')
include h

theorem SameLimits.symm : SameLimits queue' queue := ⟨h.thresholdValue.symm, h.overcommit.symm⟩

theorem SameLimits.trans {queue'' : ResQueue} (h' : SameLimits queue' queue'') :
    SameLimits queue queue'' :=
  ⟨h'.thresholdValue.trans h.thresholdValue, h'.overcommit.trans h.overcommit⟩

theorem SameLimits.resCheckSelfDeadLock (own : List Increments) :
    queue'.resCheckSelfDeadLock own = queue.resCheckSelfDeadLock own := by
  simp [ResQueue.resCheckSelfDeadLock, h.thresholdValue, h.overcommit]

end

theorem resLockCheckLimit_eq_error : queue.resLockCheckLimit inc = .error ↔
    queue.willOvercommit inc = true ∧ queue.overcommit = false := by
  unfold resLockCheckLimit
  split
  · simp_all
  · refine iff_of_false ?_ (by simp_all)
    split <;> simp

theorem resLockCheckLimit_eq_found : queue.resLockCheckLimit inc = .found ↔
    queue.resLockCheckLimit inc ≠ .error ∧ ∃ i, queue.overLimit inc i = true := by
  have hany : (queue.overLimit inc .count || queue.overLimit inc .cost ||
      queue.overLimit inc .memory) = true ↔ ∃ i, queue.overLimit inc i = true := by
    simp only [or_eq_true]
    constructor
    · rintro ((h | h) | h) <;> exact ⟨_, h⟩
    rintro ⟨i, h⟩
    cases i with
    | count => exact .inl (.inl h)
    | cost => exact .inl (.inr h)
    | memory => exact .inr h
  rw [← hany]
  unfold resLockCheckLimit
  split
  · simp
  · split <;> simp_all

theorem exceeds_of_overLimit (hover : queue.overLimit inc i = true) :
    queue.exceeds inc i = true := by
  cases i with
  | count => exact hover
  | memory => exact hover
  | cost =>
    rw [overLimit] at hover
    split at hover
    · exact (and_eq_true_iff.1 hover).1
    · exact hover

variable (h : SameLimits queue queue')
include h

/-- Whether a request is refused for good does not depend on the counters. -/
theorem SameLimits.error_iff :
    queue'.resLockCheckLimit inc = .error ↔ queue.resLockCheckLimit inc = .error := by
  rw [resLockCheckLimit_eq_error, resLockCheckLimit_eq_error, willOvercommit, h.thresholdValue,
    h.overcommit, willOvercommit]

variable (hle : ∀ i, queue.currentValue i ≤ queue'.currentValue i)
include hle

theorem overLimit_mono (hover : queue.overLimit inc i = true) : queue'.overLimit inc i = true := by
  have hexceeds : ∀ i, queue.exceeds inc i = true → queue'.exceeds inc i = true := by
    intro i hi
    rw [exceeds, h.thresholdValue]
    exact above_mono (addCost_mono _ (hle i)) hi
  cases i with
  | count => exact hexceeds _ hover
  | memory => exact hexceeds _ hover
  | cost =>
    simp only [overLimit, h.overcommit] at hover ⊢
    split at hover
    · rw [if_pos ‹_›]
      rw [and_eq_true, decide_eq_true_eq] at hover ⊢
      exact ⟨hexceeds _ hover.1, lt_of_lt_of_le hover.2 (hle .cost)⟩
    · rw [if_neg ‹_›]
      exact hexceeds _ hover

/-- **A request that has to wait still has to when the counters have grown.** -/
theorem found_of_le (hfound : queue.resLockCheckLimit inc = .found) :
    queue'.resLockCheckLimit inc = .found := by
  obtain ⟨hnot, i, hi⟩ := resLockCheckLimit_eq_found.1 hfound
  exact resLockCheckLimit_eq_found.2 ⟨mt h.error_iff.1 hnot, i, overLimit_mono h hle hi⟩

theorem ok_of_le (hok : queue'.resLockCheckLimit inc = .ok) :
    queue.resLockCheckLimit inc = .ok := by
  cases hcheck : queue.resLockCheckLimit inc with
  | ok => rfl
  | error =>
    rw [h.error_iff.2 hcheck] at hok
    cases hok
  | found =>
    rw [found_of_le h hle hcheck] at hok
    cases hok

end Compare

end ResQueue
end Cloudberry.ResScheduler
