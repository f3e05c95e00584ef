/-
# Lists cut at separators

A list in which some elements are separators is a sequence of segments, the last of them still
open. `afterSeps m` is what follows the `m`-th separator, `segment i` is what stands between two
of them. A stream that grows at its end only changes the open segment.
-/

import Mathlib.Data.List.TakeWhile

namespace Segments

open List

variable {α : Type*} (sep : α → Bool)

/-- What comes after the first `m` separators. -/
def afterSeps : ℕ → List α → List α
  | 0, l => l
  | m + 1, l => ((afterSeps m l).dropWhile fun x => !sep x).tail

/-- What stands before the next separator, after the first `i` ones. -/
def segment (i : ℕ) (l : List α) : List α := (afterSeps sep i l).takeWhile fun x => !sep x

variable {sep} {l : List α} {x : α} {m : ℕ}

theorem dropWhile_not_eq_nil : (l.dropWhile fun x => !sep x) = [] ↔ l.countP sep = 0 := by
  simp

/-- Dropping up to a separator leaves a list that begins with one. -/
theorem countP_tail_dropWhile_not (l : List α) :
    (l.dropWhile fun x => !sep x).tail.countP sep = l.countP sep - 1 := by
  induction l with
  | nil => rfl
  | cons y l ih =>
    cases hy : sep y
    · simpa [dropWhile_cons, hy] using ih
    · simp [hy]

theorem countP_afterSeps (m : ℕ) (l : List α) :
    (afterSeps sep m l).countP sep = l.countP sep - m := by
  induction m with
  | zero => rfl
  | succ m ih => rw [afterSeps, countP_tail_dropWhile_not, ih, Nat.sub_sub]

theorem afterSeps_eq_nil (h : l.countP sep < m) : afterSeps sep m l = [] := by
  cases m with
  | zero => exact absurd h (Nat.not_lt_zero _)
  | succ m =>
    have hzero : (afterSeps sep m l).countP sep = 0 := by
      rw [countP_afterSeps]
      omega
    rw [afterSeps, dropWhile_not_eq_nil.2 hzero, tail_nil]

/-- An element added at the end stays at the end. -/
theorem afterSeps_append (h : m ≤ l.countP sep) :
    afterSeps sep m (l ++ [x]) = afterSeps sep m l ++ [x] := by
  induction m with
  | zero => rfl
  | succ m ih =>
    have hne : ((afterSeps sep m l).dropWhile fun x => !sep x) ≠ [] := by
      rw [Ne, dropWhile_not_eq_nil, countP_afterSeps]
      omega
    rw [afterSeps, ih (by omega), dropWhile_append, if_neg (by simpa using hne), afterSeps,
      tail_append_of_ne_nil hne]

/-- A closed segment does not change. -/
theorem segment_append_of_lt (h : m < l.countP sep) :
    segment sep m (l ++ [x]) = segment sep m l := by
  rw [segment, afterSeps_append h.le, takeWhile_append, if_neg, segment]
  intro hlen
  have hall := takeWhile_eq_self_iff.1 (( takeWhile_prefix _).eq_of_length hlen)
  have hzero : (afterSeps sep m l).countP sep = 0 :=
    countP_eq_zero.2 fun y hy => by simpa using hall y hy
  rw [countP_afterSeps] at hzero
  omega

/-- The open segment is all that is left. -/
theorem segment_eq_afterSeps (h : l.countP sep ≤ m) : segment sep m l = afterSeps sep m l := by
  have hzero : (afterSeps sep m l).countP sep = 0 := by
    rw [countP_afterSeps]
    omega
  rw [segment, takeWhile_eq_self_iff]
  intro y hy
  simpa using countP_eq_zero.1 hzero y hy

/-- The open segment grows. -/
theorem segment_append_of_not_sep (h : l.countP sep = m) (hx : sep x = false) :
    segment sep m (l ++ [x]) = segment sep m l ++ [x] := by
  have hcount : (l ++ [x]).countP sep = m := by simp [h, hx]
  rw [segment_eq_afterSeps hcount.le, segment_eq_afterSeps h.le, afterSeps_append h.ge]

/-- A separator closes the open segment. -/
theorem segment_append_sep (h : l.countP sep = m) (hx : sep x = true) :
    segment sep m (l ++ [x]) = segment sep m l := by
  rw [segment, afterSeps_append h.ge, ← segment_eq_afterSeps h.le, takeWhile_append]
  have hall : (segment sep m l).takeWhile (fun x => !sep x) = segment sep m l := by
    rw [segment, takeWhile_takeWhile]
    simp
  rw [hall, if_pos rfl]
  simp [hx]

/-- Nothing comes after a separator that closes the open segment. -/
theorem afterSeps_append_sep (h : l.countP sep = m) (hx : sep x = true) :
    afterSeps sep (m + 1) (l ++ [x]) = [] := by
  have hzero : (afterSeps sep m l).countP sep = 0 := by
    rw [countP_afterSeps]
    omega
  rw [afterSeps, afterSeps_append h.ge, dropWhile_append,
    if_pos (by simpa using dropWhile_not_eq_nil.2 hzero)]
  simp [hx]

end Segments
