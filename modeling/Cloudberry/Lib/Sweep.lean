/-
# One pass over the waiters

A resource is handed out by one pass over a list of waiters: each one in turn is
tested against what is left and, if the test passes, takes its share. Nothing
below knows what the resource is.

When taking a share never makes a test pass that failed before, one pass is
enough: nobody who is still waiting at its end would pass the test
(`sweep_refused`), although most of them were tested before the last share was
taken.
-/

import Mathlib.Data.List.Basic

namespace Sweep

variable {σ α : Type*}

/-- The pass: `take` for everybody whose `test` passes when it is their turn. -/
def sweep (test : σ → α → Bool) (take : σ → α → σ) : List α → σ → σ
  | [], s => s
  | a :: as, s => sweep test take as (if test s a then take s a else s)

variable {test : σ → α → Bool} {take : σ → α → σ}

/-- The rule for a pass: `P as s` speaks about the waiters `as` whose turn is
still to come. -/
theorem sweep_rule {P : List α → σ → Prop}
    (hskip : ∀ a as s, P (a :: as) s → test s a = false → P as s)
    (htake : ∀ a as s, P (a :: as) s → test s a = true → P as (take s a)) {as : List α} {s : σ}
    (hs : P as s) : P [] (sweep test take as s) := by
  induction as generalizing s with
  | nil => exact hs
  | cons a as ih =>
    refine ih ?_
    cases htest : test s a with
    | false => exact hskip a as s hs htest
    | true => exact htake a as s hs htest

/-- What a single grant keeps, the pass keeps. -/
theorem sweep_induct {P : σ → Prop} {as : List α}
    (htake : ∀ s, ∀ a ∈ as, P s → test s a = true → P (take s a)) {s : σ} (hs : P s) :
    P (sweep test take as s) := by
  induction as generalizing s with
  | nil => exact hs
  | cons a as ih =>
    refine ih (fun s b hb => htake s b (List.mem_cons_of_mem _ hb)) ?_
    split
    · exact htake s a List.mem_cons_self hs ‹_›
    · exact hs

section Refused

variable {P : σ → Prop} {as : List α} (htake : ∀ s, ∀ a ∈ as, P s → test s a = true → P (take s a))
  (hmono : ∀ s, ∀ a ∈ as, ∀ b, P s → test s a = true → test (take s a) b = true → test s b = true)

include htake hmono

/-- A test that failed still fails when the pass has gone on. -/
theorem sweep_mono {s : σ} {b : α} (hs : P s) (hb : test (sweep test take as s) b = true) :
    test s b = true := by
  refine (sweep_induct (P := fun t => P t ∧ (test t b = true → test s b = true)) ?_
    ⟨hs, fun h => h⟩).2 hb
  rintro t a ha ⟨ht, hkeep⟩ hpass
  exact ⟨htake t a ha ht hpass, fun h => hkeep (hmono t a ha b ht hpass h)⟩

/-- **One pass leaves nobody behind who would pass.** `w s b`: in the state
`s` the waiter `b` has not been given its share. -/
theorem sweep_refused {w : σ → α → Prop}
    (hwaits : ∀ s a b, P s → test s a = true → w (take s a) b → w s b ∧ b ≠ a) {s : σ}
    {b : α} (hs : P s) (hmem : b ∈ as) (hb : w (sweep test take as s) b) :
    test (sweep test take as s) b = false := by
  induction as generalizing s with
  | nil => exact absurd hmem List.not_mem_nil
  | cons a as ih =>
    have htake' : ∀ s, ∀ a ∈ as, P s → test s a = true → P (take s a) :=
      fun s c hc => htake s c (List.mem_cons_of_mem _ hc)
    have hmono' := fun s c hc => hmono s c (List.mem_cons_of_mem a hc)
    have hnext : P (if test s a then take s a else s) := by
      split
      · exact htake s a List.mem_cons_self hs ‹_›
      · exact hs
    rcases List.mem_cons.1 hmem with rfl | hmem
    · -- the waiter itself: refused at its turn, or it would not wait any more
      have hstill : w (if test s b then take s b else s) b := by
        refine (sweep_induct
          (P := fun t => P t ∧ (w t b → w (if test s b then take s b else s) b)) ?_
          ⟨hnext, fun h => h⟩).2 hb
        rintro t a ha ⟨ht, hkeep⟩ hpass
        exact ⟨htake' t a ha ht hpass, fun h => hkeep (hwaits t a b ht hpass h).1⟩
      cases htest : test s b with
      | false =>
        rw [Bool.eq_false_iff]
        intro hpass
        simp only [sweep, htest, Bool.false_eq_true, if_false] at hpass
        rw [sweep_mono htake' hmono' hs hpass] at htest
        cases htest
      | true =>
        rw [htest, if_pos rfl] at hstill
        exact absurd rfl (hwaits s b b hs htest hstill).2
    · exact ih htake' hmono' hnext hmem hb

end Refused

end Sweep
