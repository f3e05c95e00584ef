/-
# A ring buffer with holes

A ring of `cap` slots is a window `[base, base + cap)` on an infinite array: the element with
number `i` is at `i % cap`. Elements may be put into the window in any order; the window moves on
by one when its first element is taken.
-/

import Mathlib.Order.Interval.Finset.Nat

namespace RingWindow

open Function

variable {α : Type*}

/-- The ring shows the part of the array that is in the window. -/
def Shows (ring : ℕ → Option α) (cap base : ℕ) (array : ℕ → Option α) : Prop :=
  ∀ i, base ≤ i → i < base + cap → ring (i % cap) = array i

variable {ring array : ℕ → Option α} {cap base i j : ℕ}

/-- Two places of the window do not share a slot. -/
theorem mod_inj (hi : base ≤ i) (hi' : i < base + cap) (hj : base ≤ j) (hj' : j < base + cap)
    (h : i % cap = j % cap) : i = j :=
  Nat.mod_injOn_Ico base cap (by simp [hi, hi']) (by simp [hj, hj']) h

theorem Shows.put (h : Shows ring cap base array) (hi : base ≤ i) (hi' : i < base + cap)
    (v : Option α) : Shows (update ring (i % cap) v) cap base (update array i v) := by
  intro j hj hj'
  by_cases hji : j = i
  · rw [hji, update_self, update_self]
  · have hne : j % cap ≠ i % cap := fun heq => hji (mod_inj hj hj' hi hi' heq)
    rw [update_of_ne hne, update_of_ne hji]
    exact h j hj hj'

/-- The first element is taken; what comes into the window is empty. -/
theorem Shows.pop (h : Shows ring cap base array) (hnext : array (base + cap) = none) :
    Shows (update ring (base % cap) none) cap (base + 1) array := by
  intro j hj hj'
  by_cases hlast : j = base + cap
  · rw [hlast, Nat.add_mod_right, update_self, hnext]
  have hlt : j < base + cap := by omega
  have hne : j % cap ≠ base % cap := fun heq => by
    have hbase := mod_inj (by omega : base ≤ j) hlt le_rfl (by omega) heq
    omega
  rw [update_of_ne hne]
  exact h j (by omega) hlt

end RingWindow
