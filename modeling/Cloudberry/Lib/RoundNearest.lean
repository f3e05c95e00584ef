/-
# Rounding to the nearest floating-point number

A number is rounded to the nearest one with `p` binary digits, of two that are as near to the even
one. The exponent is not bounded. Rounding is monotone, and it leaves a number alone that has at most
`p` digits already, so it passes no power of two and no natural number below `2 ^ p`.
-/

import Mathlib.Data.Int.Log
import Mathlib.Data.Rat.Floor
import Mathlib.Tactic.Linarith

namespace RoundNearest

/-- The nearest integer, of two that are as near the even one. -/
def roundEven (x : ℚ) : ℤ :=
  if x - ⌊x⌋ < 1 / 2 then ⌊x⌋ else if 1 / 2 < x - ⌊x⌋ then ⌊x⌋ + 1 else ⌊x⌋ + ⌊x⌋ % 2

/-- The weight of the last digit. -/
def ulp (p : ℕ) (x : ℚ) : ℚ := 2 ^ (Int.log 2 x + 1 - p)

/-- A number that is not negative, rounded to `p` digits. -/
def nearest (p : ℕ) (x : ℚ) : ℚ := roundEven (x / ulp p x) * ulp p x

/-- Rounding to `p` digits, with a sign. -/
def round (p : ℕ) (x : ℚ) : ℚ := if 0 ≤ x then nearest p x else -nearest p (-x)

/-- A number that is not negative and has at most `p` binary digits. -/
def Representable (p : ℕ) (x : ℚ) : Prop := ∃ z e : ℤ, 0 ≤ z ∧ z < 2 ^ p ∧ x = z * 2 ^ e

variable {p n : ℕ} {x y : ℚ} {z : ℤ}

/-! ### The nearest integer -/

theorem le_roundEven (h : z ≤ x) : z ≤ roundEven x := by
  have hle := Int.le_floor.2 h
  unfold roundEven
  split_ifs <;> omega

theorem roundEven_le (h : x ≤ z) : roundEven x ≤ z := by
  rcases h.lt_or_eq with hlt | rfl
  · have hle := Int.floor_lt.2 hlt
    unfold roundEven
    split_ifs <;> omega
  · simp [roundEven]

theorem roundEven_mono (h : x ≤ y) : roundEven x ≤ roundEven y := by
  rcases (Int.floor_mono h).lt_or_eq with hlt | heq
  · have hx : roundEven x ≤ ⌊x⌋ + 1 := roundEven_le (by exact_mod_cast (Int.lt_floor_add_one x).le)
    have hy : ⌊y⌋ ≤ roundEven y := le_roundEven (Int.floor_le y)
    omega
  · -- between the same two integers
    unfold roundEven
    rw [heq]
    split_ifs <;> first | omega | (exfalso; linarith)

/-! ### The nearest number -/

theorem ulp_pos (p : ℕ) (x : ℚ) : 0 < ulp p x := zpow_pos two_pos _

theorem le_nearest (h : z * ulp p x ≤ x) : z * ulp p x ≤ nearest p x := by
  have hle := le_roundEven ((le_div_iff₀ (ulp_pos p x)).2 h)
  exact mul_le_mul_of_nonneg_right (Int.cast_le.2 hle) (ulp_pos p x).le

theorem nearest_le (h : x ≤ z * ulp p x) : nearest p x ≤ z * ulp p x := by
  have hle := roundEven_le ((div_le_iff₀ (ulp_pos p x)).2 h)
  exact mul_le_mul_of_nonneg_right (Int.cast_le.2 hle) (ulp_pos p x).le

theorem nearest_nonneg (hx : 0 ≤ x) : 0 ≤ nearest p x := by
  simpa using @le_nearest p x 0 (by simpa using hx)

theorem zpow_eq_mul_ulp (n p : ℕ) (x : ℚ) :
    (2 : ℚ) ^ (Int.log 2 x + 1 - p + n) = ((2 ^ n : ℤ) : ℚ) * ulp p x := by
  rw [ulp, zpow_add₀ two_ne_zero, mul_comm]
  norm_cast

theorem nearest_le_zpow (p : ℕ) (x : ℚ) : nearest p x ≤ 2 ^ (Int.log 2 x + 1) := by
  have hlt := Int.lt_zpow_succ_log_self one_lt_two x
  have heq := zpow_eq_mul_ulp p p x
  rw [sub_add_cancel] at heq
  rw [Nat.cast_ofNat, heq] at hlt
  rw [heq]
  exact nearest_le hlt.le

theorem zpow_le_nearest (hp : 0 < p) (hx : 0 < x) : 2 ^ Int.log 2 x ≤ nearest p x := by
  have hle := Int.zpow_log_le_self one_lt_two hx
  have heq := zpow_eq_mul_ulp (p - 1) p x
  rw [show Int.log 2 x + 1 - p + (p - 1 : ℕ) = Int.log 2 x by omega] at heq
  rw [Nat.cast_ofNat, heq] at hle
  rw [heq]
  exact le_nearest hle

/-- **Rounding is monotone**: within one power of two the digits have the same weight, and no power
of two is passed. -/
theorem nearest_mono (hp : 0 < p) (hx : 0 ≤ x) (h : x ≤ y) : nearest p x ≤ nearest p y := by
  rcases hx.eq_or_lt with rfl | hx
  · simpa [nearest, roundEven] using nearest_nonneg h
  have hy : 0 < y := hx.trans_le h
  rcases (Int.log_mono_right hx h : Int.log 2 x ≤ Int.log 2 y).lt_or_eq with hlt | heq
  · calc nearest p x ≤ 2 ^ (Int.log 2 x + 1) := nearest_le_zpow p x
      _ ≤ 2 ^ Int.log 2 y := zpow_le_zpow_right₀ one_le_two (by omega)
      _ ≤ nearest p y := zpow_le_nearest hp hy
  · have hulp : ulp p x = ulp p y := by rw [ulp, heq, ulp]
    rw [nearest, nearest, hulp]
    have hdiv : x / ulp p y ≤ y / ulp p y := div_le_div_of_nonneg_right h (ulp_pos p y).le
    exact mul_le_mul_of_nonneg_right (Int.cast_le.2 (roundEven_mono hdiv)) (ulp_pos p y).le

/-! ### Numbers that are not changed -/

theorem representable_natCast (hn : n < 2 ^ p) : Representable p n :=
  ⟨n, 0, Int.natCast_nonneg n, by exact_mod_cast hn, by simp⟩

theorem representable_zpow (hp : 0 < p) (e : ℤ) : Representable p (2 ^ e) :=
  ⟨1, e, zero_le_one, one_lt_pow₀ one_lt_two hp.ne', by simp⟩

/-- Up to `2 ^ p` every natural number has at most `p` digits. -/
theorem representable_of_le (hp : 0 < p) (hn : n ≤ 2 ^ p) : Representable p n := by
  rcases hn.lt_or_eq with hlt | rfl
  · exact representable_natCast hlt
  · simpa using representable_zpow hp p

theorem Representable.nonneg (h : Representable p x) : 0 ≤ x := by
  obtain ⟨z, e, hz, -, rfl⟩ := h
  exact mul_nonneg (Int.cast_nonneg hz) (zpow_pos two_pos e).le

theorem Representable.nearest_eq (h : Representable p x) : nearest p x = x := by
  obtain ⟨z, e, hz, hzp, rfl⟩ := h
  rcases hz.eq_or_lt with rfl | hz
  · simp [nearest, roundEven]
  have hpos : (0 : ℚ) < z * 2 ^ e := mul_pos (Int.cast_pos.2 hz) (zpow_pos two_pos e)
  have hlog : Int.log 2 ((z : ℚ) * 2 ^ e) < p + e := by
    refine (Int.lt_zpow_iff_log_lt one_lt_two hpos).1 ?_
    rw [Nat.cast_ofNat, zpow_add₀ two_ne_zero]
    exact mul_lt_mul_of_pos_right (by exact_mod_cast hzp) (zpow_pos two_pos e)
  -- so the last digit weighs at most `2 ^ e`, and the number is a multiple of it
  obtain ⟨k, hk⟩ := Int.eq_ofNat_of_zero_le
    (by omega : 0 ≤ e - (Int.log 2 ((z : ℚ) * 2 ^ e) + 1 - p))
  have hmul : (z : ℚ) * 2 ^ e = (z * 2 ^ k : ℤ) * ulp p ((z : ℚ) * 2 ^ e) := by
    have hpow := zpow_eq_mul_ulp k p ((z : ℚ) * 2 ^ e)
    rw [← hk, add_sub_cancel] at hpow
    rw [Int.cast_mul, mul_assoc, ← hpow]
  exact le_antisymm ((nearest_le hmul.le).trans hmul.ge) (hmul.le.trans (le_nearest hmul.ge))

theorem representable_nearest (hp : 0 < p) (hx : 0 ≤ x) : Representable p (nearest p x) := by
  have hpow := nearest_le_zpow p x
  rcases hpow.lt_or_eq with hlt | heq
  · refine ⟨roundEven (x / ulp p x), Int.log 2 x + 1 - p, ?_, ?_, rfl⟩
    · exact le_roundEven (by simpa using div_nonneg hx (ulp_pos p x).le)
    · have hmul := zpow_eq_mul_ulp p p x
      rw [sub_add_cancel] at hmul
      rw [hmul, nearest] at hlt
      exact_mod_cast lt_of_mul_lt_mul_right hlt (ulp_pos p x).le
  · rw [heq]
    exact representable_zpow hp _

theorem Representable.ceil (h : Representable p x) : Representable p ⌈x⌉ := by
  obtain ⟨z, e, hz, hzp, rfl⟩ := h
  rcases le_or_gt 0 e with he | he
  · obtain ⟨k, rfl⟩ := Int.eq_ofNat_of_zero_le he
    refine ⟨z, k, hz, hzp, ?_⟩
    have hint : (z : ℚ) * 2 ^ (k : ℤ) = (z * 2 ^ k : ℤ) := by push_cast; rfl
    rw [hint, Int.ceil_intCast]
  · have hle : (z : ℚ) * 2 ^ e ≤ z :=
      mul_le_of_le_one_right (Int.cast_nonneg hz) (zpow_le_one_of_nonpos₀ one_le_two he.le)
    refine ⟨⌈(z : ℚ) * 2 ^ e⌉, 0, ?_, (Int.ceil_le.2 hle).trans_lt hzp, by simp⟩
    exact Int.ceil_nonneg (mul_nonneg (Int.cast_nonneg hz) (zpow_pos two_pos e).le)

theorem nearest_le_natCast (hp : 0 < p) (hx : 0 ≤ x) (hn : n < 2 ^ p) (h : x ≤ n) :
    nearest p x ≤ n :=
  (nearest_mono hp hx h).trans (representable_natCast hn).nearest_eq.le

theorem natCast_le_nearest (hp : 0 < p) (hn : n < 2 ^ p) (h : n ≤ x) : n ≤ nearest p x :=
  (representable_natCast hn).nearest_eq.ge.trans (nearest_mono hp (Nat.cast_nonneg n) h)

/-! ### With a sign -/

theorem round_mono (hp : 0 < p) (h : x ≤ y) : round p x ≤ round p y := by
  unfold round
  split_ifs with hx hy hy
  · exact nearest_mono hp hx h
  · exact absurd (hx.trans h) hy
  · exact (neg_nonpos.2 (nearest_nonneg (by linarith))).trans (nearest_nonneg hy)
  · exact neg_le_neg (nearest_mono hp (by linarith) (by linarith))

theorem Representable.round_eq (h : Representable p x) : round p x = x := by
  rw [round, if_pos h.nonneg, h.nearest_eq]

/-- What is rounded, then rounded up and cut off at 0, has at most `p` digits again. -/
theorem representable_ceil_round (hp : 0 < p) (x : ℚ) :
    Representable p (max (⌈round p x⌉ : ℚ) 0) := by
  by_cases hx : 0 ≤ x
  · have hceil := (representable_nearest hp hx).ceil
    rwa [round, if_pos hx, max_eq_left hceil.nonneg]
  · have hneg : (⌈round p x⌉ : ℚ) ≤ 0 := by
      rw [round, if_neg hx]
      exact_mod_cast Int.ceil_le.2 (by simpa using nearest_nonneg (by linarith : 0 ≤ -x))
    rw [max_eq_right hneg]
    simpa using representable_natCast (pow_pos two_pos p)

end RoundNearest
