/-
# Jump consistent hash

`jump_consistent_hash` of `cdbhash.c` jumps from segment to segment, each time a distance that only
depends on the key, and returns the last one below the number of segments. The distance is computed
in doubles, and rounding never makes it zero; so the jumps are the same for every number of segments.
-/

import Cloudberry.Lib.RoundNearest

namespace Cloudberry.LegacyHash

open RoundNearest

/-- An integer or the exact result of an operation as a `double`. -/
def toDouble : ℚ → ℚ := nearest 53

/-- A `double` as an `int64`, if it is not out of range. -/
def toInt64 (x : ℚ) : Option ℤ :=
  let truncated := if 0 ≤ x then ⌊x⌋ else ⌈x⌉
  if -2 ^ 63 ≤ truncated ∧ truncated < 2 ^ 63 then some truncated else none

/-- The update of the key. -/
def nextKey (key : BitVec 64) : BitVec 64 := key * 2862933555777941757#64 + 1#64

/-- Where the jump from `b` goes, with the key updated already. -/
def jump (key : BitVec 64) (b : ℤ) : Option ℤ :=
  toInt64 (toDouble (toDouble (b + 1) *
    toDouble (toDouble (2 ^ 31) / toDouble ((key >>> 33 + 1#64).toNat))))

/-- The loop, which does not end if there is not enough `fuel` or a conversion is out of range. -/
def jumpLoop (numSegments : ℤ) : ℕ → BitVec 64 → ℤ → ℤ → Option ℤ
  | 0, _, _, _ => none
  | fuel + 1, key, b, j =>
    if j < numSegments then
      (jump (nextKey key) j).bind (jumpLoop numSegments fuel (nextKey key) j)
    else some b

/-- `jump_consistent_hash`: the loop starts before the first segment. -/
def jumpConsistentHash (fuel : ℕ) (key : BitVec 64) (numSegments : ℤ) : Option ℤ :=
  jumpLoop numSegments fuel key (-1) 0

theorem toDouble_natCast {n : ℕ} (hn : n ≤ 2 ^ 31) : toDouble n = n :=
  (representable_natCast (hn.trans_lt (by decide))).nearest_eq

/-- The factor a segment number is multiplied with is at least one. -/
theorem factor_bounds {d : ℕ} (hpos : 0 < d) (hle : d ≤ 2 ^ 31) :
    1 ≤ toDouble (2 ^ 31 / d) ∧ toDouble (2 ^ 31 / d) ≤ 2 ^ 31 := by
  have hd : (0 : ℚ) < d := Nat.cast_pos.2 hpos
  have hx : (0 : ℚ) ≤ 2 ^ 31 / d := (div_pos (by norm_num) hd).le
  have hlow : ((1 : ℕ) : ℚ) ≤ 2 ^ 31 / d := by
    rw [Nat.cast_one, le_div_iff₀ hd, one_mul]
    exact_mod_cast hle
  have hhigh : 2 ^ 31 / d ≤ ((2 ^ 31 : ℕ) : ℚ) := by
    exact div_le_self (by norm_num) (Nat.one_le_cast.2 hpos)
  refine ⟨?_, ?_⟩
  · exact_mod_cast natCast_le_nearest (by decide) (by decide) hlow
  · exact_mod_cast nearest_le_natCast (by decide) hx (by decide) hhigh

/-- **A jump goes ahead**, and its end is in range. -/
theorem exists_jump (key : BitVec 64) {b : ℕ} (hb : b + 1 < 2 ^ 31) :
    ∃ j : ℕ, jump key b = some j ∧ b < j := by
  have hd : (key >>> 33 + 1#64).toNat = key.toNat / 2 ^ 33 + 1 := by
    rw [BitVec.toNat_add, BitVec.toNat_ushiftRight, Nat.shiftRight_eq_div_pow]
    simp only [BitVec.toNat_ofNat]
    omega
  have hdle : key.toNat / 2 ^ 33 + 1 ≤ 2 ^ 31 := by omega
  obtain ⟨hlow, hhigh⟩ := factor_bounds (Nat.succ_pos _) hdle
  set q := toDouble (2 ^ 31 / (key.toNat / 2 ^ 33 + 1 : ℕ)) with hq
  have hle : ((b + 1 : ℕ) : ℚ) ≤ (b + 1 : ℕ) * q := le_mul_of_one_le_right (Nat.cast_nonneg _) hlow
  have hpos : (0 : ℚ) < (b + 1 : ℕ) * q := (Nat.cast_pos.2 b.succ_pos).trans_le hle
  have hlt : ((b + 1 : ℕ) : ℚ) * q < (2 : ℕ) ^ (62 : ℤ) := by
    calc ((b + 1 : ℕ) : ℚ) * q ≤ (b + 1 : ℕ) * 2 ^ 31 :=
          mul_le_mul_of_nonneg_left hhigh (Nat.cast_nonneg _)
      _ < (2 : ℕ) ^ (62 : ℤ) := by exact_mod_cast (by omega : (b + 1) * 2 ^ 31 < 2 ^ 62)
  have hlog := (Int.lt_zpow_iff_log_lt one_lt_two hpos).1 hlt
  have hover : toDouble ((b + 1 : ℕ) * q) ≤ 2 ^ (62 : ℤ) :=
    (nearest_le_zpow 53 _).trans (zpow_le_zpow_right₀ one_le_two (by omega))
  have hahead : ((b + 1 : ℕ) : ℤ) ≤ ⌊toDouble ((b + 1 : ℕ) * q)⌋ :=
    Int.le_floor.2 (natCast_le_nearest (by decide) (by omega) hle)
  have hrange : ⌊toDouble ((b + 1 : ℕ) * q)⌋ < 2 ^ 63 :=
    Int.floor_lt.2 (hover.trans_lt (by norm_num))
  obtain ⟨j, hj⟩ := Int.eq_ofNat_of_zero_le (by omega : 0 ≤ ⌊toDouble ((b + 1 : ℕ) * q)⌋)
  refine ⟨j, ?_, by omega⟩
  have hpow : toDouble (2 ^ 31) = 2 ^ 31 := by
    exact_mod_cast toDouble_natCast (le_refl (2 ^ 31))
  have hnext : toDouble ((b : ℤ) + 1) = (b + 1 : ℕ) := by
    exact_mod_cast toDouble_natCast hb.le
  rw [jump, hd, hpow, hnext, toDouble_natCast hdle, ← hq, toInt64,
    if_pos (Int.floor_nonneg.1 (by omega)), hj]
  exact if_pos (by omega)

variable {n m fuel j : ℕ} {b : ℤ}

/-- **The loop ends** below the number of segments, and does not go back. -/
theorem exists_jumpLoop (hm : m < 2 ^ 31) (key : BitVec 64) (hfuel : m - j < fuel) (hb : b < m) :
    ∃ r, jumpLoop m fuel key b j = some r ∧ r < m ∧ (r = b ∧ m ≤ j ∨ j ≤ r) := by
  induction fuel generalizing key b j with
  | zero => omega
  | succ fuel ih =>
    rw [jumpLoop]
    split_ifs with hj
    · obtain ⟨j', hjump, _⟩ := exists_jump (nextKey key) (by omega : j + 1 < 2 ^ 31)
      obtain ⟨r, hrun, hr, hback⟩ := ih (j := j') (b := j) (nextKey key) (by omega) hj
      refine ⟨r, ?_, hr, .inr (by omega)⟩
      rw [hjump]
      exact hrun
    · exact ⟨b, rfl, hb, .inl ⟨rfl, by omega⟩⟩

/-- With more segments the loop ends where it ended before, or at a new segment. -/
theorem jumpLoop_of_le (hnm : n ≤ m) (hm : m < 2 ^ 31) (key : BitVec 64) (hfuel : m - j < fuel)
    (hb : b < m) : ∃ r, jumpLoop m fuel key b j = some r ∧
      (jumpLoop n fuel key b j = some r ∨ n ≤ r) := by
  induction fuel generalizing key b j with
  | zero => omega
  | succ fuel ih =>
    by_cases hj : (j : ℤ) < n
    · have hj' : (j : ℤ) < m := by omega
      obtain ⟨j', hjump, _⟩ := exists_jump (nextKey key) (by omega : j + 1 < 2 ^ 31)
      rw [jumpLoop, jumpLoop, if_pos hj, if_pos hj', hjump]
      exact ih (j := j') (b := j) (nextKey key) (by omega) hj'
    · -- the smaller number is reached
      obtain ⟨r, hrun, -, hback⟩ := exists_jumpLoop hm key hfuel hb
      refine ⟨r, hrun, hback.imp (fun heq => ?_) fun hle => by omega⟩
      rw [jumpLoop, if_neg hj, heq.1]

/-- **Adding segments moves rows only to the new segments**: for every hash value the loop ends for
`n` and for `m` segments, with a segment below `n` and with the same one or one from `n` on. -/
theorem jump_moves_to_new (hash : BitVec 32) (hn : 1 ≤ n) (hnm : n ≤ m) (hm : m < 2 ^ 31)
    (hfuel : m < fuel) :
    ∃ r r', jumpConsistentHash fuel (hash.setWidth 64) n = some r ∧ 0 ≤ r ∧ r < n ∧
      jumpConsistentHash fuel (hash.setWidth 64) m = some r' ∧ (r' = r ∨ n ≤ r') := by
  obtain ⟨r, hr, hlt, _⟩ := exists_jumpLoop (m := n) (j := 0) (b := -1) (by omega)
    (hash.setWidth 64) (by omega : n - 0 < fuel) (by omega)
  obtain ⟨r', hr', hmoved⟩ := jumpLoop_of_le (j := 0) (b := -1) hnm hm (hash.setWidth 64)
    (by omega : m - 0 < fuel) (by omega)
  refine ⟨r, r', hr, by omega, hlt, hr', hmoved.imp_left fun heq => ?_⟩
  rw [hr] at heq
  exact (Option.some.inj heq).symm

/-- From three to five segments, with fuel for six turns: the hypotheses are met by `n = 3`, `m = 5`
and a hash value that is not a special one. -/
theorem jump_from_three_to_five : ∃ r r', jumpConsistentHash 6 ((2026#32).setWidth 64) (3 : ℕ) =
      some r ∧ 0 ≤ r ∧ r < (3 : ℕ) ∧
      jumpConsistentHash 6 ((2026#32).setWidth 64) (5 : ℕ) = some r' ∧ (r' = r ∨ (3 : ℕ) ≤ r') :=
  jump_moves_to_new 2026#32 (by decide) (by decide) (by decide) (by decide)

end Cloudberry.LegacyHash
