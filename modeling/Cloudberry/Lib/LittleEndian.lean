/-
# Numbers as little-endian words

A number laid out as `k` words of `w` bits, least significant word first, and read back.
With `w = 8` this is how a little-endian machine stores an integer; with `w = 32` it is how
the 32-bit halves of a longer word follow each other. A list of words can so be viewed as a
list of shorter words (`unpack`) and back (`pack`).
-/

import Mathlib.Data.BitVec

namespace LittleEndian

open Nat List

variable {w : ℕ}

/-- The `k` lowest words of `v`. -/
def split (w : ℕ) : ℕ → ℕ → List (BitVec w)
  | 0, _ => []
  | k + 1, v => BitVec.ofNat w v :: split w k (v / 2 ^ w)

/-- The number whose words are these. -/
def join : List (BitVec w) → ℕ
  | [] => 0
  | x :: xs => x.toNat + 2 ^ w * join xs

@[simp] theorem length_split (k v : ℕ) : (split w k v).length = k := by
  induction k generalizing v with
  | zero => rfl
  | succ k ih => simp [split, ih]

/-- Reading back gives what the words have room for. -/
theorem join_split (k v : ℕ) : join (split w k v) = v % 2 ^ (w * k) := by
  induction k generalizing v with
  | zero => simp [split, join, mod_one]
  | succ k ih =>
    rw [split, join, ih, BitVec.toNat_ofNat, mul_succ, add_comm (w * k), pow_add, mod_mul]

theorem join_split_of_lt {k v : ℕ} (hv : v < 2 ^ (w * k)) : join (split w k v) = v := by
  rw [join_split, mod_eq_of_lt hv]

/-! ### Lists of words as lists of shorter words -/

variable {v : ℕ}

/-- Each word as `m` words of `w` bits. -/
def unpack (w m : ℕ) (xs : List (BitVec v)) : List (BitVec w) :=
  xs.flatMap fun x => split w m x.toNat

/-- `n` words of `v` bits, each from the next `m` words; missing words are zero. -/
def pack (v m : ℕ) : ℕ → List (BitVec w) → List (BitVec v)
  | 0, _ => []
  | n + 1, ys => BitVec.ofNat v (join (ys.take m)) :: pack v m n (ys.drop m)

@[simp] theorem length_unpack (m : ℕ) (xs : List (BitVec v)) :
    (unpack w m xs).length = m * xs.length := by
  simp [unpack, mul_comm]

@[simp] theorem length_pack (m n : ℕ) (ys : List (BitVec w)) : (pack v m n ys).length = n := by
  induction n generalizing ys with
  | zero => rfl
  | succ n ih => simp [pack, ih]

/-- The short words hold the long ones. -/
theorem pack_unpack {m : ℕ} (hv : v ≤ w * m) (xs : List (BitVec v)) :
    pack v m xs.length (unpack w m xs) = xs := by
  induction xs with
  | nil => rfl
  | cons x xs ih =>
    have hx : x.toNat < 2 ^ (w * m) := x.isLt.trans_le (Nat.pow_le_pow_right (by decide) hv)
    have htake : (unpack w m (x :: xs)).take m = split w m x.toNat := by
      rw [unpack, flatMap_cons, take_left' (length_split m x.toNat)]
    have hdrop : (unpack w m (x :: xs)).drop m = unpack w m xs := by
      rw [unpack, flatMap_cons, drop_left' (length_split m x.toNat), unpack]
    rw [length_cons, pack, htake, hdrop, ih, join_split_of_lt hx, BitVec.ofNat_toNat,
      BitVec.setWidth_eq]

end LittleEndian
