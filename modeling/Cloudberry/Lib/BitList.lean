/-
# Bits of numbers and bytes, most significant first

The bits of a number in a given width as a list, the number back from the bits, and the bits
of a byte string. A bit of a byte string is found at its byte and its place in the byte
(`getElem?_ofBytes`), and or-ing one bit into a byte sets it in the list
(`ofBytes_modify`).
-/

import Mathlib.Data.BitVec
import Mathlib.Tactic.Ring

namespace BitList

open List Nat BitVec

/-- The `n` lowest bits of `v`, most significant first. -/
def ofNat : ℕ → ℕ → List Bool
  | 0, _ => []
  | n + 1, v => v.testBit n :: ofNat n v

@[simp] theorem length_ofNat (n v : ℕ) : (ofNat n v).length = n := by
  induction n with
  | zero => rfl
  | succ n ih => simp [ofNat, ih]

theorem getElem?_ofNat {n i : ℕ} (hi : i < n) (v : ℕ) :
    (ofNat n v)[i]? = some (v.testBit (n - 1 - i)) := by
  induction n generalizing i with
  | zero => omega
  | succ n ih =>
    rcases i with _ | i
    · simp [ofNat]
    · rw [ofNat, getElem?_cons_succ, ih (by omega)]
      congr 2
      omega

/-- The number the bits spell, after those of `acc`. -/
def toNat (acc : ℕ) : List Bool → ℕ
  | [] => acc
  | b :: bs => toNat (2 * acc + b.toNat) bs

theorem toNat_eq_add (acc : ℕ) (bits : List Bool) :
    toNat acc bits = acc * 2 ^ bits.length + toNat 0 bits := by
  induction bits generalizing acc with
  | nil => simp [toNat]
  | cons b bits ih =>
    rw [toNat, toNat, ih, ih (2 * 0 + b.toNat), length_cons]
    ring

theorem toNat_ofNat (n v acc : ℕ) : toNat acc (ofNat n v) = acc * 2 ^ n + v % 2 ^ n := by
  induction n generalizing acc with
  | zero => simp [ofNat, toNat, mod_one]
  | succ n ih =>
    rw [ofNat, toNat, ih, mod_pow_succ, toNat_testBit]
    ring

/-- Shifting one more bit in. -/
theorem toNat_shiftLeft_or (v : BitVec 32) (b : Bool) :
    (v <<< 1 ||| (ofBool b).setWidth 32).toNat = (2 * v.toNat + b.toNat) % 2 ^ 32 := by
  have hadd : v <<< 1 ||| (ofBool b).setWidth 32 = v <<< 1 + (ofBool b).setWidth 32 := by
    rw [add_eq_or_of_and_eq_zero]
    ext i hi
    cases b <;> simp
    omega
  rw [hadd]
  cases b <;> simp [Nat.shiftLeft_eq] <;> omega

/-- Testing a bit with a mask. -/
theorem and_one_shiftLeft_bne_zero {w i : ℕ} (hi : i < w) (x : BitVec w) :
    (x &&& 1#w <<< i != 0) = x.getLsbD i := by
  have htwo : 1#w <<< i = twoPow w i := rfl
  have hne : twoPow w i ≠ 0#w := by
    intro hzero
    have hnat := congrArg BitVec.toNat hzero
    rw [toNat_twoPow_of_lt hi] at hnat
    simp at hnat
  rw [htwo, and_twoPow]
  cases x.getLsbD i
  · simp
  · simpa using hne

/-- The bits of a byte string. -/
def ofBytes (bytes : List (BitVec 8)) : List Bool := bytes.flatMap fun b => ofNat 8 b.toNat

@[simp] theorem ofBytes_nil : ofBytes [] = [] := rfl

@[simp] theorem ofBytes_append (xs ys : List (BitVec 8)) :
    ofBytes (xs ++ ys) = ofBytes xs ++ ofBytes ys := flatMap_append

section

variable (bytes : List (BitVec 8))
include bytes

@[simp] theorem length_ofBytes : (ofBytes bytes).length = 8 * bytes.length := by
  simp [ofBytes, mul_comm]

theorem ofBytes_take (k : ℕ) : ofBytes (bytes.take k) = (ofBytes bytes).take (8 * k) := by
  induction bytes generalizing k with
  | nil => simp
  | cons b bytes ih =>
    rcases k with _ | k
    · simp
    have hcons : ∀ l, ofBytes (b :: l) = ofNat 8 b.toNat ++ ofBytes l := fun _ => rfl
    have hlen : 8 * (k + 1) = (ofNat 8 b.toNat).length + 8 * k := by
      rw [length_ofNat]
      omega
    rw [take_succ_cons, hcons, hcons, ih, hlen, take_length_add_append]

/-- Where a bit of a byte string stands. -/
theorem getElem?_ofBytes (p : ℕ) :
    (ofBytes bytes)[p]? = bytes[p / 8]?.map fun b => b.getMsbD (p % 8) := by
  induction bytes generalizing p with
  | nil => simp
  | cons b bytes ih =>
    have hcons : ofBytes (b :: bytes) = ofNat 8 b.toNat ++ ofBytes bytes := rfl
    rw [hcons]
    by_cases hp : p < 8
    · have hmod : p % 8 = p := mod_eq_of_lt hp
      rw [getElem?_append_left (by simpa using hp), getElem?_ofNat hp, div_eq_of_lt hp, hmod]
      simp [getMsbD, hp, getLsbD]
    · have hdiv : p / 8 = (p - 8) / 8 + 1 := by omega
      have hmod : (p - 8) % 8 = p % 8 := by omega
      rw [getElem?_append_right (by simpa using hp), length_ofNat, ih, hdiv,
        getElem?_cons_succ, hmod]

end

/-- A mask with one bit set changes that bit only. -/
theorem getMsbD_or_mask (b : BitVec 8) {j q : ℕ} (hj : j < 8) (hq : q < 8) :
    (b ||| 1#8 <<< (7 - j)).getMsbD q = (b.getMsbD q || decide (q = j)) := by
  have hmask : ∀ j < 8, ∀ q < 8, (1#8 <<< (7 - j)).getMsbD q = decide (q = j) := by decide
  rw [getMsbD_or, hmask j hj q hq]

/-- Or-ing the bit with mask `1 << (7 - j)` into byte `i` sets bit `8 * i + j`. -/
theorem ofBytes_modify (bytes : List (BitVec 8)) (i : ℕ) {j : ℕ} (hj : j < 8) :
    ofBytes (bytes.modify i (· ||| 1#8 <<< (7 - j))) = (ofBytes bytes).set (8 * i + j) true := by
  apply ext_getElem?
  intro p
  rw [getElem?_ofBytes, getElem?_set, getElem?_modify, getElem?_ofBytes]
  by_cases hbyte : i = p / 8
  · subst hbyte
    have hplace : 8 * (p / 8) + j = p ↔ p % 8 = j := by omega
    rcases hget : bytes[p / 8]? with _ | b
    · have hlen : bytes.length ≤ p / 8 := getElem?_eq_none_iff.1 hget
      simp
      omega
    have hlen : p / 8 < bytes.length := (List.getElem?_eq_some_iff.1 hget).1
    simp only [hplace, Option.map_some, if_true, length_ofBytes, Option.map_eq_map]
    rw [getMsbD_or_mask b hj (mod_lt p (by decide))]
    split_ifs with hj' hlt
    · rw [decide_eq_true hj', Bool.or_true]
    · omega
    · rw [decide_eq_false hj', Bool.or_false]
  · have hne : 8 * i + j ≠ p := by omega
    simp [hbyte, hne]

end BitList
