/-
# Tuple ids of append-only tables

`access/appendonlytid.h`: a tuple id is made of three 16-bit fields that hold 7 bits of
segment file number and 40 bits of row number, the lowest 15 of them biased by one so that
the last field is never zero.
-/

import Mathlib.Data.BitVec
import Mathlib.Data.Prod.Lex

namespace Cloudberry.AppendOnly

open BitVec Nat

/-- `AOTupleId`, with what its readers assert of the last field. -/
@[ext]
structure AOTupleId where
  bytes01 : BitVec 16
  bytes23 : BitVec 16
  bytes45 : BitVec 16
  pos : 0 < bytes45.toNat
  le : bytes45.toNat ≤ 0x8000
deriving DecidableEq, Repr

namespace AOTupleId

/-- `AOTupleIdGet_segmentFileNum` -/
def segmentFileNum (h : AOTupleId) : ℕ := ((h.bytes01 &&& 0xFE00) >>> 9).toNat

/-- `AOTupleIdGet_rowNum` -/
def rowNum (h : AOTupleId) : ℕ :=
  (h.bytes01.toNat &&& 0x01FF) <<< 31 ||| h.bytes23.toNat <<< 15 ||| (h.bytes45.toNat - 1)

/-- `AOTupleIdInit`: 7 bits of segment file, 40 of row number. -/
def init (segfilenum rownum : ℕ) : AOTupleId where
  bytes01 := BitVec.ofNat 16 ((0x007F &&& segfilenum) <<< 9 ||| (0xFFFFFFFFFF &&& rownum) >>> 31)
  bytes23 := BitVec.ofNat 16 ((0x7FFFFFFF &&& rownum) >>> 15)
  bytes45 := BitVec.ofNat 16 ((0x7FFF &&& rownum) + 1)
  pos := by
    have hle : 0x7FFF &&& rownum ≤ 0x7FFF := and_le_left
    rw [toNat_ofNat, mod_eq_of_lt (by omega)]
    omega
  le := by
    have hle : 0x7FFF &&& rownum ≤ 0x7FFF := and_le_left
    rw [toNat_ofNat, mod_eq_of_lt (by omega)]
    omega

def maxRowNum : ℕ := 1099511627775

theorem segmentFileNum_eq (h : AOTupleId) : h.segmentFileNum = h.bytes01.toNat / 512 := by
  have hshift : (h.bytes01 &&& 0xFE00) >>> 9 = h.bytes01 >>> 9 := by
    ext i hi
    have hmask : ∀ i : ℕ, i < 16 → (0xFE00 : BitVec 16).getLsbD (9 + i) = decide (i < 7) := by decide
    rw [getElem_ushiftRight, getElem_ushiftRight, getLsbD_and, hmask i hi]
    by_cases hlow : i < 7
    · simp [hlow]
    · have hzero : h.bytes01.getLsbD (9 + i) = false := getLsbD_of_ge _ _ (by omega)
      simp [hzero]
  rw [segmentFileNum, hshift, toNat_ushiftRight, shiftRight_eq_div_pow]

theorem rowNum_eq (h : AOTupleId) :
    h.rowNum = h.bytes01.toNat % 512 * 2 ^ 31 + h.bytes23.toNat * 2 ^ 15 +
      (h.bytes45.toNat - 1) := by
  have hmask : h.bytes01.toNat &&& 0x01FF = h.bytes01.toNat % 512 :=
    Nat.and_two_pow_sub_one_eq_mod h.bytes01.toNat 9
  have hmid : h.bytes23.toNat <<< 15 < 2 ^ 31 := by
    omega
  have hlow : h.bytes45.toNat - 1 < 2 ^ 15 := by
    have := h.le
    omega
  -- the two higher parts are together a multiple of the low part's range
  have hhigh : h.bytes01.toNat % 512 * 2 ^ 31 + h.bytes23.toNat * 2 ^ 15 =
      (h.bytes01.toNat % 512 * 2 ^ 16 + h.bytes23.toNat) <<< 15 := by
    omega
  rw [rowNum, hmask, ← Nat.shiftLeft_add_eq_or_of_lt hmid, Nat.shiftLeft_eq, Nat.shiftLeft_eq,
    hhigh, Nat.shiftLeft_add_eq_or_of_lt hlow]

theorem segmentFileNum_lt (h : AOTupleId) : h.segmentFileNum < 128 := by
  rw [segmentFileNum_eq]
  omega

theorem rowNum_lt (h : AOTupleId) : h.rowNum < 2 ^ 40 := by
  rw [rowNum_eq]
  have := h.le
  omega

theorem eq_of_segmentFileNum_rowNum {h h' : AOTupleId}
    (hseg : h.segmentFileNum = h'.segmentFileNum) (hrow : h.rowNum = h'.rowNum) : h = h' := by
  rw [segmentFileNum_eq, segmentFileNum_eq] at hseg
  rw [rowNum_eq, rowNum_eq] at hrow
  have := h.le
  have := h'.le
  have := h.pos
  have := h'.pos
  have h01 : h.bytes01.toNat = h'.bytes01.toNat := by omega
  have h23 : h.bytes23.toNat = h'.bytes23.toNat := by omega
  have h45 : h.bytes45.toNat = h'.bytes45.toNat := by omega
  exact AOTupleId.ext (eq_of_toNat_eq h01) (eq_of_toNat_eq h23) (eq_of_toNat_eq h45)

theorem toNat_init (segfilenum rownum : ℕ) :
    (init segfilenum rownum).bytes01.toNat = segfilenum % 128 * 512 + rownum % 2 ^ 40 / 2 ^ 31 ∧
      (init segfilenum rownum).bytes23.toNat = rownum % 2 ^ 31 / 2 ^ 15 ∧
      (init segfilenum rownum).bytes45.toNat = rownum % 2 ^ 15 + 1 := by
  have hseg : 0x007F &&& segfilenum = segfilenum % 128 := by
    rw [Nat.and_comm]
    exact and_two_pow_sub_one_eq_mod segfilenum 7
  have hrow : ∀ n, (2 ^ n - 1) &&& rownum = rownum % 2 ^ n := by
    intro n
    rw [Nat.and_comm, Nat.and_two_pow_sub_one_eq_mod]
  have hhigh : rownum % 2 ^ 40 / 2 ^ 31 < 2 ^ 9 := by omega
  refine ⟨?_, ?_, ?_⟩
  · have h40 : 0xFFFFFFFFFF &&& rownum = rownum % 2 ^ 40 := hrow 40
    rw [init, BitVec.toNat_ofNat, hseg, h40, shiftRight_eq_div_pow,
      ← Nat.shiftLeft_add_eq_or_of_lt hhigh, Nat.shiftLeft_eq, Nat.mod_eq_of_lt (by omega)]
  · have h31 : 0x7FFFFFFF &&& rownum = rownum % 2 ^ 31 := hrow 31
    rw [init, BitVec.toNat_ofNat, h31, shiftRight_eq_div_pow, mod_eq_of_lt (by omega)]
  · have h15 : 0x7FFF &&& rownum = rownum % 2 ^ 15 := hrow 15
    rw [init, BitVec.toNat_ofNat, h15, mod_eq_of_lt (by omega)]

theorem segmentFileNum_init {segfilenum : ℕ} (hseg : segfilenum < 128) (rownum : ℕ) :
    (init segfilenum rownum).segmentFileNum = segfilenum := by
  rw [segmentFileNum_eq, (toNat_init segfilenum rownum).1]
  omega

theorem rowNum_init (segfilenum : ℕ) {rownum : ℕ} (hrow : rownum < 2 ^ 40) :
    (init segfilenum rownum).rowNum = rownum := by
  obtain ⟨h01, h23, h45⟩ := toNat_init segfilenum rownum
  rw [rowNum_eq, h01, h23, h45]
  omega

/-- `BlockIdGetBlockNumber`, for a tuple id read as an `ItemPointerData` -/
def blockNumber (h : AOTupleId) : ℕ := h.bytes01.toNat <<< 16 ||| h.bytes23.toNat

def itemPointerCompare (arg1 arg2 : AOTupleId) : ℤ :=
  if arg1.blockNumber < arg2.blockNumber then -1
  else if arg2.blockNumber < arg1.blockNumber then 1
  else if arg1.bytes45.toNat < arg2.bytes45.toNat then -1
  else if arg2.bytes45.toNat < arg1.bytes45.toNat then 1
  else 0

/-- The block number and the offset, without the bias of the latter, are the digits of the
packed pair. -/
theorem blockNumber_init {segfilenum rownum : ℕ} (hseg : segfilenum < 128)
    (hrow : rownum < 2 ^ 40) :
    (init segfilenum rownum).blockNumber * 2 ^ 15 + (init segfilenum rownum).bytes45.toNat =
      segfilenum * 2 ^ 40 + rownum + 1 := by
  obtain ⟨h01, h23, h45⟩ := toNat_init segfilenum rownum
  have hlow : (init segfilenum rownum).bytes23.toNat < 2 ^ 16 := by omega
  rw [blockNumber, ← Nat.shiftLeft_add_eq_or_of_lt hlow, Nat.shiftLeft_eq, h01, h23, h45]
  omega

/-- **Packing is exact and keeps the order** of segment files and row numbers. -/
theorem init_exact_ordered {seg row seg' row' : ℕ} (hseg : seg < 128) (hrow : row < 2 ^ 40)
    (hseg' : seg' < 128) (hrow' : row' < 2 ^ 40) :
    (init seg row).segmentFileNum = seg ∧ (init seg row).rowNum = row ∧
      (init seg row).bytes45.toNat ∈ Set.Icc 1 32768 ∧
      itemPointerCompare (init seg row) (init seg' row') =
        if toLex (seg, row) < toLex (seg', row') then -1
        else if toLex (seg', row') < toLex (seg, row) then 1 else 0 := by
  refine ⟨segmentFileNum_init hseg row, rowNum_init seg hrow, ⟨pos _, le _⟩, ?_⟩
  have hdigits := blockNumber_init hseg hrow
  have hdigits' := blockNumber_init hseg' hrow'
  have hpos := (init seg row).pos
  have hle := (init seg row).le
  have hpos' := (init seg' row').pos
  have hle' := (init seg' row').le
  simp only [itemPointerCompare, Prod.Lex.toLex_lt_toLex]
  split_ifs <;> omega

/-- The bounds allow the last row of a file and the first of the next. -/
theorem init_exact_ordered_carry :
    itemPointerCompare (init 3 0xFFFFFFFFFF) (init 4 0) = -1 := by
  have hexact := @init_exact_ordered 3 0xFFFFFFFFFF 4 0 (by decide) (by decide) (by decide)
    (by decide)
  exact hexact.2.2.2.trans (by decide)

end AOTupleId

end Cloudberry.AppendOnly
