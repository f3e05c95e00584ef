/-
# Local transaction ids

A local transaction id is a 32-bit counter that wraps around. The values below
`FirstNormalTransactionId` have special meanings and are skipped when the counter advances;
normal ids are compared on the circle of all values, by the sign of their difference
(`transam.c`).

The comparison is an order only on ids that lie in one half of the circle. `offset base`
measures ids from a base, and for normal ids less than half the circle away from it the
comparisons of the source are those of the offsets (`precedes_iff_offset`).
-/

import Mathlib.Data.UInt

namespace Cloudberry.Dtm

/-- `TransactionId` (`src/include/c.h`). -/
abbrev TransactionId := UInt32

/-- `InvalidTransactionId` (`src/include/access/transam.h`). -/
def invalidTransactionId : TransactionId := 0

def firstNormalTransactionId : TransactionId := 3

def transactionIdIsNormal (xid : TransactionId) : Bool := decide (firstNormalTransactionId ≤ xid)

section

variable (id1 id2 : TransactionId)

/-- `(int32) (id1 - id2)`. -/
def transactionIdDiff : ℤ := (id1 - id2).toBitVec.toInt

def transactionIdPrecedes : Bool :=
  if !transactionIdIsNormal id1 || !transactionIdIsNormal id2 then decide (id1 < id2)
  else decide (transactionIdDiff id1 id2 < 0)

def transactionIdPrecedesOrEquals : Bool :=
  if !transactionIdIsNormal id1 || !transactionIdIsNormal id2 then decide (id1 ≤ id2)
  else decide (transactionIdDiff id1 id2 ≤ 0)

def transactionIdFollows : Bool :=
  if !transactionIdIsNormal id1 || !transactionIdIsNormal id2 then decide (id2 < id1)
  else decide (0 < transactionIdDiff id1 id2)

end

/-- `TransactionIdAdvance`: the next id, stepping over the special ones. -/
def transactionIdAdvance (xid : TransactionId) : TransactionId :=
  if xid + 1 < firstNormalTransactionId then firstNormalTransactionId else xid + 1

/-- How far `xid` is ahead of `base` on the circle. -/
def offset (base xid : TransactionId) : ℕ := (xid - base).toNat

section Circle

variable {base id1 id2 xid : TransactionId}

theorem offset_eq (base xid : TransactionId) :
    offset base xid = (2 ^ 32 - base.toNat + xid.toNat) % 2 ^ 32 :=
  UInt32.toNat_sub ..

theorem transactionIdDiff_eq (id1 id2 : TransactionId) : transactionIdDiff id1 id2 =
      if offset id2 id1 < 2 ^ 31 then (offset id2 id1 : ℤ) else offset id2 id1 - 2 ^ 32 := by
  rw [transactionIdDiff, BitVec.toInt_eq_toNat_cond, offset]
  simp only [UInt32.toNat_toBitVec]
  split_ifs <;> omega

theorem transactionIdDiff_eq_offset (h1 : offset base id1 < 2 ^ 31)
    (h2 : offset base id2 < 2 ^ 31) :
    transactionIdDiff id1 id2 = offset base id1 - offset base id2 := by
  have hy : id2.toNat < 2 ^ 32 := id2.toNat_lt
  rw [transactionIdDiff_eq]
  simp only [offset_eq] at h1 h2 ⊢
  split_ifs <;> omega

section

variable (hn1 : transactionIdIsNormal id1 = true) (hn2 : transactionIdIsNormal id2 = true)
  (h1 : offset base id1 < 2 ^ 31) (h2 : offset base id2 < 2 ^ 31)
include hn1 hn2 h1 h2

/-- **In half a circle, `TransactionIdPrecedes` is an order.** -/
theorem precedes_iff_offset :
    transactionIdPrecedes id1 id2 = true ↔ offset base id1 < offset base id2 := by
  rw [transactionIdPrecedes, hn1, hn2]
  simp only [Bool.not_true, Bool.or_self, Bool.false_eq_true, if_false, decide_eq_true_eq,
    transactionIdDiff_eq_offset h1 h2]
  omega

theorem precedesOrEquals_iff_offset :
    transactionIdPrecedesOrEquals id1 id2 = true ↔ offset base id1 ≤ offset base id2 := by
  rw [transactionIdPrecedesOrEquals, hn1, hn2]
  simp only [Bool.not_true, Bool.or_self, Bool.false_eq_true, if_false, decide_eq_true_eq,
    transactionIdDiff_eq_offset h1 h2]
  omega

end

theorem isNormal_iff : transactionIdIsNormal xid = true ↔ 3 ≤ xid.toNat := by
  rw [transactionIdIsNormal, decide_eq_true_eq, UInt32.le_iff_toNat_le]
  rfl

theorem toNat_advance (xid : TransactionId) : (transactionIdAdvance xid).toNat =
      if (xid.toNat + 1) % 2 ^ 32 < 3 then 3 else (xid.toNat + 1) % 2 ^ 32 := by
  have hnext : (xid + 1).toNat = (xid.toNat + 1) % 2 ^ 32 := UInt32.toNat_add ..
  have hfirst : firstNormalTransactionId.toNat = 3 := rfl
  unfold transactionIdAdvance
  simp only [UInt32.lt_iff_toNat_lt, hnext, hfirst]
  split_ifs
  · rfl
  · exact hnext

/-- **Advancing by one skips no normal xid.** Between a normal xid and a later one, the next
id is after the first, not after the second, and no other normal xid is before it. -/
theorem offset_advance {limit : TransactionId} (hxid : transactionIdIsNormal xid = true)
    (hlimit : transactionIdIsNormal limit = true) (hlt : offset base xid < offset base limit) :
    transactionIdIsNormal (transactionIdAdvance xid) = true ∧
      offset base xid < offset base (transactionIdAdvance xid) ∧
      offset base (transactionIdAdvance xid) ≤ offset base limit ∧
      ∀ x, transactionIdIsNormal x = true → offset base xid ≤ offset base x →
        offset base x < offset base (transactionIdAdvance xid) → x = xid := by
  have hx : xid.toNat < 2 ^ 32 := xid.toNat_lt
  have hl : limit.toNat < 2 ^ 32 := limit.toNat_lt
  rw [isNormal_iff] at hxid hlimit
  rw [isNormal_iff]
  simp only [offset_eq, toNat_advance] at hlt ⊢
  refine ⟨by split_ifs <;> omega, by split_ifs <;> omega, by split_ifs <;> omega, ?_⟩
  intro x hnormal hge hlt'
  have hxb : x.toNat < 2 ^ 32 := x.toNat_lt
  rw [isNormal_iff] at hnormal
  apply UInt32.toNat_inj.1
  split_ifs at hlt' <;> omega

end Circle

end Cloudberry.Dtm
