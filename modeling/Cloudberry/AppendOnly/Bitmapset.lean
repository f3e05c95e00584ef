/-
# Bitmap sets

The functions of `nodes/bitmapset.c` that the visibility map uses. A set is `NULL` or an
array of words, of 32 or of 64 bits depending on the platform.
-/

import Cloudberry.Lib.BitList

namespace Cloudberry.AppendOnly

open List Nat

/-- `BITS_PER_BITMAPWORD` -/
inductive BitmapWordSize where
  | bits32
  | bits64
deriving DecidableEq, Repr

namespace BitmapWordSize

def blocks : BitmapWordSize → ℕ
  | bits32 => 1
  | bits64 => 2

def bits (bw : BitmapWordSize) : ℕ := 32 * bw.blocks

theorem bits_pos (bw : BitmapWordSize) : 0 < bw.bits := by
  cases bw <;> decide

end BitmapWordSize

abbrev BitmapWord (bw : BitmapWordSize) : Type := BitVec bw.bits

abbrev Bitmapset (bw : BitmapWordSize) : Type := Option (List (BitmapWord bw))

variable {bw : BitmapWordSize}

/-- The word with only bit `x` of the set, `(bitmapword) 1 << BITNUM(x)`. -/
def bitMask (bw : BitmapWordSize) (x : ℕ) : BitmapWord bw := 1#(bw.bits) <<< (x % bw.bits)

namespace Bitmapset

/-- `bms_is_member` -/
def isMember (x : ℕ) (a : Bitmapset bw) : Bool :=
  match a with
  | none => false
  | some words =>
    match words[x / bw.bits]? with
    | none => false
    | some word => word &&& bitMask bw x != 0

variable (a : Bitmapset bw)

/-- `bms_is_empty` -/
def isEmpty : Bool :=
  match a with
  | none => true
  | some words => words.all fun word => word == 0

/-- `bms_covers_member` -/
def coversMember (x : ℕ) : Bool :=
  match a with
  | none => false
  | some words => x / bw.bits < words.length

/-- `bms_resize` -/
def resize (wc : ℕ) : Bitmapset bw :=
  match a with
  | none => some (replicate wc 0)
  | some words =>
    if words.length ≥ wc then some words
    else some (words ++ replicate (wc - words.length) 0)

/-- `bms_make_singleton` -/
def makeSingleton (x : ℕ) : Bitmapset bw :=
  some ((replicate (x / bw.bits + 1) 0).modify (x / bw.bits) (· ||| bitMask bw x))

/-- `bms_add_member` -/
def addMember (x : ℕ) : Bitmapset bw :=
  match a with
  | none => makeSingleton x
  | some words =>
    let words := if x / bw.bits ≥ words.length then
        words ++ replicate (x / bw.bits + 1 - words.length) 0
      else words
    some (words.modify (x / bw.bits) (· ||| bitMask bw x))

/-- The words of a set, none for `NULL`. -/
def words : List (BitmapWord bw) := a.getD []

/-! ### Membership -/

theorem isMember_some (x : ℕ) (words : List (BitmapWord bw)) :
    isMember x (some words) = (words[x / bw.bits]?.getD 0).getLsbD (x % bw.bits) := by
  have hbit : x % bw.bits < bw.bits := mod_lt x bw.bits_pos
  rcases hword : words[x / bw.bits]? with _ | word
  · simp [isMember, hword]
  · simp only [isMember, hword, Option.getD_some]
    exact BitList.and_one_shiftLeft_bne_zero hbit word

theorem isMember_append_zeros (x n : ℕ) (words : List (BitmapWord bw)) :
    isMember x (some (words ++ replicate n 0)) = isMember x (some words) := by
  rw [isMember_some, isMember_some]
  by_cases hx : x / bw.bits < words.length
  · rw [getElem?_append_left hx]
  · rw [getElem?_append_right (by omega), getElem?_eq_none (by omega : words.length ≤ _),
      getElem?_replicate]
    split_ifs <;> rfl

theorem isMember_resize (wc x : ℕ) : isMember x (a.resize wc) = isMember x a := by
  rcases a with _ | words
  · have hnil := isMember_append_zeros x wc ([] : List (BitmapWord bw))
    rw [nil_append] at hnil
    rw [resize, hnil]
    simp [isMember]
  · by_cases hlen : words.length ≥ wc
    · rw [resize, if_pos hlen]
    · rw [resize, if_neg hlen, isMember_append_zeros]

theorem isMember_modify {words : List (BitmapWord bw)} {x : ℕ} (hx : x / bw.bits < words.length)
    (y : ℕ) : isMember y (some (words.modify (x / bw.bits) (· ||| bitMask bw x))) =
      (isMember y (some words) || decide (y = x)) := by
  have hpos := bw.bits_pos
  rw [isMember_some, isMember_some, getElem?_modify]
  by_cases hword : x / bw.bits = y / bw.bits
  · have hget : words[y / bw.bits]? = some words[x / bw.bits] := by
      rw [← hword, getElem?_eq_getElem hx]
    have hxbit : x % bw.bits < bw.bits := mod_lt x hpos
    have hmask : (bitMask bw x).getLsbD (y % bw.bits) = decide (y = x) := by
      have htwo : bitMask bw x = BitVec.twoPow bw.bits (x % bw.bits) := rfl
      have hiff : x % bw.bits = y % bw.bits ↔ y = x := by
        constructor
        · intro hmod
          rw [← div_add_mod y bw.bits, ← div_add_mod x bw.bits, hword, hmod]
        · rintro rfl
          rfl
      rw [htwo, BitVec.getLsbD_twoPow]
      simp [hxbit, hiff]
    simp [hword, hget, hmask]
  · have hne : y ≠ x := fun heq => hword (by rw [heq])
    simp [hword, hne]

theorem isMember_addMember (x y : ℕ) :
    isMember y (a.addMember x) = (isMember y a || decide (y = x)) := by
  rcases a with _ | words
  · have hempty := isMember_append_zeros y (x / bw.bits + 1) ([] : List (BitmapWord bw))
    rw [nil_append] at hempty
    rw [addMember, makeSingleton, isMember_modify (by simp), hempty]
    simp [isMember]
  · by_cases hlen : x / bw.bits ≥ words.length
    · simp only [addMember, if_pos hlen]
      rw [isMember_modify (by simp; omega), isMember_append_zeros]
    · simp only [addMember, if_neg hlen]
      rw [isMember_modify (by omega)]

theorem isMember_of_isEmpty {a : Bitmapset bw} (ha : a.isEmpty = true) (x : ℕ) :
    isMember x a = false := by
  rcases a with _ | words
  · rfl
  simp only [isEmpty, all_eq_true, beq_iff_eq] at ha
  rcases hword : words[x / bw.bits]? with _ | word
  · simp [isMember, hword]
  · rw [isMember_some, hword, ha word (mem_of_getElem? hword)]
    simp

end Bitmapset

end Cloudberry.AppendOnly
