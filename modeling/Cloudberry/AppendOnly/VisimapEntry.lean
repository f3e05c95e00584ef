/-
# Visibility map entries

`access/appendonly/appendonly_visimap_entry.c`. An entry covers 32768 consecutive rows of a
segment file and has a bitmap of the rows that are hidden. A visimap tuple holds the
bitmap compressed, behind a length word and a format version.
-/

import Cloudberry.AppendOnly.BitmapRoundTrip
import Cloudberry.AppendOnly.Bitmapset
import Cloudberry.AppendOnly.TupleId

namespace Cloudberry.AppendOnly

open LittleEndian List Nat Bitmapset BitmapDecompressState

def visimapMaxRange : ℕ := 32768

def visimapMaxBitmapSize : ℕ := 4096

def visimapMaxBitmapWordCount (bw : BitmapWordSize) : ℕ := visimapMaxBitmapSize / (bw.bits / 8)

/-- `offsetof(AppendOnlyVisimapData, data)` -/
def visimapDataOffset : ℕ := 8

def visimapDataBufferSize : ℕ :=
  visimapDataOffset + visimapMaxBitmapSize + bitmapCompressionHeaderSize

/-- The position of a tuple in the heap table of the visimap. -/
abbrev ItemPointer : Type := ℕ

/-- `TM_Result`, as far as hiding a tuple returns it. -/
inductive TMResult where
  | ok
  | selfModified
  | updated
deriving DecidableEq, Repr

/-- A tuple of the visimap relation; the visimap is `NULL` or a varlena. -/
structure VisimapTuple where
  segno : ℤ
  firstRowNum : ℤ
  visimap : Option (List Byte)
deriving DecidableEq, Repr

/-- The hidden rows of a range of 32768 row numbers in one segment file. -/
structure AppendOnlyVisimapEntry (bw : BitmapWordSize) where
  bitmap : Bitmapset bw
  segmentFileNum : ℤ
  firstRowNum : ℤ
  dirty : Bool
  tupleTid : Option ItemPointer
deriving DecidableEq, Repr

variable {bw : BitmapWordSize}

/-! ### The stored form of a bitmap -/

/-- `BitmapCompress_CalculateBlockCounts`: the blocks on disk. -/
def compressBlockCount (a : Bitmapset bw) : ℕ :=
  match a with
  | none => 0
  | some words =>
    match bw with
    | .bits64 => if words.length = 1 ∧ words.headD 0 >>> 32 = 0 then 1 else words.length * 2
    | .bits32 => words.length

/-- `BitmapDecompress_CalculateBlockCounts`: the words of the set. An odd number of blocks
above one fails an assertion with 64-bit words. -/
def decompressWordCount (bw : BitmapWordSize) (onDiskBlockCount : ℕ) : Option ℕ :=
  match bw with
  | .bits64 =>
    if onDiskBlockCount = 1 then some 1
    else if onDiskBlockCount % 2 = 0 then some (onDiskBlockCount / 2) else none
  | .bits32 => some onDiskBlockCount

def varsize (data : List Byte) : ℕ := join (data.take 4) >>> 2 &&& 0x3FFFFFFF

/-- `AppendOnlyVisimapEntry_WriteData`: the varlena. A failed assertion is an error here. -/
def writeData (bitmap : Bitmapset bw) : Except String (List Byte) :=
  let blockCount := compressBlockCount bitmap
  let bitmapSize := 4 * blockCount + bitmapCompressionHeaderSize
  if bitmap.words.length ≤ visimapMaxBitmapWordCount bw ∧ bitmapSize ≤ visimapDataBufferSize then
    match bitmapCompress .default ((unpack 32 bw.blocks bitmap.words).take blockCount)
        bitmapSize with
    | .error e => .error e
    | .ok (compressedBitmapSize, data) =>
      .ok (split 8 4 ((visimapDataOffset + compressedBitmapSize) * 4) ++ split 8 4 1 ++
        data.take compressedBitmapSize)
  else .error "Assert"

/-- `AppendOnlyVisiMapEnty_ReadData` -/
def readData (bw : BitmapWordSize) (data : List Byte) : Except String (Bitmapset bw) :=
  let dataSize := varsize data - visimapDataOffset
  let (_, state) := init (data.drop visimapDataOffset) dataSize
  if state.hasError then .error "error occurred during visimap bitmap decompression"
  else
    let onDiskBlockCount := state.blockCount
    match decompressWordCount bw onDiskBlockCount with
    | none => .error "Assert"
    | some bmsWordCount =>
      if bmsWordCount ≤ visimapMaxBitmapWordCount bw then
        if onDiskBlockCount > 0 then
          match state.decompress onDiskBlockCount with
          | .error e => .error e
          | .ok blocks => .ok (some (pack bw.bits bw.blocks bmsWordCount blocks))
        else .ok none
      else .error "Assert"

namespace AppendOnlyVisimapEntry

def init : AppendOnlyVisimapEntry bw := ⟨none, -1, -1, false, none⟩

def isValid (e : AppendOnlyVisimapEntry bw) : Bool := e.segmentFileNum ≥ 0 && e.firstRowNum ≥ 0

def hasChanged (e : AppendOnlyVisimapEntry bw) : Bool := e.dirty

def getFirstRowNum (tupleId : AOTupleId) : ℕ := tupleId.rowNum / visimapMaxRange * visimapMaxRange

section

variable (e : AppendOnlyVisimapEntry bw)

/-- The tuple is in the range of the entry. -/
def coversTuple (tupleId : AOTupleId) : Bool :=
  if !e.isValid then false
  else if e.segmentFileNum ≠ tupleId.segmentFileNum then false
  else e.firstRowNum ≤ tupleId.rowNum && e.firstRowNum + visimapMaxRange > tupleId.rowNum

/-- An entry that hides nothing, for the range of the tuple. -/
def new (tupleId : AOTupleId) : AppendOnlyVisimapEntry bw :=
  { e with
    bitmap := none
    segmentFileNum := tupleId.segmentFileNum
    firstRowNum := getFirstRowNum tupleId
    tupleTid := none }

/-- The entry of a row of the visimap relation. -/
def copyout (tuple : VisimapTuple) : Except String (AppendOnlyVisimapEntry bw) :=
  match tuple.visimap with
  | none =>
    .ok { e with
      segmentFileNum := tuple.segno, firstRowNum := tuple.firstRowNum, bitmap := none }
  | some data =>
    if varsize data ≤ visimapDataBufferSize then
      match readData bw data with
      | .error msg => .error msg
      | .ok bitmap =>
        .ok { e with
          segmentFileNum := tuple.segno, firstRowNum := tuple.firstRowNum, bitmap := bitmap }
    else .error "Assert"

/-- `AppendOnlyVisimapEntry_Write`: the values of the tuple, and the entry no longer dirty. -/
def write : Except String (VisimapTuple × AppendOnlyVisimapEntry bw) :=
  if e.bitmap.isEmpty then .ok (⟨e.segmentFileNum, e.firstRowNum, none⟩, { e with dirty := false })
  else
    match writeData e.bitmap with
    | .error msg => .error msg
    | .ok data =>
      .ok (⟨e.segmentFileNum, e.firstRowNum, some data⟩, { e with dirty := false })

def getRownumOffset (rowNum : ℕ) : ℕ :=
  (rowNum - e.firstRowNum).toNat

def isVisible (tupleId : AOTupleId) : Bool :=
  if e.bitmap.isEmpty then true
  else !(e.bitmap.isMember (e.getRownumOffset tupleId.rowNum))

end

/-- `AppendOnlyVisimapEntry_GetMinimalSizeToCover`: the next power of two. -/
def getMinimalSizeToCover (bw : BitmapWordSize) (offset : ℕ) : ℕ :=
  let minSize := offset / bw.bits + 1
  let minSize := minSize - 1
  let minSize := minSize ||| minSize >>> 1
  let minSize := minSize ||| minSize >>> 2
  let minSize := minSize ||| minSize >>> 4
  let minSize := minSize ||| minSize >>> 8
  let minSize := minSize ||| minSize >>> 16
  minSize + 1

/-- Whether the row was hidden before decides the answer, and `dirty` by whom. -/
def hideTuple (e : AppendOnlyVisimapEntry bw) (tupleId : AOTupleId) :
    TMResult × AppendOnlyVisimapEntry bw :=
  let rowNumOffset := e.getRownumOffset tupleId.rowNum
  let bitmap := if !(e.bitmap.coversMember rowNumOffset) then
      e.bitmap.resize (getMinimalSizeToCover bw rowNumOffset)
    else e.bitmap
  if !(bitmap.isMember rowNumOffset) then
    (.ok, { e with bitmap := bitmap.addMember rowNumOffset, dirty := true })
  else if e.dirty then (.selfModified, { e with bitmap := bitmap, dirty := true })
  else (.updated, { e with bitmap := bitmap, dirty := true })

end AppendOnlyVisimapEntry

/-! ### What is written is read back -/

/-- A set as the visimap has it: `NULL`, or some words but not more than an entry needs. -/
def Bitmapset.Fits (a : Bitmapset bw) : Prop :=
  ∀ words, a = some words → 0 < words.length ∧ words.length ≤ visimapMaxBitmapWordCount bw

theorem visimapMaxBitmapWordCount_mul (bw : BitmapWordSize) :
    visimapMaxBitmapWordCount bw * bw.blocks = 1024 := by
  cases bw <;> decide

def varlena (bytes : List Byte) : List Byte :=
  split 8 4 ((visimapDataOffset + bytes.length) * 4) ++ split 8 4 1 ++ bytes

@[simp] theorem length_varlena (bytes : List Byte) : (varlena bytes).length = 8 + bytes.length := by
  simp only [varlena, length_append, length_split]

theorem varsize_varlena {bytes : List Byte} (hlen : bytes.length < 2 ^ 20) (rest : List Byte) :
    varsize (varlena bytes ++ rest) = (varlena bytes).length := by
  have hhead : (varlena bytes ++ rest).take 4 =
      split 8 4 ((visimapDataOffset + bytes.length) * 4) := by
    exact take_left' (length_split ..)
  have hmask : ∀ n : ℕ, n &&& 0x3FFFFFFF = n % 2 ^ 30 := fun n =>
    and_two_pow_sub_one_eq_mod n 30
  rw [varsize, hhead, join_split_of_lt (by rw [visimapDataOffset]; omega), hmask,
    Nat.shiftRight_eq_div_pow, Nat.mul_div_cancel _ (by decide), length_varlena,
    visimapDataOffset, mod_eq_of_lt (by omega)]

theorem drop_varlena (bytes : List Byte) : (varlena bytes).drop visimapDataOffset = bytes := by
  apply drop_left'
  simp [visimapDataOffset]

def diskBlocks (a : Bitmapset bw) : List Block :=
  (unpack 32 bw.blocks a.words).take (compressBlockCount a)

theorem compressBlockCount_le (a : Bitmapset bw) :
    compressBlockCount a ≤ bw.blocks * a.words.length := by
  rcases a with _ | _
  · exact zero_le _
  cases bw with
  | bits32 => simp [compressBlockCount, Bitmapset.words, BitmapWordSize.blocks]
  | bits64 =>
    simp only [compressBlockCount, Bitmapset.words, BitmapWordSize.blocks, Option.getD_some]
    split_ifs <;> omega

@[simp] theorem length_diskBlocks (a : Bitmapset bw) :
    (diskBlocks a).length = compressBlockCount a := by
  rw [diskBlocks, length_take, length_unpack, min_eq_left (compressBlockCount_le a)]

variable {a : Bitmapset bw}

theorem Bitmapset.Fits.words_le (ha : a.Fits) : a.words.length ≤ visimapMaxBitmapWordCount bw := by
  rcases a with _ | words
  · exact zero_le _
  · exact (ha words rfl).2

theorem Bitmapset.Fits.compressBlockCount_le (ha : a.Fits) : compressBlockCount a ≤ 1024 := by
  have hmul := visimapMaxBitmapWordCount_mul bw
  calc compressBlockCount a ≤ bw.blocks * a.words.length := AppendOnly.compressBlockCount_le a
    _ ≤ bw.blocks * visimapMaxBitmapWordCount bw := mul_le_mul_left _ ha.words_le
    _ = 1024 := by rw [mul_comm, hmul]

theorem pack_diskBlocks {words : List (BitmapWord bw)} (hpos : 0 < words.length) :
    0 < compressBlockCount (some words) ∧
      decompressWordCount bw (compressBlockCount (some words)) = some words.length ∧
      pack bw.bits bw.blocks words.length (diskBlocks (some words)) = words := by
  have hall : ∀ n, n = bw.blocks * words.length →
      pack bw.bits bw.blocks words.length ((unpack 32 bw.blocks words).take n) = words := by
    rintro n rfl
    rw [take_of_length_le (by rw [length_unpack]), pack_unpack (show bw.bits ≤ 32 * bw.blocks from le_rfl)]
  cases bw with
  | bits32 =>
    refine ⟨hpos, rfl, ?_⟩
    exact hall _ (by simp [compressBlockCount, BitmapWordSize.blocks])
  | bits64 =>
    by_cases hone : words.length = 1 ∧ words.headD 0 >>> 32 = 0
    · -- one word whose higher half is zero is a single block on disk
      have hcount : compressBlockCount (some words) = 1 := by
        simp only [compressBlockCount, if_pos hone]
      refine ⟨by omega, by rw [hcount, hone.1]; rfl, ?_⟩
      obtain ⟨x, rfl⟩ := length_eq_one_iff.1 hone.1
      have hlow : x.toNat < 2 ^ 32 := by
        have hshift := congrArg BitVec.toNat hone.2
        rw [headD_cons, BitVec.toNat_ushiftRight, shiftRight_eq_div_pow] at hshift
        have hzero : x.toNat / 2 ^ 32 = 0 := hshift
        omega
      have hblocks : diskBlocks (some [x]) = [BitVec.ofNat 32 x.toNat] := by
        rw [diskBlocks, hcount]
        rfl
      rw [hblocks, length_singleton, pack, pack]
      congr 1
      apply BitVec.eq_of_toNat_eq
      have hjoin : join ([BitVec.ofNat 32 x.toNat].take BitmapWordSize.bits64.blocks) = x.toNat := by
        simpa [join, BitmapWordSize.blocks] using hlow
      rw [hjoin, BitVec.toNat_ofNat, mod_eq_of_lt x.isLt]
    · have hcount : compressBlockCount (some words) = words.length * 2 := by
        simp only [compressBlockCount, if_neg hone]
      refine ⟨by omega, ?_, ?_⟩
      · rw [hcount, decompressWordCount, if_neg (by omega), if_pos (by omega),
          Nat.mul_div_cancel _ (by decide)]
      · exact hall _ (by rw [hcount, mul_comm]; rfl)

theorem exists_writeData (ha : a.Fits) :
    ∃ bytes, writeData a = .ok (varlena bytes) ∧ 2 ≤ bytes.length ∧
      bytes.length ≤ 4 * compressBlockCount a + bitmapCompressionHeaderSize ∧
      readData bw (varlena bytes) = .ok a := by
  have hcount := ha.compressBlockCount_le
  obtain ⟨len, out, hcompress, _, hmax, _, _, hinit, hok, hblocks, hdecompress⟩ :=
    bitmapCompress_decompressesTo .default (diskBlocks a)
      (4 * compressBlockCount a + bitmapCompressionHeaderSize)
      (by rw [length_diskBlocks]; omega)
      (by rw [length_diskBlocks, bitmapCompressionHeaderSize]; omega)
  have hlen : (out.take len).length = len := by
    rw [length_take]
    omega
  refine ⟨out.take len, ?_, by omega, by omega, ?_⟩
  · have hfits : a.words.length ≤ visimapMaxBitmapWordCount bw ∧
        4 * compressBlockCount a + bitmapCompressionHeaderSize ≤ visimapDataBufferSize := by
      refine ⟨ha.words_le, ?_⟩
      simp only [bitmapCompressionHeaderSize, visimapDataBufferSize, visimapDataOffset,
        visimapMaxBitmapSize]
      omega
    unfold writeData
    rw [diskBlocks] at hcompress
    simp [if_pos hfits, hcompress, varlena, hlen]
  · rw [bitmapCompressionHeaderSize] at hmax
    have hsize : varsize (varlena (out.take len)) - visimapDataOffset = (out.take len).length := by
      have hvar := varsize_varlena (by omega : (out.take len).length < 2 ^ 20) []
      rw [append_nil] at hvar
      rw [hvar, length_varlena, visimapDataOffset]
      omega
    rw [readData, hsize, drop_varlena]
    simp only [hinit, hok, Bool.false_eq_true, if_false]
    rw [length_diskBlocks] at hblocks hdecompress
    rw [hblocks]
    rcases a with _ | words
    · cases bw <;> rfl
    · obtain ⟨hpos, hle⟩ := ha words rfl
      obtain ⟨hcountpos, hwords, hpack⟩ := pack_diskBlocks hpos
      simp [hwords, if_pos hle, if_pos hcountpos, hdecompress, hpack]

/-- **What an entry writes it reads back**, and the data fits the entry's buffer. -/
theorem readData_writeData (ha : a.Fits) :
    ∃ bytes, writeData a = .ok (varlena bytes) ∧ 2 ≤ bytes.length ∧ bytes.length ≤ 4098 ∧
      readData bw (varlena bytes) = .ok a := by
  obtain ⟨bytes, hwrite, hmin, hmax, hread⟩ := exists_writeData ha
  have hcount := ha.compressBlockCount_le
  rw [bitmapCompressionHeaderSize] at hmax
  exact ⟨bytes, hwrite, hmin, by omega, hread⟩

theorem fits_of_readData {data : List Byte} (h : readData bw data = .ok a) : a.Fits := by
  unfold readData at h
  rcases hinit : init (data.drop visimapDataOffset)
    (varsize data - visimapDataOffset) with ⟨ok, state⟩
  simp only [hinit] at h
  by_cases herr : state.hasError = true
  · simp [herr] at h
  rw [if_neg herr] at h
  rcases hwords : decompressWordCount bw state.blockCount with _ | n
  · simp [hwords] at h
  simp only [hwords] at h
  split at h
  next hle =>
    split_ifs at h with hpos
    · rcases hd : state.decompress state.blockCount with _ | _
      · simp [hd] at h
      simp only [hd, Except.ok.injEq] at h
      subst h
      intro words heq
      cases heq
      rw [length_pack]
      refine ⟨?_, hle⟩
      cases bw with
      | bits32 =>
        simp only [decompressWordCount, Option.some.injEq] at hwords
        omega
      | bits64 =>
        simp only [decompressWordCount] at hwords
        split_ifs at hwords <;> simp only [Option.some.injEq] at hwords <;> omega
    · cases h
      intro words heq
      cases heq
  next hle => cases h

/-! ### Hiding and checking rows -/

namespace AppendOnlyVisimapEntry

theorem isVisible_eq (e : AppendOnlyVisimapEntry bw) (tupleId : AOTupleId) :
    e.isVisible tupleId = !(e.bitmap.isMember (e.getRownumOffset tupleId.rowNum)) := by
  unfold isVisible
  split_ifs with hempty
  · rw [isMember_of_isEmpty hempty, Bool.not_false]
  · rfl

theorem getMinimalSizeToCover_bounds (bw : BitmapWordSize) {offset : ℕ}
    (hoffset : offset < visimapMaxRange) : offset / bw.bits < getMinimalSizeToCover bw offset ∧
      getMinimalSizeToCover bw offset ≤ visimapMaxBitmapWordCount bw := by
  have hshift : ∀ (n m k : ℕ), m < 2 ^ k → m ||| m >>> n < 2 ^ k := fun n m k hm =>
    or_lt_two_pow hm (lt_of_le_of_lt (shiftRight_le m n) hm)
  have hpow : ∃ k, visimapMaxBitmapWordCount bw = 2 ^ k ∧ offset / bw.bits < 2 ^ k := by
    rw [visimapMaxRange] at hoffset
    cases bw with
    | bits32 => exact ⟨10, by decide, by simp only [BitmapWordSize.bits, BitmapWordSize.blocks]; omega⟩
    | bits64 => exact ⟨9, by decide, by simp only [BitmapWordSize.bits, BitmapWordSize.blocks]; omega⟩
  obtain ⟨k, hmax, hlt⟩ := hpow
  constructor
  · unfold getMinimalSizeToCover
    refine lt_succ_of_le ?_
    iterate 5 refine le_trans ?_ left_le_or
    exact le_rfl
  · rw [hmax]
    exact hshift 16 _ k (hshift 8 _ k (hshift 4 _ k (hshift 2 _ k (hshift 1 _ k hlt))))

theorem exists_grown {offset : ℕ} (hfits : a.Fits) (hoffset : offset < visimapMaxRange) :
    ∃ words, (if !(a.coversMember offset) then a.resize (getMinimalSizeToCover bw offset) else a) =
        some words ∧ offset / bw.bits < words.length ∧
      words.length ≤ visimapMaxBitmapWordCount bw ∧
      ∀ x, isMember x (some words) = a.isMember x := by
  obtain ⟨_, _⟩ := getMinimalSizeToCover_bounds bw hoffset
  by_cases hcov : a.coversMember offset = true
  · rw [hcov, Bool.not_true, if_neg Bool.false_ne_true]
    rcases a with _ | words
    · cases hcov
    · exact ⟨words, rfl, by simpa [coversMember] using hcov, (hfits words rfl).2, fun _ => rfl⟩
  rw [Bool.not_eq_true] at hcov
  rw [hcov, Bool.not_false, if_pos rfl]
  have hmem := isMember_resize a (getMinimalSizeToCover bw offset)
  rcases a with _ | words
  · exact ⟨_, rfl, by rwa [length_replicate], by rwa [length_replicate], hmem⟩
  have hlen : ¬ words.length ≥ getMinimalSizeToCover bw offset := by
    have : words.length ≤ offset / bw.bits := by simpa [coversMember] using hcov
    omega
  rw [resize, if_neg hlen] at hmem ⊢
  refine ⟨_, rfl, ?_, ?_, hmem⟩ <;> rw [length_append, length_replicate] <;> omega

/-- What hiding a row answers, by its bit and the mark of the entry before. -/
def hideResult (hidden dirty : Bool) : TMResult :=
  if !hidden then .ok else if dirty then .selfModified else .updated

/-- **Hiding a row** adds it to the bitmap and marks the entry as changed. -/
theorem exists_hideTuple (e : AppendOnlyVisimapEntry bw) (tupleId : AOTupleId)
    (hfits : e.bitmap.Fits) (hoffset : e.getRownumOffset tupleId.rowNum < visimapMaxRange) :
    ∃ bitmap, e.hideTuple tupleId =
        (hideResult (e.bitmap.isMember (e.getRownumOffset tupleId.rowNum)) e.dirty,
          { e with bitmap := bitmap, dirty := true }) ∧
      bitmap.Fits ∧ ∀ x, bitmap.isMember x =
        (e.bitmap.isMember x || decide (x = e.getRownumOffset tupleId.rowNum)) := by
  obtain ⟨words, hgrown, hcover, hmax, hmem⟩ := exists_grown hfits hoffset
  have hfits' : Fits (some words) := by
    rintro words' ⟨⟩
    exact ⟨zero_lt_of_lt hcover, hmax⟩
  unfold hideTuple hideResult
  simp only [hgrown]
  rw [← hmem (e.getRownumOffset tupleId.rowNum)]
  by_cases hnew : isMember (e.getRownumOffset tupleId.rowNum) (some words) = true
  · have hset : ∀ x, isMember x (some words) =
        (e.bitmap.isMember x || decide (x = e.getRownumOffset tupleId.rowNum)) := by
      intro x
      by_cases hx : x = e.getRownumOffset tupleId.rowNum
      · rw [decide_eq_true hx, hx, hnew, Bool.or_true]
      · rw [hmem, decide_eq_false hx, Bool.or_false]
    refine ⟨some words, ?_, hfits', hset⟩
    simp only [hnew, Bool.not_true, Bool.false_eq_true, if_false]
    split_ifs <;> rfl
  · rw [Bool.not_eq_true] at hnew
    refine ⟨addMember (some words) (e.getRownumOffset tupleId.rowNum), ?_, ?_, ?_⟩
    · simp [hnew]
    · have hin : ¬ e.getRownumOffset tupleId.rowNum / bw.bits ≥ words.length := by omega
      simp only [addMember, if_neg hin]
      rintro words' ⟨⟩
      rw [length_modify]
      exact ⟨zero_lt_of_lt hcover, hmax⟩
    · intro x
      rw [isMember_addMember, hmem]

end AppendOnlyVisimapEntry

end Cloudberry.AppendOnly
