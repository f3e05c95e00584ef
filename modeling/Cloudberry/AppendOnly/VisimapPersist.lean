/-
# Persisting a visibility map entry

Rows of an entry are hidden one after the other, in any order; the bitmap grows to the next
power of two words on the way. `AppendOnlyVisimapEntry_WriteData` compresses it and
`AppendOnlyVisiMapEnty_ReadData` expands it again, with 32-bit or with 64-bit words.
-/

import Cloudberry.AppendOnly.BitmapsetMembers
import Cloudberry.AppendOnly.VisimapEntry

namespace Cloudberry.AppendOnly

open List Bitmapset

variable {bw : BitmapWordSize}

namespace AppendOnlyVisimapEntry

section

variable (e : AppendOnlyVisimapEntry bw)

def getHiddenTupleCount : ℕ := e.bitmap.numMembers

/-- The id of the row at an offset of the entry. -/
def tupleAt (offset : ℕ) : AOTupleId :=
  AOTupleId.init e.segmentFileNum.toNat (e.firstRowNum + offset).toNat

/-- `AppendOnlyVisimapEntry_GetNextInvisible`. The id is `none` after `AOTupleIdSetInvalid`: its
segment file number is then 127 and its row number is read as -1, which no entry covers. (Built
with assertion checks, that read stops the backend if the entry is of segment file 127.) -/
def getNextInvisible (tupleId : Option AOTupleId) : Option AOTupleId :=
  let currentBitmapOffset : ℤ := match tupleId with
    | none => -1
    | some tupleId =>
      if e.coversTuple tupleId then e.getRownumOffset tupleId.rowNum else -1
  (e.bitmap.nextMember currentBitmapOffset).map e.tupleAt

def hideOffsets (offsets : List ℕ) : AppendOnlyVisimapEntry bw :=
  offsets.foldl (fun e offset => (e.hideTuple (e.tupleAt offset)).2) e

/-- What a reader of the entry sees if the hidden rows are those of `S`. -/
structure HidesExactly (S : Finset ℕ) : Prop where
  invisible : ∀ tupleId, e.coversTuple tupleId = true →
    (e.isVisible tupleId = false ↔ e.getRownumOffset tupleId.rowNum ∈ S)
  count : e.getHiddenTupleCount = S.card
  /-- Asked again and again from before the entry, and once more when all are out. -/
  next : ∀ start, (∀ tupleId, start = some tupleId → e.coversTuple tupleId = false) →
    ∀ n, S.card < n → NextMember.calls e.getNextInvisible n start = S.sort.map e.tupleAt

end

/-! ### The rows of an entry -/

/-- The entry is for a range of rows that have tuple ids. -/
structure Placed (e : AppendOnlyVisimapEntry bw) : Prop where
  seg_nonneg : 0 ≤ e.segmentFileNum
  seg_lt : e.segmentFileNum < 128
  first_nonneg : 0 ≤ e.firstRowNum
  first_le : e.firstRowNum + visimapMaxRange ≤ 2 ^ 40

theorem placed_new (e : AppendOnlyVisimapEntry bw) (tupleId : AOTupleId) :
    (e.new tupleId).Placed := by
  have hseg := tupleId.segmentFileNum_lt
  have hrow := tupleId.rowNum_lt
  refine ⟨?_, ?_, ?_, ?_⟩ <;> simp only [new, getFirstRowNum, visimapMaxRange] <;> omega

variable {e : AppendOnlyVisimapEntry bw} {offset : ℕ}

variable (he : e.Placed)
include he

section

variable (hoffset : offset < visimapMaxRange)
include hoffset

theorem Placed.rowNum_tupleAt : ((e.tupleAt offset).rowNum : ℤ) = e.firstRowNum + offset := by
  have hnonneg := he.first_nonneg
  have hle := he.first_le
  rw [tupleAt, AOTupleId.rowNum_init _ (by omega)]
  omega

theorem Placed.getRownumOffset_tupleAt : e.getRownumOffset (e.tupleAt offset).rowNum = offset := by
  rw [getRownumOffset, he.rowNum_tupleAt hoffset]
  omega

theorem Placed.coversTuple_tupleAt : e.coversTuple (e.tupleAt offset) = true := by
  have hseg := he.seg_nonneg
  have hlt := he.seg_lt
  have hfirst := he.first_nonneg
  have hsegment : e.segmentFileNum = ((e.tupleAt offset).segmentFileNum : ℤ) := by
    rw [tupleAt, AOTupleId.segmentFileNum_init (by omega)]
    omega
  have hvalid : e.isValid = true := by
    simp only [isValid, Bool.and_eq_true, decide_eq_true_eq]
    exact ⟨hseg, hfirst⟩
  rw [coversTuple, hvalid, Bool.not_true, if_neg Bool.false_ne_true, if_neg (not_not.2 hsegment),
    he.rowNum_tupleAt hoffset]
  simp only [Bool.and_eq_true, decide_eq_true_eq]
  omega

end

/-! ### Hiding and reading -/

/-- **Hidden in any order**, the rows of the list join those hidden before. -/
theorem hideOffsets_spec (hfits : e.bitmap.Fits) {offsets : List ℕ}
    (hoffsets : ∀ offset ∈ offsets, offset < visimapMaxRange) :
    (e.hideOffsets offsets).segmentFileNum = e.segmentFileNum ∧
      (e.hideOffsets offsets).firstRowNum = e.firstRowNum ∧
      (e.hideOffsets offsets).bitmap.Fits ∧
      ∀ x, (e.hideOffsets offsets).bitmap.isMember x = true ↔
        e.bitmap.isMember x = true ∨ x ∈ offsets := by
  induction offsets generalizing e with
  | nil => exact ⟨rfl, rfl, hfits, fun x => by simp [hideOffsets]⟩
  | cons offset offsets ih =>
    obtain ⟨hoffset, hrest⟩ := forall_mem_cons.1 hoffsets
    have hrow := he.getRownumOffset_tupleAt hoffset
    obtain ⟨bitmap, hhide, hfits', hmem⟩ :=
      exists_hideTuple e (e.tupleAt offset) hfits (hrow.symm ▸ hoffset)
    have hstep : e.hideOffsets (offset :: offsets) =
        hideOffsets { e with bitmap := bitmap, dirty := true } offsets := by
      rw [hideOffsets, foldl_cons, hhide]
      rfl
    have he' : Placed { e with bitmap := bitmap, dirty := true } :=
      ⟨he.seg_nonneg, he.seg_lt, he.first_nonneg, he.first_le⟩
    obtain ⟨hseg, hfirst, hfits'', hmem'⟩ := ih he' hfits' hrest
    rw [hstep]
    refine ⟨hseg, hfirst, hfits'', fun x => ?_⟩
    rw [hmem', hmem, hrow, Bool.or_eq_true, decide_eq_true_eq, mem_cons, or_assoc]

theorem Placed.hidesExactly (hrange : ∀ x ∈ e.bitmap.members, x < visimapMaxRange) :
    e.HidesExactly e.bitmap.members where
  invisible tupleId _ := by
    rw [isVisible_eq, Bool.not_eq_false', mem_members]
  count := numMembers_eq e.bitmap
  next start hstart n hn := by
    have hfirst : e.getNextInvisible start = (e.bitmap.nextMember (-1)).map e.tupleAt := by
      cases start with
      | none => rfl
      | some tupleId => simp [getNextInvisible, hstart tupleId rfl]
    refine NextMember.calls_eq_sort (fun x hx => ?_) (e.bitmap.nextMember_first) hfirst hn
    refine ⟨_, e.bitmap.nextMember_behind x, ?_⟩
    have hx' := hrange x hx
    simp [getNextInvisible, he.coversTuple_tupleAt hx', he.getRownumOffset_tupleAt hx']

end AppendOnlyVisimapEntry

open AppendOnlyVisimapEntry in
/-- **Persisting an entry loses nothing.**  Whatever rows of a new entry are hidden, and in
whatever order, what it writes stays within the buffer it is compressed into, and the entry
read back hides exactly those rows.  The compression below it is exact for every bitmap that
the header can count, with either coding. -/
theorem persisted_hidesExactly (fresh : AppendOnlyVisimapEntry bw) (tupleId : AOTupleId)
    (offsets : List (Fin visimapMaxRange)) :
    (∃ entry bytes bitmap, entry = (fresh.new tupleId).hideOffsets (offsets.map Fin.val) ∧
      writeData entry.bitmap = .ok (varlena bytes) ∧
      bytes.length ≤ 4 * compressBlockCount entry.bitmap + bitmapCompressionHeaderSize ∧
      (varlena bytes).length ≤ visimapDataBufferSize ∧
      readData bw (varlena bytes) = .ok bitmap ∧
      HidesExactly { entry with bitmap := bitmap } (offsets.map Fin.val).toFinset) ∧
    ∀ compressionType (bitmap : List Block) size, bitmap.length ≤ 4095 →
      bitmap.length * 4 + bitmapCompressionHeaderSize ≤ size →
      ∃ len out, bitmapCompress compressionType bitmap size = .ok (len, out) ∧ len ≤ size ∧
        DecompressesTo (out.take len) bitmap := by
  constructor
  · have hoffsets : ∀ offset ∈ offsets.map Fin.val, offset < visimapMaxRange := by
      intro offset hmem
      obtain ⟨i, -, rfl⟩ := mem_map.1 hmem
      exact i.isLt
    have hplaced := placed_new fresh tupleId
    have hnone : (fresh.new tupleId).bitmap.Fits := by
      intro words hwords
      cases hwords
    obtain ⟨hseg, hfirst, hfits, hmem⟩ := hideOffsets_spec hplaced hnone hoffsets
    set entry := (fresh.new tupleId).hideOffsets (offsets.map Fin.val) with hentry
    obtain ⟨bytes, hwrite, -, hmax, hread⟩ := exists_writeData hfits
    have hcount := hfits.compressBlockCount_le
    have hmembers : entry.bitmap.members = (offsets.map Fin.val).toFinset := by
      ext x
      rw [mem_members, hmem, mem_toFinset]
      exact or_iff_right Bool.false_ne_true
    refine ⟨entry, bytes, entry.bitmap, hentry, hwrite, hmax, ?_, hread, ?_⟩
    · rw [length_varlena, visimapDataBufferSize, visimapDataOffset, visimapMaxBitmapSize]
      omega
    have hplaced' : entry.Placed :=
      ⟨hseg ▸ hplaced.seg_nonneg, hseg ▸ hplaced.seg_lt, hfirst ▸ hplaced.first_nonneg,
        hfirst ▸ hplaced.first_le⟩
    rw [← hmembers]
    refine hplaced'.hidesExactly fun x hx => ?_
    rw [hmembers, mem_toFinset] at hx
    exact hoffsets x hx
  · intro compressionType bitmap size hn hsize
    obtain ⟨len, out, hcompress, -, hmax, -, hdecompress⟩ :=
      bitmapCompress_decompressesTo compressionType bitmap size (Nat.lt_succ_of_le hn) hsize
    exact ⟨len, out, hcompress, hmax, hdecompress⟩

end Cloudberry.AppendOnly
