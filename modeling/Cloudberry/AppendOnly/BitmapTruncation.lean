/-
# Truncated compressed bitmaps

What `BitmapDecompress_Init` and `BitmapDecompress_Decompress` make of compressed data that is
cut off. With the default coding a cut is always found: the first code that does not lie in
the data as a whole makes a read fail, and a failed read ends in an error
(`decompressLoop_short`). Blocks that are stored as they are, which is also what the default
compression falls back to, are copied without a look at `inDataSize`.
-/

import Cloudberry.AppendOnly.BitmapRoundTrip

namespace Cloudberry.AppendOnly

open List Bitstream BitList BitmapDecompressState LittleEndian

theorem exists_drop_of_take_eq {xs ys chunk rest : List Bool} {o m : ℕ}
    (hagree : xs.take m = ys.take m) (hm : o + chunk.length ≤ m)
    (hys : ys.drop o = chunk ++ rest) : ∃ rest', xs.drop o = chunk ++ rest' := by
  have htake : (xs.drop o).take (m - o) = chunk ++ rest.take (m - o - chunk.length) := by
    rw [← drop_take, hagree, drop_take, hys, take_append, take_of_length_le (by omega)]
  refine ⟨rest.take (m - o - chunk.length) ++ (xs.drop o).drop (m - o), ?_⟩
  rw [← append_assoc, ← htake, take_append_drop]

/-! ### Codes that are cut -/

namespace BitmapDecompressState

variable {data : List Byte} {size o n : ℕ} {failed : Bool} {last : Block} {bitmap : List Block}

theorem decompressLoop_error {s : Bitstream} (hs : s.error = true) :
    ∃ blocks, decompressLoop n last 0 true bitmap s = .ok (blocks, 0, true) := by
  cases n with
  | zero => exact ⟨_, rfl⟩
  | succ n => exact ⟨_, by rw [decompressLoop, get_of_error hs]⟩

theorem decompressLoop_cut (flag : BitmapCompressionFlag) (ho : o ≤ 8 * size)
    (hcut : 8 * size < o + (2 + if flag = .raw then 32 else if flag = .rle then 8 else 0))
    (hflag : o + 2 ≤ 8 * size → ∃ rest, (ofBytes data).drop o = ofNat 2 flag.toBits.toNat ++ rest) :
    ∃ blocks, decompressLoop (n + 1) last 0 failed bitmap (cursor data size o) =
      .ok (blocks, 0, true) := by
  rw [decompressLoop]
  by_cases hin : o + 2 ≤ 8 * size
  · obtain ⟨rest, hbits⟩ := hflag hin
    rw [get_flag hin hbits]
    cases flag with
    | zero | one =>
      simp only [reduceCtorEq, if_false] at hcut
      omega
    | rle | raw =>
      simp only [reduceCtorEq, if_false, if_true, ← add_assoc] at hcut
      obtain ⟨s, hget, herror⟩ := Bitstream.getLoop_short data hin hcut 0
      simp only [Bitstream.get, hget]
      exact decompressLoop_error herror
  · obtain ⟨s, hget, -⟩ := Bitstream.getLoop_short data ho (not_le.1 hin) 0
    simp only [Bitstream.get, hget]
    exact ⟨_, rfl⟩

/-- **The reader finds every cut** in a sequence of codes. -/
theorem decompressLoop_short {l l' : Option Block} {bits rest full : List Bool}
    {blocks : List Block} (hcoded : Coded l bits blocks l')
    (hagree : (ofBytes data).take (8 * size) = full.take (8 * size)) (ho : o ≤ 8 * size)
    (hshort : 8 * size < o + bits.length) (hbits : full.drop o = bits ++ rest) :
    ∃ out, decompressLoop blocks.length (l.getD 0) 0 failed bitmap
      (cursor data size o) = .ok (out, 0, true) := by
  induction hcoded generalizing o bitmap with
  | nil =>
    rw [length_nil] at hshort
    omega
  | block b _ ih =>
    rw [length_append, ← add_assoc] at hshort
    rw [append_assoc] at hbits
    rw [length_cons]
    by_cases hin : o + (blockBits b).length ≤ 8 * size
    · obtain ⟨rest', hdata⟩ := exists_drop_of_take_eq hagree hin hbits
      rw [decompressLoop_block hin hdata]
      exact ih hin hshort (drop_of_drop_append hbits)
    apply decompressLoop_cut (blockFlag b) ho
    · rw [blockBits, length_append, length_ofNat] at hin
      rcases blockFlag_cases b with ⟨hflag, -⟩ | ⟨hflag, -⟩ | hflag
      all_goals
        simp only [hflag, reduceCtorEq, if_false, if_true, length_ofNat, length_nil] at hin ⊢
        omega
    · intro hflag
      exact exists_drop_of_take_eq hagree (by rwa [length_ofNat]) hbits
  | @run l' b k bits blocks hk _ ih =>
    rw [length_append, ← add_assoc] at hshort
    rw [length_append, length_replicate]
    by_cases hin : o + (runBits k).length ≤ 8 * size
    · obtain ⟨rest', hdata⟩ := exists_drop_of_take_eq hagree hin hbits
      rw [Option.getD_some, decompressLoop_run hk hin hdata]
      exact ih hin hshort (drop_of_drop_append hbits)
    rw [add_right_comm]
    apply decompressLoop_cut .rle ho (not_le.1 hin)
    intro hflag
    exact exists_drop_of_take_eq hagree (by rwa [length_ofNat]) hbits

theorem init_short (hsize : size < 2) : (init data size).1 = false := by
  rw [init, init_eq]
  rcases hget : (cursor data size 0).get 1 with ⟨v, s⟩
  cases v with
  | none => rfl
  | some v =>
    obtain rfl : size = 1 := by
      by_contra hne
      obtain ⟨s', hshort, -⟩ := Bitstream.getLoop_short data (show 0 ≤ 8 * size from zero_le)
        (show 8 * size < 0 + 1 by omega) 0
      rw [Bitstream.get, hshort] at hget
      cases hget
    rw [Bitstream.get, Bitstream.getLoop, Bitstream.getBit,
      Bitstream.checkForError_cursor (by decide)] at hget
    simp only [Bitstream.advance_cursor, Bitstream.getLoop] at hget
    obtain rfl := (Prod.mk.inj hget).2
    simp only [skip_cursor (show 0 + 1 < 8 * 1 by decide)]
    obtain ⟨s', hshort, -⟩ := Bitstream.getLoop_short data
      (show 0 + 1 + 3 ≤ 8 * 1 by decide) (show 8 * 1 < 0 + 1 + 3 + 12 by decide) 0
    simp only [Bitstream.get, hshort]

end BitmapDecompressState

/-! ### Cut data -/

variable {bitmap : List Block} {inData : List Byte} {inDataSize : ℕ}

/-- What the reader makes of the first `inDataSize` bytes at `inData`: nothing if
`BitmapDecompress_Init` reports an error, otherwise what `BitmapDecompress_Decompress` does
with room for the blocks that the header announces. -/
def readBitmap (inData : List Byte) (inDataSize : ℕ) : Option (Except String (List Block)) :=
  match BitmapDecompressState.init inData inDataSize with
  | (false, _) => none
  | (true, state) => some (state.decompress state.blockCount)

/-- The reader does not return a bitmap from the first `inDataSize` bytes, and what it does
depends on no other byte. -/
def Detected (inData : List Byte) (inDataSize : ℕ) : Prop :=
  ∀ memory : List Byte, memory.take inDataSize = inData.take inDataSize →
    readBitmap memory inDataSize = readBitmap inData inDataSize ∧
      ∀ bitmap, readBitmap memory inDataSize ≠ some (.ok bitmap)

theorem detected_of_forall (result : Option (Except String (List Block)))
    (hresult : ∀ bitmap, result ≠ some (.ok bitmap))
    (hread : ∀ memory : List Byte, memory.take inDataSize = inData.take inDataSize →
      readBitmap memory inDataSize = result) : Detected inData inDataSize := by
  intro memory hmemory
  rw [hread memory hmemory, hread inData rfl]
  exact ⟨rfl, hresult⟩

theorem detected_header (hsize : inDataSize < 2) : Detected inData inDataSize := by
  refine detected_of_forall none (fun _ h => by cases h) fun memory _ => ?_
  have hinit : (BitmapDecompressState.init memory inDataSize).1 = false := init_short hsize
  unfold readBitmap
  rcases hstate : BitmapDecompressState.init memory inDataSize with ⟨ok, _⟩
  rw [hstate] at hinit
  obtain rfl : ok = false := hinit
  rfl

section

variable (hn : bitmap.length < 4096)
include hn

theorem detected_default {code pad : List Bool} {l : Option Block}
    (himg : ofBytes inData = headerBits .default bitmap.length ++ (code ++ pad))
    (hcoded : Coded none code bitmap l) (hsize : 2 ≤ inDataSize)
    (hcut : 8 * inDataSize < 16 + code.length) : Detected inData inDataSize := by
  let compressionType := BitmapCompressionType.default.toBits.toNat
  refine detected_of_forall (some (.error
    s!"bitstream read error seen during decompression: block count {bitmap.length}, compression type {compressionType}"))
    (fun _ h => by cases h) fun memory hmemory => ?_
  have hagree : (ofBytes memory).take (8 * inDataSize) =
      (ofBytes inData).take (8 * inDataSize) := by
    rw [← ofBytes_take, hmemory, ofBytes_take]
  obtain ⟨_, hheader⟩ := exists_drop_of_take_eq (o := 0) hagree
    (by rw [length_headerBits]; omega) himg
  obtain ⟨_, hloop⟩ : ∃ out, decompressLoop bitmap.length (none.getD 0) 0 false []
      (cursor memory inDataSize 16) = .ok (out, 0, true) :=
    decompressLoop_short hcoded hagree (by omega) hcut
      (by rw [himg, drop_left' (length_headerBits _ _)])
  rw [Option.getD_none] at hloop
  rw [readBitmap, init_header hn hheader hsize]
  simp only [decompress, gt_iff_lt, lt_irrefl, if_false, hloop, if_true]
  rfl

/-- Blocks that are stored as they are come back from the header alone. -/
theorem not_detected_no (himg : headerBits .no bitmap.length <+: ofBytes inData)
    (hroom : 2 + 4 * bitmap.length ≤ inData.length) : ¬ Detected inData 2 := by
  intro h
  obtain ⟨_, himg⟩ := himg
  apply (h inData rfl).2 (pack 32 4 bitmap.length (inData.drop 2))
  rw [readBitmap, init_header hn himg.symm le_rfl]
  simp only [decompress, gt_iff_lt, lt_irrefl, if_false, getAlignedData_cursor]
  rw [if_pos (by simpa [cursor] using hroom)]
  rfl

theorem bitmapCompressNo_not_detected {size : ℕ} (hne : bitmap ≠ [])
    (hsize : bitmap.length * 4 + 2 ≤ size) :
    ∃ len out, bitmapCompressNo bitmap size = .ok (len, out) ∧ ¬ ∀ i < len, Detected out i := by
  obtain ⟨s, hput, hs, hdata⟩ := writeHeader_written .no hn (show 2 ≤ size by omega)
  have hfull : s.data.length = size := hs.full.trans hdata
  have hpos := length_pos_iff.2 hne
  refine ⟨bitmap.length * 4 + 2, memcpyAt s.data 2 (unpack 8 4 bitmap), ?_, fun h => ?_⟩
  · simp only [bitmapCompressNo, hput]
    rw [if_neg hpos.ne', hs.cursor, length_headerBits, getAlignedData_cursor]
  have hdetected := h 2 (by omega)
  rw [memcpyAt, append_assoc] at hdetected
  refine not_detected_no hn ?_ ?_ hdetected
  · rw [ofBytes_append, ofBytes_take, hs.bits, take_left' (length_headerBits _ _)]
    exact prefix_append _ _
  · simp [hfull]
    omega

end

/-- The default compression of the blocks fits into the output buffer. -/
def defaultFits (bitmap : List Block) (maxOutDataSize : ℕ) : Bool :=
  let s := Bitstream.init (List.replicate maxOutDataSize 0) maxOutDataSize
  (bitmapCompressDefault bitmap (bitmapCompressWriteHeader .default bitmap.length s).2).1

/-- **When truncation is detected.**  Every strict prefix of the compressed data of a bitmap is
found to be one exactly if the blocks are stored in the default coding.  The number of blocks
is one that the 12 bits of the header hold, and the buffer one that `Bitmap_Compress` asserts
to be large enough. -/
theorem truncated_detected_iff (compressionType : BitmapCompressionType) (bitmap : List Block)
    (maxOutDataSize : ℕ) (hne : bitmap ≠ []) (hn : bitmap.length < 4096)
    (hsize : bitmap.length * 4 + 2 ≤ maxOutDataSize) :
    ∃ len out, bitmapCompress compressionType bitmap maxOutDataSize = .ok (len, out) ∧
      ((∀ i < len, Detected out i) ↔
        compressionType = .default ∧ defaultFits bitmap maxOutDataSize = true) := by
  obtain ⟨len, out, hno, hundetected⟩ := bitmapCompressNo_not_detected hn hne hsize
  cases compressionType with
  | no => exact ⟨len, out, hno, iff_of_false hundetected fun h => by cases h.1⟩
  | default =>
    obtain ⟨s, hput, _, _⟩ :=
      writeHeader_written .default hn (show 2 ≤ maxOutDataSize by omega)
    simp only [bitmapCompress, defaultFits, hput]
    rcases hcompress : bitmapCompressDefault bitmap s with ⟨ok, _⟩
    cases ok with
    | false => exact ⟨len, out, hno, iff_of_false hundetected fun h => by cases h.2⟩
    | true =>
      refine ⟨_, _, rfl, iff_of_true (fun i hi => ?_) ⟨trivial, rfl⟩⟩
      obtain ⟨_, l, hs', _, hcoded⟩ := compressDefaultLoop_coded
        (Or.inl ⟨rfl, rfl, rfl, rfl⟩) (by rwa [append_nil]) hcompress
      rw [hs'.cursor, Bitstream.getLength_cursor, length_append, length_headerBits] at hi
      rcases Nat.lt_or_ge i 2 with hheader | hheader
      · exact detected_header hheader
      · exact detected_default hn (by rw [hs'.bits, append_assoc]) hcoded hheader (by omega)

/-- Three blocks, of which the first two are the same, in a buffer of 14 bytes. -/
theorem truncated_detected_three :
    ∃ len out, bitmapCompress .default [5, 5, 0] 14 = .ok (len, out) ∧
      ((∀ i < len, Detected out i) ↔
        BitmapCompressionType.default = .default ∧ defaultFits [5, 5, 0] 14 = true) :=
  truncated_detected_iff .default [5, 5, 0] 14 (by decide) (by decide) (by decide)

/-- A block that is neither all zero nor all one does not get smaller by the default
compression, so it is stored as it is; two of its six bytes are read without an error. -/
theorem truncated_block_returned :
    ∃ len out, bitmapCompress .default [5] 6 = .ok (len, out) ∧ 2 < len ∧
      readBitmap out 2 = some (.ok [5]) :=
  ⟨6, [0x00, 0x01, 0x05, 0x00, 0x00, 0x00], by decide, by decide, by decide⟩

end Cloudberry.AppendOnly
