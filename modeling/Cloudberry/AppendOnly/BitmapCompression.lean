/-
# The compression of visibility bitmaps

`utils/misc/bitmap_compression.c`. A bitmap is compressed as a sequence of 32-bit blocks:
a header of 16 bits (compression type, 3 reserved bits, number of blocks) and then, with the
default compression, for each block two bits that say whether it is all zero, all one, raw,
or the start of a run that repeats the block before. If the result does not fit into the
output buffer the blocks are stored uncompressed.
-/

import Cloudberry.AppendOnly.Bitstream
import Cloudberry.Lib.LittleEndian

namespace Cloudberry.AppendOnly

abbrev Block : Type := BitVec 32

/-- What follows in the stream: a block of zeros or ones, a run, or 32 bits. -/
inductive BitmapCompressionFlag where
  | zero
  | one
  | rle
  | raw
deriving DecidableEq, Repr

namespace BitmapCompressionFlag

def toBits : BitmapCompressionFlag → BitVec 32
  | zero => 0x00
  | one => 0x01
  | rle => 0x02
  | raw => 0x03

def ofBits (flag : BitVec 32) : Option BitmapCompressionFlag :=
  if flag = 0x00 then some zero
  else if flag = 0x01 then some one
  else if flag = 0x02 then some rle
  else if flag = 0x03 then some raw
  else none

@[simp] theorem ofBits_toBits (flag : BitmapCompressionFlag) : ofBits flag.toBits = some flag := by
  cases flag <;> decide

theorem toBits_lt (flag : BitmapCompressionFlag) : flag.toBits.toNat < 2 ^ 2 := by
  cases flag <;> decide

end BitmapCompressionFlag

/-- `BitmapCompressionType`, with the value it has in the header. -/
inductive BitmapCompressionType where
  | no
  | default
deriving DecidableEq, Repr

def BitmapCompressionType.toBits : BitmapCompressionType → BitVec 32
  | no => 0
  | default => 1

/-- `BITMAP_COMPRESSION_HEADER_SIZE`, in bytes. -/
def bitmapCompressionHeaderSize : ℕ := 2

/-! ### Compression -/

/-- The short runs of `Bitmap_EncodeRLE`: the flag of the last block, once per repetition. -/
def putFlags (flag : BitmapCompressionFlag) : ℕ → Bitstream → Bool × Bitstream
  | 0, s => (true, s)
  | n + 1, s =>
    match s.put flag.toBits 2 with
    | (false, s) => (false, s)
    | (true, s) => putFlags flag n s

/-- A run of more than four blocks, or of raw ones, is written with its length. -/
def bitmapEncodeRLE (s : Bitstream) (rleRepeatCount : ℕ) (lastBlockFlag : BitmapCompressionFlag) :
    Bool × Bitstream :=
  if lastBlockFlag = .raw ∨ rleRepeatCount > 4 then
    match s.put BitmapCompressionFlag.rle.toBits 2 with
    | (false, s) => (false, s)
    | (true, s) => s.put (BitVec.ofNat 32 (rleRepeatCount - 1)) 8
  else putFlags lastBlockFlag rleRepeatCount s

/-- The flag a block is written with when it does not continue a run. -/
def blockFlag (blockData : Block) : BitmapCompressionFlag :=
  if blockData = 0 then .zero
  else if blockData = 0xFFFFFFFF then .one
  else .raw

/-- The block itself, as `Bitmap_Compress_Default` writes it. -/
def putBlock (s : Bitstream) (blockData : Block) : Bool × Bitstream :=
  match s.put (blockFlag blockData).toBits 2 with
  | (false, s) => (false, s)
  | (true, s) => if blockFlag blockData = .raw then s.put blockData 32 else (true, s)

/-- The pending run, written before a block that ends it and at the end of the bitmap. -/
def flushRLE (s : Bitstream) (rleRepeatCount : ℕ) (lastBlockFlag : BitmapCompressionFlag) :
    Bool × Bitstream :=
  if rleRepeatCount > 0 then bitmapEncodeRLE s rleRepeatCount lastBlockFlag else (true, s)

/-- The loop of `Bitmap_Compress_Default` from block number `i` on. -/
def compressDefaultLoop : List Block → (i : ℕ) → (lastBlockData : Block) →
    (lastBlockFlag : BitmapCompressionFlag) → (rleRepeatCount : ℕ) → Bitstream →
    Bool × Bitstream
  | [], _, _, lastBlockFlag, rleRepeatCount, s => flushRLE s rleRepeatCount lastBlockFlag
  | blockData :: bitmap, i, lastBlockData, lastBlockFlag, rleRepeatCount, s =>
    if blockData = lastBlockData ∧ rleRepeatCount ≤ 255 ∧ i > 0 then
      compressDefaultLoop bitmap (i + 1) lastBlockData lastBlockFlag (rleRepeatCount + 1) s
    else
      match flushRLE s rleRepeatCount lastBlockFlag with
      | (false, s) => (false, s)
      | (true, s) =>
        match putBlock s blockData with
        | (false, s) => (false, s)
        | (true, s) => compressDefaultLoop bitmap (i + 1) blockData (blockFlag blockData) 0 s

def bitmapCompressDefault (bitmap : List Block) (s : Bitstream) : Bool × Bitstream :=
  compressDefaultLoop bitmap 0 0 .zero 0 s

/-- Type, reserved bits and number of blocks. -/
def bitmapCompressWriteHeader (compressionType : BitmapCompressionType) (blockCount : ℕ)
    (s : Bitstream) : Bool × Bitstream :=
  match s.put compressionType.toBits 1 with
  | (false, s) => (false, s)
  | (true, s) =>
    match s.skip 3 with
    | (false, s) => (false, s)
    | (true, s) => s.put (BitVec.ofNat 32 blockCount) 12

/-- `memcpy` of bytes into a buffer. -/
def memcpyAt (data : List Byte) (place : ℕ) (bytes : List Byte) : List Byte :=
  data.take place ++ bytes ++ data.drop (place + bytes.length)

/-- `Bitmap_Compress` with `BITMAP_COMPRESSION_TYPE_NO`: the size and the output buffer. -/
def bitmapCompressNo (bitmap : List Block) (maxOutDataSize : ℕ) : Except String (ℕ × List Byte) :=
  let s := Bitstream.init (List.replicate maxOutDataSize 0) maxOutDataSize
  match bitmapCompressWriteHeader .no bitmap.length s with
  | (false, _) => .error "Failed to write bitmap compression header"
  | (true, s) =>
    if bitmap.length = 0 then .ok (2, s.data)
    else
      let (place, s) := s.getAlignedData 16
      .ok (bitmap.length * 4 + 2, memcpyAt s.data place (LittleEndian.unpack 8 4 bitmap))

/-- If the compressed form does not fit, the blocks are stored as they are. -/
def bitmapCompress (compressionType : BitmapCompressionType) (bitmap : List Block)
    (maxOutDataSize : ℕ) : Except String (ℕ × List Byte) :=
  match compressionType with
  | .no => bitmapCompressNo bitmap maxOutDataSize
  | .default =>
    let s := Bitstream.init (List.replicate maxOutDataSize 0) maxOutDataSize
    match bitmapCompressWriteHeader .default bitmap.length s with
    | (false, _) => .error "Failed to write bitmap compression header"
    | (true, s) =>
      match bitmapCompressDefault bitmap s with
      | (false, _) => bitmapCompressNo bitmap maxOutDataSize
      | (true, s) => .ok (s.getLength, s.data)

/-! ### Decompression -/

/-- The stream behind the header, and what the header said. -/
structure BitmapDecompressState where
  bitstream : Bitstream
  compressionType : BitmapCompressionType
  blockCount : ℕ
deriving DecidableEq, Repr

namespace BitmapDecompressState

/-- `BitmapDecompress_Init`; what it does not get to read is zero here. -/
def init (inData : List Byte) (inDataSize : ℕ) : Bool × BitmapDecompressState :=
  match (Bitstream.init inData inDataSize).get 1 with
  | (none, s) => (false, ⟨s, .no, 0⟩)
  | (some tmp, s) =>
    let compressionType : BitmapCompressionType := if tmp = 0 then .no else .default
    match s.skip 3 with
    | (false, s) => (false, ⟨s, compressionType, 0⟩)
    | (true, s) =>
      match s.get 12 with
      | (none, s) => (false, ⟨s, compressionType, 0⟩)
      | (some tmp, s) => (true, ⟨s, compressionType, tmp.toNat⟩)

/-- `BitmapDecompress_HasError` -/
def hasError (state : BitmapDecompressState) : Bool := state.bitstream.hasError

/-- The loop of `BitmapDecompress_Decompress` over the blocks still to fill: the blocks, the
repetitions left of the last run, and whether a read failed. The output starts out zeroed,
so a block that is not assigned is zero. -/
def decompressLoop : ℕ → (lastBlockData : Block) → (rleRepeatCount : ℕ) → (failed : Bool) →
    (bitmap : List Block) → Bitstream → Except String (List Block × ℕ × Bool)
  | 0, _, rleRepeatCount, failed, bitmap, _ => .ok (bitmap, rleRepeatCount, failed)
  | n + 1, lastBlockData, rleRepeatCount + 1, failed, bitmap, s =>
    decompressLoop n lastBlockData rleRepeatCount failed (bitmap ++ [lastBlockData]) s
  | n + 1, lastBlockData, 0, failed, bitmap, s =>
    match s.get 2 with
    | (none, _) => .ok (bitmap ++ List.replicate (n + 1) 0, 0, true)
    | (some flag, s) =>
      match BitmapCompressionFlag.ofBits flag with
      | some .zero => decompressLoop n 0 0 failed (bitmap ++ [0]) s
      | some .one => decompressLoop n 0xFFFFFFFF 0 failed (bitmap ++ [0xFFFFFFFF]) s
      | some .raw =>
        match s.get 32 with
        | (none, s) => decompressLoop n 0 0 true (bitmap ++ [0]) s
        | (some blockData, s) => decompressLoop n blockData 0 failed (bitmap ++ [blockData]) s
      | some .rle =>
        match s.get 8 with
        | (none, s) => decompressLoop n 0 0 true (bitmap ++ [0]) s
        | (some repeats, s) =>
          decompressLoop n lastBlockData repeats.toNat failed (bitmap ++ [lastBlockData]) s
      | none => .error "Invalid compression flag"

/-- `BitmapDecompress_Decompress`. Without compression the blocks are copied from the buffer
whatever its size; a copy from beyond the buffer is an error here. -/
def decompress (state : BitmapDecompressState) (bitmapDataSize : ℕ) : Except String (List Block) :=
  let blockCount := state.blockCount
  let compressionType := state.compressionType.toBits.toNat
  if blockCount > bitmapDataSize then
    .error s!"invalid block count for bitmap during decompression: block count {blockCount}, compression type {compressionType}"
  else
    match state.compressionType with
    | .no =>
      let (place, s) := state.bitstream.getAlignedData 16
      if place + 4 * blockCount ≤ s.data.length then
        .ok (LittleEndian.pack 32 4 blockCount (s.data.drop place))
      else .error "copy from beyond the buffer"
    | .default =>
      match decompressLoop blockCount 0 0 false [] state.bitstream with
      | .error e => .error e
      | .ok (bitmap, rleRepeatCount, failed) =>
        if rleRepeatCount > 0 then
          .error s!"illegal RLE state after bitmap decompression: block count {blockCount}, compression type {compressionType}, rle repeat count {rleRepeatCount}"
        else if failed then
          .error s!"bitstream read error seen during decompression: block count {blockCount}, compression type {compressionType}"
        else .ok bitmap

end BitmapDecompressState

end Cloudberry.AppendOnly
