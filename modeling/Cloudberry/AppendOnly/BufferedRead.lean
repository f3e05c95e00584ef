/-
# Buffered reading of append-only files

`cdb/cdbbufferedread.c`. A file is read in large pieces. The caller sees a buffer inside the
large-read memory; where a buffer goes over the end of a large read, its first part is copied
into the memory before the large-read memory and the buffer offset becomes negative.

The two memory areas are one list here, the area before coming first, and an access outside
of it is an error. So are failed assertions, and lengths that would be negative.
-/

import Cloudberry.Lib.ByteArea
import Cloudberry.AppendOnly.Bitstream

namespace Cloudberry.AppendOnly

/-- The file below, with how much of a read it delivers: the `i`-th read gives at most
`partialLen i + 1` bytes. -/
structure ReadFile where
  content : List Byte
  partialLen : ℕ → ℕ

/-- `smgr_FileRead`, called for the `i`-th time. -/
def ReadFile.smgrFileRead (f : ReadFile) (i amount off : ℕ) : List Byte :=
  (f.content.drop off).take (min amount (f.partialLen i + 1))

/-- Errors, failed assertions, and accesses that leave the memory. -/
inductive BufferedReadError where
  | readBeyondEof
  | readAheadTooLong
  /-- "Unexpected internal error, largeReadLen is set to 0 before calling BufferedReadIo." -/
  | largeReadLenZero
  | outsideMemory
  | assertion
deriving DecidableEq, Repr

/-- The state of a reader: the last large read, and the buffer it has handed out. -/
structure BufferedRead where
  maxBufferLen : ℕ
  maxLargeReadLen : ℕ
  /-- `beforeBufferMemory` and, from `maxBufferLen` on, `largeReadMemory`. -/
  memory : List Byte
  largeReadPosition : ℕ
  largeReadLen : ℕ
  bufferOffset : ℤ
  bufferLen : ℕ
  fileLen : ℕ
  fileOff : ℕ
  haveTemporaryLimitInEffect : Bool
  temporaryLimitFileLen : ℕ
  /-- How many times the file has been read. -/
  reads : ℕ
deriving DecidableEq, Repr

/-- The buffer that is handed out: its address in the memory and its length. -/
structure ReadBuffer where
  address : ℤ
  len : ℕ
deriving DecidableEq, Repr

namespace BufferedRead

/-- `BufferedReadInit`, with memory of some contents. -/
def init (maxBufferLen maxLargeReadLen : ℕ) (memory : List Byte) : BufferedRead :=
  ⟨maxBufferLen, maxLargeReadLen, memory, 0, 0, 0, 0, 0, 0, false, 0, 0⟩

/-- `memcpy` into the memory. -/
def storeAt (st : BufferedRead) (address : ℤ) (bytes : List Byte) :
    Except BufferedReadError BufferedRead :=
  if address < 0 then .error .outsideMemory
  else
    match ByteArea.store st.memory address.toNat bytes with
    | none => .error .outsideMemory
    | some memory => .ok { st with memory := memory }

def loadAt (st : BufferedRead) (address len : ℤ) : Except BufferedReadError (List Byte) :=
  if address < 0 ∨ len < 0 then .error .outsideMemory
  else
    match ByteArea.load st.memory address.toNat len.toNat with
    | none => .error .outsideMemory
    | some bytes => .ok bytes

/-- The loop of `BufferedReadIo`. The first number bounds the rounds. -/
def ioLoop (f : ReadFile) : ℕ → ℕ → ℕ → BufferedRead → Except BufferedReadError BufferedRead
  | 0, _, _, st => .ok st
  | fuel + 1, largeReadLen, offset, st =>
    if largeReadLen > 0 then
      let bytes := f.smgrFileRead st.reads largeReadLen st.fileOff
      if bytes.length = 0 then .error .readBeyondEof
      else
        match st.storeAt (st.maxBufferLen + offset) bytes with
        | .error e => .error e
        | .ok st =>
          ioLoop f fuel (largeReadLen - bytes.length) (offset + bytes.length)
            { st with fileOff := st.fileOff + bytes.length, reads := st.reads + 1 }
    else .ok st

variable (f : ReadFile)

/-- One large read, to the beginning of `largeReadMemory`. -/
def bufferedReadIo (st : BufferedRead) : Except BufferedReadError BufferedRead :=
  if st.largeReadLen > 0 then ioLoop f st.largeReadLen st.largeReadLen 0 st
  else .error .assertion

def setFile (fileLen : ℕ) (st : BufferedRead) : Except BufferedReadError BufferedRead :=
  let st : BufferedRead := { st with
      fileLen := fileLen
      haveTemporaryLimitInEffect := false
      temporaryLimitFileLen := 0
      fileOff := 0 }
  if fileLen > 0 then
    bufferedReadIo f
      { st with
        largeReadLen := if fileLen > st.maxLargeReadLen then st.maxLargeReadLen else fileLen }
  else .ok st

def inEffectFileLen (st : BufferedRead) : ℕ :=
  if st.haveTemporaryLimitInEffect then st.temporaryLimitFileLen else st.fileLen

/-- The length of the next large read, with so much of the file remaining. -/
def nextReadLen (st : BufferedRead) (remainingFileLen : ℤ) : ℤ :=
  if remainingFileLen > st.maxLargeReadLen then st.maxLargeReadLen else remainingFileLen

/-- A buffer across two large reads: the end of the first is copied before the second. -/
def useBeforeBuffer (maxReadAheadLen : ℕ) (st : BufferedRead) :
    Except BufferedReadError (ReadBuffer × BufferedRead) :=
  let nextPosition := st.largeReadPosition + st.largeReadLen
  if ¬ (st.largeReadLen - st.bufferOffset > 0) then .error .assertion
  else if nextPosition = st.inEffectFileLen then
    let bufferLen := (st.largeReadLen - st.bufferOffset).toNat
    .ok (⟨st.maxBufferLen + st.bufferOffset, bufferLen⟩, { st with bufferLen := bufferLen })
  else
    let nextReadLen : ℤ := st.nextReadLen ((st.inEffectFileLen : ℤ) - nextPosition)
    let beforeLen : ℤ := st.maxLargeReadLen - st.bufferOffset
    let beforeOffset : ℤ := st.maxBufferLen - beforeLen
    if nextReadLen < 0 then .error .assertion
    else
      match st.loadAt (st.maxBufferLen + st.bufferOffset) beforeLen with
      | .error e => .error e
      | .ok bytes =>
        match st.storeAt beforeOffset bytes with
        | .error e => .error e
        | .ok st =>
          if nextReadLen = 0 then .error .largeReadLenZero
          else
            match bufferedReadIo f
              { st with
                largeReadPosition := nextPosition, largeReadLen := nextReadLen.toNat } with
            | .error e => .error e
            | .ok st =>
              let extraLen := maxReadAheadLen - beforeLen
              if ¬ (extraLen > 0) then .error .assertion
              else
                let extraLen := if extraLen > nextReadLen then nextReadLen else extraLen
                let bufferLen := (beforeLen + extraLen).toNat
                .ok (⟨beforeOffset, bufferLen⟩,
                  { st with bufferOffset := -beforeLen, bufferLen := bufferLen })

/-- `BufferedReadSetTemporaryRange`; what is in memory is not read again. -/
def setTemporaryRange (beginFileOffset afterFileOffset : ℕ) (st : BufferedRead) :
    Except BufferedReadError BufferedRead :=
  let st : BufferedRead := { st with bufferLen := 0 }
  let largeReadAfterPos := st.largeReadPosition + st.largeReadLen
  let withLimit (st : BufferedRead) : BufferedRead :=
    { st with haveTemporaryLimitInEffect := true, temporaryLimitFileLen := afterFileOffset }
  let firstPos : ℤ :=
    if st.bufferOffset < 0 then st.largeReadPosition + st.bufferOffset else st.largeReadPosition
  if firstPos ≤ beginFileOffset ∧ beginFileOffset < largeReadAfterPos then
    .ok (withLimit
      { st with bufferOffset := (beginFileOffset : ℤ) - (st.largeReadPosition : ℤ) })
  else
    let readLen : ℤ := st.nextReadLen ((afterFileOffset : ℤ) - beginFileOffset)
    if readLen < 0 then .error .assertion
    else
      let st : BufferedRead := { st with
          fileOff := beginFileOffset
          bufferOffset := 0
          largeReadLen := readLen.toNat
          largeReadPosition := beginFileOffset }
      if st.largeReadLen > 0 then
        match bufferedReadIo f st with
        | .error e => .error e
        | .ok st => .ok (withLimit st)
      else .ok (withLimit st)

def nextBufferPosition (st : BufferedRead) : ℤ :=
  st.largeReadPosition + st.bufferOffset + st.bufferLen

/-- `BufferedReadGetNextBuffer`: `none` at the end of the file or of the range. -/
def getNextBuffer (maxReadAheadLen : ℕ) (st : BufferedRead) :
    Except BufferedReadError (Option ReadBuffer × BufferedRead) :=
  if maxReadAheadLen > st.maxBufferLen then .error .readAheadTooLong
  else
    let inEffectFileLen := st.inEffectFileLen
    let st : BufferedRead := { st with bufferOffset := st.bufferOffset + st.bufferLen, bufferLen := 0 }
    if st.largeReadPosition = inEffectFileLen then
      .ok (none, { st with haveTemporaryLimitInEffect := false })
    else if st.bufferOffset = st.largeReadLen then
      let st : BufferedRead := { st with
          largeReadPosition := st.largeReadPosition + st.largeReadLen, bufferOffset := 0 }
      let readLen : ℤ := st.nextReadLen ((inEffectFileLen : ℤ) - st.largeReadPosition)
      if readLen < 0 then .error .assertion
      else
        let st : BufferedRead := { st with largeReadLen := readLen.toNat }
        if st.largeReadLen = 0 then .ok (none, { st with haveTemporaryLimitInEffect := false })
        else
          match bufferedReadIo f st with
          | .error e => .error e
          | .ok st =>
            let bufferLen :=
              if maxReadAheadLen > st.largeReadLen then st.largeReadLen else maxReadAheadLen
            .ok (some ⟨st.maxBufferLen, bufferLen⟩, { st with bufferLen := bufferLen })
    else if st.bufferOffset + maxReadAheadLen > st.largeReadLen then
      match st.useBeforeBuffer f maxReadAheadLen with
      | .error e => .error e
      | .ok (buffer, st) => .ok (some buffer, st)
    else
      .ok (some ⟨st.maxBufferLen + st.bufferOffset, maxReadAheadLen⟩,
        { st with bufferLen := maxReadAheadLen })

/-- `BufferedReadGrowBuffer`: more of the buffer that was handed out last. -/
def growBuffer (newMaxReadAheadLen : ℕ) (st : BufferedRead) :
    Except BufferedReadError (ReadBuffer × BufferedRead) :=
  if ¬ (newMaxReadAheadLen > st.bufferLen ∧ newMaxReadAheadLen ≤ st.maxBufferLen) then
    .error .assertion
  else if st.bufferOffset + newMaxReadAheadLen > st.largeReadLen then
    st.useBeforeBuffer f newMaxReadAheadLen
  else
    .ok (⟨st.maxBufferLen + st.bufferOffset, newMaxReadAheadLen⟩,
      { st with bufferLen := newMaxReadAheadLen })

def currentPosition (st : BufferedRead) : ℤ := st.largeReadPosition + st.bufferOffset

end BufferedRead

end Cloudberry.AppendOnly
