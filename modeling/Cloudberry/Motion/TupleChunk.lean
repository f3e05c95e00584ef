/-
# Tuples in chunks

`cdb/motion/tupser.c` and the receiving half of `cdb/motion/cdbmotion.c`.

A motion sends a tuple as chunks: whole in one chunk, written directly into the transport
buffer if it fits there, or cut into a start, middle and end chunks. A chunk has a header of
4 bytes, the size of its data and its type. The receiver finds the chunks in the packets of
its senders, collects the parts of a tuple for each sender on its own, and puts the tuple
together when the last part has come. Parts that have to wait are copied out of the receive
buffer.
-/

import Cloudberry.Lib.LittleEndian

namespace Cloudberry.Motion

open LittleEndian

abbrev Byte : Type := BitVec 8

inductive TupleChunkType where
  | whole
  | partialStart
  | partialMid
  | partialEnd
  | endOfStream
  | empty
deriving DecidableEq, Repr

namespace TupleChunkType

def code : TupleChunkType → ℕ
  | whole => 0
  | partialStart => 1
  | partialMid => 2
  | partialEnd => 3
  | endOfStream => 4
  | empty => 5

def ofCode : ℕ → Option TupleChunkType
  | 0 => some whole
  | 1 => some partialStart
  | 2 => some partialMid
  | 3 => some partialEnd
  | 4 => some endOfStream
  | 5 => some empty
  | _ => none

end TupleChunkType

def tupleChunkHeaderSize : ℕ := 4

def maxAllocSize : ℕ := 0x3fffffff

def minimalTupleDataOffset : ℕ := 10

/-- `heap_form_minimal_tuple` without columns: no attributes, no flags, the header size. -/
def emptyTupleBody : List Byte := [0, 0, 0, 0, 24, 0]

/-- A chunk as it is sent: the two fields of its header and the data. -/
structure TupleChunk where
  dataSize : ℕ
  chunkType : TupleChunkType
  data : List Byte
deriving DecidableEq, Repr

namespace TupleChunk

/-- `chunk_length`, which includes the header. -/
def chunkLength (c : TupleChunk) : ℕ := tupleChunkHeaderSize + c.data.length

/-- `SetChunkDataSize`, a field of 16 bits. -/
def setDataSize (c : TupleChunk) (value : ℕ) : TupleChunk := { c with dataSize := value % 2 ^ 16 }

def bytes (c : TupleChunk) : List Byte :=
  split 8 2 c.dataSize ++ split 8 2 c.chunkType.code ++ c.data

end TupleChunk

/-- A list of chunks, which always has a last one. -/
structure TupleChunkList where
  front : List TupleChunk
  last : TupleChunk

def TupleChunkList.toList (tcList : TupleChunkList) : List TupleChunk :=
  tcList.front ++ [tcList.last]

/-- `s_eos_chunk_data` -/
def eosChunk : TupleChunk := ⟨0, .endOfStream, []⟩

/-! ### Receiving -/

/-- A received chunk: its length, and its data in the receive buffer or in storage of its own. -/
structure TupleChunkListItem where
  chunkLength : ℕ
  inplace : Option ℕ
  chunkData : List Byte
deriving DecidableEq, Repr

namespace TupleChunkListItem

section

variable (rx : List Byte) (tcItem : TupleChunkListItem)

/-- `GetChunkDataPtr`, with what is in the receive buffer now. -/
def dataPtr : List Byte :=
  match tcItem.inplace with
  | some offset => rx.drop offset
  | none => tcItem.chunkData

def typeCode : ℕ :=
  join (((tcItem.dataPtr rx).drop 2).take 2)

/-- `GetChunkType` -/
def chunkType : Option TupleChunkType :=
  TupleChunkType.ofCode (tcItem.typeCode rx)

def data : List Byte :=
  ((tcItem.dataPtr rx).drop tupleChunkHeaderSize).take (tcItem.chunkLength - tupleChunkHeaderSize)

/-- `materializeChunk` -/
def materialize : TupleChunkListItem :=
  { tcItem with inplace := none, chunkData := (tcItem.dataPtr rx).take tcItem.chunkLength }

end

end TupleChunkListItem

/-- The loop of `RecvTupleChunk` over the chunks in a packet. -/
def recvTupleChunk (maxPacketSize : ℕ) (rx : List Byte) :
    ℕ → ℕ → Except String (List TupleChunkListItem)
  | 0, _ => .error "out of fuel"
  | fuel + 1, bytesProcessed =>
    if bytesProcessed = rx.length then .ok []
    else if rx.length - bytesProcessed < tupleChunkHeaderSize then
      .error "interconnect error parsing message: insufficient data received"
    else
      let tcSize := tupleChunkHeaderSize + join ((rx.drop bytesProcessed).take 2)
      if tcSize > maxPacketSize then .error "interconnect error parsing message"
      else if tcSize ≥ rx.length then .error "interconnect error parsing message"
      else
        (recvTupleChunk maxPacketSize rx fuel (bytesProcessed + tcSize)).map fun rest =>
          ⟨tcSize, some bytesProcessed, []⟩ :: rest

/-- The sanity checks of `CvtChunksToTup` on the chunks after the first. -/
def checkPartial (rx : List Byte) (totalLen : ℕ) : List TupleChunkListItem → Except String Unit
  | [] => .ok ()
  | tcItem :: rest =>
    let thisLen := tcItem.chunkLength - tupleChunkHeaderSize
    if rest = [] ∧ tcItem.chunkType rx ≠ some .partialEnd then
      .error "last chunk of collection must have type TC_PARTIAL_END"
    else if rest ≠ [] ∧ tcItem.chunkType rx ≠ some .partialMid then
      .error "middle chunk of collection must have type TC_PARTIAL_MID"
    else if thisLen > maxAllocSize ∨ totalLen + thisLen > maxAllocSize then
      .error "chunked tuple is too large"
    else checkPartial rx (totalLen + thisLen) rest

/-- The end of `CvtChunksToTup`: the tuple in the reassembled data; none for a record cache.
Reading past the end of the data is an error here. -/
def deserialize (serData : List Byte) : Except String (Option (List Byte)) :=
  if serData.length < 4 then .error "read past the end"
  else
    let tupbodylen := join (serData.take 4)
    if tupbodylen = 2 ^ 32 - 1 then .ok none
    else if (serData.drop 4).length < tupbodylen then .error "read past the end"
    else .ok (some ((serData.drop 4).take tupbodylen))

def cvtChunksToTup (rx : List Byte) (tcList : List TupleChunkListItem) :
    Except String (Option (List Byte)) :=
  match tcList with
  | [] => .error "Assert"
  | first :: rest =>
    match first.chunkType rx with
    | some .whole =>
      if rest ≠ [] then .error "Single chunk's type must be TC_WHOLE."
      else deserialize (first.data rx)
    | some .empty => .ok (some emptyTupleBody)
    | some .partialStart =>
      match checkPartial rx (first.chunkLength - tupleChunkHeaderSize) rest with
      | .error msg => .error msg
      | .ok () => deserialize ((first :: rest).flatMap (TupleChunkListItem.data rx))
    | _ =>
      let tcType := first.typeCode rx
      .error s!"unexpected tuple chunk type {tcType} at beginning of chunk list"

structure ChunkSorterEntry where
  chunkList : List TupleChunkListItem
  readyTuples : List (List Byte)
  endOfStream : Bool
deriving DecidableEq, Repr

/-- The receiving motion node. Without order preservation all senders share `readyTuples`. -/
structure MotionNodeEntry where
  preserveOrder : Bool
  numSenders : ℕ
  readyTupleLists : List ChunkSorterEntry
  readyTuples : List (List Byte)
  numStreamEndsRecvd : ℕ
  moreNetWork : Bool
deriving DecidableEq, Repr

namespace MotionNodeEntry

/-- `UpdateMotionLayerNode`, with the entries `getChunkSorterEntry` makes. -/
def init (preserveOrder : Bool) (numSenders : ℕ) : MotionNodeEntry :=
  ⟨preserveOrder, numSenders, List.replicate numSenders ⟨[], [], false⟩, [], 0, true⟩

section

variable (pMNEntry : MotionNodeEntry)

def reconstructTuple (rx : List Byte) (srcRoute : ℕ)
    (entry : ChunkSorterEntry) : Except String MotionNodeEntry :=
  match cvtChunksToTup rx entry.chunkList with
  | .error msg => .error msg
  | .ok tup =>
    let ready := tup.toList
    if pMNEntry.preserveOrder then
      .ok { pMNEntry with
        readyTupleLists := pMNEntry.readyTupleLists.set srcRoute
          { entry with chunkList := [], readyTuples := entry.readyTuples ++ ready } }
    else
      .ok { pMNEntry with
        readyTupleLists := pMNEntry.readyTupleLists.set srcRoute { entry with chunkList := [] }
        readyTuples := pMNEntry.readyTuples ++ ready }

def addChunkToSorter (rx : List Byte) (motNodeID srcRoute : ℕ)
    (tcItem : TupleChunkListItem) : Except String MotionNodeEntry :=
  match pMNEntry.readyTupleLists[srcRoute]? with
  | none => .error "Assert"
  | some entry =>
    match tcItem.chunkType rx with
    | some .whole | some .empty =>
      if entry.chunkList.length ≠ 0 then
        .error s!"received TC_WHOLE chunk from [src={srcRoute},mn={motNodeID}] after partial tuple data"
      else
        pMNEntry.reconstructTuple rx srcRoute { entry with chunkList := entry.chunkList ++ [tcItem] }
    | some .partialStart =>
      if entry.chunkList.length ≠ 0 then
        .error s!"received TC_PARTIAL_START chunk from [src={srcRoute},mn={motNodeID}] after partial tuple data"
      else
        .ok { pMNEntry with
          readyTupleLists := pMNEntry.readyTupleLists.set srcRoute
            { entry with chunkList := entry.chunkList ++ [tcItem.materialize rx] } }
    | some .partialMid =>
      if entry.chunkList.length ≤ 0 then
        .error s!"received TC_PARTIAL_MID chunk from [src={srcRoute},mn={motNodeID}] without any leading tuple data"
      else
        .ok { pMNEntry with
          readyTupleLists := pMNEntry.readyTupleLists.set srcRoute
            { entry with chunkList := entry.chunkList ++ [tcItem.materialize rx] } }
    | some .partialEnd =>
      if entry.chunkList.length ≤ 0 then
        .error s!"received TC_PARTIAL_END chunk from [src={srcRoute},mn={motNodeID}] without any leading tuple data"
      else
        pMNEntry.reconstructTuple rx srcRoute { entry with chunkList := entry.chunkList ++ [tcItem] }
    | some .endOfStream =>
      if entry.chunkList.length ≠ 0 then
        .error s!"received TC_END_OF_STREAM chunk from [src={srcRoute},mn={motNodeID}] after partial tuple data"
      else if entry.endOfStream then
        .error s!"received end-of-stream chunk from [src={srcRoute},mn={motNodeID}] when already marked as at end-of-stream"
      else
        let num := pMNEntry.numStreamEndsRecvd + 1
        .ok { pMNEntry with
          readyTupleLists := pMNEntry.readyTupleLists.set srcRoute { entry with endOfStream := true }
          numStreamEndsRecvd := num
          moreNetWork := if num = pMNEntry.numSenders then false else pMNEntry.moreNetWork }
    | none =>
      let tcType := tcItem.typeCode rx
      let len := tcItem.chunkLength
      .error s!"received tuple chunk of unrecognized type {tcType} (len {len}) from [src={srcRoute},mn={motNodeID}]"

/-- `processIncomingChunks` on a packet from one sender, which is in the receive buffer only
while it is processed; the packet header is skipped. -/
def processIncomingChunks (maxPacketSize packetHeaderSize : ℕ)
    (motNodeID srcRoute : ℕ) (rx : List Byte) : Except String MotionNodeEntry := do
  let items ← recvTupleChunk maxPacketSize rx (rx.length + 1) packetHeaderSize
  items.foldlM (fun pMNEntry tcItem =>
    if tcItem.chunkLength ≥ tupleChunkHeaderSize then
      pMNEntry.addChunkToSorter rx motNodeID srcRoute tcItem
    else
      let len := tcItem.chunkLength
      .error s!"Received tuple-chunk of size {len}; smaller than chunk header size 4!") pMNEntry

end

end MotionNodeEntry

end Cloudberry.Motion
