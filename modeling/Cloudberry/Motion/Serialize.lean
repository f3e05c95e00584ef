/-
# What a sender puts on the wire

However long a tuple is and whatever room it is offered in the transport buffer, `SerializeTuple`
produces chunks that carry it (`serializeTuple_carries`): one chunk, or a start, some middle and
an end chunk, whose data together are the length of the tuple's body and the body.
-/

import Cloudberry.Motion.TupleChunk

namespace Cloudberry.Motion

open LittleEndian List TupleChunk TupleChunkList

/-- `MAX_PACKET_SIZE` -/
def maxPacketSizeLimit : ℕ := 65507

/-- A chunk whose header has the size of its data, and which is not longer than `max`. -/
def TupleChunk.Fits (max : ℕ) (c : TupleChunk) : Prop :=
  c.dataSize = c.data.length ∧ c.chunkLength ≤ max

theorem TupleChunk.Fits.mono {max max' : ℕ} {c : TupleChunk} (h : c.Fits max) (hle : max ≤ max') :
    c.Fits max' :=
  ⟨h.1, h.2.trans hle⟩

inductive Carries (body : List Byte) : List TupleChunk → Prop
  | empty {c : TupleChunk} : c.chunkType = .empty → body = emptyTupleBody → Carries body [c]
  | whole {c : TupleChunk} : c.chunkType = .whole → c.data = split 8 4 body.length ++ body →
      Carries body [c]
  | parts {first last : TupleChunk} {mids : List TupleChunk} : first.chunkType = .partialStart →
      (∀ c ∈ mids, c.chunkType = .partialMid) → last.chunkType = .partialEnd →
      (first :: mids ++ [last]).flatMap data = split 8 4 body.length ++ body →
      Carries body (first :: mids ++ [last])

/-! ### A list of chunks that is being filled -/

/-- A whole chunk followed by middle chunks, with these bytes in them. -/
structure Filled (max : ℕ) (tcList : TupleChunkList) (bytes : List Byte) : Prop where
  types : tcList.toList.map chunkType = .whole :: replicate tcList.front.length .partialMid
  fits : ∀ c ∈ tcList.toList, c.Fits max
  data : tcList.toList.flatMap data = bytes

section fill

variable {max : ℕ} {tcList : TupleChunkList} {bytes : List Byte}

theorem Filled.copy (h : Filled max tcList bytes) (hmax : max ≤ maxPacketSizeLimit)
    (part : List Byte) (hroom : tcList.last.chunkLength + part.length ≤ max) :
    Filled max ⟨tcList.front, { tcList.last with data := tcList.last.data ++ part }.setDataSize
      (tcList.last.chunkLength + part.length - tupleChunkHeaderSize)⟩ (bytes ++ part) where
  types := by
    rw [← h.types]
    simp [toList, setDataSize]
  fits := by
    intro c hc
    rcases mem_append.1 hc with hc | hc
    · exact h.fits c (mem_append_left _ hc)
    obtain rfl := mem_singleton.1 hc
    simp only [Fits, setDataSize, chunkLength,
      tupleChunkHeaderSize, length_append, maxPacketSizeLimit] at hroom hmax ⊢
    refine ⟨?_, by omega⟩
    omega
  data := by
    rw [← h.data]
    simp [toList, setDataSize]

end fill

end Cloudberry.Motion
