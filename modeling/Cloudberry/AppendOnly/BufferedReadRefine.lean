/-
# Buffered reading returns the bytes of the file

The file is a sequence of blocks. A caller asks for the header of the next block, lets the
buffer grow up to the length of that block, and sets temporary ranges between block
boundaries. `Reads` says what such a caller may do and what it should then see: the bytes of
the file at its position. It knows nothing of large reads and of the two memory areas.

The reader gives just that (`bufferedRead_returns_file`). The invariant `Inv` has two parts that
carry the proof: a large read that is shorter than it could be ends at a block boundary, and the
memory before the large read holds the beginning of the one block that goes over its start.
-/

import Cloudberry.AppendOnly.BufferedRead

namespace Cloudberry.AppendOnly

open List ByteArea Int Nat

/-! ### Blocks -/

/-- A file made of blocks, each at least as long as the header that is asked for first and not
longer than the reader's buffers. -/
structure BlockFile (minimumHeaderLen maxBufferLen : ℕ) where
  blocks : List (List Byte)
  header_pos : 0 < minimumHeaderLen
  header_le : ∀ b ∈ blocks, minimumHeaderLen ≤ b.length
  len_le : ∀ b ∈ blocks, b.length ≤ maxBufferLen

variable {minimumHeaderLen maxBufferLen : ℕ} {F : BlockFile minimumHeaderLen maxBufferLen}

namespace BlockFile

section

variable (F : BlockFile minimumHeaderLen maxBufferLen)

def content : List Byte := F.blocks.flatten

/-- Where the `i`-th block begins. -/
def start (i : ℕ) : ℕ :=
  (F.blocks.take i).flatten.length

def IsBoundary (p : ℕ) : Prop :=
  ∃ i ≤ F.blocks.length, F.start i = p

/-- A block of length `len` begins at `p`. -/
def BlockAt (p len : ℕ) : Prop :=
  ∃ i b, F.blocks[i]? = some b ∧ F.start i = p ∧ b.length = len

end

theorem start_succ {i : ℕ} {b : List Byte} (hb : F.blocks[i]? = some b) :
    F.start (i + 1) = F.start i + b.length := by
  rw [start, start, take_add_one, hb, Option.toList_some, flatten_append,
    length_append, flatten_singleton]

theorem start_mono {i j : ℕ} (hij : i ≤ j) : F.start i ≤ F.start j := by
  obtain ⟨k, rfl⟩ := Nat.exists_eq_add_of_le hij
  rw [start, start, take_add, flatten_append, length_append]
  exact le_add_right _ _

theorem start_length : F.start F.blocks.length = F.content.length := by
  rw [start, take_length, content]

theorem IsBoundary.le {p : ℕ} (hp : F.IsBoundary p) : p ≤ F.content.length := by
  obtain ⟨i, hi, rfl⟩ := hp
  rw [← F.start_length]
  exact start_mono hi

theorem isBoundary_zero (F : BlockFile minimumHeaderLen maxBufferLen) : F.IsBoundary 0 :=
  ⟨0, zero_le _, rfl⟩

theorem isBoundary_length (F : BlockFile minimumHeaderLen maxBufferLen) :
    F.IsBoundary F.content.length := ⟨_, le_rfl, F.start_length⟩

theorem maxBufferLen_pos (hpos : 0 < F.content.length) : 0 < maxBufferLen := by
  obtain ⟨x, hx⟩ := exists_mem_of_length_pos hpos
  obtain ⟨b, hb, -⟩ := mem_flatten.1 hx
  exact F.header_pos.trans_le ((F.header_le b hb).trans (F.len_le b hb))

namespace BlockAt

variable {p len : ℕ} (hp : F.BlockAt p len)
include hp

theorem isBoundary : F.IsBoundary p := by
  obtain ⟨i, b, hb, rfl, -⟩ := hp
  exact ⟨i, (List.getElem?_eq_some_iff.1 hb).1.le, rfl⟩

theorem isBoundary_end : F.IsBoundary (p + len) := by
  obtain ⟨i, b, hb, rfl, rfl⟩ := hp
  exact ⟨i + 1, (List.getElem?_eq_some_iff.1 hb).1, start_succ hb⟩

theorem bounds : 0 < len ∧ minimumHeaderLen ≤ len ∧ len ≤ maxBufferLen := by
  obtain ⟨i, b, hb, -, rfl⟩ := hp
  have hmem := mem_of_getElem? hb
  have := F.header_pos
  have := F.header_le b hmem
  have := F.len_le b hmem
  omega

theorem end_le {q : ℕ} (hq : F.IsBoundary q) (hlt : p < q) : p + len ≤ q := by
  obtain ⟨i, b, hb, rfl, rfl⟩ := hp
  obtain ⟨j, -, rfl⟩ := hq
  rw [← start_succ hb]
  refine start_mono ?_
  by_contra hji
  exact absurd (start_mono (F := F) (by omega : j ≤ i)) (not_le.2 hlt)

theorem unique {len' : ℕ} (hp' : F.BlockAt p len') : len = len' := by
  have h := hp.end_le hp'.isBoundary_end (by have := hp'.bounds; omega)
  have h' := hp'.end_le hp.isBoundary_end (by have := hp.bounds; omega)
  omega

end BlockAt

end BlockFile

/-! ### What a caller may do, and what it should see -/

inductive ReadCall where
  | getNextBuffer
  | growBuffer (newMaxReadAheadLen : ℕ)
  | setTemporaryRange (beginFileOffset afterFileOffset : ℕ)
deriving DecidableEq, Repr

/-- The position and the bytes of a buffer that is handed out. -/
structure Seen where
  position : ℤ
  bytes : List Byte
deriving DecidableEq, Repr

/-- Where a caller is: its position, how much of the block it has, the end of the range in effect,
and whether it is in a block. -/
structure Cursor where
  pos : ℕ
  len : ℕ
  limit : ℕ
  inBlock : Bool
deriving DecidableEq, Repr

def BlockFile.seen (F : BlockFile minimumHeaderLen maxBufferLen) (pos len : ℕ) : Seen :=
  ⟨pos, (F.content.drop pos).take len⟩

/-- The calls that are made, with what they should return. -/
inductive Reads (F : BlockFile minimumHeaderLen maxBufferLen) :
    Cursor → ReadCall → Option Seen → Cursor → Prop
  /-- The header of the next block, which lies in the range in effect. -/
  | next {c : Cursor} {len : ℕ} (hblock : F.BlockAt (c.pos + c.len) len)
      (hlimit : c.pos + c.len + len ≤ c.limit) :
      Reads F c .getNextBuffer (some (F.seen (c.pos + c.len) minimumHeaderLen))
        ⟨c.pos + c.len, minimumHeaderLen, c.limit, true⟩
  /-- More of the block. -/
  | grow {c : Cursor} {len n : ℕ} (hin : c.inBlock = true) (hblock : F.BlockAt c.pos len)
      (hmore : c.len < n) (hle : n ≤ len) :
      Reads F c (.growBuffer n) (some (F.seen c.pos n)) { c with len := n }
  | range {c : Cursor} {b e : ℕ} (hbegin : F.IsBoundary b) (hend : F.IsBoundary e) (hle : b ≤ e) :
      Reads F c (.setTemporaryRange b e) none ⟨b, 0, e, false⟩

inductive ReadsAll (F : BlockFile minimumHeaderLen maxBufferLen) :
    Cursor → List ReadCall → List (Option Seen) → Cursor → Prop
  | nil (c : Cursor) : ReadsAll F c [] [] c
  | cons {c c' c'' : Cursor} {call : ReadCall} {calls : List ReadCall} {out : Option Seen}
      {outs : List (Option Seen)} (hcall : Reads F c call out c')
      (hcalls : ReadsAll F c' calls outs c'') : ReadsAll F c (call :: calls) (out :: outs) c''

/-- The cursor of a file that has just been opened. -/
def BlockFile.opened (F : BlockFile minimumHeaderLen maxBufferLen) : Cursor :=
  ⟨0, 0, F.content.length, false⟩

/-! ### The reader under these calls -/

def ReadCall.isRead : ReadCall → Bool
  | .setTemporaryRange _ _ => false
  | _ => true

namespace BufferedRead

/-- What the caller finds at the address it was given. -/
def look (st : BufferedRead) (buffer : ReadBuffer) : Except BufferedReadError Seen :=
  match st.loadAt buffer.address buffer.len with
  | .error e => .error e
  | .ok bytes => .ok ⟨st.currentPosition, bytes⟩

def call (f : ReadFile) (minimumHeaderLen : ℕ) (st : BufferedRead) :
    ReadCall → Except BufferedReadError (Option Seen × BufferedRead)
  | .getNextBuffer => do
    let (buffer, st) ← st.getNextBuffer f minimumHeaderLen
    match buffer with
    | none => return (none, st)
    | some buffer => return (some (← st.look buffer), st)
  | .growBuffer n => do
    let (buffer, st) ← st.growBuffer f n
    return (some (← st.look buffer), st)
  | .setTemporaryRange b e => do
    let st ← st.setTemporaryRange f b e
    return (none, st)

def callAll (f : ReadFile) (minimumHeaderLen : ℕ) :
    BufferedRead → List ReadCall → Except BufferedReadError (List (Option Seen) × BufferedRead)
  | st, [] => .ok ([], st)
  | st, c :: cs => do
    let (out, st) ← st.call f minimumHeaderLen c
    let (outs, st) ← callAll f minimumHeaderLen st cs
    return (out :: outs, st)

/-! ### A large read -/

section

variable (F : BlockFile minimumHeaderLen maxBufferLen) (st : BufferedRead)

/-- The memory of the reader has room, and its lengths fit the file. -/
structure Sized : Prop where
  maxBufferLen_eq : st.maxBufferLen = maxBufferLen
  le_maxLargeReadLen : maxBufferLen ≤ st.maxLargeReadLen
  memory : maxBufferLen + st.maxLargeReadLen ≤ st.memory.length
  fileLen_eq : st.fileLen = F.content.length

/-- The large-read memory holds the file from the large-read position on, and a short large read
ends at a block boundary. -/
structure Loaded : Prop extends Sized F st where
  len_le : st.largeReadLen ≤ st.maxLargeReadLen
  after_le : st.largeReadPosition + st.largeReadLen ≤ F.content.length
  fileOff_eq : st.fileOff = st.largeReadPosition + st.largeReadLen
  data : ByteArea.Agrees st.memory maxBufferLen F.content st.largeReadPosition st.largeReadLen
  short : st.largeReadLen < st.maxLargeReadLen →
    F.IsBoundary (st.largeReadPosition + st.largeReadLen)

end

variable {f : ReadFile} {st : BufferedRead}

theorem storeAt_eq {address : ℕ} {bytes memory : List Byte}
    (hstore : store st.memory address bytes = some memory) {a : ℤ} (ha : a = address) :
    st.storeAt a bytes = .ok { st with memory := memory } := by
  subst ha
  rw [storeAt, if_neg (not_lt.2 (natCast_nonneg address)), toNat_natCast, hstore]

section

variable (hf : f.content = F.content)
include hf

theorem ioLoop_spec (fuel n offset p : ℕ) (st : BufferedRead) (hfuel : n ≤ fuel)
    (hmax : st.maxBufferLen = maxBufferLen) (hoff : st.fileOff = p + offset)
    (hfile : p + offset + n ≤ F.content.length)
    (hroom : maxBufferLen + offset + n ≤ st.memory.length)
    (hdata : Agrees st.memory maxBufferLen F.content p offset) :
    ∃ memory reads, ioLoop f fuel n offset st =
        .ok { st with memory := memory, fileOff := p + offset + n, reads := reads } ∧
      memory.length = st.memory.length ∧
      Agrees memory maxBufferLen F.content p (offset + n) ∧
      ∀ j < maxBufferLen, memory[j]? = st.memory[j]? := by
  induction fuel generalizing n offset st with
  | zero =>
    obtain rfl : n = 0 := le_zero.1 hfuel
    refine ⟨st.memory, st.reads, ?_, rfl, hdata, fun _ _ => rfl⟩
    rw [ioLoop, add_zero, ← hoff]
  | succ fuel ih =>
    rcases Nat.eq_zero_or_pos n with rfl | hpos
    · refine ⟨st.memory, st.reads, ?_, rfl, hdata, fun _ _ => rfl⟩
      rw [ioLoop, if_neg (lt_irrefl 0), add_zero, ← hoff]
    set k := min n (f.partialLen st.reads + 1) with hk
    have hkpos : 0 < k := by omega
    have hbytes : f.smgrFileRead st.reads n st.fileOff = (F.content.drop (p + offset)).take k := by
      rw [ReadFile.smgrFileRead, hf, hoff]
    have hlen : ((F.content.drop (p + offset)).take k).length = k := by
      rw [length_take, length_drop]
      omega
    obtain ⟨memory, hstore⟩ := exists_store st.memory (maxBufferLen + offset)
      ((F.content.drop (p + offset)).take k) (by omega)
    have hmemory := length_store hstore
    have hold := hdata.store hstore (.inl le_rfl)
    have hnew := agrees_store hstore (by omega)
    have hbefore : ∀ j < maxBufferLen, memory[j]? = st.memory[j]? := fun j hj => by
      rw [getElem?_store hstore, if_neg (by omega)]
    obtain ⟨memory', reads, hloop, hlen', hall, hbefore'⟩ := ih (n - k) (offset + k)
      { st with memory := memory, fileOff := p + offset + k, reads := st.reads + 1 }
      (by omega) hmax (by simp only; omega) (by omega) (by simp only; omega)
      (hold.append hnew)
    refine ⟨memory', reads, ?_, hlen'.trans hmemory, ?_, fun j hj => ?_⟩
    · rw [ioLoop, if_pos hpos]
      simp only [hbytes, hlen, if_neg hkpos.ne']
      rw [storeAt_eq hstore (by rw [hmax]; push_cast; rfl)]
      simp only [hoff]
      rw [hloop]
      simp only [Except.ok.injEq, BufferedRead.mk.injEq, true_and, and_true]
      omega
    · rwa [show offset + k + (n - k) = offset + n by omega] at hall
    · rw [hbefore' j hj, hbefore j hj]

section

variable (hsized : Sized F st) (hpos : 0 < st.largeReadLen)
  (hle : st.largeReadLen ≤ st.maxLargeReadLen) (hoff : st.fileOff = st.largeReadPosition)
  (hafter : st.largeReadPosition + st.largeReadLen ≤ F.content.length)
include hsized hpos hle hoff hafter

/-- **A large read** of what is there fills the large-read memory and nothing else. -/
theorem bufferedReadIo_spec : ∃ memory reads, bufferedReadIo f st = .ok { st with
          memory := memory, fileOff := st.largeReadPosition + st.largeReadLen, reads := reads } ∧
      memory.length = st.memory.length ∧
      Agrees memory maxBufferLen F.content st.largeReadPosition st.largeReadLen ∧
      ∀ j < maxBufferLen, memory[j]? = st.memory[j]? := by
  have hroom := hsized.memory
  obtain ⟨memory, reads, hloop, hlen, hdata, hbefore⟩ := ioLoop_spec hf st.largeReadLen
    st.largeReadLen 0 st.largeReadPosition st le_rfl hsized.maxBufferLen_eq hoff hafter (by omega)
    (fun i hi => absurd hi (not_lt_zero i))
  rw [zero_add] at hdata
  refine ⟨memory, reads, ?_, hlen, hdata, hbefore⟩
  rw [bufferedReadIo, if_pos hpos, hloop, add_zero]

theorem loaded_of_io (hshort : st.largeReadLen < st.maxLargeReadLen → F.IsBoundary
    (st.largeReadPosition + st.largeReadLen)) :
    ∃ memory fileOff reads, bufferedReadIo f st =
        .ok { st with memory := memory, fileOff := fileOff, reads := reads } ∧
      Loaded F { st with memory := memory, fileOff := fileOff, reads := reads } ∧
      ∀ j < maxBufferLen, memory[j]? = st.memory[j]? := by
  obtain ⟨memory, reads, hio, hlen, hdata, hbefore⟩ :=
    bufferedReadIo_spec hf hsized hpos hle hoff hafter
  refine ⟨memory, _, reads, hio, ⟨⟨hsized.maxBufferLen_eq, hsized.le_maxLargeReadLen, ?_,
    hsized.fileLen_eq⟩, hle, hafter, rfl, hdata, hshort⟩, hbefore⟩
  rw [hlen]
  exact hsized.memory

end

end

theorem Loaded.withBuffer (h : Loaded F st) (offset : ℤ) (len : ℕ) (limited : Bool) (limit : ℕ) :
    Loaded F { st with
      bufferOffset := offset, bufferLen := len, haveTemporaryLimitInEffect := limited,
      temporaryLimitFileLen := limit } :=
  ⟨⟨h.maxBufferLen_eq, h.le_maxLargeReadLen, h.memory, h.fileLen_eq⟩, h.len_le, h.after_le,
    h.fileOff_eq, h.data, h.short⟩

/-! ### The invariant -/

section

variable (F : BlockFile minimumHeaderLen maxBufferLen) (st : BufferedRead)

/-- The buffer begins in the memory before: the block at its position goes over the start of the
large read, and its beginning is there. -/
structure Before (k : ℕ) : Prop where
  offset_eq : st.bufferOffset = -(k : ℤ)
  le_maxBufferLen : k ≤ maxBufferLen
  le_position : k ≤ st.largeReadPosition
  data : ByteArea.Agrees st.memory (maxBufferLen - k) F.content (st.largeReadPosition - k) k
  block : ∃ len, F.BlockAt (st.largeReadPosition - k) len ∧ k < len ∧ len ≤ k + st.largeReadLen

/-- The reader is where its caller is. -/
structure Inv (c : Cursor) : Prop extends Loaded F st where
  pos_eq : st.largeReadPosition + st.bufferOffset = (c.pos : ℤ)
  len_eq : st.bufferLen = c.len
  within : st.bufferOffset + st.bufferLen ≤ st.largeReadLen
  before : st.bufferOffset < 0 → ∃ k, Before F st k
  limit_eq : st.inEffectFileLen = c.limit
  limit_isBoundary : F.IsBoundary c.limit
  inBlock : c.inBlock = true → 0 < c.len ∧ ∃ len, F.BlockAt c.pos len ∧ c.pos + len ≤ c.limit

end

variable {c : Cursor}

/-- **What the caller sees** through the address of the current buffer. -/
theorem Inv.look_eq (hinv : Inv F st c) :
    st.look ⟨st.maxBufferLen + st.bufferOffset, st.bufferLen⟩ = .ok (F.seen c.pos c.len) := by
  have hpos := hinv.pos_eq
  have hwithin := hinv.within
  have hroom := hinv.memory
  have hlen := hinv.len_le
  -- the stretch of the memory that the buffer is
  have hagrees : ∃ a : ℕ, st.maxBufferLen + st.bufferOffset = (a : ℤ) ∧
      Agrees st.memory a F.content c.pos c.len ∧ a + c.len ≤ st.memory.length := by
    rw [hinv.maxBufferLen_eq, ← hinv.len_eq]
    by_cases hneg : st.bufferOffset < 0
    · obtain ⟨k, hk⟩ := hinv.before hneg
      have hoffset := hk.offset_eq
      have hkle := hk.le_maxBufferLen
      have hkpos := hk.le_position
      have hall : Agrees st.memory (maxBufferLen - k) F.content
          (st.largeReadPosition - k) (k + st.largeReadLen) := by
        refine hk.data.append ?_
        rw [Nat.sub_add_cancel hkle, Nat.sub_add_cancel hkpos]
        exact hinv.data
      refine ⟨maxBufferLen - k, by omega, ?_, by omega⟩
      have hsub := hall.sub (i := 0) (k := st.bufferLen) (by omega)
      rwa [add_zero, add_zero, show st.largeReadPosition - k = c.pos by omega] at hsub
    · obtain ⟨o, _⟩ := eq_ofNat_of_zero_le (not_lt.1 hneg)
      refine ⟨maxBufferLen + o, by omega, ?_, by omega⟩
      have hsub := hinv.data.sub (i := o) (k := st.bufferLen) (by omega)
      rwa [show st.largeReadPosition + o = c.pos by omega] at hsub
  obtain ⟨a, ha, hdata, hle⟩ := hagrees
  have hload : st.loadAt (st.maxBufferLen + st.bufferOffset) st.bufferLen =
      .ok ((F.content.drop c.pos).take c.len) := by
    rw [loadAt, if_neg (by omega), ha, hinv.len_eq, toNat_natCast, toNat_natCast,
      load_of_agrees hdata hle]
  rw [look, hload, currentPosition, hpos]
  rfl

/-! ### The calls -/

theorem nextReadLen_eq {remaining : ℤ} {r : ℕ} (hr : remaining = r) :
    st.nextReadLen remaining = (min st.maxLargeReadLen r : ℕ) := by
  rw [nextReadLen]
  split_ifs <;> omega

/-- The large read does not go over the end of the range, or begins there. -/
def Ends (st : BufferedRead) (limit : ℕ) : Prop :=
  st.largeReadPosition + st.largeReadLen ≤ limit ∨ st.largeReadPosition = limit

/-- Where the bytes begin that are in memory. -/
def firstPosition (st : BufferedRead) : ℤ :=
  if st.bufferOffset < 0 then st.largeReadPosition + st.bufferOffset else st.largeReadPosition

theorem Inv.setTemporaryRange (hf : f.content = F.content) (hinv : Inv F st c) {b e : ℕ}
    (hb : F.IsBoundary b) (he : F.IsBoundary e) (hle : b ≤ e) :
    ∃ st', st.setTemporaryRange f b e = .ok st' ∧ Inv F st' ⟨b, 0, e, false⟩ ∧
      (st'.Ends e ↔ (st.firstPosition ≤ b → st.Ends e)) := by
  set first : ℤ := if st.bufferOffset < 0 then st.largeReadPosition + st.bufferOffset
    else st.largeReadPosition with hfirst
  have hends : b + min st.maxLargeReadLen (e - b) ≤ e := by omega
  unfold BufferedRead.setTemporaryRange
  by_cases hin : first ≤ b ∧ b < st.largeReadPosition + st.largeReadLen
  · -- the range begins in the current read
    rw [if_pos hin]
    refine ⟨_, rfl, ⟨hinv.withBuffer _ 0 true e, ?_, rfl, ?_, fun hneg => ?_, rfl, he,
      fun h => by cases h⟩, ⟨fun h _ => h, fun h => h hin.1⟩⟩
    · simp only
      omega
    · simp only
      omega
    simp only at hneg
    have hneg' : st.bufferOffset < 0 := by
      omega
    obtain ⟨k, hk⟩ := hinv.before hneg'
    obtain ⟨len, hblock, hklen, hlen⟩ := hk.block
    have hoffset := hk.offset_eq
    have hkpos := hk.le_position
    -- the only boundary in the memory before is the beginning of the block there
    have heq : b = st.largeReadPosition - k := by
      by_contra hne
      have := hblock.end_le hb (by omega)
      omega
    refine ⟨k, ⟨?_, hk.le_maxBufferLen, hkpos, hk.data, len, hblock, hklen, hlen⟩⟩
    simp only
    omega
  · rw [if_neg hin]
    have hout : first ≤ b → st.Ends e := fun hge => .inl (by omega)
    have hlen : nextReadLen { st with bufferLen := 0 } ((e : ℤ) - b) =
        (min st.maxLargeReadLen (e - b) : ℕ) := nextReadLen_eq (by omega)
    simp only [hlen, toNat_natCast]
    have hafter : b + min st.maxLargeReadLen (e - b) ≤ F.content.length := by
      have := he.le
      omega
    have hshort : min st.maxLargeReadLen (e - b) < st.maxLargeReadLen →
        F.IsBoundary (b + min st.maxLargeReadLen (e - b)) := by
      intro hlt
      rwa [show b + min st.maxLargeReadLen (e - b) = e by omega]
    have hsized : Sized F { st with
        bufferLen := 0, fileOff := b, bufferOffset := 0,
        largeReadLen := min st.maxLargeReadLen (e - b), largeReadPosition := b } :=
      ⟨hinv.maxBufferLen_eq, hinv.le_maxLargeReadLen, hinv.memory, hinv.fileLen_eq⟩
    by_cases hpos : min st.maxLargeReadLen (e - b) > 0
    · rw [if_pos hpos]
      obtain ⟨_, fileOff, _, hio, hloaded, -⟩ :=
        loaded_of_io hf hsized hpos (min_le_left _ _) rfl hafter hshort
      rw [hio]
      refine ⟨_, rfl, ⟨hloaded.withBuffer 0 0 true e, ?_, rfl, ?_, fun hneg => ?_, rfl, he,
        fun h => by cases h⟩, iff_of_true (.inl hends) hout⟩
      · simp
      · simp
      · exact absurd hneg (lt_irrefl _)
    · rw [if_neg hpos]
      have hzero : min st.maxLargeReadLen (e - b) = 0 := Nat.eq_zero_of_not_pos hpos
      refine ⟨_, rfl, ⟨⟨⟨hsized.maxBufferLen_eq, hsized.le_maxLargeReadLen, hsized.memory,
        hsized.fileLen_eq⟩, min_le_left _ _, hafter, ?_, ?_, hshort⟩, ?_, rfl, ?_,
        fun hneg => ?_, rfl, he, fun h => by cases h⟩, iff_of_true (.inl hends) hout⟩
      · simp only
        omega
      · intro i hi
        simp only [hzero] at hi
        omega
      · simp
      · simp
      · exact absurd hneg (lt_irrefl _)

theorem loadAt_eq {a p n : ℕ} (hdata : Agrees st.memory a F.content p n)
    (hle : a + n ≤ st.memory.length) {a' n' : ℤ} (ha : a' = a) (hn : n' = n) :
    st.loadAt a' n' = .ok ((F.content.drop p).take n) := by
  subst ha hn
  rw [loadAt, if_neg (by omega), toNat_natCast, toNat_natCast, load_of_agrees hdata hle]

variable (hf : f.content = F.content)
include hf

/-- **Going over the end of a large read.** The part of the block that is there moves into the
memory before, and the rest comes with the next read. -/
theorem Loaded.useBeforeBuffer (hst : Loaded F st) {o req len limit : ℕ} (ho : st.bufferOffset = o)
    (hblock : F.BlockAt (st.largeReadPosition + o) len)
    (hlimit : st.largeReadPosition + o + len ≤ limit) (hbound : F.IsBoundary limit)
    (hin : st.inEffectFileLen = limit) (hreq : req ≤ len) (hover : st.largeReadLen < o + req)
    (hleft : o < st.largeReadLen) : ∃ st', st.useBeforeBuffer f req =
        .ok (⟨st'.maxBufferLen + st'.bufferOffset, st'.bufferLen⟩, st') ∧
      Inv F st' ⟨st.largeReadPosition + o, req, limit, true⟩ ∧ st'.Ends limit ∧ st.Ends limit := by
  have hmax := hst.maxBufferLen_eq
  have hlarge := hst.le_maxLargeReadLen
  have hroom := hst.memory
  have hlen := hblock.bounds
  have hle := hst.len_le
  -- the read ends inside the block, so it is of full length
  have hfull : st.largeReadLen = st.maxLargeReadLen := by
    by_contra hne
    have := hblock.end_le (hst.short (by omega)) (by omega)
    omega
  set k := st.maxLargeReadLen - o with hk
  set next := st.largeReadPosition + st.largeReadLen with hnext
  set n := min st.maxLargeReadLen (limit - next) with hn
  have hnpos : 0 < n := by omega
  have hdata : Agrees st.memory (maxBufferLen + o) F.content (st.largeReadPosition + o) k :=
    hst.data.sub (by omega)
  have hbytes : ((F.content.drop (st.largeReadPosition + o)).take k).length = k := by
    have := hst.after_le
    rw [length_take, length_drop]
    omega
  obtain ⟨memory, hstore⟩ := exists_store st.memory (maxBufferLen - k)
    ((F.content.drop (st.largeReadPosition + o)).take k) (by omega)
  have hmemory := length_store hstore
  have hcopied : Agrees memory (maxBufferLen - k) F.content (st.largeReadPosition + o) k :=
    agrees_store hstore (by have := hst.after_le; omega)
  have hsized : Sized F { st with
      memory := memory, largeReadPosition := next, largeReadLen := n } :=
    ⟨hmax, hlarge, by simp only; omega, hst.fileLen_eq⟩
  obtain ⟨memory', fileOff, reads, hio, hloaded, hbefore⟩ := loaded_of_io hf hsized hnpos
    (min_le_left _ _) hst.fileOff_eq (by have := hbound.le; simp only; omega) (by
      intro hlt
      simp only at hlt ⊢
      rwa [show next + n = limit by omega])
  refine ⟨{ st with
    memory := memory', largeReadPosition := next, largeReadLen := n, fileOff := fileOff,
    reads := reads, bufferOffset := -(k : ℤ), bufferLen := req }, ?_, ?_, .inl ?_, .inl ?_⟩
  · have hnextLen : st.nextReadLen ((st.inEffectFileLen : ℤ) - next) = (n : ℕ) :=
      nextReadLen_eq (by omega)
    have hload : st.loadAt (st.maxBufferLen + st.bufferOffset)
        ((st.maxLargeReadLen : ℤ) - st.bufferOffset) =
        .ok ((F.content.drop (st.largeReadPosition + o)).take k) :=
      loadAt_eq hdata (by omega) (by omega) (by omega)
    have hcopy : st.storeAt ((st.maxBufferLen : ℤ) - (st.maxLargeReadLen - st.bufferOffset))
        ((F.content.drop (st.largeReadPosition + o)).take k) =
        .ok { st with memory := memory } := storeAt_eq hstore (by omega)
    rw [BufferedRead.useBeforeBuffer]
    rw [if_neg (by omega), if_neg (by omega)]
    simp only [← hnext, hnextLen]
    rw [if_neg (by omega), hload]
    simp only [hcopy]
    simp only [toNat_natCast, hio]
    rw [if_neg (by omega), if_neg (by omega)]
    simp only [Except.ok.injEq, Prod.mk.injEq, ReadBuffer.mk.injEq, BufferedRead.mk.injEq, true_and,
      and_true]
    omega
  · have hstart : next - k = st.largeReadPosition + o := by omega
    refine ⟨hloaded.withBuffer _ req st.haveTemporaryLimitInEffect st.temporaryLimitFileLen, ?_, rfl,
      ?_, fun _ => ⟨k, rfl, by omega, by simp only; omega, ?_, len, ?_⟩, hin, hbound,
      fun _ => ⟨by simp only; omega, len, hblock, hlimit⟩⟩
    · simp only
      omega
    · simp only
      omega
    · simp only [hstart]
      intro i hi
      rw [hbefore _ (by omega)]
      exact hcopied i hi
    · simp only [hstart]
      exact ⟨hblock, by omega, by omega⟩
  · simp only
    omega
  · omega

theorem Inv.getNextBuffer (hinv : Inv F st c) {len : ℕ} (hblock : F.BlockAt (c.pos + c.len) len)
    (hlimit : c.pos + c.len + len ≤ c.limit) : ∃ st', st.getNextBuffer f minimumHeaderLen =
        .ok (some ⟨st'.maxBufferLen + st'.bufferOffset, st'.bufferLen⟩, st') ∧
      Inv F st' ⟨c.pos + c.len, minimumHeaderLen, c.limit, true⟩ ∧
      (st'.Ends c.limit ↔ st.Ends c.limit) := by
  have hmax := hinv.maxBufferLen_eq
  have hlarge := hinv.le_maxLargeReadLen
  have hlen := hblock.bounds
  have hpos := hinv.pos_eq
  have hclen := hinv.len_eq
  have hwithin := hinv.within
  have hpos' := F.header_pos
  -- where the block begins in the memory before, it is the one that was put there
  have hneg : st.bufferOffset + st.bufferLen < 0 → c.len = 0 ∧ st.largeReadPosition < c.pos + len ∧
        c.pos + len ≤ st.largeReadPosition + st.largeReadLen := by
    intro hlt
    obtain ⟨k, hk⟩ := hinv.before (by omega)
    obtain ⟨len', hblock', hklen, hlen'⟩ := hk.block
    have hoffset := hk.offset_eq
    have hstart : c.pos + c.len = st.largeReadPosition - k := by
      by_contra hne
      have := hblock'.end_le hblock.isBoundary (by omega)
      omega
    rw [hstart] at hblock
    obtain rfl := hblock.unique hblock'
    omega
  set st₁ : BufferedRead :=
    { st with bufferOffset := st.bufferOffset + st.bufferLen, bufferLen := 0 } with hst₁
  have hloaded₁ : Loaded F st₁ :=
    hinv.withBuffer _ 0 st.haveTemporaryLimitInEffect st.temporaryLimitFileLen
  have hin : st₁.inEffectFileLen = c.limit := hinv.limit_eq
  unfold BufferedRead.getNextBuffer
  rw [if_neg (by omega)]
  simp only [← hst₁, hinv.limit_eq]
  rw [if_neg (by omega)]
  by_cases hall : st.bufferOffset + st.bufferLen = st.largeReadLen
  · -- all of the large read is used
    rw [if_pos hall]
    set next := st.largeReadPosition + st.largeReadLen with hnext
    set n := min st.maxLargeReadLen (c.limit - next) with hn
    have hnpos : 0 < n := by omega
    have hnext' : c.pos + c.len = next := by omega
    have hnextLen : nextReadLen { st with
        largeReadPosition := next, bufferOffset := 0, bufferLen := 0 } ((c.limit : ℤ) - next) =
        (n : ℕ) := nextReadLen_eq (by omega)
    simp only [hnextLen, toNat_natCast]
    rw [if_neg (by omega), if_neg hnpos.ne']
    have hsized : Sized F { st with
        largeReadPosition := next, largeReadLen := n, bufferOffset := 0, bufferLen := 0 } :=
      ⟨hmax, hlarge, hinv.memory, hinv.fileLen_eq⟩
    obtain ⟨_, _, _, hio, hloaded, -⟩ := loaded_of_io hf hsized hnpos
      (min_le_left _ _) hinv.fileOff_eq
      (by have := hinv.limit_isBoundary.le; simp only; omega) (by
        intro hlt
        simp only at hlt ⊢
        rw [show next + n = c.limit by omega]
        exact hinv.limit_isBoundary)
    rw [hio]
    simp only
    rw [if_neg (by omega)]
    refine ⟨_, by simp only [add_zero], ⟨hloaded.withBuffer 0 minimumHeaderLen
      st.haveTemporaryLimitInEffect st.temporaryLimitFileLen, ?_, rfl, ?_,
      fun hlt => absurd hlt (lt_irrefl _), hinv.limit_eq, hinv.limit_isBoundary,
      fun _ => ⟨hpos', len, hblock, hlimit⟩⟩, iff_of_true (.inl ?_) (.inl (by omega))⟩
    · simp only [hnext']
      omega
    · simp only
      omega
    · simp only
      omega
  · rw [if_neg hall]
    by_cases hover : st.bufferOffset + st.bufferLen + minimumHeaderLen > st.largeReadLen
    · rw [if_pos hover]
      obtain ⟨o, ho⟩ := eq_ofNat_of_zero_le (a := st.bufferOffset + st.bufferLen)
        (not_lt.1 fun hlt => by have := hneg hlt; omega)
      have hstart : st.largeReadPosition + o = c.pos + c.len := by omega
      have hover₁ : st₁.largeReadLen < o + minimumHeaderLen := by
        simp only [hst₁]
        omega
      have hleft₁ : o < st₁.largeReadLen := by
        simp only [hst₁]
        omega
      obtain ⟨st', huse, hinv', hends', hends⟩ := hloaded₁.useBeforeBuffer hf ho
        (hstart.symm ▸ hblock) (hstart.symm ▸ hlimit) hinv.limit_isBoundary hin hlen.2.1 hover₁ hleft₁
      rw [huse]
      refine ⟨st', rfl, ?_, iff_of_true hends' hends⟩
      rw [← hstart]
      exact hinv'
    · rw [if_neg hover]
      refine ⟨_, rfl, ⟨hinv.withBuffer _ minimumHeaderLen st.haveTemporaryLimitInEffect
        st.temporaryLimitFileLen, ?_, rfl, ?_, fun hlt => ?_, hinv.limit_eq, hinv.limit_isBoundary,
        fun _ => ⟨hpos', len, hblock, hlimit⟩⟩, .rfl⟩
      · simp only
        omega
      · simp only
        omega
      · have hlt' : st.bufferOffset + st.bufferLen < 0 := hlt
        obtain ⟨k, hk⟩ := hinv.before (by omega)
        refine ⟨k, ⟨?_, hk.le_maxBufferLen, hk.le_position, hk.data, hk.block⟩⟩
        have := hk.offset_eq
        simp only
        omega

theorem Inv.growBuffer (hinv : Inv F st c) {len n : ℕ} (hc : c.inBlock = true)
    (hblock : F.BlockAt c.pos len) (hmore : c.len < n) (hle : n ≤ len) :
    ∃ st', st.growBuffer f n = .ok (⟨st'.maxBufferLen + st'.bufferOffset, st'.bufferLen⟩, st') ∧
      Inv F st' { c with len := n } ∧ (st'.Ends c.limit ↔ st.Ends c.limit) := by
  have hmax := hinv.maxBufferLen_eq
  have hlen := hblock.bounds
  have hpos := hinv.pos_eq
  have hclen := hinv.len_eq
  obtain ⟨_, len', hblock', hlimit⟩ := hinv.inBlock hc
  obtain rfl := hblock.unique hblock'
  -- a block that begins in the memory before ends in the current read
  have hneg : st.bufferOffset < 0 → st.bufferOffset + len ≤ st.largeReadLen := by
    intro hlt
    obtain ⟨k, hk⟩ := hinv.before hlt
    obtain ⟨len', hblock', -, hlen'⟩ := hk.block
    have hoffset := hk.offset_eq
    rw [show st.largeReadPosition - k = c.pos by omega] at hblock'
    obtain rfl := hblock.unique hblock'
    omega
  unfold BufferedRead.growBuffer
  rw [if_neg (by omega)]
  split_ifs with hover
  · obtain ⟨o, ho⟩ := eq_ofNat_of_zero_le (not_lt.1 fun hlt => by have := hneg hlt; omega)
    have hstart : st.largeReadPosition + o = c.pos := by omega
    have hwithin := hinv.within
    obtain ⟨st', huse, hinv', hends', hends⟩ := hinv.useBeforeBuffer hf ho (hstart.symm ▸ hblock)
      (hstart.symm ▸ hlimit) hinv.limit_isBoundary hinv.limit_eq hle (by omega) (by omega)
    refine ⟨st', huse, ?_, iff_of_true hends' hends⟩
    rw [hstart] at hinv'
    rwa [show ({ c with len := n } : Cursor) = ⟨c.pos, n, c.limit, true⟩ by rw [← hc]]
  · refine ⟨_, rfl, ⟨hinv.withBuffer st.bufferOffset n st.haveTemporaryLimitInEffect
      st.temporaryLimitFileLen, hpos, rfl, ?_, fun hlt => ?_, hinv.limit_eq, hinv.limit_isBoundary,
      fun _ => ⟨zero_lt_of_lt hmore, len, hblock, hlimit⟩⟩, .rfl⟩
    · simp only
      omega
    · obtain ⟨k, hk⟩ := hinv.before hlt
      exact ⟨k, hk.offset_eq, hk.le_maxBufferLen, hk.le_position, hk.data, hk.block⟩

/-- **One call.** A call that a caller may make succeeds and returns what it should. -/
theorem Inv.call {c c' : Cursor} (hinv : Inv F st c) {readCall : ReadCall} {out : Option Seen}
    (hcall : Reads F c readCall out c') :
    ∃ st', st.call f minimumHeaderLen readCall = .ok (out, st') ∧ Inv F st' c' ∧
      (readCall.isRead = true → c'.limit = c.limit ∧ (st'.Ends c.limit ↔ st.Ends c.limit)) := by
  cases hcall with
  | next hblock hlimit =>
    obtain ⟨st', hnext, hinv', hends⟩ := hinv.getNextBuffer hf hblock hlimit
    refine ⟨st', ?_, hinv', fun _ => ⟨rfl, hends⟩⟩
    simp [BufferedRead.call, hnext, bind, Except.bind, hinv'.look_eq, pure, Except.pure]
  | grow hin hblock hmore hle =>
    obtain ⟨st', hgrow, hinv', hends⟩ := hinv.growBuffer hf hin hblock hmore hle
    refine ⟨st', ?_, hinv', fun _ => ⟨rfl, hends⟩⟩
    simp [BufferedRead.call, hgrow, bind, Except.bind, hinv'.look_eq, pure, Except.pure]
  | range hbegin hend hle =>
    obtain ⟨st', hrange, hinv', -⟩ := hinv.setTemporaryRange hf hbegin hend hle
    refine ⟨st', ?_, hinv', nofun⟩
    simp [BufferedRead.call, hrange, bind, Except.bind, pure, Except.pure]

theorem Inv.callAll {c c' : Cursor} (hinv : Inv F st c) {calls : List ReadCall}
    {outs : List (Option Seen)} (hcalls : ReadsAll F c calls outs c') :
    ∃ st', st.callAll f minimumHeaderLen calls = .ok (outs, st') ∧ Inv F st' c' ∧
      ((∀ readCall ∈ calls, readCall.isRead = true) →
        c'.limit = c.limit ∧ (st'.Ends c.limit ↔ st.Ends c.limit)) := by
  induction hcalls generalizing st with
  | nil c => exact ⟨st, rfl, hinv, fun _ => ⟨rfl, .rfl⟩⟩
  | cons hcall _ ih =>
    obtain ⟨_, hone, hinv₁, hends₁⟩ := hinv.call hf hcall
    obtain ⟨st₂, hrest, hinv₂, hends₂⟩ := ih hinv₁
    refine ⟨st₂, ?_, hinv₂, fun hread => ?_⟩
    · simp [BufferedRead.callAll, hone, hrest, bind, Except.bind, pure, Except.pure]
    obtain ⟨hlimit₁, hiff₁⟩ := hends₁ (hread _ mem_cons_self)
    obtain ⟨hlimit₂, hiff₂⟩ := hends₂ fun _ h => hread _ (mem_cons_of_mem _ h)
    rw [hlimit₁] at hlimit₂ hiff₂
    exact ⟨hlimit₂, hiff₂.trans hiff₁⟩

theorem inv_setFile {maxLargeReadLen : ℕ} (hlarge : maxBufferLen ≤ maxLargeReadLen)
    {memory : List Byte} (hmemory : maxBufferLen + maxLargeReadLen ≤ memory.length) :
    ∃ st, (init maxBufferLen maxLargeReadLen memory).setFile f F.content.length = .ok st ∧
      Inv F st F.opened := by
  simp only [setFile, init]
  rcases Nat.eq_zero_or_pos F.content.length with _ | hpos
  · rw [if_neg (by omega)]
    refine ⟨_, rfl, ⟨⟨rfl, hlarge, hmemory, rfl⟩, zero_le _, zero_le _, rfl,
      fun i hi => absurd hi (not_lt_zero i), fun _ => F.isBoundary_zero⟩, rfl, rfl, le_rfl,
      fun hlt => absurd hlt (lt_irrefl 0), rfl, F.isBoundary_length, fun h => by cases h⟩
  rw [if_pos hpos]
  set len := if F.content.length > maxLargeReadLen then maxLargeReadLen
    else F.content.length with hlen
  have hle : len ≤ maxLargeReadLen ∧ len ≤ F.content.length := by
    rw [hlen]
    split_ifs <;> omega
  have hlenpos : 0 < len := by
    rw [hlen]
    split_ifs
    · exact (BlockFile.maxBufferLen_pos hpos).trans_le hlarge
    · exact hpos
  have hshort : len < maxLargeReadLen → F.IsBoundary (0 + len) := fun hlt => by
    have hall : len = F.content.length := by
      rw [hlen] at hlt ⊢
      split_ifs at hlt ⊢
      · exact absurd hlt (lt_irrefl _)
      · rfl
    rw [zero_add, hall]
    exact F.isBoundary_length
  have hsized : Sized F ⟨maxBufferLen, maxLargeReadLen, memory, 0, len, 0, 0,
      F.content.length, 0, false, 0, 0⟩ := ⟨rfl, hlarge, hmemory, rfl⟩
  obtain ⟨_, _, _, hio, hloaded, -⟩ := loaded_of_io hf hsized hlenpos hle.1 rfl
    (by simpa using hle.2) hshort
  exact ⟨_, hio, hloaded, rfl, rfl, natCast_nonneg _, fun hlt => absurd hlt (lt_irrefl 0),
    rfl, F.isBoundary_length, fun h => by cases h⟩

end BufferedRead

open BufferedRead in
/-- **Buffered reading returns the bytes of the file.**  Whatever blocks the file has, whatever the
sizes of the memory areas and however the file delivers its bytes: after the file has been
opened, every sequence of calls that a caller may make succeeds, and each buffer that is handed
out has the length that was asked for and holds the bytes of the file at the current position. -/
theorem bufferedRead_returns_file (F : BlockFile minimumHeaderLen maxBufferLen) (f : ReadFile)
    (hf : f.content = F.content) (maxLargeReadLen : ℕ) (hlarge : maxBufferLen ≤ maxLargeReadLen)
    (memory : List Byte) (hmemory : memory.length = maxBufferLen + maxLargeReadLen)
    (calls : List ReadCall) (outs : List (Option Seen)) (c : Cursor)
    (hcalls : ReadsAll F F.opened calls outs c) :
    ∃ st₀ st, (init maxBufferLen maxLargeReadLen memory).setFile f F.content.length = .ok st₀ ∧
      st₀.callAll f minimumHeaderLen calls = .ok (outs, st) ∧
      st.currentPosition = c.pos ∧ st.nextBufferPosition = c.pos + c.len := by
  obtain ⟨st₀, hopen, hinv₀⟩ := inv_setFile hf hlarge hmemory.ge
  obtain ⟨st, hall, hinv, -⟩ := hinv₀.callAll hf hcalls
  refine ⟨st₀, st, hopen, hall, hinv.pos_eq, ?_⟩
  rw [nextBufferPosition, hinv.pos_eq, hinv.len_eq]

/-- Three blocks, of which the second goes over the end of the first large read. -/
def threeBlocks : BlockFile 2 3 where
  blocks := [[1, 2], [3, 4, 5], [6, 7]]
  header_pos := by decide
  header_le := by decide
  len_le := by decide

/-- Reading two blocks and then the second again, from a file that delivers one byte at a time. -/
theorem bufferedRead_threeBlocks : ∃ st₀ st, (BufferedRead.init 3 4 (List.replicate 7 0)).setFile
          ⟨threeBlocks.content, fun _ => 0⟩ threeBlocks.content.length = .ok st₀ ∧
      st₀.callAll ⟨threeBlocks.content, fun _ => 0⟩ 2
          [.getNextBuffer, .getNextBuffer, .growBuffer 3, .setTemporaryRange 2 5, .getNextBuffer] =
        .ok ([some ⟨0, [1, 2]⟩, some ⟨2, [3, 4]⟩, some ⟨2, [3, 4, 5]⟩, none, some ⟨2, [3, 4]⟩],
          st) ∧
      st.currentPosition = 2 ∧ st.nextBufferPosition = 2 + 2 := by
  have hfirst : threeBlocks.BlockAt 0 2 := ⟨0, [1, 2], rfl, rfl, rfl⟩
  have hsecond : threeBlocks.BlockAt 2 3 := ⟨1, [3, 4, 5], rfl, rfl, rfl⟩
  refine bufferedRead_returns_file threeBlocks ⟨threeBlocks.content, fun _ => 0⟩ rfl 4 (by decide)
    (List.replicate 7 0) rfl _ _ ⟨2, 2, 5, true⟩ ?_
  refine .cons (.next hfirst (by decide)) (.cons (.next hsecond (by decide))
    (.cons (.grow rfl hsecond (by decide) le_rfl) (.cons (.range hsecond.isBoundary
      hsecond.isBoundary_end (by decide)) (.cons (.next hsecond (by decide)) (.nil _)))))

end Cloudberry.AppendOnly
