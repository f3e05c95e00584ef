/-
# The bit stream

`utils/misc/bitstream.c`: a cursor over a byte buffer from which numbers are read, and into
which they are or-ed, bit by bit with the most significant bit first. A call beyond the
end of the buffer fails and sets the error flag for good.

A stream without an error is given by its buffer and the number of bits before the cursor
(`cursor`). Reading finds the bits of the buffer (`get_cursor`); writing to a zeroed buffer
appends bits (`put_written`).
-/

import Cloudberry.Lib.BitList

namespace Cloudberry.AppendOnly

open List BitList Nat

abbrev Byte : Type := BitVec 8

/-- A buffer and a cursor into it, the highest bit of a byte first. -/
structure Bitstream where
  bitOffset : ℕ
  byteOffset : ℕ
  data : List Byte
  dataSize : ℕ
  error : Bool
deriving DecidableEq, Repr

namespace Bitstream

/-- Nothing is read or written behind the end: the error stays from then on. -/
def checkForError (s : Bitstream) : Bool × Bitstream :=
  if s.error then (false, s)
  else if s.byteOffset ≥ s.dataSize then (false, { s with error := true, byteOffset := 0 })
  else (true, s)

def init (data : List Byte) (dataSize : ℕ) : Bitstream := ⟨0, 0, data, dataSize, false⟩

section

variable (s : Bitstream)

/-- The cursor one bit further, as at the end of `Bitstream_GetBit` and `Bitstream_PutBit`. -/
def advance : Bitstream :=
  if s.bitOffset + 1 = 8 then { s with bitOffset := 0, byteOffset := s.byteOffset + 1 }
  else { s with bitOffset := s.bitOffset + 1 }

/-- The bit at the cursor, or the error. -/
def getBit : Option Bool × Bitstream :=
  match s.checkForError with
  | (false, s) => (none, s)
  | (true, s) =>
    let c := s.data.getD s.byteOffset 0
    let mask := 1#8 <<< (7 - s.bitOffset)
    (some (c &&& mask != 0), s.advance)

/-- A set bit is or-ed into the buffer, which begins as zeros. -/
def putBit (v : Bool) : Bool × Bitstream :=
  match s.checkForError with
  | (false, s) => (false, s)
  | (true, s) =>
    let mask := 1#8 <<< (7 - s.bitOffset)
    let s := if v then { s with data := s.data.modify s.byteOffset (· ||| mask) } else s
    (true, s.advance)

def skip (skipBitCount : ℕ) : Bool × Bitstream :=
  match s.checkForError with
  | (false, s) => (false, s)
  | (true, s) =>
    let newBitOffset := s.bitOffset + skipBitCount
    (true, { s with bitOffset := newBitOffset % 8, byteOffset := s.byteOffset + newBitOffset / 8 })

def getOffset : ℕ := s.byteOffset * 8 + s.bitOffset

def align (alignment : ℕ) : Bool × Bitstream :=
  let forAlignment := s.getOffset % alignment
  if forAlignment > 0 then s.skip (alignment - forAlignment) else (true, s)

/-- `Bitstream_GetAlignedData`: the place in the buffer, and the stream aligned. -/
def getAlignedData (alignment : ℕ) : ℕ × Bitstream :=
  let s := (s.align alignment).2
  (s.byteOffset, s)

end

/-- The loop of `Bitstream_Get`: `n` more bits after those in `v`. -/
def getLoop : ℕ → BitVec 32 → Bitstream → Option (BitVec 32) × Bitstream
  | 0, v, s => (some v, s)
  | n + 1, v, s =>
    match s.getBit with
    | (none, s) => (none, s)
    | (some tmp, s) => getLoop n (v <<< 1 ||| (BitVec.ofBool tmp).setWidth 32) s

/-- `Bitstream_Get`: `n` bits as a number. -/
def get (s : Bitstream) (n : ℕ) : Option (BitVec 32) × Bitstream := getLoop n 0 s

/-- The loop of `Bitstream_Put`; the mask selects the next bit. -/
def putLoop (v : BitVec 32) : ℕ → BitVec 32 → Bitstream → Bool × Bitstream
  | 0, _, s => (true, s)
  | n + 1, mask, s =>
    match s.putBit (v &&& mask != 0) with
    | (false, s) => (false, s)
    | (true, s) => putLoop v n (mask >>> 1) s

/-- `Bitstream_Put`: the lowest `bitCount` bits, the highest of them first. -/
def put (s : Bitstream) (v : BitVec 32) (bitCount : ℕ) : Bool × Bitstream :=
  putLoop v bitCount (1#32 <<< (bitCount - 1)) s

def hasError (s : Bitstream) : Bool := s.error

def getLength (s : Bitstream) : ℕ := if s.bitOffset = 0 then s.byteOffset else s.byteOffset + 1

/-! ### Streams without an error -/

/-- The stream with `o` bits before its cursor. -/
def cursor (data : List Byte) (dataSize o : ℕ) : Bitstream := ⟨o % 8, o / 8, data, dataSize, false⟩

variable {data : List Byte} {dataSize o : ℕ}

theorem init_eq : init data dataSize = cursor data dataSize 0 := rfl

theorem advance_cursor : (cursor data dataSize o).advance = cursor data dataSize (o + 1) := by
  unfold advance cursor
  by_cases hbit : o % 8 + 1 = 8
  · have hmod : (o + 1) % 8 = 0 := by omega
    have hdiv : (o + 1) / 8 = o / 8 + 1 := by omega
    simp [hbit, hmod, hdiv]
  · have hmod : (o + 1) % 8 = o % 8 + 1 := by omega
    have hdiv : (o + 1) / 8 = o / 8 := by omega
    simp [hbit, hmod, hdiv]

theorem checkForError_cursor (ho : o < 8 * dataSize) :
    (cursor data dataSize o).checkForError = (true, cursor data dataSize o) := by
  have hbyte : ¬ o / 8 ≥ dataSize := by omega
  simp [checkForError, cursor, hbyte]

@[simp] theorem getOffset_cursor : (cursor data dataSize o).getOffset = o := by
  simp only [getOffset, cursor]
  omega

theorem getLength_cursor : (cursor data dataSize o).getLength = (o + 7) / 8 := by
  by_cases hbit : o % 8 = 0
  · simp only [getLength, cursor, hbit, if_true]
    omega
  · simp only [getLength, cursor, hbit, if_false]
    omega

theorem skip_cursor (ho : o < 8 * dataSize) (n : ℕ) :
    (cursor data dataSize o).skip n = (true, cursor data dataSize (o + n)) := by
  have hmod : (o % 8 + n) % 8 = (o + n) % 8 := by omega
  have hdiv : o / 8 + (o % 8 + n) / 8 = (o + n) / 8 := by omega
  rw [skip, checkForError_cursor ho]
  simp [cursor, hmod, hdiv]

theorem getAlignedData_cursor :
    (cursor data dataSize 16).getAlignedData 16 = (2, cursor data dataSize 16) := by
  have halign : (cursor data dataSize 16).align 16 = (true, cursor data dataSize 16) := by
    simp [align]
  rw [getAlignedData, halign]
  rfl

/-! ### Reading -/

theorem getBit_cursor (ho : o < 8 * dataSize) {b : Bool} {rest : List Bool}
    (hbits : (ofBytes data).drop o = b :: rest) :
    (cursor data dataSize o).getBit = (some b, cursor data dataSize (o + 1)) := by
  have hb : (ofBytes data)[o]? = some b := by
    rw [← head?_drop, hbits, head?_cons]
  rw [getElem?_ofBytes] at hb
  obtain ⟨c, hc, rfl⟩ := Option.map_eq_some_iff.1 hb
  have hplace : 7 - o % 8 < 8 := by omega
  have hmsb : c.getMsbD (o % 8) = c.getLsbD (7 - o % 8) := by
    simp [BitVec.getMsbD, mod_lt o (by decide : 8 > 0)]
  rw [getBit, checkForError_cursor ho, hmsb, ← and_one_shiftLeft_bne_zero hplace]
  simp only [advance_cursor]
  simp [cursor, getD_eq_getElem?_getD, hc]

theorem getLoop_cursor {bits rest : List Bool} (v : BitVec 32) (ho : o + bits.length ≤ 8 * dataSize)
    (hbits : (ofBytes data).drop o = bits ++ rest) :
    getLoop bits.length v (cursor data dataSize o) =
      (some (BitVec.ofNat 32 (toNat v.toNat bits)), cursor data dataSize (o + bits.length)) := by
  induction bits generalizing v o with
  | nil => simp [getLoop, BitList.toNat]
  | cons b bits ih =>
    rw [length_cons] at ho
    have hnext : (ofBytes data).drop (o + 1) = bits ++ rest := by
      rw [← drop_drop, hbits, cons_append, drop_one, tail_cons]
    rw [length_cons, getLoop, getBit_cursor (by omega) hbits]
    simp only
    have hmod : BitVec.ofNat 32 (toNat ((2 * v.toNat + b.toNat) % 2 ^ 32) bits) =
        BitVec.ofNat 32 (toNat (2 * v.toNat + b.toNat) bits) := by
      apply BitVec.eq_of_toNat_eq
      rw [BitVec.toNat_ofNat, BitVec.toNat_ofNat, toNat_eq_add,
        toNat_eq_add (2 * v.toNat + b.toNat)]
      exact ModEq.add_right _ (ModEq.mul_right _ (mod_modEq _ _))
    rw [ih _ (by omega) hnext, toNat_shiftLeft_or, BitList.toNat, hmod, add_assoc, add_comm 1]

variable {n : ℕ}

/-- **Reading a number** finds the number whose bits stand at the cursor. -/
theorem get_cursor {v : BitVec 32} {rest : List Bool} (hv : v.toNat < 2 ^ n)
    (ho : o + n ≤ 8 * dataSize) (hbits : (ofBytes data).drop o = ofNat n v.toNat ++ rest) :
    (cursor data dataSize o).get n = (some v, cursor data dataSize (o + n)) := by
  have hlen : (ofNat n v.toNat).length = n := length_ofNat n v.toNat
  have hloop := getLoop_cursor 0 (by rwa [hlen]) hbits
  rw [hlen, toNat_ofNat, mod_eq_of_lt hv] at hloop
  simpa [get] using hloop

variable (data) in
theorem getLoop_short (ho : o ≤ 8 * dataSize) (hshort : 8 * dataSize < o + n) (v : BitVec 32) :
    ∃ s, getLoop n v (cursor data dataSize o) = (none, s) ∧ s.error = true := by
  induction n generalizing o v with
  | zero => omega
  | succ n ih =>
    rw [getLoop, getBit]
    by_cases hfull : 8 * dataSize ≤ o
    · have hbyte : o / 8 ≥ dataSize := by omega
      simp [checkForError, cursor, hbyte]
    · rw [checkForError_cursor (not_le.1 hfull)]
      simp only [advance_cursor]
      exact ih (by omega) (by omega) _

theorem get_of_error {s : Bitstream} (hs : s.error = true) : s.get (n + 1) = (none, s) := by
  simp [get, getLoop, getBit, checkForError, hs]

theorem drop_of_drop_append {xs ys rest : List Bool} (h : xs.drop o = ys ++ rest) :
    xs.drop (o + ys.length) = rest := by
  rw [← drop_drop, h, drop_left]

/-! ### Writing -/

/-- The stream has written `bits` into a zeroed buffer. -/
structure Written (s : Bitstream) (bits : List Bool) : Prop where
  cursor : s = cursor s.data s.dataSize bits.length
  full : s.data.length = s.dataSize
  bits : ofBytes s.data = bits ++ replicate (8 * s.dataSize - bits.length) false

theorem written_init (n : ℕ) : Written (init (replicate n 0) n) [] where
  cursor := rfl
  full := by simp [init]
  bits := by
    apply ext_getElem?
    intro i
    rw [getElem?_ofBytes]
    by_cases hi : i / 8 < n
    · have hlt : i < 8 * n := by omega
      simp [init, hi, hlt]
    · have hlt : ¬ i < 8 * n := by omega
      simp [init, hi, hlt]

theorem putBit_cursor (ho : o < 8 * dataSize) (v : Bool) : (cursor data dataSize o).putBit v =
      (true, cursor (if v then data.modify (o / 8) (· ||| 1#8 <<< (7 - o % 8)) else data)
        dataSize (o + 1)) := by
  rw [putBit, checkForError_cursor ho]
  cases v
  · simp [advance_cursor]
  · simp only [if_true]
    exact congrArg (Prod.mk true) advance_cursor

theorem putBit_cursor_full (ho : 8 * dataSize ≤ o) (v : Bool) :
    ((cursor data dataSize o).putBit v).1 = false := by
  have hbyte : o / 8 ≥ dataSize := by omega
  simp [putBit, checkForError, cursor, hbyte]

variable {s s' : Bitstream}

theorem Written.putBit {bits : List Bool} {v : Bool} (hs : s.Written bits)
    (hput : s.putBit v = (true, s')) : s'.Written (bits ++ [v]) ∧ s'.dataSize = s.dataSize := by
  obtain ⟨hcursor, hfull, hbits⟩ := hs
  rw [hcursor] at hput
  have ho : bits.length < 8 * s.dataSize := by
    by_contra hlt
    have hfail : ((Bitstream.cursor s.data s.dataSize bits.length).putBit v).1 = false :=
      putBit_cursor_full (not_lt.1 hlt) v
    rw [hput] at hfail
    cases hfail
  rw [putBit_cursor ho] at hput
  obtain rfl := (Prod.mk.inj hput).2
  refine ⟨⟨by simp [Bitstream.cursor], ?_, ?_⟩, rfl⟩
  · cases v <;> simp [Bitstream.cursor, hfull]
  have hrest : replicate (8 * s.dataSize - bits.length) false =
      false :: replicate (8 * s.dataSize - (bits ++ [v]).length) false := by
    rw [← replicate_succ]
    congr 1
    simp only [length_append, length_singleton]
    omega
  have hplace : 8 * (bits.length / 8) + bits.length % 8 = bits.length := by omega
  cases v with
  | false => simpa [Bitstream.cursor, hrest] using hbits
  | true =>
    have hset := ofBytes_modify s.data (bits.length / 8) (mod_lt bits.length (by decide : 8 > 0))
    rw [hplace, hbits, hrest, set_append_right _ _ le_rfl, Nat.sub_self, set_cons_zero] at hset
    simpa [Bitstream.cursor] using hset

theorem Written.putLoop {v mask : BitVec 32} {bits : List Bool} (hn : n ≤ 32)
    (hmask : n = 0 ∨ mask = 1#32 <<< (n - 1)) (hs : s.Written bits)
    (hput : Bitstream.putLoop v n mask s = (true, s')) :
    s'.Written (bits ++ ofNat n v.toNat) ∧ s'.dataSize = s.dataSize := by
  induction n generalizing mask s bits with
  | zero =>
    obtain rfl := (Prod.mk.inj hput).2
    exact ⟨by simpa [ofNat] using hs, rfl⟩
  | succ n ih =>
    have hmask : mask = 1#32 <<< n := hmask.resolve_left (by omega)
    have hbit : (v &&& mask != 0) = v.toNat.testBit n := by
      rw [hmask, and_one_shiftLeft_bne_zero (by omega)]
      rfl
    rw [Bitstream.putLoop, hbit] at hput
    rcases hone : s.putBit (v.toNat.testBit n) with ⟨_ | _, _⟩ <;> rw [hone] at hput
    · cases hput
    obtain ⟨hs₁, hsize⟩ := hs.putBit hone
    have hshift : n = 0 ∨ mask >>> 1 = 1#32 <<< (n - 1) := by
      have hall : ∀ n : ℕ, n < 32 → n = 0 ∨ 1#32 <<< n >>> 1 = 1#32 <<< (n - 1) := by decide
      rw [hmask]
      exact hall n (by omega)
    obtain ⟨hs', hsize'⟩ := ih (by omega) hshift hs₁ hput
    refine ⟨?_, hsize'.trans hsize⟩
    rwa [append_assoc, singleton_append] at hs'

/-- **Writing a number** appends its bits. -/
theorem Written.put {v : BitVec 32} {bits : List Bool} (hn : n ≤ 32) (hs : s.Written bits)
    (hput : s.put v n = (true, s')) :
    s'.Written (bits ++ ofNat n v.toNat) ∧ s'.dataSize = s.dataSize :=
  Written.putLoop hn (.inr rfl) hs hput

theorem Written.length_le {s : Bitstream} {bits : List Bool} (hs : s.Written bits) :
    bits.length ≤ 8 * s.dataSize := by
  have hlen := congrArg length hs.bits
  rw [length_ofBytes, hs.full, length_append] at hlen
  omega

theorem Written.putBit_ok {s : Bitstream} {bits : List Bool} (hs : s.Written bits)
    (hroom : bits.length < 8 * s.dataSize) (v : Bool) : ∃ s', s.putBit v = (true, s') := by
  rw [hs.cursor]
  exact ⟨_, putBit_cursor hroom v⟩

theorem Written.putLoop_ok {v mask : BitVec 32} {s : Bitstream} {bits : List Bool}
    (hs : s.Written bits) (hroom : bits.length + n ≤ 8 * s.dataSize) :
    ∃ s', Bitstream.putLoop v n mask s = (true, s') := by
  induction n generalizing mask s bits with
  | zero => exact ⟨s, rfl⟩
  | succ n ih =>
    obtain ⟨s₁, hput⟩ := hs.putBit_ok (by omega) (v &&& mask != 0)
    obtain ⟨hs₁, hsize⟩ := hs.putBit hput
    obtain ⟨s', hloop⟩ : ∃ s', Bitstream.putLoop v n (mask >>> 1) s₁ = (true, s') := ih hs₁ (by
      rw [hsize, length_append, length_singleton]
      omega)
    refine ⟨s', ?_⟩
    rw [Bitstream.putLoop, hput]
    exact hloop

/-- **Skipping** over zeroed bits writes zeros. -/
theorem Written.skip {s : Bitstream} {bits : List Bool} (hs : s.Written bits)
    (hroom : bits.length + n ≤ 8 * s.dataSize) (hn : 0 < n) :
    ∃ s', s.skip n = (true, s') ∧ s'.Written (bits ++ replicate n false) ∧
      s'.dataSize = s.dataSize := by
  obtain ⟨hcursor, hfull, hbits⟩ := hs
  rw [hcursor, skip_cursor (by omega)]
  refine ⟨_, rfl, ⟨by simp [Bitstream.cursor], hfull, ?_⟩, rfl⟩
  have hrest : replicate (8 * s.dataSize - bits.length) false =
      replicate n false ++ replicate (8 * s.dataSize - (bits.length + n)) false := by
    rw [replicate_append_replicate]
    congr 1
    omega
  simpa [Bitstream.cursor, hrest] using hbits

end Bitstream
end Cloudberry.AppendOnly
