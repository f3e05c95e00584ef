/-
# Decompressing a compressed bitmap gives the bitmap

The two sides of `bitmap_compression.c` meet in the format that its header file describes:
after the header a sequence of codes, each for one block or for a run that repeats the block
before (`Coded`). The writer only produces codes of the blocks it is given
(`compressDefaultLoop_coded`), the reader decodes every such sequence
(`decompressLoop_coded`), and the fall-back without compression copies the blocks.
-/

import Cloudberry.AppendOnly.BitmapCompression

namespace Cloudberry.AppendOnly

open LittleEndian List Bitstream Nat BitList Prod BitmapCompressionFlag

/-! ### The format -/

def blockBits (b : Block) : List Bool :=
  ofNat 2 (blockFlag b).toBits.toNat ++
    if blockFlag b = .raw then ofNat 32 b.toNat else []

/-- The code of a run: `n + 1` repetitions. -/
def runBits (n : ℕ) : List Bool := ofNat 2 rle.toBits.toNat ++ ofNat 8 n

theorem blockFlag_cases (b : Block) :
    blockFlag b = .zero ∧ b = 0 ∨ blockFlag b = .one ∧ b = 0xFFFFFFFF ∨ blockFlag b = .raw := by
  unfold blockFlag
  split_ifs with hzero hone
  · exact Or.inl ⟨rfl, hzero⟩
  · exact Or.inr (Or.inl ⟨rfl, hone⟩)
  · exact Or.inr (Or.inr rfl)

/-- `Coded last bits blocks last'`: after the block `last`, if there is one, `bits` are codes
of `blocks`, and `last'` is the last block then. -/
inductive Coded : Option Block → List Bool → List Block → Option Block → Prop
  | nil (l : Option Block) : Coded l [] [] l
  | block {l l' : Option Block} (b : Block) {bits : List Bool} {blocks : List Block} :
      Coded (some b) bits blocks l' → Coded l (blockBits b ++ bits) (b :: blocks) l'
  | run {l' : Option Block} (b : Block) {n : ℕ} {bits : List Bool} {blocks : List Block} :
      n < 256 → Coded (some b) bits blocks l' →
      Coded (some b) (runBits n ++ bits) (replicate (n + 1) b ++ blocks) l'

theorem Coded.append {l l' l'' : Option Block} {bits bits' : List Bool}
    {blocks blocks' : List Block} (h : Coded l bits blocks l') (h' : Coded l' bits' blocks' l'') :
    Coded l (bits ++ bits') (blocks ++ blocks') l'' := by
  induction h with
  | nil => simpa using h'
  | block b _ ih =>
    rw [append_assoc]
    exact .block b (ih h')
  | run b hn _ ih =>
    rw [append_assoc, append_assoc]
    exact .run b hn (ih h')

theorem coded_replicate (b : Block) (n : ℕ) :
    Coded (some b) (replicate n (blockBits b)).flatten (replicate n b) (some b) := by
  induction n with
  | zero => exact .nil _
  | succ n ih =>
    exact .block b ih

/-! ### The reader -/

variable {bitmap : List Block} {flag : BitmapCompressionFlag} {rest : List Bool} {b : Block}

namespace BitmapDecompressState

variable {data : List Byte} {size o n : ℕ} {failed : Bool}

theorem decompressLoop_repeat (k : ℕ) (last : Block) (bitmap : List Block) (s : Bitstream) :
    decompressLoop (k + n) last k failed bitmap s =
      decompressLoop n last 0 failed (bitmap ++ replicate k last) s := by
  induction k generalizing bitmap with
  | zero => simp
  | succ k ih =>
    rw [show k + 1 + n = (k + n) + 1 by omega, decompressLoop, ih, append_assoc,
      singleton_append, ← replicate_succ]

theorem get_flag (ho : o + 2 ≤ 8 * size)
    (hbits : (ofBytes data).drop o = ofNat 2 flag.toBits.toNat ++ rest) :
    (cursor data size o).get 2 = (some flag.toBits, cursor data size (o + 2)) :=
  get_cursor flag.toBits_lt ho hbits

theorem decompressLoop_block {last b : Block} (ho : o + (blockBits b).length ≤ 8 * size)
    (hbits : (ofBytes data).drop o = blockBits b ++ rest) :
    decompressLoop (n + 1) last 0 failed bitmap (cursor data size o) =
      decompressLoop n b 0 failed (bitmap ++ [b])
        (cursor data size (o + (blockBits b).length)) := by
  unfold blockBits at ho hbits ⊢
  rw [append_assoc] at hbits
  rw [length_append, length_ofNat] at ho ⊢
  rw [decompressLoop, get_flag (by omega) hbits]
  simp only [ofBits_toBits]
  rcases blockFlag_cases b with ⟨hflag, hb⟩ | ⟨hflag, hb⟩ | hflag
  · simp only [hflag, reduceCtorEq, if_false, length_nil, add_zero]
    rw [hb]
  · simp only [hflag, reduceCtorEq, if_false, length_nil, add_zero]
    rw [hb]
  · rw [hflag] at hbits ho
    simp only [if_true, length_ofNat] at hbits ho
    have hraw := drop_of_drop_append hbits
    rw [length_ofNat] at hraw
    simp only [hflag, if_true, length_ofNat, ← add_assoc]
    rw [get_cursor b.isLt (by omega) hraw]

theorem decompressLoop_run {k : ℕ} (hk : k < 256) (ho : o + (runBits k).length ≤ 8 * size)
    (hbits : (ofBytes data).drop o = runBits k ++ rest) :
    decompressLoop (k + 1 + n) b 0 failed bitmap (cursor data size o) =
      decompressLoop n b 0 failed (bitmap ++ replicate (k + 1) b)
        (cursor data size (o + (runBits k).length)) := by
  unfold runBits at ho hbits ⊢
  rw [append_assoc] at hbits
  rw [length_append, length_ofNat, length_ofNat] at ho ⊢
  have hcount := drop_of_drop_append hbits
  have hk' : (BitVec.ofNat 32 k).toNat = k := mod_eq_of_lt (by omega)
  rw [length_ofNat, ← hk'] at hcount
  rw [show k + 1 + n = (k + n) + 1 by omega, decompressLoop, get_flag (by omega) hbits]
  simp only [ofBits_toBits]
  rw [get_cursor (by rw [hk']; exact hk) (by omega) hcount]
  simp only [hk']
  rw [decompressLoop_repeat, append_assoc, singleton_append, ← replicate_succ]

/-- **The reader decodes every sequence of codes.** -/
theorem decompressLoop_coded {l l' : Option Block} {bits rest : List Bool} {blocks : List Block}
    (hcoded : Coded l bits blocks l') (bitmap : List Block) (ho : o + bits.length ≤ 8 * size)
    (hbits : (ofBytes data).drop o = bits ++ rest) :
    decompressLoop (blocks.length + n) (l.getD 0) 0 failed bitmap (cursor data size o) =
      decompressLoop n (l'.getD 0) 0 failed (bitmap ++ blocks)
        (cursor data size (o + bits.length)) := by
  induction hcoded generalizing o bitmap with
  | nil => simp
  | block b _ ih =>
    rw [length_append, ← add_assoc] at ho
    rw [append_assoc] at hbits
    rw [length_cons, show ∀ m, m + 1 + n = (m + n) + 1 by omega,
      decompressLoop_block (by omega) hbits]
    have hnext := ih (bitmap ++ [b]) ho (drop_of_drop_append hbits)
    rw [Option.getD_some] at hnext
    rw [hnext, append_assoc, singleton_append, length_append, add_assoc]
  | @run l' b k bits blocks hk _ ih =>
    rw [length_append, ← add_assoc] at ho
    rw [length_append, length_replicate, add_assoc (k + 1), Option.getD_some,
      decompressLoop_run hk (by omega) hbits]
    have hnext := ih (bitmap ++ replicate (k + 1) b) ho (drop_of_drop_append hbits)
    rw [Option.getD_some] at hnext
    rw [hnext, append_assoc, length_append, add_assoc]

end BitmapDecompressState

/-! ### The writer -/

open Bitstream (Written)

variable {s s' : Bitstream} {bits : List Bool}

theorem putFlags_coded (hb : blockFlag b ≠ .raw) {n : ℕ} (hs : s.Written bits)
    (hput : putFlags (blockFlag b) n s = (true, s')) :
    s'.Written (bits ++ (replicate n (blockBits b)).flatten) ∧ s'.dataSize = s.dataSize := by
  induction n generalizing s bits with
  | zero =>
    obtain rfl := (mk.inj hput).2
    exact ⟨by simpa using hs, rfl⟩
  | succ n ih =>
    rw [putFlags] at hput
    rcases hone : s.put (blockFlag b).toBits 2 with ⟨_ | _, _⟩ <;> rw [hone] at hput
    · cases hput
    obtain ⟨hs₁, hsize⟩ := hs.put (by decide) hone
    obtain ⟨hs', hsize'⟩ := ih hs₁ hput
    refine ⟨?_, hsize'.trans hsize⟩
    have hblock : blockBits b = ofNat 2 (blockFlag b).toBits.toNat := by
      simp [blockBits, hb]
    rw [replicate_succ, flatten_cons, ← append_assoc]
    rwa [← hblock] at hs'

theorem flushRLE_coded {n : ℕ} (hn : n ≤ 256) (hs : s.Written bits)
    (hput : flushRLE s n (blockFlag b) = (true, s')) :
    ∃ run, s'.Written (bits ++ run) ∧ s'.dataSize = s.dataSize ∧
      Coded (some b) run (replicate n b) (some b) := by
  unfold flushRLE at hput
  split_ifs at hput with hpos
  · rw [bitmapEncodeRLE] at hput
    split_ifs at hput with hlong
    · rcases hone : s.put rle.toBits 2 with ⟨_ | _, _⟩ <;> rw [hone] at hput
      · cases hput
      obtain ⟨hs₁, hsize⟩ := hs.put (by decide) hone
      obtain ⟨hs', hsize'⟩ := hs₁.put (by decide) hput
      have hcount : (BitVec.ofNat 32 (n - 1)).toNat = n - 1 := mod_eq_of_lt (by omega)
      have hcoded : Coded (some b) (runBits (n - 1) ++ [])
          (replicate (n - 1 + 1) b ++ []) (some b) := .run b (by omega) (.nil _)
      rw [append_nil, append_nil, Nat.sub_add_cancel hpos] at hcoded
      rw [hcount, append_assoc] at hs'
      exact ⟨runBits (n - 1), hs', hsize'.trans hsize, hcoded⟩
    · obtain ⟨hs', hsize⟩ := putFlags_coded (fun hraw => hlong (Or.inl hraw)) hs hput
      exact ⟨_, hs', hsize, coded_replicate b n⟩
  · obtain rfl := (mk.inj hput).2
    obtain rfl : n = 0 := by omega
    exact ⟨[], by simpa using hs, rfl, .nil _⟩

theorem putBlock_coded (hs : s.Written bits) (hput : putBlock s b = (true, s')) :
    s'.Written (bits ++ blockBits b) ∧ s'.dataSize = s.dataSize := by
  unfold putBlock at hput
  rcases hone : s.put (blockFlag b).toBits 2 with ⟨_ | _, _⟩ <;> rw [hone] at hput
  · cases hput
  obtain ⟨hs₁, hsize⟩ := hs.put (by decide) hone
  unfold blockBits
  split_ifs at hput with hraw
  · obtain ⟨hs', hsize'⟩ := hs₁.put (by decide) hput
    rw [if_pos hraw, ← append_assoc]
    exact ⟨hs', hsize'.trans hsize⟩
  · obtain rfl := (mk.inj hput).2
    rw [if_neg hraw]
    exact ⟨hs₁, hsize⟩

/-- The state of the loop before block `i`: nothing is coded yet, or `done` is coded up to its
last block and `n` more repetitions of it are pending. -/
def Pending (i : ℕ) (last : Block) (flag : BitmapCompressionFlag) (n : ℕ) (code : List Bool)
    (done : List Block) : Prop :=
  (i = 0 ∧ n = 0 ∧ code = [] ∧ done = []) ∨
    (0 < i ∧ flag = blockFlag last ∧ n ≤ 256 ∧ Coded none code done (some last))

theorem Pending.flush {i n : ℕ} {last : Block} {code : List Bool} {done : List Block}
    (hp : Pending i last flag n code done) {header : List Bool} (hs : s.Written (header ++ code))
    (hput : flushRLE s n flag = (true, s')) :
    ∃ code' l, s'.Written (header ++ code') ∧ s'.dataSize = s.dataSize ∧
      Coded none code' (done ++ replicate n last) l := by
  rcases hp with ⟨-, rfl, rfl, rfl⟩ | ⟨-, rfl, hn, hcoded⟩
  · obtain rfl : s = s' := (mk.inj hput).2
    exact ⟨[], none, hs, rfl, .nil _⟩
  · obtain ⟨run, _, hsize, hrun⟩ := flushRLE_coded hn hs hput
    exact ⟨code ++ run, some last, by rwa [← append_assoc], hsize, hcoded.append hrun⟩

/-- **The writer produces codes of the blocks it is given.** -/
theorem compressDefaultLoop_coded {i n : ℕ} {last : Block} {header code : List Bool}
    {done : List Block} (hp : Pending i last flag n code done) (hs : s.Written (header ++ code))
    (hput : compressDefaultLoop bitmap i last flag n s = (true, s')) :
    ∃ code' l, s'.Written (header ++ code') ∧ s'.dataSize = s.dataSize ∧
      Coded none code' (done ++ replicate n last ++ bitmap) l := by
  induction bitmap generalizing i n last flag code done s with
  | nil =>
    obtain ⟨code', l, hs', hsize, hcoded⟩ := hp.flush hs hput
    exact ⟨code', l, hs', hsize, by rwa [append_nil]⟩
  | cons b bitmap ih =>
    rw [compressDefaultLoop] at hput
    split_ifs at hput with hrun
    · -- the block joins the pending run
      obtain ⟨rfl, _, _⟩ := hrun
      have hp' : Pending (i + 1) b flag (n + 1) code done := by
        rcases hp with ⟨rfl, -⟩ | ⟨-, hflag, -, hcoded⟩
        · omega
        · exact Or.inr ⟨by omega, hflag, by omega, hcoded⟩
      obtain ⟨code', l, hs', hsize, hcoded⟩ := ih hp' hs hput
      refine ⟨code', l, hs', hsize, ?_⟩
      rwa [replicate_succ', ← append_assoc, append_assoc _ [b], singleton_append] at hcoded
    · rcases hflush : flushRLE s n flag with ⟨ok, s₁⟩
      rw [hflush] at hput
      cases ok with
      | false => cases hput
      | true =>
        rcases hblock : putBlock s₁ b with ⟨ok, _⟩
        simp only [hblock] at hput
        cases ok with
        | false => cases hput
        | true =>
          obtain ⟨code₁, l₁, hs₁, hsize₁, hcoded₁⟩ := hp.flush hs hflush
          obtain ⟨hs₂, hsize₂⟩ := putBlock_coded hs₁ hblock
          have hone : Coded l₁ (blockBits b ++ []) [b] (some b) := .block b (.nil _)
          rw [append_nil] at hone
          have hp' : Pending (i + 1) b (blockFlag b) 0 (code₁ ++ blockBits b)
              (done ++ replicate n last ++ [b]) :=
            Or.inr ⟨by omega, rfl, by omega, hcoded₁.append hone⟩
          obtain ⟨code', l, hs', hsize, hcoded⟩ := ih hp' (by rwa [← append_assoc]) hput
          refine ⟨code', l, hs', hsize.trans (hsize₂.trans hsize₁), ?_⟩
          rwa [replicate_zero, append_nil, append_assoc _ [b], singleton_append] at hcoded

/-! ### The header -/

/-- The header of a bitmap of `n` blocks. -/
def headerBits (compressionType : BitmapCompressionType) (n : ℕ) : List Bool :=
  ofNat 1 compressionType.toBits.toNat ++ replicate 3 false ++ ofNat 12 n

@[simp] theorem length_headerBits (compressionType : BitmapCompressionType) (n : ℕ) :
    (headerBits compressionType n).length = 16 := by
  simp [headerBits]

theorem writeHeader_written (compressionType : BitmapCompressionType) {n size : ℕ} (hn : n < 4096)
    (hsize : 2 ≤ size) : ∃ s, bitmapCompressWriteHeader compressionType n
        (init (replicate size 0) size) = (true, s) ∧
      s.Written (headerBits compressionType n) ∧ s.dataSize = size := by
  have hs₀ := written_init size
  have hsize₀ : (init (replicate size 0) size).dataSize = size := rfl
  obtain ⟨s₁, hput₁⟩ : ∃ s₁, (init (replicate size 0) size).put
      compressionType.toBits 1 = (true, s₁) :=
    hs₀.putLoop_ok (by rw [length_nil]; omega)
  obtain ⟨hs₁, hsize₁⟩ := hs₀.put (by decide) hput₁
  obtain ⟨s₂, hskip, hs₂, hsize₂⟩ := hs₁.skip (n := 3)
    (by rw [hsize₁, nil_append, length_ofNat]; omega) (by decide)
  obtain ⟨s₃, hput₃⟩ : ∃ s₃, s₂.put (BitVec.ofNat 32 n) 12 = (true, s₃) := hs₂.putLoop_ok (by
      rw [hsize₂, hsize₁, nil_append, length_append, length_ofNat, length_replicate]
      omega)
  obtain ⟨hs₃, hsize₃⟩ := hs₂.put (by decide) hput₃
  have hcount : (BitVec.ofNat 32 n).toNat = n := mod_eq_of_lt (by omega)
  rw [hcount] at hs₃
  refine ⟨s₃, ?_, hs₃, by rw [hsize₃, hsize₂, hsize₁, hsize₀]⟩
  rw [bitmapCompressWriteHeader, hput₁]
  simp [hskip, hput₃]

variable {img : List Byte}

theorem init_header {compressionType : BitmapCompressionType} {n size : ℕ} (hn : n < 4096)
    (himg : ofBytes img = headerBits compressionType n ++ rest) (hsize : 2 ≤ size) :
    BitmapDecompressState.init img size = (true, ⟨cursor img size 16, compressionType, n⟩) := by
  have hcount : (BitVec.ofNat 32 n).toNat = n := mod_eq_of_lt (by omega)
  have htype : (ofBytes img).drop 0 = ofNat 1 compressionType.toBits.toNat ++
      (replicate 3 false ++ (ofNat 12 (BitVec.ofNat 32 n).toNat ++ rest)) := by
    rw [hcount, drop_zero, himg, headerBits, append_assoc, append_assoc]
  have hblocks := drop_of_drop_append (drop_of_drop_append htype)
  rw [length_ofNat, length_replicate] at hblocks
  have hlt : compressionType.toBits.toNat < 2 ^ 1 := by cases compressionType <;> decide
  rw [BitmapDecompressState.init, init_eq, get_cursor hlt (by omega) htype]
  simp only [skip_cursor (show 0 + 1 < 8 * size by omega)]
  rw [get_cursor (by rw [hcount]; exact hn) (by omega) hblocks]
  simp only [hcount]
  cases compressionType <;> rfl

/-! ### Round trip -/

/-- What `img` decompresses to, the whole of it being the compressed data. -/
def DecompressesTo (img : List Byte) (bitmap : List Block) : Prop :=
  ∃ state, BitmapDecompressState.init img img.length = (true, state) ∧
    state.hasError = false ∧ state.blockCount = bitmap.length ∧
    state.decompress bitmap.length = .ok bitmap

section

variable (hn : bitmap.length < 4096)
include hn

theorem decompressesTo_default {code pad : List Bool} {l : Option Block}
    (himg : ofBytes img = headerBits .default bitmap.length ++ (code ++ pad))
    (hcoded : Coded none code bitmap l) : DecompressesTo img bitmap := by
  have hlen := congrArg length himg
  rw [length_ofBytes, length_append, length_append, length_headerBits] at hlen
  refine ⟨_, init_header hn himg (by omega), rfl, rfl, ?_⟩
  have hdrop : (ofBytes img).drop 16 = code ++ pad := by
    rw [himg, drop_left' (length_headerBits _ _)]
  have hloop : BitmapDecompressState.decompressLoop (bitmap.length + 0) 0 0 false []
      (cursor img img.length 16) =
      BitmapDecompressState.decompressLoop 0 (l.getD 0) 0 false ([] ++ bitmap)
        (cursor img img.length (16 + code.length)) :=
    BitmapDecompressState.decompressLoop_coded hcoded [] (by omega) hdrop
  rw [add_zero, BitmapDecompressState.decompressLoop, nil_append] at hloop
  simp only [BitmapDecompressState.decompress, gt_iff_lt, lt_irrefl, if_false, hloop,
    Bool.false_eq_true]

theorem decompressesTo_no (hheader : ofBytes (img.take 2) = headerBits .no bitmap.length)
    (hblocks : img.drop 2 = unpack 8 4 bitmap) : DecompressesTo img bitmap := by
  have himg : ofBytes img = headerBits .no bitmap.length ++ ofBytes (unpack 8 4 bitmap) := by
    rw [← hheader, ← hblocks, ← ofBytes_append, take_append_drop]
  have hlen := congrArg length himg
  rw [length_ofBytes, length_append, length_headerBits, length_ofBytes, length_unpack] at hlen
  refine ⟨_, init_header hn himg (by omega), rfl, rfl, ?_⟩
  have hroom : 2 + 4 * bitmap.length ≤ img.length := by omega
  have hpack := pack_unpack (w := 8) (m := 4) (le_refl 32) bitmap
  simp only [BitmapDecompressState.decompress, gt_iff_lt, lt_irrefl, if_false,
    getAlignedData_cursor]
  rw [if_pos (by simpa [cursor] using hroom)]
  simp [cursor, hblocks, hpack]

theorem bitmapCompressNo_decompressesTo {size : ℕ} (hsize : bitmap.length * 4 + 2 ≤ size) :
    ∃ len out, bitmapCompressNo bitmap size = .ok (len, out) ∧ 2 ≤ len ∧ len ≤ size ∧
      out.length = size ∧ DecompressesTo (out.take len) bitmap := by
  obtain ⟨s, hput, hs, hdata⟩ := writeHeader_written .no hn (show 2 ≤ size by omega)
  have hfull : s.data.length = size := hs.full.trans hdata
  have hheader : ofBytes (s.data.take 2) = headerBits .no bitmap.length := by
    rw [ofBytes_take, hs.bits, take_left' (length_headerBits _ _)]
  rcases Nat.eq_zero_or_pos bitmap.length with hzero | hpos
  · refine ⟨2, s.data, ?_, le_rfl, by omega, hfull, ?_⟩
    · simp only [bitmapCompressNo, hput]
      rw [if_pos hzero]
    · obtain rfl := length_eq_zero_iff.1 hzero
      apply decompressesTo_no hn
      · rwa [take_take, min_self]
      · simp [unpack]
  · have hplace : s.getAlignedData 16 = (2, s) := by
      rw [hs.cursor, length_headerBits, getAlignedData_cursor]
    refine ⟨bitmap.length * 4 + 2, memcpyAt s.data 2 (unpack 8 4 bitmap), ?_, by omega, hsize,
      ?_, ?_⟩
    · simp only [bitmapCompressNo, hput]
      rw [if_neg hpos.ne', hplace]
    · simp [memcpyAt, hfull]
      omega
    have htwo : (s.data.take 2).length = 2 := by
      rw [length_take]
      omega
    have htake : (memcpyAt s.data 2 (unpack 8 4 bitmap)).take (bitmap.length * 4 + 2) =
        s.data.take 2 ++ unpack 8 4 bitmap := by
      apply take_left'
      rw [length_append, length_unpack]
      omega
    rw [htake]
    apply decompressesTo_no hn
    · rwa [take_left' htwo]
    · rw [drop_left' htwo]

end

/-- **Bitmap compression loses nothing**: with either type, and whether or not the default
compression fits, the compressed data is as long as the header at least, stays within the
buffer and decompresses to the blocks. -/
theorem bitmapCompress_decompressesTo (compressionType : BitmapCompressionType)
    (bitmap : List Block) (size : ℕ) (hn : bitmap.length < 4096)
    (hsize : bitmap.length * 4 + 2 ≤ size) :
    ∃ len out, bitmapCompress compressionType bitmap size = .ok (len, out) ∧ 2 ≤ len ∧
      len ≤ size ∧ out.length = size ∧ DecompressesTo (out.take len) bitmap := by
  cases compressionType with
  | no => exact bitmapCompressNo_decompressesTo hn hsize
  | default =>
    obtain ⟨s, hput, _, hdata⟩ := writeHeader_written .default hn (show 2 ≤ size by omega)
    simp only [bitmapCompress, hput]
    rcases hcompress : bitmapCompressDefault bitmap s with ⟨ok, s'⟩
    cases ok with
    | false => exact bitmapCompressNo_decompressesTo hn hsize
    | true =>
      have hp : Pending 0 0 .zero 0 [] [] := Or.inl ⟨rfl, rfl, rfl, rfl⟩
      obtain ⟨code, l, hs', hdata', hcoded⟩ :=
        compressDefaultLoop_coded hp (by rwa [append_nil]) hcompress
      have hle := hs'.length_le
      have hlen : s'.getLength = ((headerBits .default bitmap.length ++ code).length + 7) / 8 := by
        rw [hs'.cursor, getLength_cursor]
      rw [length_append, length_headerBits] at hlen hle
      have hfull : s'.data.length = size := hs'.full.trans (hdata'.trans hdata)
      refine ⟨_, _, rfl, by omega, by omega, hfull, ?_⟩
      have himg : ofBytes (s'.data.take s'.getLength) =
          headerBits .default bitmap.length ++ (code ++
            replicate (8 * s'.getLength - (16 + code.length)) false) := by
        rw [ofBytes_take, hs'.bits, take_append, take_of_length_le (by
          rw [length_append, length_headerBits]
          omega), take_replicate, append_assoc, length_append, length_headerBits]
        congr 3
        omega
      exact decompressesTo_default hn himg hcoded

end Cloudberry.AppendOnly
