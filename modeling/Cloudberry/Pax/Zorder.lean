/-
# Z-order keys

`contrib/pax_storage/src/cpp/clustering/zorder_utils.cc`: an integer is written as eight bytes,
most significant first and with the sign bit flipped, and the bits of all columns are interleaved
into one key: first the highest bit of each column in turn, then the next one, and so on.

So bit `bit` of column `i` stands at `bit * ncolumns + i` of the key (`getElem?_zorderKey`).
-/

import Cloudberry.Lib.BitList
import Mathlib.Data.Nat.Bitwise

namespace Cloudberry.Pax

open List BitList Nat

abbrev Byte : Type := BitVec 8

def nBytes : ℕ := 8

/-- The loop of `int8_to_bytes` from byte `i` down to the first. -/
def int8ToBytesLoop (result : List Byte) (temp : BitVec 64) : ℕ → List Byte
  | 0 => result.set 0 ((temp &&& 0xFF).setWidth 8)
  | i + 1 => int8ToBytesLoop (result.set (i + 1) ((temp &&& 0xFF).setWidth 8)) (temp >>> 8) i

/-- `int8_to_bytes`, into bytes that `datum_to_bytes` has set to zero -/
def int8ToBytes (val : BitVec 64) : List Byte :=
  int8ToBytesLoop (replicate nBytes 0) (val ^^^ 1#64 <<< 63) (nBytes - 1)

/-- `bytes_compare`, over the bytes that are left -/
def bytesCompareLoop : ℕ → List Byte → List Byte → ℤ
  | m + 1, a :: as, b :: bs =>
    if a.toNat < b.toNat then -1 else if a.toNat > b.toNat then 1 else bytesCompareLoop m as bs
  | _, _, _ => 0

def bytesCompare (a b : List Byte) (ncolumns : ℕ) : ℤ := bytesCompareLoop (ncolumns * nBytes) a b

def setBit (dst : Byte) (dstPos : ℕ) (src : Byte) (srcPos : ℕ) : Byte :=
  dst ||| ((src >>> (7 - srcPos)) &&& 1) <<< (7 - dstPos)

def interleaveBits (src result : List Byte) (ncolumns : ℕ) : List Byte :=
  (range (nBytes * 8)).foldl (fun result bit =>
    (range ncolumns).foldl (fun result i =>
      let bitPosOut := bit * ncolumns + i
      result.modify (bitPosOut / 8) fun dst =>
        setBit dst (bitPosOut % 8) (src.getD (i * nBytes + bit / 8) 0) (bit % 8)) result) result

/-- `bytes_to_zorder_datum` without the header: the memory is zeroed by `Palloc0` -/
def bytesToZorderDatum (buffer : List Byte) (ncolumns : ℕ) : List Byte :=
  interleaveBits buffer (replicate (ncolumns * nBytes) 0) ncolumns

/-- The key of a row: `datum_to_bytes` writes its columns one after the other. -/
def zorderKey {n : ℕ} (row : Fin n → BitVec 64) : List Byte :=
  bytesToZorderDatum ((finRange n).flatMap fun i => int8ToBytes (row i)) n

/-! ### Where a bit goes -/

/-- One step of the loop sets at most one bit of the key. -/
theorem ofBytes_setBit (result : List Byte) (p : ℕ) (src : Byte) {j : ℕ} (hj : j < 8) :
    ofBytes (result.modify (p / 8) fun dst => setBit dst (p % 8) src j) =
      if src.getMsbD j then (ofBytes result).set p true else ofBytes result := by
  have hbit : ∀ j < 8, ∀ src : Byte, (src >>> (7 - j)) &&& 1 = if src.getMsbD j then 1 else 0 := by
    decide +kernel
  simp only [setBit, hbit j hj]
  cases src.getMsbD j
  · have hid : result.modify (p / 8) (fun dst => dst) = result := modify_id ..
    simp [hid]
  · simpa [div_add_mod] using ofBytes_modify result (p / 8) (mod_lt p (by decide))

/-- Bits that are set one after the other. -/
theorem getElem?_foldl_set (f : ℕ → Bool) (ps : List ℕ) (bits : List Bool) (q : ℕ) :
    (ps.foldl (fun bits p => if f p then bits.set p true else bits) bits)[q]? =
      bits[q]?.map (· || (decide (q ∈ ps) && f q)) := by
  induction ps generalizing bits with
  | nil => simp
  | cons p ps ih =>
    rw [foldl_cons, ih]
    by_cases hpq : p = q
    · subst hpq
      cases f p
      · simp
      · by_cases hlt : p < bits.length <;> simp [hlt]
    · cases f p <;> simp [hpq, Ne.symm hpq]

theorem foldl_ofBytes {ι : Type*} {step : List Byte → ι → List Byte}
    {bstep : List Bool → ι → List Bool}
    {l : List ι} (h : ∀ result, ∀ i ∈ l, ofBytes (step result i) = bstep (ofBytes result) i)
    (result : List Byte) : ofBytes (l.foldl step result) = l.foldl bstep (ofBytes result) := by
  induction l generalizing result with
  | nil => rfl
  | cons i l ih =>
    rw [foldl_cons, foldl_cons, ih fun r j hj => h r j (mem_cons_of_mem _ hj),
      h result i mem_cons_self]

theorem mul_add_div {n i : ℕ} (hi : i < n) (bit : ℕ) : (bit * n + i) / n = bit := by
  rw [Nat.mul_comm, Nat.mul_add_div (by omega), Nat.div_eq_of_lt hi, Nat.add_zero]

theorem mul_add_mod {n i : ℕ} (hi : i < n) (bit : ℕ) : (bit * n + i) % n = i := by
  rw [Nat.mul_comm, Nat.mul_add_mod, Nat.mod_eq_of_lt hi]

theorem mul_add_le {k bit : ℕ} (h : k < bit) (n : ℕ) : k * n + n ≤ bit * n := by
  rw [← succ_mul]
  exact mul_le_mul_right n h

/-- The bits of the interleaved key. -/
theorem getElem?_interleaveBits (src : List Byte) {n q : ℕ} (hq : q < 64 * n) :
    (ofBytes (bytesToZorderDatum src n))[q]? =
      some ((src.getD (q % n * 8 + q / n / 8) 0).getMsbD (q / n % 8)) := by
  let f (q : ℕ) : Bool := (src.getD (q % n * 8 + q / n / 8) 0).getMsbD (q / n % 8)
  have hloop : ofBytes (bytesToZorderDatum src n) =
      ((range 64).flatMap fun bit => (range n).map fun i => bit * n + i).foldl
        (fun bits p => if f p then bits.set p true else bits)
        (ofBytes (replicate (n * nBytes) 0)) := by
    rw [foldl_flatMap, bytesToZorderDatum, interleaveBits]
    refine foldl_ofBytes (fun result bit _ => ?_) _
    rw [foldl_map]
    refine foldl_ofBytes (fun result i hi => ?_) _
    have hi : i < n := mem_range.1 hi
    rw [ofBytes_setBit _ _ _ (mod_lt bit (by decide))]
    simp only [f, nBytes, mul_add_div hi, mul_add_mod hi]
    rfl
  have hzero : (ofBytes (replicate (n * nBytes) (0 : Byte)))[q]? = some false := by
    rw [getElem?_ofBytes, getElem?_replicate_of_lt (by rw [nBytes]; omega)]
    simp
  have hmem : q ∈ (range 64).flatMap fun bit => (range n).map fun i => bit * n + i := by
    simp only [mem_flatMap, mem_map, mem_range]
    exact ⟨q / n, Nat.div_lt_of_lt_mul (by rwa [Nat.mul_comm]), q % n,
      mod_lt _ (by omega), div_add_mod' q n⟩
  rw [hloop, getElem?_foldl_set, hzero]
  simp [hmem, f]

theorem length_int8ToBytes (val : BitVec 64) : (int8ToBytes val).length = 8 := by
  simp [int8ToBytes, int8ToBytesLoop, nBytes]

theorem getMsbD_int8ToBytes (val : BitVec 64) {k j : ℕ} (hk : k < 8) (hj : j < 8) :
    ((int8ToBytes val).getD k 0).getMsbD j = (val ^^^ 1#64 <<< 63).getMsbD (8 * k + j) := by
  have hbytes : int8ToBytes val = (range nBytes).map fun k =>
      (((val ^^^ 1#64 <<< 63) >>> (8 * (7 - k))) &&& 0xFF).setWidth 8 := by
    simp [int8ToBytes, int8ToBytesLoop, nBytes, range_succ, ← BitVec.shiftRight_add]
  have hmask : ∀ (i : ℕ) (hi : i < 8), (255#8)[i] = true := by decide
  have hplace : 8 * (7 - k) + (7 - j) = 63 - (8 * k + j) := by omega
  have hlow : 7 - j < 8 := by omega
  have hin : 8 * k + j < 64 := by omega
  rw [hbytes]
  generalize val ^^^ 1#64 <<< 63 = temp
  simp [nBytes, hk, hj, hlow, hin, BitVec.getMsbD, hmask _ hlow, hplace]

theorem getD_flatMap {α : Type*} {f : α → List Byte} (hlen : ∀ a, (f a).length = 8)
    {l : List α} {i : ℕ} (hi : i < l.length) {k : ℕ} (hk : k < 8) :
    (l.flatMap f).getD (i * 8 + k) 0 = (f l[i]).getD k 0 := by
  induction l generalizing i with
  | nil => cases hi
  | cons a l ih =>
    rw [flatMap_cons]
    rcases i with _ | i
    · rw [getD_append _ _ _ _ (by rw [hlen]; omega), zero_mul, zero_add]
      rfl
    · rw [getD_append_right _ _ _ _ (by rw [hlen]; omega), hlen]
      have hsub : (i + 1) * 8 + k - 8 = i * 8 + k := by omega
      rw [hsub]
      exact ih (lt_of_succ_lt_succ hi)

/-- **Bit `q / n` of column `q % n`** is bit `q` of the key. -/
theorem getElem?_zorderKey {n : ℕ} (hn : 0 < n) (row : Fin n → BitVec 64) {q : ℕ}
    (hq : q < 64 * n) : (ofBytes (zorderKey row))[q]? =
      some ((row ⟨q % n, mod_lt q hn⟩ ^^^ 1#64 <<< 63).getMsbD (q / n)) := by
  have hbit : q / n < 64 := Nat.div_lt_of_lt_mul (by rwa [Nat.mul_comm])
  rw [zorderKey, getElem?_interleaveBits _ hq,
    getD_flatMap (fun i => length_int8ToBytes (row i)) (by simpa using mod_lt q hn) (by omega),
    getMsbD_int8ToBytes _ (by omega) (mod_lt _ (by decide)), div_add_mod]
  simp

/-! ### The order of the keys -/

/-- Numbers are ordered by the highest bit in which they differ. -/
theorem lt_of_getMsbD {w p : ℕ} {x y : BitVec w} (hp : p < w)
    (hsame : ∀ q < p, x.getMsbD q = y.getMsbD q) (hx : x.getMsbD p = false)
    (hy : y.getMsbD p = true) : x.toNat < y.toNat := by
  have hbit : ∀ (z : BitVec w) {i : ℕ}, i < w → z.toNat.testBit i = z.getMsbD (w - 1 - i) := by
    intro z i hi
    have hi' : w - 1 - (w - 1 - i) = i := by omega
    simp [BitVec.getMsbD, BitVec.getLsbD, hi', show w - 1 - i < w by omega]
  have hp' : w - 1 - (w - 1 - p) = p := by omega
  refine lt_of_testBit (w - 1 - p) ?_ ?_ fun j hj => ?_
  · rw [hbit x (by omega), hp', hx]
  · rw [hbit y (by omega), hp', hy]
  · by_cases hjw : j < w
    · rw [hbit x hjw, hbit y hjw, hsame _ (by omega)]
    · rw [testBit_lt_two_pow, testBit_lt_two_pow]
      · exact y.isLt.trans_le (Nat.pow_le_pow_right (by decide) (by omega))
      · exact x.isLt.trans_le (Nat.pow_le_pow_right (by decide) (by omega))

theorem getMsbD_flip (x : BitVec 64) (q : ℕ) :
    (x ^^^ 1#64 <<< 63).getMsbD q = (x.getMsbD q ^^ decide (q = 0)) := by
  have hsign : ∀ q < 64, (1#64 <<< 63).getMsbD q = decide (q = 0) := by decide
  rw [BitVec.getMsbD_xor]
  by_cases hq : q < 64
  · rw [hsign q hq]
  · have hne : q ≠ 0 := by omega
    simp [BitVec.getMsbD, hq, hne]

/-- With the sign bit flipped, signed numbers are ordered so, too. -/
theorem toInt_lt_of_getMsbD {p : ℕ} {x y : BitVec 64} (hp : p < 64)
    (hsame : ∀ q < p, x.getMsbD q = y.getMsbD q) (hx : (x ^^^ 1#64 <<< 63).getMsbD p = false)
    (hy : (y ^^^ 1#64 <<< 63).getMsbD p = true) : x.toInt < y.toInt := by
  have hsign : ∀ z : BitVec 64, z.getMsbD 0 = decide (2 ^ 63 ≤ z.toNat) := fun z =>
    (BitVec.msb_eq_getMsbD_zero z).symm.trans (BitVec.msb_eq_decide z)
  have hxlt := x.isLt
  have hylt := y.isLt
  rw [getMsbD_flip] at hx hy
  rw [BitVec.toInt_eq_toNat_cond, BitVec.toInt_eq_toNat_cond]
  rcases p with _ | p
  · simp only [hsign, decide_true, Bool.xor_true, Bool.not_eq_false', Bool.not_eq_true',
      decide_eq_true_eq, decide_eq_false_iff_not] at hx hy
    split_ifs <;> omega
  · have hlt := lt_of_getMsbD hp hsame (by simpa using hx) (by simpa using hy)
    have hfirst := hsame 0 (succ_pos p)
    rw [hsign, hsign, decide_eq_decide] at hfirst
    split_ifs <;> omega

/-- Byte strings are ordered by the first bit in which they differ. -/
theorem bytesCompareLoop_of_first {m : ℕ} {a b : List Byte} {p : ℕ} {x y : Bool} (hp : p < 8 * m)
    (hsame : ∀ q < p, (ofBytes a)[q]? = (ofBytes b)[q]?) (hx : (ofBytes a)[p]? = some x)
    (hy : (ofBytes b)[p]? = some y) (hne : x ≠ y) :
    bytesCompareLoop m a b = if y then -1 else 1 := by
  induction m generalizing a b p with
  | zero => omega
  | succ m ih =>
    rcases a with _ | ⟨c, a⟩
    · cases hx
    rcases b with _ | ⟨d, b⟩
    · cases hy
    have hhead : ∀ (c : Byte) (a : List Byte) {q : ℕ}, q < 8 →
        (ofBytes (c :: a))[q]? = some (c.getMsbD q) := by
      intro c a q hq
      simp [getElem?_ofBytes, div_eq_of_lt hq, mod_eq_of_lt hq]
    have hfirst : ∀ q < p, q < 8 → c.getMsbD q = d.getMsbD q := fun q hq hq8 => by
      simpa [hhead _ _ hq8] using hsame q hq
    rw [bytesCompareLoop]
    by_cases hp8 : p < 8
    · rw [hhead _ _ hp8, Option.some.injEq] at hx hy
      cases y with
      | true =>
        have hlt := lt_of_getMsbD hp8 (fun q hq => hfirst q hq (hq.trans hp8)) (by simp_all) hy
        rw [if_pos hlt]
        rfl
      | false =>
        have hlt := lt_of_getMsbD hp8 (fun q hq => (hfirst q hq (hq.trans hp8)).symm) hy
          (by simp_all)
        rw [if_neg hlt.asymm, if_pos hlt]
        rfl
    · obtain rfl : c = d := BitVec.eq_of_getMsbD_eq fun q hq => hfirst q (by omega) hq
      have htail : ∀ (a : List Byte) (q : ℕ), (ofBytes (c :: a))[q + 8]? = (ofBytes a)[q]? := by
        intro a q
        simp [getElem?_ofBytes]
      obtain ⟨p, rfl⟩ := Nat.exists_eq_add_of_le' (not_lt.1 hp8)
      rw [htail] at hx hy
      rw [if_neg (lt_irrefl _), if_neg (lt_irrefl _)]
      refine ih (by omega) (fun q hq => ?_) hx hy
      rw [← htail a, ← htail b]
      exact hsame (q + 8) (by omega)

theorem bytesCompareLoop_self (m : ℕ) (a : List Byte) : bytesCompareLoop m a a = 0 := by
  induction m generalizing a with
  | zero => rfl
  | succ m ih =>
    cases a with
    | nil => rfl
    | cons x a => simp [bytesCompareLoop, ih]

/-- The highest bit in which two rows differ is number `bit`, counted from the sign, and column
`c` is the first one for which it does. -/
structure HighestDifference {n : ℕ} (a b : Fin n → BitVec 64) (bit : ℕ) (c : Fin n) : Prop where
  bit_lt : bit < 64
  above : ∀ i, ∀ k < bit, (a i).getMsbD k = (b i).getMsbD k
  before : ∀ i < c, (a i).getMsbD bit = (b i).getMsbD bit
  differs : (a c).getMsbD bit ≠ (b c).getMsbD bit

section

variable {n : ℕ} {a b : Fin n → BitVec 64}

theorem exists_highestDifference (hne : a ≠ b) : ∃ bit c, HighestDifference a b bit c := by
  classical
  have hdiff : ∃ q bit, ∃ c : Fin n, q = bit * n + c ∧ bit < 64 ∧
      (a c).getMsbD bit ≠ (b c).getMsbD bit := by
    obtain ⟨c, hc⟩ := Function.ne_iff.1 hne
    by_contra hall
    refine hc (BitVec.eq_of_getMsbD_eq fun bit hbit => ?_)
    by_contra hbits
    exact hall ⟨_, bit, c, rfl, hbit, hbits⟩
  obtain ⟨bit, c, hq, hbit, hdiffers⟩ := Nat.find_spec hdiff
  have hmin : ∀ k (i : Fin n), k < 64 → k * n + i < bit * n + c →
      (a i).getMsbD k = (b i).getMsbD k := fun k i hk hlt => by
    by_contra hki
    exact Nat.find_min hdiff (by rwa [hq]) ⟨k, i, rfl, hk, hki⟩
  refine ⟨bit, c, hbit, fun i k hk => hmin k i (by omega) ?_, fun i hi => hmin bit i hbit ?_,
    hdiffers⟩
  · have hle := mul_add_le hk n
    omega
  · exact Nat.add_lt_add_left hi _

/-- **The column with the highest differing bit decides.** -/
theorem HighestDifference.bytesCompare_eq {bit : ℕ} {c : Fin n} (h : HighestDifference a b bit c) :
    (a c).toInt ≠ (b c).toInt ∧ bytesCompare (zorderKey a) (zorderKey b) n =
      if (a c).toInt < (b c).toInt then -1 else 1 := by
  have hn : 0 < n := c.pos
  have hp : bit * n + c < 64 * n := by
    have hle := mul_add_le h.bit_lt n
    omega
  have hfirst : ∀ row, (ofBytes (zorderKey row))[bit * n + c]? =
      some ((row c ^^^ 1#64 <<< 63).getMsbD bit) := fun row => by
    simp [getElem?_zorderKey hn row hp, mul_add_div c.isLt, mul_add_mod c.isLt]
  have hsame : ∀ q < bit * n + c, (ofBytes (zorderKey a))[q]? = (ofBytes (zorderKey b))[q]? := by
    intro q hq
    rw [getElem?_zorderKey hn a (hq.trans hp), getElem?_zorderKey hn b (hq.trans hp),
      getMsbD_flip, getMsbD_flip]
    have hpos : q / n * n + q % n = q := div_add_mod' q n
    rcases lt_trichotomy (q / n) bit with hlt | heq | hgt
    · rw [h.above _ _ hlt]
    · rw [heq] at hpos ⊢
      rw [h.before _ (Fin.lt_def.2 (by dsimp only; omega))]
    · have hle := mul_add_le hgt n
      omega
  have hflip : (a c ^^^ 1#64 <<< 63).getMsbD bit ≠ (b c ^^^ 1#64 <<< 63).getMsbD bit := by
    rw [getMsbD_flip, getMsbD_flip]
    simpa using h.differs
  rw [bytesCompare, bytesCompareLoop_of_first (by rw [nBytes]; omega) hsame (hfirst a) (hfirst b)
    hflip]
  cases hb : (b c ^^^ 1#64 <<< 63).getMsbD bit with
  | true =>
    rw [hb] at hflip
    have hlt := toInt_lt_of_getMsbD h.bit_lt (h.above c) (Bool.eq_false_iff.2 hflip) hb
    exact ⟨hlt.ne, by rw [if_pos hlt]; rfl⟩
  | false =>
    rw [hb] at hflip
    have hlt := toInt_lt_of_getMsbD h.bit_lt (fun q hq => (h.above c q hq).symm) hb
      (Bool.ne_false_iff.1 hflip)
    exact ⟨hlt.ne', by rw [if_neg hlt.asymm]; rfl⟩

end

/-- **Z-order keys respect every column.**  A row whose columns are all at most those of another
has a key that is at most the other's, keys are equal exactly if the rows are, and different rows
are compared by the first column that holds the highest bit in which they differ. -/
theorem zorder_respects_columns (n : ℕ) (a b : Fin n → BitVec 64) :
    ((∀ i, (a i).toInt ≤ (b i).toInt) → bytesCompare (zorderKey a) (zorderKey b) n ≤ 0) ∧
      (zorderKey a = zorderKey b ↔ a = b) ∧
      (a ≠ b → ∃ bit c, HighestDifference a b bit c) ∧
      ∀ bit c, HighestDifference a b bit c → (a c).toInt ≠ (b c).toInt ∧
        bytesCompare (zorderKey a) (zorderKey b) n =
          if (a c).toInt < (b c).toInt then -1 else 1 := by
  refine ⟨fun hle => ?_, ⟨fun hkey => ?_, congrArg zorderKey⟩, exists_highestDifference,
    fun bit c h => h.bytesCompare_eq⟩
  · by_cases hab : a = b
    · rw [hab, bytesCompare, bytesCompareLoop_self]
    · obtain ⟨bit, c, h⟩ := exists_highestDifference hab
      obtain ⟨hne, hcompare⟩ := h.bytesCompare_eq
      rw [hcompare, if_pos (lt_of_le_of_ne (hle c) hne)]
      decide
  · by_contra hab
    obtain ⟨bit, c, h⟩ := exists_highestDifference hab
    have hcompare := h.bytesCompare_eq.2
    rw [hkey, bytesCompare, bytesCompareLoop_self] at hcompare
    split_ifs at hcompare
    cases hcompare

end Cloudberry.Pax
