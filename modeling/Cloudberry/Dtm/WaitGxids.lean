/-
# The transactions a transaction has waited for

If a transaction waits for another on a segment, its commit on the coordinator has to come
after the other's. So each QE notes the gxids it waited for (`XactLockTableWait`), reports
them with its commit (`sendWaitGxidsToQD`), and the coordinator gathers them, removes
duplicates (`doDispatchDtxProtocolCommand`) and waits for the lock of each
(`notifyCommittedDtxTransaction`). A running distributed transaction holds that lock under
a tag made of its gxid.

A gxid has 64 bits, but on the way it is a C `int` three times: in a list cell, in the
message and in the gathered array; and the pass that removes duplicates starts from -1. A gxid
of 2^31 already is one that the coordinator does not wait for (`waits_lost`).
-/

import Cloudberry.Lib.RemoveRepeats
import Mathlib.Data.UInt

namespace Cloudberry.Dtm

open List UInt64 Int

/-! ### C integers -/

/-- Conversion of an unsigned value to a 32-bit `int`. -/
def toCInt (n : ℕ) : ℤ := bmod n (2 ^ 32)

/-- What an `int` can hold. -/
def IsCInt (i : ℤ) : Prop := -2 ^ 31 ≤ i ∧ i < 2 ^ 31

theorem isCInt_toCInt (n : ℕ) : IsCInt (toCInt n) := by
  unfold toCInt IsCInt bmod
  dsimp only
  split_ifs <;> omega

/-- Four bytes in network order, as `pq_sendint` puts them. -/
def pqSendInt (i : ℤ) : List ℕ :=
  let u := (i % 2 ^ 32).toNat
  [u / 2 ^ 24 % 256, u / 2 ^ 16 % 256, u / 2 ^ 8 % 256, u % 256]

/-- `pqGetInt` of four bytes; fails if there are fewer. -/
def pqGetInt : List ℕ → Option (ℤ × List ℕ)
  | a :: b :: c :: d :: rest => some (toCInt (a * 2 ^ 24 + b * 2 ^ 16 + c * 2 ^ 8 + d), rest)
  | _ => none

theorem pqGetInt_pqSendInt {i : ℤ} (hi : IsCInt i) (rest : List ℕ) :
    pqGetInt (pqSendInt i ++ rest) = some (i, rest) := by
  obtain ⟨_, _⟩ := hi
  have hback : toCInt ((i % 2 ^ 32).toNat / 2 ^ 24 % 256 * 2 ^ 24 +
      (i % 2 ^ 32).toNat / 2 ^ 16 % 256 * 2 ^ 16 + (i % 2 ^ 32).toNat / 2 ^ 8 % 256 * 2 ^ 8 +
      (i % 2 ^ 32).toNat % 256) = i := by
    unfold toCInt bmod
    dsimp only
    split_ifs <;> omega
  simp only [pqSendInt, cons_append, nil_append, pqGetInt, hback]

/-! ### The way of a gxid -/

/-- The gxids a QE waited for, in order; a `List` has at most `INT_MAX` cells. -/
structure QeWaits where
  gxids : List UInt64
  short : gxids.length < 2 ^ 31

/-- The part of `XactLockTableWait` that notes the gxid of the transaction waited for; an
invalid one, of a transaction that is only local, is not noted. -/
def xactLockTableWait (waitGxids : List ℤ) (gxid : UInt64) : List ℤ :=
  if gxid ≠ 0 then waitGxids ++ [toCInt gxid.toNat] else waitGxids

/-- `MyTmGxactLocal->waitGxids` on the QE after all its waits. -/
def QeWaits.noted (w : QeWaits) : List ℤ := w.gxids.foldl xactLockTableWait []

/-- `sendWaitGxidsToQD`: the body of the `w` message, if one is sent. -/
def sendWaitGxidsToQD (waitGxids : List ℤ) : Option (List ℕ) :=
  if waitGxids.length = 0 then none
  else some (pqSendInt waitGxids.length ++ waitGxids.flatMap pqSendInt)

/-- The loop of `pqParseInput3` that fills `waitGxids`. -/
def pqGetInts : ℕ → List ℕ → Option (List ℤ)
  | 0, _ => some []
  | n + 1, bytes =>
    match pqGetInt bytes with
    | none => none
    | some (i, rest) => (pqGetInts n rest).map fun is => i :: is

/-- `pqParseInput3` for a `w` message: `nWaits`, then as many integers. Without a message
`nWaits` is 0. -/
def pqParseWaits : Option (List ℕ) → Option (List ℤ)
  | none => some []
  | some bytes =>
    match pqGetInt bytes with
    | none => none
    | some (nWaits, rest) => pqGetInts nWaits.toNat rest

/-- The gathering in `doDispatchDtxProtocolCommand`: all arrays in a row, sorted by
`compare_int`, repeats removed with `lastRepeat` starting at -1. The list so far is replaced
if any gxid came. -/
def gatherWaitGxids (waitGxids : List ℤ) (results : List (List ℤ)) : List ℤ :=
  let gathered := results.flatten
  if 0 < gathered.length then (gathered.insertionSort (· ≤ ·)).removeRepeats (-1)
  else waitGxids

/-- The fields of a `LOCKTAG` that differ between distributed transactions. -/
structure LockTag where
  field1 : UInt32
  field2 : UInt32
  deriving DecidableEq, Repr

def setLocktagDistribTransaction (gxid : UInt64) : LockTag :=
  { field1 := (gxid >>> 32).toUInt32
    field2 := gxid.toUInt32 }

/-- The tags `notifyCommittedDtxTransaction` waits on, in order: `GxactLockTableWait` takes a
gxid, so an `int` is converted to 64 bits. -/
def notifyCommittedWaits (waitGxids : List ℤ) : List LockTag :=
  waitGxids.map fun i => setLocktagDistribTransaction (ofInt i)

/-- The tags the coordinator waits on for the waits of its QEs, from the first dispatch on. -/
def waitedTags (qes : List QeWaits) : List LockTag :=
  notifyCommittedWaits (gatherWaitGxids []
    (qes.map fun w => (pqParseWaits (sendWaitGxidsToQD w.noted)).getD []))

/-- The distributed transactions that were waited for. -/
def waitedFor (qes : List QeWaits) : List UInt64 := (qes.flatMap QeWaits.gxids).filter (· ≠ 0)

/-- What the report is for: the coordinator waits on the tags under which the transactions
waited for have registered (`GxactLockTableInsert`), on no others, and once on each. -/
def WaitsIntact (qes : List QeWaits) : Prop :=
  (∀ tag, tag ∈ waitedTags qes ↔
    ∃ gxid ∈ waitedFor qes, setLocktagDistribTransaction gxid = tag) ∧
  (waitedTags qes).Nodup

/-! ### What arrives -/

theorem foldl_xactLockTableWait (gxids : List UInt64) (acc : List ℤ) :
    gxids.foldl xactLockTableWait acc =
      acc ++ (gxids.filter (· ≠ 0)).map fun gxid => toCInt gxid.toNat := by
  induction gxids generalizing acc with
  | nil => simp
  | cons gxid gxids ih =>
    rw [foldl_cons, ih, xactLockTableWait]
    by_cases hgxid : gxid = 0
    · simp [hgxid]
    · simp [hgxid]

theorem QeWaits.noted_eq (w : QeWaits) :
    w.noted = (w.gxids.filter (· ≠ 0)).map fun gxid => toCInt gxid.toNat := by
  rw [noted, foldl_xactLockTableWait, nil_append]

theorem pqGetInts_flatMap {is : List ℤ} (his : ∀ i ∈ is, IsCInt i) :
    pqGetInts is.length (is.flatMap pqSendInt) = some is := by
  induction is with
  | nil => rfl
  | cons i is ih =>
    obtain ⟨hi, his⟩ := forall_mem_cons.1 his
    rw [length_cons, pqGetInts, flatMap_cons, pqGetInt_pqSendInt hi]
    simp [ih his]

/-- **The message brings the integers over unchanged.** -/
theorem pqParseWaits_sendWaitGxidsToQD {is : List ℤ} (his : ∀ i ∈ is, IsCInt i)
    (hlen : is.length < 2 ^ 31) : pqParseWaits (sendWaitGxidsToQD is) = some is := by
  unfold sendWaitGxidsToQD
  split_ifs with hempty
  · rw [length_eq_zero_iff.1 hempty]
    rfl
  · have hcount : IsCInt (is.length : ℤ) := ⟨by omega, by exact_mod_cast hlen⟩
    rw [pqParseWaits, pqGetInt_pqSendInt hcount]
    exact pqGetInts_flatMap his

theorem QeWaits.parse_noted (w : QeWaits) :
    pqParseWaits (sendWaitGxidsToQD w.noted) = some w.noted := by
  refine pqParseWaits_sendWaitGxidsToQD ?_ ?_
  · rw [w.noted_eq]
    intro i hi
    obtain ⟨_, -, rfl⟩ := mem_map.1 hi
    exact isCInt_toCInt _
  · rw [w.noted_eq, length_map]
    exact lt_of_le_of_lt (length_filter_le _ _) w.short

/-- What is gathered: an `int` for each transaction waited for. -/
theorem flatten_parsed (qes : List QeWaits) :
    (qes.map fun w => (pqParseWaits (sendWaitGxidsToQD w.noted)).getD []).flatten =
      (waitedFor qes).map fun gxid => toCInt gxid.toNat := by
  induction qes with
  | nil => rfl
  | cons w qes ih =>
    rw [map_cons, flatten_cons, ih, w.parse_noted, Option.getD_some, w.noted_eq]
    simp [waitedFor]

theorem gatherWaitGxids_nil (results : List (List ℤ)) :
    gatherWaitGxids [] results = (results.flatten.insertionSort (· ≤ ·)).removeRepeats (-1) := by
  unfold gatherWaitGxids
  dsimp only
  split_ifs with hpos
  · rfl
  have hnil : results.flatten = [] := by
    rw [← length_eq_zero_iff]
    omega
  rw [hnil]
  rfl

/-- The integers the coordinator waits for: those noted, except that -1 gets lost if none is
smaller. -/
theorem mem_gathered {qes : List QeWaits} {i : ℤ} : i ∈ gatherWaitGxids []
        (qes.map fun w => (pqParseWaits (sendWaitGxidsToQD w.noted)).getD []) ↔
      (∃ gxid ∈ waitedFor qes, toCInt gxid.toNat = i) ∧
        (i = -1 → ∃ gxid ∈ waitedFor qes, toCInt gxid.toNat < -1) := by
  rw [gatherWaitGxids_nil, flatten_parsed, mem_removeRepeats (pairwise_insertionSort _ _)]
  simp only [mem_insertionSort, mem_map]
  constructor
  · rintro ⟨hi, hlast⟩
    refine ⟨hi, fun heq => ?_⟩
    obtain ⟨-, ⟨gxid, hgxid, rfl⟩, hlt⟩ := hlast heq
    exact ⟨gxid, hgxid, heq ▸ hlt⟩
  · rintro ⟨hi, hlast⟩
    refine ⟨hi, fun heq => ?_⟩
    obtain ⟨gxid, hgxid, hlt⟩ := hlast heq
    exact ⟨_, ⟨gxid, hgxid, rfl⟩, heq ▸ hlt⟩

/-! ### Tags -/

theorem setLocktagDistribTransaction_injective :
    Function.Injective setLocktagDistribTransaction := by
  intro g g' h
  have h1 : (g >>> 32).toUInt32.toNat = (g' >>> 32).toUInt32.toNat :=
    congrArg (fun tag => tag.field1.toNat) h
  have h2 : g.toUInt32.toNat = g'.toUInt32.toNat := congrArg (fun tag => tag.field2.toNat) h
  simp only [UInt64.toNat_toUInt32, UInt64.toNat_shiftRight] at h1 h2
  have hg : g.toNat < 2 ^ 64 := g.toNat_lt
  have hg' : g'.toNat < 2 ^ 64 := g'.toNat_lt
  have hshift : (32 : UInt64).toNat % 64 = 32 := rfl
  rw [hshift, Nat.shiftRight_eq_div_pow, Nat.shiftRight_eq_div_pow] at h1
  apply UInt64.toNat_inj.1
  omega

theorem toNat_ofInt (i : ℤ) : (ofInt i).toNat = (i % 2 ^ 64).toNat := by
  simp only [ofInt, toNat_ofNat']
  omega

/-- The conversions of a gxid to `int` and back change it unless it is small or close to the
largest. -/
theorem ofInt_toCInt_eq_iff (g : UInt64) :
    UInt64.ofInt (toCInt g.toNat) = g ↔ g.toNat < 2 ^ 31 ∨ 2 ^ 64 - 2 ^ 31 ≤ g.toNat := by
  have hg : g.toNat < 2 ^ 64 := g.toNat_lt
  rw [← UInt64.toNat_inj, toNat_ofInt]
  unfold toCInt bmod
  dsimp only
  split_ifs <;> omega

theorem toCInt_ofInt {i : ℤ} (hi : IsCInt i) : toCInt (ofInt i).toNat = i := by
  obtain ⟨_, _⟩ := hi
  rw [toNat_ofInt]
  unfold toCInt bmod
  dsimp only
  split_ifs <;> omega

/-! ### The condition -/

section Intact

variable {qes : List QeWaits}

theorem mem_waitedTags {tag : LockTag} : tag ∈ waitedTags qes ↔
      ∃ i, ((∃ gxid ∈ waitedFor qes, toCInt gxid.toNat = i) ∧
          (i = -1 → ∃ gxid ∈ waitedFor qes, toCInt gxid.toNat < -1)) ∧
        setLocktagDistribTransaction (ofInt i) = tag := by
  rw [waitedTags, notifyCommittedWaits, mem_map]
  simp [mem_gathered]

theorem nodup_waitedTags (qes : List QeWaits) : (waitedTags qes).Nodup := by
  refine Nodup.map_on ?_ ?_
  · intro i hi j hj htag
    obtain ⟨⟨g, -, rfl⟩, -⟩ := mem_gathered.1 hi
    obtain ⟨⟨g', -, rfl⟩, -⟩ := mem_gathered.1 hj
    have hsame := setLocktagDistribTransaction_injective htag
    rw [← toCInt_ofInt (isCInt_toCInt g.toNat), hsame, toCInt_ofInt (isCInt_toCInt g'.toNat)]
  · rw [gatherWaitGxids_nil]
    exact (pairwise_removeRepeats (pairwise_insertionSort _ _) _).imp ne_of_lt

/-- The `int` of a gxid that survives the conversions is below -1 in the range below the
largest gxid. -/
theorem toCInt_lt_neg_one_iff {g : UInt64} (hg : g.toNat < 2 ^ 31 ∨ 2 ^ 64 - 2 ^ 31 ≤ g.toNat) :
    toCInt g.toNat < -1 ↔ 2 ^ 64 - 2 ^ 31 ≤ g.toNat ∧ g.toNat < 2 ^ 64 - 1 := by
  have hlt : g.toNat < 2 ^ 64 := g.toNat_lt
  unfold toCInt bmod
  dsimp only
  split_ifs <;> omega

/-- **The waits arrive intact exactly if** every gxid waited for is below 2^31 or within 2^31
of the largest 64-bit value, and, should the largest one itself occur, another one of that
upper range does too. -/
theorem waits_intact_iff (qes : List QeWaits) : WaitsIntact qes ↔
      (∀ gxid ∈ waitedFor qes, gxid.toNat < 2 ^ 31 ∨ 2 ^ 64 - 2 ^ 31 ≤ gxid.toNat) ∧
      ((∃ gxid ∈ waitedFor qes, gxid.toNat = 2 ^ 64 - 1) →
        ∃ gxid ∈ waitedFor qes, 2 ^ 64 - 2 ^ 31 ≤ gxid.toNat ∧ gxid.toNat < 2 ^ 64 - 1) := by
  have hall : ∀ g : UInt64, g.toNat = 2 ^ 64 - 1 → toCInt g.toNat = -1 := by
    intro g hg
    rw [hg]
    decide
  constructor
  · rintro ⟨htags, -⟩
    -- a gxid waited for is the conversion of an `int`, so it survives the conversions
    have hkept : ∀ g ∈ waitedFor qes, ofInt (toCInt g.toNat) = g ∧
        (toCInt g.toNat = -1 → ∃ g' ∈ waitedFor qes, toCInt g'.toNat < -1) := by
      intro g hg
      obtain ⟨i, ⟨⟨g', -, rfl⟩, _⟩, htag⟩ := mem_waitedTags.1 ((htags _).2 ⟨g, hg, rfl⟩)
      have hsame := setLocktagDistribTransaction_injective htag
      have hint : toCInt g.toNat = toCInt g'.toNat := by
        rw [← hsame, toCInt_ofInt (isCInt_toCInt g'.toNat)]
      exact ⟨by rw [hint, hsame], by rwa [hint]⟩
    have hfixed : ∀ g ∈ waitedFor qes, g.toNat < 2 ^ 31 ∨ 2 ^ 64 - 2 ^ 31 ≤ g.toNat :=
      fun g hg => (ofInt_toCInt_eq_iff g).1 (hkept g hg).1
    refine ⟨hfixed, ?_⟩
    rintro ⟨g, hg, hlargest⟩
    obtain ⟨g', hg', hlt⟩ := (hkept g hg).2 (hall g hlargest)
    exact ⟨g', hg', (toCInt_lt_neg_one_iff (hfixed g' hg')).1 hlt⟩
  · rintro ⟨hfixed, hlargest⟩
    have hconv : ∀ g ∈ waitedFor qes, ofInt (toCInt g.toNat) = g :=
      fun g hg => (ofInt_toCInt_eq_iff g).2 (hfixed g hg)
    refine ⟨fun tag => mem_waitedTags.trans ?_, nodup_waitedTags qes⟩
    constructor
    · rintro ⟨-, ⟨⟨g, hg, rfl⟩, -⟩, htag⟩
      rw [hconv g hg] at htag
      exact ⟨g, hg, htag⟩
    rintro ⟨g, hg, rfl⟩
    refine ⟨toCInt g.toNat, ⟨⟨g, hg, rfl⟩, fun hneg => ?_⟩, by rw [hconv g hg]⟩
    -- the starting value of the pass only hides the largest gxid
    have hmax : g.toNat = 2 ^ 64 - 1 := by
      rw [← hconv g hg, hneg]
      decide
    obtain ⟨g', hg', hrange⟩ := hlargest ⟨g, hg, hmax⟩
    exact ⟨g', hg', (toCInt_lt_neg_one_iff (hfixed g' hg')).2 hrange⟩

end Intact

/-- One QE that waited for the transaction with gxid 2^31. -/
def lostWait : List QeWaits := [{ gxids := [2147483648], short := by decide }]

/-- **A wait for gxid 2^31 is lost:** the coordinator waits on the tag of another gxid, whose
upper half is all ones. -/
theorem waits_lost : ¬ WaitsIntact lostWait ∧
    waitedTags lostWait = [{ field1 := 0xFFFFFFFF, field2 := 0x80000000 }] ∧
    setLocktagDistribTransaction 2147483648 = { field1 := 0, field2 := 0x80000000 } := by
  have htags : waitedTags lostWait = [{ field1 := 0xFFFFFFFF, field2 := 0x80000000 }] := by
    decide +kernel
  refine ⟨fun hintact => ?_, htags, by decide⟩
  have hmem := (hintact.1 { field1 := 0, field2 := 0x80000000 }).2
    ⟨2147483648, by decide, by decide⟩
  exact absurd hmem (by decide)

end Cloudberry.Dtm
