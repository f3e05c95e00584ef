/-
# The delete buffer as a spill map

The delete buffer keeps the newest version of every changed entry in one of three places: in
memory, at a place of the temporary file, or, if it was not changed, in the relation. Here
it is related to the map with one current entry and a spill log (`Refines`): the file is the
log in bytes, and the hash table knows for each key the place of its last record and the
heap tuple.
-/

import Cloudberry.AppendOnly.VisimapDelete
import Cloudberry.Lib.SpillMap

namespace Cloudberry.AppendOnly

open LittleEndian Storage VersionedHeap SpillMap List Option BitVec AppendOnlyVisimapEntry DeleteKey BufFile

variable {bw : BitmapWordSize}

/-! ### Keys -/

def TupleKey (k : DeleteKey) : Prop := ∃ tupleId, k = DeleteKey.ofTuple tupleId

namespace DeleteKey

@[simp] theorem length_bytes (k : DeleteKey) : k.bytes.length = 16 := by
  simp [bytes]

theorem ofBytes_bytes (k : DeleteKey) : ofBytes k.bytes = k := by
  have hseg : k.bytes.take 8 = split 8 8 k.segno.toNat := take_left' (length_split ..)
  have hrow : (k.bytes.drop 8).take 8 = split 8 8 k.firstRowNum.toNat := by
    rw [bytes, drop_left' (length_split ..), take_of_length_le (by simp)]
  rw [ofBytes, hseg, hrow, join_split_of_lt k.segno.isLt, join_split_of_lt k.firstRowNum.isLt]
  simp

theorem segno_ofTuple (tupleId : AOTupleId) :
    (ofTuple tupleId).segno.toNat = tupleId.segmentFileNum := by
  have := tupleId.segmentFileNum_lt
  rw [ofTuple, toNat_ofNat, Nat.mod_eq_of_lt (by omega)]

theorem firstRowNum_ofTuple (tupleId : AOTupleId) :
    (ofTuple tupleId).firstRowNum.toNat = tupleId.rowNum / 32768 * 32768 := by
  have := tupleId.rowNum_lt
  rw [ofTuple, toNat_ofNat]
  simp only [getFirstRowNum, visimapMaxRange]
  omega

end DeleteKey

variable {k : DeleteKey}

theorem TupleKey.bounds (hk : TupleKey k) : k.segno.toNat < 128 ∧ k.firstRowNum.toNat < 2 ^ 40 := by
  obtain ⟨tupleId, rfl⟩ := hk
  have := tupleId.rowNum_lt
  rw [segno_ofTuple, firstRowNum_ofTuple]
  exact ⟨tupleId.segmentFileNum_lt, by omega⟩

theorem TupleKey.toInt (hk : TupleKey k) :
    (k.segno.setWidth 32).toInt = k.segno.toNat ∧ k.firstRowNum.toInt = k.firstRowNum.toNat := by
  obtain ⟨_, _⟩ := hk.bounds
  constructor
  · rw [toInt_eq_toNat_of_lt, toNat_setWidth, Nat.mod_eq_of_lt (by omega)]
    rw [toNat_setWidth]
    omega
  · rw [toInt_eq_toNat_of_lt]
    omega

/-! ### The stored visimap -/

/-- The heap tuple of the entry with this key, if it is stored. -/
def storedTid (rel : Heap VisimapTuple) (k : DeleteKey) : Option ItemPointer :=
  (findRow rel k.segno.toNat k.firstRowNum.toNat).map Prod.fst

section

variable (bw : BitmapWordSize)

def VisimapTuple.bitmap (t : VisimapTuple) : Bitmapset bw :=
  match t.visimap with
  | none => none
  | some data => (readData bw data).toOption.getD none

/-- The bitmap stored for a key; none if there is no entry. -/
def storedBitmap (rel : Heap VisimapTuple) (k : DeleteKey) : Bitmapset bw :=
  ((findRow rel k.segno.toNat k.firstRowNum.toNat).map fun row => row.2.bitmap bw).getD none

def VisimapTuple.Readable (t : VisimapTuple) : Prop :=
  ∀ data, t.visimap = some data →
    varsize data ≤ visimapDataBufferSize ∧ ∃ a, readData bw data = .ok a

/-- A visimap relation as the visimap code leaves it: at most one live tuple for a segment
file and first row number, each with a visimap that can be read. -/
structure StoredVisimap where
  rel : Heap VisimapTuple
  unique : UniqueKeys (fun t : VisimapTuple => (t.segno, t.firstRowNum)) rel
  readable : ∀ ⦃tid t⦄, Live rel tid t → t.Readable bw

end

variable {rel : Heap VisimapTuple} {t : VisimapTuple}

theorem findRow_eq_some {s f : ℤ} {tid : ItemPointer} (h : findRow rel s f = some (tid, t)) :
    Live rel tid t ∧ t.segno = s ∧ t.firstRowNum = f := by
  have hmem := mem_of_find?_eq_some h
  have hkey := find?_some h
  rw [mem_reverse, mem_rows] at hmem
  exact ⟨hmem, by simpa using hkey⟩

theorem findRow_eq_none {s f : ℤ} (h : findRow rel s f = none) {tid : ItemPointer}
    (hl : Live rel tid t) : ¬ (t.segno = s ∧ t.firstRowNum = f) := by
  have hall := find?_eq_none.1 h (tid, t) (mem_reverse.2 (mem_rows.2 hl))
  simpa using hall

theorem VisimapTuple.Readable.fits (ht : t.Readable bw) : (t.bitmap bw).Fits := by
  unfold VisimapTuple.bitmap
  rcases hdata : t.visimap with _ | data
  · intro words hwords
    cases hwords
  · obtain ⟨-, a, ha⟩ := ht data hdata
    simp only [ha, Except.toOption, getD_some]
    exact fits_of_readData ha

theorem StoredVisimap.fits (v : StoredVisimap bw) (k : DeleteKey) :
    (storedBitmap bw v.rel k).Fits := by
  unfold storedBitmap
  rcases hrow : findRow v.rel k.segno.toNat k.firstRowNum.toNat with _ | ⟨_, t⟩
  · intro words hwords
    cases hwords
  · exact (v.readable (findRow_eq_some hrow).1).fits

/-! ### Entries -/

def entryOf (rel : Heap VisimapTuple) (k : DeleteKey) (a : Bitmapset bw) (dirty : Bool) :
    AppendOnlyVisimapEntry bw :=
  ⟨a, k.segno.toNat, k.firstRowNum.toNat, dirty, storedTid rel k⟩

theorem ofEntry_entryOf (rel : Heap VisimapTuple) (k : DeleteKey) (a : Bitmapset bw)
    (dirty : Bool) : ofEntry (entryOf rel k a dirty) = k := by
  simp [ofEntry, entryOf]

theorem coversTuple_entryOf (rel : Heap VisimapTuple) (hk : TupleKey k) (a : Bitmapset bw)
    (dirty : Bool) (tupleId : AOTupleId) :
    (entryOf rel k a dirty).coversTuple tupleId = true ↔ k = ofTuple tupleId := by
  obtain ⟨tupleId', rfl⟩ := hk
  have hseg := segno_ofTuple tupleId
  have hrow := firstRowNum_ofTuple tupleId
  have hseg' := segno_ofTuple tupleId'
  have hrow' := firstRowNum_ofTuple tupleId'
  have hiff : ofTuple tupleId' = ofTuple tupleId ↔
      tupleId'.segmentFileNum = tupleId.segmentFileNum ∧
        tupleId'.rowNum / 32768 * 32768 = tupleId.rowNum / 32768 * 32768 := by
    rw [← hseg, ← hseg', ← hrow, ← hrow']
    constructor
    · intro heq
      rw [heq]
      exact ⟨rfl, rfl⟩
    rintro ⟨h₁, h₂⟩
    have e₁ := eq_of_toNat_eq h₁
    have e₂ := eq_of_toNat_eq h₂
    cases h' : ofTuple tupleId'
    simp_all
  rw [hiff]
  simp only [coversTuple, isValid, entryOf, hseg', hrow', visimapMaxRange]
  simp
  omega

theorem getRownumOffset_entryOf (rel : Heap VisimapTuple) (a : Bitmapset bw) (dirty : Bool)
    (tupleId : AOTupleId) : (entryOf rel (ofTuple tupleId) a dirty).getRownumOffset tupleId.rowNum =
      tupleId.rowNum % 32768 := by
  simp only [getRownumOffset, entryOf, firstRowNum_ofTuple]
  omega

/-! ### The log in bytes -/

def dataOf (a : Bitmapset bw) : List Byte := (writeData a).toOption.getD []

variable {a : Bitmapset bw}

theorem exists_dataOf (ha : a.Fits) :
    ∃ bytes, dataOf a = varlena bytes ∧ writeData a = .ok (varlena bytes) ∧
      2 ≤ bytes.length ∧ bytes.length ≤ 4098 ∧ readData bw (varlena bytes) = .ok a := by
  obtain ⟨bytes, hwrite, hmin, hmax, hread⟩ := readData_writeData ha
  exact ⟨bytes, by simp [dataOf, hwrite, Except.toOption], hwrite, hmin, hmax, hread⟩

theorem writeData_dataOf (ha : a.Fits) : writeData a = .ok (dataOf a) := by
  obtain ⟨_, hdata, hwrite, -⟩ := exists_dataOf ha
  rw [hdata, hwrite]

theorem readData_dataOf (ha : a.Fits) : readData bw (dataOf a) = .ok a := by
  obtain ⟨_, hdata, -, -, -, hread⟩ := exists_dataOf ha
  rw [hdata, hread]

def recordBytes (r : DeleteKey × Bitmapset bw) : List Byte := r.1.bytes ++ dataOf r.2

def logBytes (log : List (DeleteKey × Bitmapset bw)) : List Byte := log.flatMap recordBytes

theorem logBytes_append (log log' : List (DeleteKey × Bitmapset bw)) :
    logBytes (log ++ log') = logBytes log ++ logBytes log' := flatMap_append

@[simp] theorem logBytes_cons (r : DeleteKey × Bitmapset bw)
    (log : List (DeleteKey × Bitmapset bw)) : logBytes (r :: log) = recordBytes r ++ logBytes log :=
  rfl

theorem length_recordBytes_pos (r : DeleteKey × Bitmapset bw) : 0 < (recordBytes r).length := by
  rw [recordBytes, length_append, length_bytes]
  omega

theorem readRecord_recordBytes {pre rest : List Byte} (k : DeleteKey) (ha : a.Fits) :
    readRecord ⟨pre ++ (recordBytes (k, a) ++ rest), pre.length⟩ = .ok (some (k, dataOf a),
        ⟨pre ++ (recordBytes (k, a) ++ rest), pre.length + (recordBytes (k, a)).length⟩) := by
  obtain ⟨bytes, hdata, -, _, _, -⟩ := exists_dataOf ha
  have hlen : (varlena bytes).length = 8 + bytes.length := length_varlena bytes
  obtain ⟨hd, tl, hsplit, hhd⟩ : ∃ hd tl, varlena bytes = hd ++ tl ∧ hd.length = 4 :=
    ⟨(varlena bytes).take 4, (varlena bytes).drop 4, (take_append_drop 4 _).symm, by
      rw [length_take]
      omega⟩
  have hvar : varsize hd = 8 + bytes.length := by
    have hfull := varsize_varlena (by omega : bytes.length < 2 ^ 20) []
    have htake : hd.take 4 = (varlena bytes).take 4 := by
      rw [hsplit, take_left' hhd, take_of_length_le hhd.le]
    rw [varsize, htake, ← varsize, ← hlen, ← hfull, append_nil]
  have htl : tl.length = 8 + bytes.length - 4 := by
    have := congrArg length hsplit
    rw [length_append] at this
    omega
  have hkey : (mk (pre ++ (recordBytes (k, a) ++ rest)) pre.length).read 16 =
      (k.bytes, ⟨pre ++ (recordBytes (k, a) ++ rest), pre.length + 16⟩) := by
    have hread := @BufFile.read_append pre k.bytes (dataOf a ++ rest)
    rw [length_bytes] at hread
    rw [recordBytes, List.append_assoc, hread]
  have hword : (mk (pre ++ (recordBytes (k, a) ++ rest)) (pre.length + 16)).read 4 =
      (hd, ⟨pre ++ (recordBytes (k, a) ++ rest), pre.length + 16 + 4⟩) := by
    have hread := @BufFile.read_append (pre ++ k.bytes) hd (tl ++ rest)
    rw [length_append, length_bytes, hhd] at hread
    rw [recordBytes, hdata, hsplit]
    simpa only [List.append_assoc] using hread
  have hrest : (mk (pre ++ (recordBytes (k, a) ++ rest)) (pre.length + 16 + 4)).read
      (8 + bytes.length - 4) =
      (tl, ⟨pre ++ (recordBytes (k, a) ++ rest), pre.length + 16 + 4 + tl.length⟩) := by
    have hread := @BufFile.read_append (pre ++ k.bytes ++ hd) tl rest
    rw [length_append, length_append, length_bytes, hhd, htl] at hread
    rw [recordBytes, hdata, hsplit, htl]
    simpa only [List.append_assoc] using hread
  have hend : pre.length + 16 + 4 + tl.length = pre.length + (recordBytes (k, a)).length := by
    rw [recordBytes, hdata, length_append, length_bytes]
    omega
  rw [readRecord, hkey]
  simp only [length_bytes, if_true, hword, hhd, hvar, hrest, htl, ofBytes_bytes, hdata, hsplit]
  rw [← htl, hend]

theorem readRecord_end (bytes : List Byte) :
    readRecord ⟨bytes, bytes.length⟩ = .ok (none, ⟨bytes, bytes.length⟩) := by
  simp [readRecord, BufFile.read]

/-! ### Where the last record of a key is -/

/-- The place of the last record of a key in a log that starts at byte `o`. -/
def lastPlace (o : ℕ) : List (DeleteKey × Bitmapset bw) → DeleteKey → Option ℕ
  | [], _ => none
  | r :: log, k =>
    (lastPlace (o + (recordBytes r).length) log k).or (if r.1 = k then some o else none)

theorem lastPlace_append (o : ℕ) (log log' : List (DeleteKey × Bitmapset bw)) (k : DeleteKey) :
    lastPlace o (log ++ log') k =
      (lastPlace (o + (logBytes log).length) log' k).or (lastPlace o log k) := by
  induction log generalizing o with
  | nil => simp [lastPlace, logBytes]
  | cons r log ih =>
    rw [List.cons_append, lastPlace, ih, lastPlace, Option.or_assoc, logBytes_cons,
      length_append, add_assoc]

theorem lastPlace_isSome (o : ℕ) (log : List (DeleteKey × Bitmapset bw)) (k : DeleteKey) :
    (lastPlace o log k).isSome = (latest log k).isSome := by
  induction log generalizing o with
  | nil => rfl
  | cons r log ih =>
    rw [lastPlace, latest, isSome_or, isSome_or, ih]
    congr 1
    split_ifs <;> rfl

variable {log : List (DeleteKey × Bitmapset bw)}

theorem le_lastPlace {o p : ℕ} (h : lastPlace o log k = some p) : o ≤ p := by
  induction log generalizing o with
  | nil => cases h
  | cons r log ih =>
    rw [lastPlace, or_eq_some_iff] at h
    rcases h with h | ⟨-, h⟩
    · exact le_trans (Nat.le_add_right ..) (ih h)
    · split_ifs at h
      cases h
      exact le_rfl

theorem exists_of_lastPlace {o p : ℕ} (h : lastPlace o log k = some p) :
    ∃ pre a post, log = pre ++ (k, a) :: post ∧ p = o + (logBytes pre).length ∧
      latest log k = some a := by
  induction log generalizing o with
  | nil => cases h
  | cons r log ih =>
    rw [lastPlace, or_eq_some_iff] at h
    rcases h with h | ⟨hnone, h⟩
    · obtain ⟨pre, a, post, rfl, rfl, hlatest⟩ := ih h
      refine ⟨r :: pre, a, post, rfl, ?_, ?_⟩
      · rw [logBytes_cons, length_append, add_assoc]
      · rw [latest, hlatest, some_or]
    obtain ⟨k', a⟩ := r
    split_ifs at h with hk
    subst hk
    obtain rfl : o = p := some.inj h
    have hlatest : latest log k' = none := by
      have hsome := lastPlace_isSome (o + (recordBytes (k', a)).length) log k'
      rw [hnone] at hsome
      exact not_isSome_iff_eq_none.1 (by rw [← hsome]; simp)
    exact ⟨[], a, log, rfl, rfl, by simp [latest, hlatest]⟩

theorem lastPlace_eq_iff {pre post : List (DeleteKey × Bitmapset bw)} :
    lastPlace 0 (pre ++ (k, a) :: post) k = some (logBytes pre).length ↔ latest post k = none := by
  rw [lastPlace_append, lastPlace]
  rcases hplace : lastPlace (0 + (logBytes pre).length + (recordBytes (k, a)).length) post k
    with _ | p
  · have hsome := lastPlace_isSome (0 + (logBytes pre).length + (recordBytes (k, a)).length) post k
    rw [hplace] at hsome
    have hnone := not_isSome_iff_eq_none.1 (by rw [← hsome]; simp : ¬ (latest post k).isSome)
    simp [hnone]
  · have hsome := lastPlace_isSome (0 + (logBytes pre).length + (recordBytes (k, a)).length) post k
    rw [hplace] at hsome
    obtain ⟨b, hb⟩ := isSome_iff_exists.1 hsome.symm
    have hle := le_lastPlace hplace
    have hpos := length_recordBytes_pos (k, a)
    simp only [some_or, some.injEq, hb, reduceCtorEq, iff_false]
    omega

/-! ### The relation -/

section

variable (rel : Heap VisimapTuple)

/-- The delete buffer holds what the abstract map with spilled entries says. -/
structure Spilled (st : AppendOnlyVisimapDelete bw)
    (log : List (DeleteKey × Bitmapset bw)) : Prop where
  file : st.workfile.bytes = logBytes log
  cache : ∀ k, st.dirtyEntryCache.lookup k =
    (lastPlace 0 log k).map fun p => ⟨locate p, storedTid rel k⟩
  records : ∀ r ∈ log, TupleKey r.1 ∧ r.2.Fits

def currentEntry (sp : State DeleteKey (Bitmapset bw)) : AppendOnlyVisimapEntry bw :=
  match sp.current with
  | none => .init
  | some (k, a, dirty) => entryOf rel k a dirty

/-- The delete buffer stands for this spill map over the stored visimap. -/
structure Refines (st : AppendOnlyVisimapDelete bw)
    (sp : State DeleteKey (Bitmapset bw)) : Prop where
  visiMap : st.visiMap = ⟨⟨rel, rel⟩, currentEntry rel sp⟩
  spilled : Spilled rel st sp.log
  current : ∀ k a dirty, sp.current = some (k, a, dirty) → TupleKey k ∧ a.Fits

end

theorem refines_init (rel : Heap VisimapTuple) :
    Refines rel (AppendOnlyVisimapDelete.init (.init rel) : AppendOnlyVisimapDelete bw) ⟨none, []⟩ where
  visiMap := rfl
  spilled := ⟨rfl, fun _ => AList.lookup_empty _, by simp⟩
  current := by simp

theorem Spilled.latest_fits {st : AppendOnlyVisimapDelete bw} (hs : Spilled rel st log)
    (h : latest log k = some a) : a.Fits := by
  have hsome := lastPlace_isSome 0 log k
  rw [h] at hsome
  obtain ⟨p, hp⟩ := isSome_iff_exists.1 hsome
  obtain ⟨pre, a', post, rfl, -, hlatest⟩ := exists_of_lastPlace hp
  cases h.symm.trans hlatest
  exact (hs.records (k, a) (by simp)).2

/-! ### Loading an entry -/

namespace AppendOnlyVisimapDelete

variable {v : StoredVisimap bw} {st : AppendOnlyVisimapDelete bw}

theorem stash_spilled {dirty : Bool} (hs : Spilled v.rel st log) (hk : TupleKey k) (ha : a.Fits)
    (hmap : st.visiMap = ⟨⟨v.rel, v.rel⟩, entryOf v.rel k a dirty⟩) :
    ∃ st', st.stash = .ok st' ∧ Spilled v.rel st' (log ++ [(k, a)]) ∧
      st'.visiMap = ⟨⟨v.rel, v.rel⟩, entryOf v.rel k a false⟩ := by
  have hwrite : writeData (entryOf v.rel k a dirty).bitmap = .ok (dataOf a) := writeData_dataOf ha
  have hkey := ofEntry_entryOf v.rel k a dirty
  refine ⟨_, by
    rw [stash, hmap]
    simp only [hwrite, hkey]
    rfl, ⟨?_, ?_, ?_⟩, ?_⟩
  · have hone : logBytes [(k, a)] = k.bytes ++ dataOf a := List.append_nil _
    rw [logBytes_append, hone]
    simp only [seekEnd, write_end, hs.file, List.append_assoc]
  · intro k'
    have hplace : lastPlace 0 (log ++ [(k, a)]) k' =
        if k = k' then some (logBytes log).length else lastPlace 0 log k' := by
      rw [lastPlace_append]
      split_ifs with hk' <;> simp [lastPlace, hk']
    rw [hplace]
    by_cases hk' : k = k'
    · subst hk'
      simp [BufFile.tell, seekEnd, hs.file, entryOf]
    · rw [AList.lookup_insert_ne (Ne.symm hk'), hs.cache, if_neg hk']
  · intro r hr
    rcases mem_append.1 hr with hr | hr
    · exact hs.records r hr
    · obtain rfl := mem_singleton.1 hr
      exact ⟨hk, ha⟩
  · rfl

theorem find_stored (e : AppendOnlyVisimapEntry bw) (tupleId : AOTupleId) :
    (AppendOnlyVisimap.mk ⟨v.rel, v.rel⟩ e).find tupleId =
      .ok ⟨⟨v.rel, v.rel⟩, entryOf v.rel (ofTuple tupleId)
        (storedBitmap bw v.rel (ofTuple tupleId)) e.dirty⟩ := by
  have hseg : (tupleId.segmentFileNum : ℤ) = (ofTuple tupleId).segno.toNat := by
    rw [segno_ofTuple]
  have hrow : (getFirstRowNum tupleId : ℤ) = (ofTuple tupleId).firstRowNum.toNat := by
    rw [firstRowNum_ofTuple]
    rfl
  simp only [AppendOnlyVisimap.find, AppendOnlyVisimapStore.find, hseg, hrow]
  rcases hfind : findRow v.rel (ofTuple tupleId).segno.toNat
    (ofTuple tupleId).firstRowNum.toNat with _ | ⟨tid, t⟩
  · simp [new, entryOf, storedBitmap, storedTid, hfind, hseg, hrow]
  obtain ⟨hlive, hs, hf⟩ := findRow_eq_some hfind
  have hcopy : e.copyout t = .ok { e with
      segmentFileNum := t.segno, firstRowNum := t.firstRowNum, bitmap := t.bitmap bw } := by
    unfold copyout VisimapTuple.bitmap
    rcases hdata : t.visimap with _ | data
    · rfl
    · obtain ⟨hsize, a, ha⟩ := v.readable hlive data hdata
      simp [if_pos hsize, ha, Except.toOption]
  simp only [hcopy]
  simp [entryOf, storedBitmap, storedTid, hfind, hs, hf]

section

variable (hs : Spilled v.rel st log) (hmap : st.visiMap.visimapStore = ⟨v.rel, v.rel⟩)
include hs hmap

theorem unstash_spilled {p : ℕ} (hplace : lastPlace 0 log k = some p)
    (hlatest : latest log k = some a) :
    ∃ st', st.unstash k ⟨locate p, storedTid v.rel k⟩ = .ok st' ∧
      Spilled v.rel st' log ∧ st'.visiMap = ⟨⟨v.rel, v.rel⟩, entryOf v.rel k a true⟩ := by
  obtain ⟨pre, _, post, rfl, rfl, hlatest'⟩ := exists_of_lastPlace hplace
  cases hlatest.symm.trans hlatest'
  obtain ⟨hk, ha⟩ := hs.records (k, a) (by simp)
  obtain ⟨hseg, hrow⟩ := hk.toInt
  have hbytes : st.workfile.bytes = logBytes pre ++ (recordBytes (k, a) ++ logBytes post) := by
    rw [hs.file, logBytes_append, logBytes_cons]
  have hseek : st.workfile.seekSet (locate (0 + (logBytes pre).length)) =
      some ⟨logBytes pre ++ (recordBytes (k, a) ++ logBytes post), (logBytes pre).length⟩ := by
    rw [zero_add, seekSet_locate (by rw [hbytes, length_append]; omega), hbytes]
  have hrebuild : st.visiMap.visimapEntry.rebuild k (storedTid v.rel k) (dataOf a) =
      .ok (entryOf v.rel k a true) := by
    simp only [rebuild, readData_dataOf ha, hseg, hrow, entryOf]
  refine ⟨{ st with
      visiMap := ⟨⟨v.rel, v.rel⟩, entryOf v.rel k a true⟩
      workfile := ⟨logBytes pre ++ (recordBytes (k, a) ++ logBytes post),
        (logBytes pre).length + (recordBytes (k, a)).length⟩ },
    ?_, ⟨?_, hs.cache, hs.records⟩, rfl⟩
  · simp only [unstash, hseek, readRecord_recordBytes k ha, if_true, hrebuild, hmap]
  · rw [logBytes_append, logBytes_cons]

theorem find_refines (hclean : st.visiMap.visimapEntry.dirty = false) (tupleId : AOTupleId) :
    ∃ st', st.find tupleId = .ok st' ∧
      Refines v.rel st' (fetch (storedBitmap bw v.rel) log (ofTuple tupleId)) := by
  have hkey : TupleKey (ofTuple tupleId) := ⟨tupleId, rfl⟩
  rcases hplace : lastPlace 0 log (ofTuple tupleId) with _ | p
  · have hlatest : latest log (ofTuple tupleId) = none := by
      have hsome := lastPlace_isSome 0 log (ofTuple tupleId)
      rw [hplace] at hsome
      exact not_isSome_iff_eq_none.1 (by rw [← hsome]; simp)
    have hvis : st.visiMap = ⟨⟨v.rel, v.rel⟩, st.visiMap.visimapEntry⟩ := by rw [← hmap]
    have hcache := hs.cache (ofTuple tupleId)
    rw [hplace] at hcache
    refine ⟨{ st with
        visiMap := ⟨⟨v.rel, v.rel⟩, entryOf v.rel (ofTuple tupleId)
          (storedBitmap bw v.rel (ofTuple tupleId)) false⟩ },
      ?_, ⟨?_, ⟨hs.file, hs.cache, hs.records⟩, ?_⟩⟩
    · have hfind := find_stored (v := v) st.visiMap.visimapEntry tupleId
      rw [← hvis, hclean] at hfind
      simp [find, hcache, hfind]
    · simp [currentEntry, fetch, away, hlatest]
    · intro k a dirty hcur
      simp only [fetch, away, hlatest, getD_none, some.injEq, Prod.mk.injEq] at hcur
      obtain ⟨rfl, rfl, -⟩ := hcur
      exact ⟨hkey, v.fits _⟩
  · obtain ⟨_, a, _, -, -, hlatest⟩ := exists_of_lastPlace hplace
    have hcache := hs.cache (ofTuple tupleId)
    rw [hplace, map_some] at hcache
    obtain ⟨st', hun, hs', hmap'⟩ := unstash_spilled hs hmap hplace hlatest
    refine ⟨st', by simp only [find, hcache, hun], ⟨?_, hs', ?_⟩⟩
    · rw [hmap']
      simp [currentEntry, fetch, away, hlatest]
    · intro k b dirty hcur
      simp only [fetch, away, hlatest, getD_some, some.injEq, Prod.mk.injEq] at hcur
      obtain ⟨rfl, rfl, -⟩ := hcur
      exact ⟨hkey, hs.latest_fits hlatest⟩

end

variable {sp : State DeleteKey (Bitmapset bw)}

variable (hr : Refines v.rel st sp)
include hr

/-- **Loading a tuple's entry** is moving to its key. -/
theorem loadTuple_refines (tupleId : AOTupleId) : ∃ st', st.loadTuple tupleId = .ok st' ∧
      Refines v.rel st' (load (storedBitmap bw v.rel) sp (ofTuple tupleId)) := by
  have hmap := hr.visiMap
  have hstore : st.visiMap.visimapStore = ⟨v.rel, v.rel⟩ := by rw [hmap]
  unfold currentEntry at hmap
  unfold loadTuple load
  rcases hcur : sp.current with _ | ⟨k, a, dirty⟩
  · simp only [hcur] at hmap
    have hinit : (AppendOnlyVisimapEntry.init : AppendOnlyVisimapEntry bw).coversTuple tupleId =
        false := rfl
    obtain ⟨st', hfind, hr'⟩ := find_refines hr.spilled hstore (by rw [hmap]; rfl) tupleId
    refine ⟨st', ?_, by simpa [spill, hcur] using hr'⟩
    rw [hmap, hinit]
    simpa [hasChanged, AppendOnlyVisimapEntry.init] using hfind
  · simp only [hcur] at hmap
    obtain ⟨hk, ha⟩ := hr.current k a dirty hcur
    have hcovers := coversTuple_entryOf v.rel hk a dirty tupleId
    rw [hmap]
    dsimp only
    by_cases hkey : k = ofTuple tupleId
    · rw [if_pos (hcovers.2 hkey), if_pos hkey]
      exact ⟨st, rfl, hr⟩
    rw [if_neg (mt hcovers.1 hkey), if_neg hkey]
    cases dirty with
    | true =>
      obtain ⟨_, hstash, hs₁, hmap₁⟩ := stash_spilled hr.spilled hk ha hmap
      obtain ⟨st', hfind, hr'⟩ := find_refines hs₁ (by rw [hmap₁]) (by rw [hmap₁]; rfl) tupleId
      refine ⟨st', ?_, by simpa [spill, hcur] using hr'⟩
      simp [hasChanged, entryOf, hstash, hfind]
    | false =>
      obtain ⟨st', hfind, hr'⟩ := find_refines hr.spilled hstore (by rw [hmap]; rfl) tupleId
      refine ⟨st', ?_, by simpa [spill, hcur] using hr'⟩
      simp [hasChanged, entryOf, hfind]

variable (hok : Ok (storedBitmap bw v.rel) sp)
include hok

theorem exists_loaded (tupleId : AOTupleId) :
    ∃ st' sp', st.loadTuple tupleId = .ok st' ∧ Refines v.rel st' sp' ∧
      Ok (storedBitmap bw v.rel) sp' ∧
      view (storedBitmap bw v.rel) sp' = view (storedBitmap bw v.rel) sp ∧
      changed sp' = changed sp ∧
      sp'.current = some (ofTuple tupleId, view (storedBitmap bw v.rel) sp (ofTuple tupleId),
        changed sp (ofTuple tupleId)) := by
  obtain ⟨st', hload, hr'⟩ := loadTuple_refines hr tupleId
  exact ⟨st', _, hload, hr', ok_load hok _, view_load hok _, changed_load _ sp _,
    current_load hok _⟩

/-- **Checking a tuple** reads its bit in the map and does not change the map. -/
theorem isVisible_refines (tupleId : AOTupleId) : ∃ st' sp', st.isVisible tupleId =
        .ok (!(view (storedBitmap bw v.rel) sp (ofTuple tupleId)).isMember
          (tupleId.rowNum % 32768), st') ∧
      Refines v.rel st' sp' ∧ Ok (storedBitmap bw v.rel) sp' ∧
      view (storedBitmap bw v.rel) sp' = view (storedBitmap bw v.rel) sp ∧
      changed sp' = changed sp := by
  obtain ⟨st', sp', hload, hr', hok', hview, hchanged, hcur⟩ := exists_loaded hr hok tupleId
  refine ⟨st', sp', ?_, hr', hok', hview, hchanged⟩
  simp only [isVisible, hload, hr'.visiMap, currentEntry, hcur,
    isVisible_eq, getRownumOffset_entryOf]
  rfl

/-- **Hiding a tuple** sets its bit in the map and marks its entry as changed. The answer
depends on the bit and the mark before. -/
theorem hide_refines (tupleId : AOTupleId) : ∃ st' sp', st.hide tupleId = .ok (hideResult
          ((view (storedBitmap bw v.rel) sp (ofTuple tupleId)).isMember
            (tupleId.rowNum % 32768)) (changed sp (ofTuple tupleId)), st') ∧
      Refines v.rel st' sp' ∧ Ok (storedBitmap bw v.rel) sp' ∧
      (∀ k x, (view (storedBitmap bw v.rel) sp' k).isMember x =
        ((view (storedBitmap bw v.rel) sp k).isMember x ||
          decide (k = ofTuple tupleId ∧ x = tupleId.rowNum % 32768))) ∧
      ∀ k, changed sp' k = (decide (ofTuple tupleId = k) || changed sp k) := by
  obtain ⟨st₁, sp₁, hload, hr₁, hok₁, hview, hchanged, hcur⟩ := exists_loaded hr hok tupleId
  obtain ⟨hk, ha⟩ := hr₁.current _ _ _ hcur
  set e := entryOf v.rel (ofTuple tupleId)
    (view (storedBitmap bw v.rel) sp (ofTuple tupleId))
    (changed sp (ofTuple tupleId)) with he
  have hentry : st₁.visiMap = ⟨⟨v.rel, v.rel⟩, e⟩ := by
    rw [hr₁.visiMap, currentEntry, hcur]
  have hoff : e.getRownumOffset tupleId.rowNum = tupleId.rowNum % 32768 :=
    getRownumOffset_entryOf ..
  obtain ⟨b, hhide, hb, hmem⟩ := e.exists_hideTuple tupleId ha (by
    rw [visimapMaxRange]
    omega)
  rw [hoff] at hhide hmem
  refine ⟨{ st₁ with visiMap := ⟨⟨v.rel, v.rel⟩, (e.hideTuple tupleId).2⟩ },
    alter (fun _ => b) sp₁, ?_, ⟨?_, ?_, ?_⟩, ok_alter hok₁ _, ?_, fun k => ?_⟩
  · simp only [hide, hload, hentry, hhide]
    rfl
  · rw [hhide]
    simp [currentEntry, alter, hcur, he, entryOf]
  · have hlog : (alter (fun _ => b) sp₁).log = sp₁.log := by simp [alter, hcur]
    rw [hlog]
    exact ⟨hr₁.spilled.file, hr₁.spilled.cache, hr₁.spilled.records⟩
  · intro k a d hcur'
    simp only [alter, hcur, some.injEq, Prod.mk.injEq] at hcur'
    obtain ⟨rfl, rfl, -⟩ := hcur'
    exact ⟨hk, hb⟩
  · intro k x
    rw [view_alter hcur, hview]
    by_cases hkey : k = ofTuple tupleId
    · rw [hkey, Function.update_self, hmem]
      simp [he, entryOf]
    · simp [hkey]
  · rw [changed_alter hcur, hchanged]

end AppendOnlyVisimapDelete

end Cloudberry.AppendOnly
