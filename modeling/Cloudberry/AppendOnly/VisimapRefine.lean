/-
# The delete buffer refines a set of hidden tuples

Every check of a command answers as if hidden tuples were kept in a plain set, and so does the
visimap that `AppendOnlyVisimapDelete_Finish` leaves (`deleteBuffer_refines_set`).
-/

import Cloudberry.AppendOnly.VisimapSpill

namespace Cloudberry.AppendOnly

open Storage VersionedHeap SpillMap List Option BufFile AppendOnlyVisimapEntry AppendOnlyVisimapDelete DeleteKey

variable {bw : BitmapWordSize}

/-! ### What is written back -/

def visimapKey (t : VisimapTuple) : ℤ × ℤ := (t.segno, t.firstRowNum)

def tupleOf (k : DeleteKey) (a : Bitmapset bw) : VisimapTuple :=
  ⟨k.segno.toNat, k.firstRowNum.toNat, if a.isEmpty then none else some (dataOf a)⟩

/-- The write of an entry: an update of the tuple it came from, if there is one. -/
def writeOf (rel : Heap VisimapTuple) (r : DeleteKey × Bitmapset bw) :
    Option ItemPointer × VisimapTuple :=
  (storedTid rel r.1, tupleOf r.1 r.2)

/-- The entry in memory after it has been stored. -/
def storedEntry (k : DeleteKey) (a : Bitmapset bw) : AppendOnlyVisimapEntry bw :=
  ⟨a, k.segno.toNat, k.firstRowNum.toNat, false, none⟩

theorem store_entryOf {rel snapshot h h' : Heap VisimapTuple} {k : DeleteKey} {a : Bitmapset bw}
    {dirty : Bool} (ha : a.Fits) (hup : upsert h (storedTid rel k) (tupleOf k a) = some h') :
    (AppendOnlyVisimap.mk ⟨snapshot, h⟩ (entryOf rel k a dirty)).store =
      .ok ⟨⟨snapshot, h'⟩, storedEntry k a⟩ := by
  have hwrite : (entryOf rel k a dirty).write = .ok (tupleOf k a, entryOf rel k a false) := by
    unfold AppendOnlyVisimapEntry.write tupleOf entryOf
    by_cases hempty : a.isEmpty = true
    · simp [hempty]
    · simp [hempty, writeData_dataOf ha]
  have hup' : upsert h (entryOf rel k a false).tupleTid (tupleOf k a) = some h' := hup
  simp only [AppendOnlyVisimap.store, AppendOnlyVisimapStore.store, hwrite, hup']
  rfl

variable {sp : State DeleteKey (Bitmapset bw)}

namespace AppendOnlyVisimapDelete

variable {st : AppendOnlyVisimapDelete bw}

theorem locate_ne_noLocation (p : ℕ) : locate p ≠ noLocation := by
  intro heq
  have hfile : (locate p).fileno = -1 := congrArg FileLocation.fileno heq
  have hnat : 0 ≤ (locate p).fileno := by
    unfold locate
    split_ifs
    · exact le_rfl
    · exact Int.natCast_nonneg _
  omega

/-- The hash table when the loop starts: the keys in `skip` have been invalidated. -/
def HoldsExcept (rel : Heap VisimapTuple) (skip : DeleteKey → Prop) [DecidablePred skip]
    (log : List (DeleteKey × Bitmapset bw)) (st : AppendOnlyVisimapDelete bw) : Prop :=
  ∀ k, st.dirtyEntryCache.lookup k = (lastPlace 0 log k).map fun p =>
    if skip k then ⟨noLocation, none⟩ else ⟨BufFile.locate p, storedTid rel k⟩

/-- **The loop writes back the last records**: started behind the records `pre`, it stores
those of the rest that are the last of their key and not skipped. -/
theorem writeBackLoop_ok {rel h h' : Heap VisimapTuple} {skip : DeleteKey → Prop}
    [DecidablePred skip] {pre post : List (DeleteKey × Bitmapset bw)} {fuel : ℕ}
    (hfile : st.workfile = ⟨logBytes (pre ++ post), (logBytes pre).length⟩)
    (hstore : st.visiMap.visimapStore = ⟨rel, h⟩) (hcache : HoldsExcept rel skip (pre ++ post) st)
    (hrecords : ∀ r ∈ post, TupleKey r.1 ∧ r.2.Fits) (hfuel : post.length < fuel)
    (hwrites : upsertAll h ((finals skip post).map (writeOf rel)) = some h') :
    ∃ st', writeBackLoop fuel st = .ok st' ∧ st'.visiMap.visimapStore = ⟨rel, h'⟩ := by
  induction post generalizing pre fuel st h with
  | nil =>
    obtain ⟨fuel, rfl⟩ : ∃ n, fuel = n + 1 := ⟨fuel - 1, by simp at hfuel; omega⟩
    rw [append_nil] at hfile
    rw [finals, map_nil, upsertAll, some.injEq] at hwrites
    subst hwrites
    exact ⟨{ st with workfile := ⟨logBytes pre, (logBytes pre).length⟩ },
      by simp only [writeBackLoop, hfile, readRecord_end], hstore⟩
  | cons r post ih =>
    obtain ⟨k, a⟩ := r
    obtain ⟨fuel, rfl⟩ : ∃ n, fuel = n + 1 := ⟨fuel - 1, by simp at hfuel; omega⟩
    obtain ⟨hk, ha⟩ := hrecords (k, a) (mem_cons_self ..)
    have hbytes : logBytes (pre ++ (k, a) :: post) =
        logBytes pre ++ (recordBytes (k, a) ++ logBytes post) := by
      rw [logBytes_append, logBytes_cons]
    have hmove : pre ++ (k, a) :: post = (pre ++ [(k, a)]) ++ post := by simp
    have hpos : (logBytes pre).length + (recordBytes (k, a)).length =
        (logBytes (pre ++ [(k, a)])).length := by
      simp [logBytes]
    have hnext : (⟨logBytes pre ++ (recordBytes (k, a) ++ logBytes post),
        (logBytes pre).length + (recordBytes (k, a)).length⟩ : BufFile) =
        ⟨logBytes ((pre ++ [(k, a)]) ++ post), (logBytes (pre ++ [(k, a)])).length⟩ := by
      rw [← hmove, hbytes, hpos]
    have hread : readRecord st.workfile = .ok (some (k, dataOf a),
        ⟨logBytes ((pre ++ [(k, a)]) ++ post), (logBytes (pre ++ [(k, a)])).length⟩) := by
      rw [hfile, hbytes, readRecord_recordBytes k ha, hnext]
    have hcache' : HoldsExcept rel skip ((pre ++ [(k, a)]) ++ post) st := by rwa [← hmove]
    have hrest : ∀ r ∈ post, TupleKey r.1 ∧ r.2.Fits := fun r hr =>
      hrecords r (mem_cons_of_mem _ hr)
    obtain ⟨p, hp⟩ : ∃ p, lastPlace 0 (pre ++ (k, a) :: post) k = some p := by
      have hsome := lastPlace_isSome 0 (pre ++ (k, a) :: post) k
      rw [← isSome_iff_exists, hsome, latest_append, latest]
      simp
    have hlookup := hcache k
    rw [hp, map_some] at hlookup
    have hplace := @lastPlace_eq_iff bw k a pre post
    rw [hp, some.injEq] at hplace
    have htell : st.workfile.tell = locate (logBytes pre).length := by
      rw [hfile]
      rfl
    rw [finals] at hwrites
    by_cases hdrop : (latest post k).isSome ∨ skip k
    · -- the record is outdated, or the current entry has taken its place
      rw [if_pos hdrop] at hwrites
      have hne : locate (logBytes pre).length ≠ (if skip k then (⟨noLocation, none⟩ : DeleteData)
            else ⟨BufFile.locate p, storedTid rel k⟩).location := by
        split_ifs with hskip
        · exact locate_ne_noLocation _
        intro heq
        obtain hsome | hskip' := hdrop
        · rw [hplace.1 (locate_injective heq).symm] at hsome
          cases hsome
        · exact hskip hskip'
      obtain ⟨st', hloop, hst'⟩ := @ih { st with workfile := _ } h (pre ++ [(k, a)]) fuel rfl
        hstore hcache' hrest (by simpa using hfuel) hwrites
      refine ⟨st', ?_, hst'⟩
      simp only [writeBackLoop, hread, hlookup, htell, ne_eq]
      rw [if_pos hne, hloop]
    · rw [if_neg hdrop] at hwrites
      rw [not_or, not_isSome_iff_eq_none] at hdrop
      obtain rfl := hplace.2 hdrop.1
      rw [if_neg hdrop.2] at hlookup
      rw [map_cons, upsertAll, bind_eq_some_iff] at hwrites
      obtain ⟨h₁, hup, hwrites⟩ := hwrites
      obtain ⟨hseg, hrow⟩ := hk.toInt
      have hrebuild : st.visiMap.visimapEntry.rebuild k (storedTid rel k) (dataOf a) =
          .ok (entryOf rel k a true) := by
        simp only [rebuild, readData_dataOf ha, hseg, hrow, entryOf]
      have hput := @store_entryOf bw rel rel h h₁ k a true ha hup
      obtain ⟨st', hloop, hst'⟩ := @ih
        { st with visiMap := ⟨⟨rel, h₁⟩, storedEntry k a⟩, workfile := _ } h₁ (pre ++ [(k, a)])
        fuel rfl rfl hcache' hrest (by simpa using hfuel) hwrites
      refine ⟨st', ?_, hst'⟩
      simp only [writeBackLoop, hread, hlookup, htell, ne_eq, not_true, if_false, hrebuild, hstore,
        hput, hloop]

theorem length_le_logBytes (log : List (DeleteKey × Bitmapset bw)) :
    log.length ≤ (logBytes log).length := by
  induction log with
  | nil => simp
  | cons r log ih =>
    have := length_recordBytes_pos r
    rw [logBytes_cons, length_append, length_cons]
    omega

theorem writeBackStashedEntries_ok {rel h h' : Heap VisimapTuple} {skip : DeleteKey → Prop}
    [DecidablePred skip] {log : List (DeleteKey × Bitmapset bw)}
    (hfile : st.workfile.bytes = logBytes log) (hstore : st.visiMap.visimapStore = ⟨rel, h⟩)
    (hcache : HoldsExcept rel skip log st) (hrecords : ∀ r ∈ log, TupleKey r.1 ∧ r.2.Fits)
    (hwrites : upsertAll h ((finals skip log).map (writeOf rel)) = some h') :
    ∃ st', st.writeBackStashedEntries = .ok st' ∧ st'.visiMap.visimapStore = ⟨rel, h'⟩ := by
  unfold writeBackStashedEntries
  by_cases hempty : st.dirtyEntryCache.entries.length = 0
  · -- an empty hash table means that nothing was stashed
    have hnone : ∀ k, st.dirtyEntryCache.lookup k = none := by
      intro k
      rw [AList.lookup, length_eq_zero_iff.1 hempty, dlookup_nil]
    have hlog : log = [] := by
      rcases log with _ | ⟨⟨k, a⟩, log⟩
      · rfl
      have hk := hcache k
      rw [hnone, eq_comm, map_eq_none_iff] at hk
      have hsome := lastPlace_isSome 0 ((k, a) :: log) k
      rw [hk, latest] at hsome
      simp at hsome
    subst hlog
    rw [finals, map_nil, upsertAll, some.injEq] at hwrites
    subst hwrites
    exact ⟨st, if_pos hempty, hstore⟩
  · rw [if_neg hempty]
    have hseek : st.workfile.seekSet ⟨0, 0⟩ = some ⟨logBytes log, 0⟩ := by
      have hzero := seekSet_locate (f := st.workfile) (Nat.zero_le _)
      rw [hfile] at hzero
      exact hzero
    have hlen := length_le_logBytes log
    obtain ⟨st', hloop, hst'⟩ := @writeBackLoop_ok bw { st with workfile := ⟨logBytes log, 0⟩ }
      rel h h' skip _ [] log ((logBytes log).length + 1) rfl hstore hcache hrecords (by omega)
      hwrites
    exact ⟨st', by simp only [hseek, hloop], hst'⟩

theorem finish_changed {rel h₁ : Heap VisimapTuple} {log : List (DeleteKey × Bitmapset bw)}
    {k : DeleteKey} {a : Bitmapset bw} (hs : Spilled rel st log) (ha : a.Fits)
    (hmap : st.visiMap = ⟨⟨rel, rel⟩, entryOf rel k a true⟩)
    (hup : upsert rel (storedTid rel k) (tupleOf k a) = some h₁) :
    ∃ st₁ : AppendOnlyVisimapDelete bw, st.finish = st₁.writeBackStashedEntries.map visiMap ∧
        st₁.workfile.bytes = logBytes log ∧ st₁.visiMap.visimapStore = ⟨rel, h₁⟩ ∧
        HoldsExcept rel (fun k' => some k = some k') log st₁ := by
  have hput := @store_entryOf bw rel rel rel h₁ k a true ha hup
  have hkey : ofEntry (storedEntry k a) = k := by
    simp [ofEntry, storedEntry]
  have hchanged : (entryOf rel k a true).hasChanged = true := rfl
  refine ⟨{ st with
      visiMap := ⟨⟨rel, h₁⟩, storedEntry k a⟩
      dirtyEntryCache := if (st.dirtyEntryCache.lookup k).isSome then
          st.dirtyEntryCache.insert k ⟨noLocation, none⟩
        else st.dirtyEntryCache }, ?_, hs.file, rfl, ?_⟩
  · simp only [finish, hmap, hchanged, if_true, hput]
    change Except.map _ (AppendOnlyVisimapDelete.writeBackStashedEntries ⟨_, ite _ _ _, _⟩) = _
    rw [hkey]
  intro k'
  have hlookup := hs.cache k
  by_cases hk : k = k'
  · subst hk
    rcases hplace : lastPlace 0 log k with _ | p
    · rw [hplace] at hlookup
      simp [hlookup]
    · rw [hplace] at hlookup
      simp [hlookup]
  · have hne : ¬ some k = some k' := fun heq => hk (some.inj heq)
    split_ifs
    · rw [AList.lookup_insert_ne (Ne.symm hk), hs.cache]
    · exact hs.cache k'

theorem finish_unchanged (hclean : st.visiMap.visimapEntry.hasChanged = false) :
    st.finish = st.writeBackStashedEntries.map visiMap := by
  simp only [finish, hclean, Bool.false_eq_true, if_false]
  rfl

/-- **`Finish` writes back what the spill map writes back.** -/
theorem finish_eq {rel h' : Heap VisimapTuple} (hr : Refines rel st sp)
    (hwrites : upsertAll rel ((writeBack sp).map (writeOf rel)) = some h') :
    ∃ visiMap, st.finish = .ok visiMap ∧ visiMap.visimapStore = ⟨rel, h'⟩ := by
  have hmap := hr.visiMap
  have hs := hr.spilled
  -- with an unchanged current entry only the log is written back
  have hunchanged : (∀ k, dirtyKey sp ≠ some k) → st.visiMap.visimapEntry.hasChanged = false →
      upsertAll rel ((finals (fun k => dirtyKey sp = some k) sp.log).map (writeOf rel)) = some h' →
      ∃ visiMap, st.finish = .ok visiMap ∧ visiMap.visimapStore = ⟨rel, h'⟩ := by
    intro hkey hclean hlog
    obtain ⟨st', hst', hstore⟩ := writeBackStashedEntries_ok hs.file (by rw [hmap])
      (fun k => by simp only [hkey, if_false]; exact hs.cache k) hs.records hlog
    exact ⟨st'.visiMap, by rw [finish_unchanged hclean, hst']; rfl, hstore⟩
  unfold currentEntry at hmap
  unfold writeBack at hwrites
  rcases hcur : sp.current with _ | ⟨k, a, _ | _⟩
  · simp only [hcur] at hmap hwrites
    exact hunchanged (by simp [dirtyKey, hcur]) (by rw [hmap]; rfl) hwrites
  · simp only [hcur] at hmap hwrites
    exact hunchanged (by simp [dirtyKey, hcur]) (by rw [hmap]; rfl) hwrites
  simp only [hcur] at hmap hwrites
  have hkey : dirtyKey sp = some k := by simp [dirtyKey, hcur]
  simp only [hkey, singleton_append, map_cons, writeOf] at hwrites
  rw [upsertAll, bind_eq_some_iff] at hwrites
  obtain ⟨_, hup, hlog⟩ := hwrites
  obtain ⟨st₁, hfinish, hfile, hstore, hcache⟩ :=
    finish_changed hs (hr.current k a true hcur).2 hmap hup
  obtain ⟨st', hst', hstore'⟩ := writeBackStashedEntries_ok hfile hstore hcache hs.records hlog
  exact ⟨st'.visiMap, by rw [hfinish, hst']; rfl, hstore'⟩

end AppendOnlyVisimapDelete

/-! ### The visimap that is stored -/

def rowKey (k : DeleteKey) : ℤ × ℤ := (k.segno.toNat, k.firstRowNum.toNat)

theorem rowKey_injective : Function.Injective rowKey := by
  rintro ⟨s, f⟩ ⟨_, _⟩ heq
  simp only [rowKey, Prod.mk.injEq, Nat.cast_inj] at heq
  rw [BitVec.eq_of_toNat_eq heq.1, BitVec.eq_of_toNat_eq heq.2]

@[simp] theorem visimapKey_tupleOf (k : DeleteKey) (a : Bitmapset bw) :
    visimapKey (tupleOf k a) = rowKey k := rfl

theorem storedBitmap_of_live {rel : Heap VisimapTuple} (hu : UniqueKeys visimapKey rel)
    {tid : ItemPointer} {t : VisimapTuple} (hl : Live rel tid t) {k : DeleteKey}
    (hk : visimapKey t = rowKey k) : storedBitmap bw rel k = t.bitmap bw := by
  have hsplit := Prod.mk.inj hk
  unfold storedBitmap
  rcases hrow : findRow rel k.segno.toNat k.firstRowNum.toNat with _ | ⟨_, _⟩
  · exact absurd hsplit (findRow_eq_none hrow hl)
  obtain ⟨hl', hs, hf⟩ := findRow_eq_some hrow
  obtain rfl := hu hl hl' (hk.trans (Prod.ext hs hf).symm)
  obtain rfl := hl.unique hl'
  rfl

theorem storedBitmap_of_none {rel : Heap VisimapTuple} {k : DeleteKey}
    (hnone : ∀ tid t, Live rel tid t → visimapKey t ≠ rowKey k) : storedBitmap bw rel k = none := by
  unfold storedBitmap
  rcases hrow : findRow rel k.segno.toNat k.firstRowNum.toNat with _ | ⟨tid, t⟩
  · rfl
  · obtain ⟨hl, hs, hf⟩ := findRow_eq_some hrow
    exact absurd (Prod.ext hs hf) (hnone tid t hl)

theorem finds_writeOf (v : StoredVisimap bw) (k : DeleteKey) (a : Bitmapset bw) :
    Finds visimapKey v.rel (storedTid v.rel k) (tupleOf k a) := by
  unfold storedTid
  rcases hrow : findRow v.rel k.segno.toNat k.firstRowNum.toNat with _ | ⟨_, t⟩
  · intro i u hl hk
    exact findRow_eq_none hrow hl (Prod.mk.inj hk)
  · obtain ⟨hl, hs, hf⟩ := findRow_eq_some hrow
    exact ⟨t, hl, Prod.ext hs hf⟩

theorem exists_writeBack (v : StoredVisimap bw) {rs : List (DeleteKey × Bitmapset bw)}
    (hrs : (rs.map Prod.fst).Nodup) : ∃ h', upsertAll v.rel (rs.map (writeOf v.rel)) = some h' ∧
      AllWritten visimapKey v.rel (rs.map fun r => tupleOf r.1 r.2) h' := by
  have hkeys : ((rs.map (writeOf v.rel)).map fun w => visimapKey w.2).Nodup := by
    have heq : ((rs.map (writeOf v.rel)).map fun w => visimapKey w.2) =
        (rs.map Prod.fst).map rowKey := by
      rw [List.map_map, List.map_map]
      rfl
    rw [heq]
    exact hrs.map rowKey_injective
  obtain ⟨h', hup, hall⟩ := exists_upsertAll v.unique hkeys (by
    intro w hw
    obtain ⟨r, -, rfl⟩ := mem_map.1 hw
    exact finds_writeOf v r.1 r.2)
  rw [List.map_map] at hall
  exact ⟨h', hup, hall⟩

theorem readable_tupleOf {k : DeleteKey} {a : Bitmapset bw} (ha : a.Fits) :
    (tupleOf k a).Readable bw := by
  intro data hdata
  obtain ⟨bytes, hbytes, -, -, _, -⟩ := exists_dataOf ha
  simp only [tupleOf] at hdata
  split_ifs at hdata
  cases hdata
  refine ⟨?_, a, readData_dataOf ha⟩
  have hsize := varsize_varlena (by omega : bytes.length < 2 ^ 20) []
  rw [append_nil] at hsize
  rw [hbytes, hsize, length_varlena, visimapDataBufferSize, visimapDataOffset,
    visimapMaxBitmapSize, bitmapCompressionHeaderSize]
  omega

theorem isMember_bitmap_tupleOf {k : DeleteKey} {a : Bitmapset bw} (ha : a.Fits) (x : ℕ) :
    ((tupleOf k a).bitmap bw).isMember x = a.isMember x := by
  unfold tupleOf VisimapTuple.bitmap
  by_cases hempty : a.isEmpty = true
  · simp only [hempty, if_true]
    rw [Bitmapset.isMember_of_isEmpty hempty]
    rfl
  · simp only [hempty, Bool.false_eq_true, if_false, readData_dataOf ha]
    rfl

/-- The visimap after entries were written back. -/
def StoredVisimap.written (v : StoredVisimap bw) {rs : List (DeleteKey × Bitmapset bw)}
    (hfits : ∀ r ∈ rs, r.2.Fits) {h' : Heap VisimapTuple}
    (hall : AllWritten visimapKey v.rel (rs.map fun r => tupleOf r.1 r.2) h') :
    StoredVisimap bw where
  rel := h'
  unique := hall.uniqueKeys
  readable := by
    intro tid t hl
    rcases (hall.live t).1 ⟨tid, hl⟩ with hmem | ⟨⟨tid', hl'⟩, -⟩
    · obtain ⟨r, hr, rfl⟩ := mem_map.1 hmem
      exact readable_tupleOf (hfits r hr)
    · exact v.readable hl'

theorem isMember_storedBitmap_written (v : StoredVisimap bw) {rs : List (DeleteKey × Bitmapset bw)}
    (hfits : ∀ r ∈ rs, r.2.Fits) {h' : Heap VisimapTuple}
    (hall : AllWritten visimapKey v.rel (rs.map fun r => tupleOf r.1 r.2) h') (k : DeleteKey)
    (x : ℕ) : (∀ a, (k, a) ∈ rs → (storedBitmap bw h' k).isMember x = a.isMember x) ∧
      ((∀ a, (k, a) ∉ rs) → storedBitmap bw h' k = storedBitmap bw v.rel k) := by
  constructor
  · intro a hmem
    obtain ⟨tid, hl⟩ := (hall.live (tupleOf k a)).2 (Or.inl (mem_map.2 ⟨(k, a), hmem, rfl⟩))
    rw [storedBitmap_of_live hall.uniqueKeys hl (visimapKey_tupleOf k a),
      isMember_bitmap_tupleOf (hfits (k, a) hmem)]
  intro hnone
  have hother : ∀ u, visimapKey u = rowKey k →
      ∀ t ∈ rs.map (fun r => tupleOf r.1 r.2), visimapKey t ≠ visimapKey u := by
    intro u hu t ht heq
    obtain ⟨⟨_, a⟩, hr, rfl⟩ := mem_map.1 ht
    obtain rfl := rowKey_injective (heq.trans hu)
    exact hnone a hr
  by_cases hstored : ∃ tid t, Live v.rel tid t ∧ visimapKey t = rowKey k
  · obtain ⟨tid, t, hl, hk⟩ := hstored
    rw [storedBitmap_of_live v.unique hl hk,
      storedBitmap_of_live hall.uniqueKeys (hall.kept hl (hother t hk)) hk]
  have hold : ∀ tid t, Live v.rel tid t → visimapKey t ≠ rowKey k := fun tid t hl hk =>
    hstored ⟨tid, t, hl, hk⟩
  rw [storedBitmap_of_none hold, storedBitmap_of_none]
  intro tid t hl hk
  rcases (hall.live t).1 ⟨tid, hl⟩ with hmem | ⟨⟨tid', hl'⟩, -⟩
  · exact hother t hk t hmem rfl
  · exact hold tid' t hl' hk

/-- The tuples a stored visimap hides: those for which `AppendOnlyVisimap_IsVisible` answers
that they are not visible. -/
def storedHidden (bw : BitmapWordSize) (rel : Heap VisimapTuple) : Set AOTupleId :=
  {tupleId | ∃ visiMap : AppendOnlyVisimap bw,
    (AppendOnlyVisimap.init rel).isVisible tupleId = .ok (false, visiMap)}

theorem mem_storedHidden (v : StoredVisimap bw) (tupleId : AOTupleId) :
    tupleId ∈ storedHidden bw v.rel ↔
      (storedBitmap bw v.rel (ofTuple tupleId)).isMember (tupleId.rowNum % 32768) = true := by
  have hvisible : ∃ visiMap : AppendOnlyVisimap bw,
      (AppendOnlyVisimap.init v.rel).isVisible tupleId =
        .ok (!(storedBitmap bw v.rel (ofTuple tupleId)).isMember
          (tupleId.rowNum % 32768), visiMap) := by
    have hfind := find_stored (v := v) .init tupleId
    have hcovers : (init : AppendOnlyVisimapEntry bw).coversTuple tupleId = false := rfl
    have hclean : (init : AppendOnlyVisimapEntry bw).hasChanged = false := rfl
    refine ⟨⟨⟨v.rel, v.rel⟩, entryOf v.rel (ofTuple tupleId)
      (storedBitmap bw v.rel (ofTuple tupleId)) false⟩, ?_⟩
    simp only [AppendOnlyVisimap.isVisible, AppendOnlyVisimap.init, hcovers, hclean,
      Bool.false_eq_true, if_false, pure_bind, hfind]
    change Except.ok (AppendOnlyVisimapEntry.isVisible _ _, _) = _
    rw [isVisible_eq, getRownumOffset_entryOf]
    rfl
  obtain ⟨visiMap, hvisible⟩ := hvisible
  constructor
  · rintro ⟨_, hhidden⟩
    rw [hvisible, Except.ok.injEq, Prod.mk.injEq] at hhidden
    simpa using hhidden.1
  · intro hmem
    rw [hmem] at hvisible
    exact ⟨visiMap, hvisible⟩

/-! ### A command's calls -/

/-- A call of a command that deletes or updates tuples. -/
inductive DeleteCall where
  | hide (tupleId : AOTupleId)
  | isVisible (tupleId : AOTupleId)
deriving DecidableEq

inductive DeleteAnswer where
  | result (r : TMResult)
  | visible (b : Bool)
deriving DecidableEq

namespace AppendOnlyVisimapDelete

def call (st : AppendOnlyVisimapDelete bw) :
    DeleteCall → Except String (DeleteAnswer × AppendOnlyVisimapDelete bw)
  | .hide tupleId => (st.hide tupleId).map fun (r, st) => (.result r, st)
  | .isVisible tupleId => (st.isVisible tupleId).map fun (b, st) => (.visible b, st)

/-- The calls one after the other, with their answers. -/
def calls (st : AppendOnlyVisimapDelete bw) :
    List DeleteCall → Except String (List DeleteAnswer × AppendOnlyVisimapDelete bw)
  | [] => .ok ([], st)
  | c :: cs =>
    match st.call c with
    | .error msg => .error msg
    | .ok (answer, st) => (st.calls cs).map fun (answers, st) => (answer :: answers, st)

section

variable (v : StoredVisimap bw) (sp : State DeleteKey (Bitmapset bw))

/-- The tuples a spill map over a stored visimap hides. -/
def viewHidden : Set AOTupleId :=
  {tupleId | (view (storedBitmap bw v.rel) sp (ofTuple tupleId)).isMember
    (tupleId.rowNum % 32768) = true}

/-- What a call answers in a state of the spill map. -/
def answer : DeleteCall → DeleteAnswer
  | .hide t => .result (hideResult
      ((view (storedBitmap bw v.rel) sp (ofTuple t)).isMember (t.rowNum % 32768))
      (changed sp (ofTuple t)))
  | .isVisible t => .visible
      (!(view (storedBitmap bw v.rel) sp (ofTuple t)).isMember (t.rowNum % 32768))

end

theorem eq_of_ofTuple {t t' : AOTupleId} (hkey : ofTuple t = ofTuple t')
    (hoff : t.rowNum % 32768 = t'.rowNum % 32768) : t = t' := by
  have hseg := congrArg (fun k => k.segno.toNat) hkey
  have hrow := congrArg (fun k => k.firstRowNum.toNat) hkey
  simp only [segno_ofTuple, firstRowNum_ofTuple] at hseg hrow
  exact AOTupleId.eq_of_segmentFileNum_rowNum hseg (by omega)

variable {st : AppendOnlyVisimapDelete bw} {v : StoredVisimap bw}

section

variable (hr : Refines v.rel st sp)
include hr

variable (hok : Ok (storedBitmap bw v.rel) sp)
include hok

theorem call_refines (c : DeleteCall) :
    ∃ st' sp', st.call c = .ok (answer v sp c, st') ∧ Refines v.rel st' sp' ∧
      Ok (storedBitmap bw v.rel) sp' ∧
      viewHidden v sp' = viewHidden v sp ∪ {t | c = .hide t} ∧
      ∀ k, changed sp' k = true ↔ changed sp k = true ∨ ∃ t, c = .hide t ∧ ofTuple t = k := by
  cases c with
  | hide tupleId =>
    obtain ⟨st', sp', hhide, hr', hok', hview, hchanged⟩ := hide_refines hr hok tupleId
    refine ⟨st', sp', by rw [call, hhide]; rfl, hr', hok', ?_, fun k => ?_⟩
    · ext t
      simp only [viewHidden, Set.mem_ofPred_eq, hview, Bool.or_eq_true, decide_eq_true_eq,
        Set.mem_union, DeleteCall.hide.injEq]
      refine or_congr_right ⟨fun h => (eq_of_ofTuple h.1 h.2).symm, ?_⟩
      rintro rfl
      exact ⟨rfl, rfl⟩
    · simp [hchanged, or_comm]
  | isVisible tupleId =>
    obtain ⟨st', sp', hvis, hr', hok', hview, hchanged⟩ := isVisible_refines hr hok tupleId
    refine ⟨st', sp', by rw [call, hvis]; rfl, hr', hok', ?_, fun k => ?_⟩
    · simp [viewHidden, hview]
    · simp [hchanged]

/-- The run lemma: what a sequence of calls does to the set of hidden tuples, and in which
state each of them is answered. -/
theorem calls_refines (cs : List DeleteCall) :
    ∃ answers st' sp', st.calls cs = .ok (answers, st') ∧ Refines v.rel st' sp' ∧
      Ok (storedBitmap bw v.rel) sp' ∧
      viewHidden v sp' = viewHidden v sp ∪ {t | .hide t ∈ cs} ∧
      answers.length = cs.length ∧
      ∀ i c, cs[i]? = some c → ∃ spᵢ, answers[i]? = some (answer v spᵢ c) ∧
        viewHidden v spᵢ = viewHidden v sp ∪ {t | .hide t ∈ cs.take i} ∧
        ∀ k, changed spᵢ k = true ↔
          changed sp k = true ∨ ∃ t, .hide t ∈ cs.take i ∧ ofTuple t = k := by
  induction cs generalizing st sp with
  | nil => exact ⟨[], st, sp, rfl, hr, hok, by simp, rfl, by simp⟩
  | cons c cs ih =>
    obtain ⟨_, sp₁, hcall, hr₁, hok₁, hhidden₁, hchanged₁⟩ := call_refines hr hok c
    obtain ⟨answers, st', sp', hcalls, hr', hok', hhidden', hlen, hanswers⟩ := ih hr₁ hok₁
    have hcons : ∀ cs' : List DeleteCall, viewHidden v sp₁ ∪ {t | .hide t ∈ cs'} =
        viewHidden v sp ∪ {t | .hide t ∈ c :: cs'} := by
      intro cs'
      rw [hhidden₁, Set.union_assoc]
      congr 1
      ext t
      simp [eq_comm]
    refine ⟨answer v sp c :: answers, st', sp', by simp only [calls, hcall, hcalls]; rfl, hr', hok',
      by rw [hhidden', hcons], by simp [hlen], ?_⟩
    intro i c' hi
    cases i with
    | zero =>
      obtain rfl : c = c' := by simpa using hi
      exact ⟨sp, by simp⟩
    | succ i =>
      obtain ⟨spᵢ, hanswer, hhidden, hchanged⟩ := hanswers i c' (by simpa using hi)
      refine ⟨spᵢ, by simpa using hanswer, by rw [hhidden, hcons, take_succ_cons], fun k => ?_⟩
      simp only [hchanged, hchanged₁, take_succ_cons, mem_cons, or_and_right, exists_or,
        eq_comm (a := c)]
      exact or_assoc

theorem finish_refines :
    ∃ (visiMap : AppendOnlyVisimap bw) (v' : StoredVisimap bw) (ts : List VisimapTuple),
      st.finish = .ok visiMap ∧ v'.rel = visiMap.visimapStore.visimapRelation ∧
      AllWritten visimapKey v.rel ts v'.rel ∧ storedHidden bw v'.rel = viewHidden v sp := by
  have hfits : ∀ r ∈ writeBack sp, r.2.Fits := by
    rintro ⟨k, a⟩ hmem
    unfold writeBack at hmem
    rcases hcur : sp.current with _ | ⟨k', a', _ | _⟩ <;> simp only [hcur] at hmem
    · exact hr.spilled.latest_fits (mem_finals.1 hmem).1
    · exact hr.spilled.latest_fits (mem_finals.1 hmem).1
    · rcases mem_cons.1 hmem with heq | hmem
      · cases heq
        exact (hr.current k a true hcur).2
      · exact hr.spilled.latest_fits (mem_finals.1 hmem).1
  obtain ⟨h', hup, hall⟩ := exists_writeBack v (nodup_writeBack sp)
  obtain ⟨visiMap, hfinish, hstore⟩ := finish_eq hr hup
  refine ⟨visiMap, v.written hfits hall, _, hfinish, by rw [hstore]; rfl, hall, ?_⟩
  ext t
  obtain ⟨hwritten, hkept⟩ := isMember_storedBitmap_written v hfits hall (ofTuple t)
    (t.rowNum % 32768)
  obtain ⟨hvalue, hbase⟩ := writeBack_eq_view hok
  rw [mem_storedHidden, viewHidden, Set.mem_ofPred_eq]
  change (storedBitmap bw h' _).isMember _ = true ↔ _
  by_cases hmem : ∃ a, (ofTuple t, a) ∈ writeBack sp
  · obtain ⟨a, ha⟩ := hmem
    rw [hwritten a ha, hvalue _ a ha]
  · rw [not_exists] at hmem
    rw [hkept hmem, hbase _ hmem]

end

theorem calls_init (v : StoredVisimap bw) (cs : List DeleteCall) : ∃ answers st sp,
      (init (.init v.rel) : AppendOnlyVisimapDelete bw).calls cs = .ok (answers, st) ∧
      Refines v.rel st sp ∧ Ok (storedBitmap bw v.rel) sp ∧
      viewHidden v sp = storedHidden bw v.rel ∪ {t | .hide t ∈ cs} ∧
      answers.length = cs.length ∧
      ∀ i c, cs[i]? = some c → ∃ spᵢ, answers[i]? = some (answer v spᵢ c) ∧
        viewHidden v spᵢ = storedHidden bw v.rel ∪ {t | .hide t ∈ cs.take i} ∧
        ∀ k, changed spᵢ k = true ↔ ∃ t, .hide t ∈ cs.take i ∧ ofTuple t = k := by
  have hinitial : viewHidden v ⟨none, []⟩ = storedHidden bw v.rel := by
    ext t
    rw [mem_storedHidden]
    rfl
  have hcalls := calls_refines (refines_init v.rel) (by simp [Ok]) cs
  simpa only [hinitial, changed, spill, latest, isSome_none, Bool.false_eq_true, false_or]
    using hcalls

/-- **The delete buffer refines a set.**  The calls of a command and `Finish` succeed; a check
answers that the tuple is visible just if it was not hidden in the stored visimap and is not
hidden by an earlier call; the visimap stored in the end hides the tuples hidden before and
those hidden by the command.  Each segment file and first row number is stored at most once,
and a row that existed before is still there or was updated to the row with its key. -/
theorem deleteBuffer_refines_set (v : StoredVisimap bw) (cs : List DeleteCall) :
    ∃ answers st visiMap,
      (init (.init v.rel) : AppendOnlyVisimapDelete bw).calls cs = .ok (answers, st) ∧
      st.finish = .ok visiMap ∧ answers.length = cs.length ∧
      (∀ i t, cs[i]? = some (.isVisible t) → ∃ b, answers[i]? = some (.visible b) ∧
        (b = true ↔ t ∉ storedHidden bw v.rel ∧ .hide t ∉ cs.take i)) ∧
      ∃ v' : StoredVisimap bw, v'.rel = visiMap.visimapStore.visimapRelation ∧
        storedHidden bw v'.rel = storedHidden bw v.rel ∪ {t | .hide t ∈ cs} ∧
        UniqueKeys visimapKey v'.rel ∧
        ∀ tid row, Live v.rel tid row → Live v'.rel tid row ∨
          ∃ tid' row', v'.rel[tid]? = some ⟨row, some tid'⟩ ∧ Live v'.rel tid' row' ∧
            visimapKey row' = visimapKey row := by
  obtain ⟨answers, st, _, hcalls, hr, hok, hhidden, hlen, hanswers⟩ := calls_init v cs
  obtain ⟨visiMap, v', ts, hfinish, hrel, hall, hstored⟩ := finish_refines hr hok
  refine ⟨answers, st, visiMap, hcalls, hfinish, hlen, fun i t hi => ?_, v', hrel, by
    rw [hstored, hhidden], hall.uniqueKeys, fun tid row hl => ?_⟩
  · obtain ⟨_, hanswer, hhiddenᵢ, -⟩ := hanswers i _ hi
    refine ⟨_, hanswer, ?_⟩
    rw [← not_or, ← Set.mem_ofPred_eq (p := fun t => DeleteCall.hide t ∈ cs.take i),
      ← Set.mem_union, ← hhiddenᵢ]
    simp [viewHidden]
  by_cases hwritten : ∃ t ∈ ts, visimapKey t = visimapKey row
  · obtain ⟨t, ht, hk⟩ := hwritten
    obtain ⟨tid', hnext, hl'⟩ := hall.replaced hl t ht hk
    exact Or.inr ⟨tid', t, hnext, hl', hk⟩
  · exact Or.inl (hall.kept hl fun t ht hk => hwritten ⟨t, ht, hk⟩)

/-! ### Who hid a tuple -/

/-- The answer `r` to hiding `t` says who hid it: nobody, an earlier call, or an earlier command. -/
structure ReportsHider (stored : Set AOTupleId) (earlier : List DeleteCall) (t : AOTupleId)
    (r : TMResult) : Prop where
  ok : r = .ok ↔ t ∉ stored ∧ .hide t ∉ earlier
  selfModified : r = .selfModified ↔ .hide t ∈ earlier
  updated : r = .updated ↔ t ∈ stored

theorem reportsHider_hideResult_iff {stored : Set AOTupleId} {earlier : List DeleteCall}
    {t : AOTupleId} {hidden dirty : Bool} (hhidden : hidden = true ↔ t ∈ stored ∨ .hide t ∈ earlier)
    (hself : .hide t ∈ earlier → dirty = true) :
    ReportsHider stored earlier t (hideResult hidden dirty) ↔ ¬ (t ∈ stored ∧ dirty = true) := by
  constructor
  · rintro h ⟨hstored, rfl⟩
    obtain rfl := hhidden.2 (Or.inl hstored)
    cases h.updated.2 hstored
  · intro h
    constructor <;> cases hidden <;> cases dirty <;>
      simp [hideResult] at hhidden hself h ⊢ <;> tauto

/-- **What hiding a tuple answers.**  The mark for changes made by the command is one for the
whole entry, so a tuple that was hidden in the stored visimap is reported as hidden by the
command after any call for a tuple of its entry; every other answer is right. -/
theorem hide_reports_hider_iff (v : StoredVisimap bw) (cs : List DeleteCall) :
    ∃ answers st, (init (.init v.rel) : AppendOnlyVisimapDelete bw).calls cs = .ok (answers, st) ∧
      ∀ i t, cs[i]? = some (.hide t) → ∃ r, answers[i]? = some (.result r) ∧
        (ReportsHider (storedHidden bw v.rel) (cs.take i) t r ↔ ¬ (t ∈ storedHidden bw v.rel ∧
            ∃ t', .hide t' ∈ cs.take i ∧ DeleteKey.ofTuple t' = DeleteKey.ofTuple t)) := by
  obtain ⟨answers, st, _, hcalls, -, -, -, -, hanswers⟩ := calls_init v cs
  refine ⟨answers, st, hcalls, fun i t hi => ?_⟩
  obtain ⟨_, hanswer, hhidden, hchanged⟩ := hanswers i _ hi
  refine ⟨_, hanswer, ?_⟩
  rw [← hchanged]
  exact reportsHider_hideResult_iff (Set.ext_iff.1 hhidden t)
    fun h => (hchanged _).2 ⟨t, h, rfl⟩

/-- Row 1 is hidden by an earlier command; hidden again after row 2, it counts as hidden by
this command. -/
theorem earlier_hider_misreported : ∃ (v : StoredVisimap .bits64) (answers : List DeleteAnswer)
      (st : AppendOnlyVisimapDelete .bits64),
      (init (.init v.rel) : AppendOnlyVisimapDelete .bits64).calls
          [.hide (AOTupleId.init 1 2), .hide (AOTupleId.init 1 1)] = .ok (answers, st) ∧
        AOTupleId.init 1 1 ∈ storedHidden .bits64 v.rel ∧
        answers[1]? = some (.result .selfModified) := by
  let v₀ : StoredVisimap .bits64 := ⟨[], by simp [UniqueKeys, Live], by simp [Live]⟩
  obtain ⟨-, _, _, -, hr₀, hok₀, hhidden₀, -⟩ := calls_init v₀ [.hide (AOTupleId.init 1 1)]
  obtain ⟨-, v, -, -, -, -, hstored⟩ := finish_refines hr₀ hok₀
  have hone : AOTupleId.init 1 1 ∈ storedHidden .bits64 v.rel := by
    rw [hstored, hhidden₀]
    simp
  obtain ⟨answers, st, -, hcalls, -, -, -, -, hanswers⟩ :=
    calls_init v [.hide (AOTupleId.init 1 2), .hide (AOTupleId.init 1 1)]
  obtain ⟨_, hanswer, hhidden, hchanged⟩ := hanswers 1 _ rfl
  refine ⟨v, answers, st, hcalls, hone, ?_⟩
  have hbit := (Set.ext_iff.1 hhidden (AOTupleId.init 1 1)).2 (Or.inl hone)
  rw [hanswer, answer, hbit, (hchanged _).2 ⟨AOTupleId.init 1 2, by simp, by decide⟩]
  rfl

end AppendOnlyVisimapDelete

end Cloudberry.AppendOnly
