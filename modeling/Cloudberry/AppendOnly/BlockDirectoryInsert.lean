/-
# The block directory stores what was inserted

For each segment file and column group the rows of the block directory are the pages of a log:
closed minipages in the relation, and the last one in memory. Inserting an entry appends to
that log, a placeholder at most closes its last page, and a command opens the last page and
closes it again (`Inv`).

A placeholder must be followed by an entry: with no rows after it, nothing replaces it
(`placeholder_left`).
-/

import Cloudberry.AppendOnly.BlockDirectory
import Cloudberry.Lib.PagedLog

namespace Cloudberry.AppendOnly

open AppendOnlyBlockDirectory BlkdirTuple

open VersionedHeap PagedLog List Function Option Prod InsertCommand AOTupleId

/-! ### Entries in order -/

/-- Non-empty row ranges that increase and do not overlap. -/
def Ascending (es : List MinipageEntry) : Prop :=
  es.Pairwise (fun a b => a.firstRowNum + a.rowCount ≤ b.firstRowNum) ∧ ∀ e ∈ es, 0 < e.rowCount

theorem Ascending.sublist {es es' : List MinipageEntry} (h : Ascending es') (hs : es.Sublist es') :
    Ascending es :=
  ⟨h.1.sublist hs, fun e he => h.2 e (hs.subset he)⟩

theorem Ascending.lt {es es' : List MinipageEntry} (h : Ascending (es ++ es')) {a b : MinipageEntry}
    (ha : a ∈ es) (hb : b ∈ es') : a.firstRowNum < b.firstRowNum := by
  have hle := (pairwise_append.1 h.1).2.2 a ha b hb
  have hpos := h.2 a (mem_append_left _ ha)
  omega

/-- The row of a minipage; its key is the first row number of the first entry. -/
def rowOf (segno columnGroupNo : ℕ) (page : List MinipageEntry) : BlkdirTuple :=
  ⟨segno, columnGroupNo, (page.head?.map MinipageEntry.firstRowNum).getD 0, page⟩

theorem Ascending.key_lt {closed : List (List MinipageEntry)} {page p : List MinipageEntry}
    (h : Ascending (closed.flatten ++ page)) (hpage : page ≠ []) (hp : p ∈ closed) (hne : p ≠ [])
    (s g : ℕ) : (rowOf s g p).firstRowNum < (rowOf s g page).firstRowNum := by
  obtain ⟨e, _, rfl⟩ := exists_cons_of_ne_nil hpage
  obtain ⟨a, as, rfl⟩ := exists_cons_of_ne_nil hne
  exact h.lt (mem_flatten.2 ⟨a :: as, hp, mem_cons_self ..⟩) (mem_cons_self ..)

/-! ### The relation and the pages -/

/-- Apart from the row `tid`, which is that of the open page, the rows of a segment file and
column group are the closed pages. -/
structure Holds (rel : Heap BlkdirTuple) (s g : ℕ) (tid : Option ℕ)
    (closed : List (List MinipageEntry)) : Prop where
  rows : ∀ t : BlkdirTuple, t.segno = s → t.columnGroupNo = g →
    ((∃ i, Live rel i t ∧ tid ≠ some i) ↔ ∃ page ∈ closed, t = rowOf s g page)
  row : ∀ i, tid = some i → ∃ t : BlkdirTuple, Live rel i t ∧ t.segno = s ∧ t.columnGroupNo = g

section write

variable {rel rel' : Heap BlkdirTuple} {s g : ℕ} {tid : Option ℕ}
  {closed : List (List MinipageEntry)} {page : List MinipageEntry}

section

variable (h : Holds rel s g tid closed)
include h

/-- A closed page has a live row. -/
theorem Holds.live (hpage : page ∈ closed) : ∃ i, Live rel i (rowOf s g page) ∧ tid ≠ some i :=
  (h.rows _ rfl rfl).2 ⟨page, hpage, rfl⟩

theorem Holds.unique_write (hu : UniqueKeys key rel) (hclosed : ∀ p ∈ closed, p ≠ [])
    (hpage : page ≠ []) (hasc : Ascending (closed.flatten ++ page))
    (hup : upsert rel tid (rowOf s g page) = some rel') : UniqueKeys key rel' := by
  have hfresh : ∀ i t, Live rel i t → tid ≠ some i → t.key ≠ (rowOf s g page).key := by
    intro i t hl htid hkey
    simp only [key, Prod.mk.injEq] at hkey
    obtain ⟨p, hp, rfl⟩ := (h.rows t hkey.1 hkey.2.1).1 ⟨i, hl, htid⟩
    exact (hasc.key_lt hpage hp (hclosed p hp) s g).ne hkey.2.2
  intro i j t u ht hu' hkey
  rcases (live_upsert hup).1 ht with ⟨rfl, rfl⟩ | ⟨ht, hti⟩ <;>
    rcases (live_upsert hup).1 hu' with ⟨rfl, rfl⟩ | ⟨hl, htj⟩
  · rfl
  · exact absurd hkey.symm (hfresh j u hl htj)
  · exact absurd hkey (hfresh i t ht hti)
  · exact hu ht hl hkey

theorem Holds.other_write (hup : upsert rel tid (rowOf s g page) = some rel') {s' g' : ℕ}
    (hne : (s', g') ≠ (s, g)) {tid' : Option ℕ} {closed' : List (List MinipageEntry)}
    (h' : Holds rel s' g' tid' closed') : Holds rel' s' g' tid' closed' := by
  have hsame : ∀ i (t : BlkdirTuple), t.segno = s' → t.columnGroupNo = g' →
      (Live rel' i t ↔ Live rel i t) := by
    intro i t hs hg
    rw [live_upsert hup]
    constructor
    · rintro (⟨-, rfl⟩ | ⟨hl, -⟩)
      · exact absurd (Prod.ext hs.symm hg.symm) hne
      · exact hl
    · intro hl
      refine Or.inr ⟨hl, fun htid => ?_⟩
      obtain ⟨u, hlu, hsu, hgu⟩ := h.row i htid
      obtain rfl := hl.unique hlu
      exact hne (Prod.ext (hs.symm.trans hsu) (hg.symm.trans hgu))
  refine ⟨fun t hs hg => ?_, fun i hi => ?_⟩
  · rw [← h'.rows t hs hg]
    simp only [hsame _ t hs hg]
  · obtain ⟨t, hl, hs, hg⟩ := h'.row i hi
    exact ⟨t, (hsame i t hs hg).2 hl, hs, hg⟩

theorem Holds.write (hup : upsert rel tid (rowOf s g page) = some rel') :
    Holds rel' s g (some rel.length) closed ∧ Holds rel' s g none (closed ++ [page]) := by
  have hnew : Live rel' rel.length (rowOf s g page) := (live_upsert hup).2 (Or.inl ⟨rfl, rfl⟩)
  refine ⟨⟨fun t hs hg => ?_, ?_⟩, ⟨fun t hs hg => ?_, by simp⟩⟩
  · rw [← h.rows t hs hg]
    refine exists_congr fun i => ?_
    rw [live_upsert hup]
    constructor
    · rintro ⟨⟨rfl, -⟩ | hl, hne⟩
      · exact absurd rfl hne
      · exact hl
    · rintro ⟨hl, htid⟩
      refine ⟨Or.inr ⟨hl, htid⟩, fun heq => ?_⟩
      have hlt := hl.lt
      have heq := Option.some.inj heq
      omega
  · rintro i heq
    cases heq
    exact ⟨_, hnew, rfl, rfl⟩
  · constructor
    · rintro ⟨i, hl, -⟩
      rcases (live_upsert hup).1 hl with ⟨-, rfl⟩ | ⟨hl, htid⟩
      · exact ⟨page, by simp, rfl⟩
      · obtain ⟨p, hp, rfl⟩ := (h.rows t hs hg).1 ⟨i, hl, htid⟩
        exact ⟨p, mem_append_left _ hp, rfl⟩
    · rintro ⟨p, hp, rfl⟩
      rcases mem_append.1 hp with hp | hp
      · obtain ⟨i, hl, htid⟩ := h.live hp
        exact ⟨i, (live_upsert hup).2 (Or.inr ⟨hl, htid⟩), by simp⟩
      · obtain rfl := mem_singleton.1 hp
        exact ⟨_, hnew, by simp⟩

/-- **Writing a page succeeds.** -/
theorem Holds.exists_write (hu : UniqueKeys key rel) (hclosed : ∀ p ∈ closed, p ≠ [])
    (hpage : page ≠ []) (hasc : Ascending (closed.flatten ++ page)) {ownRows : List ℕ}
    (hown : ∀ i, tid = some i → i ∉ ownRows) :
    ∃ rel', catalogTupleWrite rel ownRows tid (rowOf s g page) = .ok (rel.length, rel') ∧
      upsert rel tid (rowOf s g page) = some rel' := by
  have hlive : ∀ i, tid = some i → ∃ t, Live rel i t := fun i hi =>
    (h.row i hi).imp fun _ ht => ht.1
  obtain ⟨rel', hup⟩ := exists_upsert_of_live hlive (rowOf s g page)
  have hvisible : ¬ tid.any ownRows.contains = true := by
    rcases tid with _ | i
    · simp
    · simpa using hown i rfl
  have hkeys : (VersionedHeap.rows rel').all (fun row => row.1 = rel.length ||
      row.2.key != (rowOf s g page).key) = true := by
    rw [List.all_eq_true]
    rintro ⟨i, t⟩ hmem
    rw [mem_rows] at hmem
    have hnew : Live rel' rel.length (rowOf s g page) := (live_upsert hup).2 (Or.inl ⟨rfl, rfl⟩)
    by_cases hkey : t.key = (rowOf s g page).key
    · have hi := h.unique_write hu hclosed hpage hasc hup hmem hnew hkey
      simp [hi]
    · simp [hkey]
  refine ⟨rel', ?_, hup⟩
  unfold catalogTupleWrite
  rw [if_neg hvisible, hup]
  simp only [hkeys, if_true]

end

end write

/-! ### The minipages of all column groups -/

section

variable (size : ℕ) (rel : Heap BlkdirTuple) (ownRows : List ℕ)

/-- What holds of one segment file and column group, with its minipage in memory, which is
empty where there is none. -/
structure GroupInv (p : ℕ × ℕ)
    (info : MinipagePerColumnGroup) (l : PagedLog MinipageEntry) : Prop where
  holds : Holds rel p.1 p.2 info.tupleTid l.closed
  last : info.minipage = l.last
  own : ∀ i, info.tupleTid = some i → i ∉ ownRows
  ok : Ok size l
  ascending : Ascending l.entries

/-- What holds of the relation and the minipages. -/
structure DirInv
    (info : ℕ × ℕ → MinipagePerColumnGroup) (l : ℕ × ℕ → PagedLog MinipageEntry) : Prop where
  unique : UniqueKeys key rel
  group : ∀ p, GroupInv size rel ownRows p (info p) (l p)

end

section directory

variable {size : ℕ} {rel : Heap BlkdirTuple} {ownRows : List ℕ}
  {info : ℕ × ℕ → MinipagePerColumnGroup} {l : ℕ × ℕ → PagedLog MinipageEntry}

theorem Ok.ne_nil {size : ℕ} {l : PagedLog MinipageEntry} (h : Ok size l) :
    ∀ page ∈ l.closed, page ≠ [] := by
  rintro page hpage rfl
  exact absurd (h.closed [] hpage).1 (by simp)

theorem DirInv.update {rel' : Heap BlkdirTuple} {ownRows' : List ℕ} {p : ℕ × ℕ}
    {info' : MinipagePerColumnGroup} {l' : PagedLog MinipageEntry}
    (hu : UniqueKeys key rel') (hp : GroupInv size rel' ownRows' p info' l')
    (hother : ∀ q ≠ p, GroupInv size rel' ownRows' q (info q) (l q)) :
    DirInv size rel' ownRows' (update info p info') (update l p l') := by
  refine ⟨hu, fun q => ?_⟩
  by_cases hq : q = p
  · subst hq
    simpa using hp
  · rw [update_of_ne hq, update_of_ne hq]
    exact hother q hq

/-- **Writing the last page of a column group**, as it is or with a placeholder behind it. -/
theorem DirInv.write (h : DirInv size rel ownRows info l) (p : ℕ × ℕ) {page : List MinipageEntry}
    (hpage : page ≠ []) (hasc : Ascending ((l p).closed.flatten ++ page)) :
    ∃ rel', catalogTupleWrite rel ownRows (info p).tupleTid (rowOf p.1 p.2 page) =
        .ok (rel.length, rel') ∧
      DirInv size rel' [] (Function.update info p ⟨(l p).last, some rel.length⟩) l ∧
      ((l p).last = page → DirInv size rel' (rel.length :: ownRows)
        (Function.update info p ⟨[], none⟩)
        (Function.update l p ⟨(l p).closed ++ [page], []⟩)) := by
  have hg := h.group p
  obtain ⟨rel', hwrite, hup⟩ := hg.holds.exists_write h.unique (Ok.ne_nil hg.ok) hpage hasc hg.own
  have hu := hg.holds.unique_write h.unique (Ok.ne_nil hg.ok) hpage hasc hup
  obtain ⟨hopen, hclosed⟩ := hg.holds.write hup
  refine ⟨rel', hwrite, ?_, fun hlast => ?_⟩
  · have hsame : l = Function.update l p (l p) := (update_eq_self p l).symm
    rw [hsame]
    refine DirInv.update hu ⟨?_, ?_, by simp, ?_, ?_⟩ fun q hq => ?_
    · simpa using hopen
    · simp
    · simpa using hg.ok
    · simpa using hg.ascending
    · have hgq := h.group q
      exact ⟨by simpa using hg.holds.other_write hup hq hgq.holds, by simpa using hgq.last,
        by simp, hgq.ok, hgq.ascending⟩
  · refine DirInv.update hu ⟨hclosed, rfl, by simp, ⟨?_, by simp⟩, ?_⟩ fun q hq => ?_
    · intro page' hpage'
      rcases mem_append.1 hpage' with hpage' | hpage'
      · exact hg.ok.closed page' hpage'
      · obtain rfl := mem_singleton.1 hpage'
        exact ⟨length_pos_iff.2 hpage, hlast ▸ hg.ok.last⟩
    · simpa [entries] using hasc
    · have hgq := h.group q
      refine ⟨hg.holds.other_write hup hq hgq.holds, hgq.last, fun i hi => ?_, hgq.ok,
        hgq.ascending⟩
      obtain ⟨t, hl, -⟩ := hgq.holds.row i hi
      have hlt := hl.lt
      have hown := hgq.own i hi
      simp only [mem_cons, not_or]
      exact ⟨by omega, hown⟩

variable {e : MinipageEntry}

theorem DirInv.append (h : DirInv size rel ownRows info l) (p : ℕ × ℕ)
    (hroom : (l p).last.length < size) (hasc : Ascending ((l p).entries ++ [e])) :
    DirInv size rel ownRows
      (Function.update info p ⟨(l p).last ++ [e], (info p).tupleTid⟩)
      (Function.update l p ⟨(l p).closed, (l p).last ++ [e]⟩) := by
  have hg := h.group p
  refine DirInv.update h.unique ⟨hg.holds, rfl, hg.own, ⟨hg.ok.closed, ?_⟩, ?_⟩ fun q _ =>
    h.group q
  · rw [length_append, length_singleton]
    omega
  · simpa [entries] using hasc

theorem DirInv.dropLast (h : DirInv size rel ownRows info l) (p : ℕ × ℕ) : DirInv size rel ownRows
      (Function.update info p ⟨(l p).last.dropLast, (info p).tupleTid⟩)
      (Function.update l p ⟨(l p).closed, (l p).last.dropLast⟩) := by
  have hg := h.group p
  refine DirInv.update h.unique ⟨hg.holds, rfl, hg.own, ⟨hg.ok.closed, ?_⟩, ?_⟩ fun q _ =>
    h.group q
  · exact (dropLast_sublist _).length_le.trans hg.ok.last
  · exact hg.ascending.sublist ((Sublist.refl _).append (dropLast_sublist _))

end directory

/-! ### The calls of a command -/

namespace AppendOnlyBlockDirectory

/-- The minipage in memory of a segment file and column group. -/
def infos (bd : AppendOnlyBlockDirectory) (p : ℕ × ℕ) : MinipagePerColumnGroup :=
  if p.1 = bd.currentSegmentFileNum then bd.minipages[p.2]?.getD ⟨[], none⟩ else ⟨[], none⟩

/-- The invariant of a command. -/
def Inv (size : ℕ) (bd : AppendOnlyBlockDirectory) (l : ℕ × ℕ → PagedLog MinipageEntry) : Prop :=
  DirInv size bd.blkdirRel bd.ownRows bd.infos l

variable {size : ℕ} {bd : AppendOnlyBlockDirectory} {l : ℕ × ℕ → PagedLog MinipageEntry} {g : ℕ}

theorem infos_eq (hg : g < bd.minipages.length) :
    bd.minipages[g]? = some (bd.infos (bd.currentSegmentFileNum, g)) := by
  simp [infos, getElem?_eq_getElem hg]

theorem infos_set (hg : g < bd.minipages.length) (rel : Heap BlkdirTuple) (ownRows : List ℕ)
    (info : MinipagePerColumnGroup) : infos { bd with
        blkdirRel := rel, ownRows := ownRows, minipages := bd.minipages.set g info } =
      update bd.infos (bd.currentSegmentFileNum, g) info := by
  funext ⟨s, g'⟩
  by_cases hs : s = bd.currentSegmentFileNum
  · subst hs
    by_cases hg' : g' = g
    · subst hg'
      simp [infos, hg]
    · rw [update_of_ne (by simpa using hg')]
      simp [infos, getElem?_set_ne (Ne.symm hg')]
  · rw [update_of_ne (by simp [hs])]
    simp [infos, hs]

theorem writeMinipage_eq {info : MinipagePerColumnGroup} (hne : info.minipage ≠ []) :
    bd.writeMinipage g info = (catalogTupleWrite bd.blkdirRel bd.ownRows info.tupleTid
        (rowOf bd.currentSegmentFileNum g info.minipage)).map fun (tid, rel) =>
          ({ info with tupleTid := some tid },
            { bd with blkdirRel := rel, ownRows := tid :: bd.ownRows }) := by
  obtain ⟨e, es, hcons⟩ := exists_cons_of_ne_nil hne
  unfold writeMinipage
  simp only [hcons, rowOf, head?_cons, map_some, getD_some]
  cases catalogTupleWrite bd.blkdirRel bd.ownRows info.tupleTid
    ⟨bd.currentSegmentFileNum, g, e.firstRowNum, e :: es⟩ <;> rfl

structure SameShape (bd bd' : AppendOnlyBlockDirectory) : Prop where
  segno : bd'.currentSegmentFileNum = bd.currentSegmentFileNum
  natts : bd'.natts = bd.natts
  length : bd'.minipages.length = bd.minipages.length

section

variable (hinv : bd.Inv size l) (hsize : 1 ≤ size) (hmax : size ≤ numMinipageEntries)
  (hg : g < bd.minipages.length)
include hinv hsize hmax hg

/-- **Inserting an entry** appends it to the log. -/
theorem insertNewEntry_ok (hasc : Ascending ((l (bd.currentSegmentFileNum, g)).entries ++ [e])) :
    ∃ bd' tid, bd.insertNewEntry size g e false = .ok (true, bd') ∧ SameShape bd bd' ∧
      bd'.infos = Function.update bd.infos (bd.currentSegmentFileNum, g)
        ⟨((l (bd.currentSegmentFileNum, g)).push size e).last, tid⟩ ∧
      bd'.Inv size (Function.update l (bd.currentSegmentFileNum, g)
        ((l (bd.currentSegmentFileNum, g)).push size e)) := by
  set p : ℕ × ℕ := (bd.currentSegmentFileNum, g) with hp
  have hcount : ¬ e.rowCount = 0 := (hasc.2 e (by simp)).ne'
  have hgroup := hinv.group p
  have hroom := (hgroup.ok.turn hsize).2
  have hlast : (bd.infos p).minipage = (l p).last := hgroup.last
  have hfits : (l p).last.length ≤ numMinipageEntries := hgroup.ok.last.trans hmax
  by_cases hfull : (l p).last.length = size
  · -- the minipage is written and a new one is begun
    have hne : (bd.infos p).minipage ≠ [] := by
      rw [hlast]
      rintro hnil
      rw [hnil, length_nil] at hfull
      omega
    obtain ⟨rel', hwrite, -, hinv'⟩ := hinv.write p (hlast ▸ hne)
      (hgroup.ascending : Ascending ((l p).closed.flatten ++ (l p).last))
    have hturn : (l p).turn size = ⟨(l p).closed ++ [(l p).last], []⟩ := if_pos hfull
    have hinv₁ := (hinv' rfl).append p (e := e) (by
      rw [update_self]
      exact lt_of_lt_of_le zero_lt_one hsize) (by simpa [entries] using hasc)
    simp only [update_self, update_idem, nil_append] at hinv₁
    refine ⟨{ bd with
        blkdirRel := rel'
        ownRows := bd.blkdirRel.length :: bd.ownRows
        minipages := bd.minipages.set g ⟨[e], none⟩ }, none, ?_, ⟨rfl, rfl, by simp⟩, ?_, ?_⟩
    · rw [← hlast] at hfull hwrite hfits
      have hwritten := @writeMinipage_eq bd g (bd.infos p) hne
      rw [hwrite] at hwritten
      simp only [insertNewEntry, if_neg hcount, minipageIndex, Bool.false_eq_true, if_false,
        infos_eq hg, ← hp, if_pos hfits, if_pos hfull, hwritten, Except.map, clearMinipage, length_nil,
        nil_append]
      rw [if_pos (by omega)]
    · rw [infos_set hg, push, hturn]
      rfl
    · rw [Inv, infos_set hg, push, hturn]
      exact hinv₁
  · have hturn : (l p).turn size = l p := if_neg hfull
    rw [hturn] at hroom
    refine ⟨{ bd with
        minipages := bd.minipages.set g ⟨(l p).last ++ [e], (bd.infos p).tupleTid⟩ },
      (bd.infos p).tupleTid, ?_, ⟨rfl, rfl, by simp⟩, ?_, ?_⟩
    · simp only [insertNewEntry, if_neg hcount, minipageIndex, Bool.false_eq_true, if_false,
        infos_eq hg, ← hp, hlast, if_pos hfits, if_neg hfull]
      rw [if_pos hroom]
    · rw [infos_set hg, push, hturn]
    · rw [Inv, infos_set hg, push, hturn]
      exact hinv.append p hroom hasc

/-- **A placeholder** is written and forgotten: at most the last page of the log is closed. -/
theorem insertPlaceholder_ok (hnatts : g < bd.natts) {firstRowNum fileOffset : ℕ}
    (hfirst : 0 < firstRowNum)
    (hasc : Ascending ((l (bd.currentSegmentFileNum, g)).entries ++
      [⟨firstRowNum, fileOffset, maxRowNum⟩])) :
    ∃ bd' tid, bd.insertPlaceholder size firstRowNum fileOffset g = .ok bd' ∧ SameShape bd bd' ∧
      bd'.infos = Function.update bd.infos (bd.currentSegmentFileNum, g)
        ⟨((l (bd.currentSegmentFileNum, g)).turn size).last, some tid⟩ ∧
      bd'.Inv size (Function.update l (bd.currentSegmentFileNum, g)
        ((l (bd.currentSegmentFileNum, g)).turn size)) := by
  set p : ℕ × ℕ := (bd.currentSegmentFileNum, g) with hp
  obtain ⟨bd₁, _, hinsert, hshape, hinfos₁, hinv₁⟩ := insertNewEntry_ok hinv hsize hmax hg hasc
  rw [← hp] at hinfos₁ hinv₁
  have hp₁ : (bd₁.currentSegmentFileNum, g) = p := by rw [hshape.segno]
  have hg₁ : g < bd₁.minipages.length := by rw [hshape.length]; exact hg
  have hgroup₁ := hinv₁.group p
  have hlast₁ : (bd₁.infos p).minipage =
      ((l p).turn size).last ++ [⟨firstRowNum, fileOffset, maxRowNum⟩] := by
    rw [hgroup₁.last, update_self, push]
  have hne : (bd₁.infos p).minipage ≠ [] := by simp [hlast₁]
  obtain ⟨rel', hwrite, hinv₂, -⟩ := hinv₁.write p (hgroup₁.last ▸ hne) hgroup₁.ascending
  have hinv₃ := hinv₂.dropLast p
  simp only [update_self, update_idem, push, dropLast_concat] at hinv₃
  refine ⟨{ bd₁ with
      blkdirRel := rel'
      ownRows := []
      minipages := bd₁.minipages.set g ⟨((l p).turn size).last, some bd₁.blkdirRel.length⟩ },
    bd₁.blkdirRel.length, ?_, ⟨hshape.segno, hshape.natts, by simp [hshape.length]⟩, ?_, ?_⟩
  · have hwritten : bd₁.writeMinipage g (bd₁.infos p) =
        .ok (⟨(bd₁.infos p).minipage, some bd₁.blkdirRel.length⟩, { bd₁ with
          blkdirRel := rel', ownRows := bd₁.blkdirRel.length :: bd₁.ownRows }) := by
      rw [writeMinipage_eq hne, hshape.segno, hgroup₁.last, hwrite]
      rfl
    simp only [insertPlaceholder, hfirst, hnatts, and_self, if_true, hinsert, infos_eq hg₁, hp₁,
      hwritten, hlast₁, dropLast_concat]
  · rw [infos_set hg₁, hp₁, hinfos₁, update_idem]
  · rw [Inv, infos_set hg₁, hp₁]
    exact hinv₃

end

/-! ### The end of a command -/

theorem writeAll_ok {rest : List MinipagePerColumnGroup} {k : ℕ}
    {info : ℕ × ℕ → MinipagePerColumnGroup} (h : DirInv size bd.blkdirRel bd.ownRows info l)
    (hrest : ∀ j i, rest[j]? = some i → info (bd.currentSegmentFileNum, k + j) = i)
    (hother : ∀ p, (∀ j < rest.length, p ≠ (bd.currentSegmentFileNum, k + j)) → info p = ⟨[], none⟩)
    (hdangling : ∀ p, (info p).minipage = [] → (info p).tupleTid = none) :
    ∃ bd', bd.writeAll k rest = .ok bd' ∧
      DirInv size bd'.blkdirRel bd'.ownRows (fun _ => ⟨[], none⟩) fun p => ⟨(l p).close, []⟩ := by
  induction rest generalizing k bd info l with
  | nil =>
    have hinfo : info = fun _ => ⟨[], none⟩ := funext fun p => hother p (by simp)
    subst hinfo
    refine ⟨bd, rfl, h.unique, fun p => ?_⟩
    have hg := h.group p
    have hclose : (l p).close = (l p).closed := if_pos hg.last.symm
    rw [hclose]
    refine ⟨hg.holds, rfl, by simp, ⟨hg.ok.closed, by simp⟩, ?_⟩
    simpa [entries, ← hg.last] using hg.ascending
  | cons i rest ih =>
    set p : ℕ × ℕ := (bd.currentSegmentFileNum, k) with hp
    have hi : info p = i := hrest 0 i rfl
    have hg := h.group p
    -- what is left to do after this column group
    have hstep : ∀ bd₁ : AppendOnlyBlockDirectory,
        bd₁.currentSegmentFileNum = bd.currentSegmentFileNum →
        DirInv size bd₁.blkdirRel bd₁.ownRows (Function.update info p ⟨[], none⟩)
          (Function.update l p ⟨(l p).close, []⟩) →
        ∃ bd', bd₁.writeAll (k + 1) rest = .ok bd' ∧ DirInv size bd'.blkdirRel bd'.ownRows
          (fun _ => ⟨[], none⟩) fun p => ⟨(l p).close, []⟩ := by
      intro bd₁ hseg h₁
      obtain ⟨bd', hrun, h'⟩ := ih h₁ (by
        intro j i hj
        have hne : (bd.currentSegmentFileNum, k + 1 + j) ≠ p := fun heq => by
          have hk := congrArg snd heq
          simp only [hp] at hk
          omega
        rw [hseg, update_of_ne hne, add_assoc, add_comm 1 j]
        exact hrest (j + 1) i (by simpa using hj)) (by
        intro q hq
        by_cases hqp : q = p
        · rw [hqp, update_self]
        · rw [update_of_ne hqp]
          refine hother q fun j hj heq => ?_
          cases j with
          | zero => exact hqp heq
          | succ j =>
            refine hq j (by simpa using hj) ?_
            rw [heq, hseg, add_assoc, add_comm 1 j]) (by
        intro q hq
        by_cases hqp : q = p
        · rw [hqp, update_self]
        · rw [update_of_ne hqp] at hq ⊢
          exact hdangling q hq)
      refine ⟨bd', hrun, ?_⟩
      have hclose : (fun q => (⟨(Function.update l p ⟨(l p).close, []⟩ q).close, []⟩ :
          PagedLog MinipageEntry)) = fun q => ⟨(l q).close, []⟩ := by
        funext q
        by_cases hqp : q = p
        · rw [hqp, update_self]
          rfl
        · rw [update_of_ne hqp]
      rwa [hclose] at h'
    rw [writeAll]
    by_cases hempty : i.minipage = []
    · -- nothing in memory, and no row either
      rw [if_neg (by simp [hempty])]
      refine hstep bd rfl (DirInv.update h.unique ?_ fun q _ => h.group q)
      have htid : i.tupleTid = none := hi ▸ hdangling p (hi ▸ hempty)
      have hlast : (l p).last = [] := by rw [← hg.last, hi, hempty]
      have hclose : (l p).close = (l p).closed := if_pos hlast
      have hholds := hg.holds
      rw [hi, htid] at hholds
      rw [hclose]
      refine ⟨hholds, rfl, by simp, ⟨hg.ok.closed, by simp⟩, ?_⟩
      simpa [entries, hlast] using hg.ascending
    · rw [if_pos (length_pos_iff.2 hempty)]
      have hlast : (l p).last ≠ [] := by rw [← hg.last, hi]; exact hempty
      have hclose : (l p).close = (l p).closed ++ [(l p).last] := if_neg hlast
      obtain ⟨rel', hwrite, -, h'⟩ := h.write p hlast hg.ascending
      have hwritten : bd.writeMinipage k i = .ok (⟨i.minipage, some bd.blkdirRel.length⟩,
          { bd with blkdirRel := rel', ownRows := bd.blkdirRel.length :: bd.ownRows }) := by
        rw [← hg.last, hi] at hwrite
        rw [writeMinipage_eq hempty, hwrite]
        rfl
      have h₁ := h' rfl
      rw [← hclose] at h₁
      obtain ⟨bd', hrun, hinv'⟩ := hstep { bd with
        blkdirRel := rel', ownRows := bd.blkdirRel.length :: bd.ownRows } rfl h₁
      exact ⟨bd', by simp only [hwritten, hrun], hinv'⟩

/-! ### The beginning of a command -/

/-- The relation between commands: every page is closed. -/
def Stored (size : ℕ) (rel : Heap BlkdirTuple) (pages : ℕ × ℕ → List (List MinipageEntry)) : Prop :=
  DirInv size rel [] (fun _ => ⟨[], none⟩) fun p => ⟨pages p, []⟩

theorem stored_nil (size : ℕ) : Stored size [] fun _ => [] := by
  refine ⟨?_, fun p => ⟨⟨?_, by simp⟩, rfl, by simp, ⟨by simp, by simp⟩, ?_⟩⟩
  · intro i j t u hl
    simp [Live] at hl
  · intro t _ _
    simp [Live]
  · simp [entries, Ascending]

variable {rel : Heap BlkdirTuple} {pages : ℕ × ℕ → List (List MinipageEntry)}

theorem Stored.ascending (h : Stored size rel pages) (p : ℕ × ℕ) :
    Ascending (pages p).flatten := by
  simpa [entries] using (h.group p).ascending

theorem loadLastMinipage_ok (h : Stored size rel pages) (p : ℕ × ℕ) {lastSequence : ℕ}
    (halloc : ∀ e ∈ (pages p).flatten, e.firstRowNum + e.rowCount ≤ lastSequence + 1) :
    GroupInv size rel [] p (loadLastMinipage rel p.1 lastSequence p.2) (reopen (pages p)) ∧
      ((loadLastMinipage rel p.1 lastSequence p.2).minipage = [] →
        (loadLastMinipage rel p.1 lastSequence p.2).tupleTid = none) := by
  obtain ⟨s, g⟩ := p
  have hg := h.group (s, g)
  have hpages := hg.ok.closed
  have hasc := h.ascending (s, g)
  -- every row of the segment file and column group is in the range of the scan
  have hrange : ∀ page ∈ pages (s, g), ∀ n, (n = if lastSequence = 0 then 1 else lastSequence) →
      (rowOf s g page).firstRowNum ≤ n := by
    intro page hpage n hn
    obtain ⟨e, es, rfl⟩ := exists_cons_of_ne_nil (Ok.ne_nil hg.ok page hpage)
    have hmem : e ∈ (pages (s, g)).flatten := mem_flatten.2 ⟨e :: es, hpage, mem_cons_self ..⟩
    have hle := halloc e hmem
    have hpos := hasc.2 e hmem
    simp only [rowOf, head?_cons, map_some, getD_some]
    split_ifs at hn <;> omega
  have hrows : ∀ i (t : BlkdirTuple), t.segno = s → t.columnGroupNo = g → Live rel i t →
      ∃ page ∈ pages (s, g), t = rowOf s g page := fun i t hs ht hl =>
    (hg.holds.rows t hs ht).1 ⟨i, hl, by simp⟩
  unfold loadLastMinipage
  dsimp only
  rcases hscan : scanBackward rel s g (if lastSequence = 0 then 1 else lastSequence)
    with _ | ⟨tid, t⟩
  · -- there is no row, so there are no pages
    have hnil : pages (s, g) = [] := by
      refine eq_nil_iff_forall_not_mem.2 fun page hpage => ?_
      obtain ⟨i, hl, -⟩ := hg.holds.live hpage
      rw [scanBackward, argmax_eq_none, filter_eq_nil_iff] at hscan
      have hno := hscan (i, rowOf s g page) (mem_rows.2 hl)
      simp only [decide_eq_true_eq, not_and] at hno
      exact hno rfl rfl (hrange page hpage _ rfl)
    have hgroup := hg
    rw [hnil] at hgroup ⊢
    exact ⟨hgroup, fun _ => rfl⟩
  · rw [scanBackward] at hscan
    have hmem := argmax_mem hscan
    have hmax := fun row hrow => le_of_mem_argmax (a := row) hrow hscan
    rw [mem_filter, mem_rows, decide_eq_true_eq] at hmem
    obtain ⟨hl, hs, hgt, -⟩ := hmem
    obtain ⟨page, hpage, rfl⟩ := hrows tid t hs hgt hl
    -- the row with the greatest key is that of the last page
    rcases eq_nil_or_concat' (pages (s, g)) with hnil | ⟨init, last, hsplit⟩
    · rw [hnil] at hpage
      cases hpage
    have hasc' : Ascending (init.flatten ++ last) := by simpa [hsplit] using hasc
    have hlastmem : last ∈ pages (s, g) := by simp [hsplit]
    have hlastne := Ok.ne_nil hg.ok last hlastmem
    have hkeys : ∀ q ∈ init, (rowOf s g q).firstRowNum < (rowOf s g last).firstRowNum :=
      fun q hq => hasc'.key_lt hlastne hq
        (Ok.ne_nil hg.ok q (by simp [hsplit, hq])) s g
    obtain rfl : page = last := by
      by_contra hne
      obtain ⟨i, hli, -⟩ := hg.holds.live hlastmem
      have hle := hmax (i, rowOf s g last) (by
        rw [mem_filter, mem_rows, decide_eq_true_eq]
        exact ⟨hli, rfl, rfl, hrange last hlastmem _ rfl⟩)
      have hin : page ∈ init := by simpa [hsplit, hne] using hpage
      have hlt := hkeys page hin
      dsimp only at hle
      omega
    have hreopen : reopen (pages (s, g)) = ⟨init, page⟩ := by simp [reopen, hsplit]
    refine ⟨⟨⟨fun t hs ht => ?_, fun i hi => ?_⟩, ?_, by simp, ok_reopen hpages, ?_⟩,
      fun hnil => absurd hnil hlastne⟩
    · rw [hreopen]
      constructor
      · rintro ⟨i, hli, hne⟩
        obtain ⟨q, hq, rfl⟩ := hrows i t hs ht hli
        refine ⟨q, ?_, rfl⟩
        rw [hsplit, mem_append, mem_singleton] at hq
        rcases hq with hq | rfl
        · exact hq
        · exact absurd (congrArg some (h.unique hl hli rfl)) hne
      · rintro ⟨q, hq, rfl⟩
        have hmem : q ∈ pages (s, g) := by simp [hsplit, hq]
        obtain ⟨i, hli, -⟩ := hg.holds.live hmem
        refine ⟨i, hli, fun heq => ?_⟩
        cases heq
        have hlt := hkeys q hq
        rw [hl.unique hli] at hlt
        exact lt_irrefl _ hlt
    · cases hi
      exact ⟨_, hl, rfl, rfl⟩
    · rw [hreopen]
      rfl
    · rw [entries_reopen]
      exact hasc

theorem infos_initForInsert (s lastSequence natts n : ℕ) (p : ℕ × ℕ) :
    (initForInsert rel lastSequence s natts n).infos p =
      if p.1 = s ∧ p.2 < n then loadLastMinipage rel s lastSequence p.2 else ⟨[], none⟩ := by
  unfold infos initForInsert
  by_cases hs : p.1 = s
  · by_cases hn : p.2 < n
    · simp [hs, hn]
    · simp [hs, hn]
  · simp [hs]

def opened (pages : ℕ × ℕ → List (List MinipageEntry)) (s n : ℕ) (p : ℕ × ℕ) :
    PagedLog MinipageEntry :=
  if p.1 = s ∧ p.2 < n then reopen (pages p) else ⟨pages p, []⟩

theorem entries_opened (s n : ℕ) (p : ℕ × ℕ) : (opened pages s n p).entries = (pages p).flatten := by
  unfold opened
  split_ifs
  · exact entries_reopen _
  · simp [entries]

/-- **`Init_forInsert`** opens the last page of each column group of the segment file. -/
theorem initForInsert_ok (h : Stored size rel pages) {s lastSequence natts n : ℕ}
    (halloc : ∀ g, ∀ e ∈ (pages (s, g)).flatten, e.firstRowNum + e.rowCount ≤ lastSequence + 1) :
    (initForInsert rel lastSequence s natts n).Inv size (opened pages s n) ∧
      ∀ p, ((initForInsert rel lastSequence s natts n).infos p).minipage = [] →
        ((initForInsert rel lastSequence s natts n).infos p).tupleTid = none := by
  refine ⟨⟨h.unique, fun p => ?_⟩, fun p => ?_⟩
  · rw [infos_initForInsert, opened]
    by_cases hp : p.1 = s ∧ p.2 < n
    · rw [if_pos hp, if_pos hp]
      obtain ⟨rfl, -⟩ := hp
      exact (loadLastMinipage_ok h p (halloc p.2)).1
    · rw [if_neg hp, if_neg hp]
      exact h.group p
  · rw [infos_initForInsert]
    split_ifs with hp
    · obtain ⟨rfl, -⟩ := hp
      exact (loadLastMinipage_ok h p (halloc p.2)).2
    · exact fun _ => rfl

end AppendOnlyBlockDirectory

/-! ### Whole commands -/

/-- The non-empty entry a call inserts into a column group. -/
def BlkdirCall.entry (g : ℕ) : BlkdirCall → Option MinipageEntry
  | .insertPlaceholder .. => none
  | .insertEntry g' e => if g' = g ∧ e.rowCount ≠ 0 then some e else none

/-- The non-empty entries a command inserts into a column group. -/
def InsertCommand.entries (cmd : InsertCommand) (g : ℕ) : List MinipageEntry :=
  cmd.calls.filterMap (BlkdirCall.entry g)

/-- The non-empty entries a series of commands inserts into a segment file and column group. -/
def inserted (s g : ℕ) (cmds : List InsertCommand) : List MinipageEntry :=
  (cmds.filter fun cmd => cmd.segno = s).flatMap fun cmd => cmd.entries g

/-- What is assumed of a command on a segment file in which `stored` was inserted before: the
row ranges of a column group increase and do not overlap, the last allocated row number is
between the rows inserted before and the new ones, and a placeholder comes before the other
calls for its column group. -/
structure InsertCommand.Ok (cmd : InsertCommand) (stored : ℕ → List MinipageEntry) : Prop where
  groups : ∀ c ∈ cmd.calls, c.columnGroupNo < cmd.numColumnGroups
  allocated : ∀ g, ∀ e ∈ stored g, e.firstRowNum + e.rowCount ≤ cmd.lastSequence + 1
  increasing : ∀ g, (cmd.entries g).Pairwise fun a b => a.firstRowNum + a.rowCount ≤ b.firstRowNum
  above : ∀ g, ∀ e ∈ cmd.entries g, cmd.lastSequence < e.firstRowNum
  placeholder : ∀ pre firstRowNum fileOffset g post,
    cmd.calls = pre ++ .insertPlaceholder firstRowNum fileOffset g :: post →
      cmd.lastSequence < firstRowNum ∧ g < cmd.natts ∧ ∀ c ∈ pre, c.columnGroupNo ≠ g

/-- After a placeholder at least one non-empty entry is inserted. -/
def InsertCommand.Replaces (cmd : InsertCommand) : Prop :=
  ∀ pre firstRowNum fileOffset g post,
    cmd.calls = pre ++ .insertPlaceholder firstRowNum fileOffset g :: post →
      ∃ e, .insertEntry g e ∈ post ∧ e.rowCount ≠ 0

theorem BlkdirCall.entry_of_ne {g : ℕ} {c : BlkdirCall} (h : c.columnGroupNo ≠ g) :
    c.entry g = none := by
  cases c with
  | insertPlaceholder => rfl
  | insertEntry => exact if_neg fun hc => h hc.1

theorem BlkdirCall.entry_pos {g : ℕ} {c : BlkdirCall} (h : c.entry g = some e) :
    0 < e.rowCount := by
  cases c with
  | insertPlaceholder => cases h
  | insertEntry g' e' =>
    rw [BlkdirCall.entry] at h
    split_ifs at h with hc
    cases h
    omega

theorem InsertCommand.Ok.ascending {cmd : InsertCommand} {stored : ℕ → List MinipageEntry}
    (hok : cmd.Ok stored) {g : ℕ} (hstored : Ascending (stored g)) :
    Ascending (stored g ++ cmd.entries g) := by
  have hpos : ∀ e ∈ cmd.entries g, 0 < e.rowCount := by
    intro e he
    obtain ⟨c, -, hc⟩ := mem_filterMap.1 he
    exact BlkdirCall.entry_pos hc
  refine ⟨pairwise_append.2 ⟨hstored.1, hok.increasing g, fun a ha b hb => ?_⟩, fun e he => ?_⟩
  · have hle := hok.allocated g a ha
    have hlt := hok.above g b hb
    omega
  · rcases mem_append.1 he with he | he
    · exact hstored.2 e he
    · exact hpos e he

variable {pages : ℕ × ℕ → List (List MinipageEntry)} {rel : Heap BlkdirTuple}

namespace AppendOnlyBlockDirectory

variable {size : ℕ} {bd : AppendOnlyBlockDirectory} {l : ℕ × ℕ → PagedLog MinipageEntry}
  {cmd : InsertCommand} {stored : ℕ → List MinipageEntry}

/-- What holds after the calls `done`, with `rest` to come: a row of an empty minipage is that
of a placeholder, which is to be replaced. -/
structure Running (size : ℕ) (cmd : InsertCommand) (stored : ℕ → List MinipageEntry)
    (done rest : List BlkdirCall) (bd : AppendOnlyBlockDirectory)
    (l : ℕ × ℕ → PagedLog MinipageEntry) : Prop where
  inv : bd.Inv size l
  segno : bd.currentSegmentFileNum = cmd.segno
  natts : bd.natts = cmd.natts
  length : bd.minipages.length = cmd.numColumnGroups
  entries : ∀ g, (l (cmd.segno, g)).entries = stored g ++ done.filterMap (BlkdirCall.entry g)
  dangling : ∀ p, (bd.infos p).minipage = [] → (bd.infos p).tupleTid ≠ none →
    p.1 = cmd.segno ∧ ∃ e, .insertEntry p.2 e ∈ rest ∧ e.rowCount ≠ 0

/-- What holds after a call that has changed only the log of its column group. -/
theorem Running.next {done rest : List BlkdirCall} {c : BlkdirCall}
    {bd' : AppendOnlyBlockDirectory} {info : MinipagePerColumnGroup} {log : PagedLog MinipageEntry}
    (hrun : Running size cmd stored done (c :: rest) bd l) (hshape : SameShape bd bd')
    (hinfos : bd'.infos = update bd.infos (cmd.segno, c.columnGroupNo) info)
    (hinv : bd'.Inv size (update l (cmd.segno, c.columnGroupNo) log))
    (hlog : log.entries =
      (l (cmd.segno, c.columnGroupNo)).entries ++ (c.entry c.columnGroupNo).toList)
    (hempty : info.minipage = [] → ∃ e, .insertEntry c.columnGroupNo e ∈ rest ∧ e.rowCount ≠ 0) :
    Running size cmd stored (done ++ [c]) rest bd' (update l (cmd.segno, c.columnGroupNo) log) := by
  refine ⟨hinv, hshape.segno.trans hrun.segno, hshape.natts.trans hrun.natts,
    hshape.length.trans hrun.length, fun g => ?_, fun p hnil htid => ?_⟩
  · rw [filterMap_append, ← append_assoc, ← hrun.entries]
    by_cases hg : c.columnGroupNo = g
    · subst hg
      rw [update_self, hlog]
      cases hentry : c.entry c.columnGroupNo <;> simp [hentry]
    · rw [update_of_ne (by simpa using Ne.symm hg)]
      simp [BlkdirCall.entry_of_ne hg]
  · rw [hinfos] at hnil htid
    by_cases hp : p = (cmd.segno, c.columnGroupNo)
    · subst hp
      rw [update_self] at hnil
      exact ⟨rfl, hempty hnil⟩
    · rw [update_of_ne hp] at hnil htid
      obtain ⟨hs, e, hmem, he⟩ := hrun.dangling p hnil htid
      refine ⟨hs, e, (mem_cons.1 hmem).resolve_left ?_, he⟩
      rintro rfl
      exact hp (Prod.ext hs rfl)

section

variable (hsize : 1 ≤ size) (hmax : size ≤ numMinipageEntries) (hok : cmd.Ok stored)
  (hrep : cmd.Replaces) (hstored : ∀ g, Ascending (stored g))
include hsize hmax hok hrep hstored

/-- **One call.** -/
theorem call_ok {done rest : List BlkdirCall} {c : BlkdirCall}
    (hcalls : cmd.calls = done ++ c :: rest)
    (hrun : Running size cmd stored done (c :: rest) bd l) :
    ∃ bd' l', bd.call size c = .ok bd' ∧ Running size cmd stored (done ++ [c]) rest bd' l' ∧
      ∀ p, p.1 ≠ cmd.segno → l' p = l p := by
  have hgroup : c.columnGroupNo < bd.minipages.length := by
    rw [hrun.length]
    exact hok.groups c (by simp [hcalls])
  have hother : ∀ g log p, p.1 ≠ cmd.segno → update l (cmd.segno, g) log p = l p :=
    fun g log p hp => update_of_ne (fun heq => hp (congrArg fst heq)) log l
  cases c with
  | insertPlaceholder firstRowNum fileOffset g =>
    rw [BlkdirCall.columnGroupNo] at hgroup
    obtain ⟨_, hnatts, hpre⟩ := hok.placeholder done firstRowNum fileOffset g rest hcalls
    have hnone : done.filterMap (BlkdirCall.entry g) = [] :=
      filterMap_eq_nil_iff.2 fun c hc => BlkdirCall.entry_of_ne (hpre c hc)
    have hentries := hrun.entries g
    rw [hnone, append_nil] at hentries
    have hasc : Ascending ((l (bd.currentSegmentFileNum, g)).entries ++
        [⟨firstRowNum, fileOffset, maxRowNum⟩]) := by
      rw [hrun.segno, hentries]
      refine ⟨pairwise_append.2 ⟨(hstored g).1, by simp, fun a ha b hb => ?_⟩, fun e he => ?_⟩
      · obtain rfl := mem_singleton.1 hb
        have hle := hok.allocated g a ha
        dsimp only
        omega
      · rcases mem_append.1 he with he | he
        · exact (hstored g).2 e he
        · obtain rfl := mem_singleton.1 he
          exact Nat.succ_pos _
    obtain ⟨bd', tid, hcall, hshape, hinfos, hinv⟩ := insertPlaceholder_ok hrun.inv hsize hmax
      hgroup (hrun.natts ▸ hnatts) (by omega) hasc
    rw [hrun.segno] at hinfos hinv
    refine ⟨bd', _, hcall, hrun.next hshape hinfos hinv ?_ fun _ => ?_, hother _ _⟩
    · simp [entries_turn, BlkdirCall.columnGroupNo, BlkdirCall.entry]
    · exact hrep done firstRowNum fileOffset g rest hcalls
  | insertEntry g e =>
    rw [BlkdirCall.columnGroupNo] at hgroup
    by_cases hzero : e.rowCount = 0
    · -- an empty entry is ignored
      refine ⟨bd, l, by simp [call, insertEntry, insertNewEntry, hzero, Except.map],
        ⟨hrun.inv, hrun.segno, hrun.natts, hrun.length, fun g' => ?_, fun p hnil htid => ?_⟩,
        fun _ _ => rfl⟩
      · rw [hrun.entries, filterMap_append]
        simp [BlkdirCall.entry, hzero]
      obtain ⟨hs, e', hmem, he'⟩ := hrun.dangling p hnil htid
      refine ⟨hs, e', ?_, he'⟩
      rcases mem_cons.1 hmem with heq | hmem
      · cases heq
        exact absurd hzero he'
      · exact hmem
    · have hasc : Ascending ((l (bd.currentSegmentFileNum, g)).entries ++ [e]) := by
        rw [hrun.segno, hrun.entries, append_assoc]
        refine (hok.ascending (hstored g)).sublist ((Sublist.refl _).append ?_)
        rw [InsertCommand.entries, hcalls, filterMap_append]
        refine (Sublist.refl _).append ?_
        have hentry : BlkdirCall.entry g (.insertEntry g e) = some e := if_pos ⟨rfl, hzero⟩
        rw [filterMap_cons_some hentry]
        exact (nil_sublist _).cons_cons e
      obtain ⟨bd', tid, hcall, hshape, hinfos, hinv⟩ :=
        insertNewEntry_ok hrun.inv hsize hmax hgroup hasc
      rw [hrun.segno] at hinfos hinv
      refine ⟨bd', _, by rw [call, insertEntry]; exact congrArg (Except.map snd) hcall,
        hrun.next hshape hinfos hinv ?_ fun hnil => ?_, hother _ _⟩
      · simp [entries_push, BlkdirCall.columnGroupNo, BlkdirCall.entry, hzero]
      · simp [push] at hnil

theorem calls_ok {done rest : List BlkdirCall} (hcalls : cmd.calls = done ++ rest)
    (hrun : Running size cmd stored done rest bd l) :
    ∃ bd' l', rest.foldlM (call size) bd = .ok bd' ∧
      Running size cmd stored cmd.calls [] bd' l' ∧ ∀ p, p.1 ≠ cmd.segno → l' p = l p := by
  induction rest generalizing done bd l with
  | nil =>
    rw [append_nil] at hcalls
    subst hcalls
    exact ⟨bd, l, rfl, hrun, fun _ _ => rfl⟩
  | cons c rest ih =>
    obtain ⟨_, _, hcall, hrun₁, hsame₁⟩ := call_ok hsize hmax hok hrep hstored hcalls hrun
    obtain ⟨bd', l', hfold, hrun', hsame'⟩ := ih (by simp [hcalls]) hrun₁
    refine ⟨bd', l', ?_, hrun', fun p hp => (hsame' p hp).trans (hsame₁ p hp)⟩
    rw [foldlM_cons, hcall]
    exact hfold

end

/-- **One command** appends its entries to the pages of its segment file. -/
theorem run_ok (hsize : 1 ≤ size) (hmax : size ≤ numMinipageEntries) (h : Stored size rel pages)
    (hok : cmd.Ok fun g => (pages (cmd.segno, g)).flatten) (hrep : cmd.Replaces) :
    ∃ rel' pages', cmd.run size rel = .ok rel' ∧ Stored size rel' pages' ∧ ∀ p, (pages' p).flatten =
        (pages p).flatten ++ if p.1 = cmd.segno then cmd.entries p.2 else [] := by
  obtain ⟨hinv, hclean⟩ := @initForInsert_ok size rel pages h cmd.segno cmd.lastSequence cmd.natts
    cmd.numColumnGroups hok.allocated
  have hstart : Running size cmd (fun g => (pages (cmd.segno, g)).flatten) [] cmd.calls
      (initForInsert rel cmd.lastSequence cmd.segno cmd.natts cmd.numColumnGroups)
      (opened pages cmd.segno cmd.numColumnGroups) :=
    ⟨hinv, rfl, rfl, by simp [initForInsert], fun g => by simp [entries_opened],
      fun p hnil htid => absurd (hclean p hnil) htid⟩
  obtain ⟨bd, l, hcalls, hrun, hsame⟩ :=
    calls_ok hsize hmax hok hrep (fun _ => h.ascending _) (nil_append _).symm hstart
  have hother : ∀ p, (∀ j < bd.minipages.length, p ≠ (bd.currentSegmentFileNum, 0 + j)) →
      bd.infos p = ⟨[], none⟩ := by
    intro p hp
    unfold infos
    split_ifs with hs
    · rw [getElem?_eq_none, getD_none]
      by_contra hlt
      exact hp p.2 (by omega) (Prod.ext hs (Nat.zero_add _).symm)
    · rfl
  have hdangling : ∀ p, (bd.infos p).minipage = [] → (bd.infos p).tupleTid = none := by
    intro p hnil
    by_contra htid
    obtain ⟨-, e, hmem, -⟩ := hrun.dangling p hnil htid
    cases hmem
  obtain ⟨bd', hend, hinv'⟩ := @writeAll_ok size bd l bd.minipages 0 bd.infos hrun.inv
    (fun j i hj => by simp [infos, hj]) hother hdangling
  refine ⟨bd'.blkdirRel, fun p => (l p).close, ?_, ⟨hinv'.unique, fun p => ?_⟩, fun p => ?_⟩
  · have hclosed : bd.endForInsert = .ok bd'.blkdirRel := by
      rw [endForInsert, hend]
      rfl
    rw [run, hcalls]
    exact hclosed
  · have hg := hinv'.group p
    exact ⟨hg.holds, hg.last, by simp, hg.ok, hg.ascending⟩
  · rw [flatten_close]
    split_ifs with hp
    · obtain ⟨s, g⟩ := p
      obtain rfl := hp
      exact hrun.entries g
    · rw [hsame p hp, entries_opened, append_nil]

end AppendOnlyBlockDirectory

/-! ### A series of commands -/

/-- The visible minipage rows of a segment file and column group, ordered by `firstRowNum`. -/
def visibleRows (rel : Heap BlkdirTuple) (s g : ℕ) : List BlkdirTuple :=
  (((rows rel).map Prod.snd).filter fun t => t.segno = s ∧ t.columnGroupNo = g).mergeSort
    fun t u => t.firstRowNum ≤ u.firstRowNum

theorem visibleRows_eq {size : ℕ} (h : Stored size rel pages) (s g : ℕ) :
    visibleRows rel s g = (pages (s, g)).map (rowOf s g) := by
  have hg := h.group (s, g)
  have hne : ∀ page ∈ pages (s, g), page ≠ [] := Ok.ne_nil hg.ok
  have hasc := h.ascending (s, g)
  have hsorted : ((pages (s, g)).map (rowOf s g)).Pairwise fun t u =>
      t.firstRowNum < u.firstRowNum := by
    rw [pairwise_map]
    refine (pairwise_flatten.1 hasc.1).2.imp_of_mem fun {a b} ha hb hab => ?_
    obtain ⟨x, xs, rfl⟩ := exists_cons_of_ne_nil (hne a ha)
    obtain ⟨y, ys, rfl⟩ := exists_cons_of_ne_nil (hne b hb)
    have hle := hab x (mem_cons_self ..) y (mem_cons_self ..)
    have hpos := hasc.2 x (mem_flatten.2 ⟨x :: xs, ha, mem_cons_self ..⟩)
    simp only [rowOf, head?_cons, map_some, getD_some]
    omega
  have hnodup : ((rows rel).map snd).Nodup := by
    refine (nodup_rows rel).map_on ?_
    rintro ⟨i, t⟩ hi ⟨j, u⟩ hj heq
    obtain rfl : t = u := heq
    rw [h.unique (mem_rows.1 hi) (mem_rows.1 hj) rfl]
  have hperm : (visibleRows rel s g).Perm ((pages (s, g)).map (rowOf s g)) := by
    refine (mergeSort_perm _ _).trans ((perm_ext_iff_of_nodup (hnodup.filter _) ?_).2 fun t => ?_)
    · refine hsorted.imp fun {t u} hlt heq => ?_
      rw [heq] at hlt
      exact lt_irrefl _ hlt
    simp only [List.mem_filter, List.mem_map, decide_eq_true_eq, Prod.exists, exists_eq_right]
    constructor
    · rintro ⟨⟨i, hi⟩, hs, ht⟩
      obtain ⟨page, hpage, rfl⟩ := (hg.holds.rows t hs ht).1 ⟨i, mem_rows.1 hi, by simp⟩
      exact ⟨page, hpage, rfl⟩
    · rintro ⟨page, hpage, rfl⟩
      obtain ⟨i, hl, -⟩ := hg.holds.live hpage
      exact ⟨⟨i, mem_rows.2 hl⟩, rfl, rfl⟩
  refine List.Perm.eq_of_pairwise (fun t u ht hu htu hut => ?_) ?_ (hsorted.imp le_of_lt) hperm
  · have hkey : t.firstRowNum = u.firstRowNum := le_antisymm htu hut
    obtain ⟨a, ha, rfl⟩ := List.mem_map.1 (hperm.subset ht)
    obtain ⟨b, hb, rfl⟩ := List.mem_map.1 hu
    obtain ⟨i, hi, -⟩ := hg.holds.live ha
    obtain ⟨j, hj, -⟩ := hg.holds.live hb
    obtain rfl := h.unique hi hj (by simp only [key, hkey]; rfl)
    exact hi.unique hj
  · refine (List.pairwise_mergeSort ?_ ?_ _).imp of_decide_eq_true
    · simpa using fun a b c => le_trans
    · simpa using fun a b => le_total _ _

/-- The commands come one after the other, each as `Ok` says for what was inserted before. -/
def SeriesOk (done : List InsertCommand) : List InsertCommand → Prop
  | [] => True
  | cmd :: cmds =>
    (cmd.Ok fun g => inserted cmd.segno g done) ∧ cmd.Replaces ∧ SeriesOk (done ++ [cmd]) cmds

theorem inserted_concat (s g : ℕ) (cmds : List InsertCommand) (cmd : InsertCommand) :
    inserted s g (cmds ++ [cmd]) =
      inserted s g cmds ++ if s = cmd.segno then cmd.entries g else [] := by
  unfold inserted
  by_cases hs : s = cmd.segno
  · simp [hs]
  · simp [hs, Ne.symm hs]

theorem series_ok {size : ℕ} (hsize : 1 ≤ size) (hmax : size ≤ numMinipageEntries)
    {done cmds : List InsertCommand} (h : Stored size rel pages)
    (hpages : ∀ p, (pages p).flatten = inserted p.1 p.2 done) (hok : SeriesOk done cmds) :
    ∃ rel' pages', cmds.foldlM (run size) rel = .ok rel' ∧ Stored size rel' pages' ∧
      ∀ p, (pages' p).flatten = inserted p.1 p.2 (done ++ cmds) := by
  induction cmds generalizing done rel pages with
  | nil => exact ⟨rel, pages, rfl, h, by simpa using hpages⟩
  | cons cmd cmds ih =>
    obtain ⟨hcmd, hrep, hrest⟩ := hok
    have hcmd' : cmd.Ok fun g => (pages (cmd.segno, g)).flatten := by
      simpa only [hpages] using hcmd
    obtain ⟨_, _, hrun, h₁, hpages₁⟩ := run_ok hsize hmax h hcmd' hrep
    obtain ⟨rel', pages', hfold, h', hpages'⟩ := ih h₁ (fun p => by
      rw [hpages₁, hpages, inserted_concat]) hrest
    refine ⟨rel', pages', ?_, h', fun p => ?_⟩
    · rw [foldlM_cons, hrun]
      exact hfold
    · rw [hpages', append_assoc, singleton_append]

theorem placeholder_of_head {cmd : InsertCommand} {f o g : ℕ} {es : List BlkdirCall}
    (hcalls : cmd.calls = .insertPlaceholder f o g :: es)
    (hes : ∀ f o g, BlkdirCall.insertPlaceholder f o g ∉ es) {pre post : List BlkdirCall}
    {f' o' g' : ℕ} (hsplit : cmd.calls = pre ++ .insertPlaceholder f' o' g' :: post) :
    pre = [] ∧ f' = f ∧ g' = g ∧ post = es := by
  rw [hcalls] at hsplit
  rcases pre with _ | ⟨c, pre⟩
  · cases hsplit
    exact ⟨rfl, rfl, rfl, rfl⟩
  · rw [cons_append, cons.injEq] at hsplit
    exact absurd (by rw [hsplit.2]; simp) (hes f' o' g')

/-- **The block directory stores what was inserted.**  After any series of insert commands in
which every placeholder is followed by a non-empty entry, the visible minipage rows of a segment
file and column group, ordered by `firstRowNum`, hold the inserted non-empty entries in order;
every minipage has between 1 and `gp_blockdirectory_minipage_size` entries, its key is the first
row number of its first entry, and no entry is one that was not inserted. -/
theorem blockDirectory_stores_inserted {size : ℕ} (hsize : 1 ≤ size)
    (hmax : size ≤ numMinipageEntries) (cmds : List InsertCommand) (hok : SeriesOk [] cmds) :
    ∃ rel, cmds.foldlM (InsertCommand.run size) [] = .ok rel ∧ ∀ s g,
      (visibleRows rel s g).flatMap BlkdirTuple.minipage = inserted s g cmds ∧
      ∀ row ∈ visibleRows rel s g, 1 ≤ row.minipage.length ∧ row.minipage.length ≤ size ∧
        row.minipage.head?.map MinipageEntry.firstRowNum = some row.firstRowNum ∧
        ∀ e ∈ row.minipage, e ∈ inserted s g cmds := by
  obtain ⟨rel, pages, hrun, h, hpages⟩ := series_ok hsize hmax
    (stored_nil size) (fun p => by simp [inserted]) hok
  refine ⟨rel, hrun, fun s g => ?_⟩
  have hflat : (pages (s, g)).flatten = inserted s g cmds := hpages (s, g)
  rw [visibleRows_eq h s g]
  refine ⟨?_, fun row hrow => ?_⟩
  · rw [← hflat, flatMap_map, ← flatMap_id]
    rfl
  obtain ⟨page, hpage, rfl⟩ := mem_map.1 hrow
  have hg := h.group (s, g)
  obtain ⟨hmin, hlen⟩ := hg.ok.closed page hpage
  obtain ⟨e, es, rfl⟩ := exists_cons_of_ne_nil (Ok.ne_nil hg.ok page hpage)
  refine ⟨hmin, hlen, rfl, fun e' he' => ?_⟩
  rw [← hflat]
  exact mem_flatten.2 ⟨e :: es, hpage, he'⟩

/-- Two commands, each with a placeholder, of which the second fills up the first's row. -/
theorem blockDirectory_stores_two_commands : ∃ rel, List.foldlM (InsertCommand.run 2) []
        [⟨1, 0, 1, 1, [.insertPlaceholder 1 0 0, .insertEntry 0 ⟨1, 0, 5⟩]⟩,
          ⟨1, 5, 1, 1, [.insertPlaceholder 6 96 0, .insertEntry 0 ⟨6, 96, 3⟩,
            .insertEntry 0 ⟨9, 160, 1⟩]⟩] = .ok rel ∧
      (visibleRows rel 1 0).flatMap BlkdirTuple.minipage =
        [⟨1, 0, 5⟩, ⟨6, 96, 3⟩, ⟨9, 160, 1⟩] := by
  have hok : SeriesOk []
      [⟨1, 0, 1, 1, [.insertPlaceholder 1 0 0, .insertEntry 0 ⟨1, 0, 5⟩]⟩,
        ⟨1, 5, 1, 1, [.insertPlaceholder 6 96 0, .insertEntry 0 ⟨6, 96, 3⟩,
          .insertEntry 0 ⟨9, 160, 1⟩]⟩] := by
    refine ⟨⟨by decide, ?_, fun g => ?_, fun g => ?_, ?_⟩, ?_,
      ⟨by decide, fun g => ?_, fun g => ?_, fun g => ?_, ?_⟩, ?_, trivial⟩
    -- nothing is inserted in another column group
    any_goals
      rcases g with _ | g
      · decide
      · simp [inserted, InsertCommand.entries, filterMap_cons, BlkdirCall.entry]
    · simp [inserted]
    all_goals
      intro pre f o g post hsplit
      obtain ⟨rfl, rfl, rfl, rfl⟩ := placeholder_of_head rfl (by simp) hsplit
    · simp
    · exact ⟨⟨1, 0, 5⟩, by simp, by decide⟩
    · simp
    · exact ⟨⟨6, 96, 3⟩, by simp, by decide⟩
  obtain ⟨rel, hrun, hrows⟩ := blockDirectory_stores_inserted (by decide : 1 ≤ 2) (by decide) _ hok
  exact ⟨rel, hrun, (hrows 1 0).1.trans (by decide)⟩

/-- **A placeholder with no rows after it is left.**  `InsertEntry` with a row count of 0 is
ignored, so with nothing else after the placeholder `End_forInsert` finds the minipage empty and
does not write it. -/
theorem placeholder_left : ∃ (cmd : InsertCommand) (rel : Heap BlkdirTuple),
      cmd.calls = [.insertPlaceholder 1 0 0, .insertEntry 0 ⟨1, 0, 0⟩] ∧
      (cmd.Ok fun g => inserted cmd.segno g []) ∧
      cmd.run numMinipageEntries [] = .ok rel ∧ inserted cmd.segno 0 [cmd] = [] ∧
      visibleRows rel cmd.segno 0 = [⟨cmd.segno, 0, 1, [⟨1, 0, AOTupleId.maxRowNum⟩]⟩] := by
  refine ⟨⟨1, 0, 1, 1, [.insertPlaceholder 1 0 0, .insertEntry 0 ⟨1, 0, 0⟩]⟩,
    [⟨⟨1, 0, 1, [⟨1, 0, maxRowNum⟩]⟩, none⟩], rfl,
    ⟨by decide, by simp [inserted], fun g => ?_, fun g => ?_, ?_⟩, rfl, by decide, ?_⟩
  · simp [InsertCommand.entries, filterMap_cons, BlkdirCall.entry]
  · simp [InsertCommand.entries, filterMap_cons, BlkdirCall.entry]
  · intro pre f o g post hsplit
    obtain ⟨rfl, rfl, rfl, -⟩ := placeholder_of_head rfl (by simp) hsplit
    simp
  · simp [visibleRows, rows]

end Cloudberry.AppendOnly
