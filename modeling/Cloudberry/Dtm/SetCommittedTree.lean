/-
# Recording a committed transaction tree

`DistributedLog_SetCommittedTree` (`distributedlog.c`) records the gxid of a transaction and
its subtransactions in the pages of the distributed log. The subtransactions are taken in
runs of neighbours on one page, so that each run costs one page access.

The runs are the maximal ones, but two things go wrong. The loop that measures a run tests the
page of `subxids[i]` before it tests `i < nsubxids`, so at the end of the array it reads the
element behind it; `TransactionIdSetTreeStatus` of `clog.c`, after which it is made, tests the
bound first. And in replay each access looks in the file for its page and zeroes it in the buffer
if it is not there. A page that has been set up by an earlier access, but not been written to the
file yet, is zeroed again, and what was recorded in it is lost (`Lost`).
-/

import Cloudberry.Dtm.DistributedLog
import Mathlib.Data.List.SplitBy
import Mathlib.Data.List.TakeWhile

namespace Cloudberry.Dtm

open List Function

/-- `ENTRIES_PER_PAGE`: eight bytes for each transaction in a block of 32 kB. -/
def entriesPerPage : ℕ := 32768 / 8

/-- `TransactionIdToPage`. -/
def transactionIdToPage (localXid : TransactionId) : ℕ := localXid.toNat / entriesPerPage

/-- `TransactionIdToEntry`. -/
def transactionIdToEntry (localXid : TransactionId) : ℕ := localXid.toNat % entriesPerPage

/-- The pages of the log, as far as they are in the shared buffers and in the files of the SLRU
(`slru.c`); entry 0 of a page means nothing recorded. -/
structure LogPages where
  buffer : ℕ → Option (ℕ → ℕ)
  file : ℕ → Option (ℕ → ℕ)

namespace LogPages

variable (log : LogPages) (page : ℕ)

/-- A page that is in the buffers is not looked up in the file. -/
def find : Option (ℕ → ℕ) := (log.buffer page).or (log.file page)

/-- The gxid that is recorded for a transaction; 0 if there is none, or no page for it. -/
def entry (localXid : TransactionId) : ℕ :=
  (log.find (transactionIdToPage localXid)).elim 0 (· (transactionIdToEntry localXid))

/-- `SimpleLruDoesPhysicalPageExist`: the buffers do not matter. -/
def inFile : Bool := (log.file page).isSome

/-- Some pages are written to the file, by a checkpoint or because their buffers are needed. A hole
that this leaves in a file reads as zeroes. -/
def writeOut (written : ℕ → Bool) : LogPages :=
  { log with file := fun page =>
      if written page then some ((log.find page).getD fun _ => 0) else log.file page }

/-- The page in the buffers. -/
def setBuffer (entries : ℕ → ℕ) : LogPages :=
  { log with buffer := update log.buffer page (some entries) }

/-- `DistributedLog_ZeroPage` without a WAL record: the page is set up in the buffers only. -/
def zeroPage : LogPages := log.setBuffer page fun _ => 0

/-- `SimpleLruReadPage`. -/
def read (localXid : TransactionId) : Except String (ℕ → ℕ) :=
  match log.find page with
  | some entries => .ok entries
  | none => .error s!"could not access status of transaction {localXid}"

/-- The log as `DistributedLog` has it, without pages. -/
def toLog (oldestXmin : TransactionId) : DistributedLog := ⟨log.entry, oldestXmin⟩

end LogPages

/-- The loop of `DistributedLog_SetCommittedWithinAPage` over the entries of the page. -/
def setEntries (page distribXid : ℕ) : List TransactionId → (ℕ → ℕ) → Except String (ℕ → ℕ)
  | [], entries => .ok entries
  | localXid :: localXids, entries =>
    let entryno := transactionIdToEntry localXid
    let current := entries entryno
    if current ≠ 0 then
      if current ≠ distribXid then
        .error (s!"Current distributed xid = {current} does not match" ++
          s!" input distributed xid = {distribXid} for " ++
          s!"local xid = {localXid} in distributed log (page = {page}, entryno = {entryno})")
      else setEntries page distribXid localXids entries
    else setEntries page distribXid localXids (update entries entryno distribXid)

/-- `DistributedLog_SetCommittedWithinAPage`, for an array that is not empty. `written` are the
pages that have been written to the file since the last access. -/
def setCommittedWithinAPage (written : ℕ → Bool) (log : LogPages) (first : TransactionId)
    (rest : List TransactionId) (distribXid : ℕ) (isRedo : Bool) : Except String LogPages := do
  let page := transactionIdToPage first
  let log := log.writeOut written
  let log := if isRedo && !log.inFile page then log.zeroPage page else log
  let entries ← log.read page first
  let entries ← setEntries page distribXid (first :: rest) entries
  return log.setBuffer page entries

/-- What was touched: the page accesses with the transactions each of them served, and the
indices at which the array of subtransactions was read. -/
structure Accesses where
  pages : List (ℕ × List TransactionId)
  reads : List ℕ

/-- The inner loop of `DistributedLog_SetCommittedByPages`, from the index `i`: how many
transactions are on the page, and the indices it reads. The first argument bounds the
rounds. -/
def numOnPage (nsubxids : ℕ) (subxids : ℕ → TransactionId) (pageno : ℕ) : ℕ → ℕ → ℕ × List ℕ
  | 0, _ => (0, [])
  | rounds + 1, i =>
    -- `subxids[i]` is read before `i < nsubxids` is tested
    if transactionIdToPage (subxids i) = pageno ∧ i < nsubxids then
      let r := numOnPage nsubxids subxids pageno rounds (i + 1)
      (r.1 + 1, i :: r.2)
    else (0, [i])

/-- `DistributedLog_SetCommittedByPages`, from the index `i`. `out k` are the pages that are
written to the file before the access number `k`, counted from here. -/
def setCommittedByPages (nsubxids : ℕ) (subxids : ℕ → TransactionId) (distribXid : ℕ)
    (isRedo : Bool) : (ℕ → ℕ → Bool) → ℕ → ℕ → LogPages → Except String (LogPages × Accesses)
  | _, 0, _, log => .ok (log, ⟨[], []⟩)
  | out, rounds + 1, i, log =>
    if i < nsubxids then do
      let pageno := transactionIdToPage (subxids i)
      let (num, reads) := numOnPage nsubxids subxids pageno (nsubxids + 1) i
      let range := range' i num
      let log ← match range.map subxids with
        | [] => .ok log
        | first :: rest => setCommittedWithinAPage (out 0) log first rest distribXid isRedo
      let (log, acc) ← setCommittedByPages nsubxids subxids distribXid isRedo
        (fun k => out (k + 1)) rounds (i + num) log
      return (log, ⟨(pageno, range.map subxids) :: acc.pages, i :: reads ++ range ++ acc.reads⟩)
    else .ok (log, ⟨[], []⟩)

/-- `DistributedLog_SetCommittedTree`; the dispatcher has no distributed log. -/
def setCommittedTree (dispatcher : Bool) (out : ℕ → ℕ → Bool) (log : LogPages)
    (xid : TransactionId) (nxids : ℕ) (xids : ℕ → TransactionId) (distribXid : ℕ)
    (isRedo : Bool) : Except String (LogPages × Accesses) :=
  if dispatcher then .ok (log, ⟨[], []⟩)
  else do
    let log ← setCommittedWithinAPage (out 0) log xid [] distribXid isRedo
    let (log, acc) ← setCommittedByPages nxids xids distribXid isRedo (fun k => out (k + 1)) nxids 0
      log
    return (log, { acc with pages := (transactionIdToPage xid, [xid]) :: acc.pages })

/-- An array in memory: the transactions, and behind them whatever is there. -/
def arrayOf (xids : List TransactionId) (behind : ℕ → TransactionId) (i : ℕ) : TransactionId :=
  xids[i]?.getD (behind i)

/-- Two neighbours of the array that one access serves. -/
def samePage (x y : TransactionId) : Bool := transactionIdToPage x = transactionIdToPage y

/-- The access for a run zeroes the page of a transaction: in replay, if the file does not have the
page by then. -/
def Zeroed (isRedo : Bool) (written inFile : ℕ → Bool) (run : List TransactionId)
    (x : TransactionId) : Prop :=
  isRedo = true ∧ (∃ y ∈ run, transactionIdToPage y = transactionIdToPage x) ∧
    (inFile (transactionIdToPage x) || written (transactionIdToPage x)) = false
deriving Decidable

/-- **The page of a transaction is zeroed under it**: by the access for a run, with the transaction
neither in this run nor in a later one. `inFile` are the pages that are in the file at the start. -/
def Lost (isRedo : Bool) : (ℕ → ℕ → Bool) → (ℕ → Bool) → List (List TransactionId) →
    TransactionId → Prop
  | _, _, [], _ => False
  | out, inFile, run :: runs, x =>
    (Zeroed isRedo (out 0) inFile run x ∧ x ∉ (run :: runs).flatten) ∨
      Lost isRedo (fun k => out (k + 1)) (fun page => inFile page || out 0 page) runs x

/-- Outside of replay nothing is lost. -/
theorem not_lost {runs : List (List TransactionId)} {x : TransactionId} :
    ∀ {out : ℕ → ℕ → Bool} {inFile : ℕ → Bool}, ¬ Lost false out inFile runs x := by
  induction runs with
  | nil => exact id
  | cons run runs ih =>
    rintro out inFile (⟨⟨h, -⟩, -⟩ | h)
    · cases h
    · exact ih h

/-! ### One page -/

theorem transactionId_ext {x y : TransactionId} (hpage : transactionIdToPage x = transactionIdToPage y)
    (hentry : transactionIdToEntry x = transactionIdToEntry y) : x = y := by
  refine UInt32.toNat_inj.1 ?_
  rw [← Nat.div_add_mod x.toNat entriesPerPage, ← Nat.div_add_mod y.toNat entriesPerPage]
  exact congrArg₂ (fun a b => entriesPerPage * a + b) hpage hentry

namespace LogPages

variable {log : LogPages}

theorem find_setBuffer (log : LogPages) (page p : ℕ) (entries : ℕ → ℕ) :
    (log.setBuffer page entries).find p = if p = page then some entries else log.find p := by
  unfold find setBuffer
  split
  next h => simp [h]
  next h => simp [h]

theorem entry_setBuffer (log : LogPages) (page : ℕ) (entries : ℕ → ℕ) (x : TransactionId) :
    (log.setBuffer page entries).entry x =
      if transactionIdToPage x = page then entries (transactionIdToEntry x) else log.entry x := by
  unfold entry
  rw [find_setBuffer]
  split <;> rfl

/-- Writing pages out changes nothing that is recorded. -/
theorem entry_writeOut (log : LogPages) (written : ℕ → Bool) (x : TransactionId) :
    (log.writeOut written).entry x = log.entry x := by
  unfold entry writeOut find
  dsimp only
  cases log.buffer (transactionIdToPage x) with
  | some _ => rfl
  | none =>
    simp only [Option.none_or]
    split
    · cases log.file (transactionIdToPage x) <;> rfl
    · rfl

theorem isSome_find_writeOut {page : ℕ} (written : ℕ → Bool) (h : (log.find page).isSome = true) :
    ((log.writeOut written).find page).isSome = true := by
  unfold find writeOut at *
  dsimp only
  split
  · simp
  · exact h

theorem isSome_find_of_inFile {page : ℕ} (h : log.inFile page = true) :
    (log.find page).isSome = true := by
  rw [find, Option.isSome_or, Bool.or_eq_true]
  exact .inr h

theorem read_eq {page : ℕ} (localXid : TransactionId) (h : (log.find page).isSome = true) :
    ∃ entries, log.read page localXid = .ok entries ∧
      ∀ x, transactionIdToPage x = page → entries (transactionIdToEntry x) = log.entry x := by
  obtain ⟨entries, hfind⟩ := Option.isSome_iff_exists.1 h
  refine ⟨entries, by rw [read, hfind], ?_⟩
  rintro x rfl
  rw [entry, hfind, Option.elim_some]

theorem inFile_writeOut (log : LogPages) (written : ℕ → Bool) (page : ℕ) :
    (log.writeOut written).inFile page = (log.inFile page || written page) := by
  unfold inFile writeOut
  dsimp only
  split <;> simp_all

end LogPages

/-- The entries that are set are those of the transactions, if none of them has another gxid. -/
theorem setEntries_eq (page distribXid : ℕ) (xids : List TransactionId) (entries : ℕ → ℕ)
    (hfree : ∀ x ∈ xids, entries (transactionIdToEntry x) = 0 ∨
      entries (transactionIdToEntry x) = distribXid) :
    setEntries page distribXid xids entries =
      .ok fun n => if n ∈ xids.map transactionIdToEntry then distribXid else entries n := by
  induction xids generalizing entries with
  | nil => simp [setEntries]
  | cons x xids ih =>
    have hstep : setEntries page distribXid (x :: xids) entries =
        setEntries page distribXid xids (update entries (transactionIdToEntry x) distribXid) := by
      by_cases hzero : entries (transactionIdToEntry x) = 0
      · rw [setEntries, if_neg (by simpa using hzero)]
      · have hsame := (hfree x mem_cons_self).resolve_left hzero
        rw [setEntries, if_pos hzero, if_neg (by simpa using hsame), ← hsame, update_eq_self]
    rw [hstep, ih]
    · congr 1
      funext n
      by_cases hn : n = transactionIdToEntry x <;> simp [hn]
    · intro y hy
      rw [update_apply]
      split_ifs
      · exact .inr rfl
      · exact hfree y (mem_cons_of_mem _ hy)

/-- The pages of the transactions can be read. -/
def Available (log : LogPages) (isRedo : Bool) (xids : List TransactionId) : Prop :=
  isRedo = true ∨ ∀ x ∈ xids, (log.find (transactionIdToPage x)).isSome = true

/-- No transaction of the list has another gxid. -/
def Free (log : LogPages) (distribXid : ℕ) (xids : List TransactionId) : Prop :=
  ∀ x ∈ xids, log.entry x = 0 ∨ log.entry x = distribXid

/-- **What the accesses for some runs leave**: the listed transactions have the gxid and the others
what they had, but for those whose page is zeroed under them. -/
structure Recorded (isRedo : Bool) (out : ℕ → ℕ → Bool) (log log' : LogPages) (distribXid : ℕ)
    (runs : List (List TransactionId)) : Prop where
  lost : ∀ x, Lost isRedo out log.inFile runs x → log'.entry x = 0
  listed : ∀ x, ¬ Lost isRedo out log.inFile runs x → x ∈ runs.flatten → log'.entry x = distribXid
  others : ∀ x, ¬ Lost isRedo out log.inFile runs x → x ∉ runs.flatten → log'.entry x = log.entry x

section Record

open LogPages

variable {log log₁ log₂ : LogPages} {distribXid : ℕ} {isRedo : Bool} {out : ℕ → ℕ → Bool}
  {run : List TransactionId} {runs : List (List TransactionId)}

/-- What a single access leaves. -/
structure RunRecorded (isRedo : Bool) (written : ℕ → Bool) (log log' : LogPages) (distribXid : ℕ)
    (run : List TransactionId) : Prop where
  entry : ∀ x, log'.entry x = if x ∈ run then distribXid
    else if Zeroed isRedo written log.inFile run x then 0 else log.entry x
  inFile : log'.inFile = fun page => log.inFile page || written page
  find : ∀ page, (log.find page).isSome = true → (log'.find page).isSome = true

theorem Recorded.cons (h₁ : RunRecorded isRedo (out 0) log log₁ distribXid run)
    (h₂ : Recorded isRedo (fun k => out (k + 1)) log₁ log₂ distribXid runs) :
    Recorded isRedo out log log₂ distribXid (run :: runs) := by
  obtain ⟨hlost, hlisted, hothers⟩ := h₂
  rw [h₁.inFile] at hlost hlisted hothers
  refine ⟨fun x hx => ?_, fun x hx hmem => ?_, fun x hx hmem => ?_⟩
  · rcases hx with ⟨hzero, hnot⟩ | hx
    · rw [flatten_cons, mem_append, not_or] at hnot
      by_cases hlater : Lost isRedo (fun k => out (k + 1)) (fun page => log.inFile page || out 0 page)
          runs x
      · exact hlost x hlater
      · rw [hothers x hlater hnot.2, h₁.entry, if_neg hnot.1, if_pos hzero]
    · exact hlost x hx
  · have hlater := fun h => hx (.inr h)
    rw [flatten_cons, mem_append] at hmem
    by_cases hruns : x ∈ runs.flatten
    · exact hlisted x hlater hruns
    · rw [hothers x hlater hruns, h₁.entry, if_pos (hmem.resolve_right hruns)]
  · have hlater := fun h => hx (.inr h)
    have hzero := fun h => hx (.inl ⟨h, hmem⟩)
    rw [flatten_cons, mem_append, not_or] at hmem
    rw [hothers x hlater hmem.2, h₁.entry, if_neg hmem.1, if_neg hzero]

variable {written : ℕ → Bool} {ys : List TransactionId}

theorem RunRecorded.free (h : RunRecorded isRedo written log log₁ distribXid run)
    (hfree : Free log distribXid ys) : Free log₁ distribXid ys := by
  intro x hx
  rw [h.entry]
  split_ifs
  · exact .inr rfl
  · exact .inl rfl
  · exact hfree x hx

theorem RunRecorded.available (h : RunRecorded isRedo written log log₁ distribXid run)
    (ha : Available log isRedo ys) : Available log₁ isRedo ys :=
  ha.imp_right fun hpages x hx => h.find _ (hpages x hx)

/-- **Recording within a page.** -/
theorem setCommittedWithinAPage_spec (written : ℕ → Bool) (first : TransactionId)
    (rest : List TransactionId)
    (hpage : ∀ x ∈ rest, transactionIdToPage x = transactionIdToPage first)
    (ha : Available log isRedo (first :: rest)) (hfree : Free log distribXid (first :: rest)) :
    ∃ log', setCommittedWithinAPage written log first rest distribXid isRedo = .ok log' ∧
      RunRecorded isRedo written log log' distribXid (first :: rest) := by
  have hpage' : ∀ x ∈ first :: rest, transactionIdToPage x = transactionIdToPage first :=
    forall_mem_cons.2 ⟨rfl, hpage⟩
  set page := transactionIdToPage first
  set zeroes := isRedo && !(log.writeOut written).inFile page with hzeroes
  set log₁ := if zeroes then (log.writeOut written).zeroPage page else log.writeOut written with hlog₁
  have hentry : ∀ x, log₁.entry x =
      if zeroes = true ∧ transactionIdToPage x = page then 0 else log.entry x := by
    intro x
    rw [hlog₁, ← entry_writeOut log written]
    cases zeroes with
    | false => simp
    | true => simp [zeroPage, entry_setBuffer]
  have hzeroed : ∀ x, Zeroed isRedo written log.inFile (first :: rest) x ↔
      zeroes = true ∧ transactionIdToPage x = page := by
    intro x
    rw [hzeroes, inFile_writeOut, Zeroed, Bool.and_eq_true, Bool.not_eq_true']
    constructor
    · rintro ⟨hredo, ⟨y, hy, hyx⟩, hfile⟩
      rw [← hyx, hpage' y hy] at hfile ⊢
      exact ⟨⟨hredo, hfile⟩, rfl⟩
    · rintro ⟨⟨hredo, hfile⟩, hx⟩
      exact ⟨hredo, ⟨first, mem_cons_self, hx.symm⟩, by rwa [hx]⟩
  have hkeeps : ∀ p, ((log.writeOut written).find p).isSome = true → (log₁.find p).isSome = true := by
    intro p hp
    rw [hlog₁]
    split
    · rw [zeroPage, find_setBuffer]
      split
      · rfl
      · exact hp
    · exact hp
  -- the page can be read: it was there, or it has just been zeroed
  have hsome : (log₁.find page).isSome = true := by
    by_cases hz : zeroes = true
    · rw [hlog₁, if_pos hz, zeroPage, find_setBuffer, if_pos rfl]
      rfl
    refine hkeeps page ?_
    rcases ha with rfl | hall
    · exact isSome_find_of_inFile (by simpa [hzeroes] using hz)
    · exact isSome_find_writeOut written (hall first mem_cons_self)
  obtain ⟨entries, hread, hentries⟩ := read_eq first hsome
  have hfree₁ : ∀ x ∈ first :: rest, entries (transactionIdToEntry x) = 0 ∨
      entries (transactionIdToEntry x) = distribXid := by
    intro x hx
    rw [hentries x (hpage' x hx), hentry]
    split
    · exact .inl rfl
    · exact hfree x hx
  have hset := setEntries_eq page distribXid (first :: rest) entries hfree₁
  refine ⟨log₁.setBuffer page fun n => if n ∈ (first :: rest).map transactionIdToEntry
    then distribXid else entries n, ?_, fun x => ?_, ?_, fun p hp => ?_⟩
  · rw [setCommittedWithinAPage]
    change (log₁.read page first).bind _ = _
    rw [hread]
    change (setEntries _ _ _ entries).bind _ = _
    rw [hset]
    rfl
  · rw [entry_setBuffer]
    split
    next hx =>
      -- on the page a transaction is told by its entry
      have hmem : transactionIdToEntry x ∈ (first :: rest).map transactionIdToEntry ↔
          x ∈ first :: rest := by
        refine ⟨fun h => ?_, mem_map_of_mem⟩
        obtain ⟨y, hy, heq⟩ := mem_map.1 h
        rwa [← transactionId_ext ((hpage' y hy).trans hx.symm) heq]
      simp only [hmem, hentries x hx, hentry, hzeroed]
    next hx =>
      rw [if_neg fun h => hx (hpage' x h), hentry]
      simp only [hzeroed]
  · funext p
    rw [← inFile_writeOut, hlog₁]
    cases zeroes <;> rfl
  · rw [find_setBuffer]
    split
    · rfl
    · exact hkeeps p (isSome_find_writeOut written hp)

end Record

/-! ### Run by run -/

section Runs

theorem arrayOf_append_cons (behind : ℕ → TransactionId) (done : List TransactionId) (x : TransactionId)
    (rest : List TransactionId) : arrayOf (done ++ x :: rest) behind done.length = x := by
  simp [arrayOf]

theorem map_arrayOf_range (behind : ℕ → TransactionId) (run : List TransactionId) : ∀ done rest : List TransactionId,
      (range' done.length run.length).map (arrayOf (done ++ (run ++ rest)) behind) = run := by
  induction run with
  | nil => exact fun _ _ => rfl
  | cons x run ih =>
    intro done rest
    have hrest := ih (done ++ [x]) rest
    rw [append_assoc, singleton_append, length_append, length_singleton] at hrest
    rw [length_cons, range'_succ, map_cons, cons_append, arrayOf_append_cons, hrest]

/-- **The inner loop measures a run**, and reads one element more than the run has. -/
theorem numOnPage_spec (behind : ℕ → TransactionId) (pageno : ℕ) (rest : List TransactionId) :
    ∀ (done : List TransactionId) (rounds : ℕ), rest.length < rounds →
      numOnPage (done ++ rest).length (arrayOf (done ++ rest) behind) pageno rounds done.length =
        ((rest.takeWhile fun x => transactionIdToPage x = pageno).length, range' done.length
            ((rest.takeWhile fun x => transactionIdToPage x = pageno).length + 1)) := by
  induction rest with
  | nil =>
    intro done rounds hrounds
    obtain ⟨rounds, rfl⟩ : ∃ k, rounds = k + 1 := ⟨rounds - 1, by omega⟩
    rw [numOnPage]
    simp
  | cons x rest ih =>
    intro done rounds hrounds
    obtain ⟨rounds, rfl⟩ : ∃ k, rounds = k + 1 := ⟨rounds - 1, by omega⟩
    rw [numOnPage, arrayOf_append_cons]
    by_cases hx : transactionIdToPage x = pageno
    · have hrest := ih (done ++ [x]) rounds (by simpa using hrounds)
      have hlen : (done ++ [x]).length = done.length + 1 := length_append
      rw [append_assoc, singleton_append, hlen] at hrest
      rw [if_pos ⟨hx, by simp⟩, hrest, takeWhile_cons_of_pos (by simpa using hx)]
      simp [range'_succ]
    · rw [if_neg fun h => hx h.1, takeWhile_cons_of_neg (by simpa using hx)]
      rfl

/-- The first run of an array, and what comes after it. -/
theorem exists_run (x : TransactionId) (rest : List TransactionId) :
    ∃ run later, x :: rest = x :: run ++ later ∧
      (x :: run ++ later).takeWhile
        (fun y => transactionIdToPage y = transactionIdToPage x) = x :: run ∧
      (∀ y ∈ run, transactionIdToPage y = transactionIdToPage x) ∧
      (x :: run ++ later).splitBy samePage = (x :: run) :: later.splitBy samePage := by
  set onPage := fun y => decide (transactionIdToPage y = transactionIdToPage x) with honPage
  have hsplit : x :: rest.takeWhile onPage ++ rest.dropWhile onPage = x :: rest :=
    congrArg (x :: ·) takeWhile_append_dropWhile
  have hrun : ∀ y ∈ rest.takeWhile onPage, transactionIdToPage y = transactionIdToPage x :=
    fun y hy => by simpa [honPage] using mem_takeWhile_imp hy
  have hrun' : ∀ y ∈ x :: rest.takeWhile onPage, transactionIdToPage y = transactionIdToPage x :=
    forall_mem_cons.2 ⟨rfl, hrun⟩
  refine ⟨_, _, hsplit.symm, ?_, hrun, ?_⟩
  · rw [hsplit, takeWhile_cons_of_pos (by simp [honPage])]
  have hchain : (x :: rest.takeWhile onPage).IsChain fun a b => samePage a b := by
    refine Pairwise.isChain (pairwise_of_forall_mem_list fun a ha b hb => ?_)
    simp [samePage, hrun' a ha, hrun' b hb]
  rw [splitBy_append, splitBy_of_isChain (cons_ne_nil _ _) hchain, singleton_append]
  -- the run ends where the page changes
  intro a ha b hb
  have hnot := head?_dropWhile_not onPage rest
  rw [Option.mem_def.1 hb] at hnot
  have hne : transactionIdToPage b ≠ transactionIdToPage x := by simpa [honPage] using hnot
  rw [samePage, hrun' a (mem_of_mem_getLast? ha)]
  exact decide_eq_false hne.symm

variable {log : LogPages} {distribXid : ℕ} {isRedo : Bool} {behind : ℕ → TransactionId}

/-- One round of the outer loop, over the array `done ++ (x :: run) ++ later`. -/
theorem setCommittedByPages_round {out : ℕ → ℕ → Bool} {log₁ log₂ : LogPages} {acc : Accesses}
    {rounds : ℕ} {done run later : List TransactionId} {x : TransactionId}
    (hrun : (x :: run ++ later).takeWhile
      (fun y => transactionIdToPage y = transactionIdToPage x) = x :: run)
    (hwithin : setCommittedWithinAPage (out 0) log x run distribXid isRedo = .ok log₁)
    (hnext : setCommittedByPages (done ++ (x :: run ++ later)).length
      (arrayOf (done ++ (x :: run ++ later)) behind) distribXid isRedo (fun k => out (k + 1)) rounds
      (done.length + (x :: run).length) log₁ = .ok (log₂, acc)) :
    setCommittedByPages (done ++ (x :: run ++ later)).length
      (arrayOf (done ++ (x :: run ++ later)) behind) distribXid isRedo out (rounds + 1) done.length
      log = .ok (log₂, ⟨(transactionIdToPage x, x :: run) :: acc.pages,
        done.length :: range' done.length ((x :: run).length + 1) ++
          range' done.length (x :: run).length ++ acc.reads⟩) := by
  have hnum := numOnPage_spec behind (transactionIdToPage x) (x :: run ++ later) done
    ((done ++ (x :: run ++ later)).length + 1) (by simp only [length_append]; omega)
  have hmap := map_arrayOf_range behind (x :: run) done later
  have hfirst : arrayOf (done ++ (x :: run ++ later)) behind done.length = x :=
    arrayOf_append_cons behind done x (run ++ later)
  rw [hrun] at hnum
  rw [setCommittedByPages, if_pos (by simp)]
  dsimp only
  rw [hfirst, hnum]
  rw [hmap]
  change (setCommittedWithinAPage (out 0) log x run distribXid isRedo).bind _ = _
  rw [hwithin]
  change (setCommittedByPages _ _ _ _ _ _ _ _).bind _ = _
  rw [hnext]
  rfl

/-- The accesses for the rest of an array of length `n`. -/
structure Accesses.Serve (acc : Accesses) (n : ℕ) (rest : List TransactionId) : Prop where
  runs : acc.pages.map Prod.snd = rest.splitBy samePage
  onPage : ∀ a ∈ acc.pages, ∀ x ∈ a.2, transactionIdToPage x = a.1
  inside : rest = [] → acc.reads = []
  behind : rest ≠ [] → n ∈ acc.reads

theorem setCommittedByPages_nil (out : ℕ → ℕ → Bool) (done : List TransactionId) (rounds : ℕ)
    (log : LogPages) :
    ∃ log' acc, setCommittedByPages (done ++ []).length (arrayOf (done ++ []) behind) distribXid
        isRedo out rounds done.length log = .ok (log', acc) ∧
      Recorded isRedo out log log' distribXid [] ∧ acc.Serve (done ++ []).length [] := by
  refine ⟨log, ⟨[], []⟩, ?_, ⟨nofun, by simp, fun _ _ _ => rfl⟩, rfl, by simp, fun _ => rfl, by simp⟩
  cases rounds with
  | zero => rfl
  | succ rounds => rw [setCommittedByPages, if_neg (by simp)]

/-- **The outer loop records the rest of the array, run by run**, and reads the element behind
the array if there is anything left to record. -/
theorem setCommittedByPages_spec {rounds : ℕ} (out : ℕ → ℕ → Bool) (done : List TransactionId)
    {rest : List TransactionId} {log : LogPages} (hrounds : rest.length ≤ rounds)
    (ha : Available log isRedo rest) (hfree : Free log distribXid rest) :
    ∃ log' acc, setCommittedByPages (done ++ rest).length (arrayOf (done ++ rest) behind)
        distribXid isRedo out rounds done.length log = .ok (log', acc) ∧
      Recorded isRedo out log log' distribXid (rest.splitBy samePage) ∧
      acc.Serve (done ++ rest).length rest := by
  induction rounds generalizing out done rest log with
  | zero =>
    obtain rfl : rest = [] := length_eq_zero_iff.1 (Nat.le_zero.1 hrounds)
    exact setCommittedByPages_nil out done 0 log
  | succ rounds ih =>
    cases rest with
    | nil => exact setCommittedByPages_nil out done (rounds + 1) log
    | cons x rest =>
      obtain ⟨run, later, hsplit, hrun, hpage, hruns⟩ := exists_run x rest
      rw [hsplit] at hrounds ha hfree ⊢
      obtain ⟨log₁, hwithin, hrec₁⟩ := setCommittedWithinAPage_spec (out 0) x run hpage
        (ha.imp_right fun h y hy => h y (mem_append_left _ hy))
        fun y hy => hfree y (mem_append_left _ hy)
      have hlater := ih (fun k => out (k + 1)) (done ++ (x :: run)) (by simp at hrounds; omega)
        (hrec₁.available (ha.imp_right fun h y hy => h y (mem_append_right _ hy)))
        (hrec₁.free fun y hy => hfree y (mem_append_right _ hy))
      have hlen : (done ++ (x :: run)).length = done.length + (x :: run).length := length_append
      rw [append_assoc, hlen] at hlater
      obtain ⟨log₂, acc, hnext, hrec₂, hserve⟩ := hlater
      refine ⟨log₂, _, setCommittedByPages_round hrun hwithin hnext, ?_, ?_, ?_, ?_, fun _ => ?_⟩
      · rw [hruns]
        exact .cons hrec₁ hrec₂
      · rw [map_cons, hserve.runs, hruns]
      · exact forall_mem_cons.2 ⟨forall_mem_cons.2 ⟨rfl, hpage⟩, hserve.onPage⟩
      · exact fun h => absurd h (cons_ne_nil _ _)
      by_cases hend : later = []
      · -- the last run: the inner loop has gone to the end of the array
        subst hend
        rw [append_nil]
        refine mem_append_left _ (mem_append_left _ (mem_cons_of_mem _ ?_))
        rw [mem_range'_1]
        omega
      · exact mem_append_right _ (hserve.behind hend)

end Runs

section Tree

variable {log : LogPages} {xid : TransactionId} {xids : List TransactionId} {distribXid : ℕ}
  {isRedo : Bool}

theorem setCommittedTree_spec (out : ℕ → ℕ → Bool) (behind : ℕ → TransactionId)
    (ha : Available log isRedo (xid :: xids)) (hfree : Free log distribXid (xid :: xids)) :
    ∃ log' acc, setCommittedTree false out log xid xids.length (arrayOf xids behind) distribXid
        isRedo = .ok (log', acc) ∧
      Recorded isRedo out log log' distribXid ([xid] :: xids.splitBy samePage) ∧
      acc.pages.map Prod.snd = [xid] :: xids.splitBy samePage ∧
      (∀ a ∈ acc.pages, ∀ x ∈ a.2, transactionIdToPage x = a.1) ∧
      ((∀ i ∈ acc.reads, i < xids.length) ↔ xids = []) := by
  obtain ⟨log₁, hwithin, hrec₁⟩ := setCommittedWithinAPage_spec (out 0) xid [] nofun
    (ha.imp_right fun h y hy => h y (by simp_all)) fun y hy => hfree y (by simp_all)
  obtain ⟨log₂, acc, hpages, hrec₂, hserve⟩ :=
    setCommittedByPages_spec (fun k => out (k + 1)) [] le_rfl
    (hrec₁.available (ha.imp_right fun h y hy => h y (mem_cons_of_mem _ hy)))
    (hrec₁.free fun y hy => hfree y (mem_cons_of_mem _ hy))
  rw [nil_append] at hpages hserve
  refine ⟨log₂, ⟨(transactionIdToPage xid, [xid]) :: acc.pages, acc.reads⟩, ?_, .cons hrec₁ hrec₂,
    ?_, ?_, ?_⟩
  · rw [setCommittedTree, hwithin]
    change (setCommittedByPages _ _ _ _ _ _ _ _).bind _ = _
    rw [length_nil] at hpages
    rw [hpages]
    rfl
  · rw [map_cons, hserve.runs]
  · exact forall_mem_cons.2 ⟨by simp, hserve.onPage⟩
  · constructor
    · intro hall
      by_contra hne
      exact lt_irrefl _ (hall _ (hserve.behind hne))
    · intro hnil i hi
      rw [hserve.inside hnil] at hi
      exact absurd hi not_mem_nil

theorem Recorded.entry_eq_iff {out : ℕ → ℕ → Bool} {log' : LogPages}
    (h : Recorded isRedo out log log' distribXid ([xid] :: xids.splitBy samePage)) :
    (∀ x, log'.entry x = if x ∈ xid :: xids then distribXid else log.entry x) ↔
      ∀ x, Lost isRedo out log.inFile ([xid] :: xids.splitBy samePage) x →
        (if x ∈ xid :: xids then distribXid else log.entry x) = 0 := by
  have hflatten : ([xid] :: xids.splitBy samePage).flatten = xid :: xids := by
    rw [flatten_cons, flatten_splitBy, singleton_append]
  constructor
  · intro hall x hlost
    rw [← hall x, h.lost x hlost]
  · intro hall x
    by_cases hlost : Lost isRedo out log.inFile ([xid] :: xids.splitBy samePage) x
    · rw [hall x hlost, h.lost x hlost]
    split
    next hx => exact h.listed x hlost (by rwa [hflatten])
    next hx => exact h.others x hlost (by rwa [hflatten])

end Tree

/-- **Recording a committed tree**: each maximal run of subtransactions on one page costs one page
access. The listed transactions have the gxid and no other entry changes exactly if only
transactions without a gxid are lost; and the array of subtransactions is read only inside its
bounds exactly if it is empty. -/
theorem setCommittedTree_exact (out : ℕ → ℕ → Bool) (log : LogPages) (xid : TransactionId)
    (xids : List TransactionId) (behind : ℕ → TransactionId) (distribXid : ℕ) (isRedo : Bool)
    (ha : Available log isRedo (xid :: xids)) (hfree : Free log distribXid (xid :: xids)) :
    ∃ log' acc, setCommittedTree false out log xid xids.length (arrayOf xids behind) distribXid
        isRedo = .ok (log', acc) ∧
      ((∀ x, log'.entry x = if x ∈ xid :: xids then distribXid else log.entry x) ↔
        ∀ x, Lost isRedo out log.inFile ([xid] :: xids.splitBy samePage) x →
          (if x ∈ xid :: xids then distribXid else log.entry x) = 0) ∧
      acc.pages.map Prod.snd = [xid] :: xids.splitBy samePage ∧
      (∀ a ∈ acc.pages, ∀ x ∈ a.2, transactionIdToPage x = a.1) ∧
      ((∀ i ∈ acc.reads, i < xids.length) ↔ xids = []) := by
  obtain ⟨log', acc, hcall, hrec, hpages, hof, hreads⟩ := setCommittedTree_spec out behind ha hfree
  exact ⟨log', acc, hcall, hrec.entry_eq_iff, hpages, hof, hreads⟩

/-- In replay, with the file gone, the access for the subtransaction 4 zeroes the page in which 3 has
just been recorded. -/
example : ∃ log' acc, setCommittedTree false (fun _ _ => false) ⟨fun _ => none, fun _ => none⟩ 3 1
    (arrayOf [4] fun _ => 0) 7 true = .ok (log', acc) ∧ log'.entry 3 = 0 ∧ log'.entry 4 = 7 :=
  ⟨_, _, rfl, rfl, rfl⟩

/-- **Outside of replay the pages are the abstract log**: a committed tree is recorded by recording
its transactions one after the other. -/
theorem setCommittedTree_record (out : ℕ → ℕ → Bool) {log : LogPages} {xid : TransactionId}
    {xids : List TransactionId} (behind : ℕ → TransactionId) {distribXid : ℕ}
    (oldestXmin : TransactionId) (ha : Available log false (xid :: xids))
    (hfree : Free log distribXid (xid :: xids)) :
    ∃ log' acc, setCommittedTree false out log xid xids.length (arrayOf xids behind) distribXid
        false = .ok (log', acc) ∧
      log'.toLog oldestXmin =
        (xid :: xids).foldl (fun log x => log.record x distribXid) (log.toLog oldestXmin) := by
  obtain ⟨log', acc, hcall, hrec, -⟩ := setCommittedTree_spec out behind ha hfree
  refine ⟨log', acc, hcall, ?_⟩
  have hentry := hrec.entry_eq_iff.2 fun x hlost => absurd hlost not_lost
  rw [DistributedLog.foldl_record]
  exact congrArg (DistributedLog.mk · oldestXmin) (funext hentry)

/-- A log whose first page is in the buffers and in the file. -/
def onePage : LogPages :=
  ⟨fun page => if page = 0 then some fun _ => 0 else none,
    fun page => if page = 0 then some fun _ => 0 else none⟩

/-- Four transactions on two pages, in replay, with the second page set up on the way: nobody has
another gxid, and nothing is lost, since the page 1 is zeroed for its only transaction. -/
theorem setCommittedTree_exact_three : ∃ log' acc,
    setCommittedTree false (fun _ _ => false) onePage 3 3 (arrayOf [4, 5000, 5] fun _ => 0) 7 true =
        .ok (log', acc) ∧
      (∀ x ∈ ([3, 4, 5000, 5] : List TransactionId), log'.entry x = 7) ∧
      acc.pages.map Prod.snd = [[3], [4], [5000], [5]] := by
  have hzero : ∀ x, onePage.entry x = 0 := by
    intro x
    unfold LogPages.entry LogPages.find onePage
    dsimp only
    split <;> rfl
  obtain ⟨log', acc, hcall, hentries, hpages, -⟩ := setCommittedTree_exact (fun _ _ => false) onePage
    3 [4, 5000, 5] (fun _ => 0) 7 true (.inl rfl) fun x _ => .inl (hzero x)
  refine ⟨log', acc, hcall, fun x hx => ?_, hpages⟩
  rw [hentries.2 fun x hlost => ?_, if_pos hx]
  split
  next hx =>
    have hruns : [4, 5000, 5].splitBy samePage = [[4], [5000], [5]] := by decide
    rw [hruns] at hlost
    simp only [mem_cons, not_mem_nil, or_false] at hx
    rcases hx with rfl | rfl | rfl | rfl <;>
      simp [Lost, Zeroed, onePage, LogPages.inFile, transactionIdToPage, entriesPerPage] at hlost
  · exact hzero x

/-- One subtransaction: the array of length 1 is read at the index 1. -/
theorem setCommittedTree_reads_behind : ∃ log' acc,
    setCommittedTree false (fun _ _ => false) onePage 3 1 (arrayOf [4] fun _ => 0) 7 false =
      .ok (log', acc) ∧ 1 ∈ acc.reads := by
  refine ⟨_, _, rfl, ?_⟩
  decide

end Cloudberry.Dtm
