/-
# The block directory

`access/appendonly/appendonlyblockdirectory.c`, the part that inserts. The block directory
relation has one row for each minipage: up to `gp_blockdirectory_minipage_size` entries of one
segment file and column group, each with the range of rows of a block and the block's place in
the file. An insert command loads the last minipage of each column group, appends to it in
memory, and writes it to the relation when it is full and at the end of the command.

A placeholder entry, written before the first row of the command, makes the rows that are
inserted visible to uniqueness checks; it is forgotten in memory right away.
-/

import Cloudberry.AppendOnly.TupleId
import Cloudberry.Lib.VersionedHeap
import Mathlib.Data.List.MinMax

namespace Cloudberry.AppendOnly

open VersionedHeap

/-- A block of a segment file: its rows, and where it begins. -/
structure MinipageEntry where
  firstRowNum : ℕ
  fileOffset : ℕ
  rowCount : ℕ
deriving DecidableEq, Repr

/-- A row of the block directory relation. -/
structure BlkdirTuple where
  segno : ℕ
  columnGroupNo : ℕ
  firstRowNum : ℕ
  minipage : List MinipageEntry
deriving DecidableEq, Repr

/-- A minipage in memory: its entries, and the row it came from. -/
structure MinipagePerColumnGroup where
  minipage : List MinipageEntry
  tupleTid : Option ℕ
deriving DecidableEq, Repr

/-- `NUM_MINIPAGE_ENTRIES`: an eighth of a heap page, without headers. -/
def numMinipageEntries : ℕ := ((32768 - 32) / 8 - 24 - 64 * 3) / 24

/-- The columns of the unique index on the relation. -/
def BlkdirTuple.key (t : BlkdirTuple) : ℕ × ℕ × ℕ := (t.segno, t.columnGroupNo, t.firstRowNum)

/-- `blkdirRel` with the rows written since the last `CommandCounterIncrement`, which an update
does not see, and the minipages of the column groups. -/
structure AppendOnlyBlockDirectory where
  blkdirRel : Heap BlkdirTuple
  ownRows : List ℕ
  currentSegmentFileNum : ℕ
  natts : ℕ
  minipages : List MinipagePerColumnGroup

/-- The backward index scan over the rows of a segment file and column group that begin at a
row number or below it: the first row it returns. -/
def scanBackward (rel : Heap BlkdirTuple) (segno columnGroupNo rowNum : ℕ) :
    Option (ℕ × BlkdirTuple) :=
  ((rows rel).filter fun row => row.2.segno = segno ∧ row.2.columnGroupNo = columnGroupNo ∧
    row.2.firstRowNum ≤ rowNum).argmax fun row => row.2.firstRowNum

/-- `CatalogTupleUpdateWithInfo` if the row is known and `CatalogTupleInsertWithInfo` otherwise,
with the row's new position. -/
def catalogTupleWrite (rel : Heap BlkdirTuple) (ownRows : List ℕ) (tid : Option ℕ)
    (tuple : BlkdirTuple) : Except String (ℕ × Heap BlkdirTuple) :=
  if tid.any ownRows.contains then .error "attempted to update invisible tuple"
  else
    match upsert rel tid tuple with
    | none => .error "tuple already updated by self"
    | some rel' =>
      if (rows rel').all fun row => row.1 = rel.length || row.2.key != tuple.key then
        .ok (rel.length, rel')
      else .error "duplicate key value violates unique constraint"

namespace AppendOnlyBlockDirectory

/-- A minipage becomes a row, or a new version of the row it was loaded from. -/
def writeMinipage (bd : AppendOnlyBlockDirectory) (columnGroupNo : ℕ)
    (minipageInfo : MinipagePerColumnGroup) :
    Except String (MinipagePerColumnGroup × AppendOnlyBlockDirectory) :=
  match minipageInfo.minipage with
  | [] => .error "Assert"
  | entry :: _ =>
    let tuple : BlkdirTuple :=
      ⟨bd.currentSegmentFileNum, columnGroupNo, entry.firstRowNum, minipageInfo.minipage⟩
    match catalogTupleWrite bd.blkdirRel bd.ownRows minipageInfo.tupleTid tuple with
    | .error msg => .error msg
    | .ok (tid, rel) =>
      .ok ({ minipageInfo with tupleTid := some tid },
        { bd with blkdirRel := rel, ownRows := tid :: bd.ownRows })

def clearMinipage : MinipagePerColumnGroup := ⟨[], none⟩

/-- The minipage a column group is kept in: for `ALTER TABLE ADD COLUMN` only the new columns
have one. -/
def minipageIndex (bd : AppendOnlyBlockDirectory) (columnGroupNo : ℕ) (addColAction : Bool) : ℕ :=
  if addColAction then columnGroupNo - (bd.natts - bd.minipages.length) else columnGroupNo

section

variable (size : ℕ) (bd : AppendOnlyBlockDirectory) (columnGroupNo : ℕ) (entry : MinipageEntry) (addColAction : Bool)

/-- `insert_new_entry`, with `gp_blockdirectory_minipage_size` -/
def insertNewEntry : Except String (Bool × AppendOnlyBlockDirectory) :=
  if entry.rowCount = 0 then .ok (false, bd)
  else
    let i := bd.minipageIndex columnGroupNo addColAction
    match bd.minipages[i]? with
    | none => .error "Assert"
    | some minipageInfo =>
      if minipageInfo.minipage.length ≤ numMinipageEntries then
        match
          (if minipageInfo.minipage.length = size then
            (bd.writeMinipage columnGroupNo minipageInfo).map fun (_, bd) => (clearMinipage, bd)
          else .ok (minipageInfo, bd)) with
        | .error msg => .error msg
        | .ok (minipageInfo, bd) =>
          if minipageInfo.minipage.length < size then
            .ok (true, { bd with
              minipages := bd.minipages.set i
                { minipageInfo with minipage := minipageInfo.minipage ++ [entry] } })
          else .error "Assert"
      else .error "Assert"

def insertEntry : Except String (Bool × AppendOnlyBlockDirectory) :=
  bd.insertNewEntry size columnGroupNo entry addColAction

end

/-- An entry for rows to come is written at once and taken out of the minipage again. -/
def insertPlaceholder (size : ℕ) (bd : AppendOnlyBlockDirectory)
    (firstRowNum fileOffset columnGroupNo : ℕ) : Except String AppendOnlyBlockDirectory :=
  if 0 < firstRowNum ∧ columnGroupNo < bd.natts then
    match bd.insertNewEntry size columnGroupNo ⟨firstRowNum, fileOffset, AOTupleId.maxRowNum⟩
        false with
    | .error msg => .error msg
    | .ok (_, bd) =>
      match bd.minipages[columnGroupNo]? with
      | none => .error "Assert"
      | some minipageInfo =>
        match bd.writeMinipage columnGroupNo minipageInfo with
        | .error msg => .error msg
        | .ok (minipageInfo, bd) =>
          .ok { bd with
            ownRows := []
            minipages := bd.minipages.set columnGroupNo
              { minipageInfo with minipage := minipageInfo.minipage.dropLast } }
  else .error "Assert"

/-- The last row of a column group, to be filled up. -/
def loadLastMinipage (rel : Heap BlkdirTuple) (segno lastSequence columnGroupNo : ℕ) :
    MinipagePerColumnGroup :=
  let lastSequence := if lastSequence = 0 then 1 else lastSequence
  match scanBackward rel segno columnGroupNo lastSequence with
  | none => ⟨[], none⟩
  | some (tid, tuple) => ⟨tuple.minipage, some tid⟩

/-- `AppendOnlyBlockDirectory_Init_forInsert` -/
def initForInsert (rel : Heap BlkdirTuple) (lastSequence segno natts numColumnGroups : ℕ) :
    AppendOnlyBlockDirectory :=
  ⟨rel, [], segno, natts, (List.range numColumnGroups).map (loadLastMinipage rel segno lastSequence)⟩

/-- The loop of `AppendOnlyBlockDirectory_End_forInsert` over the column groups. -/
def writeAll (bd : AppendOnlyBlockDirectory) :
    ℕ → List MinipagePerColumnGroup → Except String AppendOnlyBlockDirectory
  | _, [] => .ok bd
  | groupNo, minipageInfo :: rest =>
    if minipageInfo.minipage.length > 0 then
      match bd.writeMinipage groupNo minipageInfo with
      | .error msg => .error msg
      | .ok (_, bd) => writeAll bd (groupNo + 1) rest
    else writeAll bd (groupNo + 1) rest

/-- `AppendOnlyBlockDirectory_End_forInsert`: what is left is the relation. -/
def endForInsert (bd : AppendOnlyBlockDirectory) : Except String (Heap BlkdirTuple) :=
  (bd.writeAll 0 bd.minipages).map blkdirRel

end AppendOnlyBlockDirectory

/-! ### Insert commands -/

/-- A call of an insert command. -/
inductive BlkdirCall where
  | insertPlaceholder (firstRowNum fileOffset columnGroupNo : ℕ)
  | insertEntry (columnGroupNo : ℕ) (entry : MinipageEntry)
deriving DecidableEq, Repr

/-- An insert command: the segment file, its last allocated row number, the column groups, and
the calls between `Init_forInsert` and `End_forInsert`. -/
structure InsertCommand where
  segno : ℕ
  lastSequence : ℕ
  natts : ℕ
  numColumnGroups : ℕ
  calls : List BlkdirCall
deriving DecidableEq, Repr

namespace AppendOnlyBlockDirectory

def call (size : ℕ) (bd : AppendOnlyBlockDirectory) :
    BlkdirCall → Except String AppendOnlyBlockDirectory
  | .insertPlaceholder firstRowNum fileOffset columnGroupNo =>
    bd.insertPlaceholder size firstRowNum fileOffset columnGroupNo
  | .insertEntry columnGroupNo entry => (bd.insertEntry size columnGroupNo entry false).map Prod.snd

end AppendOnlyBlockDirectory

def BlkdirCall.columnGroupNo : BlkdirCall → ℕ
  | .insertPlaceholder _ _ columnGroupNo => columnGroupNo
  | .insertEntry columnGroupNo _ => columnGroupNo

/-- A whole command on the relation. -/
def InsertCommand.run (size : ℕ) (rel : Heap BlkdirTuple) (cmd : InsertCommand) :
    Except String (Heap BlkdirTuple) := do
  let bd ← cmd.calls.foldlM (AppendOnlyBlockDirectory.call size)
    (.initForInsert rel cmd.lastSequence cmd.segno cmd.natts cmd.numColumnGroups)
  bd.endForInsert

end Cloudberry.AppendOnly
