/-
# The visibility map and its delete buffer

`access/appendonly/appendonly_visimap_store.c` and the parts of `appendonly_visimap.c` that
look up and hide tuples.

A delete in arbitrary order moves between entries. A changed entry is not written to the
visimap relation when it is left but stashed: appended to a temporary file, with a hash table
that knows for each stashed entry the place of its newest version and the heap tuple it came
from. `AppendOnlyVisimapDelete_Finish` writes everything back.
-/

import Cloudberry.AppendOnly.VisimapEntry
import Cloudberry.Lib.VersionedHeap
import Cloudberry.Storage.BufFile
import Mathlib.Data.List.AList

namespace Cloudberry.AppendOnly

open LittleEndian Storage VersionedHeap AppendOnlyVisimapEntry

variable {bw : BitmapWordSize}

/-! ### The store -/

/-- The visimap relation, and what the snapshot of the command sees of it: nothing that the
command itself writes. -/
structure AppendOnlyVisimapStore where
  snapshot : Heap VisimapTuple
  visimapRelation : Heap VisimapTuple

/-- The index scan of `AppendOnlyVisimapStore_Find`, backwards over the rows with the key. -/
def findRow (h : Heap VisimapTuple) (segmentFileNum firstRowNum : ℤ) :
    Option (ItemPointer × VisimapTuple) :=
  (rows h).reverse.find? fun row =>
    row.2.segno = segmentFileNum ∧ row.2.firstRowNum = firstRowNum

namespace AppendOnlyVisimapStore

/-- The entry of a key, if the snapshot sees one. -/
def find (store : AppendOnlyVisimapStore) (segmentFileNum firstRowNum : ℤ)
    (e : AppendOnlyVisimapEntry bw) : Except String (Bool × AppendOnlyVisimapEntry bw) :=
  match findRow store.snapshot segmentFileNum firstRowNum with
  | none => .ok (false, e)
  | some (tid, tuple) =>
    match e.copyout tuple with
    | .error msg => .error msg
    | .ok e => .ok (true, { e with tupleTid := some tid })

/-- A new row, or a new version of the row that the entry came from. -/
def store (store : AppendOnlyVisimapStore) (e : AppendOnlyVisimapEntry bw) :
    Except String (AppendOnlyVisimapStore × AppendOnlyVisimapEntry bw) :=
  match e.write with
  | .error msg => .error msg
  | .ok (tuple, e) =>
    match upsert store.visimapRelation e.tupleTid tuple with
    | none => .error "tuple already updated by self"
    | some rel => .ok ({ store with visimapRelation := rel }, { e with tupleTid := none })

end AppendOnlyVisimapStore

/-- The relation and the entry that is loaded. -/
structure AppendOnlyVisimap (bw : BitmapWordSize) where
  visimapStore : AppendOnlyVisimapStore
  visimapEntry : AppendOnlyVisimapEntry bw

namespace AppendOnlyVisimap

/-- `AppendOnlyVisimap_Init` on a relation in which the snapshot sees every live row. -/
def init (rel : Heap VisimapTuple) : AppendOnlyVisimap bw := ⟨⟨rel, rel⟩, .init⟩

section

variable (visiMap : AppendOnlyVisimap bw)

def store : Except String (AppendOnlyVisimap bw) :=
  match visiMap.visimapStore.store visiMap.visimapEntry with
  | .error msg => .error msg
  | .ok (visimapStore, e) => .ok ⟨visimapStore, e⟩

def find (tupleId : AOTupleId) : Except String (AppendOnlyVisimap bw) :=
  match visiMap.visimapStore.find tupleId.segmentFileNum
      (getFirstRowNum tupleId) visiMap.visimapEntry with
  | .error msg => .error msg
  | .ok (true, e) => .ok { visiMap with visimapEntry := e }
  | .ok (false, e) => .ok { visiMap with visimapEntry := e.new tupleId }

def isVisible (tupleId : AOTupleId) : Except String (Bool × AppendOnlyVisimap bw) := do
  let visiMap ←
    if visiMap.visimapEntry.coversTuple tupleId then pure visiMap
    else
      let visiMap ← if visiMap.visimapEntry.hasChanged then visiMap.store else pure visiMap
      visiMap.find tupleId
  pure (visiMap.visimapEntry.isVisible tupleId, visiMap)

end

end AppendOnlyVisimap

/-! ### The delete buffer -/

/-- `AppendOnlyVisiMapDeleteKey` -/
structure DeleteKey where
  segno : BitVec 64
  firstRowNum : BitVec 64
deriving DecidableEq, Repr

/-- `AppendOnlyVisiMapDeleteData` without its key. -/
structure DeleteData where
  location : FileLocation
  tupleTid : Option ItemPointer
deriving DecidableEq, Repr

def DeleteKey.bytes (key : DeleteKey) : List Byte :=
  split 8 8 key.segno.toNat ++ split 8 8 key.firstRowNum.toNat

def DeleteKey.ofBytes (bytes : List Byte) : DeleteKey :=
  ⟨BitVec.ofNat 64 (join (bytes.take 8)), BitVec.ofNat 64 (join ((bytes.drop 8).take 8))⟩

def DeleteKey.ofEntry (e : AppendOnlyVisimapEntry bw) : DeleteKey :=
  ⟨BitVec.ofInt 64 e.segmentFileNum, BitVec.ofInt 64 e.firstRowNum⟩

def DeleteKey.ofTuple (tupleId : AOTupleId) : DeleteKey :=
  ⟨BitVec.ofNat 64 tupleId.segmentFileNum,
    BitVec.ofNat 64 (getFirstRowNum tupleId)⟩

/-- The visimap with the changed entries that have been left. -/
structure AppendOnlyVisimapDelete (bw : BitmapWordSize) where
  visiMap : AppendOnlyVisimap bw
  dirtyEntryCache : AList fun _ : DeleteKey => DeleteData
  workfile : BufFile

/-- `AppendOnlyVisimapDelete_RebuildEntry` from the varlena in the entry's data buffer. -/
def AppendOnlyVisimapEntry.rebuild (e : AppendOnlyVisimapEntry bw) (key : DeleteKey)
    (tid : Option ItemPointer) (data : List Byte) : Except String (AppendOnlyVisimapEntry bw) :=
  match readData bw data with
  | .error msg => .error msg
  | .ok bitmap =>
    .ok { e with
      segmentFileNum := (key.segno.setWidth 32).toInt
      firstRowNum := key.firstRowNum.toInt
      bitmap := bitmap
      dirty := true
      tupleTid := tid }

/-- The reads by which a stashed record is read at the position of the file: the key, the
length word and the rest of the varlena. `none` at the end of the file. -/
def readRecord (f : BufFile) : Except String (Option (DeleteKey × List Byte) × BufFile) :=
  let (key, f) := f.read 16
  if key.length = 16 then
    let (len, f) := f.read 4
    if len.length = 4 then
      let dataLen := varsize len
      let (rest, f) := f.read (dataLen - 4)
      if rest.length = dataLen - 4 then .ok (some (DeleteKey.ofBytes key, len ++ rest), f)
      else .error "failed to read visimap delete data"
    else .error "failed to read visimap delete data"
  else if key.length = 0 then .ok (none, f)
  else .error "failed to read visimap delete data"

namespace AppendOnlyVisimapDelete

def init (visiMap : AppendOnlyVisimap bw) : AppendOnlyVisimapDelete bw :=
  ⟨visiMap, ∅, BufFile.createTemp⟩

section

variable (st : AppendOnlyVisimapDelete bw)

/-- The loaded entry is appended to the file, and the table points to it. -/
def stash : Except String (AppendOnlyVisimapDelete bw) :=
  let e := st.visiMap.visimapEntry
  let key := DeleteKey.ofEntry e
  match writeData e.bitmap with
  | .error msg => .error msg
  | .ok data =>
    let workfile := st.workfile.seekEnd
    let location := workfile.tell
    let workfile := workfile.write key.bytes
    let workfile := workfile.write data
    .ok { st with
      visiMap := { st.visiMap with visimapEntry := { e with dirty := false } }
      dirtyEntryCache := st.dirtyEntryCache.insert key ⟨location, e.tupleTid⟩
      workfile := workfile }

/-- `AppendOnlyVisimapDelete_Unstash`; that the record has the key looked for is asserted. -/
def unstash (key : DeleteKey) (deleteData : DeleteData) :
    Except String (AppendOnlyVisimapDelete bw) :=
  match st.workfile.seekSet deleteData.location with
  | none => .error "failed to seek visimap delete buf file"
  | some workfile =>
    match readRecord workfile with
    | .error _ | .ok (none, _) => .error "failed to read visimap delete buf file"
    | .ok (some (key', data), workfile) =>
      if key' = key then
        match st.visiMap.visimapEntry.rebuild key deleteData.tupleTid data with
        | .error msg => .error msg
        | .ok e =>
          .ok { st with visiMap := { st.visiMap with visimapEntry := e }, workfile := workfile }
      else .error "Assert"

section

variable (tupleId : AOTupleId)

/-- The stashed version of the entry comes before the stored one. -/
def find : Except String (AppendOnlyVisimapDelete bw) :=
  let key := DeleteKey.ofTuple tupleId
  match st.dirtyEntryCache.lookup key with
  | some deleteData => st.unstash key deleteData
  | none =>
    match st.visiMap.find tupleId with
    | .error msg => .error msg
    | .ok visiMap => .ok { st with visiMap := visiMap }

/-- `AppendOnlyVisimapDelete_LoadTuple`: a changed entry is stashed before it is left. -/
def loadTuple : Except String (AppendOnlyVisimapDelete bw) :=
  if st.visiMap.visimapEntry.coversTuple tupleId then .ok st
  else if st.visiMap.visimapEntry.hasChanged then
    match st.stash with
    | .error msg => .error msg
    | .ok st => st.find tupleId
  else st.find tupleId

def hide : Except String (TMResult × AppendOnlyVisimapDelete bw) :=
  match st.loadTuple tupleId with
  | .error msg => .error msg
  | .ok st =>
    let (result, e) := st.visiMap.visimapEntry.hideTuple tupleId
    .ok (result, { st with visiMap := { st.visiMap with visimapEntry := e } })

def isVisible : Except String (Bool × AppendOnlyVisimapDelete bw) :=
  match st.loadTuple tupleId with
  | .error msg => .error msg
  | .ok st => .ok (st.visiMap.visimapEntry.isVisible tupleId, st)

end

end

/-- The loop of `AppendOnlyVisimapDelete_WriteBackStashedEntries` over the records of the
file; a record that is not at the place the hash table knows is outdated. -/
def writeBackLoop : ℕ → AppendOnlyVisimapDelete bw → Except String (AppendOnlyVisimapDelete bw)
  | 0, _ => .error "out of fuel"
  | fuel + 1, st =>
    let currentLocation := st.workfile.tell
    match readRecord st.workfile with
    | .error _ => .error "Failed to read visimap delete spill data"
    | .ok (none, workfile) => .ok { st with workfile := workfile }
    | .ok (some (key, data), workfile) =>
      match st.dirtyEntryCache.lookup key with
      | none =>
        let offset := currentLocation.offset
        .error s!"Found a stashed visimap entry without corresponding meta data: offset {offset}"
      | some deleteData =>
        if currentLocation ≠ deleteData.location then
          writeBackLoop fuel { st with workfile := workfile }
        else
          match st.visiMap.visimapEntry.rebuild key deleteData.tupleTid data with
          | .error msg => .error msg
          | .ok e =>
            match ({ st.visiMap with visimapEntry := e } : AppendOnlyVisimap bw).store with
            | .error msg => .error msg
            | .ok visiMap => writeBackLoop fuel { st with visiMap := visiMap, workfile := workfile }

/-- Every stashed entry goes to the relation, in its newest version. -/
def writeBackStashedEntries (st : AppendOnlyVisimapDelete bw) :
    Except String (AppendOnlyVisimapDelete bw) :=
  if st.dirtyEntryCache.entries.length = 0 then .ok st
  else
    match st.workfile.seekSet ⟨0, 0⟩ with
    | none => .error "Failed to seek to visimap delete spill beginning"
    | some workfile =>
      writeBackLoop (workfile.bytes.length + 1) { st with workfile := workfile }

/-- The location `AppendOnlyVisimapDelete_Finish` puts into the hash table for the current
entry: no record is there. -/
def noLocation : FileLocation := ⟨-1, 2 ^ 63 - 1⟩

/-- `AppendOnlyVisimapDelete_Finish`; the hash table and the file are gone then. -/
def finish (st : AppendOnlyVisimapDelete bw) : Except String (AppendOnlyVisimap bw) := do
  let st ←
    if st.visiMap.visimapEntry.hasChanged then do
      let visiMap ← st.visiMap.store
      let key := DeleteKey.ofEntry visiMap.visimapEntry
      let cache := if (st.dirtyEntryCache.lookup key).isSome then
          st.dirtyEntryCache.insert key ⟨noLocation, none⟩
        else st.dirtyEntryCache
      pure { st with visiMap := visiMap, dirtyEntryCache := cache }
    else pure st
  let st ← st.writeBackStashedEntries
  pure st.visiMap

end AppendOnlyVisimapDelete

end Cloudberry.AppendOnly
