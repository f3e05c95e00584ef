/-
# Buffered temporary files

`storage/file/buffile.c`, as its users see it: a string of bytes with a position. The bytes
are spread over component files of `MAX_PHYSICAL_FILESIZE` bytes, and a position is told as
the number of a component file and an offset in it. A read never spans two component files
without moving to the second, and writing starts a new one only when there is a byte to
write: so the position just behind a full component file is told as its end.
-/

import Mathlib.Data.BitVec

namespace Cloudberry.Storage

/-- A position as `BufFileTell` tells it. -/
structure FileLocation where
  fileno : ℤ
  offset : ℕ
deriving DecidableEq, Repr

structure BufFile where
  bytes : List (BitVec 8)
  pos : ℕ
deriving DecidableEq, Repr

namespace BufFile

def maxPhysicalFilesize : ℕ := 0x40000000

/-- The component files in use; there is always one. -/
def numFiles (f : BufFile) : ℕ := (f.bytes.length - 1) / maxPhysicalFilesize + 1

def createTemp : BufFile := ⟨[], 0⟩

def locate (pos : ℕ) : FileLocation :=
  if pos = 0 then ⟨0, 0⟩
  else ⟨((pos - 1) / maxPhysicalFilesize : ℕ), (pos - 1) % maxPhysicalFilesize + 1⟩

section

variable (f : BufFile)

def tell : FileLocation := locate f.pos

/-- `BufFileSeek` with `SEEK_END` -/
def seekEnd : BufFile := { f with pos := f.bytes.length }

/-- `BufFileSeek` with `SEEK_SET`; it fails before the first component file and behind the
last one. -/
def seekSet (loc : FileLocation) : Option BufFile :=
  if loc.fileno < 0 then none
  else
    let pos := loc.fileno.toNat * maxPhysicalFilesize + loc.offset
    if pos ≤ f.numFiles * maxPhysicalFilesize then some { f with pos := pos } else none

def read (size : ℕ) : List (BitVec 8) × BufFile :=
  let got := (f.bytes.drop f.pos).take size
  (got, { f with pos := f.pos + got.length })

def write (bytes : List (BitVec 8)) : BufFile :=
  ⟨f.bytes.take f.pos ++ bytes ++ f.bytes.drop (f.pos + bytes.length), f.pos + bytes.length⟩

end

theorem locate_injective : Function.Injective locate := by
  intro p q h
  unfold locate at h
  simp only [maxPhysicalFilesize] at h
  split_ifs at h with hp hq hq
  · rw [hp, hq]
  all_goals
    simp only [FileLocation.mk.injEq] at h
    omega

theorem seekSet_locate {f : BufFile} {pos : ℕ} (hpos : pos ≤ f.bytes.length) :
    f.seekSet (locate pos) = some { f with pos := pos } := by
  unfold seekSet locate numFiles
  simp only [maxPhysicalFilesize]
  split_ifs with hzero hneg hle hneg hle
  all_goals simp_all
  all_goals omega

theorem write_end (bytes bytes' : List (BitVec 8)) :
    write ⟨bytes, bytes.length⟩ bytes' = ⟨bytes ++ bytes', (bytes ++ bytes').length⟩ := by
  simp [write]

theorem read_append {pre bytes rest : List (BitVec 8)} :
    read ⟨pre ++ (bytes ++ rest), pre.length⟩ bytes.length =
      (bytes, ⟨pre ++ (bytes ++ rest), pre.length + bytes.length⟩) := by
  simp [read]

end BufFile
end Cloudberry.Storage
