/-
# A write-ahead log that a crash cuts short

Records are appended at the end; a prefix of them, of length `flushed` or more, is
what a crash leaves (`Survives`, `crash`). Recovery folds an effect over the records
from a given position on (`replay`). Nothing here knows what a record is.

The lemmas say how `replay` of a surviving prefix reacts when a record is inserted
(`replay_insert`), more becomes durable (`survives_of_flush`) or a crash cuts the log
(`replay_crash`).
-/

import Mathlib.Data.List.Infix

/-- A log with a durable prefix. -/
structure Wal (ρ : Type*) where
  records : List ρ
  flushed : ℕ
  flushed_le : flushed ≤ records.length

namespace Wal

open List

variable {ρ α : Type*}

/-- The empty log. -/
def nil : Wal ρ := ⟨[], 0, le_rfl⟩

variable (w : Wal ρ)

/-- The position the next record is inserted at. -/
def endPos : ℕ := w.records.length

/-- Append a record; it is not durable yet. -/
def insert (r : ρ) : Wal ρ where
  records := w.records ++ [r]
  flushed := w.flushed
  flushed_le := by
    have := w.flushed_le
    simp only [length_append, length_singleton]
    omega

/-- A prefix of length `k` may be what a crash leaves. -/
def Survives (k : ℕ) : Prop := w.flushed ≤ k ∧ k ≤ w.endPos

instance (w : Wal ρ) (k : ℕ) : Decidable (w.Survives k) := inferInstanceAs (Decidable (_ ∧ _))

/-- Make the first `k` records durable. -/
def flush (k : ℕ) (hk : w.Survives k) : Wal ρ := ⟨w.records, k, hk.2⟩

/-- Keep only the first `k` records. -/
def crash (k : ℕ) (hk : w.Survives k) : Wal ρ where
  records := w.records.take k
  flushed := k
  flushed_le := by
    have := hk.2
    rw [endPos] at this
    rw [length_take]
    omega

/-- The effect of the records of positions `redo ≤ i < k`, in order, from `a`. -/
def replay (f : α → ρ → α) (redo k : ℕ) (a : α) : α :=
  ((w.records.take k).drop redo).foldl f a

variable {w : Wal ρ} {f : α → ρ → α} {redo k : ℕ} {a : α}

@[simp] theorem endPos_insert (r : ρ) : (w.insert r).endPos = w.endPos + 1 := by
  simp [endPos, insert]

@[simp] theorem endPos_flush (hk : w.Survives k) : (w.flush k hk).endPos = w.endPos := rfl

@[simp] theorem endPos_crash (hk : w.Survives k) : (w.crash k hk).endPos = k := by
  have := hk.2
  simp only [endPos, crash, length_take] at this ⊢
  omega

@[simp] theorem flushed_insert (r : ρ) : (w.insert r).flushed = w.flushed := rfl

@[simp] theorem flushed_flush (hk : w.Survives k) : (w.flush k hk).flushed = k := rfl

@[simp] theorem flushed_crash (hk : w.Survives k) : (w.crash k hk).flushed = k := rfl

theorem survives_endPos : w.Survives w.endPos := ⟨w.flushed_le, le_rfl⟩

/-- What survives after a flush survived before it. -/
theorem survives_of_flush {j : ℕ} {hk : w.Survives k} (hj : (w.flush k hk).Survives j) :
    w.Survives j :=
  ⟨hk.1.trans hj.1, hj.2⟩

variable {r : ρ}

/-- After an insertion a surviving prefix is an old one or the whole log. -/
theorem survives_insert : (w.insert r).Survives k ↔ w.Survives k ∨ k = w.endPos + 1 := by
  have : w.flushed ≤ w.endPos := w.flushed_le
  simp only [Survives, endPos_insert, flushed_insert]
  omega

theorem survives_crash {j : ℕ} (hk : w.Survives k) : (w.crash k hk).Survives j ↔ j = k := by
  simp only [Survives, flushed_crash, endPos_crash]
  omega

/-- An insertion does not change what older prefixes replay to. -/
theorem replay_insert_of_le (hk : k ≤ w.endPos) :
    (w.insert r).replay f redo k a = w.replay f redo k a := by
  rw [replay, replay, insert, take_append_of_le_length hk]

/-- Replaying the whole log after an insertion ends with the new record. -/
theorem replay_insert (hredo : redo ≤ w.endPos) :
    (w.insert r).replay f redo (w.endPos + 1) a = f (w.replay f redo w.endPos a) r := by
  have htake : (w.records ++ [r]).take (w.endPos + 1) = w.records ++ [r] :=
    take_of_length_le (by simp [endPos])
  have htake' : w.records.take w.endPos = w.records := take_length
  rw [replay, replay, insert, htake, htake', drop_append_of_le_length hredo,
    foldl_append, foldl_cons, foldl_nil]

/-- Flushing changes no replay. -/
@[simp] theorem replay_flush {j : ℕ} (hk : w.Survives k) :
    (w.flush k hk).replay f redo j a = w.replay f redo j a := rfl

/-- After a crash the whole log is the prefix that survived. -/
theorem replay_crash (hk : w.Survives k) :
    (w.crash k hk).replay f redo k a = w.replay f redo k a := by
  rw [replay, replay, crash, take_take, min_self]

/-- Nothing to replay from the end on. -/
theorem replay_of_le (h : k ≤ redo) : w.replay f redo k a = a := by
  rw [replay, drop_eq_nil_of_le, foldl_nil]
  exact (length_take_le _ _).trans h

/-- **A property of states that every replayed record keeps is kept by replay.** -/
theorem replay_invariant {P : α → Prop} (hstep : ∀ b r, r ∈ w.records → P b → P (f b r))
    (ha : P a) : P (w.replay f redo k a) := by
  have hmem : ∀ r ∈ (w.records.take k).drop redo, r ∈ w.records := fun r hr =>
    mem_of_mem_take (mem_of_mem_drop hr)
  rw [replay]
  generalize (w.records.take k).drop redo = rs at hmem
  induction rs generalizing a with
  | nil => exact ha
  | cons r rs ih =>
    exact ih (hstep a r (hmem r (by simp)) ha) fun r' hr' => hmem r' (by simp [hr'])

/-! ### Records that stay -/

/-- The record is in the log, and no crash can take it away. -/
def Durable (r : ρ) : Prop := r ∈ w.records.take w.flushed

theorem Durable.mem_records (h : w.Durable r) : r ∈ w.records := mem_of_mem_take h

theorem Durable.crash (h : w.Durable r) (hk : w.Survives k) : (w.crash k hk).Durable r := by
  have hmem : r ∈ w.records.take k := (take_prefix_take_left hk.1).subset h
  show r ∈ (w.records.take k).take k
  rw [take_take, min_self]
  exact hmem

/-- One log is a later version of another, with no crash in between. -/
structure Grows (w w' : Wal ρ) : Prop where
  records : w.records <+: w'.records
  flushed : w.flushed ≤ w'.flushed

theorem Grows.refl (w : Wal ρ) : w.Grows w := ⟨prefix_rfl, le_refl _⟩

theorem Grows.insert (w : Wal ρ) (r : ρ) : w.Grows (w.insert r) := ⟨prefix_append _ _, le_refl _⟩

theorem Grows.flush (hk : w.Survives k) : w.Grows (w.flush k hk) := ⟨prefix_rfl, hk.1⟩

theorem Grows.mem_take {w' : Wal ρ} (h : w.Grows w') {i j : ℕ} (hij : i ≤ j)
    (hr : r ∈ w.records.take i) : r ∈ w'.records.take j :=
  (take_prefix_take_left hij).subset ((h.records.take i).subset hr)

theorem Grows.durable {w' : Wal ρ} (h : w.Grows w') (hr : w.Durable r) : w'.Durable r :=
  h.mem_take h.flushed hr

end Wal
