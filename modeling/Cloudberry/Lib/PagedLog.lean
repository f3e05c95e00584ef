/-
# A log kept in pages

Entries are appended to the last page; when it is full, a new page is begun. The last page is
closed at the end and opened again later, and it may be closed early (`turn`) once it is full.

None of this changes the entries and their order (`entries_push`, `entries_turn`,
`flatten_close`, `entries_reopen`), and no page is empty or larger than it may be (`Ok`).
-/

import Mathlib.Data.List.Basic

variable {α : Type*}

/-- The closed pages and the last one, in the order of their entries. -/
structure PagedLog (α : Type*) where
  closed : List (List α)
  last : List α

namespace PagedLog

open List

/-- All entries. -/
def entries (l : PagedLog α) : List α := l.closed.flatten ++ l.last

/-- Close the last page if it is full. -/
def turn (size : ℕ) (l : PagedLog α) : PagedLog α :=
  if l.last.length = size then ⟨l.closed ++ [l.last], []⟩ else l

/-- Append an entry. -/
def push (size : ℕ) (l : PagedLog α) (a : α) : PagedLog α :=
  ⟨(turn size l).closed, (turn size l).last ++ [a]⟩

/-- The pages once the last one is closed. -/
def close (l : PagedLog α) : List (List α) := if l.last = [] then l.closed else l.closed ++ [l.last]

/-- Open the last of the pages. -/
def reopen (pages : List (List α)) : PagedLog α := ⟨pages.dropLast, pages.getLast?.getD []⟩

/-- A page that can be stored. -/
def PageOk (size : ℕ) (page : List α) : Prop := 1 ≤ page.length ∧ page.length ≤ size

/-- No page is empty, apart from the last, or too large. -/
structure Ok (size : ℕ) (l : PagedLog α) : Prop where
  closed : ∀ page ∈ l.closed, PageOk size page
  last : l.last.length ≤ size

variable {size : ℕ} {l : PagedLog α}

theorem entries_turn : (turn size l).entries = l.entries := by
  unfold turn entries
  split_ifs
  · simp
  · rfl

theorem entries_push (a : α) : (push size l a).entries = l.entries ++ [a] := by
  have hturn := @entries_turn α size l
  rw [entries] at hturn
  rw [push, entries, ← append_assoc, hturn]

theorem flatten_close : l.close.flatten = l.entries := by
  unfold close entries
  split_ifs with hlast
  · rw [hlast, append_nil]
  · simp

theorem entries_reopen (pages : List (List α)) : (reopen pages).entries = pages.flatten := by
  rcases eq_nil_or_concat' pages with rfl | ⟨_, _, rfl⟩
  · rfl
  · simp [reopen, entries]

/-- After `turn` there is room in the last page. -/
theorem Ok.turn (hl : Ok size l) (hsize : 1 ≤ size) :
    Ok size (l.turn size) ∧ (l.turn size).last.length < size := by
  have hlast := hl.last
  unfold PagedLog.turn
  split_ifs with hfull
  · refine ⟨⟨fun page hpage => ?_, by simp⟩, Nat.lt_of_lt_of_le Nat.zero_lt_one hsize⟩
    rcases mem_append.1 hpage with hpage | hpage
    · exact hl.closed page hpage
    · obtain rfl := mem_singleton.1 hpage
      exact ⟨by omega, by omega⟩
  · exact ⟨hl, by omega⟩

theorem ok_reopen {pages : List (List α)} (hpages : ∀ page ∈ pages, PageOk size page) :
    Ok size (reopen pages) := by
  rcases eq_nil_or_concat' pages with rfl | ⟨_, page, rfl⟩
  · exact ⟨by simp [reopen], by simp [reopen]⟩
  refine ⟨fun p hp => hpages p ?_, ?_⟩
  · simp only [reopen, dropLast_concat] at hp
    exact mem_append_left _ hp
  · simpa [reopen] using (hpages page (by simp)).2

end PagedLog
