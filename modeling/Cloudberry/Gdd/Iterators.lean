/-
# The detector's iterators with in-place deletion

`gdddetectorpriv.h` walks lists and maps with loops whose body may delete the element it
stands on. A `List` is an array of cells, so a `ListCell` pointer is an index and deleting
a cell moves the later ones down; an empty list is `NIL`. A map is an array of pairs, and
deleting one moves the last pair to its place.
-/

import Cloudberry.Lib.SwapRemove

namespace Cloudberry.Gdd

variable {α : Type*}

/-- `list_head`: the first cell, `NULL` for `NIL`. -/
def listHead (l : List α) : Option ℕ := if l.isEmpty then none else some 0

/-- `lnext`: the cell after `c`, `NULL` at the end. -/
def lnext (l : List α) (c : ℕ) : Option ℕ := if c + 1 < l.length then some (c + 1) else none

/-- `GddListIter`: the list, the current cell and the cell before it. -/
structure ListIter (α : Type*) where
  list : List α
  cell : Option ℕ
  prev : Option ℕ

namespace ListIter

/-- The initialisation in `gdd_list_foreach_safe`. -/
def start (l : List α) : ListIter α := { list := l, prev := none, cell := listHead l }

/-- The increment in `gdd_list_foreach_safe`. `lnext` is handed the list as the vertex has
it now, `list_head` the one in the iterator. -/
def next (it : ListIter α) (list : List α) : ListIter α :=
  { it with
    prev := it.cell
    cell := match it.cell with
      | some c => lnext list c
      | none => listHead it.list }

/-- `gdd_list_iter_get_ptr`, for a cell that is not `NULL`. -/
def ptr (it : ListIter α) : Option α := it.cell.bind fun c => it.list[c]?

def delete (it : ListIter α) : ListIter α :=
  let list := match it.cell with
    | some c => it.list.eraseIdx c
    | none => it.list
  let prev := if list.isEmpty then none else it.prev
  { list := list, prev := prev, cell := prev }

/-- The iterator that has `i` elements behind it. -/
def standing (l : List α) (i : ℕ) : ListIter α :=
  { list := l
    cell := if i < l.length then some i else none
    prev := if i = 0 then none else some (i - 1) }

theorem start_eq_standing (l : List α) : start l = standing l 0 := by
  cases l <;> rfl

theorem ptr_standing (l : List α) (i : ℕ) : (standing l i).ptr = l[i]? := by
  by_cases hi : i < l.length
  · simp [standing, ptr, hi]
  · simp [standing, ptr, hi]

theorem next_standing {l : List α} {i : ℕ} (hi : i < l.length) :
    (standing l i).next l = standing l (i + 1) := by
  simp [standing, next, lnext, hi]

theorem list_delete_standing {l : List α} {i : ℕ} (hi : i < l.length) :
    (standing l i).delete.list = l.eraseIdx i := by
  simp [standing, delete, hi]

/-- Going on after a deletion: the iterator stands where it stood, on the element that moved
there. -/
theorem delete_next {l : List α} {i : ℕ} (hi : i < l.length) :
    (standing l i).delete.next (l.eraseIdx i) = standing (l.eraseIdx i) i := by
  have hlen : (l.eraseIdx i).length = l.length - 1 := List.length_eraseIdx_of_lt hi
  rcases Nat.eq_zero_or_pos i with rfl | _
  · -- the first cell is deleted: the loop starts again from the new head
    match hl : l.eraseIdx 0 with
    | [] => simp [standing, next, delete, listHead, hi, hl]
    | x :: xs => simp [standing, next, delete, listHead, hi, hl]
  · have hne : l.eraseIdx i ≠ [] := by
      rw [← List.length_pos_iff]
      omega
    have hback : i - 1 + 1 = i := by omega
    have hi0 : i ≠ 0 := by omega
    simp [standing, next, delete, lnext, hi, hi0, hne, hback, hlen]

end ListIter

end Cloudberry.Gdd
