/-
# Removal by moving the last element

The usual way to delete from an unordered array: overwrite the slot with the last
element and shrink by one. As far as its elements go this is `eraseIdx`
(`swapRemove_perm`), which is all that an array used as a set needs.
-/

import Mathlib.Data.List.Perm.Basic

namespace List

variable {α : Type*}

/-- Overwrite position `i` with the last element, then drop the last one. -/
def swapRemove (l : List α) (i : ℕ) : List α :=
  match l.getLast? with
  | none => l
  | some z => (l.set i z).dropLast

/-- Swap removal leaves what is before the removed element alone and only reorders what is
after it. -/
theorem swapRemove_append_cons (front : List α) (a : α) (rest : List α) :
    ∃ rest', rest' ~ rest ∧ (front ++ a :: rest).swapRemove front.length = front ++ rest' := by
  rcases eq_nil_or_concat rest with rfl | ⟨back, z, rfl⟩
  · refine ⟨[], Perm.refl _, ?_⟩
    rw [swapRemove, getLast?_concat]
    simp
  refine ⟨z :: back, (perm_append_singleton z back).symm.trans (by simp), ?_⟩
  have hlast : (front ++ a :: (back ++ [z])).getLast? = some z := by
    rw [← cons_append, ← append_assoc, getLast?_concat]
  have hset : (front ++ a :: (back ++ [z])).set front.length z = front ++ z :: back ++ [z] := by
    simp
  rw [concat_eq_append, swapRemove, hlast]
  dsimp only
  rw [hset, dropLast_concat]

/-- **Swap removal deletes exactly the element at `i`**, up to order. -/
theorem swapRemove_perm {l : List α} {i : ℕ} (hi : i < l.length) :
    l.swapRemove i ~ l.eraseIdx i := by
  have hsplit : l = l.take i ++ l[i] :: l.drop (i + 1) := by simp
  have hfront : (l.take i).length = i := by simp; omega
  obtain ⟨_, hrest, heq⟩ := swapRemove_append_cons (l.take i) l[i] (l.drop (i + 1))
  rw [hfront, ← hsplit] at heq
  rw [heq, eraseIdx_eq_take_drop_succ]
  exact hrest.append_left _

/-- Removing the first occurrence of a value by swapping is `erase`. -/
theorem swapRemove_idxOf_perm [DecidableEq α] {l : List α} {a : α} (ha : a ∈ l) :
    l.swapRemove (l.idxOf a) ~ l.erase a := by
  have hi : l.idxOf a < l.length := idxOf_lt_length_iff.2 ha
  rw [erase_eq_eraseIdx_of_idxOf rfl]
  exact swapRemove_perm hi

end List
