/-
# Dropping repeats from a sorted list

One pass over a list that drops every element equal to the one kept last. The pass has to
start with some value as the last one kept, and this is where it differs from removing
duplicates: on a sorted list it keeps exactly the elements of the list, once each, except
that the starting value is dropped unless something smaller comes before it
(`mem_removeRepeats`).
-/

import Mathlib.Data.List.Sort

namespace List

variable {α : Type*} [LinearOrder α]

/-- Drop each element equal to the last one kept, which is `last` at the start. -/
def removeRepeats (last : α) : List α → List α
  | [] => []
  | x :: xs => if x = last then removeRepeats last xs else x :: removeRepeats x xs

/-- **What the pass keeps of a sorted list.** -/
theorem mem_removeRepeats {l : List α} (hl : l.Pairwise (· ≤ ·)) (last x : α) :
    x ∈ l.removeRepeats last ↔ x ∈ l ∧ (x = last → ∃ y ∈ l, y < x) := by
  induction l generalizing last with
  | nil => simp [removeRepeats]
  | cons a l ih =>
    obtain ⟨hle, hl⟩ := pairwise_cons.1 hl
    -- nothing in the list is before its head
    have hmin : ∀ y ∈ a :: l, ¬ y < a := by
      rintro y hy hlt
      rcases mem_cons.1 hy with rfl | hy
      · exact lt_irrefl _ hlt
      · exact absurd (hle y hy) (not_le.2 hlt)
    rw [removeRepeats]
    split_ifs with ha
    · subst ha
      rw [ih hl]
      constructor
      · rintro ⟨hx, hlast⟩
        exact ⟨mem_cons_of_mem _ hx, fun heq => (hlast heq).imp fun y hy =>
          ⟨mem_cons_of_mem _ hy.1, hy.2⟩⟩
      · rintro ⟨hx, hlast⟩
        have hne : x ≠ a := fun heq => by
          obtain ⟨y, hy, hlt⟩ := hlast heq
          exact hmin y hy (heq ▸ hlt)
        exact ⟨(mem_cons.1 hx).resolve_left hne, fun heq => absurd heq hne⟩
    · rw [mem_cons, ih hl]
      constructor
      · rintro (rfl | ⟨hx, -⟩)
        · exact ⟨mem_cons_self .., fun heq => absurd heq ha⟩
        · refine ⟨mem_cons_of_mem _ hx, fun heq => ⟨a, mem_cons_self .., ?_⟩⟩
          exact lt_of_le_of_ne (hle x hx) fun hax => ha (hax.trans heq)
      · rintro ⟨hx, -⟩
        rcases mem_cons.1 hx with rfl | hx
        · exact Or.inl rfl
        · by_cases hxa : x = a
          · exact Or.inl hxa
          · exact Or.inr ⟨hx, fun heq => absurd heq hxa⟩

/-- What the pass keeps of a sorted list is strictly increasing. -/
theorem pairwise_removeRepeats {l : List α} (hl : l.Pairwise (· ≤ ·)) (last : α) :
    (l.removeRepeats last).Pairwise (· < ·) := by
  induction l generalizing last with
  | nil => exact Pairwise.nil
  | cons a l ih =>
    obtain ⟨hle, hl⟩ := pairwise_cons.1 hl
    rw [removeRepeats]
    split_ifs with ha
    · exact ih hl last
    refine pairwise_cons.2 ⟨fun x hx => ?_, ih hl a⟩
    obtain ⟨hxl, hlast⟩ := (mem_removeRepeats hl a x).1 hx
    refine lt_of_le_of_ne (hle x hxl) fun heq => ?_
    obtain ⟨y, hy, hlt⟩ := hlast heq.symm
    exact absurd (hle y hy) (not_le.2 (heq ▸ hlt))

end List
