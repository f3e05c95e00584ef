/-
# Budgets that are handed down a tree

Every node hands its children no more than it has itself.
-/

import Mathlib.Algebra.Order.Ring.Nat
import Mathlib.Algebra.Order.BigOperators.Group.Finset

namespace BudgetTree

open Finset

variable {ι : Type*}

/-- The second node is the first one or below it. -/
def Below (children : ι → List ι) : ι → ι → Prop := Relation.ReflTransGen fun x c => c ∈ children x

variable {children : ι → List ι} {budget : ι → ℕ}

open Classical in
/-- What lies below several nodes is at most the sum over these. -/
theorem sum_le_sum_below (l : List ι) (A : Finset ι) (hA : ∀ a ∈ A, ∃ c ∈ l, Below children c a) :
    ∑ a ∈ A, budget a ≤ (l.map fun c => ∑ a ∈ A.filter (Below children c), budget a).sum := by
  induction l generalizing A with
  | nil =>
    have hempty : A = ∅ := eq_empty_of_forall_notMem fun a ha => by
      obtain ⟨c, hc, -⟩ := hA a ha
      cases hc
    simp [hempty]
  | cons c l ih =>
    have hrest : ∀ a ∈ A.filter fun a => ¬ Below children c a, ∃ d ∈ l, Below children d a := by
      intro a ha
      obtain ⟨ha, hnot⟩ := mem_filter.1 ha
      obtain ⟨d, hd, hbelow⟩ := hA a ha
      rcases List.mem_cons.1 hd with rfl | hd
      · exact absurd hbelow hnot
      · exact ⟨d, hd, hbelow⟩
    have hmono : ∀ d ∈ l, (∑ a ∈ (A.filter fun a => ¬ Below children c a).filter
        (Below children d), budget a) ≤ ∑ a ∈ A.filter (Below children d), budget a := by
      intro d _
      exact sum_le_sum_of_subset (filter_subset_filter _ (filter_subset _ _))
    calc ∑ a ∈ A, budget a
        = ∑ a ∈ A.filter (Below children c), budget a +
            ∑ a ∈ A.filter fun a => ¬ Below children c a, budget a :=
          (sum_filter_add_sum_filter_not A _ _).symm
      _ ≤ ∑ a ∈ A.filter (Below children c), budget a +
            (l.map fun d => ∑ a ∈ A.filter (Below children d), budget a).sum :=
          Nat.add_le_add_left ((ih _ hrest).trans (List.sum_le_sum hmono)) _

/-- **Nodes of which none is below another have together at most the budget of the root.** -/
theorem sum_le_budget {x : ι} (rank : ι → ℕ)
    (hrank : ∀ y, Below children x y → ∀ c ∈ children y, rank c < rank y)
    (hbudget : ∀ y, Below children x y → ((children y).map budget).sum ≤ budget y) (A : Finset ι)
    (hbelow : ∀ a ∈ A, Below children x a)
    (hanti : ∀ a ∈ A, ∀ b ∈ A, a ≠ b → ¬ Below children a b) :
    ∑ a ∈ A, budget a ≤ budget x := by
  classical
  induction hn : rank x using Nat.strong_induction_on generalizing x A with
  | _ n ih =>
    by_cases hx : x ∈ A
    · have hsingle : A = {x} := by
        refine eq_singleton_iff_unique_mem.2 ⟨hx, fun a ha => ?_⟩
        by_contra hne
        exact hanti x hx a ha (Ne.symm hne) (hbelow a ha)
      rw [hsingle, sum_singleton]
    have hchild : ∀ a ∈ A, ∃ c ∈ children x, Below children c a := by
      intro a ha
      rcases Relation.ReflTransGen.cases_head (hbelow a ha) with rfl | ⟨c, hc, hca⟩
      · exact absurd ha hx
      · exact ⟨c, hc, hca⟩
    have hsub : ∀ c ∈ children x, (∑ a ∈ A.filter (Below children c), budget a) ≤ budget c := by
      intro c hc
      have hdown : ∀ y, Below children c y → Below children x y :=
        fun y hy => Relation.ReflTransGen.head hc hy
      refine ih (rank c) (hn ▸ hrank x Relation.ReflTransGen.refl c hc)
        (fun y hy => hrank y (hdown y hy)) (fun y hy => hbudget y (hdown y hy)) _
        (fun a ha => (mem_filter.1 ha).2) (fun a ha b hb => ?_) rfl
      exact hanti a (mem_filter.1 ha).1 b (mem_filter.1 hb).1
    calc ∑ a ∈ A, budget a
        ≤ ((children x).map fun c => ∑ a ∈ A.filter (Below children c), budget a).sum :=
          sum_le_sum_below _ A hchild
      _ ≤ ((children x).map budget).sum := List.sum_le_sum hsub
      _ ≤ budget x := hbudget x Relation.ReflTransGen.refl

end BudgetTree
