/-
# Greatest stable sub-multisets

A support rule says when an element is held up by others. A multiset is stable if its own
elements support each of them. Whatever order elements without support are taken away in, no
stable part is ever lost (`Covers.prune`), so a process that stops at a stable rest has
found the greatest one (`isGreatest_of_covers`).

The elements are kept under addresses (`values`): equal ones at different addresses are
different copies.
-/

import Mathlib.Data.Finset.Defs
import Mathlib.Data.Multiset.Filter
import Mathlib.Order.Bounds.Basic

/-- When the elements that satisfy a predicate support an element. -/
structure SupportRule (β : Type*) where
  /-- `holds p b`: the elements that satisfy `p` support `b`. -/
  holds : (β → Prop) → β → Prop
  /-- More elements support no less. -/
  mono : ∀ {p q : β → Prop} {b : β}, (∀ x, p x → q x) → holds p b → holds q b

namespace SupportRule

open Multiset

variable {α β : Type*} (R : SupportRule β)

/-- The elements of `S` support every element of `S`. -/
def Stable (S : Multiset β) : Prop := ∀ b ∈ S, R.holds (· ∈ S) b

/-- What is held at the addresses `L`, copies included. -/
def values (val : α → β) (L : Finset α) : Multiset β := L.val.map val

variable {val : α → β}

theorem mem_values {L : Finset α} {b : β} : b ∈ values val L ↔ ∃ a ∈ L, val a = b := by
  rw [values, mem_map]
  rfl

theorem exists_mem_values {L : Finset α} {q : β → Prop} :
    (∃ b, b ∈ values val L ∧ q b) ↔ ∃ a ∈ L, q (val a) := by
  constructor
  · rintro ⟨b, hb, hq⟩
    obtain ⟨a, ha, rfl⟩ := mem_values.1 hb
    exact ⟨a, ha, hq⟩
  · rintro ⟨a, ha, hq⟩
    exact ⟨val a, mem_values.2 ⟨a, ha, rfl⟩, hq⟩

theorem values_le {L E : Finset α} (hsub : L ⊆ E) : values val L ≤ values val E :=
  map_le_map (Finset.val_le_iff.2 hsub)

/-- No copy of a stable part of `E` is missing from `L`. -/
def Covers (val : α → β) (E L : Finset α) : Prop :=
  ∀ T, T ≤ values val E → R.Stable T → ∀ a ∈ E, val a ∈ T → a ∈ L

variable {R} {val : α → β} {E L L' : Finset α}

theorem covers_self : R.Covers val E E := fun _ _ _ _ ha _ => ha

/-- **Taking away what has no support loses nothing stable.** -/
theorem Covers.prune (hcov : R.Covers val E L)
    (hgone : ∀ a ∈ L, a ∉ L' → ¬ R.holds (· ∈ values val L) (val a)) : R.Covers val E L' := by
  intro T hT hstable a haE haT
  by_contra haL'
  refine hgone a (hcov T hT hstable a haE haT) haL' (R.mono ?_ (hstable _ haT))
  intro b hb
  obtain ⟨a', ha'E, rfl⟩ := mem_values.1 (mem_of_le hT hb)
  exact mem_values.2 ⟨a', hcov T hT hstable a' ha'E hb, rfl⟩

/-- **A stable rest that covers everything stable is the greatest one.** -/
theorem isGreatest_of_covers (hsub : L ⊆ E) (hcov : R.Covers val E L)
    (hstable : R.Stable (values val L)) :
    IsGreatest {S | S ≤ values val E ∧ R.Stable S} (values val L) := by
  classical
  refine ⟨⟨values_le hsub, hstable⟩, ?_⟩
  rintro T ⟨hT, hTstable⟩
  calc T ≤ (values val E).filter (· ∈ T) := le_filter.2 ⟨hT, fun _ h => h⟩
    _ = (E.val.filter fun a => val a ∈ T).map val := filter_map ..
    _ ≤ values val L := by
      refine map_le_map ?_
      rw [le_iff_subset (E.nodup.filter _)]
      intro a ha
      obtain ⟨haE, haT⟩ := mem_filter.1 ha
      exact hcov T hT hTstable a haE haT

/-- A stable sub-multiset is below the greatest one, so each of its elements is kept with
all its copies. -/
theorem Covers.count_values [DecidableEq β] (hsub : L ⊆ E) (hcov : R.Covers val E L)
    {T : Multiset β} (hT : T ≤ values val E) (hstable : R.Stable T) {b : β} (hb : b ∈ T) :
    (values val L).count b = (values val E).count b := by
  refine le_antisymm (count_le_of_le _ (values_le hsub)) ?_
  rw [values, values, count_map, count_map]
  refine card_le_card ?_
  rw [le_iff_subset (E.nodup.filter _)]
  intro a ha
  obtain ⟨haE, rfl⟩ := mem_filter.1 ha
  exact mem_filter.2 ⟨hcov T hT hstable a haE hb, rfl⟩

end SupportRule
