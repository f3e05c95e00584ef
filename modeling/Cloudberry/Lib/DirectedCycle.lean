/-
# Directed cycles

Two facts about walking along a relation. In a cycle every element has a successor and a
predecessor (`Cycle.Chain.exists_next`, `Cycle.Chain.exists_prev`). Conversely, a nonempty
finite set in which every element has a successor contains a cycle without repetitions
(`exists_cycle_of_forall_next`): follow the successors until one comes back.
-/

import Mathlib.Dynamics.PeriodicPts.Defs
import Mathlib.Order.Preorder.Finite

namespace Cycle

open List

variable {α : Type*} {r : α → α → Prop} {c : Cycle α} {a : α}

/-- An element of a cycle can be taken as its first. -/
theorem exists_eq_cons (ha : a ∈ c) : ∃ l : List α, c = ((a :: l : List α) : Cycle α) := by
  induction c using Quotient.inductionOn with
  | h l =>
    obtain ⟨front, back, rfl⟩ := append_of_mem (Cycle.mem_coe_iff.1 ha)
    refine ⟨back ++ front, Cycle.coe_eq_coe.2 ?_⟩
    exact isRotated_append

theorem Chain.exists_next (hc : c.Chain r) (ha : a ∈ c) : ∃ b ∈ c, r a b := by
  obtain ⟨l, rfl⟩ := exists_eq_cons ha
  rw [Cycle.chain_coe_cons] at hc
  match l with
  | [] => exact ⟨a, by simp, by simpa using hc⟩
  | b :: l => exact ⟨b, by simp, (isChain_cons_cons.1 hc).1⟩

theorem Chain.exists_prev (hc : c.Chain r) (ha : a ∈ c) : ∃ b ∈ c, r b a := by
  obtain ⟨l, rfl⟩ := exists_eq_cons ha
  have hlast := (Cycle.chain_ne_nil r (cons_ne_nil a l)).1 hc
  exact ⟨_, Cycle.mem_coe_iff.2 (getLast_mem _), (isChain_cons_cons.1 hlast).1⟩

end Cycle

section Existence

variable {α : Type*} {r : α → α → Prop} {s : Set α}

/-- Every orbit in a finite set runs into a periodic point. -/
theorem exists_iterate_mem_periodicPts {f : α → α} (hs : s.Finite) (hmaps : Set.MapsTo f s s)
    {a : α} (ha : a ∈ s) : ∃ m, f^[m] a ∈ Function.periodicPts f := by
  obtain ⟨m, n, _, heq⟩ := hs.exists_lt_map_eq_of_forall_mem (fun n => hmaps.iterate n ha)
  refine ⟨m, n - m, by omega, ?_⟩
  have hsplit : n - m + m = n := by omega
  rw [Function.IsPeriodicPt, Function.IsFixedPt, ← Function.iterate_add_apply, hsplit]
  exact heq.symm

/-- **Where nothing is a dead end there is a cycle.** -/
theorem exists_cycle_of_forall_next (hs : s.Finite) (hne : s.Nonempty)
    (hnext : ∀ a ∈ s, ∃ b ∈ s, r a b) :
    ∃ c : Cycle α, c ≠ Cycle.nil ∧ c.Nodup ∧ c.Chain r ∧ ∀ a ∈ c, a ∈ s := by
  have : Nonempty α := hne.to_type
  choose! f hfs hfr using hnext
  have hmaps : Set.MapsTo f s s := hfs
  obtain ⟨a, ha⟩ := hne
  obtain ⟨m, hper⟩ := exists_iterate_mem_periodicPts hs hmaps ha
  refine ⟨Function.periodicOrbit f (f^[m] a), ?_, Function.nodup_periodicOrbit, ?_, ?_⟩
  · rw [Ne, Function.periodicOrbit_eq_nil_iff_not_periodic_pt, not_not]
    exact hper
  · rw [Function.periodicOrbit_chain' r hper]
    intro n
    rw [Function.iterate_succ_apply', ← Function.iterate_add_apply]
    exact hfr _ (hmaps.iterate _ ha)
  · intro b hb
    obtain ⟨n, rfl⟩ := (Function.mem_periodicOrbit_iff hper).1 hb
    rw [← Function.iterate_add_apply]
    exact hmaps.iterate _ ha

end Existence
