/-
# Walking a finite set by its next member

A set of a linear order is often read through one operation only: the least member above the
last one that was handed out. `IsNext` is what such an operation promises and
`calls_eq_sort` what follows from it.
-/

import Mathlib.Data.Finset.Sort

namespace NextMember

open List

variable {α β : Type*}

/-- The answers of an operation that is called with its own last answer until it has none.
The number bounds the calls. -/
def calls (next : Option α → Option α) : ℕ → Option α → List α
  | 0, _ => []
  | n + 1, last =>
    match next last with
    | none => []
    | some a => a :: calls next n (some a)

variable [LinearOrder β]

/-- The least member above the last one, if there is one. Everything is above `⊥`. -/
def IsNext (S : Finset β) (last : WithBot β) : Option β → Prop
  | none => ∀ x ∈ S, ¬ last < x
  | some b => b ∈ S ∧ last < b ∧ ∀ x ∈ S, last < x → b ≤ x

variable {o : Option β}

/-- Of an ascending list of what is to come, the next member is the first. -/
theorem IsNext.eq_head? {S : Finset β} {last : WithBot β} (ho : IsNext S last o) {l : List β}
    (hl : l.Pairwise (· < ·)) (hmem : ∀ x, x ∈ l ↔ x ∈ S ∧ last < x) : o = l.head? := by
  cases l with
  | nil =>
    cases o with
    | none => rfl
    | some b => exact absurd ((hmem b).2 ⟨ho.1, ho.2.1⟩) not_mem_nil
  | cons b l =>
    have hb := (hmem b).1 mem_cons_self
    cases o with
    | none => exact absurd hb.2 (ho b hb.1)
    | some c =>
      have hcb : c ≤ b := ho.2.2 b hb.1 hb.2
      have hbc : b ≤ c := by
        rcases mem_cons.1 ((hmem c).2 ⟨ho.1, ho.2.1⟩) with rfl | hc
        · exact le_rfl
        · exact ((pairwise_cons.1 hl).1 c hc).le
      rw [head?_cons, le_antisymm hcb hbc]

variable {next : Option α → Option α} {f : β → α} {S : Finset β}

section

variable (hnext : ∀ b ∈ S, ∃ o, IsNext S b o ∧ next (some (f b)) = o.map f)
include hnext

/-- The members still to come, one per call. -/
theorem calls_eq_map {last : WithBot β} (ho : IsNext S last o) {asked : Option α}
    (hasked : next asked = o.map f) {l : List β} (hl : l.Pairwise (· < ·))
    (hmem : ∀ x, x ∈ l ↔ x ∈ S ∧ last < x) {n : ℕ} (hn : l.length < n) :
    calls next n asked = l.map f := by
  induction l generalizing last o asked n with
  | nil =>
    obtain rfl := ho.eq_head? hl hmem
    obtain ⟨n, rfl⟩ := Nat.exists_eq_add_of_lt hn
    rw [calls, hasked]
    rfl
  | cons b l ih =>
    obtain rfl := ho.eq_head? hl hmem
    obtain ⟨hhead, htail⟩ := pairwise_cons.1 hl
    cases n with
    | zero => cases hn
    | succ n =>
      have hb := (hmem b).1 mem_cons_self
      obtain ⟨_, ho', hnext'⟩ := hnext b hb.1
      have hrest : ∀ x, x ∈ l ↔ x ∈ S ∧ (b : WithBot β) < x := by
        intro x
        constructor
        · intro hx
          exact ⟨((hmem x).1 (mem_cons_of_mem b hx)).1, WithBot.coe_lt_coe.2 (hhead x hx)⟩
        · rintro ⟨hx, hlt⟩
          have hcons := (hmem x).2 ⟨hx, hb.2.trans hlt⟩
          exact (mem_cons.1 hcons).resolve_left (WithBot.coe_lt_coe.1 hlt).ne'
      rw [calls, hasked]
      simp only [head?_cons, Option.map_some, map_cons]
      rw [ih ho' hnext' htail hrest (Nat.lt_of_succ_lt_succ hn)]

/-- **The members once each, in ascending order.** One call more than there are members is
enough, and the last one finds none. -/
theorem calls_eq_sort (ho : IsNext S ⊥ o) {asked : Option α} (hasked : next asked = o.map f) {n : ℕ}
    (hn : S.card < n) : calls next n asked = S.sort.map f := by
  refine calls_eq_map hnext ho hasked S.sortedLT_sort.pairwise (fun x => ?_)
    (by rwa [Finset.length_sort])
  rw [Finset.mem_sort]
  exact ⟨fun hx => ⟨hx, WithBot.bot_lt_coe x⟩, And.left⟩

end

end NextMember
