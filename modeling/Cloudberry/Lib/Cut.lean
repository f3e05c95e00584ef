/-
# Cuts of a linear order

A cut lies between two parts of an order: just before an element, just after it, or before or
after everything. The cuts are linearly ordered again, and an interval with open, closed and
infinite ends is what lies between two of them; so a comparison of ends is a comparison of cuts,
whatever kinds of ends are compared.

The elements may be read inside a larger order `β` (`Below`), for example a dense one. There are
always elements between two different cuts if `β` is dense and has no ends (`exists_above_below`).
-/

import Mathlib.Order.Hom.Basic
import Mathlib.Data.Prod.Lex
import Mathlib.Order.WithBot

/-- A cut of the order `α`. -/
inductive Cut (α : Type*) where
  | bot
  | before (a : α)
  | after (a : α)
  | top
deriving DecidableEq

namespace Cut

open Prod

variable {α β : Type*} [LinearOrder α] [LinearOrder β]

/-- The place of a cut. -/
def place : Cut α → WithBot (WithTop (α ×ₗ Bool))
  | .bot => ⊥
  | .before a => ((toLex (a, false) : α ×ₗ Bool) : WithTop (α ×ₗ Bool))
  | .after a => ((toLex (a, true) : α ×ₗ Bool) : WithTop (α ×ₗ Bool))
  | .top => ((⊤ : WithTop (α ×ₗ Bool)) : WithBot (WithTop (α ×ₗ Bool)))

theorem place_injective : Function.Injective (place : Cut α → WithBot (WithTop (α ×ₗ Bool))) := by
  intro c d h
  cases c <;> cases d <;> simp_all [place]

instance : LinearOrder (Cut α) := LinearOrder.lift' place place_injective

variable {c d : Cut α}

theorem lt_def : c < d ↔ c.place < d.place := Iff.rfl

@[simp] theorem bot_lt_before {a : α} : bot < before a := by simp [lt_def, place]
@[simp] theorem bot_lt_after {a : α} : bot < after a := by simp [lt_def, place]
@[simp] theorem before_lt_top {a : α} : before a < top :=
  WithBot.coe_lt_coe.2 (WithTop.coe_lt_top _)
@[simp] theorem after_lt_top {a : α} : after a < top := WithBot.coe_lt_coe.2 (WithTop.coe_lt_top _)
@[simp] theorem bot_lt_top : (bot : Cut α) < top := by simp [lt_def, place]

variable {a b : α}

@[simp] theorem before_lt_before : before a < before b ↔ a < b := by
  simp [lt_def, place, Lex.toLex_lt_toLex]

@[simp] theorem before_lt_after : before a < after b ↔ a ≤ b := by
  simp [lt_def, place, Lex.toLex_lt_toLex, le_iff_lt_or_eq]

@[simp] theorem after_lt_before : after a < before b ↔ a < b := by
  simp [lt_def, place, Lex.toLex_lt_toLex]

@[simp] theorem after_lt_after : after a < after b ↔ a < b := by
  simp [lt_def, place, Lex.toLex_lt_toLex]

@[simp] theorem before_le_before : before a ≤ before b ↔ a ≤ b := by
  rw [← not_lt, before_lt_before, not_lt]

@[simp] theorem before_le_after : before a ≤ after b ↔ a ≤ b := by
  rw [← not_lt, after_lt_before, not_lt]

@[simp] theorem after_le_before : after a ≤ before b ↔ a < b := by
  rw [← not_lt, before_lt_after, not_le]

@[simp] theorem after_le_after : after a ≤ after b ↔ a ≤ b := by
  rw [← not_lt, after_lt_after, not_lt]

@[simp] theorem bot_le (c : Cut α) : bot ≤ c := by
  cases c
  · exact le_rfl
  · exact bot_lt_before.le
  · exact bot_lt_after.le
  · exact bot_lt_top.le

@[simp] theorem le_top (c : Cut α) : c ≤ top := by
  cases c
  · exact bot_lt_top.le
  · exact before_lt_top.le
  · exact after_lt_top.le
  · exact le_rfl

/-- The cut is below the element `x` of the larger order. -/
def Below (e : α ↪o β) (x : β) : Cut α → Prop
  | .bot => True
  | .before a => e a ≤ x
  | .after a => e a < x
  | .top => False

/-- What is below a cut that is below `x` is below `x`. -/
theorem Below.anti {e : α ↪o β} {x : β} (hd : Below e x d) (hcd : c ≤ d) : Below e x c := by
  rcases hcd.eq_or_lt with rfl | hlt
  · exact hd
  cases c with
  | bot => trivial
  | before a =>
    cases d with
    | bot => exact absurd hlt (not_lt.2 (bot_le _))
    | before b => exact (e.monotone (before_lt_before.1 hlt).le).trans hd
    | after b => exact (e.monotone (before_lt_after.1 hlt)).trans (le_of_lt hd)
    | top => exact hd.elim
  | after a =>
    cases d with
    | bot => exact absurd hlt (not_lt.2 (bot_le _))
    | before b => exact (e.strictMono (after_lt_before.1 hlt)).trans_le hd
    | after b => exact (e.strictMono (after_lt_after.1 hlt)).trans hd
    | top => exact hd.elim
  | top => exact absurd hlt (not_lt.2 (le_top _))

/-- **Between two cuts there is an element**, in a dense order without ends. -/
theorem exists_above_below [DenselyOrdered β] [NoMinOrder β] [NoMaxOrder β] [Nonempty β]
    (e : α ↪o β) (h : c < d) : ∃ x, Below e x c ∧ ¬ Below e x d := by
  cases c with
  | bot =>
    cases d with
    | bot => exact absurd h (lt_irrefl _)
    | before b =>
      obtain ⟨x, hx⟩ := exists_lt (e b)
      exact ⟨x, trivial, not_le.2 hx⟩
    | after b => exact ⟨e b, trivial, lt_irrefl _⟩
    | top => exact ⟨Classical.arbitrary β, trivial, fun hx => hx⟩
  | before a =>
    cases d with
    | bot => exact absurd h (not_lt.2 (bot_le _))
    | before b => exact ⟨e a, le_rfl, not_le.2 (e.strictMono (before_lt_before.1 h))⟩
    | after b => exact ⟨e a, le_rfl, not_lt.2 (e.monotone (before_lt_after.1 h))⟩
    | top => exact ⟨e a, le_rfl, fun hx => hx⟩
  | after a =>
    cases d with
    | bot => exact absurd h (not_lt.2 (bot_le _))
    | before b =>
      obtain ⟨x, hax, hxb⟩ := DenselyOrdered.dense _ _ (e.strictMono (after_lt_before.1 h))
      exact ⟨x, hax, not_le.2 hxb⟩
    | after b => exact ⟨e b, e.strictMono (after_lt_after.1 h), lt_irrefl _⟩
    | top =>
      obtain ⟨x, hx⟩ := exists_gt (e a)
      exact ⟨x, hx, fun hx => hx⟩
  | top => exact absurd h (not_lt.2 (le_top _))

end Cut
