/-
# Requests broadcast to several parties, each copy handled at most once

A caller sends one request to a finite set of parties and waits for their answers. A
copy of the request is on its way (`inFlight`) until it is lost or handled; handling it
leaves one answer, yes or no (`replies`). Copies arrive in any order and after any
delay, but never twice. Nothing here knows what a request is.

The well-formedness of such a network is part of it: a copy on its way was sent and is
unanswered, and nobody answers both yes and no.
-/

import Mathlib.Data.Fintype.Basic

/-- Appending keeps the entries there are. -/
theorem List.getElem?_append_some {α : Type*} {l l' : List α} {k : ℕ} {x : α}
    (h : l[k]? = some x) : (l ++ l')[k]? = some x := by
  rw [getElem?_append_left (List.getElem?_eq_some_iff.1 h).1]
  exact h

/-- A network over which requests of type `ρ` are sent to parties of type `δ`. Request
number `k` is `calls[k]`, with the parties it went to. -/
structure Broadcast (ρ δ : Type*) [DecidableEq δ] where
  calls : List (ρ × Finset δ)
  inFlight : Finset (ℕ × δ)
  replies : Finset (ℕ × δ × Bool)
  sent : ∀ k a, (k, a) ∈ inFlight → ∃ c, calls[k]? = some c ∧ a ∈ c.2
  reply_sent : ∀ k a b, (k, a, b) ∈ replies → ∃ c, calls[k]? = some c ∧ a ∈ c.2
  pending : ∀ k a b, (k, a) ∈ inFlight → (k, a, b) ∉ replies
  unique : ∀ k a, (k, a, true) ∈ replies → (k, a, false) ∉ replies

namespace Broadcast

open Finset

variable {ρ δ : Type*} [DecidableEq δ]

variable (net : Broadcast ρ δ)

/-- Party `a` answered request `k` with yes. -/
def Acked (k : ℕ) (a : δ) : Prop := (k, a, true) ∈ net.replies

/-- Party `a` answered request `k` with no. -/
def Refused (k : ℕ) (a : δ) : Prop := (k, a, false) ∈ net.replies

instance (net : Broadcast ρ δ) (k : ℕ) (a : δ) : Decidable (net.Acked k a) :=
  inferInstanceAs (Decidable (_ ∈ _))

instance (net : Broadcast ρ δ) (k : ℕ) (a : δ) : Decidable (net.Refused k a) :=
  inferInstanceAs (Decidable (_ ∈ _))

/-- Everybody request `k` went to said yes. -/
def succeeded (k : ℕ) : Bool :=
  match net.calls[k]? with
  | some c => decide (∀ a ∈ c.2, net.Acked k a)
  | none => false

/-- Everybody request `k` went to has answered. -/
def answered (k : ℕ) : Bool :=
  match net.calls[k]? with
  | some c => decide (∀ a ∈ c.2, net.Acked k a ∨ net.Refused k a)
  | none => false

/-- Nothing was sent yet. -/
def nil : Broadcast ρ δ where
  calls := []
  inFlight := ∅
  replies := ∅
  sent := by simp
  reply_sent := by simp
  pending := by simp
  unique := by simp

/-- Send the request `r` to the parties in `dst`. -/
def call (r : ρ) (dst : Finset δ) : Broadcast ρ δ where
  calls := net.calls ++ [(r, dst)]
  inFlight := net.inFlight ∪ dst.image fun a => (net.calls.length, a)
  replies := net.replies
  sent := by
    intro k a h
    simp only [mem_union, mem_image, Prod.mk.injEq] at h
    rcases h with h | ⟨b, hb, rfl, rfl⟩
    · obtain ⟨c, hc, ha⟩ := net.sent k a h
      exact ⟨c, List.getElem?_append_some hc, ha⟩
    · exact ⟨(r, dst), by simp, hb⟩
  reply_sent := by
    intro k a b h
    obtain ⟨c, hc, ha⟩ := net.reply_sent k a b h
    exact ⟨c, List.getElem?_append_some hc, ha⟩
  pending := by
    intro k a b h hr
    simp only [mem_union, mem_image, Prod.mk.injEq] at h
    rcases h with h | ⟨c, _, rfl, rfl⟩
    · exact net.pending k a b h hr
    · obtain ⟨d, hd, -⟩ := net.reply_sent _ _ _ hr
      exact Nat.lt_irrefl _ (List.getElem?_eq_some_iff.1 hd).1
  unique := net.unique

/-- The copy of request `k` for `a` is lost. -/
def lose (k : ℕ) (a : δ) : Broadcast ρ δ where
  calls := net.calls
  inFlight := net.inFlight.erase (k, a)
  replies := net.replies
  sent := fun j b h => net.sent j b (mem_of_mem_erase h)
  reply_sent := net.reply_sent
  pending := fun j b c h => net.pending j b c (mem_of_mem_erase h)
  unique := net.unique

/-- Party `a` handles its copy of request `k` and answers `b`. -/
def answer (k : ℕ) (a : δ) (b : Bool) (h : (k, a) ∈ net.inFlight) : Broadcast ρ δ where
  calls := net.calls
  inFlight := net.inFlight.erase (k, a)
  replies := insert (k, a, b) net.replies
  sent := fun j c hj => net.sent j c (mem_of_mem_erase hj)
  reply_sent := by
    intro j c d hj
    rcases mem_insert.1 hj with heq | hj
    · simp only [Prod.mk.injEq] at heq
      rw [heq.1, heq.2.1]
      exact net.sent k a h
    · exact net.reply_sent j c d hj
  pending := by
    intro j c d hj hr
    obtain ⟨hne, hj⟩ := mem_erase.1 hj
    rcases mem_insert.1 hr with heq | hr
    · simp only [Prod.mk.injEq] at heq
      exact hne (by rw [heq.1, heq.2.1])
    · exact net.pending j c d hj hr
  unique := by
    intro j c ht hf
    rcases mem_insert.1 ht with heq | ht <;> rcases mem_insert.1 hf with heq' | hf
    · simp only [Prod.mk.injEq] at heq heq'
      rw [← heq.2.2] at heq'
      exact absurd heq'.2.2 (by simp)
    · simp only [Prod.mk.injEq] at heq
      rw [heq.1, heq.2.1] at hf
      exact net.pending k a _ h hf
    · simp only [Prod.mk.injEq] at heq'
      rw [heq'.1, heq'.2.1] at ht
      exact net.pending k a _ h ht
    · exact net.unique j c ht hf

variable {net : Broadcast ρ δ} {k : ℕ} {a : δ} {c : ρ × Finset δ}

/-- A request keeps its number. -/
theorem calls_call (h : net.calls[k]? = some c) (r : ρ) (dst : Finset δ) :
    (net.call r dst).calls[k]? = some c :=
  List.getElem?_append_some h

variable {dst : Finset δ}

/-- The requests after a call: the earlier ones and the new one. -/
theorem calls_call_iff {r : ρ} : (net.call r dst).calls[k]? = some c ↔
      net.calls[k]? = some c ∨ k = net.calls.length ∧ c = (r, dst) := by
  constructor
  · intro h
    rcases Nat.lt_trichotomy k net.calls.length with hk | hk | hk
    · rw [call, List.getElem?_append_left hk] at h
      exact .inl h
    · subst hk
      simp only [call, List.getElem?_concat_length, Option.some.injEq] at h
      exact .inr ⟨rfl, h.symm⟩
    · have := (List.getElem?_eq_some_iff.1 h).1
      simp only [call, List.length_append, List.length_singleton] at this
      omega
  · rintro (h | ⟨rfl, rfl⟩)
    · exact calls_call h r dst
    · simp [call]

/-- The copies on their way after a call: the earlier ones and those of the new request. -/
theorem mem_inFlight_call {r : ρ} : (k, a) ∈ (net.call r dst).inFlight ↔
      (k, a) ∈ net.inFlight ∨ k = net.calls.length ∧ a ∈ dst := by
  simp only [call, mem_union, mem_image, Prod.mk.injEq]
  constructor
  · rintro (h | ⟨b, hb, rfl, rfl⟩)
    · exact .inl h
    · exact .inr ⟨rfl, hb⟩
  · rintro (h | ⟨rfl, ha⟩)
    · exact .inl h
    · exact .inr ⟨a, ha, rfl, rfl⟩

@[simp] theorem acked_call {r : ρ} : (net.call r dst).Acked k a ↔ net.Acked k a := Iff.rfl

@[simp] theorem refused_call {r : ρ} : (net.call r dst).Refused k a ↔ net.Refused k a := Iff.rfl

/-- Nobody has answered a request that is only being sent. -/
theorem not_acked_length : ¬ net.Acked net.calls.length a := by
  intro h
  obtain ⟨c, hc, -⟩ := net.reply_sent _ _ _ h
  exact Nat.lt_irrefl _ (List.getElem?_eq_some_iff.1 hc).1

/-- After an answer, the replies are the earlier ones and the new one. -/
theorem mem_replies_answer {j : ℕ} {c : δ} {b d : Bool} {h : (k, a) ∈ net.inFlight} :
    (j, c, d) ∈ (net.answer k a b h).replies ↔ (j, c, d) ∈ net.replies ∨ j = k ∧ c = a ∧ b = d := by
  simp only [answer, mem_insert, Prod.mk.injEq]
  constructor
  · rintro (⟨rfl, rfl, hb⟩ | h)
    · exact .inr ⟨rfl, rfl, hb.symm⟩
    · exact .inl h
  · rintro (h | ⟨rfl, rfl, rfl⟩)
    · exact .inr h
    · exact .inl ⟨rfl, rfl, rfl⟩

theorem acked_answer {j : ℕ} {c : δ} {b : Bool} {h : (k, a) ∈ net.inFlight} :
    (net.answer k a b h).Acked j c ↔ net.Acked j c ∨ j = k ∧ c = a ∧ b = true :=
  mem_replies_answer

theorem refused_answer {j : ℕ} {c : δ} {b : Bool} {h : (k, a) ∈ net.inFlight} :
    (net.answer k a b h).Refused j c ↔ net.Refused j c ∨ j = k ∧ c = a ∧ b = false :=
  mem_replies_answer

/-- A request that succeeded was acknowledged by everybody it went to. -/
theorem acked_of_succeeded (h : net.succeeded k = true) (hc : net.calls[k]? = some c)
    (ha : a ∈ c.2) : net.Acked k a := by
  simp only [succeeded, hc, decide_eq_true_eq] at h
  exact h a ha

/-- Nobody refused a request that succeeded. -/
theorem not_refused_of_succeeded (h : net.succeeded k = true) : ¬ net.Refused k a := by
  intro hr
  obtain ⟨c, hc, ha⟩ := net.reply_sent _ _ _ hr
  exact net.unique k a (acked_of_succeeded h hc ha) hr

/-- Once everybody has answered, no copy is on its way. -/
theorem not_inFlight_of_answered (h : net.answered k = true) : (k, a) ∉ net.inFlight := by
  intro hin
  obtain ⟨c, hc, ha⟩ := net.sent k a hin
  simp only [answered, hc, decide_eq_true_eq] at h
  rcases h a ha with hb | hb
  · exact net.pending k a _ hin hb
  · exact net.pending k a _ hin hb

/-- A request that succeeded was answered by everybody. -/
theorem answered_of_succeeded (h : net.succeeded k = true) : net.answered k = true := by
  simp only [succeeded, answered] at h ⊢
  split at h
  next c hc =>
    simp only [decide_eq_true_eq] at h ⊢
    exact fun a ha => .inl (h a ha)
  next => exact h

end Broadcast
