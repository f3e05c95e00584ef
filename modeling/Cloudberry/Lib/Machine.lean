/-
# Runs of a step function

A concurrent program is described here by one partial step function
`step : σ → ε → Option σ`: an event `ε` says who moves and which choice is made,
`none` that the move is not enabled (a guard, a lock held by someone else, an
error). `run` takes a whole list of events. Every safety result goes through
`run_invariant`.
-/

import Mathlib.Order.Defs.PartialOrder

namespace Machine

variable {σ ε : Type*}

/-- The state after the events of the list, in order; `none` as soon as one of
them is not enabled. -/
def run (step : σ → ε → Option σ) : σ → List ε → Option σ
  | s, [] => some s
  | s, e :: es => (step s e).bind fun t => run step t es

/-- A guarded step is taken exactly when its guard holds. -/
theorem guarded_eq_some {c : Prop} [Decidable c] {a b : σ} :
    (if c then some a else none) = some b ↔ c ∧ a = b := by
  split <;> simp_all

variable {step : σ → ε → Option σ}

@[simp] theorem run_nil (s : σ) : run step s [] = some s := rfl

theorem run_cons {s t : σ} {e : ε} {es : List ε} :
    run step s (e :: es) = some t ↔ ∃ m, step s e = some m ∧ run step m es = some t := by
  simp [run, Option.bind_eq_some_iff]

theorem run_append {s t : σ} {es fs : List ε} :
    run step s (es ++ fs) = some t ↔ ∃ m, run step s es = some m ∧ run step m fs = some t := by
  induction es generalizing s with
  | nil => simp
  | cons e es ih =>
    simp only [List.cons_append, run_cons, ih]
    constructor
    · rintro ⟨m, hm, m', hm', ht⟩
      exact ⟨m', ⟨m, hm, hm'⟩, ht⟩
    · rintro ⟨m', ⟨m, hm, hm'⟩, ht⟩
      exact ⟨m, hm, m', hm', ht⟩

/-- A run on a fixed input can be evaluated. -/
theorem exists_of_any {o : Option σ} {p : σ → Prop} [DecidablePred p]
    (h : o.any (fun s => decide (p s)) = true) : ∃ s, o = some s ∧ p s := by
  obtain ⟨s, hs, hp⟩ := (Option.any_eq_true _ _).1 h
  exact ⟨s, hs, of_decide_eq_true hp⟩

/-- So can the hypotheses of a theorem about it. -/
theorem exists_of_any_imp {o : Option σ} {p q : σ → Prop} [DecidablePred p]
    (h : o.any (fun s => decide (p s)) = true) (hpq : ∀ s, o = some s → p s → q s) :
    ∃ s, o = some s ∧ p s ∧ q s := by
  obtain ⟨s, hs, hp⟩ := exists_of_any h
  exact ⟨s, hs, hp, hpq s hs hp⟩

/-- Each event of the run meets the condition in the state it is taken in. -/
def Along (step : σ → ε → Option σ) (c : σ → ε → Prop) : σ → List ε → Prop
  | _, [] => True
  | s, e :: es => ∀ t, step s e = some t → c s e ∧ Along step c t es

/-- Along a fixed run a decidable condition can be evaluated. -/
instance Along.decidable {c : σ → ε → Prop} [∀ s e, Decidable (c s e)] :
    ∀ s es, Decidable (Along step c s es)
  | _, [] => .isTrue trivial
  | s, e :: es => match h : step s e with
    | none => .isTrue fun t ht => by simp [h] at ht
    | some t =>
      have := Along.decidable (c := c) t es
      decidable_of_iff (c s e ∧ Along step c t es) (by simp [Along, h])

/-- A condition on the events alone. -/
theorem along_of_forall {c : σ → ε → Prop} {s : σ} {es : List ε}
    (h : ∀ e ∈ es, ∀ s, c s e) : Along step c s es := by
  induction es generalizing s with
  | nil => trivial
  | cons e es ih =>
    exact fun t _ => ⟨h e List.mem_cons_self s, ih fun e' he' => h e' (List.mem_cons_of_mem _ he')⟩

theorem along_and {c d : σ → ε → Prop} {s : σ} {es : List ε} (hc : Along step c s es)
    (hd : Along step d s es) : Along step (fun s e => c s e ∧ d s e) s es := by
  induction es generalizing s with
  | nil => trivial
  | cons e es ih =>
    exact fun t ht => ⟨⟨(hc t ht).1, (hd t ht).1⟩, ih (hc t ht).2 (hd t ht).2⟩

/-- **What a step keeps under a condition, a run keeps whose steps meet it.** -/
theorem run_invariant_along {P : σ → Prop} {c : σ → ε → Prop}
    (hstep : ∀ s e t, P s → c s e → step s e = some t → P t) {s t : σ} {es : List ε}
    (hs : P s) (hcond : Along step c s es) (hrun : run step s es = some t) : P t := by
  induction es generalizing s with
  | nil =>
    cases hrun
    exact hs
  | cons e es ih =>
    obtain ⟨m, hm, ht⟩ := run_cons.1 hrun
    exact ih (hstep s e m hs (hcond m hm).1 hm) (hcond m hm).2 ht

/-- **What one step keeps, a run keeps.** -/
theorem run_invariant {P : σ → Prop} (hstep : ∀ s e t, P s → step s e = some t → P t)
    {s t : σ} {es : List ε} (hs : P s) (hrun : run step s es = some t) : P t :=
  run_invariant_along (fun s e t hs _ => hstep s e t hs) hs
    (along_of_forall fun _ _ _ => True.intro) hrun

end Machine
