/-
# A map with one entry in memory and a spill log

A map from keys to values is changed through a single current entry. To move to another
key, the current entry is appended to a log if it was changed; an entry is fetched from its
latest log record if there is one and from the unchanged base map otherwise. At the end the
changed entries are written back.

`view` is the map all this stands for: moving does not change it (`view_load`), changing the
current entry changes it at that key (`view_alter`), and what is written back are its
differences from the base map, each key once (`writeBack_eq_view`, `nodup_writeBack`).
-/

import Mathlib.Data.List.Nodup

namespace SpillMap

open List Option Prod

variable {K V : Type*} [DecidableEq K]

/-! ### The log -/

/-- The value of the last record with this key. -/
def latest : List (K × V) → K → Option V
  | [], _ => none
  | (k', v) :: log, k => (latest log k).or (if k' = k then some v else none)

theorem latest_append (log log' : List (K × V)) (k : K) :
    latest (log ++ log') k = (latest log' k).or (latest log k) := by
  induction log with
  | nil => simp [latest]
  | cons r log ih =>
    rw [List.cons_append, latest, ih, latest, Option.or_assoc]

theorem latest_concat (log : List (K × V)) (k' : K) (v : V) (k : K) :
    latest (log ++ [(k', v)]) k = if k' = k then some v else latest log k := by
  rw [latest_append]
  split_ifs with hk <;> simp [latest, hk]

/-- The records that are the last of their key, without the keys in `skip`. -/
def finals (skip : K → Prop) [DecidablePred skip] : List (K × V) → List (K × V)
  | [] => []
  | (k, v) :: log =>
    if (latest log k).isSome ∨ skip k then finals skip log else (k, v) :: finals skip log

variable {skip : K → Prop} [DecidablePred skip]

theorem mem_finals {log : List (K × V)} {k : K} {v : V} :
    (k, v) ∈ finals skip log ↔ latest log k = some v ∧ ¬ skip k := by
  induction log with
  | nil => simp [finals, latest]
  | cons r log ih =>
    obtain ⟨k', _⟩ := r
    rw [finals, latest]
    split
    next hdrop =>
      rw [ih]
      by_cases hk : k' = k
      · -- the dropped record is of this key: there is a later one, or the key is skipped
        subst hk
        rcases hdrop with hsome | hskip
        · obtain ⟨w, hw⟩ := isSome_iff_exists.1 hsome
          simp [hw]
        · simp [hskip]
      · simp [hk]
    next hdrop =>
      rw [mem_cons, ih, mk.injEq]
      rw [not_or, not_isSome_iff_eq_none] at hdrop
      by_cases hk : k' = k
      · subst hk
        simp [hdrop.1, hdrop.2, eq_comm]
      · simp [hk, Ne.symm hk]

theorem nodup_finals (log : List (K × V)) : ((finals skip log).map fst).Nodup := by
  induction log with
  | nil => simp [finals]
  | cons r log ih =>
    rw [finals]
    split_ifs with hdrop
    · exact ih
    rw [not_or, not_isSome_iff_eq_none] at hdrop
    rw [map_cons, nodup_cons]
    refine ⟨fun hmem => ?_, ih⟩
    obtain ⟨⟨_, _⟩, hr, rfl⟩ := mem_map.1 hmem
    have hsome := (mem_finals.1 hr).1
    rw [hdrop.1] at hsome
    cases hsome

/-! ### The map -/

/-- The current entry with its key and whether it was changed, and the log. -/
structure State (K V : Type*) where
  current : Option (K × V × Bool)
  log : List (K × V)

variable (base : K → V) (s : State K V)

/-- The value of a key that is not the current one. -/
def away (log : List (K × V)) (k : K) : V := (latest log k).getD (base k)

/-- The map the state stands for. -/
def view (k : K) : V :=
  match s.current with
  | some (k', v, _) => if k' = k then v else away base s.log k
  | none => away base s.log k

/-- The log after moving away from the current entry. -/
def spill : List (K × V) :=
  match s.current with
  | some (k, v, true) => s.log ++ [(k, v)]
  | _ => s.log

/-- Make `k` current; an entry fetched from the log counts as changed. -/
def fetch (log : List (K × V)) (k : K) : State K V :=
  ⟨some (k, away base log k, (latest log k).isSome), log⟩

/-- Move to the key `k`. -/
def load (k : K) : State K V :=
  match s.current with
  | some (k', _, _) => if k' = k then s else fetch base (spill s) k
  | none => fetch base (spill s) k

/-- Change the current entry. -/
def alter (f : V → V) (s : State K V) : State K V :=
  match s.current with
  | some (k, v, _) => { s with current := some (k, f v, true) }
  | none => s

/-- The entry of `k` was changed. -/
def changed (k : K) : Bool := (latest (spill s) k).isSome

/-- An unchanged current entry is that of the base map, and was never changed before. -/
def Ok : Prop :=
  ∀ k v, s.current = some (k, v, false) → latest s.log k = none ∧ v = base k

variable {base : K → V} {s : State K V}

/-- Spilling keeps the map. -/
theorem away_spill (hs : Ok base s) : away base (spill s) = view base s := by
  funext k
  unfold view spill
  rcases hcur : s.current with _ | ⟨k', v, dirty⟩
  · rfl
  cases dirty with
  | true =>
    simp only [away, latest_concat]
    split_ifs <;> rfl
  | false =>
    obtain ⟨hlog, hv⟩ := hs k' v hcur
    dsimp only
    split_ifs with hk
    · subst hk
      rw [away, hlog, hv, getD_none]
    · rfl

/-- **Moving does not change the map.** -/
theorem view_load (hs : Ok base s) (k : K) : view base (load base s k) = view base s := by
  have hfetch : view base (fetch base (spill s) k) = view base s := by
    rw [← away_spill hs]
    funext k'
    simp only [view, fetch]
    split_ifs with hk
    · rw [hk]
    · rfl
  unfold load
  rcases hcur : s.current with _ | ⟨k', v, _⟩
  · exact hfetch
  dsimp only
  split_ifs
  · rfl
  · exact hfetch

/-- The entry moved to is marked as changed if it was. -/
theorem current_load (hs : Ok base s) (k : K) :
    (load base s k).current = some (k, view base s k, changed s k) := by
  have hfetch : (fetch base (spill s) k).current = some (k, view base s k, changed s k) := by
    rw [← away_spill hs]
    rfl
  unfold load
  rcases hcur : s.current with _ | ⟨_, v, dirty⟩
  · exact hfetch
  dsimp only
  split_ifs with hk
  · subst hk
    cases dirty with
    | true => simp [hcur, view, changed, spill, latest_concat]
    | false => simp [hcur, view, changed, spill, (hs _ v hcur).1]
  · exact hfetch

theorem changed_load (base : K → V) (s : State K V) (k : K) :
    changed (load base s k) = changed s := by
  have hfetch : changed (fetch base (spill s) k) = changed s := by
    funext k'
    unfold changed fetch
    rcases hlatest : (latest (spill s) k).isSome with _ | _
    · rfl
    rw [spill, latest_concat]
    split_ifs with hk
    · rw [← hk, hlatest, isSome_some]
    · rfl
  unfold load
  rcases s.current with _ | ⟨k', v, _⟩
  · exact hfetch
  dsimp only
  split_ifs
  · rfl
  · exact hfetch

theorem changed_alter {k : K} {v : V} {dirty : Bool} (hcur : s.current = some (k, v, dirty))
    (f : V → V) (k' : K) : changed (alter f s) k' = (decide (k = k') || changed s k') := by
  by_cases hk : k = k'
  · simp [changed, alter, spill, hcur, latest_concat, hk]
  · cases dirty <;> simp [changed, alter, spill, hcur, latest_concat, hk]

theorem ok_fetch (log : List (K × V)) (k : K) : Ok base (fetch base log k) := by
  intro k' v hcur
  simp only [fetch, some.injEq, mk.injEq] at hcur
  obtain ⟨rfl, rfl, hnone⟩ := hcur
  have hnone := not_isSome_iff_eq_none.1 (by simp [hnone] : ¬ (latest log k).isSome)
  exact ⟨hnone, by rw [away, hnone, getD_none]⟩

theorem ok_load (hs : Ok base s) (k : K) : Ok base (load base s k) := by
  unfold load
  rcases hcur : s.current with _ | ⟨_, v, _⟩
  · exact ok_fetch _ k
  dsimp only
  split_ifs
  · exact hs
  · exact ok_fetch _ k

theorem ok_alter (hs : Ok base s) (f : V → V) : Ok base (alter f s) := by
  unfold alter
  rcases hcur : s.current with _ | ⟨k, v, _⟩
  · exact hs
  · intro k' v' hcur'
    simp at hcur'

/-- **Changing the current entry changes the map there.** -/
theorem view_alter {k : K} {v : V} {dirty : Bool} (hcur : s.current = some (k, v, dirty))
    (f : V → V) : view base (alter f s) = Function.update (view base s) k (f (view base s k)) := by
  funext k'
  by_cases hk : k' = k
  · subst hk
    simp [alter, view, hcur]
  · simp [alter, view, hcur, Ne.symm hk, Function.update_of_ne hk]

/-! ### Writing back -/

/-- The key of the current entry if it was changed. -/
def dirtyKey (s : State K V) : Option K :=
  match s.current with
  | some (k, _, true) => some k
  | _ => none

/-- What is written back: the current entry if it was changed, and of each other key in the
log the latest record. -/
def writeBack (s : State K V) : List (K × V) :=
  (match s.current with
  | some (k, v, true) => [(k, v)]
  | _ => []) ++ finals (fun k => dirtyKey s = some k) s.log

/-- Each key is written once. -/
theorem nodup_writeBack (s : State K V) : ((writeBack s).map fst).Nodup := by
  unfold writeBack
  rcases hcur : s.current with _ | ⟨k, v, _ | _⟩
  · exact nodup_finals _
  · exact nodup_finals _
  · rw [singleton_append, map_cons, nodup_cons]
    refine ⟨fun hmem => ?_, nodup_finals _⟩
    obtain ⟨⟨_, _⟩, hr, rfl⟩ := mem_map.1 hmem
    exact (mem_finals.1 hr).2 (by rw [dirtyKey, hcur])

/-- A key of which no record is written has the value of the base map. -/
theorem away_of_not_mem_finals {k : K} (hskip : ¬ skip k)
    (hnone : ∀ v, (k, v) ∉ finals skip s.log) : away base s.log k = base k := by
  rcases hl : latest s.log k with _ | v
  · rw [away, hl, getD_none]
  · exact absurd (mem_finals.2 ⟨hl, hskip⟩) (hnone v)

/-- **What is written back is the map**: the value written for a key is its value, and a key
that is not written has the value of the base map. -/
theorem writeBack_eq_view (hs : Ok base s) : (∀ k v, (k, v) ∈ writeBack s → v = view base s k) ∧
      ∀ k, (∀ v, (k, v) ∉ writeBack s) → view base s k = base k := by
  unfold writeBack view
  rcases hcur : s.current with _ | ⟨k', v', _ | _⟩
  · refine ⟨fun k v hmem => ?_, fun k hnone => ?_⟩
    · rw [nil_append, mem_finals] at hmem
      rw [away, hmem.1, getD_some]
    · exact away_of_not_mem_finals (by simp [dirtyKey, hcur]) hnone
  · obtain ⟨hlog, hv⟩ := hs k' v' hcur
    refine ⟨fun k v hmem => ?_, fun k hnone => ?_⟩
    · rw [nil_append, mem_finals] at hmem
      have hne : k' ≠ k := by
        rintro rfl
        rw [hlog] at hmem
        cases hmem.1
      dsimp only
      rw [if_neg hne, away, hmem.1, getD_some]
    · dsimp only
      split_ifs with hk
      · rw [hv, hk]
      · exact away_of_not_mem_finals (by simp [dirtyKey, hcur]) hnone
  · refine ⟨fun k v hmem => ?_, fun k hnone => ?_⟩
    · rw [singleton_append, mem_cons, mk.injEq, mem_finals, dirtyKey, hcur] at hmem
      dsimp only at hmem ⊢
      rcases hmem with ⟨rfl, rfl⟩ | ⟨hl, hk⟩
      · rw [if_pos rfl]
      · rw [if_neg fun heq => hk (congrArg some heq), away, hl, getD_some]
    have hk : k' ≠ k := by
      rintro rfl
      exact hnone v' (by simp)
    dsimp only
    rw [if_neg hk]
    exact away_of_not_mem_finals (by simpa [dirtyKey, hcur] using hk) fun v hmem =>
      hnone v (mem_cons_of_mem _ hmem)

end SpillMap
