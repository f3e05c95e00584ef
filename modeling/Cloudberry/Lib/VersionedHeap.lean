/-
# A heap of row versions

A table as a list of row versions. A row is inserted as a new version at the end; it is
updated by adding a new version and linking the old one to it, which is then no longer live.
The position of a version never changes, so it serves as the row's id. The main result is
about writing a batch of rows (`exists_upsertAll`).
-/

import Mathlib.Data.List.Nodup
import Mathlib.Order.Nat

namespace VersionedHeap

open List

variable {α κ : Type*}

/-- A row version; `next` is the version that replaced it. -/
structure Version (α : Type*) where
  tuple : α
  next : Option ℕ
deriving DecidableEq, Repr

abbrev Heap (α : Type*) : Type _ := List (Version α)

/-- The version at `tid` has not been replaced. -/
def Live (h : Heap α) (tid : ℕ) (t : α) : Prop := h[tid]? = some ⟨t, none⟩

/-- The live rows with their ids, in the order of the ids. -/
def rows (h : Heap α) : List (ℕ × α) :=
  h.zipIdx.filterMap fun v => if v.1.next.isNone then some (v.2, v.1.tuple) else none

variable {h : Heap α} {tid : ℕ} {t : α}

theorem mem_rows : (tid, t) ∈ rows h ↔ Live h tid t := by
  simp only [rows, mem_filterMap, Live]
  constructor
  · rintro ⟨⟨⟨u, next⟩, i⟩, hmem, hsome⟩
    rcases next with _ | j
    · simp only [Option.isNone_none, if_true, Option.some.injEq, Prod.mk.injEq] at hsome
      obtain ⟨rfl, rfl⟩ := hsome
      exact mem_zipIdx_iff_getElem?.1 hmem
    · simp at hsome
  · intro hlive
    exact ⟨(⟨t, none⟩, tid), mem_zipIdx_iff_getElem?.2 hlive, by simp⟩

theorem nodup_rows (h : Heap α) : (rows h).Nodup := by
  refine Nodup.filterMap ?_ (Nodup.of_map Prod.snd ?_)
  · rintro ⟨⟨t, next⟩, i⟩ ⟨⟨_, next'⟩, _⟩ ⟨j, u⟩ hrow hrow'
    rcases next with _ | _ <;> rcases next' with _ | _ <;> simp at hrow hrow'
    obtain ⟨rfl, rfl⟩ := hrow
    obtain ⟨rfl, rfl⟩ := hrow'
    rfl
  · rw [zipIdx_map_snd]
    exact nodup_range'

def insert (h : Heap α) (t : α) : Heap α := h ++ [⟨t, none⟩]

/-- Replace a live version; there is nothing to replace at a dead one. -/
def update (h : Heap α) (tid : ℕ) (t : α) : Option (Heap α) :=
  match h[tid]? with
  | some ⟨u, none⟩ => some (h.set tid ⟨u, some h.length⟩ ++ [⟨t, none⟩])
  | _ => none

/-- Update the row with this id, or insert a row if there is none. -/
def upsert (h : Heap α) (old : Option ℕ) (t : α) : Option (Heap α) :=
  match old with
  | some tid => update h tid t
  | none => some (insert h t)

theorem Live.lt (hl : Live h tid t) : tid < h.length := (List.getElem?_eq_some_iff.1 hl).1

theorem Live.unique {i : ℕ} {t u : α} (ht : Live h i t) (hu : Live h i u) : t = u := by
  have heq := ht.symm.trans hu
  simpa using heq

theorem update_eq {u : α} (hl : Live h tid u) (t : α) :
    update h tid t = some (h.set tid ⟨u, some h.length⟩ ++ [⟨t, none⟩]) := by
  rw [update, hl]

variable {old : Option ℕ} {h' : Heap α}

theorem live_of_upsert (hup : upsert h (some tid) t = some h') : ∃ u, Live h tid u := by
  rw [upsert, update] at hup
  split at hup
  next u hl => exact ⟨u, hl⟩
  · cases hup

/-- The versions after a write. -/
theorem getElem?_upsert (hup : upsert h old t = some h') (i : ℕ) :
    h'[i]? = if i = h.length then some ⟨t, none⟩
      else if old = some i then h[i]?.map fun v => ⟨v.tuple, some h.length⟩ else h[i]? := by
  -- a list as long as the heap, and the new version behind it
  have hnew : ∀ l : Heap α, l.length = h.length → (l ++ [⟨t, none⟩])[i]? =
      if i = h.length then some ⟨t, none⟩ else l[i]? := by
    intro l hl
    rw [getElem?_append, hl]
    split_ifs <;> simp [*] <;> omega
  rcases old with _ | tid
  · cases hup
    simpa [insert] using hnew h rfl
  obtain ⟨u, hl⟩ := live_of_upsert hup
  cases (update_eq hl t).symm.trans hup
  rw [hnew _ length_set, getElem?_set]
  by_cases hi : tid = i
  · subst hi
    rw [show h[tid]? = some ⟨u, none⟩ from hl]
    simp [hl.lt]
  · simp [hi]

/-- **The live rows after a write**: those before it without the row that was updated, and the
new one. -/
theorem live_upsert (hup : upsert h old t = some h') {i : ℕ} {u : α} :
    Live h' i u ↔ i = h.length ∧ u = t ∨ Live h i u ∧ old ≠ some i := by
  rw [Live, getElem?_upsert hup]
  split_ifs with hi hold
  · simp [hi, Live, eq_comm]
  · simp [hi, hold]
  · simp [hi, hold, Live]

/-- A live row can be updated. -/
theorem exists_upsert_of_live (hold : ∀ tid, old = some tid → ∃ u, Live h tid u) (t : α) :
    ∃ h', upsert h old t = some h' := by
  rcases old with _ | tid
  · exact ⟨_, rfl⟩
  · obtain ⟨u, hl⟩ := hold tid rfl
    exact ⟨_, update_eq hl t⟩

/-! ### Rows with keys -/

variable (key : α → κ)

/-- No two live rows have the same key. -/
def UniqueKeys (h : Heap α) : Prop :=
  ∀ ⦃i j : ℕ⦄ ⦃t u : α⦄, Live h i t → Live h j u → key t = key u → i = j

/-- `old` is the id of the live row with the key of `t`, if there is one. -/
def Finds (h : Heap α) (old : Option ℕ) (t : α) : Prop :=
  match old with
  | some tid => ∃ u, Live h tid u ∧ key u = key t
  | none => ∀ i u, Live h i u → key u ≠ key t

variable {key}

/-- `h'` is `h` with the row `t` written: the new row takes the place of the live row with its
key, and all other versions stay as they are. -/
structure Written (key : α → κ) (h : Heap α) (t : α) (h' : Heap α) : Prop where
  new : Live h' h.length t
  other : ∀ ⦃i u⦄, Live h i u → key u ≠ key t → Live h' i u
  live : ∀ ⦃i u⦄, Live h' i u → i = h.length ∧ u = t ∨ Live h i u ∧ key u ≠ key t
  dead : ∀ ⦃i : ℕ⦄ ⦃u : α⦄ ⦃j : ℕ⦄, h[i]? = some (Version.mk u (some j)) →
    h'[i]? = some (Version.mk u (some j))
  replaced : ∀ ⦃i u⦄, Live h i u → key u = key t → h'[i]? = some (Version.mk u (some h.length))

/-- **What one write does.** -/
theorem exists_upsert (hu : UniqueKeys key h) (hf : Finds key h old t) :
    ∃ h', upsert h old t = some h' ∧ Written key h t h' := by
  -- the row that is updated is the one with the key
  have hold : ∀ i u, Live h i u → (key u = key t ↔ old = some i) := by
    intro i u hl
    rcases old with _ | tid
    · simpa using hf i u hl
    · obtain ⟨u₀, hl₀, hk₀⟩ := hf
      constructor
      · exact fun hk => congrArg some (hu hl₀ hl (hk₀.trans hk.symm))
      · intro heq
        cases heq
        rw [hl.unique hl₀, hk₀]
  obtain ⟨h', hup⟩ : ∃ h', upsert h old t = some h' := by
    refine exists_upsert_of_live (fun tid htid => ?_) t
    subst htid
    exact hf.imp fun _ => And.left
  refine ⟨h', hup, (live_upsert hup).2 (.inl ⟨rfl, rfl⟩), fun i u hl hk => ?_, fun i u hl => ?_,
    fun i u j hv => ?_, fun i u hl hk => ?_⟩
  · exact (live_upsert hup).2 (.inr ⟨hl, mt (hold i u hl).2 hk⟩)
  · exact ((live_upsert hup).1 hl).imp_right fun h => ⟨h.1, mt (hold i u h.1).1 h.2⟩
  · have hi := (List.getElem?_eq_some_iff.1 hv).1
    have hne : old ≠ some i := by
      rintro rfl
      obtain ⟨_, hl⟩ := live_of_upsert hup
      cases hl.symm.trans hv
    rw [getElem?_upsert hup, if_neg hi.ne, if_neg hne, hv]
  · rw [getElem?_upsert hup, if_neg hl.lt.ne, if_pos ((hold i u hl).1 hk),
      show h[i]? = some ⟨u, none⟩ from hl]
    rfl

theorem Written.uniqueKeys (hw : Written key h t h') (hu : UniqueKeys key h) :
    UniqueKeys key h' := by
  intro i j t₁ t₂ h₁ h₂ hk
  rcases hw.live h₁ with ⟨rfl, rfl⟩ | ⟨hl₁, hk₁⟩ <;> rcases hw.live h₂ with ⟨rfl, rfl⟩ | ⟨hl₂, hk₂⟩
  · rfl
  · exact absurd hk.symm hk₂
  · exact absurd hk hk₁
  · exact hu hl₁ hl₂ hk

/-- Another write finds the same row as before. -/
theorem Written.finds {t t' : α} (hw : Written key h t h') (hne : key t' ≠ key t)
    (hf : Finds key h old t') : Finds key h' old t' := by
  rcases old with _ | _
  · intro i u hl
    rcases hw.live hl with ⟨-, rfl⟩ | ⟨hl, -⟩
    · exact hne.symm
    · exact hf i u hl
  · obtain ⟨u, hl, hk⟩ := hf
    exact ⟨u, hw.other hl (hk ▸ hne), hk⟩

/-! ### A batch of writes -/

/-- Write the rows one after the other. -/
def upsertAll (h : Heap α) : List (Option ℕ × α) → Option (Heap α)
  | [] => some h
  | (old, t) :: ws => (upsert h old t).bind fun h' => upsertAll h' ws

/-- `h'` is `h` with the rows `ts` written: they are live in `h'`, with those live rows of `h`
whose key is not among theirs; a row of `h` whose key is among theirs has been replaced by
the new row with its key. -/
structure AllWritten (key : α → κ) (h : Heap α) (ts : List α) (h' : Heap α) : Prop where
  uniqueKeys : UniqueKeys key h'
  live : ∀ u, (∃ i, Live h' i u) ↔ u ∈ ts ∨ (∃ i, Live h i u) ∧ ∀ t ∈ ts, key t ≠ key u
  kept : ∀ ⦃i u⦄, Live h i u → (∀ t ∈ ts, key t ≠ key u) → Live h' i u
  dead : ∀ ⦃i : ℕ⦄ ⦃u : α⦄ ⦃j : ℕ⦄, h[i]? = some (Version.mk u (some j)) →
    h'[i]? = some (Version.mk u (some j))
  replaced : ∀ ⦃i u⦄, Live h i u → ∀ t ∈ ts, key t = key u →
    ∃ j, h'[i]? = some (Version.mk u (some j)) ∧ Live h' j t

/-- **A batch of rows with different keys is written**, each once, as an update of the live row
with its key if there is one. -/
theorem exists_upsertAll (hu : UniqueKeys key h) {ws : List (Option ℕ × α)}
    (hkeys : (ws.map fun w => key w.2).Nodup) (hf : ∀ w ∈ ws, Finds key h w.1 w.2) :
    ∃ h', upsertAll h ws = some h' ∧ AllWritten key h (ws.map Prod.snd) h' := by
  induction ws generalizing h with
  | nil =>
    refine ⟨h, rfl, hu, by simp, fun i u hl _ => hl, fun i u j hv => hv, ?_⟩
    simp
  | cons w ws ih =>
    obtain ⟨old, t⟩ := w
    rw [map_cons, nodup_cons] at hkeys
    obtain ⟨hnew, hkeys⟩ := hkeys
    have hnew : ∀ t' ∈ ws.map Prod.snd, key t' ≠ key t := by
      intro t' ht' hk
      obtain ⟨w, hw, rfl⟩ := mem_map.1 ht'
      exact hnew (mem_map.2 ⟨w, hw, hk⟩)
    obtain ⟨h₁, hup, hw⟩ := exists_upsert hu (hf (old, t) (mem_cons_self ..))
    have hf₁ : ∀ w ∈ ws, Finds key h₁ w.1 w.2 := fun w hmem =>
      hw.finds (hnew w.2 (mem_map_of_mem hmem)) (hf w (mem_cons_of_mem _ hmem))
    obtain ⟨h', hall, hrest⟩ := ih (hw.uniqueKeys hu) hkeys hf₁
    refine ⟨h', by rw [upsertAll, hup]; exact hall, hrest.uniqueKeys, ?_, ?_, ?_, ?_⟩
    · intro u
      rw [hrest.live, map_cons, mem_cons]
      constructor
      · rintro (hmem | ⟨⟨i, hl⟩, hother⟩)
        · exact .inl (.inr hmem)
        · rcases hw.live hl with ⟨-, rfl⟩ | ⟨hl, hk⟩
          · exact .inl (.inl rfl)
          · exact .inr ⟨⟨i, hl⟩, forall_mem_cons.2 ⟨hk.symm, hother⟩⟩
      · rintro ((rfl | hmem) | ⟨⟨i, hl⟩, hother⟩)
        · exact .inr ⟨⟨_, hw.new⟩, hnew⟩
        · exact .inl hmem
        · obtain ⟨hk, hother⟩ := forall_mem_cons.1 hother
          exact .inr ⟨⟨i, hw.other hl hk.symm⟩, hother⟩
    · intro i u hl hother
      obtain ⟨hk, hother⟩ := forall_mem_cons.1 hother
      exact hrest.kept (hw.other hl hk.symm) hother
    · exact fun i u j hv => hrest.dead (hw.dead hv)
    · intro i u hl t' ht' hk
      rcases mem_cons.1 ht' with rfl | hmem
      · exact ⟨_, hrest.dead (hw.replaced hl hk.symm), hrest.kept hw.new hnew⟩
      · exact hrest.replaced (hw.other hl (hk ▸ hnew t' hmem)) t' hmem hk

end VersionedHeap
