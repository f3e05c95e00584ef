/-
# A memory area with checked bounds

A memory is a list of cells. `store` and `load` fail where they would touch a cell outside of
it. `Agrees` says that a stretch of the memory holds a stretch of some source, which is how
the contents of buffers are described.
-/

import Mathlib.Data.List.Basic

namespace ByteArea

open List

variable {α : Type*}

/-- The memory with `bs` written from the address `a` on. -/
def store (m : List α) (a : ℕ) (bs : List α) : Option (List α) :=
  if a + bs.length ≤ m.length then some (m.take a ++ bs ++ m.drop (a + bs.length)) else none

/-- The `n` cells from the address `a` on. -/
def load (m : List α) (a n : ℕ) : Option (List α) :=
  if a + n ≤ m.length then some ((m.drop a).take n) else none

/-- The `n` cells from `a` on hold the source from `p` on. -/
def Agrees (m : List α) (a : ℕ) (src : List α) (p n : ℕ) : Prop := ∀ i < n, m[a + i]? = src[p + i]?

variable {m m' src bs : List α} {a b p n k : ℕ}

theorem exists_store (m : List α) (a : ℕ) (bs : List α) (h : a + bs.length ≤ m.length) :
    ∃ m', store m a bs = some m' := ⟨_, if_pos h⟩

theorem length_store (h : store m a bs = some m') : m'.length = m.length := by
  unfold store at h
  split_ifs at h with hle
  cases h
  simp only [length_append, length_take, length_drop]
  omega

theorem getElem?_store (h : store m a bs = some m') (j : ℕ) :
    m'[j]? = if a ≤ j ∧ j < a + bs.length then bs[j - a]? else m[j]? := by
  unfold store at h
  split_ifs at h with hle
  cases h
  have htake : (m.take a).length = a := by
    rw [length_take]
    omega
  rcases Nat.lt_or_ge j a with hlow | hlow
  · rw [if_neg (by omega), append_assoc, getElem?_append_left (by omega), getElem?_take_of_lt hlow]
  rcases Nat.lt_or_ge j (a + bs.length) with hhigh | hhigh
  · rw [if_pos ⟨hlow, hhigh⟩, getElem?_append_left (by rw [length_append]; omega),
      getElem?_append_right (by omega), htake]
  · rw [if_neg (by omega), getElem?_append_right (by rw [length_append]; omega),
      getElem?_drop, length_append, htake]
    congr 1
    omega

/-- What is written is there. -/
theorem agrees_store (h : store m a ((src.drop p).take n) = some m') (hn : p + n ≤ src.length) :
    Agrees m' a src p n := by
  intro i hi
  have hlen : ((src.drop p).take n).length = n := by
    rw [length_take, length_drop]
    omega
  rw [getElem?_store h, if_pos (by omega), Nat.add_sub_cancel_left, getElem?_take_of_lt hi,
    getElem?_drop]

/-- Elsewhere nothing changes. -/
theorem Agrees.store (h : store m a bs = some m') (hm : Agrees m b src p n)
    (hout : b + n ≤ a ∨ a + bs.length ≤ b) : Agrees m' b src p n := by
  intro i hi
  rw [getElem?_store h, if_neg (by omega)]
  exact hm i hi

variable (hm : Agrees m a src p n)
include hm

theorem Agrees.sub {i : ℕ} (hi : i + k ≤ n) : Agrees m (a + i) src (p + i) k := by
  intro j hj
  rw [Nat.add_assoc, Nat.add_assoc]
  exact hm (i + j) (by omega)

theorem Agrees.append (hk : Agrees m (a + n) src (p + n) k) : Agrees m a src p (n + k) := by
  intro i hi
  rcases Nat.lt_or_ge i n with hlt | hge
  · exact hm i hlt
  · have heq := hk (i - n) (by omega)
    rwa [Nat.add_assoc, Nat.add_assoc, Nat.add_sub_cancel' hge] at heq

/-- **Loading a stretch that agrees** gives the stretch of the source. -/
theorem load_of_agrees (hle : a + n ≤ m.length) : load m a n = some ((src.drop p).take n) := by
  rw [load, if_pos hle]
  congr 1
  apply ext_getElem?
  intro i
  by_cases hi : i < n
  · rw [getElem?_take_of_lt hi, getElem?_take_of_lt hi, getElem?_drop, getElem?_drop]
    exact hm i hi
  · rw [getElem?_take_eq_none (Nat.not_lt.1 hi), getElem?_take_eq_none (Nat.not_lt.1 hi)]

end ByteArea
