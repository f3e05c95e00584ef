/-
# The memory of a query in a resource group

A group divides its memory quota by its concurrency, and each query that holds a slot gets a share
(resgroup.c). The divisor is the concurrency of now, not the one under which the slot was given:
ALTER RESOURCE GROUP may make it 0 while slots are held (`query_memory_limit_iff`).
-/

import Mathlib.Tactic.Linarith
import Cloudberry.Lib.Machine

namespace Cloudberry.ResGroup

open Machine List

/-- An `int` that is not negative. -/
abbrev CInt := Fin (2 ^ 31)

/-- `memory_quota` is in MB, and `none` where the source has -1. -/
structure ResGroupCaps where
  concurrency : ℕ
  memoryQuota : Option CInt

/-- The settings of a session, in kB. -/
structure Settings where
  statementMem : CInt
  gpResgroupMemoryQueryFixedMem : CInt

def uint64 (n : ℕ) : ℕ := n % 2 ^ 64

/-- In bytes; `none` is a division by zero. -/
def resourceGroupGetQueryMemoryLimit (bypassedGroup : Bool) (session : Settings)
    (caps : ResGroupCaps) : Option ℕ :=
  let stateMem := uint64 (session.statementMem * 1024)
  if bypassedGroup then some stateMem
  else if 0 < session.gpResgroupMemoryQueryFixedMem.val then
    some (uint64 (session.gpResgroupMemoryQueryFixedMem * 1024))
  else match caps.memoryQuota with
    | none => some stateMem
    | some resgLimit =>
      if caps.concurrency = 0 then none
      else some (max (uint64 (resgLimit * 1024 * 1024 / caps.concurrency)) stateMem)

/-- `nRunning` is the number of the slots. -/
structure ResGroupData where
  /-- It is `admin_group`. -/
  admin : Bool
  caps : ResGroupCaps
  /-- The sessions that hold a slot. -/
  slots : List ℕ

inductive Event
  | groupGetSlot (session : ℕ)
  | groupPutSlot (session : ℕ)
  /-- ALTER RESOURCE GROUP … SET CONCURRENCY -/
  | alter (value : ℤ)

/-- ALTER makes the checks of `checkResgroupCapLimit` and `AlterResourceGroup`. -/
def step (maxConnections : ℤ) (g : ResGroupData) : Event → Option ResGroupData
  | .groupGetSlot session =>
    if g.slots.length ≥ g.caps.concurrency then none
    else some { g with slots := session :: g.slots }
  | .groupPutSlot session =>
    if session ∈ g.slots then some { g with slots := g.slots.erase session } else none
  | .alter value =>
    if value < 0 ∨ value > maxConnections ∨ (value = 0 ∧ g.admin = true) then none
    else some { g with caps.concurrency := value.toNat }

variable {maxConnections : ℤ} {g t : ResGroupData}

theorem step_le {e : Event} (hle : g.slots.length ≤ g.caps.concurrency)
    (he : ∀ value, e ≠ .alter value) (hstep : step maxConnections g e = some t) :
    t.slots.length ≤ t.caps.concurrency := by
  cases e with
  | groupGetSlot session =>
    obtain ⟨hfree, rfl⟩ := by simpa [step] using hstep
    exact hfree
  | groupPutSlot session =>
    obtain ⟨-, rfl⟩ := by simpa [step] using hstep
    exact (length_erase_le ..).trans hle
  | alter value => exact absurd rfl (he value)

/-- Without ALTER the slots stay within the concurrency. -/
theorem run_le {es : List Event} (hes : ∀ e ∈ es, ∀ value, e ≠ .alter value) (hg : g.slots = [])
    (hrun : run (step maxConnections) g es = some t) : t.slots.length ≤ t.caps.concurrency := by
  refine run_invariant_along (fun _ _ _ => step_le) ?_ (along_of_forall fun e he _ => hes e he) hrun
  simp [hg]

namespace Settings

variable (session : Settings) {caps : ResGroupCaps}

/-- What the session asks for, in bytes. -/
def requested : ℕ :=
  (if 0 < session.gpResgroupMemoryQueryFixedMem.val then session.gpResgroupMemoryQueryFixedMem
    else session.statementMem).val * 1024

/-- A fixed memory is no less than `statement_mem`; without one, a quota can be divided. -/
def Served (caps : ResGroupCaps) : Prop :=
  if 0 < session.gpResgroupMemoryQueryFixedMem.val then
    session.statementMem ≤ session.gpResgroupMemoryQueryFixedMem
  else caps.memoryQuota = none ∨ caps.concurrency ≠ 0

theorem uint64_kb (n : CInt) : uint64 (n * 1024) = n * 1024 := Nat.mod_eq_of_lt (by omega)

theorem limit_of_quota {quota : CInt} (hquota : caps.memoryQuota = some quota)
    (hpos : caps.concurrency ≠ 0) : resourceGroupGetQueryMemoryLimit false session caps =
      some (if 0 < session.gpResgroupMemoryQueryFixedMem.val then session.requested
        else max (quota * 1024 * 1024 / caps.concurrency) session.requested) := by
  -- The share does not wrap around.
  have hshare : uint64 (quota * 1024 * 1024 / caps.concurrency) =
      quota * 1024 * 1024 / caps.concurrency :=
    Nat.mod_eq_of_lt ((Nat.div_le_self _ _).trans_lt (by omega))
  unfold resourceGroupGetQueryMemoryLimit requested
  simp only [hquota, hshare, uint64_kb, if_neg hpos, Bool.false_eq_true, if_false]
  split <;> rfl

theorem limit_iff : (∃ v, resourceGroupGetQueryMemoryLimit false session caps = some v ∧
    session.statementMem * 1024 ≤ v) ↔ session.Served caps := by
  unfold Served resourceGroupGetQueryMemoryLimit
  simp only [uint64_kb, Bool.false_eq_true, if_false]
  split
  next =>
    simp only [Option.some.injEq, exists_eq_left', Fin.le_def]
    omega
  next =>
    rcases caps with ⟨concurrency, _ | _⟩
    · simp
    · by_cases hzero : concurrency = 0 <;> simp [hzero]

end Settings

theorem exists_mapM_le {f : ℕ → Option ℕ} {slots : List ℕ} {m : ℕ}
    (h : ∀ a ∈ slots, ∃ v ≤ m, f a = some v) :
    ∃ shares, slots.mapM f = some shares ∧ shares.sum ≤ slots.length * m := by
  induction slots with
  | nil => exact ⟨[], rfl, by simp⟩
  | cons a slots ih =>
    obtain ⟨⟨v, _, ha⟩, hall⟩ := forall_mem_cons.1 h
    obtain ⟨shares, hshares, hsum⟩ := ih hall
    refine ⟨v :: shares, by simp [ha, hshares], ?_⟩
    simp only [sum_cons, length_cons]
    linarith

/-- **A session that holds a slot gets at least its `statement_mem`** if and only if it is `Served`:
the concurrency may have been set to 0 since.  Without ALTER, and if no session asks for more than
its share, the shares of the sessions that hold a slot are within the quota. -/
theorem query_memory_limit_iff (settings : ℕ → Settings) (start : ResGroupData) (es : List Event)
    (hstart : start.slots = []) (hrun : run (step maxConnections) start es = some g) :
    (∀ session ∈ g.slots, (∃ v,
        resourceGroupGetQueryMemoryLimit false (settings session) g.caps = some v ∧
          (settings session).statementMem * 1024 ≤ v) ↔ (settings session).Served g.caps) ∧
      ((∀ e ∈ es, ∀ value, e ≠ .alter value) → ∀ quota, g.caps.memoryQuota = some quota →
        (∀ session ∈ g.slots,
          (settings session).requested ≤ quota * 1024 * 1024 / g.caps.concurrency) →
        ∃ shares, g.slots.mapM (fun session =>
            resourceGroupGetQueryMemoryLimit false (settings session) g.caps) = some shares ∧
          shares.sum ≤ quota * 1024 * 1024) := by
  refine ⟨fun session _ => (settings session).limit_iff, fun hes quota hquota hasks => ?_⟩
  have hle := run_le hes hstart hrun
  obtain ⟨shares, hshares, hsum⟩ := exists_mapM_le fun session hsession => by
    refine ⟨_, ?_, (settings session).limit_of_quota hquota ?_⟩
    · split
      next => exact hasks session hsession
      next => exact max_le le_rfl (hasks session hsession)
    · exact Nat.ne_zero_of_lt ((length_pos_of_mem hsession).trans_le hle)
  refine ⟨shares, hshares, hsum.trans ?_⟩
  calc g.slots.length * (quota * 1024 * 1024 / g.caps.concurrency)
      ≤ g.caps.concurrency * (quota * 1024 * 1024 / g.caps.concurrency) := Nat.mul_le_mul_right _ hle
    _ ≤ quota * 1024 * 1024 := Nat.mul_div_le _ _

/-- Two queries of 1 MB each, in a group of 4 MB. -/
theorem two_queries_within_quota : ∃ g, run (step 100) ⟨false, ⟨2, some 4⟩, []⟩
    [.groupGetSlot 1, .groupGetSlot 2] = some g ∧ ∃ shares, g.slots.mapM (fun _ =>
      resourceGroupGetQueryMemoryLimit false ⟨1024, 0⟩ g.caps) = some shares ∧
        shares.sum ≤ 4 * 1024 * 1024 := by
  have hrun : run (step 100) ⟨false, ⟨2, some 4⟩, []⟩ [.groupGetSlot 1, .groupGetSlot 2] =
      some ⟨false, ⟨2, some 4⟩, [2, 1]⟩ := rfl
  exact ⟨_, hrun, (query_memory_limit_iff (fun _ => ⟨1024, 0⟩) _ _ rfl hrun).2 (by simp) 4 rfl
    fun _ _ => by decide⟩

/-- The concurrency is set to 0 while a session holds the slot, and then it asks. -/
theorem limit_divides_by_zero : (run (step 100) ⟨false, ⟨1, some 4⟩, []⟩
    [.groupGetSlot 1, .alter 0]).map (fun g =>
      (g.slots, resourceGroupGetQueryMemoryLimit false ⟨1024, 0⟩ g.caps)) = some ([1], none) := by
  decide

end Cloudberry.ResGroup
