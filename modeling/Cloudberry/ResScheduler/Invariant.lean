/-
# What every critical section keeps

The invariant ties three tables together: the counters of the shared entries
(`EntryOk`), the portal increments and the local locks of each backend. What a
backend has to know is stated over two views, the portals granted to it and the
queues it waits in, so that a step of one backend says nothing new about the
others except when it wakes them.
-/

import Cloudberry.ResScheduler.Portal

namespace Cloudberry.ResScheduler

open Entry List Function Phase State Prod

variable {π κ ρ : Type*}

section Views

variable {G G' : κ → ρ → Prop} {W W' : κ → Prop} {phase phase' : Phase κ ρ}

/-- The phase names a portal: the backend is inside an acquisition for it, or
before the handler of one that failed. -/
def Phase.about (phase : Phase κ ρ) (q : κ) (p : ρ) : Prop :=
  phase = .waiting q p ∨ ∃ err, phase = .failed q p err

theorem Phase.about_failed {q q' : κ} {p p' : ρ} {err : ResLockError}
    (h : (failed q p err).about q' p') : q' = q ∧ p' = p := by
  rcases h with h | ⟨_, h⟩ <;> cases h
  exact ⟨rfl, rfl⟩

theorem Phase.about_waiting {q q' : κ} {p p' : ρ} (h : (waiting q p).about q' p') :
    q' = q ∧ p' = p := by
  rcases h with h | ⟨_, h⟩ <;> cases h
  exact ⟨rfl, rfl⟩

theorem Phase.not_about_running {q : κ} {p : ρ} : ¬ (running : Phase κ ρ).about q p := by
  rintro (h | ⟨_, h⟩) <;> cases h

/-- What the end of an acquisition that leaves nothing to its handler is not. -/
theorem Phase.clean {q : κ} {p : ρ} {err : ResLockError}
    (h : phase = .running ∨ phase = .failed q p err) (herr : err = .cancelled ∨ err = .tooLarge) :
    ¬ phase.lingers q ∧ ¬ phase.lingersLocally q ∧ phase ≠ .waiting q p ∧
      phase ≠ .failed q p .selfDeadlock ∧ ∀ q' p', phase.about q' p' → q' = q ∧ p' = p := by
  rcases h with rfl | rfl
  · simp [not_about_running]
  · refine ⟨?_, ?_, ?_, ?_, fun _ _ => about_failed⟩ <;> rcases herr with rfl | rfl <;>
      simp [ResLockError.leavesProcLock, ResLockError.leavesLocalLock]

section

variable (G : κ → ρ → Prop)

/-- The open portals: distinct ids, and the queue of each portal that is granted
or being acquired. -/
structure PortalsOk (phase : Phase κ ρ) (portals : List (ρ × κ)) : Prop where
  nodup : (portals.map fst).Nodup
  granted : ∀ q p, G q p → (p, q) ∈ portals
  about : ∀ q p, phase.about q p → (p, q) ∈ portals

/-- A portal has increments exactly while it is granted or waiting. -/
structure IncrementsOk (phase : Phase κ ρ) (increments : ρ → Option Increments) : Prop where
  isSome : ∀ p, (increments p).isSome = true ↔ (∃ q, G q p) ∨ ∃ q, phase = .waiting q p
  count : ∀ p inc, increments p = some inc → inc .count = 1

/-- A local lock stands exactly while the backend holds, waits, or has left it to
its handler; it is complete exactly while the `PROCLOCK` stands. -/
structure LocalLocksOk (W : κ → Prop) (phase : Phase κ ρ)
    (localLocks : κ → Option LocalLock) : Prop where
  complete : ∀ q, localLocks q = some ⟨true, true⟩ ↔ (∃ p, G q p) ∨ W q ∨ phase.lingers q
  isSome : ∀ q, (localLocks q).isSome = true ↔ (∃ p, G q p) ∨ W q ∨ phase.lingersLocally q

/-- A backend is in a wait queue exactly while it sleeps and has not been
granted. -/
def WaitsOk (W : κ → Prop) (phase : Phase κ ρ) : Prop :=
  ∀ q, W q ↔ ∃ p, phase = .waiting q p ∧ ¬ G q p

/-- The tables of a backend agree with what is granted to it and where it waits. -/
structure BackendOk (W : κ → Prop) (b : Backend κ ρ) : Prop where
  portals : PortalsOk G b.phase b.portals
  increments : IncrementsOk G b.phase b.increments
  localLocks : LocalLocksOk G W b.phase b.localLocks
  waits : WaitsOk G W b.phase
  deadlock : ∀ q p, b.phase = .failed q p .selfDeadlock → G q p

end

theorem BackendOk.congr {b : Backend κ ρ} (h : BackendOk G W b) (hG : ∀ q p, G' q p ↔ G q p)
    (hW : ∀ q, W' q ↔ W q) : BackendOk G' W' b := by
  obtain rfl : G' = G := funext fun q => funext fun p => propext (hG q p)
  obtain rfl : W' = W := funext fun q => propext (hW q)
  exact h

variable {portals : List (ρ × κ)} {q : κ} {p : ρ}

section

variable (h : PortalsOk G phase portals)
include h

theorem PortalsOk.unique {q' : κ} (hq : (p, q) ∈ portals) (hq' : (p, q') ∈ portals) : q = q' :=
  congrArg snd (inj_on_of_nodup_map h.nodup hq hq' rfl)

theorem PortalsOk.mono (hportal : (p, q) ∈ portals)
    (hG : ∀ q' p', G' q' p' → G q' p' ∨ q' = q ∧ p' = p)
    (hphase : ∀ q' p', phase'.about q' p' → q' = q ∧ p' = p) : PortalsOk G' phase' portals := by
  refine ⟨h.nodup, fun q' p' hg => ?_, fun q' p' ha => ?_⟩
  · rcases hG q' p' hg with hg | ⟨rfl, rfl⟩
    · exact h.granted q' p' hg
    · exact hportal
  · obtain ⟨rfl, rfl⟩ := hphase q' p' ha
    exact hportal

theorem PortalsOk.cons (hfresh : p ∉ portals.map fst)
    (hG : ∀ q' p', G' q' p' → G q' p' ∨ q' = q ∧ p' = p)
    (hphase : ∀ q' p', phase'.about q' p' → q' = q ∧ p' = p) :
    PortalsOk G' phase' ((p, q) :: portals) := by
  refine ⟨nodup_cons.2 ⟨hfresh, h.nodup⟩, fun q' p' hg => ?_, fun q' p' ha => ?_⟩
  · rcases hG q' p' hg with hg | ⟨rfl, rfl⟩
    · exact mem_cons_of_mem _ (h.granted q' p' hg)
    · exact mem_cons_self
  · obtain ⟨rfl, rfl⟩ := hphase q' p' ha
    exact mem_cons_self

theorem PortalsOk.reset [DecidableEq ρ] (hG : ∀ q' p', G' q' p' → G q' p' ∧ p' ≠ p) :
    PortalsOk G' .running (portals.filter (·.1 ≠ p)) := by
  refine ⟨?_, fun q' p' hg => ?_, ?_⟩
  · exact (filter_sublist.map fst).nodup h.nodup
  · obtain ⟨hg, hne⟩ := hG q' p' hg
    exact mem_filter.2 ⟨h.granted q' p' hg, by simpa using hne⟩
  · rintro q' p' (ha | ⟨err, ha⟩) <;> cases ha

end

theorem IncrementsOk.update [DecidableEq ρ] {increments : ρ → Option Increments}
    {v : Option Increments} (h : IncrementsOk G phase increments)
    (hold : ∀ q' p', phase.about q' p' → p' = p) (hnew : ∀ q' p', phase'.about q' p' → p' = p)
    (hG : ∀ q' p', p' ≠ p → (G' q' p' ↔ G q' p'))
    (hv : v.isSome = true ↔ (∃ q', G' q' p) ∨ ∃ q', phase' = .waiting q' p)
    (hcount : ∀ inc, v = some inc → inc .count = 1) :
    IncrementsOk G' phase' (update increments p v) := by
  refine ⟨fun p' => ?_, fun p' inc hp' => ?_⟩
  · by_cases hp : p' = p
    · subst hp
      rw [update_self, hv]
    have h₁ : ¬ ∃ q', phase' = .waiting q' p' := fun ⟨q', hphase⟩ => hp (hnew q' p' (.inl hphase))
    have h₂ : ¬ ∃ q', phase = .waiting q' p' := fun ⟨q', hphase⟩ => hp (hold q' p' (.inl hphase))
    rw [update_of_ne hp, h.isSome p']
    simp only [h₁, h₂, or_false]
    exact exists_congr fun q' => (hG q' p' hp).symm
  · by_cases hp : p' = p
    · subst hp
      rw [update_self] at hp'
      exact hcount inc hp'
    · rw [update_of_ne hp] at hp'
      exact h.count p' inc hp'

theorem LocalLocksOk.update [DecidableEq κ] {localLocks : κ → Option LocalLock}
    {w : Option LocalLock} (h : LocalLocksOk G W phase localLocks)
    (hold : ∀ q' p', phase.about q' p' → q' = q) (hnew : ∀ q' p', phase'.about q' p' → q' = q)
    (hG : ∀ q' p', q' ≠ q → (G' q' p' ↔ G q' p')) (hW : ∀ q', q' ≠ q → (W' q' ↔ W q'))
    (hw : w = some ⟨true, true⟩ ↔ (∃ p', G' q p') ∨ W' q ∨ phase'.lingers q)
    (hw' : w.isSome = true ↔ (∃ p', G' q p') ∨ W' q ∨ phase'.lingersLocally q) :
    LocalLocksOk G' W' phase' (update localLocks q w) := by
  refine ⟨fun q' => ?_, fun q' => ?_⟩
  · by_cases hq : q' = q
    · subst hq
      rw [update_self, hw]
    · have h₁ : ¬ phase'.lingers q' := fun ⟨p', err, hp, _⟩ => hq (hnew q' p' (.inr ⟨err, hp⟩))
      have h₂ : ¬ phase.lingers q' := fun ⟨p', err, hp, _⟩ => hq (hold q' p' (.inr ⟨err, hp⟩))
      rw [update_of_ne hq, h.complete q', hW q' hq, exists_congr fun p' => hG q' p' hq]
      simp [h₁, h₂]
  · by_cases hq : q' = q
    · subst hq
      rw [update_self, hw']
    have h₁ : ¬ phase'.lingersLocally q' := fun ⟨p', err, hp, _⟩ =>
      hq (hnew q' p' (.inr ⟨err, hp⟩))
    have h₂ : ¬ phase.lingersLocally q' := fun ⟨p', err, hp, _⟩ =>
      hq (hold q' p' (.inr ⟨err, hp⟩))
    rw [update_of_ne hq, h.isSome q', hW q' hq, exists_congr fun p' => hG q' p' hq]
    simp [h₁, h₂]

end Views

namespace State

def grantedTo (s : State π κ ρ) (pid : π) (q : κ) (p : ρ) : Prop := (pid, p) ∈ (s.entries q).granted

def waitsIn (s : State π κ ρ) (pid : π) (q : κ) : Prop := pid ∈ (s.entries q).waiters

end State

variable [DecidableEq π]

/-- The invariant of every run. -/
structure Inv (s : State π κ ρ) : Prop where
  entry : ∀ q, EntryOk 0 (fun pid => (s.backends pid).phase.lingers q) (s.entries q)
  backend : ∀ pid, BackendOk (s.grantedTo pid) (s.waitsIn pid) (s.backends pid)

theorem inv_initial (settings : κ → Option QueueSettings) :
    Inv (initial settings : State π κ ρ) := by
  refine ⟨fun q => ⟨nodup_nil, nodup_nil, ?_, ?_, ?_, ?_, ?_, ?_⟩, fun pid =>
    ⟨⟨nodup_nil, ?_, ?_⟩, ⟨?_, ?_⟩, ⟨?_, ?_⟩, ?_, ?_⟩⟩
  · intro l hl
    simp [initial] at hl
  · intro _
    exact ⟨rfl, rfl⟩
  · intro pid pl hpl
    simp [initial] at hpl
  · intro pid
    simp [initial, held, waiters]
  · intro queue hq
    obtain ⟨_, -, rfl⟩ := Option.map_eq_some_iff.1 hq
    simp [initial, resCreateQueue]
  · intro _
    rfl
  · intro q p hg
    exact absurd hg not_mem_nil
  · rintro q p (h | ⟨_, h⟩) <;> cases h
  · intro p
    simp [initial, grantedTo]
  · intro p inc h
    simp [initial] at h
  · intro q
    simp [initial, grantedTo, waitsIn, waiters]
  · intro q
    simp [initial, grantedTo, waitsIn, waiters]
  · intro q
    simp [initial, waitsIn, waiters]
  · intro q p h
    cases h

section Update

variable [DecidableEq κ] {s : State π κ ρ} {q : κ} {p : ρ} {me : π} {e : Entry π ρ}
  {b : Backend κ ρ} {v : Option Increments} {w : Option LocalLock}

@[simp] theorem State.set_entries_self : (s.set q e me b).entries q = e := update_self ..

theorem State.set_entries_of_ne {q' : κ} (hq : q' ≠ q) :
    (s.set q e me b).entries q' = s.entries q' :=
  update_of_ne hq ..

@[simp] theorem State.set_backends_self : (s.set q e me b).backends me = b := update_self ..

variable {pid : π}

theorem State.set_backends_of_ne (hpid : pid ≠ me) :
    (s.set q e me b).backends pid = s.backends pid :=
  update_of_ne hpid ..

theorem State.grantedTo_set_iff
    (hgranted : ∀ g, g ≠ (me, p) → (g ∈ e.granted ↔ g ∈ (s.entries q).granted)) {q' : κ} {p' : ρ}
    (hne : pid ≠ me ∨ q' ≠ q ∨ p' ≠ p) :
    (s.set q e me b).grantedTo pid q' p' ↔ s.grantedTo pid q' p' := by
  by_cases hq : q' = q
  · subst hq
    simp only [grantedTo, set_entries_self]
    refine hgranted (pid, p') fun heq => ?_
    obtain ⟨rfl, rfl⟩ := Prod.mk.inj heq
    tauto
  · simp [grantedTo, set_entries_of_ne hq]

variable [DecidableEq ρ]

/-- A step of a backend about one portal: the entry of the queue, the increments of the portal and
the local lock of the queue may change. -/
structure Moved (s : State π κ ρ) (q : κ) (p : ρ) (me : π) (e : Entry π ρ) (b : Backend κ ρ)
    (v : Option Increments) (w : Option LocalLock) : Prop where
  entry : EntryOk 0 (fun pid => (pid = me ∧ b.phase.lingers q) ∨
    (pid ≠ me ∧ (s.backends pid).phase.lingers q)) e
  granted : ∀ g, g ≠ (me, p) → (g ∈ e.granted ↔ g ∈ (s.entries q).granted)
  waiters : ∀ pid, pid ≠ me → (pid ∈ e.waiters ↔ pid ∈ (s.entries q).waiters)
  about : ∀ q' p', b.phase.about q' p' → q' = q ∧ p' = p
  increments : b.increments = update (s.backends me).increments p v
  isSome : v.isSome = true ↔ (me, p) ∈ e.granted ∨ b.phase = .waiting q p
  count : ∀ inc, v = some inc → inc .count = 1
  localLocks : b.localLocks = update (s.backends me).localLocks q w
  complete : w = some ⟨true, true⟩ ↔ (∃ p', (me, p') ∈ e.granted) ∨ me ∈ e.waiters ∨
    b.phase.lingers q
  locally : w.isSome = true ↔ (∃ p', (me, p') ∈ e.granted) ∨ me ∈ e.waiters ∨
    b.phase.lingersLocally q
  waits : me ∈ e.waiters ↔ b.phase = .waiting q p ∧ (me, p) ∉ e.granted
  dead : b.phase = .failed q p .selfDeadlock → (me, p) ∈ e.granted

/-- **A step about one portal of one backend keeps the invariant**, before anybody is woken. -/
theorem Inv.update (h : Inv s) (hm : Moved s q p me e b v w)
    (hold : ∀ q' p', (s.backends me).phase.about q' p' → q' = q ∧ p' = p)
    (hone : ∀ q', q' ≠ q → ¬ s.grantedTo me q' p)
    (hportals : PortalsOk ((s.set q e me b).grantedTo me) b.phase b.portals) :
    Inv (s.set q e me b) := by
  obtain ⟨he, hgranted, hwaiters, hnew, hinc, hv, hcount, hlocal, hw, hw', hwaits, hdead⟩ := hm
  have hG : ∀ q' p', q' ≠ q ∨ p' ≠ p →
      ((s.set q e me b).grantedTo me q' p' ↔ s.grantedTo me q' p') :=
    fun q' p' hne => grantedTo_set_iff hgranted (.inr hne)
  have hlinger : ∀ q', q' ≠ q → ¬ b.phase.lingers q' ∧ ¬ (s.backends me).phase.lingers q' := by
    refine fun q' hq => ⟨?_, ?_⟩
    · rintro ⟨p', err, hp, -⟩
      exact hq (hnew q' p' (.inr ⟨err, hp⟩)).1
    · rintro ⟨p', err, hp, -⟩
      exact hq (hold q' p' (.inr ⟨err, hp⟩)).1
  refine ⟨fun q' => ?_, fun pid => ?_⟩
  · -- the entries
    by_cases hq : q' = q
    · subst hq
      rw [set_entries_self]
      refine he.congr_extra fun pid => ?_
      by_cases hpid : pid = me
      · subst hpid
        simp
      · simp [set_backends_of_ne hpid, hpid]
    · rw [set_entries_of_ne hq]
      refine (h.entry q').congr_extra fun pid => ?_
      by_cases hpid : pid = me
      · subst hpid
        simp [hlinger q' hq]
      · rw [set_backends_of_ne hpid]
  · by_cases hpid : pid = me
    · -- the backend that moved
      subst hpid
      have hb := h.backend pid
      have hat : ∀ p', (s.set q e pid b).grantedTo pid q p' ↔ (pid, p') ∈ e.granted := fun p' => by
        simp [grantedTo]
      have hatW : (s.set q e pid b).waitsIn pid q ↔ pid ∈ e.waiters := by simp [waitsIn]
      have hW : ∀ q', q' ≠ q → ((s.set q e pid b).waitsIn pid q' ↔ s.waitsIn pid q') :=
        fun q' hq => by simp [waitsIn, set_entries_of_ne hq]
      rw [set_backends_self]
      refine ⟨hportals, ?_, ?_, fun q' => ?_, fun q' p' hp' => ?_⟩
      · rw [hinc]
        refine hb.increments.update (fun q' p' ha => (hold q' p' ha).2)
          (fun q' p' ha => (hnew q' p' ha).2) (fun q' p' hp => hG q' p' (.inr hp)) ?_ hcount
        rw [hv]
        constructor
        · rintro (hmem | hphase)
          · exact .inl ⟨q, (hat p).2 hmem⟩
          · exact .inr ⟨q, hphase⟩
        rintro (⟨q', hmem⟩ | ⟨q', hphase⟩)
        · by_cases hq : q' = q
          · subst hq
            exact .inl ((hat p).1 hmem)
          · exact absurd ((hG q' p (.inl hq)).1 hmem) (hone q' hq)
        · obtain ⟨rfl, -⟩ := hnew q' p (.inl hphase)
          exact .inr hphase
      · rw [hlocal]
        refine hb.localLocks.update (fun q' p' ha => (hold q' p' ha).1)
          (fun q' p' ha => (hnew q' p' ha).1) (fun q' p' hq => hG q' p' (.inl hq)) hW ?_ ?_
        · rw [hw, hatW, exists_congr hat]
        · rw [hw', hatW, exists_congr hat]
      · by_cases hq : q' = q
        · subst hq
          rw [hatW, hwaits]
          constructor
          · rintro ⟨hphase, hmem⟩
            exact ⟨p, hphase, fun hg => hmem ((hat p).1 hg)⟩
          · rintro ⟨p', hphase, hmem⟩
            obtain ⟨-, rfl⟩ := hnew q' p' (.inl hphase)
            exact ⟨hphase, fun hg => hmem ((hat p').2 hg)⟩
        · rw [hW q' hq, hb.waits q']
          constructor
          · rintro ⟨p', hphase, -⟩
            exact absurd (hold q' p' (.inl hphase)).1 hq
          · rintro ⟨p', hphase, -⟩
            exact absurd (hnew q' p' (.inl hphase)).1 hq
      · obtain ⟨rfl, rfl⟩ := hnew q' p' (.inr ⟨_, hp'⟩)
        exact (hat p').2 (hdead hp')
    · -- the others
      rw [set_backends_of_ne hpid]
      refine (h.backend pid).congr (fun q' p' => grantedTo_set_iff hgranted (.inl hpid))
        fun q' => ?_
      by_cases hq : q' = q
      · subst hq
        simpa [waitsIn] using hwaiters pid hpid
      · simp [waitsIn, set_entries_of_ne hq]

omit [DecidableEq κ] [DecidableEq ρ] in
theorem Inv.waitingFor_spec (h : Inv s) {inc : Increments} (hpid : pid ∈ (s.entries q).waiters)
    (hw : s.waitingFor pid = some (p, inc)) :
    (s.backends pid).phase = .waiting q p ∧ (s.backends pid).increments p = some inc ∧
      (pid, p) ∉ (s.entries q).granted := by
  obtain ⟨p₀, hphase, hnot⟩ := ((h.backend pid).waits q).1 hpid
  obtain ⟨inc₀, hinc, heq⟩ : ∃ inc₀, (s.backends pid).increments p₀ = some inc₀ ∧
      (p₀, inc₀) = (p, inc) := by
    simpa [waitingFor, Backend.waitingFor, hphase] using hw
  obtain ⟨rfl, rfl⟩ := mk.inj heq
  exact ⟨hphase, hinc, hnot⟩

theorem Inv.wake (h : Inv s) {inc : Increments} {queue : ResQueue}
    (hpid : pid ∈ (s.entries q).waiters) (hw : s.waitingFor pid = some (p, inc))
    (hq : (s.entries q).queue = some queue) :
    Inv (s.set q ((s.entries q).wake pid p inc) pid (s.backends pid)) := by
  have hb := h.backend pid
  obtain ⟨hphase, hinc, hnot⟩ := h.waitingFor_spec hpid hw
  have habout : ∀ q' p', (s.backends pid).phase.about q' p' → q' = q ∧ p' = p := by
    intro q' p' hab
    rw [hphase] at hab
    exact about_waiting hab
  have hportal : (p, q) ∈ (s.backends pid).portals := hb.portals.about q p (.inl hphase)
  have hgranted : ∀ g, g ≠ (pid, p) →
      (g ∈ ((s.entries q).wake pid p inc).granted ↔ g ∈ (s.entries q).granted) := by
    intro g hg
    simp [hg]
  refine h.update (v := some inc) (w := (s.backends pid).localLocks q)
    ⟨?_, hgranted, ?_, habout, ?_, ?_, ?_, ?_, ?_, ?_, ?_, ?_⟩ habout ?_ ?_
  · -- the entry
    refine ((h.entry q).wake hpid hnot (by simp [hq]) (hb.increments.count p inc hinc)).congr_extra
      fun pid' => ?_
    by_cases heq : pid' = pid
    · subst heq
      tauto
    · tauto
  · intro pid' hne
    rw [waiters_wake, mem_erase_of_ne hne]
  · rw [← hinc, update_eq_self]
  · simp
  · rintro _ ⟨⟩
    exact hb.increments.count p inc hinc
  · rw [update_eq_self]
  · rw [hb.localLocks.complete q]
    simp [waitsIn, hpid, hphase]
  · rw [hb.localLocks.isSome q]
    simp [waitsIn, hpid, hphase]
  · simp [(h.entry q).waiters_nodup.mem_erase_iff]
  · intro hdead
    rw [hphase] at hdead
    cases hdead
  · intro q' hq' hg
    exact hq' (hb.portals.unique (hb.portals.granted q' p hg) hportal)
  · refine hb.portals.mono hportal (fun q' p' hg => ?_) habout
    by_cases heq : q' = q ∧ p' = p
    · exact .inr heq
    · exact .inl ((grantedTo_set_iff hgranted (.inr (not_and_or.1 heq))).1 hg)

/-- **The wakeup loop keeps the invariant**, and whatever else each single wakeup
keeps. The step of the backend `me` comes first; it does not wait itself. -/
theorem Inv.wakeup_rule {P : Entry π ρ → Prop} {e' : Entry π ρ} (h : Inv (s.set q e me b))
    (hme : me ∉ e.waiters) (he : P e) (hP : ∀ e proc p inc queue, Inv (s.set q e me b) → P e →
      proc ∈ e.waiters → proc ≠ me → (s.backends proc).phase = .waiting q p →
      (s.backends proc).increments p = some inc → (proc, p) ∉ e.granted → e.queue = some queue →
      queue.resLockCheckLimit inc = .ok → P (e.wake proc p inc))
    (hwake : resProcLockRemoveSelfAndWakeup s.waitingFor me e.waiters e = some e') :
    Inv (s.set q e' me b) ∧ P e' := by
  have hnodup : e.waiters.Nodup := by
    have hentry := (h.entry q).waiters_nodup
    rwa [set_entries_self] at hentry
  refine (resProcLockRemoveSelfAndWakeup_rule
    (P := fun t => me ∉ t.waiters ∧ Inv (s.set q t me b) ∧ P t) ?_ hnodup hme ⟨hme, h, he⟩ hwake).2
  rintro t proc p' inc queue ⟨hmet, ht, hPt⟩ hproc hw hq hok
  have hne : proc ≠ me := fun heq => hmet (heq ▸ hproc)
  have hproc' : proc ∈ ((s.set q t me b).entries q).waiters := by rwa [set_entries_self]
  have hw' : (s.set q t me b).waitingFor proc = some (p', inc) := by
    simpa only [waitingFor, set_backends_of_ne hne] using hw
  obtain ⟨hphase, hinc, hnot⟩ := ht.waitingFor_spec hproc' hw'
  rw [set_backends_of_ne hne] at hphase hinc
  rw [set_entries_self] at hnot
  refine ⟨?_, ?_, hP t proc p' inc queue ht hPt hproc hne hphase hinc hnot hq hok⟩
  · rw [waiters_wake]
    exact fun hmem => hmet (mem_of_mem_erase hmem)
  have hq' : ((s.set q t me b).entries q).queue = some queue := by rwa [set_entries_self]
  have hstep := ht.wake hproc' hw' hq'
  rw [set_entries_self, set_backends_of_ne hne] at hstep
  have hset : (s.set q t me b).set q (t.wake proc p' inc) proc (s.backends proc) =
      s.set q (t.wake proc p' inc) me b := by
    simp only [State.set, update_idem]
    congr 1
    rw [update_comm hne.symm, update_eq_self]
  rwa [hset] at hstep

end Update

end Cloudberry.ResScheduler
