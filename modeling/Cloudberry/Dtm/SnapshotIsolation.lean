/-
# Which gxids a distributed snapshot may see

The system around `ProcArray`: backends activate global transactions, end them and
take distributed snapshots in any order, from the state `StartupXLOG`
(`src/backend/access/transam/xlog.c`) leaves. The run carries one piece of history,
the gxids that have ended.

A snapshot should see a gxid only if its transaction is over. Along every run each
gxid handed out so far is over or still published (`GxactRun.Inv`), and a published
one below `xmax` is listed, so this comes down to `xmax` not exceeding `nextGxid`.
`xmax` is `latestCompletedGxid + 1`, and `StartupXLOG` sets `latestCompletedGxid` to
`nextGxid` itself, where the comment above it (and the code for `latestCompletedXid`)
says `nextXid - 1`. Until the first gxid is handed out, and only then, that gxid is
therefore below `xmin` and visible.
-/

import Cloudberry.Lib.Machine
import Cloudberry.Dtm.ProcArray

namespace Cloudberry.Dtm

open ProcArray DistributedSnapshot

/-- What moves the gxids of the coordinator's `n` backends. -/
inductive GxactEvent (n : ℕ) where
  | bumpGxid
  | recoverInDoubt
  | activate (me : Fin n)
  | endGxact (me : Fin n)
  | snapshot (me : Fin n)
  deriving DecidableEq, Repr

/-- The shared memory, with the gxids ended so far. -/
structure GxactRun (n : ℕ) where
  shmem : ProcArray n
  ended : List ℕ

namespace GxactRun

variable {n : ℕ} {p : PrefetchNum}

/-- The state `StartupXLOG` leaves. -/
def startup (start : StartGxid p) (numCommitted : ℕ) : GxactRun n :=
  ⟨startupXLOG start.gxid numCommitted, []⟩

/-- One step. Only a backend without a global transaction activates one
(`setupDtxTransaction`), and an error of the snapshot leaves everything as it is. -/
def step (p : PrefetchNum) (s : GxactRun n) : GxactEvent n → Option (GxactRun n)
  | .bumpGxid =>
    (s.shmem.gen.bumpGxid p).map fun gen => { s with shmem := { s.shmem with gen := gen } }
  | .recoverInDoubt => some { s with shmem := { s.shmem with shmNumCommittedGxacts := 0 } }
  | .activate me =>
    if (s.shmem.allTmGxact me).gxid = invalidDistributedTransactionId then
      (s.shmem.currentDtxActivate me).map fun t => { s with shmem := t }
    else none
  | .endGxact me =>
    let gxid := (s.shmem.allTmGxact me).gxid
    some ⟨s.shmem.procArrayEndGxact me,
      if gxid = invalidDistributedTransactionId then s.ended else gxid :: s.ended⟩
  | .snapshot me =>
    match s.shmem.getSnapshotData me with
    | .error _ => some s
    | .ok (_, t) => some { s with shmem := t }

/-- `g` ended before now: in this run, or in the time before `StartupXLOG`. -/
def Ended (s : GxactRun n) (start g : ℕ) : Prop := g < start ∨ g ∈ s.ended

/-- What every run keeps. `covered` is the heart: no gxid handed out is ever
neither published nor over. -/
structure Inv (p : PrefetchNum) (start : ℕ) (s : GxactRun n) : Prop where
  sound : s.shmem.gen.Sound p
  start_valid : invalidDistributedTransactionId < start
  start_le : start ≤ s.shmem.gen.nextGxid
  atomic_eq : ∀ i, (s.shmem.allTmGxact i).atomicGxid = (s.shmem.allTmGxact i).gxid
  published : ∀ i, (s.shmem.allTmGxact i).gxid ≠ invalidDistributedTransactionId →
    start ≤ (s.shmem.allTmGxact i).gxid ∧ (s.shmem.allTmGxact i).gxid < s.shmem.gen.nextGxid
  ended_range : ∀ g ∈ s.ended, start ≤ g ∧ g < s.shmem.gen.nextGxid
  covered : ∀ g, start ≤ g → g < s.shmem.gen.nextGxid →
    g ∈ s.ended ∨ ∃ i, (s.shmem.allTmGxact i).gxid = g
  latest : s.shmem.latestCompletedGxid = start ∨ s.shmem.latestCompletedGxid ∈ s.ended

theorem inv_startup (start : StartGxid p) (numCommitted : ℕ) :
    (startup start numCommitted : GxactRun n).Inv p start.gxid where
  sound := start.sound
  start_valid := start.sound.valid
  start_le := le_rfl
  atomic_eq := fun _ => rfl
  published := fun _ h => absurd rfl h
  ended_range := nofun
  covered := fun g h₁ h₂ => absurd h₂ (by simpa [startup, startupXLOG] using h₁)
  latest := .inl rfl

/-! ### One step keeps the invariant -/

variable {start : ℕ} {s t : GxactRun n}

/-- A step that leaves the slots' gxids, `latestCompletedGxid`, `nextGxid` and the
history alone keeps the invariant. -/
theorem Inv.congr (hs : s.Inv p start) (hsound : t.shmem.gen.Sound p)
    (hnext : t.shmem.gen.nextGxid = s.shmem.gen.nextGxid)
    (hgxid : ∀ i, (t.shmem.allTmGxact i).gxid = (s.shmem.allTmGxact i).gxid)
    (hatomic : ∀ i, (t.shmem.allTmGxact i).atomicGxid = (s.shmem.allTmGxact i).atomicGxid)
    (hlatest : t.shmem.latestCompletedGxid = s.shmem.latestCompletedGxid)
    (hended : t.ended = s.ended) : t.Inv p start where
  sound := hsound
  start_valid := hs.start_valid
  start_le := hnext ▸ hs.start_le
  atomic_eq := fun i => by rw [hatomic, hgxid, hs.atomic_eq]
  published := fun i => by rw [hgxid, hnext]; exact hs.published i
  ended_range := by rw [hended, hnext]; exact hs.ended_range
  covered := fun g h₁ h₂ => by
    rw [hended]
    rw [hnext] at h₂
    simpa only [hgxid] using hs.covered g h₁ h₂
  latest := by rw [hlatest, hended]; exact hs.latest

theorem Inv.activate (hs : s.Inv p start) {me : Fin n} {shmem : ProcArray n}
    (hfree : (s.shmem.allTmGxact me).gxid = invalidDistributedTransactionId)
    (h : s.shmem.currentDtxActivate me = some shmem) :
    ({ s with shmem := shmem } : GxactRun n).Inv p start := by
  obtain ⟨⟨_, gen⟩, htake, rfl⟩ := Option.map_eq_some_iff.1 h
  obtain ⟨-, rfl, hgen⟩ := hs.sound.take_eq_some htake
  have hsound := hs.sound.take_sound htake
  have hnext : gen.nextGxid = s.shmem.gen.nextGxid + 1 := by rw [hgen]
  have hle := hs.start_le
  refine ⟨hsound, hs.start_valid, ?_, ?_, ?_, ?_, ?_, hs.latest⟩
  · show start ≤ gen.nextGxid
    omega
  · intro i
    by_cases hi : i = me
    · subst hi
      simp
    · simpa [hi] using hs.atomic_eq i
  · intro i
    rw [hnext]
    by_cases hi : i = me
    · subst hi
      simp [hle]
    · intro hne
      obtain ⟨h₁, h₂⟩ := hs.published i (by simpa [hi] using hne)
      simp only [Function.update_of_ne hi]
      omega
  · intro g hg
    obtain ⟨h₁, h₂⟩ := hs.ended_range g hg
    show _ ∧ g < gen.nextGxid
    omega
  · intro g h₁ h₂
    have h₂ : g < gen.nextGxid := h₂
    rcases Nat.lt_or_ge g s.shmem.gen.nextGxid with hlt | _
    · refine (hs.covered g h₁ hlt).imp id fun ⟨i, hi⟩ => ⟨i, ?_⟩
      have hime : i ≠ me := fun heq => by
        rw [heq, hfree] at hi
        exact absurd h₁ (by have := hs.start_valid; omega)
      simpa [hime] using hi
    · exact .inr ⟨me, by simp; omega⟩

theorem Inv.endGxact (hs : s.Inv p start) {me : Fin n}
    (h : s.step p (.endGxact me) = some t) : t.Inv p start := by
  cases h
  by_cases hset : (s.shmem.allTmGxact me).gxid = invalidDistributedTransactionId
  · -- nothing published: the slot is cleared of everything but a gxid
    have hatomic := (hs.atomic_eq me).trans hset
    refine hs.congr hs.sound rfl (fun i => ?_) (fun i => ?_) ?_ ?_
    · by_cases hi : i = me
      · subst hi
        simp [procArrayEndGxact, TmGxact.empty, hset, invalidDistributedTransactionId]
      · simp [procArrayEndGxact, hi]
    · by_cases hi : i = me
      · subst hi
        simp [procArrayEndGxact, TmGxact.empty, hatomic, invalidDistributedTransactionId]
      · simp [procArrayEndGxact, hi]
    · simp [procArrayEndGxact, hset]
    · simp [hset]
  · obtain ⟨hge, hlt⟩ := hs.published me hset
    refine ⟨hs.sound, hs.start_valid, hs.start_le, fun i => ?_, fun i hne => ?_, ?_, ?_, ?_⟩
    · by_cases hi : i = me
      · subst hi
        simp [procArrayEndGxact, TmGxact.empty]
      · simpa [procArrayEndGxact, hi] using hs.atomic_eq i
    · by_cases hi : i = me
      · subst hi
        simp [procArrayEndGxact, TmGxact.empty, invalidDistributedTransactionId] at hne
      · simpa [procArrayEndGxact, hi] using
          hs.published i (by simpa [procArrayEndGxact, hi] using hne)
    · intro g hg
      rcases (by simpa [hset] using hg : g = (s.shmem.allTmGxact me).gxid ∨ g ∈ s.ended)
        with rfl | hg
      · exact ⟨hge, hlt⟩
      · exact hs.ended_range g hg
    · intro g h₁ h₂
      simp only [hset, ↓reduceIte, List.mem_cons]
      rcases hs.covered g h₁ h₂ with hg | ⟨i, hi⟩
      · exact .inl (.inr hg)
      by_cases hime : i = me
      · subst hime
        exact .inl (.inl hi.symm)
      · exact .inr ⟨i, by simpa [procArrayEndGxact, hime] using hi⟩
    · simp only [procArrayEndGxact, hset, ↓reduceIte, List.mem_cons]
      split
      next => exact .inr (.inl rfl)
      next => exact hs.latest.imp id .inr

/-- **One step keeps the invariant.** -/
theorem Inv.step (s : GxactRun n) (e : GxactEvent n) (t : GxactRun n) (hs : s.Inv p start)
    (h : s.step p e = some t) : t.Inv p start := by
  cases e with
  | bumpGxid =>
    obtain ⟨_, hgen, rfl⟩ := Option.map_eq_some_iff.1 h
    obtain ⟨hnext, hsound⟩ := hs.sound.bumpGxid_eq_some hgen
    exact hs.congr hsound hnext (fun _ => rfl) (fun _ => rfl) rfl rfl
  | recoverInDoubt =>
    cases h
    exact hs.congr hs.sound rfl (fun _ => rfl) (fun _ => rfl) rfl rfl
  | activate me =>
    rw [GxactRun.step] at h
    split_ifs at h with hfree
    obtain ⟨shmem, hact, rfl⟩ := Option.map_eq_some_iff.1 h
    exact hs.activate hfree hact
  | endGxact me => exact hs.endGxact h
  | snapshot me =>
    simp only [GxactRun.step] at h
    split at h
    next =>
      cases h
      exact hs
    next ds shmem hsnap =>
      cases h
      have hspec := getSnapshotData_spec hsnap
      exact hs.congr (hspec.gen_eq ▸ hs.sound) (by rw [hspec.gen_eq]) hspec.gxid_eq
        hspec.atomicGxid_eq hspec.latest_eq rfl

theorem inv_of_run {first : StartGxid p} {numCommitted : ℕ} {es : List (GxactEvent n)}
    (hrun : Machine.run (GxactRun.step p) (startup first numCommitted) es = some s) :
    s.Inv p first.gxid :=
  Machine.run_invariant Inv.step (inv_startup first numCommitted) hrun

/-! ### Snapshots -/

theorem Inv.latest_lt (hs : s.Inv p start) (hassigned : start < s.shmem.gen.nextGxid) :
    s.shmem.latestCompletedGxid < s.shmem.gen.nextGxid := by
  rcases hs.latest with h | h
  · rw [h]
    exact hassigned
  · exact (hs.ended_range _ h).2

theorem Inv.ended_of_visible (hs : s.Inv p start) {me : Fin n} {ds : DistributedSnapshot}
    {shmem : ProcArray n} (hsnap : s.shmem.getSnapshotData me = .ok (ds, shmem)) {g : ℕ}
    (hown : g ≠ (s.shmem.allTmGxact me).gxid) (hvis : ds.rangeTest g = .visible)
    (hlt : g < s.shmem.gen.nextGxid) : s.Ended start g := by
  have hspec := getSnapshotData_spec hsnap
  rcases Nat.lt_or_ge g start with hearly | hge
  · exact .inl hearly
  rcases hs.covered g hge hlt with hended | ⟨i, hi⟩
  · exact .inr hended
  -- still published by another backend: then it is listed, and `xmin` is not above it
  exfalso
  have hxmax := hspec.xmax_eq
  have hatomic : (s.shmem.allTmGxact i).atomicGxid = g := (hs.atomic_eq i).trans hi
  have hvis' := (rangeTest_eq_visible hspec.wellFormed.sorted).1 hvis
  have hbelow : g < s.shmem.latestCompletedGxid + 1 := by
    rcases hvis' with h | ⟨h, -⟩
    · have := hspec.xmin_le_xmax
      omega
    · omega
  have hcounts : s.shmem.Counts i := by
    have := hs.start_valid
    exact ⟨by rw [hatomic]; omega, by rw [hatomic]; exact hbelow⟩
  rcases hvis' with h | ⟨-, h⟩
  · have := hspec.xmin_le_slot i hcounts
    omega
  · exact h ((hspec.mem_iff g).2 ⟨i, fun heq => hown (by rw [← hi, heq]), hcounts, hatomic⟩)

/-- **A snapshot sees only what is over, from the first assignment on and only then.**
In every run, whoever takes a snapshot: each gxid other than the backend's own that the
snapshot classifies as visible has ended before, exactly when some gxid has been
handed out since `StartupXLOG`. -/
theorem visible_ended_iff_gxid_assigned (first : StartGxid p) (numCommitted : ℕ)
    (es : List (GxactEvent n)) (s : GxactRun n)
    (hrun : Machine.run (GxactRun.step p) (startup first numCommitted) es = some s)
    (me : Fin n) (ds : DistributedSnapshot) (shmem : ProcArray n)
    (hsnap : s.shmem.getSnapshotData me = .ok (ds, shmem)) :
    (∀ g, g ≠ (s.shmem.allTmGxact me).gxid → ds.rangeTest g = .visible →
      s.Ended first.gxid g) ↔ first.gxid < s.shmem.gen.nextGxid := by
  have hs := inv_of_run hrun
  have hspec := getSnapshotData_spec hsnap
  have hvis : ∀ g, ds.rangeTest g = .visible ↔ g < ds.xmin ∨ (g < ds.xmax ∧ g ∉ ds.inProgressXidArray) :=
    fun g => rangeTest_eq_visible hspec.wellFormed.sorted
  constructor
  · intro hall
    by_contra hnot
    -- nothing handed out: no slot is set, so `xmin = xmax = first.gxid + 1`
    have hnext : s.shmem.gen.nextGxid = first.gxid := by
      have := hs.start_le
      omega
    have hfree : ∀ i, (s.shmem.allTmGxact i).gxid = invalidDistributedTransactionId := by
      intro i
      by_contra hset
      have := hs.published i hset
      omega
    have hlatest : s.shmem.latestCompletedGxid = first.gxid := by
      rcases hs.latest with h | h
      · exact h
      · have := hs.ended_range _ h
        omega
    have hxmin : ds.xmin = ds.xmax := by
      rcases hspec.xmin_source with h | ⟨i, hc, -⟩
      · exact h
      · exact absurd ((hs.atomic_eq i).trans (hfree i)) hc.1
    have hxmax := hspec.xmax_eq
    have hown : first.gxid ≠ (s.shmem.allTmGxact me).gxid := by
      have := hs.start_valid
      rw [hfree me]
      omega
    rcases hall first.gxid hown ((hvis _).2 (.inl (by omega))) with h | h
    · exact lt_irrefl _ h
    · have := hs.ended_range _ h
      omega
  · intro hassigned g hown hg
    have hlatest := hs.latest_lt hassigned
    have hxmax := hspec.xmax_eq
    have hxle := hspec.xmin_le_xmax
    have hlt : g < ds.xmax := by
      rcases (hvis g).1 hg with h | ⟨h, -⟩ <;> omega
    exact hs.ended_of_visible hsnap hown hg (by omega)

/-- Two backends, of which backend 0 runs the first global transaction. -/
def oneActive : GxactRun 2 :=
  ⟨⟨⟨2, 8191⟩, 1, 0, 0,
    Function.update (fun _ => TmGxact.empty) ⟨0, Nat.two_pos⟩ ⟨1, 1, 0, false⟩⟩, []⟩

/-- The hypotheses of `visible_ended_iff_gxid_assigned` are satisfiable: backend 1
takes a snapshot while backend 0 runs the first global transaction. -/
theorem visible_ended_after_first_activate : firstStart.gxid < oneActive.shmem.gen.nextGxid ∧
      ∀ g, g ≠ (oneActive.shmem.allTmGxact 1).gxid →
        (⟨1, 1, 1, 2, [1]⟩ : DistributedSnapshot).rangeTest g = .visible →
        oneActive.Ended firstStart.gxid g :=
  ⟨by decide, (visible_ended_iff_gxid_assigned firstStart 0 [.bumpGxid, .activate 0] oneActive rfl 1
    ⟨1, 1, 1, 2, [1]⟩ _ rfl).2 (by decide)⟩

/-- **A gxid that is not assigned yet is visible right after startup.**  Backend 0 of a
new cluster takes a snapshot before any global transaction; backend 1 is then given
gxid 1, which that snapshot already takes for committed. -/
theorem unassigned_gxid_visible_after_startup : ∃ ds shmem,
      (startup firstStart 0 : GxactRun 2).shmem.getSnapshotData 0 = .ok (ds, shmem) ∧
      (∃ s, Machine.run (GxactRun.step defaultPrefetchNum) (startup firstStart 0 : GxactRun 2)
          [.snapshot 0, .bumpGxid, .activate 1] = some s ∧
        (s.shmem.allTmGxact 1).gxid = 1 ∧ s.ended = []) ∧
      ds.rangeTest 1 = .visible ∧
      ¬ ∀ g, g ≠ ((startup firstStart 0 : GxactRun 2).shmem.allTmGxact 0).gxid →
        ds.rangeTest g = .visible → (startup firstStart 0 : GxactRun 2).Ended firstStart.gxid g := by
  refine ⟨_, _, rfl, ⟨_, rfl, by decide, rfl⟩, by decide, fun hall => ?_⟩
  rcases hall 1 (by decide) (by decide) with h | h
  · exact absurd h (by decide)
  · cases h

end GxactRun

end Cloudberry.Dtm
