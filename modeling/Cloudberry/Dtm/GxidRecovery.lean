/-
# The gxid generator across crashes

`bumpGxid` logs the new limit (`XLOG_NEXTGXID`), flushes it and only then raises
`GxidCount`, all under `GxidBumpLock`; a checkpoint (`CreateCheckPoint`,
`src/backend/access/transam/xlog.c`) fixes its REDO pointer first, reads
`nextGxid + GxidCount` under the same lock later, and becomes the one recovery starts
from when its record is durable and the control file points to it. Recovery believes
the checkpoint and then every `XLOG_NEXTGXID` and shutdown checkpoint from REDO on,
each of them unconditionally (`xlog_redo`).

What recovery relies on is `Covers`: from this REDO pointer and this initial value,
every prefix that may survive replays to at least `bound`, the limit up to which gxids
may be handed out without a further record. The checkpoint in the control file has it,
and a checkpoint under way has it from the moment it has read its value.
-/

import Cloudberry.Lib.Machine
import Cloudberry.Lib.Wal
import Cloudberry.Dtm.Gxid

namespace Cloudberry.Dtm

open Wal Nat GxidGen List

/-- The part of `CheckPoint` that concerns the generator. -/
structure CheckPoint where
  redo : ℕ
  nextGxid : ℕ
  deriving DecidableEq, Repr

/-- The WAL records that set or carry the generator. -/
inductive GxidRecord where
  | nextGxid (limit : ℕ)
  | checkpointShutdown (c : CheckPoint)
  | checkpointOnline (c : CheckPoint)
  deriving DecidableEq, Repr

/-- `xlog_redo`: both the limit and a shutdown checkpoint are believed exactly, the
counter of an online checkpoint is ignored. -/
def xlogRedo (g : GxidGen) : GxidRecord → GxidGen
  | .nextGxid limit => ⟨limit, 0⟩
  | .checkpointShutdown c => { g with nextGxid := c.nextGxid }
  | .checkpointOnline _ => g

/-- Where the holder of `GxidBumpLock` is in `bumpGxid`. -/
inductive BumpPhase where
  | idle
  | computed (limit : ℕ)
  | inserted (limit pos : ℕ)
  deriving DecidableEq, Repr

/-- Where the checkpointer is in `CreateCheckPoint`. -/
inductive CkptPhase where
  | idle
  | redoFixed (redo : ℕ)
  | gxidRead (c : CheckPoint)
  | inserted (c : CheckPoint) (pos : ℕ)
  deriving DecidableEq, Repr

/-- Backends run only in `running`; checkpoints in the other two modes are of the
shutdown kind (end of recovery, shutdown). -/
inductive ServerMode where
  | startingUp
  | running
  | shuttingDown
  deriving DecidableEq, Repr

/-- The coordinator. `control` is the copy of the last completed checkpoint in the
control file, `assigned` the gxids handed out so far, over all incarnations. -/
structure GxidServer where
  gen : GxidGen
  wal : Wal GxidRecord
  control : CheckPoint
  mode : ServerMode
  bump : BumpPhase
  ckpt : CkptPhase
  assigned : List ℕ

/-- The steps of backends (`activate`, `bump…`), of the checkpointer (`ckpt…`), of
whoever flushes the log, of the postmaster, and a crash followed by recovery. -/
inductive GxidEvent where
  | activate
  | bumpStart
  | bumpInsert
  | bumpFinish
  | bumpAbandon
  | flush (k : ℕ)
  | ckptStart
  | ckptRead
  | ckptInsert
  | ckptFinish
  | ckptAbandon
  | shutdown
  | openUp
  | crash (k : ℕ)
  deriving DecidableEq, Repr

namespace GxidServer

/-- Before the first start: the control file of `BootStrapXLOG` or of an earlier
checkpoint, and an empty log after it. -/
def boot {p : PrefetchNum} (first : StartGxid p) : GxidServer where
  gen := ⟨first.gxid, 0⟩
  wal := Wal.nil
  control := ⟨0, first.gxid⟩
  mode := .startingUp
  bump := .idle
  ckpt := .idle
  assigned := []

/-- The value a checkpoint records: `GxidCount` is added unless it is a shutdown one. -/
def checkpointGxid (s : GxidServer) : ℕ :=
  if s.mode = .running then (s.gen.nextGxid + s.gen.gxidCount) % 2 ^ 64 else s.gen.nextGxid

def checkpointRecord (s : GxidServer) (c : CheckPoint) : GxidRecord :=
  if s.mode = .running then .checkpointOnline c else .checkpointShutdown c

/-- `StartupXLOG`: the control file's checkpoint, then the log from its REDO pointer on. -/
def recover (s : GxidServer) (k : ℕ) : GxidGen :=
  s.wal.replay xlogRedo s.control.redo k ⟨s.control.nextGxid, 0⟩

/-- One step; `none` where the source waits or raises PANIC (a crash is a step of its
own). -/
def step (p : PrefetchNum) (s : GxidServer) : GxidEvent → Option GxidServer
  | .activate =>
    if s.mode = .running then
      s.gen.take.map fun (gxid, gen) => { s with gen := gen, assigned := gxid :: s.assigned }
    else none
  | .bumpStart =>
    if s.mode = .running ∧ s.bump = .idle then
      if GxidGen.prefetchThreshold p < s.gen.gxidCount then some s
      else if s.gen.limitReached p then none
      else some { s with bump := .computed (s.gen.nextLimit p) }
    else none
  | .bumpInsert =>
    match s.bump with
    | .computed limit =>
      some { s with wal := s.wal.insert (.nextGxid limit), bump := .inserted limit s.wal.endPos }
    | _ => none
  | .bumpFinish =>
    match s.bump with
    | .inserted _ pos =>
      -- `XLogFlush` has returned
      if pos < s.wal.flushed then some { s with gen := s.gen.addPrefetch p, bump := .idle }
      else none
    | _ => none
  | .bumpAbandon => some { s with bump := .idle }
  | .flush k =>
    if hk : s.wal.Survives k then some { s with wal := s.wal.flush k hk } else none
  | .ckptStart =>
    match s.ckpt with
    | .idle => some { s with ckpt := .redoFixed s.wal.endPos }
    | _ => none
  | .ckptRead =>
    match s.ckpt with
    | .redoFixed redo =>
      -- `GxidBumpLock` in shared mode: no bump is under way
      if s.bump = .idle then some { s with ckpt := .gxidRead ⟨redo, s.checkpointGxid⟩ } else none
    | _ => none
  | .ckptInsert =>
    match s.ckpt with
    | .gxidRead c =>
      some { s with
        wal := s.wal.insert (s.checkpointRecord c)
        ckpt := .inserted c s.wal.endPos }
    | _ => none
  | .ckptFinish =>
    match s.ckpt with
    | .inserted c pos =>
      if pos < s.wal.flushed then
        -- "concurrent write-ahead log activity while database system is shutting down"
        if s.mode ≠ .running ∧ c.redo ≠ pos then none
        else some { s with control := c, ckpt := .idle }
      else none
    | _ => none
  | .ckptAbandon => some { s with ckpt := .idle }
  | .shutdown =>
    if s.mode = .running ∧ s.ckpt = .idle then
      some { s with mode := .shuttingDown, bump := .idle }
    else none
  | .openUp =>
    if s.mode = .startingUp ∧ s.ckpt = .idle then some { s with mode := .running } else none
  | .crash k =>
    if hk : s.wal.Survives k then
      some { s with
        gen := s.recover k
        wal := s.wal.crash k hk
        mode := .startingUp
        bump := .idle
        ckpt := .idle }
    else none

/-- The limit up to which gxids may be handed out as things stand. -/
def bound (s : GxidServer) : ℕ :=
  if s.mode = .running then s.gen.nextGxid + s.gen.gxidCount else s.gen.nextGxid

end GxidServer

/-! ### What a checkpoint and the log guarantee together -/

/-- From the checkpoint `c`, every prefix of the log that may survive replays to at
least `b`. -/
def Covers (w : Wal GxidRecord) (b : ℕ) (c : CheckPoint) : Prop :=
  ∀ k, w.Survives k → b ≤ (w.replay xlogRedo c.redo k ⟨c.nextGxid, 0⟩).nextGxid

variable {w : Wal GxidRecord} {b : ℕ} {c : CheckPoint} {p : PrefetchNum}

theorem Covers.mono (h : Covers w b c) {b' : ℕ} (hb : b' ≤ b) : Covers w b' c :=
  fun k hk => hb.trans (h k hk)

variable {k : ℕ}

theorem Covers.flush (h : Covers w b c) (hk : w.Survives k) : Covers (w.flush k hk) b c :=
  fun _ hj => h _ (survives_of_flush hj)

theorem Covers.insert (h : Covers w b c) (hredo : c.redo ≤ w.endPos) {r : GxidRecord}
    (hr : ∀ g : GxidGen, b ≤ g.nextGxid → b ≤ (xlogRedo g r).nextGxid) :
    Covers (w.insert r) b c := by
  intro k hk
  rcases survives_insert.1 hk with hk | rfl
  · rw [replay_insert_of_le hk.2]
    exact h k hk
  · rw [replay_insert hredo]
    exact hr _ (h _ w.survives_endPos)

/-- The record at `pos` is the last one that replay takes notice of: a `XLOG_NEXTGXID`
with this limit. -/
structure LastLimit (w : Wal GxidRecord) (limit pos : ℕ) : Prop where
  pos_lt : pos < w.endPos
  from_le : ∀ redo k g, redo ≤ pos → pos < k → k ≤ w.endPos →
    w.replay xlogRedo redo k g = ⟨limit, 0⟩
  from_gt : ∀ redo k g, pos < redo → k ≤ w.endPos → w.replay xlogRedo redo k g = g

theorem lastLimit_insert (w : Wal GxidRecord) (limit : ℕ) :
    LastLimit (w.insert (.nextGxid limit)) limit w.endPos where
  pos_lt := by simp
  from_le := fun redo k g hredo hlt hle => by
    obtain rfl : k = w.endPos + 1 := by
      rw [endPos_insert] at hle
      omega
    rw [replay_insert hredo]
    rfl
  from_gt := fun redo k g hlt hle => by
    rw [endPos_insert] at hle
    exact replay_of_le (by omega)

variable {limit pos : ℕ}

section

variable (h : LastLimit w limit pos)
include h

theorem LastLimit.insert_online (c : CheckPoint) :
    LastLimit (w.insert (.checkpointOnline c)) limit pos := by
  have hpos := h.pos_lt
  refine ⟨by rw [endPos_insert]; omega, fun redo k g hredo hlt hle => ?_,
    fun redo k g hredo hle => ?_⟩ <;> rw [endPos_insert] at hle
  · rcases lt_or_ge w.endPos k with hk | hk
    · obtain rfl : k = w.endPos + 1 := by omega
      rw [replay_insert (by omega), h.from_le redo _ g hredo hpos le_rfl]
      rfl
    · rw [replay_insert_of_le hk]
      exact h.from_le redo k g hredo hlt hk
  · rcases lt_or_ge w.endPos k with hk | hk
    · obtain rfl : k = w.endPos + 1 := by omega
      rcases lt_or_ge w.endPos redo with hr | hr
      · exact replay_of_le (by omega)
      · rw [replay_insert hr, h.from_gt redo _ g hredo le_rfl]
        rfl
    · rw [replay_insert_of_le hk]
      exact h.from_gt redo k g hredo hk

theorem LastLimit.covers (hflushed : pos < w.flushed) (hredo : c.redo ≤ pos) :
    Covers w limit c := by
  intro k hk
  rw [h.from_le c.redo k _ hredo (by have := hk.1; omega) hk.2]

theorem LastLimit.covers_past (hredo : pos < c.redo) : Covers w c.nextGxid c := by
  intro k hk
  rw [h.from_gt c.redo k _ hredo hk.2]

end

namespace GxidServer

section

variable (p : PrefetchNum)

/-- `c` is fit to be the checkpoint recovery starts from. -/
structure Candidate (s : GxidServer) (c : CheckPoint) : Prop where
  redo_le : c.redo ≤ s.wal.endPos
  settled : ∀ limit pos, s.bump = .inserted limit pos → c.redo ≤ pos
  valid : GxidGen.Sound p ⟨c.nextGxid, 0⟩
  covers : Covers s.wal s.bound c

/-- What a checkpoint under way has established so far. Before it has read the
counters any value from `bound` on would do. -/
def CkptOk (s : GxidServer) : Prop :=
  match s.ckpt with
  | .idle => True
  | .redoFixed redo => redo ≤ s.wal.endPos ∧ ∀ v, s.bound ≤ v → Covers s.wal s.bound ⟨redo, v⟩
  | .gxidRead c => s.Candidate p c ∧ (s.mode ≠ .running → s.bound ≤ c.nextGxid)
  | .inserted c pos => s.Candidate p c ∧ c.redo ≤ pos

/-- `limit` is one batch above what may be handed out, and passed the PANIC check. -/
structure Reserved (mode : ServerMode) (gen : GxidGen) (limit : ℕ) : Prop where
  running : mode = .running
  count_le : gen.gxidCount ≤ GxidGen.prefetchThreshold p
  limit_eq : limit = gen.nextGxid + gen.gxidCount + p.num
  limit_lt : limit < lastDistributedTransactionId - p.num

/-- What the holder of `GxidBumpLock` has established so far. -/
def BumpOk (s : GxidServer) : Prop :=
  match s.bump with
  | .idle => True
  | .computed limit => Reserved p s.mode s.gen limit
  | .inserted limit pos => Reserved p s.mode s.gen limit ∧ LastLimit s.wal limit pos

/-- What every run keeps. -/
structure Inv (s : GxidServer) : Prop where
  sound : s.gen.Sound p
  fresh : s.mode = .startingUp → s.gen.gxidCount = 0
  control_ok : s.Candidate p s.control
  control_durable : s.control.redo ≤ s.wal.flushed
  ckpt_ok : s.CkptOk p
  bump_ok : s.BumpOk p
  records_valid : ∀ r ∈ s.wal.records, ∀ g : GxidGen, g.gxidCount = 0 → g.Sound p →
    (xlogRedo g r).gxidCount = 0 ∧ (xlogRedo g r).Sound p
  assigned_lt : ∀ g ∈ s.assigned, g < s.gen.nextGxid
  assigned_nodup : s.assigned.Nodup

end

variable {s t : GxidServer}

theorem nextGxid_le_bound (s : GxidServer) : s.gen.nextGxid ≤ s.bound := by
  unfold bound
  split <;> omega

theorem checkpointGxid_eq_bound (hs : s.gen.Sound p) : s.checkpointGxid = s.bound := by
  have hroom := hs.room
  unfold lastDistributedTransactionId at hroom
  unfold checkpointGxid bound
  split
  next => exact mod_eq_of_lt (by omega)
  next => rfl

theorem bound_sound (hs : s.gen.Sound p) : Sound p ⟨s.bound, 0⟩ := by
  have hvalid := hs.valid
  have hroom := hs.room
  unfold bound
  split <;> constructor <;> dsimp only <;> omega

theorem Inv.bump_idle (hs : s.Inv p) (hmode : s.mode ≠ .running) : s.bump = .idle := by
  have hbump := hs.bump_ok
  unfold BumpOk at hbump
  split at hbump
  next h => exact h
  next => exact absurd hbump.running hmode
  next => exact absurd hbump.1.running hmode

/-- A candidate stays one when the limit does not move, the log only grows at its end
in a way that keeps the guarantee, and a new limit record comes after its REDO pointer. -/
theorem Candidate.frame {c : CheckPoint} (h : s.Candidate p c) (hbound : t.bound = s.bound)
    (hend : s.wal.endPos ≤ t.wal.endPos) (hcov : Covers s.wal s.bound c → Covers t.wal s.bound c)
    (hset : ∀ limit pos, t.bump = .inserted limit pos → s.bump = .inserted limit pos ∨
      s.wal.endPos ≤ pos) : t.Candidate p c where
  redo_le := h.redo_le.trans hend
  settled := fun limit pos hpos => by
    rcases hset limit pos hpos with hold | hge
    · exact h.settled limit pos hold
    · exact h.redo_le.trans hge
  valid := h.valid
  covers := hbound ▸ hcov h.covers

theorem CkptOk.frame (h : s.CkptOk p) (hckpt : t.ckpt = s.ckpt) (hmode : t.mode = s.mode)
    (hbound : t.bound = s.bound) (hend : s.wal.endPos ≤ t.wal.endPos) (hcov : ∀ c : CheckPoint,
      c.redo ≤ s.wal.endPos → Covers s.wal s.bound c → Covers t.wal s.bound c) (hset : ∀ limit pos,
      t.bump = .inserted limit pos → s.bump = .inserted limit pos ∨ s.wal.endPos ≤ pos) :
    t.CkptOk p := by
  unfold CkptOk at h ⊢
  rw [hckpt]
  split at h
  next => trivial
  next redo _ =>
    refine ⟨h.1.trans hend, fun v hv => ?_⟩
    rw [hbound] at hv ⊢
    exact hcov ⟨redo, v⟩ h.1 (h.2 v hv)
  next c _ =>
    refine ⟨h.1.frame hbound hend (hcov c h.1.redo_le) hset, fun hrun => ?_⟩
    rw [hbound]
    exact h.2 (hmode ▸ hrun)
  next c pos _ => exact ⟨h.1.frame hbound hend (hcov c h.1.redo_le) hset, h.2⟩

/-! ### One step keeps the invariant: backends -/

theorem inv_boot (first : StartGxid p) : (boot first).Inv p where
  sound := first.sound
  fresh := fun _ => rfl
  control_ok :=
    { redo_le := le_rfl
      settled := nofun
      valid := first.sound
      covers := fun k hk => by
        obtain rfl : k = 0 := le_zero.1 hk.2
        exact le_rfl }
  control_durable := le_rfl
  ckpt_ok := trivial
  bump_ok := trivial
  records_valid := nofun
  assigned_lt := nofun
  assigned_nodup := nodup_nil

section

variable (hs : s.Inv p)
include hs

theorem Inv.activate (h : s.step p .activate = some t) : t.Inv p := by
  rw [step] at h
  split_ifs at h with hmode
  obtain ⟨⟨_, gen⟩, htake, rfl⟩ := Option.map_eq_some_iff.1 h
  have hsound := hs.sound.take_sound htake
  obtain ⟨_, rfl, rfl⟩ := hs.sound.take_eq_some htake
  have hbound : bound { s with
      gen := ⟨s.gen.nextGxid + 1, s.gen.gxidCount - 1⟩,
      assigned := s.gen.nextGxid :: s.assigned } = s.bound := by
    simp only [bound, hmode, ↓reduceIte]
    omega
  refine
    { sound := hsound
      fresh := fun hstart => by simp [hmode] at hstart
      control_ok := hs.control_ok.frame hbound le_rfl id fun _ _ => Or.inl
      control_durable := hs.control_durable
      ckpt_ok := hs.ckpt_ok.frame rfl rfl hbound le_rfl (fun _ _ => id) fun _ _ => Or.inl
      bump_ok := ?_
      records_valid := hs.records_valid
      assigned_lt := ?_
      assigned_nodup := ?_ }
  · have hbump := hs.bump_ok
    have hreserved : ∀ limit, Reserved p s.mode s.gen limit →
        Reserved p s.mode ⟨s.gen.nextGxid + 1, s.gen.gxidCount - 1⟩ limit := fun limit hr =>
      ⟨hmode, (sub_le _ _).trans hr.count_le, by have := hr.limit_eq; dsimp only; omega,
        hr.limit_lt⟩
    unfold BumpOk at hbump ⊢
    dsimp only
    split at hbump
    next => trivial
    next limit _ => exact hreserved limit hbump
    next limit pos _ => exact ⟨hreserved limit hbump.1, hbump.2⟩
  · intro g hg
    rcases mem_cons.1 hg with rfl | hg
    · exact lt_succ_self _
    · exact lt_succ_of_lt (hs.assigned_lt g hg)
  · exact nodup_cons.2
      ⟨fun hmem => lt_irrefl _ (hs.assigned_lt _ hmem), hs.assigned_nodup⟩

theorem Inv.bumpStart (h : s.step p .bumpStart = some t) : t.Inv p := by
  rw [step] at h
  split at h
  next hguard =>
    split at h
    next =>
      cases h
      exact hs
    next hle =>
      split_ifs at h with hlim
      cases h
      have hcount : s.gen.gxidCount ≤ prefetchThreshold p := by omega
      have hlimit := hs.sound.nextLimit_eq hcount
      refine
        { hs with
          control_ok := hs.control_ok.frame rfl le_rfl id fun _ _ h => by cases h
          ckpt_ok := hs.ckpt_ok.frame rfl rfl rfl le_rfl (fun _ _ => id) fun _ _ h => by cases h
          bump_ok := ?_ }
      refine ⟨hguard.1, hcount, hlimit, ?_⟩
      simpa only [limitReached, decide_eq_true_eq, not_le] using hlim
  next => cases h

theorem Inv.bumpInsert (h : s.step p .bumpInsert = some t) : t.Inv p := by
  have hbump := hs.bump_ok
  simp only [step] at h
  unfold BumpOk at hbump
  split at h
  next limit heq =>
    rw [heq] at hbump
    cases h
    have hge : ∀ g : GxidGen, s.bound ≤ g.nextGxid →
        s.bound ≤ (xlogRedo g (.nextGxid limit)).nextGxid := fun g _ => by
      show s.bound ≤ limit
      rw [hbump.limit_eq, bound, if_pos hbump.running]
      omega
    have hset : ∀ limit' pos, BumpPhase.inserted limit s.wal.endPos = .inserted limit' pos →
        s.bump = .inserted limit' pos ∨ s.wal.endPos ≤ pos := fun limit' pos h => by
      cases h
      exact Or.inr le_rfl
    have hend : s.wal.endPos ≤ (s.wal.insert (.nextGxid limit)).endPos := by
      rw [endPos_insert]
      omega
    refine
      { hs with
        control_ok := hs.control_ok.frame rfl hend
          (fun h => h.insert hs.control_ok.redo_le hge) hset
        control_durable := hs.control_durable
        ckpt_ok := hs.ckpt_ok.frame rfl rfl rfl hend (fun c hc h => h.insert hc hge) hset
        bump_ok := ⟨hbump, lastLimit_insert s.wal limit⟩
        records_valid := ?_ }
    intro r hr g hg hsound
    rcases mem_append.1 hr with hr | hr
    · exact hs.records_valid r hr g hg hsound
    obtain rfl : r = .nextGxid limit := by simpa using hr
    have hvalid := hs.sound.valid
    have hlt := hbump.limit_lt
    have heq := hbump.limit_eq
    refine ⟨rfl, ?_, zero_le _, hlt⟩
    show firstDistributedTransactionId ≤ limit
    omega
  next => cases h

theorem Inv.bumpAbandon (h : s.step p .bumpAbandon = some t) : t.Inv p := by
  cases h
  exact
    { hs with
      control_ok := hs.control_ok.frame rfl le_rfl id fun _ _ h => by cases h
      ckpt_ok := hs.ckpt_ok.frame rfl rfl rfl le_rfl (fun _ _ => id) fun _ _ h => by cases h
      bump_ok := trivial }

/-- **Only once its limit is durable does a bump raise what may be handed out.** Every
checkpoint recovery may start from then either replays that limit, or has not read the
counters yet. -/
theorem Inv.bumpFinish (h : s.step p .bumpFinish = some t) : t.Inv p := by
  have hbump := hs.bump_ok
  simp only [step] at h
  unfold BumpOk at hbump
  split at h
  next limit pos heq =>
    rw [heq] at hbump
    obtain ⟨hres, hlast⟩ := hbump
    split_ifs at h with hflushed
    cases h
    have hlimit := hres.limit_eq
    have hgen : s.gen.addPrefetch p = ⟨s.gen.nextGxid, s.gen.gxidCount + p.num⟩ := by
      rw [addPrefetch, count_add_prefetch hres.count_le]
    have hbound : bound { s with gen := s.gen.addPrefetch p, bump := .idle } = limit := by
      rw [bound, if_pos hres.running, hgen]
      dsimp only
      omega
    have hcand : ∀ c : CheckPoint, s.Candidate p c →
        Candidate p { s with gen := s.gen.addPrefetch p, bump := .idle } c := fun c hc =>
      { redo_le := hc.redo_le
        settled := fun _ _ h => by cases h
        valid := hc.valid
        covers := by
          rw [hbound]
          exact hlast.covers hflushed (hc.settled limit pos heq) }
    refine
      { hs with
        sound := ?_
        fresh := fun hstart => by simp [hres.running] at hstart
        control_ok := hcand _ hs.control_ok
        ckpt_ok := ?_
        bump_ok := trivial
        assigned_lt := hs.assigned_lt }
    · have hlt := hres.limit_lt
      have hcount := hres.count_le
      rw [hgen]
      exact ⟨hs.sound.valid, by dsimp only; omega, by dsimp only; omega⟩
    have hckpt := hs.ckpt_ok
    unfold CkptOk at hckpt ⊢
    dsimp only
    split at hckpt
    next => trivial
    next redo _ =>
      refine ⟨hckpt.1, fun v hv => ?_⟩
      rw [hbound] at hv ⊢
      rcases lt_or_ge pos redo with hpast | hle
      · exact (LastLimit.covers_past (c := ⟨redo, v⟩) hlast hpast).mono hv
      · exact hlast.covers hflushed hle
    next c _ => exact ⟨hcand c hckpt.1, fun hnot => absurd hres.running hnot⟩
    next c pos _ => exact ⟨hcand c hckpt.1, hckpt.2⟩
  next => cases h

/-- Making more of the log durable leaves fewer prefixes to worry about. -/
theorem Inv.flush (h : s.step p (.flush k) = some t) : t.Inv p := by
  rw [step] at h
  split_ifs at h with hk
  cases h
  refine
    { hs with
      control_ok := hs.control_ok.frame rfl le_rfl (fun h => h.flush hk) fun _ _ => Or.inl
      control_durable := hs.control_durable.trans hk.1
      ckpt_ok := hs.ckpt_ok.frame rfl rfl rfl le_rfl (fun _ _ h => h.flush hk) fun _ _ => Or.inl
      bump_ok := ?_
      records_valid := hs.records_valid }
  have hbump := hs.bump_ok
  unfold BumpOk at hbump ⊢
  dsimp only
  split at hbump
  next => trivial
  next => exact hbump
  next => exact ⟨hbump.1, hbump.2.pos_lt, hbump.2.from_le, hbump.2.from_gt⟩

/-! ### One step keeps the invariant: the checkpointer -/

/-- A REDO pointer at the end of the log replays nothing. -/
theorem Inv.ckptStart (h : s.step p .ckptStart = some t) : t.Inv p := by
  simp only [step] at h
  split at h
  next =>
    cases h
    refine { hs with control_ok := ?_, ckpt_ok := ?_ }
    · exact hs.control_ok.frame rfl le_rfl id fun _ _ => Or.inl
    · refine ⟨le_rfl, fun v hv k hk => ?_⟩
      rw [replay_of_le hk.2]
      exact hv
  next => cases h

/-- **Under `GxidBumpLock` the checkpoint reads the limit itself**, and no limit record
of a bump still under way precedes its REDO pointer. -/
theorem Inv.ckptRead (h : s.step p .ckptRead = some t) : t.Inv p := by
  have hckpt := hs.ckpt_ok
  simp only [step] at h
  unfold CkptOk at hckpt
  split at h
  next redo heq =>
    rw [heq] at hckpt
    split_ifs at h with hidle
    cases h
    have hread := checkpointGxid_eq_bound hs.sound
    refine { hs with control_ok := ?_, ckpt_ok := ?_ }
    · exact hs.control_ok.frame rfl le_rfl id fun _ _ => Or.inl
    refine ⟨⟨hckpt.1, ?_, ?_, ?_⟩, fun _ => hread.ge⟩
    · intro limit pos hpos
      exact absurd (hidle.symm.trans hpos) (by simp)
    · rw [hread]
      exact bound_sound hs.sound
    · exact hckpt.2 _ hread.ge
  next => cases h

/-- The record of a checkpoint: without effect if online, and exactly the limit if no
backend runs. -/
theorem Inv.ckptInsert (h : s.step p .ckptInsert = some t) : t.Inv p := by
  have hckpt := hs.ckpt_ok
  have hbump := hs.bump_ok
  simp only [step] at h
  unfold CkptOk at hckpt
  split at h
  next c heq =>
    rw [heq] at hckpt
    obtain ⟨hcand, hquiet⟩ := hckpt
    cases h
    have hge : ∀ g : GxidGen, s.bound ≤ g.nextGxid →
        s.bound ≤ (xlogRedo g (s.checkpointRecord c)).nextGxid := fun g hg => by
      unfold checkpointRecord
      split
      next => exact hg
      next hmode => exact hquiet hmode
    have hend : s.wal.endPos ≤ (s.wal.insert (s.checkpointRecord c)).endPos := by
      rw [endPos_insert]
      omega
    refine
      { hs with
        control_ok := hs.control_ok.frame rfl hend
          (fun h => h.insert hs.control_ok.redo_le hge) fun _ _ => Or.inl
        control_durable := hs.control_durable
        ckpt_ok := ⟨hcand.frame rfl hend (fun h => h.insert hcand.redo_le hge) fun _ _ => Or.inl,
          hcand.redo_le⟩
        bump_ok := ?_
        records_valid := ?_ }
    · by_cases hmode : s.mode = .running
      · unfold BumpOk at hbump ⊢
        rw [checkpointRecord, if_pos hmode]
        dsimp only
        split at hbump
        next => trivial
        next => exact hbump
        next => exact ⟨hbump.1, hbump.2.insert_online c⟩
      · rw [hs.bump_idle hmode]
        trivial
    · intro r hr g hg hsound
      rcases mem_append.1 hr with hr | hr
      · exact hs.records_valid r hr g hg hsound
      obtain rfl : r = s.checkpointRecord c := by simpa using hr
      unfold checkpointRecord
      split
      next => exact ⟨hg, hsound⟩
      next =>
        refine ⟨hg, hcand.valid.valid, ?_, ?_⟩
        · exact (le_of_eq hg).trans (zero_le _)
        · exact (Nat.add_le_add_left (Nat.le_of_eq hg) _).trans_lt hcand.valid.room
  next => cases h

theorem Inv.ckptFinish (h : s.step p .ckptFinish = some t) : t.Inv p := by
  have hckpt := hs.ckpt_ok
  simp only [step] at h
  unfold CkptOk at hckpt
  split at h
  next c pos heq =>
    rw [heq] at hckpt
    obtain ⟨hcand, hredo⟩ := hckpt
    split at h
    next hflushed =>
      split at h
      next => cases h
      cases h
      exact
        { hs with
          control_ok := hcand.frame rfl le_rfl id fun _ _ => Or.inl
          control_durable := hredo.trans hflushed.le
          ckpt_ok := trivial }
    next => cases h
  next => cases h

theorem Inv.ckptAbandon (h : s.step p .ckptAbandon = some t) : t.Inv p := by
  cases h
  exact
    { hs with
      control_ok := hs.control_ok.frame rfl le_rfl id fun _ _ => Or.inl
      ckpt_ok := trivial }

/-! ### One step keeps the invariant: the postmaster and crashes -/

theorem Inv.shutdown (h : s.step p .shutdown = some t) : t.Inv p := by
  rw [step] at h
  split_ifs at h with hguard
  cases h
  have hle : bound { s with mode := .shuttingDown, bump := .idle } ≤ s.bound :=
    s.nextGxid_le_bound
  exact
    { hs with
      fresh := nofun
      control_ok :=
        { redo_le := hs.control_ok.redo_le
          settled := fun _ _ h => by cases h
          valid := hs.control_ok.valid
          covers := hs.control_ok.covers.mono hle }
      ckpt_ok := by
        rw [hguard.2]
        trivial
      bump_ok := trivial }

theorem Inv.openUp (h : s.step p .openUp = some t) : t.Inv p := by
  rw [step] at h
  split_ifs at h with hguard
  cases h
  have hbound : bound { s with mode := .running } = s.bound := by
    simp [bound, hguard.1, hs.fresh hguard.1]
  exact
    { hs with
      fresh := nofun
      control_ok := hs.control_ok.frame hbound le_rfl id fun _ _ => Or.inl
      ckpt_ok := by
        rw [hguard.2]
        trivial
      bump_ok := by
        rw [hs.bump_idle (by rw [hguard.1]; simp)]
        trivial }

/-- **Recovery never falls behind.** Whatever prefix survives, the recovered
`nextGxid` reaches the limit up to which gxids could have been handed out. -/
theorem Inv.bound_le_recover (hk : s.wal.Survives k) : s.bound ≤ (s.recover k).nextGxid :=
  hs.control_ok.covers k hk

theorem Inv.recover_sound (k : ℕ) : (s.recover k).gxidCount = 0 ∧ (s.recover k).Sound p :=
  replay_invariant (P := fun g => g.gxidCount = 0 ∧ g.Sound p)
    (fun g r hr hg => hs.records_valid r hr g hg.1 hg.2) ⟨rfl, hs.control_ok.valid⟩

theorem Inv.crash (h : s.step p (.crash k) = some t) : t.Inv p := by
  rw [step] at h
  split_ifs at h with hk
  cases h
  have hrec := hs.recover_sound k
  have hlt : ∀ g ∈ s.assigned, g < (s.recover k).nextGxid := fun g hg =>
    (hs.assigned_lt g hg).trans_le (s.nextGxid_le_bound.trans (hs.bound_le_recover hk))
  have hdurable : s.control.redo ≤ k := hs.control_durable.trans hk.1
  refine
    { sound := hrec.2
      fresh := fun _ => hrec.1
      control_ok :=
        { redo_le := by simpa using hdurable
          settled := fun _ _ h => by cases h
          valid := hs.control_ok.valid
          covers := ?_ }
      control_durable := hdurable
      ckpt_ok := trivial
      bump_ok := trivial
      records_valid := fun r hr => hs.records_valid r (mem_of_mem_take hr)
      assigned_lt := hlt
      assigned_nodup := hs.assigned_nodup }
  intro j hj
  obtain rfl := (survives_crash hk).1 hj
  rw [replay_crash]
  exact le_rfl

end

/-! ### Runs -/

/-- **One step keeps the invariant.** -/
theorem Inv.step (s : GxidServer) (e : GxidEvent) (t : GxidServer) (hs : s.Inv p)
    (h : s.step p e = some t) : t.Inv p := by
  cases e with
  | activate => exact hs.activate h
  | bumpStart => exact hs.bumpStart h
  | bumpInsert => exact hs.bumpInsert h
  | bumpFinish => exact hs.bumpFinish h
  | bumpAbandon => exact hs.bumpAbandon h
  | flush k => exact hs.flush h
  | ckptStart => exact hs.ckptStart h
  | ckptRead => exact hs.ckptRead h
  | ckptInsert => exact hs.ckptInsert h
  | ckptFinish => exact hs.ckptFinish h
  | ckptAbandon => exact hs.ckptAbandon h
  | shutdown => exact hs.shutdown h
  | openUp => exact hs.openUp h
  | crash k => exact hs.crash h

theorem inv_of_run {first : StartGxid p} {es : List GxidEvent}
    (hrun : Machine.run (GxidServer.step p) (boot first) es = some s) : s.Inv p :=
  Machine.run_invariant Inv.step (inv_boot first) hrun

/-- **A gxid is never issued twice.**  In every run of assignments, bumps, checkpoints,
shutdowns and crashes: all gxids handed out so far, over all incarnations, are distinct,
and a crash now, whatever prefix of the log survives it, recovers to a `nextGxid` above
every one of them. -/
theorem recovery_nextGxid_gt_assigned (first : StartGxid p) (es : List GxidEvent) (s : GxidServer)
    (hrun : Machine.run (GxidServer.step p) (boot first) es = some s) : s.assigned.Nodup ∧
      ∀ k t, s.step p (.crash k) = some t → ∀ g ∈ s.assigned, g < t.gen.nextGxid := by
  have hs := inv_of_run hrun
  refine ⟨hs.assigned_nodup, fun k t hcrash g hg => ?_⟩
  have hassigned : g ∈ t.assigned := by
    rw [GxidServer.step] at hcrash
    split_ifs at hcrash
    cases hcrash
    exact hg
  exact (hs.crash hcrash).assigned_lt g hassigned

/-- A checkpoint under way has fixed its REDO pointer and read the counters while the
first gxids are handed out. -/
def twoAssigned : GxidServer where
  gen := ⟨3, 8190⟩
  wal := ⟨[.nextGxid 8193], 1, le_rfl⟩
  control := ⟨0, 1⟩
  mode := .running
  bump := .idle
  ckpt := .gxidRead ⟨1, 8193⟩
  assigned := [2, 1]

/-- The hypotheses of `recovery_nextGxid_gt_assigned` are satisfiable: a crash in that
state recovers to the logged limit. -/
theorem recovery_nextGxid_gt_two : twoAssigned.assigned.Nodup ∧
      ∀ k t, twoAssigned.step defaultPrefetchNum (.crash k) = some t →
        ∀ g ∈ twoAssigned.assigned, g < t.gen.nextGxid :=
  recovery_nextGxid_gt_assigned firstStart
    [.openUp, .bumpStart, .bumpInsert, .flush 1, .bumpFinish, .activate, .ckptStart, .ckptRead,
      .activate] twoAssigned rfl

end GxidServer

end Cloudberry.Dtm
