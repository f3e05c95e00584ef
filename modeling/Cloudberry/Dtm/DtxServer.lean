/-
# The coordinator's global transactions: backends, checkpointer, crashes

The coordinator must not forget a global transaction whose distributed commit record is in the log
until its forget record is. While it runs, each backend's slot knows: the record is inserted and
`includeInCkpt` set between `delayChkpt = true` and `delayChkpt = false`, and `includeInCkpt` is
cleared after the forget record. After a crash, `shmCommittedGxidArray` knows, and DTM recovery
forgets its entries one by one. An online checkpoint fixes its REDO pointer, waits for the
backends it saw with `delayChkpt` set, and only then copies the array and scans the slots;
recovery starts from it.
-/

import Cloudberry.Lib.Wal
import Cloudberry.Dtm.DtxRedo

namespace Cloudberry.Dtm

/-- How far a backend is with the commit of its global transaction. -/
inductive CommitState where
  | idle
  | active
  | inserting
  | inserted
  | forgotten
  deriving DecidableEq, Repr

/-- What a backend publishes about it (`TMGXACT` and `PGPROC.delayChkpt`). -/
structure DtxSlot where
  gxid : ℕ
  state : CommitState
  delayChkpt : Bool
  includeInCkpt : Bool
  deriving DecidableEq, Repr

def DtxSlot.empty : DtxSlot := ⟨0, .idle, false, false⟩

/-- Where the checkpointer is: collecting the backends with `delayChkpt` set, waiting for
them, copying the array, scanning the slots, then inserting the record. -/
inductive DtxCkptPhase (n : ℕ) where
  | idle
  | collecting (redo idx : ℕ) (delaying : List (Fin n × ℕ))
  | waiting (redo : ℕ) (delaying : List (Fin n × ℕ))
  | copying (redo : ℕ) (gxids : List ℕ) (idx : ℕ)
  | scanning (redo : ℕ) (gxids : List ℕ) (idx : ℕ)
  | gathered (c : DtxCheckPoint)
  | inserted (c : DtxCheckPoint) (pos : ℕ)
  deriving DecidableEq, Repr

/-- The coordinator with `n` backends. `recovered` is set when DTM recovery is over,
`recoverIdx` counts the entries it has forgotten so far, and `used` the gxids handed out,
over all incarnations. -/
structure DtxServer (n : ℕ) where
  wal : Wal DtxRecord
  control : DtxCheckPoint
  slots : Fin n → DtxSlot
  shmCommittedGxidArray : List ℕ
  recoverIdx : ℕ
  recovered : Bool
  ckpt : DtxCkptPhase n
  used : List ℕ

/-- The steps of a backend, of DTM recovery, of whoever flushes the log, of the
checkpointer, and a crash followed by recovery. -/
inductive DtxEvent (n : ℕ) where
  | activate (i : Fin n) (gxid : ℕ)
  | abort (i : Fin n)
  | delay (i : Fin n)
  | insertCommit (i : Fin n)
  | includeCkpt (i : Fin n)
  | release (i : Fin n)
  | insertForget (i : Fin n)
  | excludeCkpt (i : Fin n)
  | endGxact (i : Fin n)
  | recoverForget
  | recoverRestart
  | recoverDone
  | flush (k : ℕ)
  | ckptStart
  | ckptStep
  | ckptAbandon
  | crash (k : ℕ)
  deriving DecidableEq, Repr

namespace DtxServer

variable {n : ℕ}

def boot : DtxServer n where
  wal := Wal.nil
  control := ⟨0, []⟩
  slots := fun _ => DtxSlot.empty
  shmCommittedGxidArray := []
  recoverIdx := 0
  recovered := false
  ckpt := .idle
  used := []

/-- Change the slot of backend `i`. -/
def setSlot (s : DtxServer n) (i : Fin n) (slot : DtxSlot) : DtxServer n :=
  { s with slots := Function.update s.slots i slot }

/-- `ProcArrayLock` is held in shared mode while the slots are scanned; ending a global
transaction needs it exclusively. -/
def lockFree (s : DtxServer n) : Bool :=
  match s.ckpt with
  | .scanning _ _ _ => false
  | _ => true

/-- Crash recovery: the checkpoint in the control file, then the log from its REDO
pointer on. -/
def recover (maxTmGxacts : ℕ) (s : DtxServer n) (k : ℕ) : Except String (List ℕ) :=
  s.wal.replay (redoDtxRecord maxTmGxacts) s.control.redo k
    (redoDtxCheckPoint maxTmGxacts [] s.control.committedGxidArray)

/-- One step of the checkpointer in `CreateCheckPoint`. -/
def ckptStep (s : DtxServer n) : Option (DtxServer n) :=
  match s.ckpt with
  | .idle => none
  | .collecting redo idx delaying =>
    if h : idx < n then
      let slot := s.slots ⟨idx, h⟩
      some { s with
        ckpt := .collecting redo (idx + 1)
          (if slot.delayChkpt then delaying ++ [(⟨idx, h⟩, slot.gxid)] else delaying) }
    else some { s with ckpt := .waiting redo delaying }
  | .waiting redo delaying =>
    -- `HaveVirtualXIDsDelayingChkpt`: the same transaction still holds the checkpoint up
    if delaying.all fun (i, gxid) => !((s.slots i).delayChkpt && (s.slots i).gxid == gxid) then
      some { s with ckpt := .copying redo [] 0 }
    else none
  | .copying redo gxids idx =>
    match s.shmCommittedGxidArray[idx]? with
    | some gxid => some { s with ckpt := .copying redo (gxids ++ [gxid]) (idx + 1) }
    | none => some { s with ckpt := .scanning redo gxids 0 }
  | .scanning redo gxids idx =>
    if h : idx < n then
      let slot := s.slots ⟨idx, h⟩
      some { s with
        ckpt := .scanning redo (if slot.includeInCkpt then gxids ++ [slot.gxid] else gxids)
          (idx + 1) }
    else some { s with ckpt := .gathered ⟨redo, gxids⟩ }
  | .gathered c =>
    some { s with wal := s.wal.insert (.checkpoint c), ckpt := .inserted c s.wal.endPos }
  | .inserted c pos =>
    if pos < s.wal.flushed then some { s with control := c, ckpt := .idle } else none

/-- **What a step of the checkpointer writes**: its own state and the control file, or the record of
the checkpoint. -/
theorem ckptStep_cases {s t : DtxServer n} (h : s.ckptStep = some t) :
    (∃ control ckpt, t = { s with control := control, ckpt := ckpt }) ∨
      ∃ c ckpt, t = { s with wal := s.wal.insert (.checkpoint c), ckpt := ckpt } := by
  have hsame : ∀ ckpt, some { s with ckpt := ckpt } = some t →
      ∃ control ckpt, t = { s with control := control, ckpt := ckpt } :=
    fun ckpt h => ⟨s.control, ckpt, (Option.some.inj h).symm⟩
  unfold ckptStep at h
  split at h
  next => cases h
  next => split at h <;> exact .inl (hsame _ h)
  next =>
    split_ifs at h
    exact .inl (hsame _ h)
  next => split at h <;> exact .inl (hsame _ h)
  next => split at h <;> exact .inl (hsame _ h)
  next => exact .inr ⟨_, _, (Option.some.inj h).symm⟩
  next =>
    split_ifs at h
    exact .inl ⟨_, _, (Option.some.inj h).symm⟩

/-- One step; `none` where the source waits or stops. -/
def step (maxTmGxacts : ℕ) (s : DtxServer n) : DtxEvent n → Option (DtxServer n)
  | .activate i gxid =>
    if s.recovered ∧ (s.slots i).state = .idle ∧ gxid ∉ s.used then
      some { s.setSlot i ⟨gxid, .active, false, false⟩ with used := gxid :: s.used }
    else none
  | .abort i =>
    if (s.slots i).state = .active ∧ s.lockFree then some (s.setSlot i DtxSlot.empty) else none
  | .delay i =>
    if (s.slots i).state = .active then
      some (s.setSlot i { s.slots i with state := .inserting, delayChkpt := true })
    else none
  | .insertCommit i =>
    if (s.slots i).state = .inserting then
      some { s.setSlot i { s.slots i with state := .inserted } with
        wal := s.wal.insert (.distributedCommit (s.slots i).gxid) }
    else none
  | .includeCkpt i =>
    if (s.slots i).state = .inserted ∧ (s.slots i).delayChkpt then
      some (s.setSlot i { s.slots i with includeInCkpt := true })
    else none
  | .release i =>
    if (s.slots i).state = .inserted ∧ (s.slots i).includeInCkpt then
      some (s.setSlot i { s.slots i with delayChkpt := false })
    else none
  | .insertForget i =>
    if (s.slots i).state = .inserted ∧ (s.slots i).delayChkpt = false then
      some { s.setSlot i { s.slots i with state := .forgotten } with
        wal := s.wal.insert (.distributedForget (s.slots i).gxid) }
    else none
  | .excludeCkpt i =>
    if (s.slots i).state = .forgotten then
      some (s.setSlot i { s.slots i with includeInCkpt := false })
    else none
  | .endGxact i =>
    if (s.slots i).state = .forgotten ∧ (s.slots i).includeInCkpt = false ∧ s.lockFree then
      some (s.setSlot i DtxSlot.empty)
    else none
  | .recoverForget =>
    match s.shmCommittedGxidArray[s.recoverIdx]? with
    | some gxid =>
      some { s with wal := s.wal.insert (.distributedForget gxid), recoverIdx := s.recoverIdx + 1 }
    | none => none
  | .recoverRestart => some { s with recoverIdx := 0 }
  | .recoverDone =>
    if s.recoverIdx = s.shmCommittedGxidArray.length then
      some { s with shmCommittedGxidArray := [], recoverIdx := 0, recovered := true }
    else none
  | .flush k =>
    if hk : s.wal.Survives k then some { s with wal := s.wal.flush k hk } else none
  | .ckptStart =>
    if s.ckpt = .idle then some { s with ckpt := .collecting s.wal.endPos 0 [] } else none
  | .ckptStep => s.ckptStep
  | .ckptAbandon => some { s with ckpt := .idle }
  | .crash k =>
    if hk : s.wal.Survives k then
      match s.recover maxTmGxacts k with
      | .error _ => none
      | .ok array =>
        some { s with
          wal := s.wal.crash k hk
          slots := fun _ => DtxSlot.empty
          shmCommittedGxidArray := array
          recoverIdx := 0
          recovered := false
          ckpt := .idle }
    else none

end DtxServer

end Cloudberry.Dtm
