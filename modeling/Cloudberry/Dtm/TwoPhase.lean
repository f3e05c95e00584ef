/-
# The two-phase protocol between the dispatcher and the segments

The whole system: the coordinator with its log (`DtxServer`), the part of each backend's
state that drives the protocol (`TmGxactLocal`), the dtx recovery process, the segments
with their query executors, and the network between them.

A backend dispatches one command at a time to its writer gang, one connection to each segment, and
waits: the dispatch succeeds when every segment it went to has said yes, and may fail at any time,
because a segment said no or because connections are lost. A lost gang is replaced by a new one,
but the QEs of the old one, and the messages on their way to them, live on.

A FATAL exit of a backend is a step as long as the commit record is not written
(`rollbackDtxTransaction` with `proc_exit_inprogress`). From there on interrupts are
held off, an ERROR of the broadcast is caught and retried, and giving up is a PANIC: a
crash of the coordinator.
-/

import Cloudberry.Lib.Broadcast
import Cloudberry.Dtm.DtxServer
import Cloudberry.Dtm.QueryExecutor

namespace Cloudberry.Dtm

open Function

/-- The states of a two-phase transaction on the dispatcher (`DtxState`). -/
inductive DtxState where
  | none
  | activeDistributed
  | preparing
  | prepared
  | insertingCommitted
  | insertedCommitted
  | notifyingCommitPrepared
  | insertingForgetCommitted
  | insertedForgetCommitted
  | notifyingAbortNoPrepared
  | notifyingAbortSomePrepared
  | notifyingAbortPrepared
  | retryCommitPrepared
  | retryAbortPrepared
  deriving DecidableEq, Repr

namespace DtxState

/-- The transaction is being rolled back. -/
def rollingBack : DtxState → Bool
  | .notifyingAbortNoPrepared => true
  | .notifyingAbortSomePrepared => true
  | .notifyingAbortPrepared => true
  | .retryAbortPrepared => true
  | _ => false

/-- No commit record was written, nor will be before the state changes. -/
def uncommitted : DtxState → Bool
  | .activeDistributed => true
  | .preparing => true
  | .prepared => true
  | st => st.rollingBack

/-- The state in which a dispatch that succeeded leaves the transaction. -/
def afterSuccess : DtxState → DtxState
  | .preparing => .prepared
  | .notifyingCommitPrepared => .insertingForgetCommitted
  | .retryCommitPrepared => .insertingForgetCommitted
  | st => st

/-- The state in which a dispatch that failed leaves it. -/
def afterFailure : DtxState → DtxState
  | .notifyingCommitPrepared => .retryCommitPrepared
  | .notifyingAbortSomePrepared => .retryAbortPrepared
  | .notifyingAbortPrepared => .retryAbortPrepared
  | st => st

/-- A dispatch that fails here is an ERROR that aborts the transaction, not one the
protocol deals with by resetting the gangs. -/
def raisesError : DtxState → Bool
  | .activeDistributed => true
  | .preparing => true
  | _ => false

end DtxState

/-- The backend's own part of a global transaction (`MyTmGxactLocal`), with its writer
gang: `dispatch` is the request it is waiting for, `aborting` is set once an ERROR was
thrown, `xactLastRecEnd` is the end of its commit record in the log. -/
structure TmGxactLocal (m : ℕ) where
  state : DtxState
  dtxSegments : Finset (Fin m)
  gang : ℕ
  gangLost : Bool
  dispatch : Option ℕ
  aborting : Bool
  xactLastRecEnd : ℕ

def TmGxactLocal.idle (m : ℕ) (gang : ℕ) : TmGxactLocal m := ⟨.none, ∅, gang, false, none, false, 0⟩

/-- `currentDtxActivate` and `setCurrentDtxState`: nothing was dispatched yet. -/
def TmGxactLocal.activated (m : ℕ) (gang : ℕ) : TmGxactLocal m :=
  ⟨.activeDistributed, ∅, gang, false, none, false, 0⟩

/-- A message to a QE: the command, the gid and the gang it is for. -/
structure Request where
  cmd : Command
  gid : ℕ
  gang : ℕ
  deriving DecidableEq

/-- What the dtx recovery process is doing: notifying the segments of the commits recovery
found, gathering prepared transactions from them, aborting these one by one, or sleeping.
Until `dtmStarted` the last three are part of `recoverInDoubtTransactions`; afterwards
they are `AbortOrphanedPreparedTransactions`. -/
inductive RecoveryPhase where
  | notifying (call : Option ℕ)
  | gathering (gids : Finset ℕ)
  | aborting (gids : Finset ℕ) (call : Option ℕ)
  | sleeping

/-- The system with `n` backends and `m` segments. `qes γ a` is the QE of gang `γ` on
segment `a`; gangs are numbered as they are created. -/
structure TwoPhase (n m : ℕ) where
  qd : DtxServer n
  backends : Fin n → TmGxactLocal m
  phase : RecoveryPhase
  recoveryGang : ℕ
  dtmStarted : Bool
  segments : Fin m → Segment
  qes : ℕ → Fin m → Qe
  net : Broadcast Request (Fin m)
  nextGang : ℕ

/-- The steps of the system. -/
inductive TwoPhaseEvent (n m : ℕ) where
  -- a backend
  | activate (i : Fin n) (gxid : ℕ)
  | dispatchQuery (i : Fin n) (explicitBegin : Bool) (segs : Finset (Fin m))
  | prepare (i : Fin n)
  | dispatchSucceeded (i : Fin n)
  | dispatchFailed (i : Fin n) (lost : Bool)
  | rollback (i : Fin n)
  | retryAbort (i : Fin n)
  | endAbort (i : Fin n)
  | procExit (i : Fin n)
  | insertingCommitted (i : Fin n)
  | insertCommit (i : Fin n)
  | insertedCommitted (i : Fin n)
  | releaseCkpt (i : Fin n)
  | notifyCommit (i : Fin n)
  | retryCommit (i : Fin n)
  | insertForget (i : Fin n)
  | excludeCkpt (i : Fin n)
  | endCommit (i : Fin n)
  -- the network and the query executors
  | deliver (k : ℕ) (a : Fin m)
  | deliverError (k : ℕ) (a : Fin m)
  | lose (k : ℕ) (a : Fin m)
  | qeExit (gang : ℕ) (a : Fin m)
  -- the dtx recovery process
  | notifyInDoubt
  | forgetInDoubt
  | clearInDoubt
  | gather (a : Fin m) (gids : Finset ℕ)
  | gathered
  | abortNext (gid : ℕ)
  | abortSucceeded
  | abortFailed
  | recoveryFinished
  | wakeUp
  | recoveryRestart
  -- the rest of the coordinator
  | background (e : DtxEvent n)
  | crash (k : ℕ)

namespace TwoPhase

variable {n m : ℕ}

def boot : TwoPhase n m where
  qd := .boot
  backends := fun i => .idle m i
  phase := .notifying none
  recoveryGang := n
  dtmStarted := false
  segments := fun _ => .nil
  qes := fun _ _ => some .localOnly
  net := .nil
  nextGang := n + 1

section

variable (s : TwoPhase n m) (i : Fin n)

/-- Change what backend `i` keeps. -/
def setBackend (l : TmGxactLocal m) : TwoPhase n m :=
  { s with backends := update s.backends i l }

/-- Backend `i` sends a command of its transaction to `segs` and waits for the answers. -/
def dispatch (cmd : Command) (segs : Finset (Fin m)) (l : TmGxactLocal m) : TwoPhase n m :=
  { s.setBackend i { l with dispatch := some s.net.calls.length } with
    net := s.net.call ⟨cmd, (s.qd.slots i).gxid, l.gang⟩ segs }

/-- `currentDtxDispatchProtocolCommand`: to the segments of the transaction, in state `st`. -/
def dispatchCommand (c : DtxProtocolCommand) (st : DtxState) : TwoPhase n m :=
  s.dispatch i (.dtx c) (s.backends i).dtxSegments { s.backends i with state := st }

end

/-- A step of the coordinator taken by backend `i`, which goes on as `l`. -/
def onQd (maxTmGxacts : ℕ) (s : TwoPhase n m) (e : DtxEvent n) (i : Fin n) (l : TmGxactLocal m) :
    Option (TwoPhase n m) :=
  (s.qd.step maxTmGxacts e).map fun qd => { s.setBackend i l with qd := qd }

section

variable (s : TwoPhase n m)

/-- `rollbackDtxTransaction`, then `doNotifyingAbort`, where there is something to notify. -/
def rollback (i : Fin n) : Option (TwoPhase n m) :=
  let l := s.backends i
  match l.state with
  | .activeDistributed =>
    if l.dtxSegments = ∅ ∨ l.gangLost then none
    else some (s.dispatchCommand i .abortNoPrepared .notifyingAbortNoPrepared)
  | .preparing =>
    if l.gangLost then some (s.setBackend i { l with state := .retryAbortPrepared })
    else some (s.dispatchCommand i .abortSomePrepared .notifyingAbortSomePrepared)
  | .prepared => some (s.dispatchCommand i .abortPrepared .notifyingAbortPrepared)
  | _ => none

/-- The QE of gang `γ` on segment `a`, and the segment, after it did something. -/
def setQe (γ : ℕ) (a : Fin m) (q : Qe) (seg : Segment) : TwoPhase n m :=
  { s with
    qes := update s.qes γ (update (s.qes γ) a q)
    segments := update s.segments a seg }

def deliver (k : ℕ) (a : Fin m) : Option (TwoPhase n m) :=
  if h : (k, a) ∈ s.net.inFlight then
    match s.net.calls[k]? with
    | some (r, _) =>
      match s.qes r.gang a with
      | some ctx =>
        let (q, seg, ok) := serve r.cmd r.gid ctx (s.segments a)
        some { s.setQe r.gang a q seg with net := s.net.answer k a ok h }
      | none => none
    | none => none
  else none

/-- The QE runs into an ERROR. -/
def deliverError (k : ℕ) (a : Fin m) : Option (TwoPhase n m) :=
  if h : (k, a) ∈ s.net.inFlight then
    match s.net.calls[k]? with
    | some (r, _) =>
      match s.qes r.gang a with
      | some ctx =>
        let (ctx', seg) := raiseError r.cmd ctx (s.segments a)
        some { s.setQe r.gang a (some ctx') seg with net := s.net.answer k a false h }
      | none => none
    | none => none
  else none

def isDtxInProgress (gxid : ℕ) : Bool := decide (∃ i, (s.qd.slots i).gxid = gxid)

/-- The recovery process sends a command to all segments. -/
def recoveryCall (c : DtxProtocolCommand) (gid : ℕ) (phase : RecoveryPhase) : TwoPhase n m :=
  { s with net := s.net.call ⟨.dtx c, gid, s.recoveryGang⟩ Finset.univ, phase := phase }

/-- `abortRMInDoubtTransactions` and `abortOrphanedTransactions` at the gathered `gid`: only
the latter asks whether the transaction is in progress. -/
def abortNext (gid : ℕ) : Option (TwoPhase n m) :=
  match s.phase with
  | .aborting gids none =>
    if gid ∈ gids then
      if s.dtmStarted && s.isDtxInProgress gid then
        some { s with phase := .aborting (gids.erase gid) none }
      else
        some (s.recoveryCall .recoveryAbortPrepared gid
          (.aborting (gids.erase gid) (some s.net.calls.length)))
    else none
  | _ => none

end

def recoveryStep (maxTmGxacts : ℕ) (s : TwoPhase n m) : TwoPhaseEvent n m → Option (TwoPhase n m)
  | .notifyInDoubt =>
    match s.phase, s.qd.shmCommittedGxidArray[s.qd.recoverIdx]? with
    | .notifying none, some gxid =>
      some (s.recoveryCall .recoveryCommitPrepared gxid (.notifying (some s.net.calls.length)))
    | _, _ => none
  | .forgetInDoubt =>
    match s.phase with
    | .notifying (some k) =>
      if s.net.succeeded k then
        (s.qd.step maxTmGxacts .recoverForget).map fun qd =>
          { s with qd := qd, phase := .notifying none }
      else none
    | _ => none
  | .clearInDoubt =>
    match s.phase with
    | .notifying none =>
      (s.qd.step maxTmGxacts .recoverDone).map fun qd => { s with qd := qd, phase := .gathering ∅ }
    | _ => none
  | .gather a gids =>
    match s.phase with
    | .gathering gids' =>
      if gids ⊆ (s.segments a).prepared then some { s with phase := .gathering (gids' ∪ gids) }
      else none
    | _ => none
  | .gathered =>
    match s.phase with
    | .gathering gids => some { s with phase := .aborting gids none }
    | _ => none
  | .abortNext gid => s.abortNext gid
  | .abortSucceeded =>
    match s.phase with
    | .aborting gids (some k) =>
      if s.net.succeeded k then some { s with phase := .aborting gids none } else none
    | _ => none
  | .abortFailed =>
    match s.phase with
    | .aborting gids (some _) =>
      some { s with phase := .aborting gids none, recoveryGang := s.nextGang,
                    nextGang := s.nextGang + 1 }
    | _ => none
  | .recoveryFinished =>
    match s.phase with
    | .aborting gids none =>
      if gids = ∅ then some { s with phase := .sleeping, dtmStarted := true } else none
    | _ => none
  | .wakeUp =>
    match s.phase with
    | .sleeping => some { s with phase := .gathering ∅ }
    | _ => none
  | .recoveryRestart =>
    -- FATAL, and the postmaster starts the process again
    if s.dtmStarted then
      some { s with phase := .sleeping, recoveryGang := s.nextGang, nextGang := s.nextGang + 1 }
    else
      (s.qd.step maxTmGxacts .recoverRestart).map fun qd =>
        { s with qd := qd, phase := .notifying none, recoveryGang := s.nextGang,
                 nextGang := s.nextGang + 1 }
  | _ => none

/-- What the coordinator does besides the protocol: flushing the log and checkpoints. -/
def isBackground : DtxEvent n → Bool
  | .flush _ => true
  | .ckptStart => true
  | .ckptStep => true
  | .ckptAbandon => true
  | _ => false

section

variable (maxTmGxacts : ℕ) (s : TwoPhase n m)

/-- A step of backend `i`. -/
def backendStep : TwoPhaseEvent n m → Option (TwoPhase n m)
  | .activate i gxid =>
    let l := s.backends i
    if s.dtmStarted ∧ l.state = .none then
      s.onQd maxTmGxacts (.activate i gxid) i (.activated m l.gang)
    else none
  | .dispatchQuery i explicitBegin segs =>
    let l := s.backends i
    if l.state = .activeDistributed ∧ l.dispatch = none ∧ l.aborting = false then
      some (s.dispatch i (.query explicitBegin) segs { l with dtxSegments := l.dtxSegments ∪ segs })
    else none
  | .prepare i =>
    let l := s.backends i
    if l.state = .activeDistributed ∧ l.dispatch = none ∧ l.aborting = false ∧
        l.dtxSegments ≠ ∅ then
      some (s.dispatchCommand i .prepare .preparing)
    else none
  | .dispatchSucceeded i =>
    let l := s.backends i
    match l.dispatch with
    | some k =>
      if s.net.succeeded k then
        some (s.setBackend i { l with dispatch := none, state := l.state.afterSuccess })
      else none
    | none => none
  | .dispatchFailed i lost =>
    let l := s.backends i
    match l.dispatch with
    | some k =>
      if lost ∨ s.net.answered k then
        if l.state.raisesError then
          some { s.setBackend i { l with
              dispatch := none, aborting := true, gangLost := lost,
              gang := if lost then s.nextGang else l.gang } with
            nextGang := s.nextGang + 1 }
        else
          -- `ResetAllGangs`
          some { s.setBackend i { l with
              dispatch := none, state := l.state.afterFailure, gang := s.nextGang } with
            nextGang := s.nextGang + 1 }
      else none
    | none => none
  | .rollback i => if (s.backends i).dispatch = none then s.rollback i else none
  | .retryAbort i =>
    let l := s.backends i
    if l.state = .retryAbortPrepared ∧ l.dispatch = none then
      some (s.dispatch i (.dtx .retryAbortPrepared) Finset.univ
        { l with dtxSegments := Finset.univ })
    else none
  | .endAbort i =>
    let l := s.backends i
    if l.dispatch = none ∧ (l.state.rollingBack ∨
        l.state = .activeDistributed ∧ (l.dtxSegments = ∅ ∨ l.gangLost)) then
      s.onQd maxTmGxacts (.abort i) i (.idle m l.gang)
    else none
  | .procExit i =>
    if (s.backends i).state.uncommitted then
      (s.onQd maxTmGxacts (.abort i) i (.idle m s.nextGang)).map fun t =>
        { t with nextGang := s.nextGang + 1 }
    else none
  | .insertingCommitted i =>
    let l := s.backends i
    if l.state = .prepared then
      s.onQd maxTmGxacts (.delay i) i { l with state := .insertingCommitted }
    else none
  | .insertCommit i =>
    let l := s.backends i
    if l.state = .insertingCommitted then
      s.onQd maxTmGxacts (.insertCommit i) i { l with xactLastRecEnd := s.qd.wal.endPos + 1 }
    else none
  | .insertedCommitted i =>
    let l := s.backends i
    if l.state = .insertingCommitted then
      s.onQd maxTmGxacts (.includeCkpt i) i { l with state := .insertedCommitted }
    else none
  | .releaseCkpt i =>
    -- after `XLogFlush(XactLastRecEnd)`
    let l := s.backends i
    if l.state = .insertedCommitted ∧ l.xactLastRecEnd ≤ s.qd.wal.flushed then
      s.onQd maxTmGxacts (.release i) i l
    else none
  | .notifyCommit i =>
    let l := s.backends i
    if l.state = .insertedCommitted ∧ (s.qd.slots i).delayChkpt = false then
      some (s.dispatchCommand i .commitPrepared .notifyingCommitPrepared)
    else none
  | .retryCommit i =>
    let l := s.backends i
    if l.state = .retryCommitPrepared ∧ l.dispatch = none then
      some (s.dispatchCommand i .retryCommitPrepared .retryCommitPrepared)
    else none
  | .insertForget i =>
    let l := s.backends i
    if l.state = .insertingForgetCommitted then
      s.onQd maxTmGxacts (.insertForget i) i { l with state := .insertedForgetCommitted }
    else none
  | .excludeCkpt i =>
    let l := s.backends i
    if l.state = .insertedForgetCommitted then s.onQd maxTmGxacts (.excludeCkpt i) i l else none
  | .endCommit i =>
    let l := s.backends i
    if l.state = .insertedForgetCommitted then
      s.onQd maxTmGxacts (.endGxact i) i (.idle m l.gang)
    else none
  | _ => none

/-- The coordinator crashes and comes up again: its sessions are gone, and with them its
ends of the connections; the segments, their QEs and what is on its way to these are not. -/
def crash (k : ℕ) : Option (TwoPhase n m) :=
  (s.qd.step maxTmGxacts (.crash k)).map fun qd =>
    { s with
      qd := qd
      backends := fun i => .idle m (s.nextGang + i)
      phase := .notifying none
      recoveryGang := s.nextGang + n
      dtmStarted := false
      nextGang := s.nextGang + n + 1 }

def step (e : TwoPhaseEvent n m) : Option (TwoPhase n m) :=
  match e with
  | .deliver k a => s.deliver k a
  | .deliverError k a => s.deliverError k a
  | .lose k a => some { s with net := s.net.lose k a }
  | .qeExit γ a =>
    if γ < s.nextGang then
      some (s.setQe γ a none ((s.segments a).abortXact (s.qes γ a).xact))
    else none
  | .background e =>
    if isBackground e then (s.qd.step maxTmGxacts e).map fun qd => { s with qd := qd } else none
  | .crash k => s.crash maxTmGxacts k
  | .notifyInDoubt | .forgetInDoubt | .clearInDoubt | .gather _ _ | .gathered | .abortNext _
  | .abortSucceeded | .abortFailed | .recoveryFinished | .wakeUp | .recoveryRestart =>
    s.recoveryStep maxTmGxacts e
  | _ => s.backendStep maxTmGxacts e

end

end TwoPhase

end Cloudberry.Dtm
