/-
# A connection of the UDP interconnect

`contrib/interconnect/udp/ic_udpifc.c`: the sender with `checkExpiration` and the status query of
`checkDeadlock`, the receiver and its consumer.

The receiver keeps the packets in a ring, each at the place its sequence number gives, so that
there may be holes; what is contiguous from the head on can be consumed. The sender keeps a
packet in its `unackQueue` until an acknowledgement says that the receiver has it. There are
four kinds of acknowledgements, and the network may lose, duplicate, delay and reorder all of
them, as well as the packets.

Sequence numbers are unsigned 32-bit numbers; they start at one.
-/

import Mathlib.Logic.Function.Basic
import Mathlib.Algebra.Ring.Nat

namespace Cloudberry.Udp

/-- The number of values of a `uint32`. -/
def uint32Range : ℕ := 2 ^ 32

/-- The difference of two `uint32`. -/
def subUint32 (a b : ℕ) : ℕ := (a + uint32Range - b % uint32Range) % uint32Range

/-- The bits of `flags`, `UDPIC_FLAGS_…`. -/
structure Flags where
  receiverToSender : Bool := false
  ack : Bool := false
  stop : Bool := false
  eos : Bool := false
  nak : Bool := false
  disorder : Bool := false
  duplicate : Bool := false
  capacity : Bool := false
deriving DecidableEq, Repr

def Flags.union (f g : Flags) : Flags where
  receiverToSender := f.receiverToSender || g.receiverToSender
  ack := f.ack || g.ack
  stop := f.stop || g.stop
  eos := f.eos || g.eos
  nak := f.nak || g.nak
  disorder := f.disorder || g.disorder
  duplicate := f.duplicate || g.duplicate
  capacity := f.capacity || g.capacity

/-- A packet: `icpkthdr` with what is behind it, the data or the lost sequence numbers. -/
structure Icpkthdr where
  flags : Flags
  seq : ℕ
  extraSeq : ℕ
  content : List ℕ
deriving DecidableEq, Repr

/-! ### The receiver -/

/-- The receiver's side of a connection; `seq`, `extraSeq` and `flags` are those of `conn_info`,
and the packet in the queue with this `seq` would be the next one. -/
structure RxConn where
  seq : ℕ
  extraSeq : ℕ
  flags : Flags
  pktQ : ℕ → Option Icpkthdr
  pktQCapacity : ℕ
  pktQSize : ℕ
  pktQHead : ℕ
  pktQTail : ℕ
  stopRequested : Bool
  stillActive : Bool

/-- What a call of the receiver does: the new state, the messages it sends, and what it writes to
the log as an error. -/
structure RxResult where
  conn : RxConn
  acks : List Icpkthdr := []
  log : List String := []

namespace RxConn

/-- The receiver's side with a queue of this depth. -/
def init (depth : ℕ) : RxConn where
  seq := 1
  extraSeq := 0
  flags := { receiverToSender := true }
  pktQ := fun _ => none
  pktQCapacity := depth
  pktQSize := 0
  pktQHead := 0
  pktQTail := 0
  stopRequested := false
  stillActive := true

/-- `setAckSendParam`, `sendAck` -/
def sendAck (conn : RxConn) (flags : Flags) (seq extraSeq : ℕ) : Icpkthdr where
  flags := flags.union conn.flags
  seq := seq
  extraSeq := extraSeq
  content := []

/-- The loop of `handleDataPacket` that moves the queue tail. -/
def moveTail : ℕ → RxConn → RxConn
  | 0, conn => conn
  | turns + 1, conn =>
    if (conn.pktQ conn.pktQTail).isSome ∧ conn.pktQSize < conn.pktQCapacity then
      moveTail turns { conn with
        pktQSize := conn.pktQSize + 1
        pktQTail := (conn.pktQTail + 1) % conn.pktQCapacity
        seq := (conn.seq + 1) % uint32Range }
    else conn

def maxSeqsInDisorderAck : ℕ := 4

/-- The loop of `handleDisorderPacket`: the lost packets before `pos`, not more than `maxSeqs`. -/
def lostSeqs (conn : RxConn) (pos : ℕ) : ℕ → ℕ → ℕ → ℕ → List ℕ
  | 0, _, _, _ => []
  | turns + 1, maxSeqs, start, tailSeq =>
    if start ≠ pos ∧ 0 < maxSeqs then
      let next := (start + 1) % conn.pktQCapacity
      let nextSeq := (tailSeq + 1) % uint32Range
      if (conn.pktQ start).isNone then
        tailSeq :: lostSeqs conn pos turns (maxSeqs - 1) next nextSeq
      else lostSeqs conn pos turns maxSeqs next nextSeq
    else []

def handleDisorderPacket (conn : RxConn) (pos tailSeq : ℕ) (pkt : Icpkthdr) : Icpkthdr where
  flags := Flags.union { disorder := true } conn.flags
  seq := pkt.seq
  extraSeq := subUint32 conn.seq 1
  content := conn.lostSeqs pos conn.pktQCapacity maxSeqsInDisorderAck conn.pktQTail tailSeq

def setEos (conn : RxConn) : RxConn :=
  match conn.pktQ ((conn.pktQTail + conn.pktQCapacity - 1) % conn.pktQCapacity) with
  | some pkt =>
    if pkt.flags.eos then { conn with flags := conn.flags.union { eos := true } } else conn
  | none => conn

def handleDataPacket (conn : RxConn) (pkt : Icpkthdr) : RxResult :=
  if pkt.content = [] ∧ pkt.flags.capacity then
    -- status query message
    let seq := if conn.seq > 0 then conn.seq - 1 else 0
    let extraSeq := if conn.stopRequested then seq else conn.extraSeq
    { conn := conn, acks := [conn.sendAck { capacity := true, ack := true } seq extraSeq] }
  else if ¬ conn.stopRequested ∧ pkt.flags.stop then { conn := conn }
  else if conn.stopRequested ∧ conn.stillActive then
    let conn :=
      if pkt.flags.eos then { conn with flags := conn.flags.union { eos := true } } else conn
    let conn := if conn.seq < pkt.seq then { conn with seq := pkt.seq } else conn
    let ack := conn.sendAck { ack := true, stop := true, capacity := true } pkt.seq pkt.seq
    { conn := if pkt.flags.eos then { conn with stillActive := false } else conn, acks := [ack] }
  else if pkt.seq < conn.seq then
    -- dropped ack or timeout
    { conn := conn
      acks := [conn.sendAck { ack := true, capacity := true } (subUint32 conn.seq 1)
        conn.extraSeq] }
  else if ¬ conn.stillActive then
    let conn := if conn.seq < pkt.seq then { conn with seq := pkt.seq } else conn
    { conn := conn
      acks := [conn.sendAck { ack := true, stop := true, capacity := true } pkt.seq pkt.seq] }
  else
    let headSeq := subUint32 conn.seq conn.pktQSize
    if conn.pktQSize = conn.pktQCapacity ∨ subUint32 pkt.seq headSeq ≥ conn.pktQCapacity then
      { conn := conn
        log := ["Interconnect error: received a packet when the queue is full "] }
    else
      let pos := subUint32 pkt.seq 1 % conn.pktQCapacity
      if (conn.pktQ pos).isNone then
        let conn := { conn with pktQ := Function.update conn.pktQ pos (some pkt) }
        if pos = conn.pktQTail then
          let conn := (conn.moveTail (conn.pktQCapacity - conn.pktQSize)).setEos
          { conn := conn
            acks := [conn.sendAck { capacity := true, ack := true } (subUint32 conn.seq 1)
              conn.extraSeq] }
        else
          -- deal with out-of-order packet
          { conn := conn
            acks := [conn.handleDisorderPacket pos
              ((headSeq + conn.pktQSize) % uint32Range) pkt] }
      else
        { conn := conn
          acks := [conn.sendAck { duplicate := true } pkt.seq (subUint32 conn.seq 1)] }

/-- `putRxBufferAndSendAck`, with the packet that is taken. -/
def putRxBufferAndSendAck (conn : RxConn) : Except String (Icpkthdr × RxResult) :=
  match conn.pktQ conn.pktQHead with
  | none => .error "putRxBufferAndSendAck: buffer is NULL"
  | some buf =>
    let conn := { conn with
      pktQ := Function.update conn.pktQ conn.pktQHead none
      pktQHead := (conn.pktQHead + 1) % conn.pktQCapacity
      pktQSize := conn.pktQSize - 1
      extraSeq := buf.seq }
    let acks := if buf.seq % 2 = 0 ∨ conn.pktQCapacity = 1 then
        [conn.sendAck { ack := true, capacity := true } (subUint32 conn.seq 1) buf.seq]
      else []
    .ok (buf, { conn := conn, acks := acks })

end RxConn

/-! ### The sender -/

/-- The sender's side of a connection; `seq` and `flags` are those of `conn_info`. Until the
first packet is acknowledged the connection is not `started`. -/
structure TxConn where
  seq : ℕ
  flags : Flags
  sndQueue : List Icpkthdr
  unackQueue : List Icpkthdr
  capacity : ℕ
  sentSeq : ℕ
  receivedAckSeq : ℕ
  consumedSeq : ℕ
  started : Bool
  stopRequested : Bool
  stillActive : Bool
deriving Repr

/-- The static variables of `handleAckForDisorderPkt`, which all connections share. -/
structure DisorderCount where
  times : ℕ
  lastSeq : ℕ
deriving Repr

structure TxResult where
  conn : TxConn
  sent : List Icpkthdr := []
  shouldSendBuffers : Bool := false
  log : List String := []

namespace TxConn

/-- The sender's side, with the receiver's queue depth as capacity. -/
def init (depth : ℕ) : TxConn where
  seq := 1
  flags := {}
  sndQueue := []
  unackQueue := []
  capacity := depth
  sentSeq := 0
  receivedAckSeq := 0
  consumedSeq := 0
  started := false
  stopRequested := false
  stillActive := true

variable (conn : TxConn)

/-- The flag of the last packet, which `SendEOSUDPIFC` sets. -/
def setEos (sendingEos : Bool) : TxConn :=
  if sendingEos then { conn with flags := conn.flags.union { eos := true } } else conn

/-- `prepareXmit` and `icBufferListAppend` to the send queue, with the packet that is queued. -/
def prepareXmit (content : List ℕ) : TxConn × Icpkthdr :=
  let pkt := { flags := conn.flags, seq := conn.seq, extraSeq := 0, content := content }
  ({ conn with
    seq := (conn.seq + 1) % uint32Range
    sndQueue := conn.sndQueue ++ [pkt] }, pkt)

/-- `sendBuffers`, with the buffers it sends; the congestion window allows `window` of them. -/
def sendBuffers : ℕ → TxConn → TxConn × List Icpkthdr
  | 0, conn => (conn, [])
  | window + 1, conn =>
    match conn.sndQueue with
    | [] => (conn, [])
    | buf :: rest =>
      if conn.capacity > 0 ∧ (conn.started ∨ conn.unackQueue = []) then
        let result := sendBuffers window { conn with
          sndQueue := rest
          capacity := conn.capacity - 1
          unackQueue := conn.unackQueue ++ [buf]
          sentSeq := buf.seq }
        (result.1, buf :: result.2)
      else (conn, [])

def handleAckedPacket (buf : Icpkthdr) : TxConn :=
  { conn with
    unackQueue := conn.unackQueue.erase buf
    receivedAckSeq := if conn.unackQueue.head? = some buf then buf.seq else conn.receivedAckSeq
    started := conn.started || buf.seq = 1 }

/-- The packets at the front of the queue up to this number are acknowledged. -/
def ackUpTo (seq : ℕ) : TxResult :=
  let bufs := conn.unackQueue.takeWhile (·.seq ≤ seq)
  { conn := bufs.foldl handleAckedPacket conn, shouldSendBuffers := ¬ bufs.isEmpty }

def handleAckForDuplicatePkt (pkt : Icpkthdr) : TxResult :=
  if pkt.seq ≤ pkt.extraSeq then
    { conn := conn
      log := [s!"ERROR: invalid duplicate message: seq {pkt.seq} extraSeq {pkt.extraSeq}"] }
  else
    -- deal with continuous pkts
    let result := conn.ackUpTo pkt.extraSeq
    -- deal with the single duplicate packet
    match (result.conn.unackQueue.takeWhile (·.seq ≤ pkt.seq)).find? (·.seq = pkt.seq) with
    | some buf => { conn := result.conn.handleAckedPacket buf, shouldSendBuffers := true }
    | none => result

/-- The loop of `handleAckForDisorderPkt` over the unack queue and the lost sequence numbers, with
the buffers that are sent again. -/
def disorderLoop (pkt : Icpkthdr) (result : TxResult) (bufs : List Icpkthdr) (lost : List ℕ) :
    TxResult :=
  match bufs, lost with
  | [], _ => result
  | _, [] => result
  | buf :: rest, cur :: lost =>
    if buf.seq ≤ pkt.seq then
      if buf.seq = pkt.seq then
        { result with conn := result.conn.handleAckedPacket buf, shouldSendBuffers := true }
      else if buf.seq = cur then
        -- this is a lost packet, retransmit
        disorderLoop pkt { result with sent := result.sent ++ [buf] } rest lost
      else if buf.seq < cur then
        -- remove packet already received
        disorderLoop pkt
          { result with conn := result.conn.handleAckedPacket buf, shouldSendBuffers := true }
          rest (cur :: lost)
      else disorderLoop pkt result (buf :: rest) lost
    else result
termination_by bufs.length + lost.length

/-- `handleAckForDisorderPkt`: only the third message for the same gap in a row is dealt with. -/
def handleAckForDisorderPkt (count : DisorderCount) (pkt : Icpkthdr) : TxResult × DisorderCount :=
  if pkt.extraSeq ≠ count.lastSeq then
    ({ conn := conn }, { times := 0, lastSeq := pkt.extraSeq })
  else if count.times + 1 ≠ 2 then
    ({ conn := conn }, { count with times := (count.times + 1) % uint32Range })
  else
    (disorderLoop pkt { conn := conn } conn.unackQueue pkt.content,
      { count with times := count.times + 1 })

/-- What an ACK does after its capacity is taken. -/
def handleRegularAck (pkt : Icpkthdr) : TxResult :=
  if pkt.seq < conn.receivedAckSeq then { conn := conn }
  else
    let conn := if pkt.flags.stop ∧ ¬ conn.stopRequested ∧ conn.stillActive then
        { conn with stopRequested := true, flags := conn.flags.union { stop := true } }
      else conn
    if pkt.seq = conn.receivedAckSeq then { conn := conn }
    else if pkt.flags.ack then conn.ackUpTo pkt.seq
    else { conn := conn }

/-- The body of the loop of `handleAcks`, before `sendBuffers`. -/
def handleAck (count : DisorderCount) (pkt : Icpkthdr) : TxResult × DisorderCount :=
  if pkt.flags.nak then ({ conn := conn }, count)
  else if pkt.flags.capacity then
    if pkt.extraSeq > conn.consumedSeq then
      let result := { conn with
        capacity := conn.capacity + (pkt.extraSeq - conn.consumedSeq)
        consumedSeq := pkt.extraSeq }.handleRegularAck pkt
      ({ result with shouldSendBuffers := true }, count)
    else (conn.handleRegularAck pkt, count)
  else if pkt.flags.duplicate then (conn.handleAckForDuplicatePkt pkt, count)
  else if pkt.flags.disorder then conn.handleAckForDisorderPkt count pkt
  else (conn.handleRegularAck pkt, count)

/-- `handleAcks` on the acknowledgements that have arrived. `shouldSendBuffers` is not reset from
one to the next. -/
def handleAcks (window : ℕ) : List Icpkthdr → TxResult → DisorderCount → TxResult × DisorderCount
  | [], result, count => (result, count)
  | pkt :: pkts, result, count =>
    let (handled, count) := result.conn.handleAck count pkt
    let shouldSendBuffers := result.shouldSendBuffers || handled.shouldSendBuffers
    let (conn, sent) :=
      if shouldSendBuffers then handled.conn.sendBuffers window else (handled.conn, [])
    handleAcks window pkts
      { conn := conn
        sent := result.sent ++ handled.sent ++ sent
        shouldSendBuffers := shouldSendBuffers
        log := result.log ++ handled.log } count

end TxConn

/-! ### The connection -/

/-- A connection with the network in between: all that was ever sent can arrive, at any time and
more than once. -/
structure Interconnect where
  tx : TxConn
  count : DisorderCount
  rx : RxConn
  data : List Icpkthdr
  acks : List Icpkthdr
  /-- the packets the sender has queued, in this order -/
  queued : List Icpkthdr
  /-- the packets the consumer has taken -/
  consumed : List Icpkthdr
  /-- errors -/
  log : List String

inductive UdpEvent where
  /-- a packet is queued -/
  | queue (content : List ℕ) (sendingEos : Bool)
  | sendBuffers (window : ℕ)
  /-- `checkExpiration`: a packet of the unack queue is sent again -/
  | expire (i : ℕ)
  /-- `checkDeadlock`: a status query is sent -/
  | statusQuery
  /-- an acknowledgement of another connection of the sender is handled -/
  | otherDisorder (count : DisorderCount)
  /-- `handleAcks` reads these acknowledgements -/
  | handleAcks (is : List ℕ) (window : ℕ)
  /-- a packet arrives at the receiver -/
  | receive (i : ℕ)
  /-- the consumer has taken the head packet -/
  | consume
deriving Repr

namespace Interconnect

def init (depth : ℕ) : Interconnect where
  tx := .init depth
  count := { times := 0, lastSeq := 0 }
  rx := .init depth
  data := []
  acks := []
  queued := []
  consumed := []
  log := []

/-- `sendStatusQueryMessage` -/
def statusQueryMessage (seq : ℕ) : Icpkthdr where
  flags := { capacity := true }
  seq := seq
  extraSeq := 0
  content := []

def step (s : Interconnect) : UdpEvent → Option Interconnect
  | .queue content sendingEos =>
    let (tx, pkt) := (s.tx.setEos sendingEos).prepareXmit content
    some { s with tx := tx, queued := s.queued ++ [pkt] }
  | .sendBuffers window =>
    let (tx, sent) := s.tx.sendBuffers window
    some { s with tx := tx, data := s.data ++ sent }
  | .expire i => (s.tx.unackQueue[i]?).map fun buf => { s with data := s.data ++ [buf] }
  | .statusQuery =>
    if s.tx.unackQueue = [] ∧ s.tx.capacity = 0 ∧ s.tx.sndQueue ≠ [] then
      some { s with data := s.data ++ [statusQueryMessage (subUint32 s.tx.seq 1)] }
    else none
  | .otherDisorder count => some { s with count := count }
  | .handleAcks is window =>
    (is.mapM fun i => s.acks[i]?).map fun pkts =>
      let (result, count) := TxConn.handleAcks window pkts { conn := s.tx } s.count
      { s with
        tx := result.conn
        count := count
        data := s.data ++ result.sent
        log := s.log ++ result.log }
  | .receive i =>
    (s.data[i]?).map fun pkt =>
      let result := s.rx.handleDataPacket pkt
      { s with
        rx := result.conn
        acks := s.acks ++ result.acks
        log := s.log ++ result.log }
  | .consume =>
    match s.rx.putRxBufferAndSendAck with
    | .error _ => none
    | .ok (buf, result) =>
      some { s with
        rx := result.conn
        acks := s.acks ++ result.acks
        consumed := s.consumed ++ [buf] }

end Interconnect

end Cloudberry.Udp
