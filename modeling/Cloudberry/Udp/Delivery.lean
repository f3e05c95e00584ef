/-
# Every packet is delivered once and in order

The state of the network, the sender and the receiver hang together by what the receiver has got
(`Connected`): the packets on their way were sent, the acknowledgements on their way are true, and
the receiver has got only what was sent. A step keeps this, for what the receiver has got only
grows; so a run does.

The sequence numbers have to stay below the last `uint32`. The receiver's `conn_info.seq` is one
more than the last number it has got, so with packet number 2^32 - 1 it becomes zero, and a packet
that arrives a second time is not recognised any more.
-/

import Cloudberry.Lib.Machine
import Cloudberry.Udp.Sender

namespace Cloudberry.Udp

open List Option Nat Machine TxConn RxConn

/-- What holds the two sides together; `received` is what the receiver has got. -/
structure Connected (depth : ℕ) (received : ℕ → Option Icpkthdr) (s : Interconnect) : Prop where
  numbered : Numbered s.queued
  sends : Sends depth s.consumed.length s.queued received s.tx
  buffers : Buffers depth s.consumed.length received s.rx
  hole : received (s.consumed.length + s.rx.pktQSize) = none
  received_sent : ∀ i p, received i = some p → i < s.tx.sentSeq ∧ s.queued[i]? = some p
  received_data : ∀ i p, received i = some p → p ∈ s.data
  consumed : ∀ i p, s.consumed[i]? = some p → received i = some p
  data : ∀ p ∈ s.data, (p.content = [] ∧ p.flags.capacity = true) ∨
    ∃ i < s.tx.sentSeq, s.queued[i]? = some p
  acks : ∀ ack ∈ s.acks, AckTrue received s.consumed.length ack
  log : s.log = []

theorem mem_of_mapM {α : Type*} {xs ys : List α} {is : List ℕ}
    (h : (is.mapM fun i => xs[i]?) = some ys) {y : α} (hy : y ∈ ys) : y ∈ xs := by
  induction is generalizing ys with
  | nil =>
    cases h
    cases hy
  | cons i is ih =>
    rw [mapM_cons] at h
    obtain ⟨x, hx, hrest⟩ := bind_eq_some_iff.1 h
    obtain ⟨zs, hzs, hcons⟩ := bind_eq_some_iff.1 hrest
    cases hcons
    rcases mem_cons.1 hy with rfl | hy
    · exact mem_of_getElem? hx
    · exact ih hzs hy

section step

variable {depth : ℕ} {received : ℕ → Option Icpkthdr} {s t : Interconnect}

theorem connected_init (depth : ℕ) : Connected depth (fun _ => none) (.init depth) where
  numbered := fun i p hp => by simp [Interconnect.init] at hp
  sends := sends_init depth
  buffers := buffers_init depth
  hole := rfl
  received_sent := nofun
  received_data := nofun
  consumed := fun i p hp => by simp [Interconnect.init] at hp
  data := nofun
  acks := nofun
  log := rfl

theorem Connected.received_lt (h : Connected depth received s) (i : ℕ)
    (hi : (received i).isSome = true) : i < s.tx.sentSeq := by
  obtain ⟨p, hp⟩ := isSome_iff_exists.1 hi
  exact (h.received_sent i p hp).1

theorem Connected.send {tx : TxConn} {sent : List Icpkthdr} {log : List String}
    (count : DisorderCount) (h : Connected depth received s)
    (hsends : Sends depth s.consumed.length s.queued received tx) (hle : s.tx.sentSeq ≤ tx.sentSeq)
    (hsent : ∀ p ∈ sent, ∃ i < tx.sentSeq, s.queued[i]? = some p) (hlog : log = []) :
    Connected depth received
      { s with tx := tx, count := count, data := s.data ++ sent, log := s.log ++ log } :=
  { h with
    sends := hsends
    received_sent := fun i p hp => ⟨(h.received_sent i p hp).1.trans_le hle, (h.received_sent i p hp).2⟩
    received_data := fun i p hp => mem_append_left _ (h.received_data i p hp)
    data := fun p hp => by
      rcases mem_append.1 hp with hp | hp
      · rcases h.data p hp with hquery | ⟨i, hi, hget⟩
        · exact .inl hquery
        · exact .inr ⟨i, hi.trans_le hle, hget⟩
      · exact .inr (hsent p hp)
    log := by
      rw [h.log, hlog, append_nil] }

section

variable (h : Connected depth received s)
include h

theorem Connected.queue (hfew : s.queued.length + 1 < uint32Range) (content : List ℕ)
    (sendingEos : Bool) : Connected depth received { s with
      tx := ((s.tx.setEos sendingEos).prepareXmit content).1
      queued := s.queued ++ [((s.tx.setEos sendingEos).prepareXmit content).2] } := by
  have hsends := h.sends.setEos sendingEos
  have hsame : ((s.tx.setEos sendingEos).prepareXmit content).1.sentSeq = s.tx.sentSeq := by
    unfold TxConn.setEos
    split <;> rfl
  have hkeep : ∀ {i p}, i < s.tx.sentSeq → s.queued[i]? = some p →
      i < ((s.tx.setEos sendingEos).prepareXmit content).1.sentSeq ∧
        (s.queued ++ [((s.tx.setEos sendingEos).prepareXmit content).2])[i]? = some p := by
    intro i p hi hget
    refine ⟨by rwa [hsame], ?_⟩
    rw [List.getElem?_append_left (List.getElem?_eq_some_iff.1 hget).1, hget]
  exact { h with
    numbered := h.numbered.prepareXmit hsends hfew content
    sends := hsends.prepareXmit content
    received_sent := fun i p hp => hkeep (h.received_sent i p hp).1 (h.received_sent i p hp).2
    data := fun p hp => by
      rcases h.data p hp with hquery | ⟨i, hi, hget⟩
      · exact .inl hquery
      · exact .inr ⟨i, hkeep hi hget⟩ }

theorem Connected.receive (hfew : s.tx.sentSeq + 1 < uint32Range) {pkt : Icpkthdr}
    (hpkt : pkt ∈ s.data) : ∃ received', Connected depth received' { s with
      rx := (s.rx.handleDataPacket pkt).conn
      acks := s.acks ++ (s.rx.handleDataPacket pkt).acks
      log := s.log ++ (s.rx.handleDataPacket pkt).log } := by
  have hreceives : ∃ received', Receives depth s.consumed.length received pkt
      (s.rx.handleDataPacket pkt) received' ∧
      ∀ i p, received' i = some p → i < s.tx.sentSeq ∧ s.queued[i]? = some p ∧ p ∈ s.data := by
    have hold : ∀ i p, received i = some p → i < s.tx.sentSeq ∧ s.queued[i]? = some p ∧ p ∈ s.data :=
      fun i p hp => ⟨(h.received_sent i p hp).1, (h.received_sent i p hp).2, h.received_data i p hp⟩
    rcases h.data pkt hpkt with ⟨hempty, hcap⟩ | ⟨i, hi, hget⟩
    · exact ⟨received, statusQuery_ok h.buffers h.hole hempty hcap, hold⟩
    obtain ⟨_, hcap, hstop⟩ := h.numbered i pkt hget
    have hcapacity := h.sends.capacity
    have hconsumed := h.sends.consumedSeq_le
    obtain ⟨received', hr⟩ := handleDataPacket_ok h.buffers h.hole h.received_lt hfew
      (by omega) (by omega) (by omega) hcap hstop
    refine ⟨received', hr, fun j p hp => ?_⟩
    rcases hr.only j p hp with hp | ⟨_, rfl⟩
    · exact hold j p hp
    · obtain rfl : j = i := by omega
      exact ⟨hi, hget, hpkt⟩
  obtain ⟨received', hr, hfrom⟩ := hreceives
  exact ⟨received', { h with
    sends := h.sends.mono hr.grows le_rfl
    buffers := hr.buffers
    hole := hr.hole
    received_sent := fun i p hp => ⟨(hfrom i p hp).1, (hfrom i p hp).2.1⟩
    received_data := fun i p hp => (hfrom i p hp).2.2
    consumed := fun i p hp => hr.grows i p (h.consumed i p hp)
    acks := fun ack hack => by
      rcases mem_append.1 hack with hack | hack
      · exact (h.acks ack hack).mono hr.grows le_rfl
      · exact hr.acks ack hack
    log := by
      rw [h.log, hr.log, append_nil] }⟩

theorem Connected.consume (hdepth : 1 ≤ depth) (hfew : s.tx.sentSeq + 1 < uint32Range)
    {buf : Icpkthdr} {result : RxResult} (htake : s.rx.putRxBufferAndSendAck = .ok (buf, result)) :
    Connected depth received { s with
      rx := result.conn
      acks := s.acks ++ result.acks
      consumed := s.consumed ++ [buf] } := by
  obtain ⟨hbuf, hbuffers, hhole, hacks⟩ := putRxBufferAndSendAck_ok h.buffers h.hole h.received_lt
    hfew hdepth (fun i p hp => (h.numbered i p (h.received_sent i p hp).2).1) htake
  have hlength : (s.consumed ++ [buf]).length = s.consumed.length + 1 := by simp
  exact { h with
    sends := by
      rw [hlength]
      exact h.sends.mono (fun _ _ hp => hp) (le_succ _)
    buffers := by
      rw [hlength]
      exact hbuffers
    hole := by
      rw [hlength]
      exact hhole
    consumed := fun i p hp => by
      rcases lt_or_ge i s.consumed.length with hi | hi
      · rw [getElem?_append_left hi] at hp
        exact h.consumed i p hp
      rw [getElem?_append_right hi, getElem?_singleton] at hp
      split_ifs at hp
      cases hp
      obtain rfl : i = s.consumed.length := by omega
      exact hbuf
    acks := fun ack hack => by
      rw [hlength]
      rcases mem_append.1 hack with hack | hack
      · exact (h.acks ack hack).mono (fun _ _ hp => hp) (le_succ _)
      · exact hacks ack hack }

end

/-- **One step**, of the sender, the receiver or the consumer. -/
theorem step_connected (hdepth : 1 ≤ depth) {e : UdpEvent} (h : Connected depth received s)
    (hstep : s.step e = some t) (hqueued : t.queued.length < uint32Range)
    (hfew : s.tx.sentSeq + 1 < uint32Range) : ∃ received', Connected depth received' t := by
  cases e with
  | queue content sendingEos =>
    cases hstep
    exact ⟨received, h.queue (by simpa using hqueued) content sendingEos⟩
  | sendBuffers window =>
    cases hstep
    obtain ⟨hsends, hle, hsent⟩ := sendBuffers_ok window h.sends h.numbered
    refine ⟨received, ?_⟩
    have hsend := h.send s.count hsends hle hsent (rfl : [] = [])
    rwa [append_nil] at hsend
  | expire i =>
    obtain ⟨buf, hbuf, rfl⟩ := map_eq_some_iff.1 hstep
    refine ⟨received, ?_⟩
    have hsend := h.send s.count h.sends le_rfl
      (fun p (hp : p ∈ [buf]) => by
        rw [mem_singleton.1 hp]
        exact h.sends.exists_of_mem (mem_of_getElem? hbuf)) (rfl : [] = [])
    rwa [append_nil] at hsend
  | statusQuery =>
    obtain ⟨-, rfl⟩ := guarded_eq_some.1 hstep
    exact ⟨received, { h with
      received_data := fun i p hp => mem_append_left _ (h.received_data i p hp)
      data := fun p hp => by
        rcases mem_append.1 hp with hp | hp
        · exact h.data p hp
        · rw [mem_singleton.1 hp]
          exact .inl ⟨rfl, rfl⟩ }⟩
  | otherDisorder count =>
    cases hstep
    exact ⟨received, { h with }⟩
  | handleAcks is window =>
    obtain ⟨pkts, hpkts, rfl⟩ := map_eq_some_iff.1 hstep
    obtain ⟨hsends, hle, hsent, hlog⟩ := @handleAcks_ok depth s.consumed.length s.queued received
      window pkts { conn := s.tx } s.count h.sends h.numbered
      (fun pkt hpkt => h.acks pkt (mem_of_mapM hpkts hpkt)) nofun rfl
    exact ⟨received, h.send _ hsends hle hsent hlog⟩
  | receive i =>
    obtain ⟨pkt, hpkt, rfl⟩ := map_eq_some_iff.1 hstep
    exact h.receive hfew (mem_of_getElem? hpkt)
  | consume =>
    unfold Interconnect.step at hstep
    dsimp only at hstep
    split at hstep
    · cases hstep
    next buf result htake =>
      cases hstep
      exact ⟨received, h.consume hdepth hfew htake⟩

theorem queued_length_le {e : UdpEvent} (hstep : s.step e = some t) :
    s.queued.length ≤ t.queued.length := by
  cases e with
  | queue content sendingEos =>
    cases hstep
    simp
  | sendBuffers window =>
    cases hstep
    exact le_rfl
  | expire i =>
    obtain ⟨_, -, rfl⟩ := map_eq_some_iff.1 hstep
    exact le_rfl
  | statusQuery =>
    obtain ⟨-, rfl⟩ := guarded_eq_some.1 hstep
    exact le_rfl
  | otherDisorder count =>
    cases hstep
    exact le_rfl
  | handleAcks is window =>
    obtain ⟨_, -, rfl⟩ := map_eq_some_iff.1 hstep
    exact le_rfl
  | receive i =>
    obtain ⟨_, -, rfl⟩ := map_eq_some_iff.1 hstep
    exact le_rfl
  | consume =>
    unfold Interconnect.step at hstep
    dsimp only at hstep
    split at hstep
    · cases hstep
    · cases hstep
      exact le_rfl

end step

/-! ### Runs -/

/-- What a connection has delivered, and what it still keeps. -/
structure Delivers (depth : ℕ) (s : Interconnect) : Prop where
  /-- the packets have consecutive sequence numbers -/
  numbered : ∀ i p, s.queued[i]? = some p → p.seq = i + 1
  /-- the consumed packets are the first ones that were queued -/
  inOrder : s.consumed = s.queued.take s.consumed.length
  /-- and were sent -/
  sent : ∀ p ∈ s.consumed, p ∈ s.data
  /-- a packet before one already sent is consumed, in the receiver's queue, or can be sent again -/
  kept : ∀ q ∈ s.data, q ∈ s.queued → ∀ p ∈ s.queued, p.seq ≤ q.seq →
    p ∈ s.consumed ∨ (∃ j < depth, s.rx.pktQ j = some p) ∨ p ∈ s.tx.unackQueue
  /-- no error branch is reached -/
  log : s.log = []

variable {s : Interconnect}

theorem Connected.consumed_or_buffered {depth : ℕ} {received : ℕ → Option Icpkthdr} {i : ℕ}
    {p : Icpkthdr} (h : Connected depth received s) (hdepth : 1 ≤ depth)
    (hp : received i = some p) : p ∈ s.consumed ∨ ∃ j < depth, s.rx.pktQ j = some p := by
  rcases lt_or_ge i s.consumed.length with hi | hi
  · have hget : s.consumed[i]? = some s.consumed[i] := getElem?_eq_getElem hi
    have hsame := h.consumed i _ hget
    rw [hp] at hsame
    cases hsame
    exact .inl (getElem_mem hi)
  · have hwindow : i < s.consumed.length + depth := by
      by_contra hout
      rw [h.buffers.beyond i (Nat.le_of_not_lt hout)] at hp
      cases hp
    refine .inr ⟨i % depth, mod_lt _ hdepth, ?_⟩
    rw [h.buffers.shows i hi hwindow, hp]

theorem Connected.delivers {depth : ℕ} {received : ℕ → Option Icpkthdr} (hdepth : 1 ≤ depth)
    (h : Connected depth received s) : Delivers depth s where
  numbered := fun i p hp => (h.numbered i p hp).1
  inOrder := by
    refine ext_getElem? fun i => ?_
    rw [getElem?_take]
    split
    next hi =>
      have hget : s.consumed[i]? = some s.consumed[i] := getElem?_eq_getElem hi
      rw [hget, (h.received_sent i _ (h.consumed i _ hget)).2]
    next hi => exact getElem?_eq_none (Nat.le_of_not_lt hi)
  sent := fun p hp => by
    obtain ⟨i, hi⟩ := getElem?_of_mem hp
    exact h.received_data i p (h.consumed i p hi)
  kept := fun q hq hqueued p hp hle => by
    obtain ⟨i, hi⟩ := getElem?_of_mem hp
    obtain ⟨k, hk⟩ := getElem?_of_mem hqueued
    have hsent : i < s.tx.sentSeq := by
      rcases h.data q hq with ⟨-, hcap⟩ | ⟨j, _, hget⟩
      · rw [(h.numbered k q hk).2.1] at hcap
        cases hcap
      · have hseq := (h.numbered j q hget).1
        have hseq' := (h.numbered i p hi).1
        omega
    rcases h.sends.missing i p hsent hi with hmem | hsome
    · exact .inr (.inr hmem)
    obtain ⟨p', hp'⟩ := isSome_iff_exists.1 hsome
    have hsame := (h.received_sent i p' hp').2
    rw [hi] at hsame
    cases hsame
    exact (h.consumed_or_buffered hdepth hp').imp_right .inl
  log := h.log

theorem run_connected {depth : ℕ} (hdepth : 1 ≤ depth) {es : List UdpEvent}
    (hrun : run Interconnect.step (.init depth) es = some s)
    (hfew : s.queued.length + 1 < uint32Range) : ∃ received, Connected depth received s :=
  Machine.run_invariant
    (P := fun s => s.queued.length + 1 < uint32Range → ∃ received, Connected depth received s)
    (fun s e t h hstep hfew' => by
      have hle := queued_length_le hstep
      obtain ⟨received, hconnected⟩ := h (by omega)
      have hsent := hconnected.sends.sentSeq_le
      exact step_connected hdepth hconnected hstep (by omega) (by omega))
    (fun _ => ⟨_, connected_init depth⟩) hrun hfew

/-- **Every packet is delivered once and in order**, whatever the network does, as long as fewer
than 2^32 - 1 packets are sent. -/
theorem udp_delivers (depth : ℕ) (hdepth : 1 ≤ depth) (es : List UdpEvent) (s : Interconnect)
    (hrun : Machine.run Interconnect.step (.init depth) es = some s)
    (hfew : s.queued.length < 2 ^ 32 - 1) : Delivers depth s := by
  obtain ⟨_, h⟩ := run_connected hdepth hrun (show s.queued.length + 1 < 2 ^ 32 by omega)
  exact h.delivers hdepth

/-- The third packet overtakes the second one, which arrives twice. -/
theorem udp_delivers_out_of_order : ∃ s, Machine.run Interconnect.step (.init 2)
        [.queue [7] false, .queue [8] false, .queue [9] true, .sendBuffers 1, .receive 0, .consume,
          .receive 0, .handleAcks [1] 2, .receive 2, .receive 1, .receive 1, .consume] = some s ∧
      (s.consumed.map (·.content) = [[7], [8]] ∧ s.queued.length < 2 ^ 32 - 1) ∧ Delivers 2 s := by
  exact exists_of_any_imp (by decide +kernel) fun s hs hstate =>
    udp_delivers 2 (by decide) _ s hs hstate.2

/-! ### The last sequence number -/

/-- One packet is queued, sent, received, consumed and acknowledged. -/
def round (k : ℕ) : List UdpEvent :=
  [.queue [] false, .sendBuffers 1, .receive k, .consume, .handleAcks [2 * k + 1] 0]

def rounds (n : ℕ) : List UdpEvent := (range n).flatMap round

/-- The packet after `n` others. -/
def nextPacket (n : ℕ) : Icpkthdr where
  flags := {}
  seq := n + 1
  extraSeq := 0
  content := []

/-- Its acknowledgement, when `consumed` packets are consumed. -/
def nextAck (n consumed : ℕ) : Icpkthdr where
  flags := { receiverToSender := true, ack := true, capacity := true }
  seq := n + 1
  extraSeq := consumed
  content := []

/-- The sender after `n` packets, all acknowledged. -/
def idleTx (n : ℕ) : TxConn where
  seq := (n + 1) % uint32Range
  flags := {}
  sndQueue := []
  unackQueue := []
  capacity := 1
  sentSeq := n
  receivedAckSeq := n
  consumedSeq := n
  started := 0 < n
  stopRequested := false
  stillActive := true

/-- The receiver, with a queue of depth one, after `n` packets, all consumed. -/
def idleRx (n : ℕ) : RxConn where
  seq := (n + 1) % uint32Range
  extraSeq := n
  flags := { receiverToSender := true }
  pktQ := fun _ => none
  pktQCapacity := 1
  pktQSize := 0
  pktQHead := 0
  pktQTail := 0
  stopRequested := false
  stillActive := true

/-- The next packet is queued, -/
def queuedTx (n : ℕ) : TxConn :=
  { idleTx n with seq := (n + 2) % uint32Range, sndQueue := [nextPacket n] }

/-- sent, -/
def waitingTx (n : ℕ) : TxConn :=
  { idleTx (n + 1) with
    unackQueue := [nextPacket n]
    capacity := 0
    receivedAckSeq := n
    consumedSeq := n
    started := 0 < n }

/-- and received. -/
def fullRx (n : ℕ) : RxConn :=
  { idleRx (n + 1) with
    extraSeq := n
    pktQ := Function.update (fun _ => none) 0 (some (nextPacket n))
    pktQSize := 1 }

/-- The connection after `n` packets. -/
structure Idle (n : ℕ) (s : Interconnect) : Prop where
  tx : s.tx = idleTx n
  rx : s.rx = idleRx n
  data : s.data.length = n
  first : 0 < n → s.data[0]? = some (nextPacket 0)
  acks : s.acks.length = 2 * n
  queued : s.queued.length = n
  log : s.log = []

theorem idle_init : Idle 0 (.init 1) where
  tx := rfl
  rx := rfl
  data := rfl
  first := nofun
  acks := rfl
  queued := rfl
  log := rfl

section rounds

variable {n : ℕ}

theorem subUint32_succ (hn : n < uint32Range) : subUint32 ((n + 1) % uint32Range) 1 = n := by
  unfold subUint32 uint32Range at *
  omega

theorem idleTx_sends (hn : n + 1 < uint32Range) :
    (idleTx n).prepareXmit [] = (queuedTx n, nextPacket n) ∧
      sendBuffers 1 (queuedTx n) = (waitingTx n, [nextPacket n]) := by
  have hmod : (n + 1) % uint32Range = n + 1 := mod_eq_of_lt hn
  constructor
  · simp [prepareXmit, queuedTx, idleTx, nextPacket, hmod]
  · simp [sendBuffers, queuedTx, waitingTx, idleTx, nextPacket]

theorem idleRx_receives (hn : n + 1 < uint32Range) : (idleRx n).handleDataPacket (nextPacket n) =
      { conn := fullRx n, acks := [nextAck n n] } := by
  have hseq : (idleRx n).seq = n + 1 := mod_eq_of_lt hn
  have hhead : subUint32 (n + 1) 0 = n + 1 := subUint32_of_le (zero_le _) hn
  have hself : subUint32 (n + 1) (n + 1) = 0 := by rw [subUint32_of_le le_rfl hn, Nat.sub_self]
  have hsub := subUint32_succ hn
  unfold RxConn.handleDataPacket
  rw [if_neg nofun, if_neg nofun, if_neg nofun, hseq, show (nextPacket n).seq = n + 1 from rfl,
    if_neg (lt_irrefl _), if_neg nofun, show (idleRx n).pktQSize = 0 from rfl,
    show (idleRx n).pktQCapacity = 1 from rfl]
  dsimp only
  rw [hhead, hself, mod_one]
  simp [RxConn.moveTail, RxConn.setEos, RxConn.sendAck, idleRx, fullRx, nextPacket, nextAck,
    Flags.union, hsub]

theorem fullRx_consumes (hn : n + 1 < uint32Range) : (fullRx n).putRxBufferAndSendAck =
      .ok (nextPacket n, { conn := idleRx (n + 1), acks := [nextAck n (n + 1)] }) := by
  have hsub := subUint32_succ hn
  simp [putRxBufferAndSendAck, sendAck, fullRx, idleRx, nextPacket, nextAck, Flags.union, hsub]

theorem waitingTx_acked (count : DisorderCount) :
    (handleAcks 0 [nextAck n (n + 1)] { conn := waitingTx n } count).1 =
      { conn := idleTx (n + 1), sent := [], shouldSendBuffers := true, log := [] } := by
  have hnew : ¬ n + 1 < n := by omega
  have hstarted : (decide (0 < n) || decide (n = 0)) = true := by
    rcases Nat.eq_zero_or_pos n with rfl | hpos
    · rfl
    · simp [hpos]
  simp [handleAcks, handleAck, handleRegularAck, ackUpTo, handleAckedPacket, sendBuffers, nextAck,
    nextPacket, waitingTx, idleTx, hnew, hstarted]

theorem round_idle (hn : n + 1 < uint32Range) (h : Idle n s) :
    ∃ t, run Interconnect.step s (round n) = some t ∧ Idle (n + 1) t := by
  obtain ⟨tx, count, rx, data, acks, queued, consumed, log⟩ := s
  obtain ⟨rfl, rfl, hdata, hfirst, hacks, hqueued, hlog⟩ := h
  dsimp only at hdata hfirst hacks hqueued hlog
  obtain ⟨hprepare, hsend⟩ := idleTx_sends hn
  have hpkt : (data ++ [nextPacket n])[n]? = some (nextPacket n) := by
    rw [getElem?_append_right hdata.le, hdata, Nat.sub_self, getElem?_cons_zero]
  have hack : (acks ++ [nextAck n n] ++ [nextAck n (n + 1)])[2 * n + 1]? =
      some (nextAck n (n + 1)) := by
    have hlength : (acks ++ [nextAck n n]).length = 2 * n + 1 := by
      rw [length_append, hacks, length_singleton]
    rw [getElem?_append_right hlength.le, hlength, Nat.sub_self, getElem?_cons_zero]
  have hread : ([2 * n + 1].mapM fun i => (acks ++ [nextAck n n] ++ [nextAck n (n + 1)])[i]?) =
      some [nextAck n (n + 1)] := by
    rw [mapM_cons, hack]
    rfl
  refine ⟨{
    tx := idleTx (n + 1)
    count := (handleAcks 0 [nextAck n (n + 1)] { conn := waitingTx n } count).2
    rx := idleRx (n + 1)
    data := data ++ [nextPacket n]
    acks := acks ++ [nextAck n n] ++ [nextAck n (n + 1)]
    queued := queued ++ [nextPacket n]
    consumed := consumed ++ [nextPacket n]
    log := log }, ?_, ?_⟩
  · unfold round
    simp only [run, Interconnect.step, TxConn.setEos, Bool.false_eq_true, if_false,
      hprepare, hsend, hpkt, idleRx_receives hn, fullRx_consumes hn, hread, waitingTx_acked,
      bind_some, map_some, append_nil]
  exact {
    tx := rfl
    rx := rfl
    data := by simp [hdata]
    first := fun _ => by
      rcases Nat.eq_zero_or_pos n with rfl | hpos
      · rw [eq_nil_of_length_eq_zero hdata]
        rfl
      · have hlt : 0 < data.length := by omega
        rw [getElem?_append_left hlt, hfirst hpos]
    acks := by
      simp [hacks]
      omega
    queued := by simp [hqueued]
    log := hlog }

theorem rounds_idle (hn : n < uint32Range) :
    ∃ s, run Interconnect.step (.init 1) (rounds n) = some s ∧ Idle n s := by
  induction n with
  | zero => exact ⟨_, rfl, idle_init⟩
  | succ n ih =>
    obtain ⟨s, hrun, hidle⟩ := ih (by omega)
    obtain ⟨t, hround, hidle'⟩ := round_idle hn hidle
    refine ⟨t, ?_, hidle'⟩
    unfold rounds
    rw [range_succ, flatMap_append]
    exact run_append.2 ⟨s, hrun, hround⟩

end rounds

/-- With one packet more the receiver reports an error: it has got 2^32 - 1 packets, and the first
one arrives again. -/
theorem last_seq_reported :
    ∃ s, Machine.run Interconnect.step (.init 1) (rounds (uint32Range - 1) ++ [.receive 0]) =
        some s ∧ s.queued.length < 2 ^ 32 ∧
      s.log = ["Interconnect error: received a packet when the queue is full "] ∧
      ¬ Delivers 1 s := by
  obtain ⟨s, hrun, hidle⟩ := @rounds_idle (uint32Range - 1) (by unfold uint32Range; omega)
  have hpkt := hidle.first (by unfold uint32Range; omega)
  have hlast : (idleRx (uint32Range - 1)).handleDataPacket (nextPacket 0) =
      { conn := idleRx (uint32Range - 1)
        log := ["Interconnect error: received a packet when the queue is full "] } := by
    have hseq : (idleRx (uint32Range - 1)).seq = 0 := by
      change (2 ^ 32 - 1 + 1) % 2 ^ 32 = 0
      omega
    unfold handleDataPacket
    rw [if_neg nofun, if_neg nofun, if_neg nofun, if_neg nofun, if_neg nofun]
    exact if_pos (.inr (by decide))
  have hstep : s.step (.receive 0) = some { s with
      rx := idleRx (uint32Range - 1)
      acks := s.acks ++ []
      log := s.log ++ ["Interconnect error: received a packet when the queue is full "] } := by
    simp [Interconnect.step, hpkt, hidle.rx, hlast]
  refine ⟨_, run_append.2 ⟨s, hrun, run_cons.2 ⟨_, hstep, run_nil _⟩⟩, ?_, ?_, fun hdelivers => ?_⟩
  · rw [hidle.queued]
    unfold uint32Range
    omega
  · rw [hidle.log, nil_append]
  · have hlog := hdelivers.log
    rw [hidle.log] at hlog
    cases hlog

end Cloudberry.Udp
