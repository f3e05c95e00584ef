/-
# A status query reopens the window

The sender's capacity is what it knows of the room at the receiver: the depth of the queue plus
what it knows to be consumed, less what it has sent. With the window closed and nothing left to
send again, the receiver has everything that was sent; so once all of that is consumed, its answer
to a status query carries a larger number than the sender knows (`Connected.consumed_eq_sentSeq`).
-/

import Cloudberry.Udp.Delivery

namespace Cloudberry.Udp

open List Option Machine TxConn RxConn Function Nat

/-! ### After the last sequence number -/

/-- The sender has used up the sequence numbers. -/
structure TxExhausted (depth : ℕ) (tx : TxConn) : Prop where
  sentSeq : tx.sentSeq + 1 = uint32Range
  sndQueue : tx.sndQueue = []
  capacity : tx.capacity + tx.sentSeq = tx.consumedSeq + depth
  consumedSeq : tx.consumedSeq < uint32Range
  unackQueue : ∀ p ∈ tx.unackQueue, 0 < p.seq ∧ p.seq < uint32Range

/-- The numbers the receiver has are `uint32`. -/
structure RxBounded (depth : ℕ) (rx : RxConn) : Prop where
  capacity : rx.pktQCapacity = depth
  head : rx.pktQHead < depth
  pktQ : ∀ j < depth, ∀ p, rx.pktQ j = some p → p.seq < uint32Range
  extraSeq : rx.extraSeq < uint32Range
  active : rx.stopRequested = false ∧ rx.stillActive = true ∧ rx.flags.stop = false

def AckBounded (ack : Icpkthdr) : Prop :=
  ack.flags.stop = false ∧ (ack.flags.capacity = true → ack.extraSeq < uint32Range)

/-- The connection after the last sequence number. -/
structure Exhausted (depth : ℕ) (s : Interconnect) : Prop where
  tx : TxExhausted depth s.tx
  rx : RxBounded depth s.rx
  queued : s.tx.sentSeq ≤ s.queued.length
  data : ∀ p ∈ s.data, (p.content = [] ∧ p.flags.capacity = true) ∨ p.seq < uint32Range
  acks : ∀ ack ∈ s.acks, AckBounded ack

section

variable {depth : ℕ} {received : ℕ → Option Icpkthdr} {tx tx' : TxConn} {rx : RxConn}
  {pkt : Icpkthdr} {s t : Interconnect}

theorem TxExhausted.trim (h : TxExhausted depth tx) (htrims : Trims received tx tx') :
    TxExhausted depth tx' where
  sentSeq := by rw [htrims.sentSeq, h.sentSeq]
  sndQueue := by rw [htrims.sndQueue, h.sndQueue]
  capacity := by rw [htrims.capacity, htrims.sentSeq, htrims.consumedSeq, h.capacity]
  consumedSeq := by
    rw [htrims.consumedSeq]
    exact h.consumedSeq
  unackQueue := fun p hp => h.unackQueue p (htrims.sublist.subset hp)

/-- What is left of the sender, and what it sends again. -/
def TxExhausted.Handled (depth : ℕ) (result : TxResult) : Prop :=
  TxExhausted depth result.conn ∧ ∀ p ∈ result.sent, p.seq < uint32Range

theorem TxExhausted.handled {result : TxResult} (h : TxExhausted depth tx)
    (htrims : Trims received tx result.conn) (hsent : result.sent = []) :
    TxExhausted.Handled depth result := by
  refine ⟨h.trim htrims, ?_⟩
  rw [hsent]
  exact nofun

theorem disorderLoop_trims (hall : ∀ seq, Has received seq) (pkt : Icpkthdr) (result : TxResult)
    (bufs : List Icpkthdr) (lost : List ℕ) :
    Trims received result.conn (disorderLoop pkt result bufs lost).conn ∧
      ∀ p ∈ (disorderLoop pkt result bufs lost).sent, p ∈ result.sent ∨ p ∈ bufs := by
  fun_induction disorderLoop pkt result bufs lost with
  | case1 => exact ⟨.refl _ _, fun _ hp => .inl hp⟩
  | case2 => exact ⟨.refl _ _, fun _ hp => .inl hp⟩
  | case3 => exact ⟨trims_handleAckedPacket _ (hall _), fun _ hp => .inl hp⟩
  | case4 result buf rest lost _ _ ih =>
    refine ⟨ih.1, fun p hp => ?_⟩
    rcases ih.2 p hp with hp | hp
    · rcases mem_append.1 hp with hp | hp
      · exact .inl hp
      · exact .inr (mem_singleton.1 hp ▸ mem_cons_self)
    · exact .inr (mem_cons_of_mem _ hp)
  | case5 result buf rest cur lost _ _ _ _ ih =>
    exact ⟨(trims_handleAckedPacket _ (hall _)).trans ih.1,
      fun p hp => (ih.2 p hp).imp_right (mem_cons_of_mem _)⟩
  | case6 _ _ _ _ _ _ _ _ _ ih => exact ih
  | case7 => exact ⟨.refl _ _, fun _ hp => .inl hp⟩

theorem TxExhausted.handleAck (h : TxExhausted depth tx) (hack : AckBounded pkt)
    (count : DisorderCount) : TxExhausted.Handled depth (tx.handleAck count pkt).1 := by
  -- nothing is said here about what the receiver has, so it may have everything
  let received : ℕ → Option Icpkthdr := fun _ => some pkt
  have hall : ∀ seq, Has received seq := fun _ => rfl
  have hregular : ∀ {tx : TxConn}, TxExhausted depth tx →
      TxExhausted.Handled depth (tx.handleRegularAck pkt) := by
    intro tx h
    obtain ⟨htrims, hsent, -⟩ := @trims_handleRegularAck received tx pkt
      (fun p hp => (h.unackQueue p hp).1) hack.1 fun _ _ => rfl
    exact h.handled htrims hsent
  unfold TxConn.handleAck
  split_ifs with hnak hcap hmore hdup hdis
  · exact ⟨h, nofun⟩
  · have hcapacity := h.capacity
    exact @hregular { tx with
      capacity := tx.capacity + (pkt.extraSeq - tx.consumedSeq)
      consumedSeq := pkt.extraSeq } { h with
        capacity := by dsimp only; omega
        consumedSeq := hack.2 hcap }
  · exact hregular h
  · by_cases hlt : pkt.extraSeq < pkt.seq
    · obtain ⟨htrims, hsent, -⟩ := @trims_handleAckForDuplicatePkt received tx pkt
        (fun p hp => (h.unackQueue p hp).1) hlt (fun _ _ => rfl) rfl
      exact h.handled htrims hsent
    · unfold handleAckForDuplicatePkt
      rw [if_pos (not_lt.1 hlt)]
      exact ⟨h, nofun⟩
  · unfold handleAckForDisorderPkt
    split_ifs
    · exact ⟨h, nofun⟩
    · exact ⟨h, nofun⟩
    obtain ⟨htrims, hsent⟩ := disorderLoop_trims hall pkt { conn := tx } tx.unackQueue pkt.content
    refine ⟨h.trim htrims, fun p hp => ?_⟩
    rcases hsent p hp with hp | hp
    · cases hp
    · exact (h.unackQueue p hp).2
  · exact hregular h

theorem TxExhausted.sendBuffers (h : TxExhausted depth tx) (window : ℕ) :
    tx.sendBuffers window = (tx, []) := by
  cases window with
  | zero => rfl
  | succ window => rw [TxConn.sendBuffers, h.sndQueue]

theorem TxExhausted.handleAcks (window : ℕ) {pkts : List Icpkthdr} {result : TxResult}
    {count : DisorderCount} (h : TxExhausted.Handled depth result)
    (hacks : ∀ pkt ∈ pkts, AckBounded pkt) :
    TxExhausted.Handled depth (handleAcks window pkts result count).1 := by
  induction pkts generalizing result count with
  | nil => exact h
  | cons pkt pkts ih =>
    obtain ⟨hhandled, hresent⟩ := h.1.handleAck (hacks pkt mem_cons_self) count
    unfold TxConn.handleAcks
    dsimp only
    rw [hhandled.sendBuffers, ite_self]
    refine ih ⟨hhandled, fun p hp => ?_⟩ fun pkt hpkt => hacks pkt (mem_cons_of_mem _ hpkt)
    rw [append_nil] at hp
    exact (mem_append.1 hp).elim (h.2 p) (hresent p)

theorem RxBounded.moveTail (h : RxBounded depth rx) (turns : ℕ) :
    RxBounded depth (rx.moveTail turns) := by
  induction turns generalizing rx with
  | zero => exact h
  | succ turns ih =>
    unfold moveTail
    split
    · exact ih { h with }
    · exact h

theorem RxBounded.setEos (h : RxBounded depth rx) : RxBounded depth rx.setEos := by
  unfold RxConn.setEos
  split
  · split
    · exact { h with active := by simp [Flags.union, h.active] }
    · exact h
  · exact h

theorem subUint32_lt (a b : ℕ) : subUint32 a b < uint32Range := mod_lt _ (by decide)

theorem RxBounded.sendAck (h : RxBounded depth rx) {flags : Flags} {seq extraSeq : ℕ}
    (hstop : flags.stop = false) (hextra : extraSeq < uint32Range) :
    AckBounded (rx.sendAck flags seq extraSeq) :=
  ⟨by simp [RxConn.sendAck, Flags.union, hstop, h.active.2.2], fun _ => hextra⟩

theorem RxBounded.handleDataPacket (h : RxBounded depth rx)
    (hpkt : (pkt.content = [] ∧ pkt.flags.capacity = true) ∨ pkt.seq < uint32Range) :
    RxBounded depth (rx.handleDataPacket pkt).conn ∧
      ∀ ack ∈ (rx.handleDataPacket pkt).acks, AckBounded ack := by
  obtain ⟨hstop, hactive, hflags⟩ := h.active
  unfold RxConn.handleDataPacket
  by_cases hquery : pkt.content = [] ∧ pkt.flags.capacity = true
  · rw [if_pos hquery]
    simp only [hstop, Bool.false_eq_true, if_false]
    exact ⟨h, forall_mem_singleton.2 (h.sendAck rfl h.extraSeq)⟩
  rw [if_neg hquery]
  by_cases hlate : pkt.flags.stop = true
  · rw [if_pos ⟨by simp [hstop], hlate⟩]
    exact ⟨h, nofun⟩
  rw [if_neg fun hcond => hlate hcond.2, if_neg (by simp [hstop])]
  by_cases hold : pkt.seq < rx.seq
  · rw [if_pos hold]
    exact ⟨h, forall_mem_singleton.2 (h.sendAck rfl h.extraSeq)⟩
  rw [if_neg hold, if_neg (by simp [hactive])]
  dsimp only
  split
  · exact ⟨h, nofun⟩
  split
  · have hput : RxBounded depth { rx with
        pktQ := update rx.pktQ (subUint32 pkt.seq 1 % rx.pktQCapacity) (some pkt) } :=
      { h with
        pktQ := fun j hj p hp => by
          dsimp only at hp
          by_cases hpos : j = subUint32 pkt.seq 1 % rx.pktQCapacity
          · rw [hpos, update_self] at hp
            cases hp
            exact hpkt.resolve_left hquery
          · rw [update_of_ne hpos] at hp
            exact h.pktQ j hj p hp }
    split
    · have hmoved := (hput.moveTail (rx.pktQCapacity - rx.pktQSize)).setEos
      exact ⟨hmoved, forall_mem_singleton.2 (hmoved.sendAck rfl hmoved.extraSeq)⟩
    · refine ⟨hput, forall_mem_singleton.2 ⟨?_, fun _ => subUint32_lt _ _⟩⟩
      simp [handleDisorderPacket, Flags.union, hflags]
  · exact ⟨h, forall_mem_singleton.2 (h.sendAck rfl (subUint32_lt _ _))⟩

theorem RxBounded.putRxBufferAndSendAck (h : RxBounded depth rx) {buf : Icpkthdr}
    {result : RxResult} (htake : rx.putRxBufferAndSendAck = .ok (buf, result)) :
    RxBounded depth result.conn ∧ ∀ ack ∈ result.acks, AckBounded ack := by
  unfold RxConn.putRxBufferAndSendAck at htake
  cases hhead : rx.pktQ rx.pktQHead with
  | none =>
    rw [hhead] at htake
    cases htake
  | some head =>
    rw [hhead] at htake
    obtain ⟨rfl, rfl⟩ := Prod.mk.inj (Except.ok.inj htake)
    have hseq := h.pktQ _ h.head head hhead
    have htaken : RxBounded depth { rx with
        pktQ := update rx.pktQ rx.pktQHead none
        pktQHead := (rx.pktQHead + 1) % rx.pktQCapacity
        pktQSize := rx.pktQSize - 1
        extraSeq := head.seq } :=
      { h with
        head := by
          rw [h.capacity]
          exact mod_lt _ (zero_lt_of_lt h.head)
        pktQ := fun j hj p hp => by
          dsimp only at hp
          by_cases hpos : j = rx.pktQHead
          · rw [hpos, update_self] at hp
            cases hp
          · rw [update_of_ne hpos] at hp
            exact h.pktQ j hj p hp
        extraSeq := hseq }
    refine ⟨htaken, ?_⟩
    split
    · exact forall_mem_singleton.2 (htaken.sendAck rfl hseq)
    · exact nofun

/-- **One step** after the last sequence number. -/
theorem Exhausted.step (h : Exhausted depth s) {e : UdpEvent} (hstep : s.step e = some t)
    (hqueued : t.queued.length < uint32Range) : Exhausted depth t := by
  have hlast := h.tx.sentSeq
  have hlen := h.queued
  cases e with
  | queue content sendingEos =>
    cases hstep
    rw [length_append, length_singleton] at hqueued
    omega
  | sendBuffers window =>
    cases hstep
    rw [h.tx.sendBuffers, append_nil]
    exact { h with }
  | expire i =>
    obtain ⟨buf, hbuf, rfl⟩ := map_eq_some_iff.1 hstep
    exact { h with
      data := forall_mem_append.2 ⟨h.data, forall_mem_singleton.2
        (.inr (h.tx.unackQueue buf (mem_of_getElem? hbuf)).2)⟩ }
  | statusQuery =>
    obtain ⟨hcond, -⟩ := guarded_eq_some.1 hstep
    exact absurd h.tx.sndQueue hcond.2.2
  | otherDisorder count =>
    cases hstep
    exact { h with }
  | handleAcks is window =>
    obtain ⟨pkts, hpkts, rfl⟩ := map_eq_some_iff.1 hstep
    obtain ⟨htx, hsent⟩ := @TxExhausted.handleAcks depth window pkts { conn := s.tx } s.count
      ⟨h.tx, nofun⟩ fun pkt hpkt => h.acks pkt (mem_of_mapM hpkts hpkt)
    exact { h with
      tx := htx
      queued := by
        have hlast' := htx.sentSeq
        dsimp only
        omega
      data := forall_mem_append.2 ⟨h.data, fun p hp => .inr (hsent p hp)⟩ }
  | receive i =>
    obtain ⟨pkt, hpkt, rfl⟩ := map_eq_some_iff.1 hstep
    obtain ⟨hrx, hacks⟩ := h.rx.handleDataPacket (h.data pkt (mem_of_getElem? hpkt))
    exact { h with rx := hrx, acks := forall_mem_append.2 ⟨h.acks, hacks⟩ }
  | consume =>
    unfold Interconnect.step at hstep
    dsimp only at hstep
    split at hstep
    · cases hstep
    next buf result htake =>
      cases hstep
      obtain ⟨hrx, hacks⟩ := h.rx.putRxBufferAndSendAck htake
      exact { h with rx := hrx, acks := forall_mem_append.2 ⟨h.acks, hacks⟩ }

section

variable (h : Connected depth received s)
include h

theorem Connected.consumed_le : s.consumed.length ≤ s.tx.sentSeq :=
  le_of_contiguous (fun i hi => h.buffers.contiguous i (Nat.lt_add_right _ hi)) h.received_lt

theorem Connected.exhausted (hdepth : 1 ≤ depth) (hlast : s.tx.sentSeq + 1 = uint32Range)
    (hqueued : s.queued.length < uint32Range) : Exhausted depth s := by
  have hseq : ∀ {i p}, i < s.tx.sentSeq → s.queued[i]? = some p →
      0 < p.seq ∧ p.seq < uint32Range := by
    intro i p hi hp
    rw [(h.numbered i p hp).1]
    omega
  have hle := h.consumed_le
  have hsent := h.sends.sentSeq_le
  obtain ⟨_, hstop, -⟩ := h.buffers.flags
  refine ⟨⟨hlast, ?_, h.sends.capacity, ?_, fun p hp => ?_⟩, ⟨h.buffers.capacity, ?_, ?_, ?_,
    h.buffers.stopRequested, h.buffers.stillActive, hstop⟩, hsent, fun p hp => ?_,
    fun ack hack => ?_⟩
  · rw [h.sends.sndQueue, drop_eq_nil_iff]
    omega
  · have hconsumed := h.sends.consumedSeq_le
    omega
  · obtain ⟨i, hi, hp⟩ := h.sends.exists_of_mem hp
    exact hseq hi hp
  · rw [h.buffers.head]
    exact mod_lt _ hdepth
  · intro j hj p hp
    rw [← Finset.mem_range, ← image_Ico_mod s.consumed.length, Finset.mem_image] at hj
    obtain ⟨i, hi, rfl⟩ := hj
    rw [Finset.mem_Ico] at hi
    rw [h.buffers.shows i hi.1 hi.2] at hp
    exact (hseq (h.received_sent i p hp).1 (h.received_sent i p hp).2).2
  · rw [h.buffers.extraSeq]
    omega
  · exact (h.data p hp).imp_right fun ⟨i, hi, hp⟩ => (hseq hi hp).2
  · obtain ⟨-, hstop', hkind⟩ := h.acks ack hack
    refine ⟨hstop', fun hcap => ?_⟩
    rcases hkind with ⟨-, _, -⟩ | ⟨hcap', -⟩ | ⟨hcap', -⟩
    · omega
    · rw [hcap] at hcap'
      cases hcap'
    · rw [hcap] at hcap'
      cases hcap'

/-- With nothing left in the unack queue the receiver has all that was sent. -/
theorem Connected.received_eq_sentSeq (hunack : s.tx.unackQueue = []) :
    s.consumed.length + s.rx.pktQSize = s.tx.sentSeq := by
  refine le_antisymm (le_of_contiguous h.buffers.contiguous h.received_lt) (not_lt.1 fun hlt => ?_)
  have hlen := h.sends.sentSeq_le
  rcases h.sends.missing _ _ hlt (getElem?_eq_getElem (hlt.trans_le hlen)) with hmem | hsome
  · rw [hunack] at hmem
    cases hmem
  · rw [h.hole] at hsome
    cases hsome

theorem Connected.consumed_eq_sentSeq (hunack : s.tx.unackQueue = []) (hempty : s.rx.pktQSize = 0) :
    s.consumed.length = s.tx.sentSeq := by
  rw [← h.received_eq_sentSeq hunack, hempty, add_zero]

end

/-- **Every run** keeps the two sides together until the sequence numbers are used up. -/
theorem run_connected_or_exhausted (hdepth : 1 ≤ depth) {es : List UdpEvent}
    (hrun : run Interconnect.step (.init depth) es = some s)
    (hqueued : s.queued.length < uint32Range) :
    (∃ received, Connected depth received s) ∨ Exhausted depth s :=
  run_invariant
    (P := fun s => s.queued.length < uint32Range →
      (∃ received, Connected depth received s) ∨ Exhausted depth s)
    (fun s e t h hstep hqueued' => by
      have hle := queued_length_le hstep
      rcases h (by omega) with ⟨received, hconnected⟩ | hexhausted
      · by_cases hfew : s.tx.sentSeq + 1 < uint32Range
        · exact .inl (step_connected hdepth hconnected hstep hqueued' hfew)
        · have hsent := hconnected.sends.sentSeq_le
          exact .inr ((hconnected.exhausted hdepth (by omega) (by omega)).step hstep hqueued')
      · exact .inr (hexhausted.step hstep hqueued'))
    (fun _ => .inl ⟨_, connected_init depth⟩) hrun hqueued

end

/-! ### The status query -/

/-- What a status query does for a sender that waits: the receiver's answer gives it the whole
window, and the next packets can be sent. -/
structure Reopens (depth : ℕ) (s : Interconnect) : Prop where
  /-- the one acknowledgement that answers the query raises the capacity -/
  capacity : ∀ seq, ∃ reply,
    (s.rx.handleDataPacket (Interconnect.statusQueryMessage seq)).acks = [reply] ∧
    ∀ count, 0 < (s.tx.handleAck count reply).1.conn.capacity ∧
      (s.tx.handleAck count reply).1.shouldSendBuffers = true
  /-- the query, its arrival and the handling of the answer lead on -/
  progress : ∀ window, ∃ i j t,
    run Interconnect.step s [.statusQuery, .receive i, .handleAcks [j] window] = some t ∧
      (0 < t.tx.capacity ∨ s.tx.sentSeq < t.tx.sentSeq)

theorem handleAck_raises {received : ℕ → Option Icpkthdr} {base : ℕ} {tx : TxConn} {pkt : Icpkthdr}
    (hpos : ∀ p ∈ tx.unackQueue, 0 < p.seq) (hack : AckTrue received base pkt)
    (hcap : pkt.flags.capacity = true) (hmore : tx.consumedSeq < pkt.extraSeq)
    (count : DisorderCount) :
    (tx.handleAck count pkt).1.conn.capacity = tx.capacity + (pkt.extraSeq - tx.consumedSeq) ∧
      (tx.handleAck count pkt).1.conn.consumedSeq = pkt.extraSeq ∧
      (tx.handleAck count pkt).1.shouldSendBuffers = true := by
  obtain ⟨hnak, hstop, hkind⟩ := hack
  have hseq : ∀ i < pkt.seq, (received i).isSome = true := by
    simpa [hcap] using fun i hi => (hkind.resolve_right (by simp [hcap])).2.2 i hi
  unfold handleAck
  rw [if_neg (by simp [hnak]), if_pos hcap, if_pos hmore]
  obtain ⟨htrims, -⟩ := @trims_handleRegularAck received { tx with
    capacity := tx.capacity + (pkt.extraSeq - tx.consumedSeq)
    consumedSeq := pkt.extraSeq } pkt hpos hstop hseq
  exact ⟨htrims.capacity, htrims.consumedSeq, rfl⟩

theorem sendBuffers_consumedSeq (window : ℕ) (tx : TxConn) :
    (tx.sendBuffers window).1.consumedSeq = tx.consumedSeq := by
  induction window generalizing tx with
  | zero => rfl
  | succ window ih =>
    unfold sendBuffers
    split
    · rfl
    · split
      · exact ih _
      · rfl

/-- **A sender that waits** with everything acknowledged and consumed gets on by a status query. -/
theorem Connected.reopens {depth : ℕ} {received : ℕ → Option Icpkthdr} {s : Interconnect}
    (h : Connected depth received s) (hdepth : 1 ≤ depth) (hclosed : s.tx.capacity = 0)
    (hunack : s.tx.unackQueue = []) (hwaiting : s.tx.sndQueue ≠ []) (hempty : s.rx.pktQSize = 0) :
    Reopens depth s := by
  have hconsumed := h.consumed_eq_sentSeq hunack hempty
  have hcapacity := h.sends.capacity
  refine ⟨fun seq => ?_, fun window => ?_⟩
  · obtain ⟨reply, hanswer, hcap, hextra, htrue⟩ := statusQuery_answer
      (Interconnect.statusQueryMessage seq) h.buffers rfl rfl
    refine ⟨reply, by rw [hanswer], fun count => ?_⟩
    obtain ⟨_, -, hsend⟩ := handleAck_raises (h.sends.pos h.numbered) htrue hcap (by omega) count
    exact ⟨by omega, hsend⟩
  obtain ⟨reply, hanswer, hcap, hextra, htrue⟩ := statusQuery_answer
    (Interconnect.statusQueryMessage (subUint32 s.tx.seq 1)) h.buffers rfl rfl
  obtain ⟨-, hknown, hsend⟩ := handleAck_raises (h.sends.pos h.numbered) htrue hcap
    (by omega) s.count
  obtain ⟨hhandled, -⟩ := handleAck_ok s.count h.sends h.numbered htrue
  obtain ⟨hdone, -⟩ := sendBuffers_ok window hhandled h.numbered
  have hcapacity' := hdone.capacity
  rw [sendBuffers_consumedSeq, hknown] at hcapacity'
  have hrun : (run Interconnect.step s
      [.statusQuery, .receive s.data.length, .handleAcks [s.acks.length] window]).map (·.tx) =
      some (sendBuffers window (s.tx.handleAck s.count reply).1.conn).1 := by
    simp [run, Interconnect.step, hunack, hclosed, hwaiting, hanswer, handleAcks, hsend]
  obtain ⟨t, ht, htx⟩ := map_eq_some_iff.1 hrun
  rw [← htx] at hcapacity'
  exact ⟨_, _, t, ht, by omega⟩

/-- **A status query always reopens a closed window.**  As long as fewer than 2^32 packets are
queued, the capacity is the depth of the queue plus what is known to be consumed less what was
sent, and between zero and the depth; and if the window is closed, no packet is left to be sent
again, packets wait and the consumer has taken all there is, then the answer to a status query
makes the capacity positive and the sender gets on. -/
theorem statusQuery_reopens (depth : ℕ) (hdepth : 1 ≤ depth) (es : List UdpEvent) (s : Interconnect)
    (hrun : run Interconnect.step (.init depth) es = some s) (hfew : s.queued.length < 2 ^ 32) :
    (s.tx.capacity : ℤ) = depth + s.tx.consumedSeq - s.tx.sentSeq ∧ s.tx.capacity ≤ depth ∧
      (s.tx.capacity = 0 → s.tx.unackQueue = [] → s.tx.sndQueue ≠ [] → s.rx.pktQSize = 0 →
        Reopens depth s) := by
  rcases run_connected_or_exhausted hdepth hrun hfew with ⟨_, h⟩ | h
  · have hcapacity := h.sends.capacity
    have hconsumed := h.sends.consumedSeq_le.trans h.consumed_le
    exact ⟨by omega, by omega, h.reopens hdepth⟩
  · have hcapacity := h.tx.capacity
    have hconsumed := h.tx.consumedSeq
    have hlast := h.tx.sentSeq
    exact ⟨by omega, by omega, fun _ _ hwaiting => absurd h.tx.sndQueue hwaiting⟩

/-- One packet is consumed and acknowledged as received, but not as consumed; another one waits. -/
theorem statusQuery_reopens_one : ∃ s, run Interconnect.step (.init 1)
        [.queue [7] false, .queue [8] false, .sendBuffers 1, .receive 0, .handleAcks [0] 0,
          .consume] = some s ∧
      (s.tx.capacity = 0 ∧ s.tx.unackQueue = [] ∧ s.tx.sndQueue ≠ [] ∧ s.rx.pktQSize = 0 ∧
        s.queued.length < 2 ^ 32) ∧ Reopens 1 s := by
  refine exists_of_any_imp (by decide +kernel) ?_
  rintro s hs ⟨hclosed, hunack, hwaiting, hempty, hfew⟩
  exact (statusQuery_reopens 1 le_rfl _ s hs hfew).2.2 hclosed hunack hwaiting hempty

/-- **What `SendEOSUDPIFC` waits for.** When both queues of the sender are empty, the consumer has
taken the first packets that were queued, and the receiver's queue holds all others. -/
theorem drained_all_received (depth : ℕ) (hdepth : 1 ≤ depth) (es : List UdpEvent)
    (s : Interconnect) (hrun : run Interconnect.step (.init depth) es = some s)
    (hfew : s.queued.length < 2 ^ 32 - 1) (hsnd : s.tx.sndQueue = [])
    (hunack : s.tx.unackQueue = []) :
    s.consumed = s.queued.take s.consumed.length ∧
      s.consumed.length + s.rx.pktQSize = s.queued.length ∧
      ∀ i, s.consumed.length ≤ i → i < s.queued.length →
        s.rx.pktQ (i % depth) = s.queued[i]? := by
  obtain ⟨_, h⟩ := run_connected hdepth hrun (show s.queued.length + 1 < 2 ^ 32 by omega)
  have hlen : s.consumed.length + s.rx.pktQSize = s.queued.length := by
    rw [h.received_eq_sentSeq hunack]
    refine le_antisymm h.sends.sentSeq_le ?_
    rw [← drop_eq_nil_iff, ← h.sends.sndQueue, hsnd]
  refine ⟨(h.delivers hdepth).inOrder, hlen, fun i hbase hi => ?_⟩
  have hsize := h.buffers.size_le
  obtain ⟨p, hp⟩ := isSome_iff_exists.1 (h.buffers.contiguous i (by omega))
  rw [h.buffers.shows i hbase (by omega), hp, (h.received_sent i p hp).2]

/-- A packet that was lost at first is sent again. -/
theorem drained_after_resend : ∃ s, run Interconnect.step (.init 1)
        [.queue [7] false, .sendBuffers 1, .expire 0, .receive 1, .handleAcks [0] 0] = some s ∧
      (s.queued.length < 2 ^ 32 - 1 ∧ s.tx.sndQueue = [] ∧ s.tx.unackQueue = []) ∧
      s.consumed.length + s.rx.pktQSize = s.queued.length := by
  refine exists_of_any_imp (by decide +kernel) ?_
  rintro s hs ⟨hfew, hsnd, hunack⟩
  exact (drained_all_received 1 le_rfl _ s hs hfew hsnd hunack).2.1

end Cloudberry.Udp
