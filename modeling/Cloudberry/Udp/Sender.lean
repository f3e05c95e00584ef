/-
# The sender's queues

A packet leaves the unack queue only if the receiver has it (`Trims`): that is so for each kind of
acknowledgement as long as what the acknowledgement says is true, also when it is an old one.
`Sends` is what the sender's numbers and queues have to do with the packets it was given and with
what the receiver has.
-/

import Cloudberry.Udp.Receiver
import Mathlib.Data.List.TakeWhile

namespace Cloudberry.Udp

open List TxConn Nat

/-- The packets are numbered from one on, and are data packets. -/
def Numbered (queued : List Icpkthdr) : Prop :=
  ∀ i p, queued[i]? = some p → p.seq = i + 1 ∧ p.flags.capacity = false ∧ p.flags.stop = false

/-- The receiver has the packet with this sequence number. -/
def Has (received : ℕ → Option Icpkthdr) (seq : ℕ) : Prop := (received (seq - 1)).isSome = true

/-- Only packets that the receiver has are taken from the unack queue. -/
structure Trims (received : ℕ → Option Icpkthdr) (tx tx' : TxConn) : Prop where
  seq : tx'.seq = tx.seq
  flags : tx'.flags = tx.flags
  sndQueue : tx'.sndQueue = tx.sndQueue
  capacity : tx'.capacity = tx.capacity
  sentSeq : tx'.sentSeq = tx.sentSeq
  consumedSeq : tx'.consumedSeq = tx.consumedSeq
  sublist : tx'.unackQueue.Sublist tx.unackQueue
  dropped : ∀ p ∈ tx.unackQueue, p ∈ tx'.unackQueue ∨ Has received p.seq

section trims

variable {received : ℕ → Option Icpkthdr} {tx tx' tx'' : TxConn} {buf pkt : Icpkthdr}

theorem Trims.refl (received : ℕ → Option Icpkthdr) (tx : TxConn) : Trims received tx tx :=
  ⟨rfl, rfl, rfl, rfl, rfl, rfl, Sublist.refl _, fun _ hp => .inl hp⟩

theorem Trims.trans (h : Trims received tx tx') (h' : Trims received tx' tx'') :
    Trims received tx tx'' where
  seq := h'.seq.trans h.seq
  flags := h'.flags.trans h.flags
  sndQueue := h'.sndQueue.trans h.sndQueue
  capacity := h'.capacity.trans h.capacity
  sentSeq := h'.sentSeq.trans h.sentSeq
  consumedSeq := h'.consumedSeq.trans h.consumedSeq
  sublist := h'.sublist.trans h.sublist
  dropped := fun p hp => by
    rcases h.dropped p hp with hp' | hhas
    · exact h'.dropped p hp'
    · exact .inr hhas

theorem trims_handleAckedPacket (tx : TxConn) (h : Has received buf.seq) :
    Trims received tx (tx.handleAckedPacket buf) where
  seq := rfl
  flags := rfl
  sndQueue := rfl
  capacity := rfl
  sentSeq := rfl
  consumedSeq := rfl
  sublist := erase_sublist
  dropped := fun p hp => by
    by_cases heq : p = buf
    · exact .inr (heq ▸ h)
    · exact .inl ((mem_erase_of_ne heq).2 hp)

theorem trims_foldl {bufs : List Icpkthdr} (h : ∀ b ∈ bufs, Has received b.seq) (tx : TxConn) :
    Trims received tx (bufs.foldl handleAckedPacket tx) := by
  induction bufs generalizing tx with
  | nil => exact .refl _ _
  | cons buf bufs ih =>
    exact (trims_handleAckedPacket tx (h buf mem_cons_self)).trans
      (ih (fun b hb => h b (mem_cons_of_mem _ hb)) _)

theorem trims_ackUpTo {seq : ℕ} (hpos : ∀ p ∈ tx.unackQueue, 0 < p.seq)
    (h : ∀ i < seq, (received i).isSome = true) : Trims received tx (tx.ackUpTo seq).conn := by
  refine trims_foldl (fun b hb => h _ ?_) tx
  have hle : b.seq ≤ seq := by simpa using mem_takeWhile_imp hb
  have hb' := hpos b (( takeWhile_prefix _).subset hb)
  omega

/-- A duplicate message: the contiguous packets, and the single one. -/
theorem trims_handleAckForDuplicatePkt (hpos : ∀ p ∈ tx.unackQueue, 0 < p.seq)
    (hlt : pkt.extraSeq < pkt.seq) (hextra : ∀ i < pkt.extraSeq, (received i).isSome = true)
    (hseq : Has received pkt.seq) : Trims received tx (tx.handleAckForDuplicatePkt pkt).conn ∧
      (tx.handleAckForDuplicatePkt pkt).sent = [] ∧
      (tx.handleAckForDuplicatePkt pkt).log = [] := by
  have htrims := trims_ackUpTo hpos hextra
  unfold handleAckForDuplicatePkt
  rw [if_neg (by omega)]
  dsimp only
  split
  next buf hfind =>
    have hbuf : buf.seq = pkt.seq := by simpa using find?_some hfind
    exact ⟨htrims.trans (trims_handleAckedPacket _ (hbuf ▸ hseq)), rfl, rfl⟩
  · exact ⟨htrims, rfl, rfl⟩

/-- A disorder message: the loop takes out what was received, and sends again what was lost. The
numbers that were passed are below all packets still to come. -/
theorem disorderLoop_ok {result : TxResult} {bufs : List Icpkthdr} {passed lost : List ℕ}
    (hsorted : bufs.Pairwise fun a b => a.seq < b.seq) (hpos : ∀ b ∈ bufs, 0 < b.seq)
    (hseq : Has received pkt.seq) (hlost : lost.Pairwise (· < ·))
    (hpassed : ∀ l ∈ passed, ∀ b ∈ bufs, l < b.seq)
    (hbetween : ∀ l ∈ lost, ∀ n, 0 < n → n < l → n ∉ passed ++ lost → Has received n) :
    Trims received result.conn (disorderLoop pkt result bufs lost).conn ∧
      (∀ p ∈ (disorderLoop pkt result bufs lost).sent, p ∈ result.sent ∨ p ∈ bufs) ∧
      (disorderLoop pkt result bufs lost).log = result.log := by
  fun_induction disorderLoop pkt result bufs lost generalizing passed with
  | case1 => exact ⟨.refl _ _, fun _ hp => .inl hp, rfl⟩
  | case2 => exact ⟨.refl _ _, fun _ hp => .inl hp, rfl⟩
  | case3 result buf rest cur lost _ heq =>
    exact ⟨trims_handleAckedPacket _ (heq ▸ hseq), fun _ hp => .inl hp, rfl⟩
  | case4 result buf rest lost _ _ ih =>
    obtain ⟨hbelow, hsorted⟩ := pairwise_cons.1 hsorted
    obtain ⟨-, hlost⟩ := pairwise_cons.1 hlost
    obtain ⟨htrims, hsent, hlog⟩ := @ih (passed ++ [buf.seq]) hsorted
      (fun b hb => hpos b (mem_cons_of_mem _ hb)) hlost
      (fun l hl b hb => by
        rcases mem_append.1 hl with hl | hl
        · exact hpassed l hl b (mem_cons_of_mem _ hb)
        · rw [mem_singleton.1 hl]
          exact hbelow b hb)
      (fun l hl n hn hnl hnot => hbetween l (mem_cons_of_mem _ hl) n hn hnl (by
        rwa [append_assoc, singleton_append] at hnot))
    refine ⟨htrims, fun p hp => ?_, hlog⟩
    rcases hsent p hp with hp | hp
    · rcases mem_append.1 hp with hp | hp
      · exact .inl hp
      · exact .inr (mem_singleton.1 hp ▸ mem_cons_self)
    · exact .inr (mem_cons_of_mem _ hp)
  | case5 result buf rest cur lost _ _ _ hlt ih =>
    -- neither passed nor lost, so it has been received
    have hhas : Has received buf.seq := by
      refine hbetween cur mem_cons_self buf.seq (hpos buf mem_cons_self) hlt fun hmem => ?_
      rcases mem_append.1 hmem with hmem | hmem
      · exact (hpassed _ hmem buf mem_cons_self).false
      · rcases mem_cons.1 hmem with heq | hmem
        · omega
        · exact ((pairwise_cons.1 hlost).1 _ hmem |>.trans hlt).false
    obtain ⟨-, hsorted⟩ := pairwise_cons.1 hsorted
    obtain ⟨htrims, hsent, hlog⟩ := @ih passed hsorted
      (fun b hb => hpos b (mem_cons_of_mem _ hb)) hlost
      (fun l hl b hb => hpassed l hl b (mem_cons_of_mem _ hb)) hbetween
    refine ⟨(trims_handleAckedPacket _ hhas).trans htrims, fun p hp => ?_, hlog⟩
    rcases hsent p hp with hp | hp
    · exact .inl hp
    · exact .inr (mem_cons_of_mem _ hp)
  | case6 result buf rest cur lost _ _ hne hge ih =>
    obtain ⟨hbelow, -⟩ := pairwise_cons.1 hsorted
    have hcur : cur < buf.seq := by omega
    exact @ih (passed ++ [cur]) hsorted hpos (pairwise_cons.1 hlost).2
      (fun l hl b hb => by
        rcases mem_append.1 hl with hl | hl
        · exact hpassed l hl b hb
        rw [mem_singleton.1 hl]
        rcases mem_cons.1 hb with rfl | hb
        · exact hcur
        · exact hcur.trans (hbelow b hb))
      (fun l hl n hn hnl hnot => hbetween l (mem_cons_of_mem _ hl) n hn hnl (by
        rwa [append_assoc, singleton_append] at hnot))
  | case7 => exact ⟨.refl _ _, fun _ hp => .inl hp, rfl⟩

theorem trims_handleRegularAck (hpos : ∀ p ∈ tx.unackQueue, 0 < p.seq)
    (hstop : pkt.flags.stop = false) (hseq : ∀ i < pkt.seq, (received i).isSome = true) :
    Trims received tx (tx.handleRegularAck pkt).conn ∧ (tx.handleRegularAck pkt).sent = [] ∧
      (tx.handleRegularAck pkt).log = [] := by
  unfold handleRegularAck
  split
  · exact ⟨.refl _ _, rfl, rfl⟩
  simp only [hstop, Bool.false_eq_true, false_and, if_false]
  split
  · exact ⟨.refl _ _, rfl, rfl⟩
  · split
    · exact ⟨trims_ackUpTo hpos hseq, rfl, rfl⟩
    · exact ⟨.refl _ _, rfl, rfl⟩

end trims

/-! ### What holds of the sender -/

/-- The sender has sent the first `sentSeq` packets; those that the receiver lacks are in the unack
queue, and not more are under way than the receiver has room for. -/
structure Sends (depth base : ℕ) (queued : List Icpkthdr) (received : ℕ → Option Icpkthdr)
    (tx : TxConn) : Prop where
  seq : tx.seq = (queued.length + 1) % uint32Range
  flags : tx.flags.capacity = false ∧ tx.flags.stop = false
  sentSeq_le : tx.sentSeq ≤ queued.length
  sndQueue : tx.sndQueue = queued.drop tx.sentSeq
  capacity : tx.capacity + tx.sentSeq = tx.consumedSeq + depth
  consumedSeq_le : tx.consumedSeq ≤ base
  unackQueue : tx.unackQueue.Sublist (queued.take tx.sentSeq)
  missing : ∀ i p, i < tx.sentSeq → queued[i]? = some p →
    p ∈ tx.unackQueue ∨ (received i).isSome = true

section sends

variable {depth base : ℕ} {queued : List Icpkthdr} {received received' : ℕ → Option Icpkthdr}
  {tx tx' : TxConn} {pkt : Icpkthdr}

theorem sends_init (depth : ℕ) : Sends depth 0 [] (fun _ => none) (.init depth) where
  seq := rfl
  flags := ⟨rfl, rfl⟩
  sentSeq_le := le_rfl
  sndQueue := rfl
  capacity := add_comm _ _
  consumedSeq_le := le_rfl
  unackQueue := Sublist.refl _
  missing := fun _ _ hi => absurd hi (not_lt_zero _)

section

variable (h : Sends depth base queued received tx)
include h

theorem Sends.exists_of_mem {p : Icpkthdr} (hp : p ∈ tx.unackQueue) :
    ∃ i < tx.sentSeq, queued[i]? = some p := by
  obtain ⟨i, hi⟩ := mem_iff_getElem?.1 (h.unackQueue.subset hp)
  rw [getElem?_take] at hi
  split_ifs at hi
  exact ⟨i, ‹_›, hi⟩

theorem Sends.pos (hnum : Numbered queued) : ∀ p ∈ tx.unackQueue, 0 < p.seq := by
  intro p hp
  obtain ⟨i, -, hi⟩ := h.exists_of_mem hp
  rw [(hnum i p hi).1]
  exact succ_pos i

theorem Sends.sorted (hnum : Numbered queued) :
    tx.unackQueue.Pairwise fun a b => a.seq < b.seq := by
  refine Pairwise.sublist (h.unackQueue.trans (take_sublist _ _)) ?_
  rw [pairwise_iff_getElem]
  intro i j hi hj hij
  rw [(hnum i _ (getElem?_eq_getElem hi)).1, (hnum j _ (getElem?_eq_getElem hj)).1]
  omega

theorem Sends.mono (hext : Extends received received') {base' : ℕ} (hle : base ≤ base') :
    Sends depth base' queued received' tx :=
  { h with
    consumedSeq_le := h.consumedSeq_le.trans hle
    missing := fun i p hi hp => (h.missing i p hi hp).imp_right fun hsome => hext.isSome hsome }

theorem Sends.trim (hnum : Numbered queued) (htrims : Trims received tx tx') :
    Sends depth base queued received tx' where
  seq := htrims.seq.trans h.seq
  flags := htrims.flags ▸ h.flags
  sentSeq_le := htrims.sentSeq ▸ h.sentSeq_le
  sndQueue := by rw [htrims.sndQueue, htrims.sentSeq, h.sndQueue]
  capacity := by rw [htrims.capacity, htrims.sentSeq, htrims.consumedSeq, h.capacity]
  consumedSeq_le := htrims.consumedSeq ▸ h.consumedSeq_le
  unackQueue := by
    rw [htrims.sentSeq]
    exact htrims.sublist.trans h.unackQueue
  missing := fun i p hi hp => by
    rw [htrims.sentSeq] at hi
    rcases h.missing i p hi hp with hmem | hsome
    · rcases htrims.dropped p hmem with hmem | hhas
      · exact .inl hmem
      · rw [Has, (hnum i p hp).1] at hhas
        exact .inr hhas
    · exact .inr hsome

theorem Sends.prepareXmit (content : List ℕ) :
    Sends depth base (queued ++ [(tx.prepareXmit content).2]) received
      (tx.prepareXmit content).1 where
  seq := by
    dsimp only [TxConn.prepareXmit]
    rw [h.seq, mod_add_mod, length_append, length_singleton]
  flags := h.flags
  sentSeq_le := by
    rw [length_append]
    exact h.sentSeq_le.trans (le_add_right _ _)
  sndQueue := by
    dsimp only [TxConn.prepareXmit]
    rw [drop_append_of_le_length h.sentSeq_le, h.sndQueue]
  capacity := h.capacity
  consumedSeq_le := h.consumedSeq_le
  unackQueue := by
    dsimp only [TxConn.prepareXmit]
    rw [take_append_of_le_length h.sentSeq_le]
    exact h.unackQueue
  missing := fun i p hi hp => by
    have hi' : i < queued.length := lt_of_lt_of_le hi h.sentSeq_le
    rw [getElem?_append_left hi'] at hp
    exact h.missing i p hi hp

theorem Sends.setEos (sendingEos : Bool) :
    Sends depth base queued received (tx.setEos sendingEos) := by
  unfold TxConn.setEos
  split
  · exact { h with flags := by simp [Flags.union, h.flags.1, h.flags.2] }
  · exact h

end

theorem Numbered.prepareXmit (hnum : Numbered queued) (h : Sends depth base queued received tx)
    (hfew : queued.length + 1 < uint32Range) (content : List ℕ) :
    Numbered (queued ++ [(tx.prepareXmit content).2]) := by
  intro i p hp
  rcases Nat.lt_or_ge i queued.length with hi | hi
  · rw [getElem?_append_left hi] at hp
    exact hnum i p hp
  rw [getElem?_append_right hi, getElem?_singleton] at hp
  split_ifs at hp
  cases hp
  refine ⟨?_, h.flags⟩
  change tx.seq = i + 1
  rw [h.seq, Nat.mod_eq_of_lt hfew]
  omega

theorem Sends.send {buf : Icpkthdr} {rest : List Icpkthdr} (h : Sends depth base queued received tx)
    (hqueue : tx.sndQueue = buf :: rest) (hbuf : queued[tx.sentSeq]? = some buf)
    (hseq : buf.seq = tx.sentSeq + 1) (hroom : 0 < tx.capacity) :
    Sends depth base queued received { tx with
      sndQueue := rest
      capacity := tx.capacity - 1
      unackQueue := tx.unackQueue ++ [buf]
      sentSeq := buf.seq } := by
  have hdrop : queued.drop tx.sentSeq = buf :: rest := h.sndQueue.symm.trans hqueue
  have hlt : tx.sentSeq < queued.length := (List.getElem?_eq_some_iff.1 hbuf).1
  have hcap := h.capacity
  rw [hseq]
  refine { h with
    sentSeq_le := hlt
    sndQueue := ?_
    capacity := by dsimp only; omega
    unackQueue := ?_
    missing := fun i p hi hp => ?_ }
  · dsimp only
    rw [← drop_drop, hdrop, drop_one, tail_cons]
  · dsimp only
    rw [take_add_one, hbuf]
    exact Sublist.append h.unackQueue (Sublist.refl _)
  · dsimp only at hi ⊢
    rcases Nat.lt_succ_iff_lt_or_eq.1 hi with hi | rfl
    · rcases h.missing i p hi hp with hmem | hsome
      · exact .inl (mem_append_left _ hmem)
      · exact .inr hsome
    · rw [hbuf] at hp
      cases hp
      exact .inl (mem_append_right _ mem_cons_self)

/-- **Sending** takes packets from the send queue as far as there is room at the receiver. -/
theorem sendBuffers_ok (window : ℕ) (h : Sends depth base queued received tx)
    (hnum : Numbered queued) : Sends depth base queued received (tx.sendBuffers window).1 ∧
      tx.sentSeq ≤ (tx.sendBuffers window).1.sentSeq ∧
      ∀ p ∈ (tx.sendBuffers window).2, ∃ i < (tx.sendBuffers window).1.sentSeq,
        queued[i]? = some p := by
  induction window generalizing tx with
  | zero => exact ⟨h, le_rfl, nofun⟩
  | succ window ih =>
    unfold sendBuffers
    cases hqueue : tx.sndQueue with
    | nil => exact ⟨h, le_rfl, nofun⟩
    | cons buf rest =>
      dsimp only
      split
      next hroom =>
        have hbuf : queued[tx.sentSeq]? = some buf := by
          rw [← head?_drop, ← h.sndQueue, hqueue, head?_cons]
        have hseq := (hnum _ _ hbuf).1
        obtain ⟨hsends, hle, hsent⟩ := ih (h.send hqueue hbuf hseq hroom.1)
        have hlt : tx.sentSeq < buf.seq := by omega
        refine ⟨hsends, hlt.le.trans hle, fun p hp => ?_⟩
        rcases mem_cons.1 hp with rfl | hp
        · exact ⟨tx.sentSeq, hlt.trans_le hle, hbuf⟩
        · exact hsent p hp
      · exact ⟨h, le_rfl, nofun⟩

/-- **One acknowledgement**, whatever its kind and age. -/
theorem handleAck_ok (count : DisorderCount) (h : Sends depth base queued received tx)
    (hnum : Numbered queued) (hack : AckTrue received base pkt) :
    Sends depth base queued received (tx.handleAck count pkt).1.conn ∧
      (tx.handleAck count pkt).1.conn.sentSeq = tx.sentSeq ∧
      (∀ p ∈ (tx.handleAck count pkt).1.sent, ∃ i < tx.sentSeq, queued[i]? = some p) ∧
      (tx.handleAck count pkt).1.log = [] := by
  have hpos := h.pos hnum
  obtain ⟨hnak, hstop, hkind⟩ := hack
  unfold handleAck
  rw [if_neg (by simp [hnak])]
  rcases hkind with ⟨hcap, hextra, hseq⟩ | ⟨hcap, hdup, hlt, hextra, hseq⟩ |
    ⟨hcap, hdup, hdis, hseq, hsorted, hlost⟩
  · rw [if_pos hcap]
    split
    next hmore =>
      have hraised : Sends depth base queued received { tx with
          capacity := tx.capacity + (pkt.extraSeq - tx.consumedSeq)
          consumedSeq := pkt.extraSeq } := by
        have hcapacity := h.capacity
        exact { h with capacity := by dsimp only; omega, consumedSeq_le := hextra }
      obtain ⟨htrims, hsent, hlog⟩ := trims_handleRegularAck (hraised.pos hnum) hstop hseq
      refine ⟨hraised.trim hnum htrims, htrims.sentSeq, ?_, hlog⟩
      rw [hsent]
      exact nofun
    · obtain ⟨htrims, hsent, hlog⟩ := @trims_handleRegularAck received tx pkt hpos hstop hseq
      refine ⟨h.trim hnum htrims, htrims.sentSeq, ?_, hlog⟩
      rw [hsent]
      exact nofun
  · rw [if_neg (by simp [hcap]), if_pos hdup]
    obtain ⟨htrims, hsent, hlog⟩ := @trims_handleAckForDuplicatePkt received tx pkt hpos hlt hextra
      hseq
    refine ⟨h.trim hnum htrims, htrims.sentSeq, ?_, hlog⟩
    rw [hsent]
    exact nofun
  · rw [if_neg (by simp [hcap]), if_neg (by simp [hdup]), if_pos hdis]
    unfold handleAckForDisorderPkt
    split
    · exact ⟨h, rfl, nofun, rfl⟩
    split
    · exact ⟨h, rfl, nofun, rfl⟩
    obtain ⟨htrims, hsent, hlog⟩ := @disorderLoop_ok received pkt { conn := tx } tx.unackQueue []
      pkt.content (h.sorted hnum) hpos hseq hsorted nofun hlost
    refine ⟨h.trim hnum htrims, htrims.sentSeq, fun p hp => ?_, hlog⟩
    rcases hsent p hp with hp | hp
    · cases hp
    · exact h.exists_of_mem hp

/-- **All acknowledgements** that are read, and the buffers sent after each. -/
theorem handleAcks_ok (window : ℕ) {pkts : List Icpkthdr} {result : TxResult}
    {count : DisorderCount} (h : Sends depth base queued received result.conn)
    (hnum : Numbered queued) (hacks : ∀ pkt ∈ pkts, AckTrue received base pkt)
    (hsent : ∀ p ∈ result.sent, ∃ i < result.conn.sentSeq, queued[i]? = some p)
    (hlog : result.log = []) :
    Sends depth base queued received (handleAcks window pkts result count).1.conn ∧
      result.conn.sentSeq ≤ (handleAcks window pkts result count).1.conn.sentSeq ∧
      (∀ p ∈ (handleAcks window pkts result count).1.sent,
        ∃ i < (handleAcks window pkts result count).1.conn.sentSeq, queued[i]? = some p) ∧
      (handleAcks window pkts result count).1.log = [] := by
  induction pkts generalizing result count with
  | nil => exact ⟨h, le_rfl, hsent, hlog⟩
  | cons pkt pkts ih =>
    obtain ⟨hhandled, hsame, hresent, hlog'⟩ := handleAck_ok count h hnum (hacks pkt mem_cons_self)
    have hacks' : ∀ pkt ∈ pkts, AckTrue received base pkt :=
      fun pkt hpkt => hacks pkt (mem_cons_of_mem _ hpkt)
    have hlogs : result.log ++ (result.conn.handleAck count pkt).1.log = [] := by
      rw [hlog, hlog', nil_append]
    unfold handleAcks
    dsimp only
    generalize (result.conn.handleAck count pkt).1 = handled at *
    have hbuffers : ∀ should : Bool, Sends depth base queued received
            (if should then handled.conn.sendBuffers window else (handled.conn, [])).1 ∧
          handled.conn.sentSeq ≤
            (if should then handled.conn.sendBuffers window else (handled.conn, [])).1.sentSeq ∧
          ∀ p ∈ (if should then handled.conn.sendBuffers window else (handled.conn, [])).2,
            ∃ i < (if should then handled.conn.sendBuffers window
              else (handled.conn, [])).1.sentSeq, queued[i]? = some p := by
      intro should
      cases should with
      | true => exact sendBuffers_ok window hhandled hnum
      | false => exact ⟨hhandled, le_rfl, nofun⟩
    obtain ⟨hsends, hle, hnew⟩ := hbuffers (result.shouldSendBuffers || handled.shouldSendBuffers)
    generalize (if (result.shouldSendBuffers || handled.shouldSendBuffers) = true then
      handled.conn.sendBuffers window else (handled.conn, [])) = r at *
    rw [hsame] at hle
    have hall : ∀ p ∈ result.sent ++ handled.sent ++ r.2,
        ∃ i < r.1.sentSeq, queued[i]? = some p := by
      intro p hp
      rcases mem_append.1 hp with hp | hp
      · have hold : ∃ i < result.conn.sentSeq, queued[i]? = some p := by
          rcases mem_append.1 hp with hp | hp
          · exact hsent p hp
          · exact hresent p hp
        obtain ⟨i, hi, hget⟩ := hold
        exact ⟨i, hi.trans_le hle, hget⟩
      · exact hnew p hp
    obtain ⟨hdone, hle', hrest, hnone⟩ := @ih
      { conn := r.1
        sent := result.sent ++ handled.sent ++ r.2
        shouldSendBuffers := result.shouldSendBuffers || handled.shouldSendBuffers
        log := result.log ++ handled.log } (result.conn.handleAck count pkt).2 hsends hacks' hall hlogs
    exact ⟨hdone, hle.trans hle', hrest, hnone⟩

end sends

end Cloudberry.Udp
