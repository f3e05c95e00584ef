/-
# The receiver's queue

What the receiver has got is a partial function `received` on packet numbers (the packet with
sequence number `n` is number `n - 1`), which only grows. The ring is a window on it that starts
at the first packet not consumed yet (`Buffers`). An acknowledgement that was true once stays true
(`AckTrue`), which is why old acknowledgements are harmless.
-/

import Cloudberry.Udp.Interconnect
import Cloudberry.Lib.RingWindow

namespace Cloudberry.Udp

open List Function Option Nat RxConn Flags

/-- `received` grows. -/
def Extends (received received' : ℕ → Option Icpkthdr) : Prop :=
  ∀ i p, received i = some p → received' i = some p

/-- What an acknowledgement says holds: the receiver has all packets up to the number it gives,
and with them, or instead of them, single ones. -/
def AckTrue (received : ℕ → Option Icpkthdr) (consumed : ℕ) (ack : Icpkthdr) : Prop :=
  ack.flags.nak = false ∧ ack.flags.stop = false ∧
  ((ack.flags.capacity = true ∧ ack.extraSeq ≤ consumed ∧
      ∀ i < ack.seq, (received i).isSome = true) ∨
    (ack.flags.capacity = false ∧ ack.flags.duplicate = true ∧ ack.extraSeq < ack.seq ∧
      (∀ i < ack.extraSeq, (received i).isSome = true) ∧
      (received (ack.seq - 1)).isSome = true) ∨
    (ack.flags.capacity = false ∧ ack.flags.duplicate = false ∧ ack.flags.disorder = true ∧
      (received (ack.seq - 1)).isSome = true ∧ ack.content.Pairwise (· < ·) ∧
      ∀ l ∈ ack.content, ∀ n, 0 < n → n < l → n ∉ ack.content → (received (n - 1)).isSome = true))

theorem Extends.isSome {received received' : ℕ → Option Icpkthdr} (h : Extends received received')
    {i : ℕ} (hi : (received i).isSome = true) : (received' i).isSome = true := by
  obtain ⟨p, hp⟩ := isSome_iff_exists.1 hi
  rw [h i p hp, isSome_some]

/-- **Old acknowledgements stay true.** -/
theorem AckTrue.mono {received received' : ℕ → Option Icpkthdr} {consumed consumed' : ℕ}
    {ack : Icpkthdr} (h : AckTrue received consumed ack) (hext : Extends received received')
    (hle : consumed ≤ consumed') : AckTrue received' consumed' ack := by
  obtain ⟨hnak, hstop, hkind⟩ := h
  refine ⟨hnak, hstop, ?_⟩
  rcases hkind with ⟨hcap, hextra, hseq⟩ | ⟨hcap, hdup, hlt, hextra, hseq⟩ |
    ⟨hcap, hdup, hdis, hseq, hsorted, hlost⟩
  · exact .inl ⟨hcap, hextra.trans hle, fun i hi => hext.isSome (hseq i hi)⟩
  · exact .inr (.inl ⟨hcap, hdup, hlt, fun i hi => hext.isSome (hextra i hi), hext.isSome hseq⟩)
  · exact .inr (.inr ⟨hcap, hdup, hdis, hext.isSome hseq, hsorted,
      fun l hl n hn hnl hnot => hext.isSome (hlost l hl n hn hnl hnot)⟩)

theorem subUint32_of_le {a b : ℕ} (hle : b ≤ a) (ha : a < uint32Range) : subUint32 a b = a - b := by
  unfold subUint32
  rw [mod_eq_of_lt (hle.trans_lt ha), show a + uint32Range - b = a - b + uint32Range by omega,
    add_mod_right, mod_eq_of_lt (by omega)]

/-- The ring of the receiver shows what it has received; the first `base` packets are consumed. -/
structure Buffers (depth base : ℕ) (received : ℕ → Option Icpkthdr) (conn : RxConn) : Prop where
  capacity : conn.pktQCapacity = depth
  shows : RingWindow.Shows conn.pktQ depth base received
  beyond : ∀ i, base + depth ≤ i → received i = none
  size_le : conn.pktQSize ≤ depth
  seq : conn.seq = base + conn.pktQSize + 1
  extraSeq : conn.extraSeq = base
  head : conn.pktQHead = base % depth
  tail : conn.pktQTail = (base + conn.pktQSize) % depth
  contiguous : ∀ i < base + conn.pktQSize, (received i).isSome = true
  stopRequested : conn.stopRequested = false
  stillActive : conn.stillActive = true
  flags : conn.flags.nak = false ∧ conn.flags.stop = false ∧ conn.flags.capacity = false ∧
    conn.flags.duplicate = false

section receiver

variable {depth base N : ℕ} {received : ℕ → Option Icpkthdr} {conn : RxConn} {pkt : Icpkthdr}

theorem buffers_init (depth : ℕ) : Buffers depth 0 (fun _ => none) (.init depth) where
  capacity := rfl
  shows := fun _ _ _ => rfl
  beyond := fun _ _ => rfl
  size_le := zero_le _
  seq := rfl
  extraSeq := rfl
  head := (zero_mod _).symm
  tail := (zero_mod _).symm
  contiguous := fun i hi => absurd hi (not_lt_zero i)
  stopRequested := rfl
  stillActive := rfl
  flags := ⟨rfl, rfl, rfl, rfl⟩

theorem le_of_contiguous {n : ℕ} (h : ∀ i < n, (received i).isSome = true)
    (hN : ∀ i, (received i).isSome = true → i < N) : n ≤ N := by
  cases n with
  | zero => exact zero_le _
  | succ n => exact hN n (h n (lt_succ_self n))

/-- **Moving the tail** takes in all packets up to the next hole. -/
theorem moveTail_ok {turns : ℕ} (h : Buffers depth base received conn)
    (hN : ∀ i, (received i).isSome = true → i < N) (hN' : N + 1 < uint32Range)
    (hturns : depth - conn.pktQSize ≤ turns) : Buffers depth base received (conn.moveTail turns) ∧
      received (base + (conn.moveTail turns).pktQSize) = none ∧
      conn.pktQSize ≤ (conn.moveTail turns).pktQSize := by
  -- a full queue has no room behind it
  have hfull : conn.pktQSize = depth → received (base + conn.pktQSize) = none :=
    fun heq => h.beyond _ (by omega)
  induction turns generalizing conn with
  | zero =>
    have hsize := h.size_le
    exact ⟨h, hfull (by omega), le_rfl⟩
  | succ turns ih =>
    unfold moveTail
    have hsize := h.size_le
    by_cases hroom : conn.pktQSize < depth
    · have hslot : conn.pktQ conn.pktQTail = received (base + conn.pktQSize) := by
        rw [h.tail]
        exact h.shows _ (by omega) (by omega)
      by_cases hsome : (received (base + conn.pktQSize)).isSome = true
      · rw [if_pos ⟨by rw [hslot]; exact hsome, by rw [h.capacity]; exact hroom⟩]
        have hlt := hN _ hsome
        have hmoved : Buffers depth base received { conn with
            pktQSize := conn.pktQSize + 1
            pktQTail := (conn.pktQTail + 1) % conn.pktQCapacity
            seq := (conn.seq + 1) % uint32Range } :=
          { h with
            size_le := hroom
            seq := by
              dsimp only
              rw [h.seq, mod_eq_of_lt (by omega)]
              omega
            tail := by
              rw [h.tail, h.capacity, mod_add_mod, add_assoc]
            contiguous := fun i hi => by
              dsimp only at hi
              rcases lt_or_ge i (base + conn.pktQSize) with hlt | _
              · exact h.contiguous i hlt
              · rw [show i = base + conn.pktQSize by omega]
                exact hsome }
        obtain ⟨hbuffers, hhole, hle⟩ := ih hmoved (by dsimp only; omega)
          fun heq => h.beyond _ (by dsimp only at heq ⊢; omega)
        exact ⟨hbuffers, hhole, (le_succ _).trans hle⟩
      · rw [if_neg fun hcond => hsome (hslot ▸ hcond.1)]
        exact ⟨h, by simpa using hsome, le_rfl⟩
    · rw [if_neg fun hcond => hroom (h.capacity ▸ hcond.2)]
      exact ⟨h, hfull (by omega), le_rfl⟩

/-- **The lost packets of a disorder message**: ascending, and every packet before one of them
that is not among them has been received. -/
theorem lostSeqs_ok {turns maxSeqs t p : ℕ} (h : RingWindow.Shows conn.pktQ depth base received)
    (hcap : conn.pktQCapacity = depth) (ht : base ≤ t) (htp : t ≤ p) (hp : p < base + depth)
    (hp' : p + 1 < uint32Range) (hturns : p - t ≤ turns) :
    (conn.lostSeqs (p % depth) turns maxSeqs (t % depth) (t + 1)).Pairwise (· < ·) ∧
      (∀ l ∈ conn.lostSeqs (p % depth) turns maxSeqs (t % depth) (t + 1), t < l) ∧
      ∀ l ∈ conn.lostSeqs (p % depth) turns maxSeqs (t % depth) (t + 1), ∀ n, t < n → n < l →
        n ∉ conn.lostSeqs (p % depth) turns maxSeqs (t % depth) (t + 1) →
        (received (n - 1)).isSome = true := by
  induction turns generalizing t maxSeqs with
  | zero => simp [lostSeqs]
  | succ turns ih =>
    unfold lostSeqs
    by_cases hcond : t % depth ≠ p % depth ∧ 0 < maxSeqs
    · have hlt : t < p := by
        refine lt_of_le_of_ne htp fun heq => hcond.1 ?_
        rw [heq]
      have hnext : (t % depth + 1) % conn.pktQCapacity = (t + 1) % depth := by
        rw [hcap, mod_add_mod]
      have hnextSeq : (t + 1 + 1) % uint32Range = t + 1 + 1 := mod_eq_of_lt (by omega)
      have hslot : conn.pktQ (t % depth) = received t := h t ht (by omega)
      rw [hnext, hnextSeq, hslot]
      split_ifs with hhole
      · obtain ⟨hsorted, hlower, hbetween⟩ :=
          @ih (maxSeqs - 1) (t + 1) (by omega) (by omega) (by omega)
        refine ⟨pairwise_cons.2 ⟨hlower, hsorted⟩, fun l hl => ?_, fun l hl n hn hnl hnot => ?_⟩
        · rcases mem_cons.1 hl with rfl | hl
          · exact lt_succ_self t
          · exact (lt_succ_self t).trans (hlower l hl)
        · simp only [mem_cons, not_or] at hnot
          rcases mem_cons.1 hl with rfl | hl
          · omega
          · exact hbetween l hl n (by omega) hnl hnot.2
      · obtain ⟨hsorted, hlower, hbetween⟩ := @ih maxSeqs (t + 1) (by omega) (by omega) (by omega)
        refine ⟨hsorted, fun l hl => (lt_succ_self t).trans (hlower l hl),
          fun l hl n hn hnl hnot => ?_⟩
        by_cases hnt : n = t + 1
        · rw [hnt, Nat.add_sub_cancel]
          exact isSome_iff_ne_none.2 (by simpa using hhole)
        · exact hbetween l hl n (by omega) hnl hnot
    · rw [if_neg hcond]
      simp

section

variable (h : Buffers depth base received conn)
include h

/-- The number in an acknowledgement: all packets up to it have been received. -/
theorem Buffers.sub_one (hN : ∀ i, (received i).isSome = true → i < N) (hN' : N + 1 < uint32Range) :
    subUint32 conn.seq 1 = base + conn.pktQSize := by
  have hle := le_of_contiguous h.contiguous hN
  rw [h.seq, subUint32_of_le (by omega) (by omega)]
  omega

theorem regular_ackTrue {flags : Flags} {seq extraSeq : ℕ} (hack : flags.capacity = true)
    (hnak : flags.nak = false) (hstop : flags.stop = false) (hseq : seq ≤ base + conn.pktQSize)
    (hextra : extraSeq ≤ base) : AckTrue received base (conn.sendAck flags seq extraSeq) := by
  refine ⟨?_, ?_, .inl ⟨?_, hextra, fun i hi => h.contiguous i (hi.trans_le hseq)⟩⟩
  · simp [sendAck, union, hnak, h.flags.1]
  · simp [sendAck, union, hstop, h.flags.2.1]
  · simp [sendAck, union, hack]

theorem Buffers.setEos : Buffers depth base received conn.setEos := by
  unfold RxConn.setEos
  split
  · split
    · obtain ⟨hnak, hstop, hcap, hdup⟩ := h.flags
      exact { h with flags := by simp [union, hnak, hstop, hcap, hdup] }
    · exact h
  · exact h

end

theorem setEos_pktQSize (conn : RxConn) : conn.setEos.pktQSize = conn.pktQSize := by
  unfold setEos
  split
  · split <;> rfl
  · rfl

/-- What a packet that arrives leaves behind: the receiver has it now, and its answer is true. -/
structure Receives (depth base : ℕ) (received : ℕ → Option Icpkthdr) (pkt : Icpkthdr)
    (result : RxResult) (received' : ℕ → Option Icpkthdr) : Prop where
  grows : Extends received received'
  only : ∀ i p, received' i = some p → received i = some p ∨ (i + 1 = pkt.seq ∧ p = pkt)
  buffers : Buffers depth base received' result.conn
  hole : received' (base + result.conn.pktQSize) = none
  log : result.log = []
  acks : ∀ ack ∈ result.acks, AckTrue received' base ack

section

variable (h : Buffers depth base received conn)
include h

variable (pkt) in
theorem statusQuery_answer (hempty : pkt.content = []) (hcap : pkt.flags.capacity = true) :
    ∃ ack, conn.handleDataPacket pkt = { conn := conn, acks := [ack] } ∧
      ack.flags.capacity = true ∧ ack.extraSeq = base ∧ AckTrue received base ack := by
  unfold handleDataPacket
  rw [if_pos ⟨hempty, hcap⟩]
  dsimp only
  rw [if_pos (by rw [h.seq]; omega), if_neg (by simp [h.stopRequested])]
  refine ⟨_, rfl, by simp [sendAck, union], h.extraSeq, ?_⟩
  exact regular_ackTrue h rfl rfl rfl (by rw [h.seq]; omega) h.extraSeq.le

theorem statusQuery_ok (hhole : received (base + conn.pktQSize) = none) (hempty : pkt.content = [])
    (hcap : pkt.flags.capacity = true) :
    Receives depth base received pkt (conn.handleDataPacket pkt) received := by
  obtain ⟨_, hanswer, -, -, htrue⟩ := statusQuery_answer _ h hempty hcap
  rw [hanswer]
  exact ⟨fun _ _ hp => hp, fun _ _ hp => .inl hp, h, hhole, rfl, forall_mem_singleton.2 htrue⟩

theorem Buffers.put (hlow : base ≤ pkt.seq - 1) (hhigh : pkt.seq - 1 < base + depth)
    (hnew : received (pkt.seq - 1) = none) :
    Buffers depth base (update received (pkt.seq - 1) (some pkt))
        { conn with pktQ := update conn.pktQ ((pkt.seq - 1) % depth) (some pkt) } ∧
      Extends received (update received (pkt.seq - 1) (some pkt)) := by
  have hgrows : Extends received (update received (pkt.seq - 1) (some pkt)) := by
    intro i p hp
    have hne : i ≠ pkt.seq - 1 := by
      rintro rfl
      rw [hnew] at hp
      cases hp
    rw [update_of_ne hne, hp]
  refine ⟨{ h with
    shows := h.shows.put hlow hhigh (some pkt)
    beyond := fun i hi => ?_
    contiguous := fun i hi => hgrows.isSome (h.contiguous i hi) }, hgrows⟩
  rw [update_of_ne (by omega)]
  exact h.beyond i hi

/-- A packet out of order is answered with the holes before it. -/
theorem disorder_ackTrue (hroom : base + conn.pktQSize ≤ pkt.seq - 1)
    (hhigh : pkt.seq - 1 < base + depth) (hpos : 0 < pkt.seq) (hpkt : pkt.seq < uint32Range)
    (hhere : (received (pkt.seq - 1)).isSome = true) :
    AckTrue received base (conn.handleDisorderPacket ((pkt.seq - 1) % depth)
      (base + conn.pktQSize + 1) pkt) := by
  obtain ⟨hnak, hstop, hcap, hdup⟩ := h.flags
  have hlost := @lostSeqs_ok depth base received conn depth maxSeqsInDisorderAck
    (base + conn.pktQSize) (pkt.seq - 1) h.shows h.capacity (by omega) hroom hhigh (by omega)
    (by omega)
  rw [← h.tail] at hlost
  obtain ⟨hsorted, -, hbetween⟩ := hlost
  unfold handleDisorderPacket
  rw [h.capacity]
  refine ⟨by simp [union, hnak], by simp [union, hstop],
    .inr (.inr ⟨by simp [union, hcap], by simp [union, hdup], by simp [union],
      hhere, hsorted, fun l hl n hn hnl hnot => ?_⟩)⟩
  rcases lt_or_ge (base + conn.pktQSize) n with hlt | _
  · exact hbetween l hl n hlt hnl hnot
  · exact h.contiguous (n - 1) (by omega)

section

variable (hhole : received (base + conn.pktQSize) = none)
  (hN : ∀ i, (received i).isSome = true → i < N) (hN' : N + 1 < uint32Range)
include hhole hN hN'

/-- **A data packet that arrives** is taken into the queue, or answered as a duplicate; the queue is
never too full for it. -/
theorem handleDataPacket_ok (hpos : 0 < pkt.seq) (hpkt : pkt.seq ≤ N)
    (hwindow : pkt.seq ≤ base + depth) (hcap : pkt.flags.capacity = false)
    (hstop : pkt.flags.stop = false) :
    ∃ received', Receives depth base received pkt (conn.handleDataPacket pkt) received' := by
  obtain rfl := h.capacity
  have hcontiguous := le_of_contiguous h.contiguous hN
  have hseq := h.seq
  have hsize := h.size_le
  have hack := h.sub_one hN hN'
  unfold handleDataPacket
  rw [if_neg (by simp [hcap]), if_neg (by simp [hstop]), if_neg (by simp [h.stopRequested])]
  by_cases hold : pkt.seq < conn.seq
  · rw [if_pos hold, hack]
    refine ⟨received, fun _ _ hp => hp, fun _ _ hp => .inl hp, h, hhole, rfl, fun ack hmem => ?_⟩
    rw [mem_singleton.1 hmem]
    exact regular_ackTrue h rfl rfl rfl le_rfl h.extraSeq.le
  rw [if_neg hold, if_neg (by simp [h.stillActive])]
  have hhead : subUint32 conn.seq conn.pktQSize = base + 1 := by
    rw [subUint32_of_le (by omega) (by omega)]
    omega
  have hoffset : subUint32 pkt.seq (base + 1) = pkt.seq - (base + 1) :=
    subUint32_of_le (by omega) (by omega)
  have hplace : subUint32 pkt.seq 1 = pkt.seq - 1 := subUint32_of_le (by omega) (by omega)
  dsimp only
  rw [hhead, hoffset, hplace, if_neg (by omega)]
  have hlow : base ≤ pkt.seq - 1 := by omega
  have hhigh : pkt.seq - 1 < base + conn.pktQCapacity := by omega
  have hslot : conn.pktQ ((pkt.seq - 1) % conn.pktQCapacity) = received (pkt.seq - 1) := h.shows _ hlow hhigh
  rw [hslot]
  split
  next hnew =>
    have hnone : received (pkt.seq - 1) = none := isNone_iff_eq_none.1 hnew
    obtain ⟨hbuffers, hgrows⟩ := h.put hlow hhigh hnone
    have honly : ∀ i p, update received (pkt.seq - 1) (some pkt) i = some p →
        received i = some p ∨ (i + 1 = pkt.seq ∧ p = pkt) := by
      intro i p hp
      by_cases hi : i = pkt.seq - 1
      · rw [hi, update_self] at hp
        exact .inr ⟨by omega, (Option.some.inj hp).symm⟩
      · rw [update_of_ne hi] at hp
        exact .inl hp
    have hN₁ : ∀ i, (update received (pkt.seq - 1) (some pkt) i).isSome = true → i < N := by
      intro i hi
      obtain ⟨p, hp⟩ := isSome_iff_exists.1 hi
      rcases honly i p hp with hp | ⟨hi, -⟩
      · exact hN i (by rw [hp, isSome_some])
      · omega
    refine ⟨update received (pkt.seq - 1) (some pkt), ?_⟩
    split_ifs with htail
    · obtain ⟨hmoved, hhole', -⟩ := moveTail_ok hbuffers hN₁ hN' le_rfl
      have hmoved' := hmoved.setEos
      refine ⟨hgrows, honly, hmoved', ?_, rfl, fun ack hmem => ?_⟩
      · rw [setEos_pktQSize]
        exact hhole'
      · rw [mem_singleton.1 hmem]
        exact regular_ackTrue hmoved' rfl rfl rfl (hmoved'.sub_one hN₁ hN').le hmoved'.extraSeq.le
    · have hne : base + conn.pktQSize ≠ pkt.seq - 1 := by
        intro heq
        rw [← heq, ← h.tail] at htail
        exact htail rfl
      have htailSeq : (base + 1 + conn.pktQSize) % uint32Range = base + conn.pktQSize + 1 := by
        rw [mod_eq_of_lt (by omega)]
        omega
      refine ⟨hgrows, honly, hbuffers, ?_, rfl, fun ack hmem => ?_⟩
      · rw [update_of_ne hne]
        exact hhole
      · rw [mem_singleton.1 hmem, htailSeq]
        refine disorder_ackTrue hbuffers (by dsimp only; omega) hhigh hpos (by omega) ?_
        rw [update_self, isSome_some]
  next hnew =>
    rw [hack]
    have hdup : (received (pkt.seq - 1)).isSome = true := isSome_iff_ne_none.2 (by simpa using hnew)
    refine ⟨received, fun _ _ hp => hp, fun _ _ hp => .inl hp, h, hhole, rfl, fun ack hmem => ?_⟩
    rw [mem_singleton.1 hmem]
    obtain ⟨hnak', hstop', hcap', _⟩ := h.flags
    refine ⟨by simp [sendAck, union, hnak'],
      by simp [sendAck, union, hstop'], .inr (.inl ⟨?_, ?_, ?_, h.contiguous, hdup⟩)⟩
    · simp [sendAck, union, hcap']
    · simp [sendAck, union]
    · change base + conn.pktQSize < pkt.seq
      omega

/-- **The consumer takes the head packet**, which is the first one it has not taken yet. -/
theorem putRxBufferAndSendAck_ok {buf : Icpkthdr} {result : RxResult} (hdepth : 0 < depth)
    (hnumber : ∀ i p, received i = some p → p.seq = i + 1)
    (htake : conn.putRxBufferAndSendAck = .ok (buf, result)) :
    received base = some buf ∧ Buffers depth (base + 1) received result.conn ∧
      received (base + 1 + result.conn.pktQSize) = none ∧
      ∀ ack ∈ result.acks, AckTrue received (base + 1) ack := by
  have hhead : conn.pktQ conn.pktQHead = received base := by
    rw [h.head]
    exact h.shows base le_rfl (by omega)
  unfold putRxBufferAndSendAck at htake
  rw [hhead] at htake
  cases hbase : received base with
  | none =>
    rw [hbase] at htake
    cases htake
  | some head =>
    rw [hbase] at htake
    obtain ⟨rfl, rfl⟩ := Prod.mk.inj (Except.ok.inj htake)
    have hseq := hnumber base head hbase
    have hpos : 0 < conn.pktQSize := by
      refine Nat.pos_of_ne_zero fun hzero => ?_
      rw [hzero, Nat.add_zero, hbase] at hhole
      cases hhole
    have hsize := h.size_le
    have hbuffers : Buffers depth (base + 1) received { conn with
        pktQ := update conn.pktQ conn.pktQHead none
        pktQHead := (conn.pktQHead + 1) % conn.pktQCapacity
        pktQSize := conn.pktQSize - 1
        extraSeq := head.seq } :=
      { h with
        shows := by
          rw [h.head]
          exact h.shows.pop (h.beyond _ le_rfl)
        beyond := fun i hi => h.beyond i (by omega)
        size_le := by dsimp only; omega
        seq := by
          dsimp only
          rw [h.seq]
          omega
        extraSeq := hseq
        head := by
          rw [h.head, h.capacity, mod_add_mod]
        tail := by
          dsimp only
          rw [h.tail]
          congr 1
          omega
        contiguous := fun i hi => h.contiguous i (by dsimp only at hi; omega) }
    refine ⟨rfl, hbuffers, ?_, fun ack hmem => ?_⟩
    · dsimp only
      rw [show base + 1 + (conn.pktQSize - 1) = base + conn.pktQSize by omega]
      exact hhole
    · dsimp only at hmem
      split at hmem
      · rw [mem_singleton.1 hmem]
        exact regular_ackTrue hbuffers rfl rfl rfl (hbuffers.sub_one hN hN').le hseq.le
      · cases hmem

end

end

end receiver

end Cloudberry.Udp
