/-
# What a client does with its packets

The calls of a client are sorted by what they do to the packets that arrive for it: most calls
keep its pipe, its cache and whether it still takes packets (`Keeps`). A client that starts takes
from its cache the packets up to the next BYE (`handleP2cCacheLoop_serves`), and the loop ends
unless a packet of a later session or command is put back again and again
(`handleP2cCache_ends_iff`).
-/

import Cloudberry.Proxy.FlowControl
import Cloudberry.Lib.Segments

namespace Cloudberry.Proxy

open Segments List Option ICProxyClient ICProxyPkt

/-- The BYE messages separate the streams of a key's clients. -/
def ICProxyPkt.isBye (pkt : ICProxyPkt) : Bool := pkt.type = .bye

/-- The packets a client gets from the other side, apart from the acknowledgements. -/
def ICProxyPkt.inStream (pkt : ICProxyPkt) : Bool := pkt.type = .data || pkt.type = .bye

/-- The pipe is shut down before the client closes. -/
def ShutInOrder (client : ICProxyClient) : Prop :=
  (client.p2cShutted = true → client.p2cShutting = true) ∧
    (client.closing = true → client.p2cShutted = true)

/-- The client after a call is still the same one in the table. -/
structure Follows (client client' : ICProxyClient) : Prop where
  key : client'.key = client.key
  registered : client'.registered = client.registered
  placeholder : client'.placeholder = client.placeholder
  successor : client'.successor = client.successor
  shut : ShutInOrder client → ShutInOrder client'

/-- A call that has nothing to do with the packets from the other side. -/
structure Keeps (client client' : ICProxyClient) : Prop extends Follows client client' where
  pipe : client'.pipe = client.pipe
  p2cShutting : client'.p2cShutting = client.p2cShutting
  pkts : client'.pkts = client.pkts

section calls

variable {client client' client'' : ICProxyClient}

theorem Follows.trans (h : Follows client client') (h' : Follows client' client'') :
    Follows client client'' where
  key := h'.key.trans h.key
  registered := h'.registered.trans h.registered
  placeholder := h'.placeholder.trans h.placeholder
  successor := h'.successor.trans h.successor
  shut := fun hshut => h'.shut (h.shut hshut)

theorem Follows.of_pkts {pkts : List ICProxyPkt}
    (h : Follows { client with pkts := pkts } client') : Follows client client' :=
  ⟨h.key, h.registered, h.placeholder, h.successor, h.shut⟩

theorem Keeps.trans (h : Keeps client client') (h' : Keeps client' client'') :
    Keeps client client'' where
  toFollows := h.toFollows.trans h'.toFollows
  pipe := h'.pipe.trans h.pipe
  p2cShutting := h'.p2cShutting.trans h.p2cShutting
  pkts := h'.pkts.trans h.pkts

theorem Keeps.refl (client : ICProxyClient) : Keeps client client :=
  ⟨⟨rfl, rfl, rfl, rfl, id⟩, rfl, rfl, rfl⟩

theorem keeps_with (client : ICProxyClient) {c2pShutting c2pShutted paused reading : Bool}
    {sending unackSendPkt unackRecvPkt : ℤ} {obuf : List Byte} {pipeDone : ℕ}
    {routed : List ICProxyPkt} {unsent : List ICProxyMessageType} : Keeps client { client with
      c2pShutting, c2pShutted, paused, reading, sending, unackSendPkt, unackRecvPkt, obuf,
      pipeDone, routed, unsent } :=
  ⟨⟨rfl, rfl, rfl, rfl, id⟩, rfl, rfl, rfl⟩

theorem keeps_maybeClose (client : ICProxyClient) : Keeps client client.maybeClose := by
  unfold maybeClose
  split
  next hclose => exact ⟨⟨rfl, rfl, rfl, rfl, fun h => ⟨h.1, fun _ => hclose.2.2⟩⟩, rfl, rfl, rfl⟩
  · exact .refl _

theorem keeps_routeMessage (client : ICProxyClient) (type : ICProxyMessageType) :
    Keeps client (client.routeMessage type) :=
  keeps_with client

theorem keeps_shutdownC2p (hreg : client.registered = true) : Keeps client client.shutdownC2p := by
  unfold shutdownC2p
  split
  · exact keeps_maybeClose client
  · rw [if_pos hreg]
    exact (keeps_with client).trans (keeps_routeMessage _ _)

theorem keeps_onSentC2pBye (unsent : List ICProxyMessageType) :
    Keeps client (onSentC2pBye { client with unsent := unsent }) :=
  (keeps_with client).trans (keeps_maybeClose _)

theorem keeps_onSentC2pResume (unsent : List ICProxyMessageType) :
    Keeps client (onSentC2pResume { client with unsent := unsent }) :=
  (keeps_with client).trans (keeps_maybeClose _)

theorem keeps_onShutdownP2c (hshut : client.p2cShutting = true) :
    Keeps client client.onShutdownP2c := by
  have hshutted : Keeps client { client with p2cShutted := true } :=
    ⟨⟨rfl, rfl, rfl, rfl, fun _ => ⟨fun _ => hshut, fun _ => rfl⟩⟩, rfl, rfl, rfl⟩
  exact hshutted.trans (keeps_maybeClose _)

theorem keeps_maybeSendAckMessage (client : ICProxyClient) :
    Keeps client client.maybeSendAckMessage := by
  unfold maybeSendAckMessage
  split
  · exact (keeps_with client).trans (keeps_routeMessage _ _)
  · exact .refl _

theorem keeps_onSentP2cData (hreg : client.registered = true) (ok : Bool) :
    Keeps client (client.onSentP2cData ok) := by
  have hfail : Keeps client (if ok then client else client.shutdownC2p) := by
    split
    · exact .refl _
    · exact keeps_shutdownC2p hreg
  exact hfail.trans ((keeps_with _).trans (keeps_maybeSendAckMessage _))

theorem keeps_maybePause (client : ICProxyClient) : Keeps client client.maybePause := by
  unfold maybePause
  split
  · exact keeps_with client
  · exact .refl _

theorem keeps_maybeResume (client : ICProxyClient) : Keeps client client.maybeResume := by
  unfold maybeResume
  split
  · exact keeps_with client
  · exact .refl _

theorem closing_maybeResume (client : ICProxyClient) :
    client.maybeResume.closing = client.closing := by
  unfold maybeResume
  split <;> rfl

variable {gpMaxPacketSize : ℕ}

theorem keeps_obufPush {data : List Byte}
    (h : client.obufPush gpMaxPacketSize data = .ok client') : Keeps client client' := by
  unfold obufPush at h
  dsimp only at h
  split at h
  · split at h
    · cases h
    split at h
    · cases h
      exact keeps_with client
    · cases h
      exact keeps_with client
  · cases h
    exact keeps_with client

theorem keeps_onC2pDataPkt {data : List Byte}
    (h : client.onC2pDataPkt gpMaxPacketSize data = .ok client') : Keeps client client' :=
  (keeps_with client).trans ((keeps_maybePause _).trans (keeps_obufPush h))

theorem keeps_foldlM_onC2pDataPkt {packets : List (List Byte)}
    (h : packets.foldlM (onC2pDataPkt gpMaxPacketSize) client = .ok client') :
    Keeps client client' := by
  induction packets generalizing client with
  | nil =>
    cases h
    exact .refl _
  | cons data packets ih =>
    rw [foldlM_cons] at h
    cases hdata : client.onC2pDataPkt gpMaxPacketSize data with
    | error msg =>
      rw [hdata] at h
      cases h
    | ok next =>
      rw [hdata] at h
      exact (keeps_onC2pDataPkt hdata).trans (ih h)

theorem keeps_onC2pData {packets : List (List Byte)}
    (h : client.onC2pData gpMaxPacketSize packets = .ok client') : Keeps client client' := by
  unfold onC2pData at h
  split_ifs at h
  exact keeps_foldlM_onC2pDataPkt h

theorem keeps_flushIbuf {ibuf : List Byte}
    (h : client.flushIbuf gpMaxPacketSize ibuf = .ok client') : Keeps client client' := by
  unfold flushIbuf at h
  split at h
  · exact keeps_onC2pDataPkt h
  · cases h
    exact .refl _

theorem keeps_onC2pEof (hreg : client.registered = true) {ibuf : List Byte}
    (h : client.onC2pEof gpMaxPacketSize ibuf = .ok client') : Keeps client client' := by
  unfold onC2pEof at h
  cases hflush : client.flushIbuf gpMaxPacketSize ibuf with
  | error msg =>
    rw [hflush] at h
    cases h
  | ok flushed =>
    rw [hflush] at h
    cases hpush : flushed.obufPush gpMaxPacketSize [] with
    | error msg =>
      simp only [Bind.bind, Except.bind, hpush] at h
      cases h
    | ok pushed =>
      simp only [Bind.bind, Except.bind, hpush] at h
      cases h
      have hkeeps := (keeps_flushIbuf hflush).trans (keeps_obufPush hpush)
      have hstop : Keeps client { pushed with reading := false } := hkeeps.trans (keeps_with pushed)
      exact hstop.trans (keeps_shutdownC2p (hstop.registered.trans hreg))

theorem follows_shutdownP2c (client : ICProxyClient) : Follows client client.shutdownP2c := by
  unfold shutdownP2c
  split
  · exact (keeps_maybeClose client).toFollows
  · exact ⟨rfl, rfl, rfl, rfl, fun h => ⟨fun _ => rfl, h.2⟩⟩

end calls

/-! ### Packets that arrive -/

section arrive

variable {client : ICProxyClient} {pkt : ICProxyPkt}

section

variable (h : Proper client.key pkt)
include h

theorem Proper.isLive : pkt.isLive client.key = true := by
  simp [ICProxyPkt.isLive, h.sessionId, h.commandId]

theorem Proper.onP2cData (hplace : client.placeholder = false) : client.onP2cData pkt =
      if pkt.type = .data then
        if client.p2cShutting then .ok (client.cacheP2cPkt pkt)
        else .ok { client with sending := client.sending + 1, pipe := client.pipe ++ [pkt] }
      else client.onP2cMessage pkt := by
  unfold ICProxyClient.onP2cData
  rw [if_neg (by simp [h.valid]), if_neg (by simp [hplace]),
    if_neg (show ¬¬ pkt.isLive client.key = true by simp [h.isLive])]

theorem Proper.onP2cData_placeholder (hplace : client.placeholder = true) :
    client.onP2cData pkt = .ok (client.cacheP2cPkt pkt) := by
  unfold ICProxyClient.onP2cData
  rw [if_neg (by simp [h.valid]), if_pos hplace]

theorem Proper.onP2cData_bye (hplace : client.placeholder = false) (htype : pkt.type = .bye) :
    client.onP2cData pkt = .ok client.maybeResume.shutdownP2c := by
  rw [h.onP2cData hplace, if_neg (by simp [htype]), onP2cMessage, htype]

theorem Proper.onP2cData_dataAck (hplace : client.placeholder = false)
    (htype : pkt.type = .dataAck) :
    ∃ client', client.onP2cData pkt = .ok client' ∧ Keeps client client' ∧
      client'.closing = client.closing := by
  rw [h.onP2cData hplace, if_neg (by simp [htype]), onP2cMessage, htype]
  exact ⟨_, rfl, (keeps_with client).trans (keeps_maybeResume _), closing_maybeResume _⟩

end

theorem shutdownP2c_open (hshut : client.p2cShutting = false) :
    Follows client client.maybeResume.shutdownP2c ∧
      client.maybeResume.shutdownP2c.pipe = client.pipe ∧
      client.maybeResume.shutdownP2c.p2cShutting = true ∧
      client.maybeResume.shutdownP2c.pkts = client.pkts ∧
      client.maybeResume.shutdownP2c.closing = client.closing := by
  have hkeeps := keeps_maybeResume client
  refine ⟨hkeeps.toFollows.trans (follows_shutdownP2c _), ?_⟩
  unfold shutdownP2c
  rw [if_neg (by simp [hkeeps.p2cShutting, hshut])]
  exact ⟨hkeeps.pipe, rfl, hkeeps.pkts, closing_maybeResume client⟩

/-- What a client that starts has taken from its cache, and what is left there. -/
structure Serves (client client' : ICProxyClient) : Prop extends Follows client client' where
  pipe : client'.pipe = client.pipe ++ segment isBye 0 (client.pkts.filter (·.inStream))
  p2cShutting : client'.p2cShutting = decide (0 < (client.pkts.filter (·.inStream)).countP isBye)
  pkts : client'.pkts.filter (·.inStream) = afterSeps isBye 1 (client.pkts.filter (·.inStream))
  closing : client'.closing = client.closing
  subset : client'.pkts ⊆ client.pkts

variable {client' next : ICProxyClient} {pkts : List ICProxyPkt}

theorem Serves.of_nil (hcache : client.pkts = []) (hshut : client.p2cShutting = false) :
    Serves client client where
  toFollows := ⟨rfl, rfl, rfl, rfl, id⟩
  pipe := by simp [hcache, Segments.segment, afterSeps]
  p2cShutting := by simp [hcache, hshut]
  pkts := by simp [hcache, afterSeps]
  closing := rfl
  subset := List.Subset.refl _

section

variable (hcache : client.pkts = pkt :: pkts)
include hcache

theorem Serves.of_data (htype : pkt.type = .data) (h : Serves { client with
      pkts := pkts, sending := client.sending + 1, pipe := client.pipe ++ [pkt] } client') :
    Serves client client' := by
  have hin : pkt.inStream = true := by simp [inStream, htype]
  have hbye : pkt.isBye = false := by simp [isBye, htype]
  have hsub := h.subset
  refine ⟨⟨h.key, h.registered, h.placeholder, h.successor, h.shut⟩, ?_, ?_, ?_, h.closing, ?_⟩
  · rw [h.pipe]
    simp [hcache, hin, Segments.segment, afterSeps, hbye]
  · rw [h.p2cShutting]
    simp [hcache, hin, hbye]
  · rw [h.pkts]
    simp [hcache, hin, afterSeps, hbye]
  · rw [hcache]
    exact subset_cons_of_subset _ hsub

theorem Serves.of_dataAck (htype : pkt.type = .dataAck)
    (hkeeps : Keeps { client with pkts := pkts } next) (hclosing : next.closing = client.closing)
    (h : Serves next client') : Serves client client' := by
  have hin : pkt.inStream = false := by simp [inStream, htype]
  have hnext : next.pkts = pkts := hkeeps.pkts
  have hfilter : client.pkts.filter (·.inStream) = next.pkts.filter (·.inStream) := by
    simp [hcache, hin, hnext]
  have hfollows := hkeeps.toFollows.trans h.toFollows
  have hsub := h.subset
  refine ⟨hfollows.of_pkts, ?_, ?_, ?_, h.closing.trans hclosing, ?_⟩
  · rw [h.pipe, hkeeps.pipe, hfilter]
  · rw [h.p2cShutting, hfilter]
  · rw [h.pkts, hfilter]
  · rw [hcache]
    rw [hnext] at hsub
    exact subset_cons_of_subset _ hsub

theorem Serves.of_bye (htype : pkt.type = .bye) (hshut : client.p2cShutting = false) :
    Serves client (maybeResume { client with pkts := pkts }).shutdownP2c := by
  have hin : pkt.inStream = true := by simp [inStream, htype]
  have hbye : pkt.isBye = true := by simp [isBye, htype]
  have hopen : ICProxyClient.p2cShutting { client with pkts := pkts } = false := hshut
  obtain ⟨hfollows, hpipe, hshutting, hpkts, hclosing⟩ := shutdownP2c_open hopen
  refine ⟨hfollows.of_pkts, ?_, ?_, ?_, hclosing, ?_⟩
  · rw [hpipe]
    simp [hcache, hin, Segments.segment, afterSeps, hbye]
  · rw [hshutting]
    simp [hcache, hin, hbye]
  · rw [hpkts]
    simp [hcache, hin, afterSeps, hbye]
  · rw [hpkts, hcache]
    exact subset_cons_self _ _

end

theorem handleP2cCacheLoop_shutting (h : client.p2cShutting = true) (fuel : ℕ) :
    client.handleP2cCacheLoop (fuel + 1) = some (.ok client) := by
  unfold handleP2cCacheLoop
  cases client.pkts with
  | nil => rfl
  | cons pkt pkts => exact if_pos h

theorem handleP2cCacheLoop_cons (hcache : client.pkts = pkt :: pkts)
    (hshut : client.p2cShutting = false) (h : onP2cData { client with pkts := pkts } pkt = .ok next)
    (fuel : ℕ) : client.handleP2cCacheLoop (fuel + 1) = next.handleP2cCacheLoop fuel := by
  rw [handleP2cCacheLoop, hcache]
  dsimp only
  rw [if_neg (by simp [hshut]), h]

/-- **A client that starts takes the packets up to the next BYE**, in as many turns as there are
packets; what comes after the BYE stays in the cache. -/
theorem handleP2cCacheLoop_serves {fuel : ℕ} (hpkts : ∀ pkt ∈ client.pkts, Proper client.key pkt)
    (hplace : client.placeholder = false) (hshut : client.p2cShutting = false)
    (hfuel : client.pkts.length < fuel) :
    ∃ client', client.handleP2cCacheLoop fuel = some (.ok client') ∧ Serves client client' := by
  induction fuel generalizing client with
  | zero => omega
  | succ fuel ih =>
    rcases hcache : client.pkts with _ | ⟨pkt, pkts⟩
    · refine ⟨client, ?_, .of_nil hcache hshut⟩
      rw [handleP2cCacheLoop, hcache]
    have hlen : pkts.length < fuel := by
      rw [hcache] at hfuel
      exact Nat.lt_of_succ_lt_succ hfuel
    have hpkt : Proper client.key pkt := hpkts pkt (hcache ▸ mem_cons_self)
    have hrest : ∀ p ∈ pkts, Proper client.key p :=
      fun p hp => hpkts p (hcache ▸ mem_cons_of_mem _ hp)
    have hproper : Proper (key { client with pkts := pkts }) pkt := hpkt
    rcases hpkt.type with htype | htype | htype
    · have hdata := hproper.onP2cData hplace
      rw [if_pos htype, if_neg (by simp [hshut])] at hdata
      rw [handleP2cCacheLoop_cons hcache hshut hdata]
      obtain ⟨client', hloop, hserves⟩ := @ih { client with
        pkts := pkts, sending := client.sending + 1, pipe := client.pipe ++ [pkt] }
        hrest hplace hshut hlen
      exact ⟨client', hloop, hserves.of_data hcache htype⟩
    · rw [handleP2cCacheLoop_cons hcache hshut (hproper.onP2cData_bye hplace htype)]
      obtain ⟨fuel, rfl⟩ : ∃ n, fuel = n + 1 := ⟨fuel - 1, by omega⟩
      have hserves := Serves.of_bye hcache htype hshut
      refine ⟨_, handleP2cCacheLoop_shutting ?_ fuel, hserves⟩
      rw [hserves.p2cShutting]
      simp [hcache, inStream, isBye, htype]
    · obtain ⟨next, hack, hkeeps, hclosing⟩ := hproper.onP2cData_dataAck hplace htype
      rw [handleP2cCacheLoop_cons hcache hshut hack]
      have hnext : next.pkts = pkts := hkeeps.pkts
      obtain ⟨client', hloop, hserves⟩ := @ih next
        (by rw [hnext, hkeeps.key]; exact hrest) (hkeeps.placeholder.trans hplace)
        (hkeeps.p2cShutting.trans hshut) (by rw [hnext]; exact hlen)
      exact ⟨client', hloop, hserves.of_dataAck hcache htype hkeeps hclosing⟩

end arrive

/-! ### When the loop ends -/

section ends

variable {client next : ICProxyClient} {pkt : ICProxyPkt} {pkts : List ICProxyPkt}

/-- A message that ends the loop: a BYE, or one that is an error here. -/
def EndsLoop (key : ICProxyKey) (pkt : ICProxyPkt) : Prop :=
  pkt.isValid = true ∧ pkt.isLive key = true ∧ pkt.type ≠ .data ∧ pkt.type ≠ .dataAck

/-- A packet that is put back into the cache. -/
def PutBack (key : ICProxyKey) (pkt : ICProxyPkt) : Prop :=
  pkt.isValid = true ∧ pkt.isInTheFuture key = true

theorem isInTheFuture_iff (key : ICProxyKey) (pkt : ICProxyPkt) :
    pkt.isInTheFuture key = true ↔ pkt.isLive key = false ∧ pkt.isOutOfDate key = false := by
  simp only [isInTheFuture, isLive, isOutOfDate, Bool.or_eq_true, Bool.and_eq_true,
    decide_eq_true_eq, Bool.and_eq_false_iff, Bool.or_eq_false_iff, decide_eq_false_iff_not]
  omega

section

variable (hplace : client.placeholder = false)
include hplace

/-- One turn of the loop on a packet that does not end it. -/
theorem onP2cData_turn (hshut : client.p2cShutting = false) (hends : ¬ EndsLoop client.key pkt) :
    ∃ next, client.onP2cData pkt = .ok next ∧ next.key = client.key ∧
      next.placeholder = false ∧ next.p2cShutting = false ∧
      ((PutBack client.key pkt ∧ next.pkts = client.pkts ++ [pkt]) ∨
        (¬ PutBack client.key pkt ∧ next.pkts = client.pkts)) := by
  unfold onP2cData
  by_cases hvalid : pkt.isValid = true
  · rw [if_neg (by simp [hvalid]), if_neg (by simp [hplace])]
    by_cases hlive : pkt.isLive client.key = true
    · have hback : ¬ PutBack client.key pkt := by
        rintro ⟨-, hfuture⟩
        rw [((isInTheFuture_iff _ _).1 hfuture).1] at hlive
        cases hlive
      rw [if_neg (show ¬¬ pkt.isLive client.key = true by simp [hlive])]
      by_cases hdata : pkt.type = .data
      · rw [if_pos hdata, if_neg (by simp [hshut])]
        exact ⟨_, rfl, rfl, hplace, hshut, .inr ⟨hback, rfl⟩⟩
      have hack : pkt.type = .dataAck := by
        by_contra hack
        exact hends ⟨hvalid, hlive, hdata, hack⟩
      rw [onP2cMessage, hack]
      have hkeeps := keeps_maybeResume { client with
        unackSendPkt := client.unackSendPkt - icProxyAckInterval }
      exact ⟨_, rfl, hkeeps.key, hkeeps.placeholder.trans hplace,
        hkeeps.p2cShutting.trans hshut, .inr ⟨hback, hkeeps.pkts⟩⟩
    · split_ifs with hold
      · refine ⟨_, rfl, rfl, hplace, hshut, .inr ⟨?_, rfl⟩⟩
        rintro ⟨-, hfuture⟩
        rw [((isInTheFuture_iff _ _).1 hfuture).2] at hold
        cases hold
      · exact ⟨_, rfl, rfl, hplace, hshut, .inl ⟨⟨hvalid, (isInTheFuture_iff _ _).2
          ⟨Bool.eq_false_iff.2 hlive, Bool.eq_false_iff.2 hold⟩⟩, rfl⟩⟩
  · rw [if_pos hvalid]
    exact ⟨_, rfl, rfl, hplace, hshut, .inr ⟨fun h => hvalid h.1, rfl⟩⟩

/-- A packet that is put back keeps the loop going for ever, if no message ends it. -/
theorem handleP2cCacheLoop_never (hshut : client.p2cShutting = false)
    (hends : ∀ pkt ∈ client.pkts, ¬ EndsLoop client.key pkt)
    (hback : ∃ pkt ∈ client.pkts, PutBack client.key pkt) (fuel : ℕ) :
    client.handleP2cCacheLoop fuel = none := by
  induction fuel generalizing client with
  | zero => rfl
  | succ fuel ih =>
    obtain ⟨back, hmem, hback⟩ := hback
    rcases hcache : client.pkts with _ | ⟨pkt, pkts⟩
    · rw [hcache] at hmem
      cases hmem
    rw [hcache] at hmem hends
    have hrest : ∀ p ∈ pkts, ¬ EndsLoop client.key p := fun p hp => hends p (mem_cons_of_mem _ hp)
    obtain ⟨_, hnext, hkey, hplace', hshut', hpkts⟩ :=
      @onP2cData_turn { client with pkts := pkts } pkt hplace hshut
        (hends pkt mem_cons_self)
    rw [handleP2cCacheLoop_cons hcache hshut hnext]
    apply ih hplace' hshut'
    · rcases hpkts with ⟨-, hpkts⟩ | ⟨-, hpkts⟩
      · rw [hpkts, hkey]
        intro p hp
        rcases mem_append.1 hp with hp | hp
        · exact hrest p hp
        · rw [mem_singleton.1 hp]
          exact hends pkt mem_cons_self
      · rw [hpkts, hkey]
        exact hrest
    · rw [hkey]
      rcases hpkts with ⟨hput, hpkts⟩ | ⟨hput, hpkts⟩
      · refine ⟨pkt, ?_, hput⟩
        rw [hpkts]
        exact mem_append_right _ mem_cons_self
      · refine ⟨back, ?_, hback⟩
        rw [hpkts]
        rcases mem_cons.1 hmem with rfl | hmem
        · exact absurd hback hput
        · exact hmem

theorem handleP2cCacheLoop_endsLoop (hcache : client.pkts = pkt :: pkts)
    (hends : EndsLoop client.key pkt) (fuel : ℕ) :
    (client.handleP2cCacheLoop (fuel + 2)).isSome = true := by
  cases hshut : client.p2cShutting with
  | true => rw [handleP2cCacheLoop_shutting hshut, isSome_some]
  | false =>
    obtain ⟨hvalid, hlive, hdata, _⟩ := hends
    have hmessage : onP2cData { client with pkts := pkts } pkt =
        onP2cMessage { client with pkts := pkts } pkt := by
      unfold onP2cData
      rw [if_neg (by simp [hvalid]), if_neg (by simp [hplace]),
        if_neg (show ¬¬ pkt.isLive client.key = true by simp [hlive]), if_neg hdata]
    by_cases hbye : pkt.type = .bye
    · rw [onP2cMessage, hbye] at hmessage
      rw [handleP2cCacheLoop_cons hcache hshut hmessage, handleP2cCacheLoop_shutting, isSome_some]
      exact (@shutdownP2c_open { client with pkts := pkts } hshut).2.2.1
    have herror : onP2cMessage { client with pkts := pkts } pkt = .error "unsupported message" := by
      cases htype : pkt.type <;> simp_all [onP2cMessage]
    rw [handleP2cCacheLoop, hcache]
    dsimp only
    rw [if_neg (by simp [hshut]), hmessage, herror, isSome_some]

/-- A message that ends the loop is reached after the packets before it. -/
theorem handleP2cCacheLoop_ends_of_mem {pre post : List ICProxyPkt}
    (hcache : client.pkts = pre ++ pkt :: post) (hends : EndsLoop client.key pkt) :
    (client.handleP2cCacheLoop (pre.length + 2)).isSome = true := by
  induction pre generalizing client post with
  | nil => exact handleP2cCacheLoop_endsLoop hplace hcache hends 0
  | cons first pre ih =>
    by_cases hfirst : EndsLoop client.key first
    · exact handleP2cCacheLoop_endsLoop hplace hcache hfirst (pre.length + 1)
    cases hshut : client.p2cShutting with
    | true => rw [handleP2cCacheLoop_shutting hshut, isSome_some]
    | false =>
      obtain ⟨_, hnext, hkey, hplace', -, hpkts⟩ :=
        @onP2cData_turn { client with pkts := pre ++ pkt :: post } first hplace hshut hfirst
      have hturn := handleP2cCacheLoop_cons hcache hshut hnext (pre.length + 2)
      rw [length_cons, hturn]
      rcases hpkts with ⟨-, hpkts⟩ | ⟨-, hpkts⟩
      · rw [append_assoc] at hpkts
        exact ih hplace' hpkts (hkey ▸ hends)
      · exact ih hplace' hpkts (hkey ▸ hends)

/-- Without packets that are put back each turn takes one out of the cache. -/
theorem handleP2cCacheLoop_ends_of_forall (hback : ∀ pkt ∈ client.pkts, ¬ PutBack client.key pkt)
    {fuel : ℕ} (hfuel : client.pkts.length + 1 < fuel) :
    (client.handleP2cCacheLoop fuel).isSome = true := by
  induction fuel generalizing client with
  | zero => omega
  | succ fuel ih =>
    obtain ⟨fuel, rfl⟩ : ∃ n, fuel = n + 1 := ⟨fuel - 1, by omega⟩
    cases hshut : client.p2cShutting with
    | true => rw [handleP2cCacheLoop_shutting hshut, isSome_some]
    | false =>
      rcases hcache : client.pkts with _ | ⟨pkt, pkts⟩
      · rw [handleP2cCacheLoop, hcache, isSome_some]
      by_cases hends : EndsLoop client.key pkt
      · exact handleP2cCacheLoop_endsLoop hplace hcache hends fuel
      rw [hcache] at hback hfuel
      obtain ⟨next, hnext, hkey, hplace', -, hpkts⟩ :=
        @onP2cData_turn { client with pkts := pkts } pkt hplace hshut hends
      rw [handleP2cCacheLoop_cons hcache hshut hnext]
      rcases hpkts with ⟨hput, -⟩ | ⟨-, hpkts⟩
      · exact absurd hput (hback pkt mem_cons_self)
      have hrest : next.pkts = pkts := hpkts
      apply ih hplace'
      · rw [hrest, hkey]
        exact fun p hp => hback p (mem_cons_of_mem _ hp)
      · rw [hrest]
        exact Nat.lt_of_succ_lt_succ hfuel

end

/-- **Handling the cached packets ends** in exactly these cases: the client takes no packets, a
message ends the loop, or no packet of a later session or command is in the cache. -/
theorem handleP2cCache_ends_iff (client : ICProxyClient) :
    (∃ fuel, (client.handleP2cCache fuel).isSome = true) ↔
      client.placeholder = true ∨ client.p2cShutting = true ∨
        (∃ pkt ∈ client.pkts, EndsLoop client.key pkt) ∨
        ∀ pkt ∈ client.pkts, ¬ PutBack client.key pkt := by
  cases hplace : client.placeholder with
  | true => simp [handleP2cCache, hplace]
  | false =>
    simp only [handleP2cCache, hplace, Bool.false_eq_true, if_false, false_or]
    constructor
    · rintro ⟨fuel, hsome⟩
      by_contra hnever
      simp only [not_or, not_exists, not_and] at hnever
      obtain ⟨hshut, hends, hback⟩ := hnever
      simp only [not_forall, not_not] at hback
      obtain ⟨pkt, hmem, hput⟩ := hback
      have hopen := Bool.eq_false_iff.2 hshut
      rw [handleP2cCacheLoop_never hplace hopen hends ⟨pkt, hmem, hput⟩] at hsome
      cases hsome
    · rintro (hshut | ⟨pkt, hmem, hends⟩ | hback)
      · exact ⟨1, by rw [handleP2cCacheLoop_shutting hshut, isSome_some]⟩
      · obtain ⟨_, _, hcache⟩ := append_of_mem hmem
        exact ⟨_, handleP2cCacheLoop_ends_of_mem hplace hcache hends⟩
      · exact ⟨_, handleP2cCacheLoop_ends_of_forall hplace hback (Nat.lt_succ_self _)⟩

end ends

end Cloudberry.Proxy
