/-
# Flow control of a logical connection

Two clients at the two ends of a logical connection, with links that lose and reorder nothing.
What flow control is about are some numbers of each client (`Counts`); the functions of a client
act on them (`counts_onC2pDataPkt`, `counts_onP2cData`, …), and `Direction` is the law that ties
the numbers at both ends together: a packet from the backend is in the sender's buffer, was
merged into another one, is on the way, or was written; and each tenth one that was written is
acknowledged or will be.

The sender counts the packets before they are merged, so merged packets are never acknowledged.
-/

import Cloudberry.Proxy.Client
import Cloudberry.Lib.Machine

namespace Cloudberry.Proxy

open List ICProxyClient Function

/-! ### The connection -/

/-- A logical connection; both sides are alike. -/
structure Connection where
  client : Bool → ICProxyClient
  /-- the packets routed by this side's client that have not arrived at the other side -/
  link : Bool → List ICProxyPkt
  /-- the packets this side's backend has given to its client -/
  given : Bool → List (List Byte)
  /-- the end of this backend's stream was read -/
  eof : Bool → Bool

/-- What happens on one of the two sides `s`. -/
inductive ConnectionEvent where
  /-- the HELLO ACK is sent, and the client takes the place of its placeholder -/
  | start (s : Bool)
  /-- a read from the backend completes these packets -/
  | read (s : Bool) (packets : List (List Byte))
  /-- the end of the stream, with the bytes of an incomplete packet -/
  | readEof (s : Bool) (ibuf : List Byte)
  /-- the oldest packet on the link to this side arrives -/
  | deliver (s : Bool)
  /-- the oldest write to this backend is done, or has failed -/
  | written (s : Bool) (ok : Bool)
  /-- the oldest message of this client is sent -/
  | sent (s : Bool)
  /-- the pipe is shut down, which comes after all writes -/
  | shutdownDone (s : Bool)
deriving Repr

namespace Connection

/-- The client after a call, and what the call has routed. -/
def put (sys : Connection) (s : Bool) (client : ICProxyClient) : Connection :=
  { sys with
    client := update sys.client s { client with routed := [] }
    link := update sys.link s (sys.link s ++ client.routed) }

/-- A connection between two clients with these keys, before the backends are known. -/
def init (key : ICProxyKey) : Connection where
  client := fun s => .new (if s then key.reverse else key) true
  link := fun _ => []
  given := fun _ => []
  eof := fun _ => false

def leftover (ibuf : List Byte) : List (List Byte) := if ibuf.length > 0 then [ibuf] else []

/-- A packet arrives. After a client is closed its packets are kept for the next one. -/
def arrive (client : ICProxyClient) (pkt : ICProxyPkt) : Except String ICProxyClient :=
  if client.closing then .ok (client.cacheP2cPkt pkt) else client.onP2cData pkt

/-- One event; `none` where it cannot happen or an error is raised. -/
def step (gpMaxPacketSize : ℕ) (sys : Connection) : ConnectionEvent → Option Connection
  | .start s =>
    let client := sys.client s
    if client.placeholder then
      match { client with placeholder := false, registered := true }.maybeStartReadData
          (client.pkts.length + 1) with
      | some (.ok client) => some (sys.put s client)
      | _ => none
    else none
  | .read s packets =>
    let client := sys.client s
    if client.reading ∧ ¬ client.closing ∧ ¬ sys.eof s ∧
        ∀ p ∈ packets, 5 ≤ p.length ∧ p.length ≤ gpMaxPacketSize then
      match client.onC2pData gpMaxPacketSize packets with
      | .error _ => none
      | .ok client =>
        some { sys.put s client with
          given := update sys.given s (sys.given s ++ packets) }
    else none
  | .readEof s ibuf =>
    let client := sys.client s
    if client.reading ∧ ¬ client.placeholder ∧ ¬ client.closing ∧ ibuf.length ≤ gpMaxPacketSize ∧
        (sys.eof s → ibuf = []) then
      match client.onC2pEof gpMaxPacketSize ibuf with
      | .error _ => none
      | .ok client =>
        some { sys.put s client with
          given := update sys.given s
            (sys.given s ++ leftover ibuf)
          eof := update sys.eof s true }
    else none
  | .deliver s =>
    match sys.link (!s) with
    | [] => none
    | pkt :: rest =>
      match arrive (sys.client s) pkt with
      | .error _ => none
      | .ok client => some ({ sys with link := update sys.link (!s) rest }.put s client)
  | .written s ok =>
    let client := sys.client s
    if client.pipeDone < client.pipe.length ∧ ¬ client.closing then
      some (sys.put s (client.onSentP2cData ok))
    else none
  | .sent s =>
    let client := sys.client s
    match client.unsent with
    | [] => none
    | type :: unsent =>
      if client.closing then none
      else if type = .bye then some (sys.put s { client with unsent := unsent }.onSentC2pBye)
      else some (sys.put s { client with unsent := unsent }.onSentC2pResume)
  | .shutdownDone s =>
    let client := sys.client s
    if client.p2cShutting ∧ ¬ client.p2cShutted ∧ client.pipeDone = client.pipe.length ∧
        ¬ client.closing then
      some (sys.put s client.onShutdownP2c)
    else none

/-- All packets routed by this side's client have been written to the other backend, and all ACK
messages have been handled. -/
def Settled (sys : Connection) (s : Bool) : Prop :=
  (∀ pkt ∈ sys.link s, pkt.type ≠ .data) ∧ (∀ pkt ∈ (sys.client (!s)).pkts, pkt.type ≠ .data) ∧
    (sys.client (!s)).pipeDone = (sys.client (!s)).pipe.length ∧
    (∀ pkt ∈ sys.link (!s), pkt.type ≠ .dataAck) ∧
    ∀ pkt ∈ (sys.client s).pkts, pkt.type ≠ .dataAck

instance (sys : Connection) (s : Bool) : Decidable (sys.Settled s) := by
  unfold Settled
  infer_instance

end Connection

/-! ### Merged packets -/

/-- How full the buffer is, and how many packets were merged into another one. -/
structure Fill where
  len : ℕ
  merged : ℕ
deriving DecidableEq, Repr

/-- A packet is put into the buffer; if there is no room the buffer is sent before. -/
def Fill.push (gpMaxPacketSize : ℕ) (fill : Fill) (size : ℕ) : Fill :=
  if fill.len = 0 ∨ fill.len + size > gpMaxPacketSize then ⟨size, fill.merged⟩
  else ⟨fill.len + size, fill.merged + 1⟩

section

variable (gpMaxPacketSize : ℕ) (packets : List (List Byte))

def fillOf : Fill :=
  packets.foldl (fun fill p => fill.push gpMaxPacketSize p.length) ⟨0, 0⟩

/-- How many of the packets of a backend are merged into the packet before. -/
def mergedPackets : ℕ :=
  (fillOf gpMaxPacketSize packets).merged

end

/-! ### The numbers of a client -/

def countType (type : ICProxyMessageType) (pkts : List ICProxyPkt) : ℕ :=
  pkts.countP (·.type = type)

section

variable (type : ICProxyMessageType)
include type

@[simp] theorem countType_nil : countType type [] = 0 := rfl

@[simp] theorem countType_append (pkts pkts' : List ICProxyPkt) :
    countType type (pkts ++ pkts') = countType type pkts + countType type pkts' :=
  countP_append

@[simp] theorem countType_cons (pkt : ICProxyPkt) (pkts : List ICProxyPkt) :
    countType type (pkt :: pkts) = countType type pkts + if pkt.type = type then 1 else 0 := by
  simp [countType, countP_cons]

end

variable {type : ICProxyMessageType}

theorem countType_eq_zero {pkts : List ICProxyPkt} :
    countType type pkts = 0 ↔ ∀ pkt ∈ pkts, pkt.type ≠ type := by
  simp [countType]

/-- All that flow control depends on. -/
@[ext]
structure Counts where
  unackSendPkt : ℤ
  unackRecvPkt : ℤ
  piped : ℕ
  pipeDone : ℕ
  cachedData : ℕ
  cachedAcks : ℕ
  routedData : ℕ
  routedAcks : ℕ
  obufLen : ℕ
  placeholder : Bool
  paused : Bool
  reading : Bool

def ICProxyClient.counts (client : ICProxyClient) : Counts where
  unackSendPkt := client.unackSendPkt
  unackRecvPkt := client.unackRecvPkt
  piped := client.pipe.length
  pipeDone := client.pipeDone
  cachedData := countType .data client.pkts
  cachedAcks := countType .dataAck client.pkts
  routedData := countType .data client.routed
  routedAcks := countType .dataAck client.routed
  obufLen := client.obuf.length
  placeholder := client.placeholder
  paused := client.paused
  reading := client.reading

namespace Counts

def resume (c : Counts) : Counts :=
  if c.unackSendPkt ≤ 30 ∧ c.paused then { c with reading := true, paused := false } else c

def pause (c : Counts) : Counts :=
  if c.unackSendPkt ≥ 100 ∧ ¬ c.paused then { c with paused := true, reading := false } else c

def push (gpMaxPacketSize : ℕ) (c : Counts) (size : ℕ) : Counts :=
  if size = 0 ∨ c.obufLen + size > gpMaxPacketSize then
    { c with obufLen := size, routedData := c.routedData + if c.obufLen = 0 then 0 else 1 }
  else { c with obufLen := c.obufLen + size }

def sendAck (c : Counts) : Counts :=
  if c.unackRecvPkt ≥ 10 then
    { c with unackRecvPkt := c.unackRecvPkt - 10, routedAcks := c.routedAcks + 1 }
  else c

end Counts

section counts

variable (client : ICProxyClient)

@[simp] theorem counts_maybeClose : client.maybeClose.counts = client.counts := by
  unfold maybeClose
  split <;> rfl

@[simp] theorem counts_shutdownP2c : client.shutdownP2c.counts = client.counts := by
  unfold shutdownP2c
  split
  · exact counts_maybeClose client
  · rfl

theorem counts_routeMessage_bye : (client.routeMessage .bye).counts = client.counts := by
  ext <;> simp [counts, routeMessage, route, icProxyMessageInit]

theorem counts_routeMessage_dataAck : (client.routeMessage .dataAck).counts =
    { client.counts with routedAcks := client.counts.routedAcks + 1 } := by
  ext <;> simp [counts, routeMessage, route, icProxyMessageInit]

@[simp] theorem counts_shutdownC2p : client.shutdownC2p.counts = client.counts := by
  unfold shutdownC2p
  dsimp only
  split_ifs
  · exact counts_maybeClose client
  · exact counts_routeMessage_bye { client with c2pShutting := true }
  · exact counts_shutdownP2c { client with c2pShutting := true, c2pShutted := true }

theorem counts_onShutdownP2c : client.onShutdownP2c.counts = client.counts := counts_maybeClose _

theorem counts_onSentC2pBye : client.onSentC2pBye.counts = client.counts := counts_maybeClose _

theorem counts_onSentC2pResume : client.onSentC2pResume.counts = client.counts :=
  counts_maybeClose _

theorem counts_maybePause : client.maybePause.counts = client.counts.pause := by
  unfold maybePause
  rw [apply_ite counts]
  rfl

theorem counts_maybeResume : client.maybeResume.counts = client.counts.resume := by
  unfold maybeResume
  rw [apply_ite counts]
  rfl

theorem counts_maybeSendAckMessage : client.maybeSendAckMessage.counts = client.counts.sendAck := by
  unfold maybeSendAckMessage
  rw [apply_ite counts, counts_routeMessage_dataAck]
  rfl

variable {gpMaxPacketSize : ℕ} {data : List Byte}

theorem counts_obufPush {client' : ICProxyClient}
    (h : client.obufPush gpMaxPacketSize data = .ok client') :
    client'.counts = client.counts.push gpMaxPacketSize data.length := by
  unfold obufPush at h
  have hroom : data.length + (sizeofICProxyPkt + client.obuf.length) >
      gpMaxPacketSize + sizeofICProxyPkt ↔ client.obuf.length + data.length > gpMaxPacketSize := by
    omega
  simp only [hroom, add_eq_left] at h
  by_cases hflush : data.length = 0 ∨ client.counts.obufLen + data.length > gpMaxPacketSize
  · rw [Counts.push, if_pos hflush]
    rw [if_pos (show data.length = 0 ∨ client.obuf.length + data.length > gpMaxPacketSize from
      hflush)] at h
    split_ifs at h with hbig hempty
    · cases h
      simp [counts, hempty]
    · cases h
      simp [counts, route, icProxyMessageInit, hempty]
  · rw [Counts.push, if_neg hflush]
    rw [if_neg (show ¬ (data.length = 0 ∨ client.obuf.length + data.length > gpMaxPacketSize) from
      hflush)] at h
    cases h
    simp [counts]

theorem counts_onC2pDataPkt {client' : ICProxyClient}
    (h : client.onC2pDataPkt gpMaxPacketSize data = .ok client') :
    client'.counts = ({ client.counts with
      unackSendPkt := client.counts.unackSendPkt + 1 }.pause).push gpMaxPacketSize data.length := by
  rw [counts_obufPush _ h, counts_maybePause]
  rfl

theorem counts_onSentP2cData (ok : Bool) : (client.onSentP2cData ok).counts = { client.counts with
      unackRecvPkt := client.counts.unackRecvPkt + 1
      pipeDone := client.counts.pipeDone + 1 }.sendAck := by
  unfold onSentP2cData
  rw [counts_maybeSendAckMessage]
  cases ok
  · have h := counts_shutdownC2p client
    simp only [counts, Counts.mk.injEq] at h
    simp [counts, h]
  · rfl

end counts

/-! ### Packets that arrive -/

/-- A packet as the clients of the connection send them. -/
structure Proper (key : ICProxyKey) (pkt : ICProxyPkt) : Prop where
  valid : pkt.isValid = true
  sessionId : pkt.sessionId = key.sessionId
  commandId : pkt.commandId = key.commandId
  type : pkt.type = .data ∨ pkt.type = .bye ∨ pkt.type = .dataAck

/-- What holds of each client: it has only such packets, and `sending` is the number of callbacks
to come. -/
structure Sound (key : ICProxyKey) (client : ICProxyClient) : Prop where
  sessionId : client.key.sessionId = key.sessionId
  commandId : client.key.commandId = key.commandId
  routed : ∀ pkt ∈ client.routed, Proper key pkt
  pkts : ∀ pkt ∈ client.pkts, Proper key pkt
  pipeDone_le : client.pipeDone ≤ client.pipe.length
  sending : client.sending + client.pipeDone = client.pipe.length + client.unsent.length
  bye : client.c2pShutting = true → client.c2pShutted = true ∨ .bye ∈ client.unsent
  registered : client.placeholder = false → client.registered = true
  shutted : client.p2cShutted = true →
    client.p2cShutting = true ∧ client.pipeDone = client.pipe.length

/-- A client that can close does so. -/
def Closes (client : ICProxyClient) : Prop :=
  client.sending = 0 → client.c2pShutted = true → client.p2cShutted = true → client.closing = true

def Counts.cache (c : Counts) (type : ICProxyMessageType) : Counts :=
  { c with
    cachedData := c.cachedData + if type = .data then 1 else 0
    cachedAcks := c.cachedAcks + if type = .dataAck then 1 else 0 }

/-- Packets of the cache are handled. -/
structure Handles (c c' : Counts) : Prop where
  send : c'.unackSendPkt - 10 * c'.cachedAcks = c.unackSendPkt - 10 * c.cachedAcks
  data : c'.piped + c'.cachedData = c.piped + c.cachedData
  piped : c.piped ≤ c'.piped
  unackRecvPkt : c'.unackRecvPkt = c.unackRecvPkt
  pipeDone : c'.pipeDone = c.pipeDone
  obufLen : c'.obufLen = c.obufLen
  routedData : c'.routedData = c.routedData
  routedAcks : c'.routedAcks = c.routedAcks
  placeholder : c'.placeholder = c.placeholder
  paused : (c.paused = true → 31 ≤ c.unackSendPkt) → c'.paused = true → 31 ≤ c'.unackSendPkt
  reading : c.reading = true ∨ c.paused = true → c'.reading = true ∨ c'.paused = true

theorem Handles.refl (c : Counts) : Handles c c :=
  ⟨rfl, rfl, le_rfl, rfl, rfl, rfl, rfl, rfl, rfl, id, id⟩

theorem Handles.trans {a b c : Counts} (hab : Handles a b) (hbc : Handles b c) : Handles a c where
  send := hbc.send.trans hab.send
  data := hbc.data.trans hab.data
  piped := hab.piped.trans hbc.piped
  unackRecvPkt := hbc.unackRecvPkt.trans hab.unackRecvPkt
  pipeDone := hbc.pipeDone.trans hab.pipeDone
  obufLen := hbc.obufLen.trans hab.obufLen
  routedData := hbc.routedData.trans hab.routedData
  routedAcks := hbc.routedAcks.trans hab.routedAcks
  placeholder := hbc.placeholder.trans hab.placeholder
  paused := fun h => hbc.paused (hab.paused h)
  reading := fun h => hbc.reading (hab.reading h)

section

variable (c : Counts)
include c

theorem Counts.cache_dataAck : c.cache .dataAck = { c with cachedAcks := c.cachedAcks + 1 } := by
  simp [Counts.cache]

theorem Handles.resume : Handles c c.resume := by
  unfold Counts.resume
  split
  · exact ⟨rfl, rfl, le_rfl, rfl, rfl, rfl, rfl, rfl, rfl,
      fun _ h => absurd h Bool.false_ne_true, fun _ => .inl rfl⟩
  · exact .refl c

theorem Handles.ack : Handles (c.cache .dataAck)
    { c with unackSendPkt := c.unackSendPkt - icProxyAckInterval }.resume := by
  rw [Counts.cache_dataAck]
  unfold Counts.resume
  split_ifs with h
  · exact ⟨by simp only [icProxyAckInterval]; omega, rfl, le_rfl, rfl, rfl, rfl, rfl, rfl, rfl,
      fun _ h => absurd h Bool.false_ne_true, fun _ => .inl rfl⟩
  · refine ⟨by simp only [icProxyAckInterval]; omega, rfl, le_rfl, rfl, rfl, rfl, rfl, rfl, rfl,
      fun _ hpaused => ?_, id⟩
    have hlow : ¬ c.unackSendPkt - icProxyAckInterval ≤ 30 := fun hle => h ⟨hle, hpaused⟩
    exact Int.not_le.1 hlow

end

section sound

variable {key : ICProxyKey} {client : ICProxyClient}

theorem proper_messageInit (hs : client.key.sessionId = key.sessionId)
    (hc : client.key.commandId = key.commandId)
    (htype : type = .data ∨ type = .bye ∨ type = .dataAck) (data : List Byte) :
    Proper key { icProxyMessageInit type client.key with data := data } :=
  ⟨rfl, hs, hc, htype⟩

section

variable (h : Sound key client)
include h

theorem Sound.route {pkt : ICProxyPkt} (hpkt : Proper key pkt) : Sound key (client.route pkt) :=
  { h with routed := forall_mem_append.2 ⟨h.routed, forall_mem_singleton.2 hpkt⟩ }

theorem Sound.routeMessage (htype : type = .data ∨ type = .bye ∨ type = .dataAck) :
    Sound key (client.routeMessage type) :=
  let hroute := h.route (proper_messageInit h.sessionId h.commandId htype [])
  { hroute with
    sending := by
      have hsending := h.sending
      simp only [ICProxyClient.routeMessage, ICProxyClient.route, length_append, length_singleton]
      omega
    bye := fun hshut => (h.bye hshut).imp id (mem_append_left _) }

theorem Sound.maybeClose : Sound key client.maybeClose := by
  unfold ICProxyClient.maybeClose
  split <;> exact { h with }

theorem Sound.shutdownP2c : Sound key client.shutdownP2c := by
  unfold ICProxyClient.shutdownP2c
  split
  · exact h.maybeClose
  · exact { h with shutted := fun hshut => ⟨rfl, (h.shutted hshut).2⟩ }

theorem Sound.shutdownC2p : Sound key client.shutdownC2p := by
  unfold ICProxyClient.shutdownC2p
  dsimp only
  split_ifs with hshut hreg
  · exact h.maybeClose
  · -- the BYE is the message whose callback sets `c2pShutted`
    have hproper : Proper key (icProxyMessageInit .bye client.key) :=
      proper_messageInit h.sessionId h.commandId (.inr (.inl rfl)) []
    have hsending := h.sending
    exact { h.route hproper with
      sending := by
        simp only [ICProxyClient.routeMessage, ICProxyClient.route, length_append, length_singleton]
        omega
      bye := fun _ => .inr (mem_append_right _ (mem_singleton_self _)) }
  · have h' : Sound key { client with c2pShutting := true, c2pShutted := true } :=
      { h with bye := fun _ => .inl rfl }
    exact h'.shutdownP2c

theorem Sound.maybePause : Sound key client.maybePause := by
  unfold ICProxyClient.maybePause
  split <;> exact { h with }

theorem Sound.maybeResume : Sound key client.maybeResume := by
  unfold ICProxyClient.maybeResume
  split <;> exact { h with }

theorem Sound.cacheP2cPkt {pkt : ICProxyPkt} (hpkt : Proper key pkt) :
    Sound key (client.cacheP2cPkt pkt) :=
  { h with pkts := forall_mem_append.2 ⟨h.pkts, forall_mem_singleton.2 hpkt⟩ }

theorem Sound.obufPush (hsize : data.length ≤ gpMaxPacketSize) :
    ∃ client', client.obufPush gpMaxPacketSize data = .ok client' ∧ Sound key client' := by
  unfold ICProxyClient.obufPush
  dsimp only
  split_ifs with hflush hbig hempty
  · omega
  · exact ⟨_, rfl, { h with }⟩
  · exact ⟨_, rfl, { h.route (proper_messageInit h.sessionId h.commandId (.inl rfl) _) with }⟩
  · exact ⟨_, rfl, { h with }⟩

theorem Sound.onC2pDataPkt (hsize : data.length ≤ gpMaxPacketSize) :
    ∃ client', client.onC2pDataPkt gpMaxPacketSize data = .ok client' ∧ Sound key client' := by
  have h' : Sound key { client with unackSendPkt := client.unackSendPkt + 1 } := { h with }
  exact h'.maybePause.obufPush hsize

theorem Sound.maybeSendAckMessage : Sound key client.maybeSendAckMessage := by
  unfold ICProxyClient.maybeSendAckMessage
  split
  · have h' : Sound key { client with
        unackRecvPkt := client.unackRecvPkt - icProxyAckInterval } := { h with }
    exact h'.routeMessage (.inr (.inr rfl))
  · exact h

end

end sound

section arrive

variable {key : ICProxyKey} {client : ICProxyClient} {pkt : ICProxyPkt}

@[simp] theorem counts_cacheP2cPkt (client : ICProxyClient) (pkt : ICProxyPkt) :
    (client.cacheP2cPkt pkt).counts = client.counts.cache pkt.type := by
  simp [counts, cacheP2cPkt, Counts.cache]

theorem pkts_maybeResume (client : ICProxyClient) : client.maybeResume.pkts = client.pkts := by
  unfold maybeResume
  split <;> rfl

theorem pkts_shutdownP2c (client : ICProxyClient) : client.shutdownP2c.pkts = client.pkts := by
  unfold shutdownP2c maybeClose
  split_ifs <;> rfl

/-- **A packet that arrives** is handled, or cached. -/
theorem onP2cData_handles (h : Sound key client) (hpkt : Proper key pkt) :
    ∃ client', client.onP2cData pkt = .ok client' ∧ Sound key client' ∧
      Handles (client.counts.cache pkt.type) client'.counts ∧
      (client.placeholder = false → client.p2cShutting = false → client'.pkts = client.pkts) := by
  have hlive : pkt.isLive client.key = true := by
    simp [ICProxyPkt.isLive, hpkt.sessionId, hpkt.commandId, h.sessionId, h.commandId]
  unfold onP2cData
  rw [if_neg (by simp [hpkt.valid]), if_neg (show ¬¬ pkt.isLive client.key = true by simp [hlive])]
  by_cases hplace : client.placeholder = true
  · rw [if_pos hplace]
    exact ⟨_, rfl, h.cacheP2cPkt hpkt, by rw [counts_cacheP2cPkt]; exact .refl _,
      fun hplace' => absurd hplace (by simp [hplace'])⟩
  rw [if_neg hplace]
  rcases hpkt.type with htype | htype | htype
  · rw [if_pos htype, htype]
    split_ifs with hshut
    · exact ⟨_, rfl, h.cacheP2cPkt hpkt, by rw [counts_cacheP2cPkt, htype]; exact .refl _,
        fun _ hshut' => absurd hshut (by simp [hshut'])⟩
    refine ⟨_, rfl, ?_, ?_, fun _ _ => rfl⟩
    · have hle := h.pipeDone_le
      have hsending := h.sending
      exact { h with
        pipeDone_le := by simp only [length_append, length_singleton]; omega
        sending := by simp only [length_append, length_singleton]; omega
        shutted := fun hshutted => absurd (h.shutted hshutted).1 hshut }
    · simp only [counts, length_append, length_singleton]
      exact ⟨rfl, Nat.succ_add_eq_add_succ _ _, Nat.le_succ _, rfl, rfl, rfl, rfl, rfl, rfl, id, id⟩
  · rw [if_neg (by simp [htype]), onP2cMessage, htype]
    refine ⟨_, rfl, h.maybeResume.shutdownP2c, ?_, fun _ _ =>
      (pkts_shutdownP2c _).trans (pkts_maybeResume _)⟩
    rw [counts_shutdownP2c, counts_maybeResume]
    exact .resume _
  · rw [if_neg (by simp [htype]), onP2cMessage, htype]
    have h' : Sound key { client with
        unackSendPkt := client.unackSendPkt - icProxyAckInterval } := { h with }
    refine ⟨_, rfl, h'.maybeResume, ?_, fun _ _ => pkts_maybeResume _⟩
    rw [counts_maybeResume]
    exact .ack _

theorem arrive_handles (h : Sound key client) (hpkt : Proper key pkt) :
    ∃ client', Connection.arrive client pkt = .ok client' ∧ Sound key client' ∧
      Handles (client.counts.cache pkt.type) client'.counts := by
  unfold Connection.arrive
  split
  · exact ⟨_, rfl, h.cacheP2cPkt hpkt, by rw [counts_cacheP2cPkt]; exact .refl _⟩
  · obtain ⟨client', hdata, hsound, hhandles, -⟩ := onP2cData_handles h hpkt
    exact ⟨client', hdata, hsound, hhandles⟩

/-- **The cached packets** of a new client are handled, in as many turns as there are packets. -/
theorem handleP2cCacheLoop_handles {fuel : ℕ} (h : Sound key client)
    (hplace : client.placeholder = false) (hfuel : client.pkts.length < fuel) :
    ∃ client', client.handleP2cCacheLoop fuel = some (.ok client') ∧ Sound key client' ∧
      Handles client.counts client'.counts := by
  induction fuel generalizing client with
  | zero => omega
  | succ fuel ih =>
    unfold handleP2cCacheLoop
    rcases hpkts : client.pkts with _ | ⟨pkt, pkts⟩
    · exact ⟨client, rfl, h, .refl _⟩
    dsimp only
    split_ifs with hshut
    · exact ⟨client, rfl, h, .refl _⟩
    have hpkt : Proper key pkt := h.pkts pkt (hpkts ▸ mem_cons_self)
    have hrest : Sound key { client with pkts := pkts } :=
      { h with pkts := fun p hp => h.pkts p (hpkts ▸ mem_cons_of_mem _ hp) }
    have hcounts : client.counts = (counts { client with pkts := pkts }).cache pkt.type := by
      simp [counts, Counts.cache, hpkts]
    obtain ⟨client₁, hdata, hsound, hhandles, hsame⟩ := onP2cData_handles hrest hpkt
    have hpkts₁ := hsame hplace (Bool.eq_false_iff.2 hshut)
    rw [hdata, hcounts]
    have hlen : client₁.pkts.length < fuel := by
      rw [hpkts] at hfuel
      rw [hpkts₁]
      exact Nat.lt_of_succ_lt_succ hfuel
    obtain ⟨client', hloop, hsound', hhandles'⟩ :=
      ih hsound (hhandles.placeholder.trans hplace) hlen
    exact ⟨client', hloop, hsound', hhandles.trans hhandles'⟩

end arrive

/-! ### One direction -/

/-- One direction of a connection: the sender `f` was given the packets `given`, `nOut` of its
data packets and `nBack` of the receiver's ACKs are on the way, and `g` is the receiver. -/
structure Direction (gpMaxPacketSize : ℕ) (given : List (List Byte)) (eof : Bool) (f g : Counts)
    (nOut nBack : ℕ) : Prop where
  acks : f.unackSendPkt + g.pipeDone =
    given.length + g.unackRecvPkt + 10 * (nBack + g.routedAcks + f.cachedAcks)
  data : given.length = nOut + f.routedData + g.cachedData + g.piped +
    mergedPackets gpMaxPacketSize given + if f.obufLen = 0 then 0 else 1
  fill : eof = false → (fillOf gpMaxPacketSize given).len = f.obufLen
  paused : f.paused = true → 31 ≤ f.unackSendPkt
  recv_nonneg : 0 ≤ g.unackRecvPkt
  recv_lt : g.unackRecvPkt < 10
  reading : f.placeholder = false → (f.reading = true ∨ f.paused = true) ∨ eof = true
  early : f.placeholder = true → eof = false

section direction

variable {gpMaxPacketSize : ℕ} {given : List (List Byte)} {eof : Bool} {f f' g g' : Counts}
  {nOut nBack : ℕ}

section

variable (h : Direction gpMaxPacketSize given eof f g nOut nBack)
include h

/-- **The bound**: if everything routed was written and every ACK was handled, the packets that
are not acknowledged are those that were merged, one in the buffer, and up to nine. -/
theorem Direction.unackSendPkt_le (hout : nOut = 0) (hrouted : f.routedData = 0)
    (hcached : g.cachedData = 0) (hdone : g.pipeDone = g.piped) (hback : nBack = 0)
    (hacks : g.routedAcks = 0) (hcachedAcks : f.cachedAcks = 0) :
    f.unackSendPkt ≤ mergedPackets gpMaxPacketSize given + 10 := by
  have hacks := h.acks
  have hdata := h.data
  have hrecv := h.recv_lt
  have hobuf : (if f.obufLen = 0 then 0 else 1) ≤ 1 := by split <;> omega
  omega

theorem Direction.sender (hf : Handles f f') :
    Direction gpMaxPacketSize given eof f' g nOut nBack where
  acks := by
    have hacks := h.acks
    have hsend := hf.send
    omega
  data := by rw [hf.routedData, hf.obufLen]; exact h.data
  fill := by rw [hf.obufLen]; exact h.fill
  paused := hf.paused h.paused
  recv_nonneg := h.recv_nonneg
  recv_lt := h.recv_lt
  reading := by rw [hf.placeholder]; exact fun hplace => (h.reading hplace).imp hf.reading id
  early := by rw [hf.placeholder]; exact h.early

theorem Direction.receiver (hg : Handles g g') :
    Direction gpMaxPacketSize given eof f g' nOut nBack where
  acks := by rw [hg.pipeDone, hg.unackRecvPkt, hg.routedAcks]; exact h.acks
  data := by
    have hdata := h.data
    have hsum := hg.data
    omega
  fill := h.fill
  paused := h.paused
  recv_nonneg := by rw [hg.unackRecvPkt]; exact h.recv_nonneg
  recv_lt := by rw [hg.unackRecvPkt]; exact h.recv_lt
  reading := h.reading
  early := h.early

end

theorem Direction.arrives
    (h : Direction gpMaxPacketSize given eof f g (nOut + if type = .data then 1 else 0) nBack) :
    Direction gpMaxPacketSize given eof f (g.cache type) nOut nBack :=
  { h with
    data := by
      have hdata := h.data
      simp only [Counts.cache]
      omega }

theorem Direction.returns
    (h : Direction gpMaxPacketSize given eof f g nOut (nBack + if type = .dataAck then 1 else 0)) :
    Direction gpMaxPacketSize given eof (f.cache type) g nOut nBack :=
  { h with
    acks := by
      have hacks := h.acks
      simp only [Counts.cache]
      omega }

theorem fillOf_append (gpMaxPacketSize : ℕ) (packets : List (List Byte)) (p : List Byte) :
    fillOf gpMaxPacketSize (packets ++ [p]) =
      (fillOf gpMaxPacketSize packets).push gpMaxPacketSize p.length := by
  simp [fillOf]

theorem Counts.pause_eq (c : Counts) :
    ∃ paused reading, c.pause = { c with paused := paused, reading := reading } ∧
      (paused = true → c.paused = true ∨ 100 ≤ c.unackSendPkt) ∧
      (c.reading = true ∨ c.paused = true → reading = true ∨ paused = true) := by
  unfold Counts.pause
  split
  next hpause => exact ⟨true, false, rfl, fun _ => .inr hpause.1, fun _ => .inr rfl⟩
  · exact ⟨c.paused, c.reading, rfl, .inl, id⟩

theorem Counts.push_eq (c : Counts) {fill : Fill} (hfill : fill.len = c.obufLen) {size : ℕ}
    (hsize : 0 < size) :
    ∃ len routed, c.push gpMaxPacketSize size = { c with obufLen := len, routedData := routed } ∧
      (fill.push gpMaxPacketSize size).len = len ∧
      routed + (fill.push gpMaxPacketSize size).merged + (if len = 0 then 0 else 1) =
        c.routedData + fill.merged + (if c.obufLen = 0 then 0 else 1) + 1 := by
  unfold Counts.push Fill.push
  rw [hfill]
  by_cases hroom : c.obufLen + size > gpMaxPacketSize
  · rw [if_pos (Or.inr hroom : size = 0 ∨ _),
      if_pos (Or.inr hroom : c.obufLen = 0 ∨ c.obufLen + size > gpMaxPacketSize)]
    refine ⟨_, _, rfl, rfl, ?_⟩
    rw [if_neg hsize.ne']
    dsimp only
    omega
  · rw [if_neg (by omega)]
    refine ⟨_, _, rfl, ?_⟩
    by_cases hempty : c.obufLen = 0
    · rw [if_pos (.inl hempty), if_pos hempty, if_neg (by omega)]
      dsimp only
      omega
    · rw [if_neg (by omega), if_neg hempty, if_neg (by omega)]
      dsimp only
      omega

/-- **A packet from the backend**: it goes into the buffer, and starts a packet of its own or is
merged. -/
theorem Direction.push (h : Direction gpMaxPacketSize given false f g nOut nBack) {p : List Byte}
    (hp : 0 < p.length) : Direction gpMaxPacketSize (given ++ [p]) false
      (({ f with unackSendPkt := f.unackSendPkt + 1 }.pause).push gpMaxPacketSize p.length) g
      nOut nBack := by
  obtain ⟨paused, reading, hpause, hpaused, hreading⟩ :=
    Counts.pause_eq { f with unackSendPkt := f.unackSendPkt + 1 }
  rw [hpause]
  obtain ⟨_, _, hpush, hlen, hbalance⟩ := Counts.push_eq
    { f with unackSendPkt := f.unackSendPkt + 1, paused := paused, reading := reading }
    (h.fill rfl) hp
  rw [hpush]
  dsimp only at hbalance
  have hacks := h.acks
  have hdata := h.data
  refine ⟨?_, ?_, ?_, ?_, h.recv_nonneg, h.recv_lt, ?_, h.early⟩
  · simp only [length_append, length_singleton]
    omega
  · simp only [mergedPackets, fillOf_append, length_append, length_singleton] at hdata ⊢
    omega
  · exact fun _ => by rw [fillOf_append, hlen]
  · intro hset
    have hlow := h.paused
    rcases hpaused hset with hset | hset <;> simp only at hset ⊢
    · have := hlow hset
      omega
    · omega
  · exact fun hplace => (h.reading hplace).imp hreading id

section

variable (h : Direction gpMaxPacketSize given eof f g nOut nBack)
include h

theorem Direction.flush (hplace : f.placeholder = false) : Direction gpMaxPacketSize given true
      { f.push gpMaxPacketSize 0 with reading := false } g nOut nBack := by
  have hdata := h.data
  unfold Counts.push
  rw [if_pos (.inl rfl)]
  refine { h with data := ?_, fill := ?_, reading := fun _ => .inr rfl, early := ?_ }
  · simp only [if_true]
    omega
  · exact fun heof => absurd heof (by simp)
  · intro hplace'
    rw [show f.placeholder = true from hplace'] at hplace
    cases hplace

/-- **A write is done**, and every tenth is acknowledged. -/
theorem Direction.written : Direction gpMaxPacketSize given eof f
      ({ g with unackRecvPkt := g.unackRecvPkt + 1, pipeDone := g.pipeDone + 1 }.sendAck)
      nOut nBack := by
  have hacks := h.acks
  have hnonneg := h.recv_nonneg
  have hlt := h.recv_lt
  unfold Counts.sendAck
  split
  all_goals
    rename_i hge
    simp only [ge_iff_le] at hge
    refine { h with acks := ?_, recv_nonneg := ?_, recv_lt := ?_ }
    · simp only; push_cast; omega
    · simp only; omega
    · simp only; omega

end

/-- The same client as a receiver. -/
structure SameReceiver (g g' : Counts) : Prop where
  pipeDone : g'.pipeDone = g.pipeDone
  unackRecvPkt : g'.unackRecvPkt = g.unackRecvPkt
  routedAcks : g'.routedAcks = g.routedAcks
  cachedData : g'.cachedData = g.cachedData
  piped : g'.piped = g.piped

theorem SameReceiver.refl (g : Counts) : SameReceiver g g := ⟨rfl, rfl, rfl, rfl, rfl⟩

theorem SameReceiver.trans {a b c : Counts} (hab : SameReceiver a b) (hbc : SameReceiver b c) :
    SameReceiver a c :=
  ⟨hbc.1.trans hab.1, hbc.2.trans hab.2, hbc.3.trans hab.3, hbc.4.trans hab.4, hbc.5.trans hab.5⟩

theorem SameReceiver.push (c : Counts) (size : ℕ) :
    SameReceiver c (c.push gpMaxPacketSize size) := by
  unfold Counts.push
  split <;> exact ⟨rfl, rfl, rfl, rfl, rfl⟩

theorem SameReceiver.unackSendPkt (c : Counts) (n : ℤ) :
    SameReceiver c { c with unackSendPkt := n } := ⟨rfl, rfl, rfl, rfl, rfl⟩

theorem SameReceiver.pause (c : Counts) : SameReceiver c c.pause := by
  unfold Counts.pause
  split <;> exact ⟨rfl, rfl, rfl, rfl, rfl⟩

section

variable (h : Direction gpMaxPacketSize given eof f g nOut nBack)
include h

theorem Direction.congr_receiver (hg : SameReceiver g g') : Direction gpMaxPacketSize given eof f g' nOut nBack where
  acks := by rw [hg.pipeDone, hg.unackRecvPkt, hg.routedAcks]; exact h.acks
  data := by rw [hg.cachedData, hg.piped]; exact h.data
  fill := h.fill
  paused := h.paused
  recv_nonneg := by rw [hg.unackRecvPkt]; exact h.recv_nonneg
  recv_lt := by rw [hg.unackRecvPkt]; exact h.recv_lt
  reading := h.reading
  early := h.early

theorem Direction.sendAck_sender (n : ℤ) (k : ℕ) : Direction gpMaxPacketSize given eof
      ({ f with unackRecvPkt := n, pipeDone := k }.sendAck) g nOut nBack := by
  unfold Counts.sendAck
  split <;> exact { h with }

end

end direction

end Cloudberry.Proxy
