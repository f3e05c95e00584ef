/-
# A client of the interconnect proxy

`contrib/interconnect/proxy`: `ic_proxy_key.c`, `ic_proxy_packet.c`, `ic_proxy_client.c` and
`ic_proxy_obuf_push` of `ic_proxy_iobuf.c`.

A client lives in the proxy and is one end of a logical connection. What its backend sends is
collected in a buffer and routed to the other end in larger packets (c2p); what arrives for it is
written to the backend's pipe (p2c), or kept until a client can take it. The sender counts the
packets it has no acknowledgement for and stops reading from the backend when there are too many;
the receiver acknowledges every tenth packet the backend has taken.
-/

import Mathlib.Data.BitVec
import Mathlib.Order.Nat

namespace Cloudberry.Proxy

abbrev Byte : Type := BitVec 8

/-- The kinds of packets that clients and proxies exchange. -/
inductive ICProxyMessageType where
  | data
  | peerHello
  | peerHelloAck
  | peerQuit
  | hello
  | helloAck
  | bye
  | dataAck
deriving DecidableEq, Repr

/-- What names a logical connection, as seen from one end. -/
structure ICProxyKey where
  localContentId : ℤ
  localDbid : ℕ
  localPid : ℤ
  remoteContentId : ℤ
  remoteDbid : ℕ
  remotePid : ℤ
  sessionId : ℤ
  commandId : ℕ
  sendSliceIndex : ℤ
  recvSliceIndex : ℤ
deriving DecidableEq, Repr

namespace ICProxyKey

/-- `ic_proxy_key_equal`: neither the content ids nor the session id are compared. -/
def equal (key1 key2 : ICProxyKey) : Bool :=
  key1.localDbid = key2.localDbid && key1.localPid = key2.localPid &&
    key1.remoteDbid = key2.remoteDbid && key1.remotePid = key2.remotePid &&
    key1.commandId = key2.commandId && key1.sendSliceIndex = key2.sendSliceIndex &&
    key1.recvSliceIndex = key2.recvSliceIndex

/-- The same connection as seen from the other end. -/
def reverse (key : ICProxyKey) : ICProxyKey :=
  { key with
    localContentId := key.remoteContentId, remoteContentId := key.localContentId
    localDbid := key.remoteDbid, remoteDbid := key.localDbid
    localPid := key.remotePid, remotePid := key.localPid }

end ICProxyKey

def icProxyPktMagicNumber : ℕ := 0xBADDCAFE

def sizeofICProxyPkt : ℕ := 36

/-- A packet: the header of `ICProxyPkt` and the data behind it. -/
structure ICProxyPkt where
  magicNumber : ℕ
  type : ICProxyMessageType
  srcContentId : ℤ
  srcDbid : ℕ
  srcPid : ℤ
  dstContentId : ℤ
  dstDbid : ℕ
  dstPid : ℤ
  sessionId : ℤ
  commandId : ℕ
  sendSliceIndex : ℤ
  recvSliceIndex : ℤ
  data : List Byte
deriving DecidableEq, Repr

/-- A packet without data from the end that has the key. -/
def icProxyMessageInit (type : ICProxyMessageType) (key : ICProxyKey) : ICProxyPkt where
  magicNumber := icProxyPktMagicNumber
  type := type
  srcContentId := key.localContentId
  srcDbid := key.localDbid
  srcPid := key.localPid
  dstContentId := key.remoteContentId
  dstDbid := key.remoteDbid
  dstPid := key.remotePid
  sessionId := key.sessionId
  commandId := key.commandId
  sendSliceIndex := key.sendSliceIndex
  recvSliceIndex := key.recvSliceIndex
  data := []

namespace ICProxyPkt

section

variable (pkt : ICProxyPkt)

/-- `ic_proxy_key_from_p2c_pkt` -/
def p2cKey : ICProxyKey where
  localContentId := pkt.dstContentId
  localDbid := pkt.dstDbid
  localPid := pkt.dstPid
  remoteContentId := pkt.srcContentId
  remoteDbid := pkt.srcDbid
  remotePid := pkt.srcPid
  sessionId := pkt.sessionId
  commandId := pkt.commandId
  sendSliceIndex := pkt.sendSliceIndex
  recvSliceIndex := pkt.recvSliceIndex

def isValid : Bool := pkt.magicNumber = icProxyPktMagicNumber

/-- The packet belongs to the command the client works for,
as opposed to an earlier or a later one. -/
def isLive (key : ICProxyKey) : Bool :=
  pkt.sessionId = key.sessionId && pkt.commandId = key.commandId

def isOutOfDate (key : ICProxyKey) : Bool :=
  pkt.sessionId < key.sessionId ||
    (pkt.sessionId = key.sessionId && pkt.commandId < key.commandId)

def isInTheFuture (key : ICProxyKey) : Bool :=
  pkt.sessionId > key.sessionId ||
    (pkt.sessionId = key.sessionId && pkt.commandId > key.commandId)

end

end ICProxyPkt

def icProxyTresholdUnackPacketPause : ℤ := 100

def icProxyTresholdUnackPacketResume : ℤ := 30

def icProxyAckInterval : ℤ := 10

/-- A client. The bits of `state` have fields of their own; `reading` says that data is read
from the pipe, `obuf` is what is in the buffer behind the header. -/
structure ICProxyClient where
  key : ICProxyKey
  registered : Bool
  placeholder : Bool
  c2pShutting : Bool
  c2pShutted : Bool
  p2cShutting : Bool
  p2cShutted : Bool
  closing : Bool
  paused : Bool
  reading : Bool
  sending : ℤ
  unackSendPkt : ℤ
  unackRecvPkt : ℤ
  obuf : List Byte
  successor : Option ℕ
  pkts : List ICProxyPkt
  /-- all that was written to the pipe -/
  pipe : List ICProxyPkt
  /-- how many of these writes are done -/
  pipeDone : ℕ
  /-- what was handed to the router -/
  routed : List ICProxyPkt
  /-- the messages whose callback is still to come -/
  unsent : List ICProxyMessageType
deriving DecidableEq, Repr

namespace ICProxyClient

/-- `ic_proxy_client_new` -/
def new (key : ICProxyKey) (placeholder : Bool) : ICProxyClient where
  key := key
  registered := false
  placeholder := placeholder
  c2pShutting := false
  c2pShutted := false
  p2cShutting := false
  p2cShutted := false
  closing := false
  paused := false
  reading := false
  sending := 0
  unackSendPkt := 0
  unackRecvPkt := 0
  obuf := []
  successor := none
  pkts := []
  pipe := []
  pipeDone := 0
  routed := []
  unsent := []

/-- `ic_proxy_router_route` without a callback. -/
def route (client : ICProxyClient) (pkt : ICProxyPkt) : ICProxyClient :=
  { client with routed := client.routed ++ [pkt] }

/-- A message is routed, and its callback counts as still to come. -/
def routeMessage (client : ICProxyClient) (type : ICProxyMessageType) : ICProxyClient :=
  { client.route (icProxyMessageInit type client.key) with
    sending := client.sending + 1
    unsent := client.unsent ++ [type] }

/-! ### Closing -/

section

variable (client : ICProxyClient)

/-- `ic_proxy_client_maybe_close`; a closing client is unregistered. -/
def maybeClose : ICProxyClient :=
  if client.sending = 0 ∧ client.c2pShutted ∧ client.p2cShutted then
    { client with closing := true }
  else client

/-- No more is written to the backend; the shutdown of the pipe is on its way. -/
def shutdownP2c : ICProxyClient :=
  if client.p2cShutting then client.maybeClose
  else { client with p2cShutting := true }

def onShutdownP2c : ICProxyClient :=
  { client with p2cShutted := true }.maybeClose

/-- No more is read from the backend; the other end is told with a BYE. -/
def shutdownC2p : ICProxyClient :=
  if client.c2pShutting then client.maybeClose
  else
    let client := { client with c2pShutting := true }
    if client.registered then client.routeMessage .bye
    else { client with c2pShutted := true }.shutdownP2c

/-- The callback of the BYE. -/
def onSentC2pBye : ICProxyClient :=
  { client with sending := client.sending - 1, c2pShutted := true }.maybeClose

def onSentC2pResume : ICProxyClient :=
  { client with sending := client.sending - 1 }.maybeClose

end

/-! ### Flow control -/

/-- One acknowledgement stands for ten packets that the backend has taken. -/
def maybeSendAckMessage (client : ICProxyClient) : ICProxyClient :=
  if client.unackRecvPkt ≥ icProxyAckInterval then
    { client with unackRecvPkt := client.unackRecvPkt - icProxyAckInterval }.routeMessage .dataAck
  else client

/-- Reading from the backend stops at 100 packets without an acknowledgement -/
def maybePause (client : ICProxyClient) : ICProxyClient :=
  if client.unackSendPkt ≥ icProxyTresholdUnackPacketPause ∧ ¬ client.paused then
    { client with paused := true, reading := false }
  else client

/-- and goes on at 30. -/
def maybeResume (client : ICProxyClient) : ICProxyClient :=
  if client.unackSendPkt ≤ icProxyTresholdUnackPacketResume ∧ client.paused then
    { client with reading := true, paused := false }
  else client

/-! ### From the backend -/

section

variable (gpMaxPacketSize : ℕ) (client : ICProxyClient)

/-- `ic_proxy_obuf_push` with `ic_proxy_client_route_c2p_data`; `IC_PROXY_MAX_PKT_SIZE` is
`Gp_max_packet_size` and the header. -/
def obufPush (data : List Byte) : Except String ICProxyClient :=
  let size := data.length
  let len := sizeofICProxyPkt + client.obuf.length
  let maxPktSize := gpMaxPacketSize + sizeofICProxyPkt
  if size = 0 ∨ size + len > maxPktSize then
    if sizeofICProxyPkt + size > maxPktSize then
      .error s!"ic-proxy: not enough buffer to store the data: the data size is {size} bytes, but the buffer size is only {maxPktSize} bytes, including a {sizeofICProxyPkt} bytes header"
    else if len = sizeofICProxyPkt then .ok { client with obuf := data }
    else
      .ok { client.route { icProxyMessageInit .data client.key with data := client.obuf } with
        obuf := data }
  else .ok { client with obuf := client.obuf ++ data }

/-- A packet of the backend is counted and put into the buffer. -/
def onC2pDataPkt (data : List Byte) : Except String ICProxyClient :=
  { client with unackSendPkt := client.unackSendPkt + 1 }.maybePause.obufPush gpMaxPacketSize data

/-- `ic_proxy_client_on_c2p_data` on the packets that a read completes. -/
def onC2pData (packets : List (List Byte)) : Except String ICProxyClient :=
  if client.paused then .error "paused already, but still received DATA from the backend"
  else packets.foldlM (onC2pDataPkt gpMaxPacketSize) client

/-- What is left in the `ibuf` is flushed before shutting down. -/
def flushIbuf (ibuf : List Byte) : Except String ICProxyClient :=
  if ibuf.length > 0 then client.onC2pDataPkt gpMaxPacketSize ibuf else .ok client

/-- `ic_proxy_client_on_c2p_data` at the end of the backend's stream. -/
def onC2pEof (ibuf : List Byte) : Except String ICProxyClient := do
  let client ← client.flushIbuf gpMaxPacketSize ibuf
  let client ← client.obufPush gpMaxPacketSize []
  .ok { client with reading := false }.shutdownC2p

end

/-! ### To the backend -/

section

variable (client : ICProxyClient)

/-- The callback of a write to the backend; a failure shuts down the other direction. -/
def onSentP2cData (ok : Bool) : ICProxyClient :=
  let client := if ok then client else client.shutdownC2p
  { client with
    sending := client.sending - 1
    unackRecvPkt := client.unackRecvPkt + 1
    pipeDone := client.pipeDone + 1 }.maybeSendAckMessage

/-- A BYE or an acknowledgement arrives. -/
def onP2cMessage (pkt : ICProxyPkt) : Except String ICProxyClient :=
  match pkt.type with
  | .bye => .ok client.maybeResume.shutdownP2c
  | .dataAck =>
    .ok { client with unackSendPkt := client.unackSendPkt - icProxyAckInterval }.maybeResume
  | _ => .error "unsupported message"

def cacheP2cPkt (pkt : ICProxyPkt) : ICProxyClient :=
  { client with pkts := client.pkts ++ [pkt] }

def cacheP2cPkts (pkts : List ICProxyPkt) : ICProxyClient :=
  { client with pkts := client.pkts ++ pkts }

/-- A packet arrives: what is out of date is dropped, and what cannot be handled yet is kept. -/
def onP2cData (pkt : ICProxyPkt) : Except String ICProxyClient :=
  if ¬ pkt.isValid then .ok client
  else if client.placeholder then .ok (client.cacheP2cPkt pkt)
  else if ¬ pkt.isLive client.key then
    if pkt.isOutOfDate client.key then .ok client
    else .ok (client.cacheP2cPkt pkt)
  else if pkt.type = .data then
    if client.p2cShutting then .ok (client.cacheP2cPkt pkt)
    else .ok { client with sending := client.sending + 1, pipe := client.pipe ++ [pkt] }
  else client.onP2cMessage pkt

end

/-- The loop of `ic_proxy_client_handle_p2c_cache`; none if it has not ended after this many
turns. -/
def handleP2cCacheLoop : ℕ → ICProxyClient → Option (Except String ICProxyClient)
  | 0, _ => none
  | fuel + 1, client =>
    match client.pkts with
    | [] => some (.ok client)
    | pkt :: pkts =>
      if client.p2cShutting then some (.ok client)
      else
        match { client with pkts := pkts }.onP2cData pkt with
        | .error msg => some (.error msg)
        | .ok client => handleP2cCacheLoop fuel client

def handleP2cCache (fuel : ℕ) (client : ICProxyClient) : Option (Except String ICProxyClient) :=
  if client.placeholder then some (.ok client) else client.handleP2cCacheLoop fuel

/-- `ic_proxy_client_maybe_start_read_data`: the kept packets first. -/
def maybeStartReadData (fuel : ℕ) (client : ICProxyClient) : Option (Except String ICProxyClient) :=
  if ¬ client.registered then some (.ok client)
  else { client with reading := true }.handleP2cCache fuel

end ICProxyClient

end Cloudberry.Proxy
