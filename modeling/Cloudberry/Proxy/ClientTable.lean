/-
# The client table of a proxy

The table of `contrib/interconnect/proxy/ic_proxy_client.c`, and the local branch of
`ic_proxy_router_route`.

The table has at most one entry for a key. Packets that come before their client are kept by a
placeholder; a client that comes before its predecessor of the same key is gone waits as its
successor. When a client unregisters, the packets it has not handled go to the successor, or to a
new placeholder.

The clients live in a heap and are known by their addresses. `none` stands for an error, for a
call that is not made in this state, and for the loop over the cached packets not ending.
-/

import Cloudberry.Proxy.Client

namespace Cloudberry.Proxy

/-- The clients of a proxy by their addresses, and the hash table that finds one by its key. -/
structure ClientTable where
  clients : ℕ → ICProxyClient
  /-- the addresses in use are those below -/
  size : ℕ
  /-- `ic_proxy_clients` -/
  entry : ICProxyKey → Option ℕ
  /-- the packets that have arrived so far -/
  arrived : List ICProxyPkt
  /-- the clients registered so far, without the placeholders -/
  registrations : List ℕ

namespace ClientTable

def noKey : ICProxyKey := ⟨0, 0, 0, 0, 0, 0, 0, 0, 0, 0⟩

/-- `ic_proxy_client_table_init` -/
def init : ClientTable where
  clients := fun _ => .new noKey true
  size := 0
  entry := fun _ => none
  arrived := []
  registrations := []

section

variable (table : ClientTable)

def put (id : ℕ) (client : ICProxyClient) : ClientTable :=
  { table with clients := Function.update table.clients id client }

/-- `ic_proxy_client_new`; the address is the old size. -/
def new (key : ICProxyKey) (placeholder : Bool) : ClientTable :=
  { table.put table.size (.new key placeholder) with size := table.size + 1 }

/-- `hash_search` with `HASH_REMOVE` -/
def remove (key : ICProxyKey) : ClientTable :=
  { table with entry := fun k => if k.equal key then none else table.entry k }

section

variable (id : ℕ)

/-- The entry of the client's key is the client from now on. -/
def enter : ClientTable :=
  let client := table.clients id
  { table with
    clients := Function.update table.clients id { client with registered := true }
    entry := fun k => if k.equal client.key then some id else table.entry k
    registrations :=
      if client.placeholder then table.registrations else table.registrations ++ [id] }

/-- The client is taken out of the table; it has neither a successor nor packets any more. -/
def leave : ClientTable :=
  let client := table.clients id
  (table.remove client.key).put id
    { client with registered := false, successor := none, pkts := [] }

/-- `ic_proxy_client_register`; a placeholder that is replaced is freed. -/
def register : Except String ClientTable :=
  let client := table.clients id
  if client.registered then .ok table
  else
    match table.entry client.key with
    | none => .ok (table.enter id)
    | some found =>
      let placeholder := table.clients found
      if found = id then .error "unregistered client found in the client table"
      else if ¬ placeholder.placeholder then
        if placeholder.successor.isSome then .error "the previous client already has a successor"
        else .ok (table.put found { placeholder with successor := some id })
      else
        .ok (((table.leave found).put id (client.cacheP2cPkts placeholder.pkts)).enter id)

/-- `ic_proxy_client_maybe_start_read_data` -/
def maybeStartReadData : Option ClientTable :=
  let client := table.clients id
  match client.maybeStartReadData (client.pkts.length + 1) with
  | some (.ok client) => some (table.put id client)
  | _ => none

def registerOk : Option ClientTable :=
  match table.register id with
  | .ok table => some table
  | .error _ => none

/-- `ic_proxy_client_unregister` -/
def unregister : Option ClientTable :=
  let client := table.clients id
  if ¬ client.registered then some table
  else
    let table := table.leave id
    match client.successor with
    | some successor =>
      -- transfer unhandled pkts to my successor
      let table := table.put successor ((table.clients successor).cacheP2cPkts client.pkts)
      (table.registerOk successor).bind fun table => table.maybeStartReadData successor
    | none =>
      if client.pkts = [] then some table
      else
        -- transfer unhandled pkts to my placeholder
        let placeholder := table.size
        ((table.new client.key true).registerOk placeholder).map fun table =>
          table.put placeholder ((table.clients placeholder).cacheP2cPkts client.pkts)

/-- The client after a call; `ic_proxy_client_close` unregisters it. -/
def finish (client : ICProxyClient) : Option ClientTable :=
  if client.closing then (table.put id client).unregister id else some (table.put id client)

end

/-- `ic_proxy_client_blessed_lookup` -/
def blessedLookup (key : ICProxyKey) : Option (ClientTable × ℕ) :=
  match table.entry key with
  | some id => some (table, id)
  | none =>
    ((table.new key true).registerOk table.size).map fun table' => (table', table.size)

/-- `ic_proxy_router_route` of a packet to this proxy. -/
def route (pkt : ICProxyPkt) : Option ClientTable :=
  (table.blessedLookup pkt.p2cKey).bind fun (table, id) =>
    match (table.clients id).onP2cData pkt with
    | .error _ => none
    | .ok client => { table with arrived := table.arrived ++ [pkt] }.finish id client

/-- `ic_proxy_client_on_sent_hello_ack` of a new client. -/
def onSentHelloAck (key : ICProxyKey) : Option ClientTable :=
  ((table.new key false).registerOk table.size).bind fun table' =>
    table'.maybeStartReadData table.size

end

/-- One turn of the loop of `ic_proxy_client_table_shutdown_by_dbid`. -/
def shutdownClient (dbid : ℕ) (table : ClientTable) (id : ℕ) : Option ClientTable :=
  let client := table.clients id
  if ¬ client.registered then some table
  else
    -- cached pkts must also be dropped
    let client := { client with pkts := [] }
    if client.placeholder ∨ client.key.remoteDbid ≠ dbid then some (table.put id client)
    else table.finish id client.shutdownC2p.shutdownP2c

/-- `ic_proxy_client_table_shutdown_by_dbid` -/
def shutdownByDbid (table : ClientTable) (dbid : ℕ) : Option ClientTable :=
  (List.range table.size).foldlM (shutdownClient dbid) table

/-- A client of a backend that is in the table. -/
def Active (table : ClientTable) (id : ℕ) : Prop :=
  id < table.size ∧ (table.clients id).registered = true ∧ (table.clients id).placeholder = false

instance (table : ClientTable) (id : ℕ) : Decidable (table.Active id) := by
  unfold Active
  infer_instance

end ClientTable

/-- What happens in a proxy, from the outside. -/
inductive ProxyEvent where
  /-- a packet or a message arrives -/
  | arrive (pkt : ICProxyPkt)
  /-- the HELLO ACK to a new client is sent -/
  | sentHelloAck (key : ICProxyKey)
  /-- a read from the backend completes these packets -/
  | read (id : ℕ) (packets : List (List Byte))
  /-- the end of the backend's stream, with the bytes of an incomplete packet -/
  | readEof (id : ℕ) (ibuf : List Byte)
  /-- the oldest write to the backend is done, or has failed -/
  | written (id : ℕ) (ok : Bool)
  /-- the oldest message of the client is sent -/
  | sent (id : ℕ)
  /-- the pipe to the backend is shut down -/
  | shutdownDone (id : ℕ)
  /-- the connection to a peer is lost -/
  | lost (dbid : ℕ)
deriving Repr

namespace ClientTable

/-- One callback of the event loop; `none` where the source raises an error. -/
def step (gpMaxPacketSize : ℕ) (table : ClientTable) : ProxyEvent → Option ClientTable
  | .arrive pkt => table.route pkt
  | .sentHelloAck key => table.onSentHelloAck key
  | .read id packets =>
    if table.Active id ∧ (table.clients id).reading then
      match (table.clients id).onC2pData gpMaxPacketSize packets with
      | .error _ => none
      | .ok client => table.finish id client
    else none
  | .readEof id ibuf =>
    if table.Active id ∧ (table.clients id).reading then
      match (table.clients id).onC2pEof gpMaxPacketSize ibuf with
      | .error _ => none
      | .ok client => table.finish id client
    else none
  | .written id ok =>
    let client := table.clients id
    if table.Active id ∧ client.pipeDone < client.pipe.length then
      table.finish id (client.onSentP2cData ok)
    else none
  | .sent id =>
    let client := table.clients id
    if table.Active id then
      match client.unsent with
      | [] => none
      | type :: unsent =>
        let client := { client with unsent := unsent }
        if type = .bye then table.finish id client.onSentC2pBye
        else table.finish id client.onSentC2pResume
    else none
  | .shutdownDone id =>
    let client := table.clients id
    if table.Active id ∧ client.p2cShutting ∧ ¬ client.p2cShutted ∧
        client.pipeDone = client.pipe.length then
      table.finish id client.onShutdownP2c
    else none
  | .lost dbid => table.shutdownByDbid dbid

end ClientTable

end Cloudberry.Proxy
