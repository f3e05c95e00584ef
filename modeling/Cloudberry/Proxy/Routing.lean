/-
# Whose packets are where

The packets that arrive for a key are a stream, which the BYE messages cut into segments; the
clients of a key take the segments one after the other, in the order they were registered. The
law that holds between the calls is `Accounts`: the client with number `i` has the `i`-th segment
in its pipe, and what is behind the last client's BYE waits in the cache of the key's entry.
-/

import Cloudberry.Proxy.ClientTable
import Cloudberry.Proxy.Inbox

namespace Cloudberry.Proxy

open Segments List Function ICProxyClient ICProxyKey ICProxyPkt Nat

/-! ### Keys -/

namespace ICProxyKey

variable {k k' k'' : ICProxyKey}

theorem equal_iff : k.equal k' = true ↔ k.localDbid = k'.localDbid ∧ k.localPid = k'.localPid ∧
    k.remoteDbid = k'.remoteDbid ∧ k.remotePid = k'.remotePid ∧ k.commandId = k'.commandId ∧
    k.sendSliceIndex = k'.sendSliceIndex ∧ k.recvSliceIndex = k'.recvSliceIndex := by
  simp [equal, and_assoc]

theorem equal_refl (k : ICProxyKey) : k.equal k = true := by
  simp [equal]

theorem equal_comm (k k' : ICProxyKey) : k.equal k' = k'.equal k := by
  rw [Bool.eq_iff_iff, equal_iff, equal_iff]
  simp [eq_comm]

theorem equal_congr (h : k.equal k' = true) (k'' : ICProxyKey) : k''.equal k = k''.equal k' := by
  rw [equal_iff] at h
  obtain ⟨h₁, h₂, h₃, h₄, h₅, h₆, h₇⟩ := h
  simp [equal, h₁, h₂, h₃, h₄, h₅, h₆, h₇]

theorem equal_trans (h : k.equal k' = true) (h' : k'.equal k'' = true) : k.equal k'' = true := by
  rw [← equal_congr h' k]
  exact h

end ICProxyKey

namespace ClientTable

/-! ### What a well-formed table is -/

variable (session : ICProxyKey → ℤ)

/-- A client whose key and packets belong to the session of its key. -/
structure ClientOk (client : ICProxyClient) : Prop where
  sessionId : client.key.sessionId = session client.key
  pkts : ∀ pkt ∈ client.pkts, Proper client.key pkt
  shut : ShutInOrder client

/-- The entries are the registered clients, one for a key, and a successor is a new client. -/
structure WellFormed (table : ClientTable) : Prop where
  entry_congr : ∀ k k', k.equal k' = true → table.entry k = table.entry k'
  entry_some : ∀ k id, table.entry k = some id → id < table.size ∧
    (table.clients id).registered = true ∧ k.equal (table.clients id).key = true
  registered : ∀ id < table.size, (table.clients id).registered = true →
    table.entry (table.clients id).key = some id
  listed : ∀ id ∈ table.registrations, id < table.size
  nodup : table.registrations.Nodup
  client : ∀ id < table.size, ClientOk session (table.clients id)
  opened : ∀ id < table.size, (table.clients id).registered = true →
    (table.clients id).closing = false
  successor : ∀ id < table.size, (table.clients id).registered = true →
    ∀ j, (table.clients id).successor = some j → j < table.size ∧ j ∉ table.registrations ∧
      table.clients j = .new (table.clients j).key false ∧
      (table.clients id).key.equal (table.clients j).key = true

theorem wellFormed_init : WellFormed session init where
  entry_congr := fun _ _ _ => rfl
  entry_some := nofun
  registered := nofun
  listed := nofun
  nodup := nodup_nil
  client := nofun
  opened := nofun
  successor := nofun

/-! ### What is said about a key -/

section

variable (table : ClientTable) (k : ICProxyKey)

/-- The DATA packets and BYE messages that have arrived for a key. -/
def streamOf : List ICProxyPkt :=
  table.arrived.filter fun pkt => k.equal pkt.p2cKey && pkt.inStream

/-- The clients of a key, in the order they were registered. -/
def clientsOf : List ℕ :=
  table.registrations.filter fun id => k.equal (table.clients id).key

/-- The packets that wait in the entry of a key. -/
def cacheOf : List ICProxyPkt :=
  match table.entry k with
  | none => []
  | some id => (table.clients id).pkts

/-- The packets of a key are where they belong, with `cache` as those that wait. -/
structure Accounts (cache : List ICProxyPkt) : Prop where
  served : ∀ i id, (table.clientsOf k)[i]? = some id →
    (table.clients id).pipe = segment isBye i (table.streamOf k) ∧
    (table.clients id).p2cShutting = decide (i < (table.streamOf k).countP isBye)
  cached : cache.filter (·.inStream) = afterSeps isBye (table.clientsOf k).length (table.streamOf k)
  idle : (∀ id, table.entry k = some id → (table.clients id).placeholder = true) →
    (table.clientsOf k).length ≤ (table.streamOf k).countP isBye
  current : ∀ id, table.entry k = some id → (table.clients id).placeholder = false →
    ∃ older, table.clientsOf k = older ++ [id] ∧ older.length ≤ (table.streamOf k).countP isBye

def Routed : Prop := Accounts table k (table.cacheOf k)

end

/-- The session is told by what is compared of a key. -/
def OfKey : Prop := ∀ k k', k.equal k' = true → session k = session k'

/-- Nothing of the key has changed. -/
structure Agrees (k : ICProxyKey) (table table' : ClientTable) : Prop where
  size_le : table.size ≤ table'.size
  entry : table'.entry k = table.entry k
  streamOf : table'.streamOf k = table.streamOf k
  clientsOf : table'.clientsOf k = table.clientsOf k
  clients : ∀ id < table.size, k.equal (table.clients id).key = true →
    table'.clients id = table.clients id

variable {session} {table table' table'' : ClientTable} {k key : ICProxyKey}
  {cache : List ICProxyPkt} {id : ℕ} {client : ICProxyClient}

theorem Agrees.refl (k : ICProxyKey) (table : ClientTable) : Agrees k table table :=
  ⟨le_rfl, rfl, rfl, rfl, fun _ _ _ => rfl⟩

theorem Agrees.trans (h : Agrees k table table') (h' : Agrees k table' table'') :
    Agrees k table table'' where
  size_le := h.size_le.trans h'.size_le
  entry := h'.entry.trans h.entry
  streamOf := h'.streamOf.trans h.streamOf
  clientsOf := h'.clientsOf.trans h.clientsOf
  clients := fun id hid hkey => by
    have hsame := h.clients id hid hkey
    rw [h'.clients id (hid.trans_le h.size_le) (by rw [hsame]; exact hkey), hsame]

theorem mem_clientsOf (hmem : id ∈ table.clientsOf k) :
    id ∈ table.registrations ∧ k.equal (table.clients id).key = true := by
  simpa [clientsOf] using hmem

section

variable (h : Agrees k table table')
include h

variable (hwf : WellFormed session table)
include hwf

theorem Agrees.cacheOf : table'.cacheOf k = table.cacheOf k := by
  unfold ClientTable.cacheOf
  rw [h.entry]
  cases hentry : table.entry k with
  | none => rfl
  | some id =>
    obtain ⟨hid, -, hkey⟩ := hwf.entry_some k id hentry
    dsimp only
    rw [h.clients id hid hkey]

theorem Agrees.accounts (hacc : Accounts table k cache) : Accounts table' k cache where
  served := fun i id hget => by
    rw [h.clientsOf] at hget
    obtain ⟨hlisted, hkey⟩ := mem_clientsOf (mem_of_getElem? hget)
    rw [h.clients id (hwf.listed id hlisted) hkey, h.streamOf]
    exact hacc.served i id hget
  cached := by
    rw [h.clientsOf, h.streamOf]
    exact hacc.cached
  idle := fun hplace => by
    rw [h.clientsOf, h.streamOf]
    refine hacc.idle fun id hentry => ?_
    obtain ⟨hid, -, hkey⟩ := hwf.entry_some k id hentry
    rw [← h.clients id hid hkey]
    exact hplace id (h.entry.trans hentry)
  current := fun id hentry hplace => by
    rw [h.entry] at hentry
    obtain ⟨hid, -, hkey⟩ := hwf.entry_some k id hentry
    rw [h.clients id hid hkey] at hplace
    rw [h.clientsOf, h.streamOf]
    exact hacc.current id hentry hplace

theorem Agrees.routed (hrouted : table.Routed k) : table'.Routed k := by
  rw [Routed, h.cacheOf hwf]
  exact h.accounts hwf hrouted

end

variable (session) in
/-- What is done for one key, with `cache` as its packets that wait; the others are left alone. -/
structure Moves (key : ICProxyKey) (cache : List ICProxyPkt) (table table' : ClientTable) :
    Prop where
  wellFormed : WellFormed session table'
  other : ∀ k, k.equal key = false → Agrees k table table'
  mine : ∀ k, k.equal key = true → Accounts table k cache → table'.Routed k

theorem Moves.after (h : Moves session key cache table' table'')
    (hother : ∀ k, k.equal key = false → Agrees k table table')
    (hmine : ∀ k, k.equal key = true → Accounts table k cache → Accounts table' k cache) :
    Moves session key cache table table'' where
  wellFormed := h.wellFormed
  other := fun k hk => (hother k hk).trans (h.other k hk)
  mine := fun k hk hacc => h.mine k hk (hmine k hk hacc)

theorem Moves.routed (h : Moves session key cache table table') (hwf : WellFormed session table)
    (hcache : k.equal key = true → table.cacheOf k = cache) (hrouted : table.Routed k) :
    table'.Routed k := by
  cases hk : k.equal key with
  | false => exact (h.other k hk).routed hwf hrouted
  | true =>
    rw [Routed, hcache hk] at hrouted
    exact h.mine k hk hrouted

/-! ### Changing one client -/

@[simp]
theorem put_clients_self : (table.put id client).clients id = client := update_self _ _ _

variable {j : ℕ}

theorem put_clients_of_ne (h : j ≠ id) : (table.put id client).clients j = table.clients j :=
  update_of_ne h _ _

theorem put_clients_eq {β : Type} {f : ICProxyClient → β} (h : f client = f (table.clients id))
    (j : ℕ) : f ((table.put id client).clients j) = f (table.clients j) := by
  by_cases hj : j = id
  · rw [hj, put_clients_self, h]
  · rw [put_clients_of_ne hj]

theorem clientsOf_put (hkey : client.key = (table.clients id).key) :
    (table.put id client).clientsOf k = table.clientsOf k := by
  refine filter_congr fun j _ => ?_
  rw [put_clients_eq hkey]

theorem agrees_put (hkey : client.key = (table.clients id).key)
    (hne : k.equal (table.clients id).key = false) : Agrees k table (table.put id client) where
  size_le := le_rfl
  entry := rfl
  streamOf := rfl
  clientsOf := clientsOf_put hkey
  clients := fun j _ hj => put_clients_of_ne fun heq => by
    rw [heq, hne] at hj
    cases hj

theorem WellFormed.not_successor (h : WellFormed session table)
    (hreg : (table.clients id).registered = true) {i : ℕ} (hi : i < table.size)
    (hireg : (table.clients i).registered = true) : (table.clients i).successor ≠ some id := by
  intro hsucc
  obtain ⟨-, -, hnew, -⟩ := h.successor i hi hireg id hsucc
  rw [hnew] at hreg
  cases hreg

/-- A client that has its key but is not registered yet. -/
def Waiting (table : ClientTable) (key : ICProxyKey) (j : ℕ) : Prop :=
  j < table.size ∧ j ∉ table.registrations ∧
    table.clients j = .new (table.clients j).key false ∧ key.equal (table.clients j).key = true

section

variable (h : WellFormed session table)
include h

theorem WellFormed.update (hkey : client.key = (table.clients id).key)
    (hreg : client.registered = (table.clients id).registered) (hsucc : client.registered = true →
      ∀ j, client.successor = some j → j ≠ id ∧ table.Waiting client.key j)
    (hok : ClientOk session client) (hopen : client.registered = true → client.closing = false)
    (hfree : ∀ i < table.size, (table.clients i).registered = true →
      (table.clients i).successor ≠ some id) : WellFormed session (table.put id client) := by
  have hkeys := put_clients_eq hkey
  have hregs := put_clients_eq hreg
  refine ⟨h.entry_congr, fun k j hj => ?_, fun j hj hjreg => ?_, h.listed, h.nodup,
    fun j hj => ?_, fun j hj hjreg => ?_, fun i hi hireg j hj => ?_⟩
  · rw [hkeys, hregs]
    exact h.entry_some k j hj
  · rw [hkeys]
    exact h.registered j hj (hregs j ▸ hjreg)
  · by_cases heq : j = id
    · rw [heq, put_clients_self]
      exact hok
    · rw [put_clients_of_ne heq]
      exact h.client j hj
  · by_cases heq : j = id
    · rw [heq, put_clients_self] at hjreg ⊢
      exact hopen hjreg
    · rw [put_clients_of_ne heq] at hjreg ⊢
      exact h.opened j hj hjreg
  · by_cases heq : i = id
    · rw [heq, put_clients_self] at hireg hj ⊢
      obtain ⟨hne, hwaiting⟩ := hsucc hireg j hj
      rw [put_clients_of_ne hne]
      exact hwaiting
    · rw [put_clients_of_ne heq] at hireg hj ⊢
      have hne : j ≠ id := fun hjid => hfree i hi hireg (hjid ▸ hj)
      rw [put_clients_of_ne hne]
      exact h.successor i hi hireg j hj

variable (hid : id < table.size)
include hid

theorem WellFormed.put (hkey : client.key = (table.clients id).key)
    (hreg : client.registered = (table.clients id).registered)
    (hsucc : client.successor = (table.clients id).successor) (hok : ClientOk session client)
    (hopen : client.registered = true → client.closing = false)
    (hfree : ∀ i < table.size, (table.clients i).registered = true →
      (table.clients i).successor ≠ some id) : WellFormed session (table.put id client) := by
  refine h.update hkey hreg (fun hreg' j hj => ?_) hok hopen hfree
  rw [hreg] at hreg'
  rw [hsucc] at hj
  refine ⟨fun heq => h.not_successor hreg' hid hreg' (heq ▸ hj), ?_⟩
  rw [hkey]
  exact h.successor id hid hreg' j hj

theorem WellFormed.follow (hreg : (table.clients id).registered = true)
    (hfollows : Follows (table.clients id) client)
    (hpkts : ∀ pkt ∈ client.pkts, Proper client.key pkt) (hopen : client.closing = false) :
    WellFormed session (table.put id client) := by
  have hok := h.client id hid
  refine h.put hid hfollows.key hfollows.registered hfollows.successor
    ⟨?_, hpkts, hfollows.shut hok.shut⟩ (fun _ => hopen) fun i hi => h.not_successor hreg hi
  rw [hfollows.key]
  exact hok.sessionId

/-! ### Leaving the table, entering it -/

theorem WellFormed.entry_key (hreg : (table.clients id).registered = true)
    (hk : k.equal (table.clients id).key = true) : table.entry k = some id := by
  rw [h.entry_congr _ _ hk]
  exact h.registered id hid hreg

end

theorem leave_clients_of_ne (h : j ≠ id) : (table.leave id).clients j = table.clients j :=
  put_clients_of_ne h

theorem leave_clients_self : (table.leave id).clients id =
    { table.clients id with registered := false, successor := none, pkts := [] } :=
  put_clients_self

theorem leave_entry : (table.leave id).entry k =
    if k.equal (table.clients id).key then none else table.entry k :=
  rfl

theorem leave_clients_eq {β : Type} {f : ICProxyClient → β} (h : f { table.clients id with
    registered := false, successor := none, pkts := [] } = f (table.clients id)) (j : ℕ) :
    f ((table.leave id).clients j) = f (table.clients j) :=
  put_clients_eq h j

theorem leave_key (j : ℕ) : ((table.leave id).clients j).key = (table.clients j).key :=
  leave_clients_eq (f := key) rfl j

theorem WellFormed.leave (h : WellFormed session table) (hid : id < table.size)
    (hreg : (table.clients id).registered = true) (hkey : client.key = (table.clients id).key)
    (hok : ClientOk session client) : WellFormed session ((table.put id client).leave id) := by
  have hself : (table.put id client).clients id = client := put_clients_self
  have hne : ∀ j, j ≠ id → ((table.put id client).leave id).clients j = table.clients j :=
    fun j hj => (leave_clients_of_ne hj).trans (put_clients_of_ne hj)
  have hentry : ∀ k, ((table.put id client).leave id).entry k =
      if k.equal client.key then none else table.entry k := by
    intro k
    rw [leave_entry, hself]
    rfl
  have hregs : ∀ j, (((table.put id client).leave id).clients j).registered = true →
      j ≠ id ∧ (table.clients j).registered = true := by
    intro j hj
    by_cases heq : j = id
    · rw [heq, leave_clients_self] at hj
      cases hj
    · rw [hne j heq] at hj
      exact ⟨heq, hj⟩
  refine ⟨fun k k' heq => ?_, fun k j hj => ?_, fun j hj hjreg => ?_, h.listed, h.nodup,
    fun j hj => ?_, fun j hj hjreg => ?_, fun i hi hireg j hj => ?_⟩
  · have hsame : k.equal client.key = k'.equal client.key := by
      rw [equal_comm k, equal_comm k', equal_congr heq]
    rw [hentry, hentry, hsame, h.entry_congr k k' heq]
  · rw [hentry] at hj
    split_ifs at hj with hother
    obtain ⟨hlt, hjreg, hequal⟩ := h.entry_some k j hj
    have hjid : j ≠ id := fun heq => hother (by rw [hkey, ← heq]; exact hequal)
    rw [hne j hjid]
    exact ⟨hlt, hjreg, hequal⟩
  · obtain ⟨hjid, hold⟩ := hregs j hjreg
    rw [hne j hjid, hentry]
    have hother : (table.clients j).key.equal client.key = false := by
      refine Bool.eq_false_iff.2 fun heq => hjid ?_
      rw [hkey] at heq
      have hboth := h.entry_key hid hreg heq
      rw [h.registered j hj hold] at hboth
      exact Option.some.inj hboth
    rw [hother]
    exact h.registered j hj hold
  · by_cases heq : j = id
    · rw [heq, leave_clients_self, hself]
      exact ⟨hok.sessionId, forall_mem_nil _, hok.shut⟩
    · rw [hne j heq]
      exact h.client j hj
  · obtain ⟨hjid, hold⟩ := hregs j hjreg
    rw [hne j hjid]
    exact h.opened j hj hold
  · obtain ⟨hiid, hold⟩ := hregs i hireg
    rw [hne i hiid] at hj ⊢
    have hjid : j ≠ id := fun heq => h.not_successor hreg hi hold (heq ▸ hj)
    rw [hne j hjid]
    exact h.successor i hi hold j hj

theorem agrees_leave (hne : k.equal (table.clients id).key = false) :
    Agrees k table (table.leave id) where
  size_le := le_rfl
  entry := by rw [leave_entry, hne, if_neg Bool.false_ne_true]
  streamOf := rfl
  clientsOf := by
    simp only [clientsOf, leave_key]
    rfl
  clients := fun j _ hj => leave_clients_of_ne fun heq => by
    rw [heq, hne] at hj
    cases hj

theorem enter_clients_self :
    (table.enter id).clients id = { table.clients id with registered := true } :=
  update_self _ _ _

theorem enter_clients_of_ne (h : j ≠ id) : (table.enter id).clients j = table.clients j :=
  update_of_ne h _ _

theorem enter_entry : (table.enter id).entry k =
    if k.equal (table.clients id).key then some id else table.entry k :=
  rfl

theorem enter_registrations : (table.enter id).registrations =
    if (table.clients id).placeholder then table.registrations
    else table.registrations ++ [id] :=
  rfl

theorem enter_key (j : ℕ) : ((table.enter id).clients j).key = (table.clients j).key :=
  put_clients_eq (f := key) (by rfl) j

theorem WellFormed.enter (h : WellFormed session table) (hid : id < table.size)
    (hnone : table.entry (table.clients id).key = none) (hunlisted : id ∉ table.registrations)
    (hclosing : (table.clients id).closing = false)
    (hsucc : (table.clients id).successor = none) : WellFormed session (table.enter id) := by
  -- whoever is registered already has another key
  have hother : ∀ j < table.size, (table.clients j).registered = true →
      (table.clients j).key.equal (table.clients id).key = false := by
    intro j hj hjreg
    refine Bool.eq_false_iff.2 fun heq => ?_
    rw [← h.entry_congr _ _ heq, h.registered j hj hjreg] at hnone
    cases hnone
  refine ⟨fun k k' heq => ?_, fun k j hj => ?_, fun j hj hjreg => ?_, fun j hj => ?_, ?_,
    fun j hj => ?_, fun j hj hjreg => ?_, fun i hi hireg j hj => ?_⟩
  · have hsame : k.equal (table.clients id).key = k'.equal (table.clients id).key := by
      rw [equal_comm k, equal_comm k', equal_congr heq]
    rw [enter_entry, enter_entry, hsame, h.entry_congr k k' heq]
  · rw [enter_entry] at hj
    split_ifs at hj with heq
    · cases hj
      rw [enter_clients_self]
      exact ⟨hid, rfl, heq⟩
    · obtain ⟨hlt, hjreg, hjkey⟩ := h.entry_some k j hj
      have hjid : j ≠ id := fun hjid => heq (hjid ▸ hjkey)
      rw [enter_clients_of_ne hjid]
      exact ⟨hlt, hjreg, hjkey⟩
  · rw [enter_key, enter_entry]
    by_cases heq : j = id
    · rw [heq, equal_refl, if_pos rfl]
    · rw [enter_clients_of_ne heq] at hjreg
      rw [hother j hj hjreg]
      exact h.registered j hj hjreg
  · rw [enter_registrations] at hj
    split at hj
    · exact h.listed j hj
    rcases mem_append.1 hj with hj | hj
    · exact h.listed j hj
    · rw [mem_singleton.1 hj]
      exact hid
  · rw [enter_registrations]
    split
    · exact h.nodup
    · exact nodup_append.2 ⟨h.nodup, nodup_singleton _, fun a ha b hb heq =>
        hunlisted (mem_singleton.1 hb ▸ heq ▸ ha)⟩
  · by_cases heq : j = id
    · have hok := h.client id hid
      rw [heq, enter_clients_self]
      exact ⟨hok.sessionId, hok.pkts, hok.shut⟩
    · rw [enter_clients_of_ne heq]
      exact h.client j hj
  · by_cases heq : j = id
    · rw [heq, enter_clients_self]
      exact hclosing
    · rw [enter_clients_of_ne heq] at hjreg ⊢
      exact h.opened j hj hjreg
  · have hi' : i ≠ id := by
      rintro rfl
      rw [enter_clients_self, hsucc] at hj
      cases hj
    rw [enter_clients_of_ne hi'] at hireg hj ⊢
    obtain ⟨hlt, hnot, hnew, hequal⟩ := h.successor i hi hireg j hj
    have hj' : j ≠ id := by
      rintro rfl
      rw [hother i hi hireg] at hequal
      cases hequal
    rw [enter_clients_of_ne hj']
    refine ⟨hlt, ?_, hnew, hequal⟩
    rw [enter_registrations]
    split
    · exact hnot
    · simp [hnot, hj']

theorem agrees_enter (hne : k.equal (table.clients id).key = false) :
    Agrees k table (table.enter id) where
  size_le := le_rfl
  entry := by
    rw [enter_entry, hne, if_neg Bool.false_ne_true]
  streamOf := rfl
  clientsOf := by
    simp only [clientsOf, enter_key, enter_registrations]
    split
    · rfl
    · simp [hne]
  clients := fun j _ hj => enter_clients_of_ne fun heq => by
    rw [heq, hne] at hj
    cases hj

theorem new_clients_self (key : ICProxyKey) (placeholder : Bool) :
    (table.new key placeholder).clients table.size = .new key placeholder :=
  update_self _ _ _

theorem new_clients_of_lt (key : ICProxyKey) (placeholder : Bool) (hj : j < table.size) :
    (table.new key placeholder).clients j = table.clients j :=
  update_of_ne hj.ne _ _

theorem WellFormed.new (h : WellFormed session table) (hkey : key.sessionId = session key)
    (placeholder : Bool) : WellFormed session (table.new key placeholder) := by
  have hold : ∀ j < table.size, (table.new key placeholder).clients j = table.clients j :=
    fun j hj => new_clients_of_lt key placeholder hj
  have hnew := @new_clients_self table key placeholder
  have hsize : ∀ j < (table.new key placeholder).size, j < table.size ∨ j = table.size :=
    fun j hj => Nat.lt_succ_iff_lt_or_eq.1 hj
  refine ⟨h.entry_congr, fun k j hj => ?_, fun j hj hjreg => ?_,
    fun j hj => (h.listed j hj).trans (lt_succ_self _), h.nodup, fun j hj => ?_,
    fun j hj hjreg => ?_, fun i hi hireg j hj => ?_⟩
  · obtain ⟨hlt, hreg, hequal⟩ := h.entry_some k j hj
    rw [hold j hlt]
    exact ⟨hlt.trans (lt_succ_self _), hreg, hequal⟩
  · rcases hsize j hj with hj | rfl
    · rw [hold j hj] at hjreg ⊢
      exact h.registered j hj hjreg
    · rw [hnew] at hjreg
      cases hjreg
  · rcases hsize j hj with hj | rfl
    · rw [hold j hj]
      exact h.client j hj
    · rw [hnew]
      exact ⟨hkey, forall_mem_nil _, nofun, nofun⟩
  · rcases hsize j hj with hj | rfl
    · rw [hold j hj] at hjreg ⊢
      exact h.opened j hj hjreg
    · rw [hnew] at hjreg
      cases hjreg
  · rcases hsize i hi with hi | rfl
    · rw [hold i hi] at hireg hj ⊢
      obtain ⟨hlt, hnot, hjnew, hequal⟩ := h.successor i hi hireg j hj
      rw [hold j hlt]
      exact ⟨hlt.trans (lt_succ_self _), hnot, hjnew, hequal⟩
    · rw [hnew] at hireg
      cases hireg

theorem agrees_new (h : WellFormed session table) (key : ICProxyKey) (placeholder : Bool) :
    Agrees k table (table.new key placeholder) where
  size_le := le_succ _
  entry := rfl
  streamOf := rfl
  clientsOf := filter_congr fun j hj => by
    rw [new_clients_of_lt key placeholder (h.listed j hj)]
  clients := fun _ hj _ => new_clients_of_lt key placeholder hj

/-! ### The next client starts -/

/-- A client that starts, with the packets that were waiting for it. -/
def starting (key : ICProxyKey) (cache : List ICProxyPkt) : ICProxyClient :=
  { (ICProxyClient.new key false).cacheP2cPkts cache with registered := true, reading := true }

theorem starting_pkts (key : ICProxyKey) (cache : List ICProxyPkt) :
    (starting key cache).pkts = cache :=
  rfl

theorem clientsOf_enter (hclient : (table.clients id).key = key)
    (hplace : (table.clients id).placeholder = false) (hk : k.equal key = true) :
    (table.enter id).clientsOf k = table.clientsOf k ++ [id] := by
  simp only [clientsOf, enter_key, enter_registrations, hplace, Bool.false_eq_true, if_false,
    filter_append, filter_singleton, hclient, hk, cond_true]

theorem enter_put_entry (hkey : (table.clients id).key = key) (hk : k.equal key = true) :
    ((table.enter id).put id client).entry k = some id := by
  change (table.enter id).entry k = some id
  rw [enter_entry, hkey, hk, if_pos rfl]

theorem Accounts.start (h : Accounts table k cache)
    (hclient : table.clients id = (ICProxyClient.new key false).cacheP2cPkts cache)
    (hnone : table.entry k = none) (hunlisted : id ∉ table.registrations) (hk : k.equal key = true)
    (hserves : Serves (starting key cache) client) :
    Accounts ((table.enter id).put id client) k client.pkts := by
  have hkey : (table.clients id).key = key := by rw [hclient]; rfl
  have hplace : (table.clients id).placeholder = false := by rw [hclient]; rfl
  have hclients : ((table.enter id).put id client).clientsOf k = table.clientsOf k ++ [id] := by
    rw [clientsOf_put, clientsOf_enter hkey hplace hk]
    rw [enter_key, hkey]
    exact hserves.key
  have hstream : ((table.enter id).put id client).streamOf k = table.streamOf k := rfl
  have hentry : ((table.enter id).put id client).entry k = some id := enter_put_entry hkey hk
  have hle : (table.clientsOf k).length ≤ (table.streamOf k).countP isBye := h.idle fun j hj => by
      rw [hnone] at hj
      cases hj
  refine ⟨fun i j hj => ?_, ?_, fun hidle => ?_, fun j hj _ => ?_⟩
  · rw [hclients] at hj
    rw [hstream]
    rcases Nat.lt_or_ge i (table.clientsOf k).length with hi | hi
    · rw [getElem?_append_left hi] at hj
      have hlisted := (mem_clientsOf (mem_of_getElem? hj)).1
      have hne : j ≠ id := fun heq => hunlisted (heq ▸ hlisted)
      rw [put_clients_of_ne hne, enter_clients_of_ne hne]
      exact h.served i j hj
    · rw [getElem?_append_right hi, getElem?_singleton] at hj
      split_ifs at hj
      cases hj
      have hi' : i = (table.clientsOf k).length := by omega
      rw [put_clients_self, hserves.pipe, hserves.p2cShutting, starting_pkts, h.cached, hi']
      refine ⟨rfl, ?_⟩
      simp only [countP_afterSeps, Nat.sub_pos_iff_lt]
  · rw [hserves.pkts, starting_pkts, h.cached, hclients, length_append]
    rfl
  · have hplace' := hidle id hentry
    rw [put_clients_self, hserves.placeholder] at hplace'
    cases hplace'
  · rw [hentry] at hj
    cases hj
    exact ⟨table.clientsOf k, hclients, hle⟩

theorem cacheOf_of_entry (h : table.entry k = some id) :
    table.cacheOf k = (table.clients id).pkts := by
  rw [cacheOf, h]

theorem maybeStartReadData_of_ok (h : (table.clients id).maybeStartReadData
    ((table.clients id).pkts.length + 1) = some (.ok client)) :
    table.maybeStartReadData id = some (table.put id client) := by
  unfold maybeStartReadData
  dsimp only
  rw [h]

/-- **The next client of a key is entered and starts** with the packets that were waiting. -/
theorem start_ok (h : WellFormed session table) (hid : id < table.size)
    (hclient : table.clients id = (ICProxyClient.new key false).cacheP2cPkts cache)
    (hnone : table.entry key = none) (hunlisted : id ∉ table.registrations) :
    ∃ table', (table.enter id).maybeStartReadData id = some table' ∧
      Moves session key cache table table' := by
  have hkey : (table.clients id).key = key := by rw [hclient]; rfl
  have hpkts : ∀ pkt ∈ cache, Proper key pkt := by
    have hpkts := (h.client id hid).pkts
    rw [hclient] at hpkts
    exact hpkts
  obtain ⟨client, hloop, hserves⟩ := @handleP2cCacheLoop_serves (starting key cache)
    (cache.length + 1) hpkts rfl rfl (lt_succ_self _)
  have hself : (table.enter id).clients id =
      { (ICProxyClient.new key false).cacheP2cPkts cache with registered := true } := by
    rw [enter_clients_self, hclient]
  have hstart : (table.enter id).maybeStartReadData id = some ((table.enter id).put id client) := by
    refine maybeStartReadData_of_ok ?_
    rw [hself]
    exact hloop
  have hfollows : Follows ((table.enter id).clients id) client := by
    rw [hself]
    exact ⟨hserves.key, hserves.registered, hserves.placeholder, hserves.successor, hserves.shut⟩
  have hwf : WellFormed session (table.enter id) :=
    h.enter hid (hkey ▸ hnone) hunlisted (by rw [hclient]; rfl) (by rw [hclient]; rfl)
  refine ⟨_, hstart, ?_, fun k hk => ?_, fun k hk hacc => ?_⟩
  · refine hwf.follow hid (by rw [hself]) hfollows ?_ hserves.closing
    rw [hserves.key]
    exact fun pkt hpkt => hpkts pkt (hserves.subset hpkt)
  · refine (agrees_enter (hkey ▸ hk)).trans (agrees_put hfollows.key ?_)
    rw [enter_key, hkey]
    exact hk
  · rw [Routed, cacheOf_of_entry (enter_put_entry hkey hk), put_clients_self]
    exact hacc.start hclient ((h.entry_congr k key hk).trans hnone) hunlisted hk hserves

/-! ### A client closes -/

section

variable (h : Accounts table k cache)
include h

theorem Accounts.put (hkey : client.key = (table.clients id).key)
    (hplace : client.placeholder = (table.clients id).placeholder)
    (hpipe : client.pipe = (table.clients id).pipe)
    (hshut : client.p2cShutting = (table.clients id).p2cShutting) :
    Accounts (table.put id client) k cache := by
  have hclients : (table.put id client).clientsOf k = table.clientsOf k := clientsOf_put hkey
  have hplaces := put_clients_eq hplace
  refine ⟨fun i j hj => ?_, ?_, fun hidle => ?_, fun j hj hjplace => ?_⟩
  · rw [hclients] at hj
    rw [put_clients_eq hpipe, put_clients_eq hshut]
    exact h.served i j hj
  · rw [hclients]
    exact h.cached
  · rw [hclients]
    exact h.idle fun j hj => hplaces j ▸ hidle j hj
  · rw [hclients]
    exact h.current j hj (hplaces j ▸ hjplace)

theorem Accounts.put_pkts (id : ℕ) (pkts : List ICProxyPkt) :
    Accounts (table.put id { table.clients id with pkts := pkts }) k cache :=
  @Accounts.put table k cache id { table.clients id with pkts := pkts } h rfl rfl rfl rfl

theorem Accounts.length_le (hentry : table.entry k = some id)
    (hplace : (table.clients id).placeholder = false)
    (hshut : (table.clients id).p2cShutting = true) :
    (table.clientsOf k).length ≤ (table.streamOf k).countP isBye := by
  obtain ⟨older, holder, -⟩ := h.current id hentry hplace
  have hlast : (table.clientsOf k)[older.length]? = some id := by
    rw [holder, getElem?_append_right le_rfl, Nat.sub_self]
    rfl
  have hserved := (h.served _ _ hlast).2
  rw [hshut, eq_comm, decide_eq_true_eq] at hserved
  rw [holder, length_append]
  exact hserved

theorem Accounts.leave (hle : (table.clientsOf k).length ≤ (table.streamOf k).countP isBye)
    (hk : k.equal (table.clients id).key = true) : Accounts (table.leave id) k cache := by
  have hclients : (table.leave id).clientsOf k = table.clientsOf k := by
    simp only [clientsOf, leave_key]
    rfl
  have hnone : (table.leave id).entry k = none := by rw [leave_entry, hk, if_pos rfl]
  refine ⟨fun i j hj => ?_, ?_, fun _ => ?_, fun j hj => ?_⟩
  · rw [hclients] at hj
    rw [leave_clients_eq (f := pipe) rfl, leave_clients_eq (f := p2cShutting) rfl]
    exact h.served i j hj
  · rw [hclients]
    exact h.cached
  · rw [hclients]
    exact hle
  · rw [hnone] at hj
    cases hj

end

theorem registerOk_of_none (hreg : (table.clients id).registered = false)
    (hnone : table.entry (table.clients id).key = none) :
    table.registerOk id = some (table.enter id) := by
  unfold registerOk register
  rw [if_neg (by simp [hreg]), hnone]

theorem placeholder_ok (h : WellFormed session table)
    (hkey : key.sessionId = session key) (hnone : table.entry key = none) :
    ∃ table', (table.new key true).registerOk table.size = some table' ∧
      WellFormed session table' ∧ table.size < table'.size ∧
      table'.clients table.size = { ICProxyClient.new key true with registered := true } ∧
      (∀ k, k.equal key = false → Agrees k table table') ∧
      ∀ k, k.equal key = true → table'.entry k = some table.size ∧
        ∀ cache, Accounts table k cache → Accounts table' k cache := by
  have hwf := h.new hkey true
  have hclient := @new_clients_self table key true
  have hkeys : ((table.new key true).clients table.size).key = key := by rw [hclient]; rfl
  have hunlisted : table.size ∉ (table.new key true).registrations :=
    fun hmem => (h.listed _ hmem).false
  have hagrees := fun k => @agrees_new session table k h key true
  refine ⟨_, registerOk_of_none (by rw [hclient]; rfl) (by rw [hkeys]; exact hnone),
    hwf.enter (lt_succ_self _) (by rw [hkeys]; exact hnone) hunlisted (by rw [hclient]; rfl)
      (by rw [hclient]; rfl), lt_succ_self _, by rw [enter_clients_self, hclient],
    fun k hk => (hagrees k).trans (agrees_enter (by rw [hkeys]; exact hk)), fun k hk => ?_⟩
  have hentry : ((table.new key true).enter table.size).entry k = some table.size := by
    rw [enter_entry, hkeys, hk, if_pos rfl]
  refine ⟨hentry, fun cache hacc => ?_⟩
  have hacc' := (hagrees k).accounts h hacc
  have hclients : ((table.new key true).enter table.size).clientsOf k =
      (table.new key true).clientsOf k := by
    simp only [clientsOf, enter_key, enter_registrations, hclient]
    rfl
  refine ⟨fun i j hj => ?_, ?_, fun _ => ?_, fun j hj hplace => ?_⟩
  · rw [hclients] at hj
    have hlisted := (mem_clientsOf (mem_of_getElem? hj)).1
    have hne : j ≠ table.size := fun heq => hunlisted (heq ▸ hlisted)
    rw [enter_clients_of_ne hne]
    exact hacc'.served i j hj
  · rw [hclients]
    exact hacc'.cached
  · rw [hclients]
    refine hacc'.idle fun j hj => ?_
    have hnone' : table.entry k = some j := hj
    rw [h.entry_congr k key hk, hnone] at hnone'
    cases hnone'
  · rw [hentry] at hj
    cases hj
    rw [enter_clients_self, hclient] at hplace
    cases hplace

theorem WellFormed.not_successor_of_none (h : WellFormed session table)
    (hnone : table.entry (table.clients id).key = none) {i : ℕ} (hi : i < table.size)
    (hireg : (table.clients i).registered = true) : (table.clients i).successor ≠ some id := by
  intro hsucc
  obtain ⟨-, -, -, hequal⟩ := h.successor i hi hireg id hsucc
  rw [← h.entry_congr _ _ hequal, h.registered i hi hireg] at hnone
  cases hnone

theorem Proper.congr {key' : ICProxyKey} {pkt : ICProxyPkt} (h : Proper key pkt)
    (hsession : OfKey session) (hkey : key.sessionId = session key)
    (hkey' : key'.sessionId = session key') (hequal : key.equal key' = true) : Proper key' pkt where
  valid := h.valid
  sessionId := by rw [h.sessionId, hkey, hkey', hsession _ _ hequal]
  commandId := by rw [h.commandId, (equal_iff.1 hequal).2.2.2.2.1]
  type := h.type

variable (h : WellFormed session table)
include h

theorem takeover_ok (hsession : OfKey session) (hkey : key.sessionId = session key)
    (hwaiting : table.Waiting key id) (hnone : table.entry key = none)
    (hpkts : ∀ pkt ∈ cache, Proper key pkt) :
    ∃ table', ((table.put id ((table.clients id).cacheP2cPkts cache)).enter id).maybeStartReadData
        id = some table' ∧ Moves session key cache table table' := by
  obtain ⟨hid, hunlisted, hnew, hequal⟩ := hwaiting
  have hok := h.client id hid
  have hnone' : table.entry (table.clients id).key = none := by
    rw [← h.entry_congr _ _ hequal]
    exact hnone
  have hreg : (table.clients id).registered = false := by rw [hnew]; rfl
  have hwf : WellFormed session (table.put id ((table.clients id).cacheP2cPkts cache)) := by
    refine h.put hid rfl rfl rfl ⟨hok.sessionId, fun pkt hpkt => ?_, hok.shut⟩ (fun hjreg => ?_)
      fun i hi hireg => h.not_successor_of_none hnone' hi hireg
    · rw [hnew] at hpkt
      exact Proper.congr (hpkts pkt hpkt) hsession hkey hok.sessionId hequal
    · exact absurd (hreg.symm.trans hjreg) Bool.false_ne_true
  have hclient : (table.put id ((table.clients id).cacheP2cPkts cache)).clients id =
      (ICProxyClient.new (table.clients id).key false).cacheP2cPkts cache := by
    rw [put_clients_self, ← hnew]
  obtain ⟨table', hstart, hmoves⟩ := start_ok hwf hid hclient hnone' hunlisted
  refine ⟨table', hstart, hmoves.wellFormed, fun k hk => ?_, fun k hk hacc => ?_⟩
  · rw [equal_congr hequal] at hk
    have hput : Agrees k table (table.put id ((table.clients id).cacheP2cPkts cache)) :=
      agrees_put rfl hk
    exact hput.trans (hmoves.other k hk)
  · exact hmoves.mine k (equal_trans hk hequal) (hacc.put_pkts id _)

theorem park_ok (hkey : key.sessionId = session key) (hnone : table.entry key = none)
    (hpkts : ∀ pkt ∈ cache, Proper key pkt) :
    ∃ table', ((table.new key true).registerOk table.size).map (fun table' =>
        table'.put table.size ((table'.clients table.size).cacheP2cPkts cache)) = some table' ∧
      Moves session key cache table table' := by
  obtain ⟨table', hregister, hwf, hsize, hclient, hother, hmine⟩ := placeholder_ok h hkey hnone
  rw [hregister]
  have hreg : (table'.clients table.size).registered = true := by rw [hclient]
  refine ⟨_, rfl, ?_, fun k hk => ?_, fun k hk hacc => ?_⟩
  · refine hwf.follow hsize hreg ⟨rfl, rfl, rfl, rfl, fun hshut => hshut⟩ ?_ ?_
    · rw [hclient]
      exact hpkts
    · rw [hclient]
      rfl
  · refine (hother k hk).trans (agrees_put rfl ?_)
    rw [hclient]
    exact hk
  · obtain ⟨hentry, haccounts⟩ := hmine k hk
    have hentry' : (table'.put table.size
        ((table'.clients table.size).cacheP2cPkts cache)).entry k = some table.size := hentry
    have hcache : ((table'.clients table.size).cacheP2cPkts cache).pkts = cache := by
      rw [hclient]
      rfl
    rw [Routed, cacheOf_of_entry hentry', put_clients_self, hcache]
    exact (haccounts _ hacc).put_pkts table.size _

section

variable (hsession : OfKey session) (hactive : table.Active id)
  (hfollows : Follows (table.clients id) client)
include hsession hactive hfollows

/-- **A client that closes** leaves its unhandled packets to its successor, or to a placeholder. -/
theorem unregister_ok (hclosing : client.closing = true)
    (hpkts : ∀ pkt ∈ client.pkts, Proper client.key pkt) :
    ∃ table', (table.put id client).unregister id = some table' ∧
      Moves session client.key client.pkts (table.put id client) table' := by
  obtain ⟨hid, hreg, hplace⟩ := hactive
  have hself : (table.put id client).clients id = client := put_clients_self
  have hok := h.client id hid
  have hshut := hfollows.shut hok.shut
  have hkey : client.key.sessionId = session client.key := by
    rw [hfollows.key]
    exact hok.sessionId
  have hwf := h.leave hid hreg hfollows.key ⟨hkey, hpkts, hshut⟩
  have hnone : ((table.put id client).leave id).entry client.key = none := by
    rw [leave_entry, hself, equal_refl, if_pos rfl]
  have hother : ∀ k, k.equal client.key = false →
      Agrees k (table.put id client) ((table.put id client).leave id) :=
    fun k hk => agrees_leave (hself.symm ▸ hk)
  have hmine : ∀ k, k.equal client.key = true → Accounts (table.put id client) k client.pkts →
      Accounts ((table.put id client).leave id) k client.pkts := by
    intro k hk hacc
    refine hacc.leave (hacc.length_le (h.entry_key hid hreg (hfollows.key ▸ hk)) ?_ ?_)
      (hself.symm ▸ hk)
    · rw [hself]
      exact hfollows.placeholder.trans hplace
    · rw [hself]
      exact hshut.1 (hshut.2 hclosing)
  unfold unregister
  rw [hself]
  rw [if_neg (by simp [hfollows.registered, hreg])]
  cases hsucc : client.successor with
  | some j =>
    rw [hfollows.successor] at hsucc
    have hne : j ≠ id := fun heq => h.not_successor hreg hid hreg (heq ▸ hsucc)
    have hsame : ((table.put id client).leave id).clients j = table.clients j := by
      rw [leave_clients_of_ne hne, put_clients_of_ne hne]
    obtain ⟨hj, hunlisted, hnew, hequal⟩ := h.successor id hid hreg j hsucc
    have hwaiting : ((table.put id client).leave id).Waiting client.key j := by
      rw [Waiting, hsame, hfollows.key]
      exact ⟨hj, hunlisted, hnew, hequal⟩
    obtain ⟨table', htake, hmoves⟩ := takeover_ok hwf hsession hkey hwaiting hnone hpkts
    refine ⟨table', ?_, hmoves.after hother hmine⟩
    dsimp only
    rw [registerOk_of_none]
    · exact htake
    · rw [put_clients_self, hsame, hnew]
      rfl
    · rw [put_clients_self, hsame]
      exact (hwf.entry_congr _ _ (hfollows.key ▸ hequal)).symm.trans hnone
  | none =>
    dsimp only
    split
    next hnil =>
      refine ⟨_, rfl, hwf, hother, fun k hk hacc => ?_⟩
      have hcache : ((table.put id client).leave id).cacheOf k = client.pkts := by
        rw [cacheOf, hwf.entry_congr _ _ hk, hnone, hnil]
      rw [Routed, hcache]
      exact hmine k hk hacc
    · obtain ⟨table', hpark, hmoves⟩ := park_ok hwf hkey hnone hpkts
      exact ⟨table', hpark, hmoves.after hother hmine⟩

/-- **A call of a client**, and its end if the client closes. -/
theorem finish_ok (hpkts : ∀ pkt ∈ client.pkts, Proper client.key pkt) :
    ∃ table', table.finish id client = some table' ∧
      Moves session client.key client.pkts (table.put id client) table' := by
  unfold finish
  split
  next hclosing => exact unregister_ok h hsession hactive hfollows hclosing hpkts
  next hopen =>
    obtain ⟨hid, hreg, -⟩ := hactive
    refine ⟨_, rfl, h.follow hid hreg hfollows hpkts (Bool.eq_false_iff.2 hopen),
      fun k _ => .refl k _, fun k hk hacc => ?_⟩
    have hentry : (table.put id client).entry k = some id :=
      h.entry_key hid hreg (hfollows.key ▸ hk)
    rw [Routed, cacheOf_of_entry hentry, put_clients_self]
    exact hacc

end

end ClientTable

end Cloudberry.Proxy
