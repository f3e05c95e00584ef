/-
# Each packet to its client

Every event of a proxy keeps the account of a key, with two exceptions: a client that has handled
its BYE handles the next one too, although that one belongs to the next client; and the loss of a
peer empties the caches of all keys.
-/

import Cloudberry.Proxy.Routing

namespace Cloudberry.Proxy

open Segments List ICProxyPkt ICProxyKey ICProxyClient Nat Option

namespace ClientTable

variable {session : ICProxyKey → ℤ} {table table' : ClientTable} {k key : ICProxyKey}
  {cache : List ICProxyPkt} {id : ℕ} {client : ICProxyClient}

/-! ### A packet arrives -/

def arrive (table : ClientTable) (pkt : ICProxyPkt) : ClientTable :=
  { table with arrived := table.arrived ++ [pkt] }

variable {pkt : ICProxyPkt}

theorem WellFormed.arrive (h : WellFormed session table) (pkt : ICProxyPkt) :
    WellFormed session (table.arrive pkt) :=
  ⟨h.entry_congr, h.entry_some, h.registered, h.listed, h.nodup, h.client, h.opened, h.successor⟩

theorem agrees_arrive (h : k.equal pkt.p2cKey = false ∨ pkt.inStream = false) :
    Agrees k table (table.arrive pkt) := by
  refine ⟨le_rfl, rfl, ?_, rfl, fun _ _ _ => rfl⟩
  rcases h with h | h <;> simp [ClientTable.streamOf, arrive, h]

theorem streamOf_arrive (hk : k.equal pkt.p2cKey = true) (hin : pkt.inStream = true) :
    (table.arrive pkt).streamOf k = table.streamOf k ++ [pkt] := by
  simp [streamOf, arrive, hk, hin]

theorem Accounts.congr_cache (h : Accounts table k cache) {cache' : List ICProxyPkt}
    (hcache : cache'.filter (·.inStream) = cache.filter (·.inStream)) : Accounts table k cache' :=
  ⟨h.served, hcache.trans h.cached, h.idle, h.current⟩

theorem served_append {stream : List ICProxyPkt} {i : ℕ} (hi : i < stream.countP isBye)
    (pkt : ICProxyPkt) : segment isBye i (stream ++ [pkt]) = segment isBye i stream ∧
      decide (i < (stream ++ [pkt]).countP isBye) = decide (i < stream.countP isBye) := by
  refine ⟨segment_append_of_lt hi, ?_⟩
  have hlt : i < (stream ++ [pkt]).countP isBye := by
    rw [countP_append]
    omega
  rw [decide_eq_true hi, decide_eq_true hlt]

theorem Accounts.keep (h : Accounts table k cache) (hk : k.equal pkt.p2cKey = true)
    (hin : pkt.inStream = true)
    (hle : (table.clientsOf k).length ≤ (table.streamOf k).countP isBye) :
    Accounts (table.arrive pkt) k (cache ++ [pkt]) := by
  have hstream := @streamOf_arrive table k pkt hk hin
  have hclients : (table.arrive pkt).clientsOf k = table.clientsOf k := rfl
  have hmono : (table.streamOf k).countP isBye ≤ (table.streamOf k ++ [pkt]).countP isBye := by
    rw [countP_append]
    exact le_add_right _ _
  refine ⟨fun i j hj => ?_, ?_, fun _ => ?_, fun j hj hplace => ?_⟩
  · have hi : i < (table.clientsOf k).length := (List.getElem?_eq_some_iff.1 hj).1
    obtain ⟨hsegment, hdecide⟩ := served_append (hi.trans_le hle) pkt
    rw [hstream, hsegment, hdecide]
    exact h.served i j hj
  · rw [hstream, hclients, afterSeps_append hle, filter_append, h.cached]
    simp [hin]
  · rw [hstream]
    exact hle.trans hmono
  · obtain ⟨older, holder, hlen⟩ := h.current j hj hplace
    rw [hstream]
    exact ⟨older, holder, hlen.trans hmono⟩

theorem Accounts.take (h : Accounts table k cache) (hnodup : table.registrations.Nodup)
    (hk : k.equal pkt.p2cKey = true) (hin : pkt.inStream = true)
    (hentry : table.entry k = some id) (hplace : (table.clients id).placeholder = false)
    (hshut : (table.clients id).p2cShutting = false) (hfollows : Follows (table.clients id) client)
    (hpipe : client.pipe = (table.clients id).pipe ++ if pkt.isBye then [] else [pkt])
    (hshut' : client.p2cShutting = pkt.isBye) (hpkts : client.pkts = cache) :
    Accounts ((table.arrive pkt).put id client) k client.pkts := by
  have hstream : ((table.arrive pkt).put id client).streamOf k = table.streamOf k ++ [pkt] :=
    streamOf_arrive hk hin
  have hclients : ((table.arrive pkt).put id client).clientsOf k = table.clientsOf k :=
    clientsOf_put hfollows.key
  obtain ⟨older, holder, _⟩ := h.current id hentry hplace
  have hlast : (table.clientsOf k)[older.length]? = some id := by
    rw [holder, getElem?_append_right le_rfl, Nat.sub_self]
    rfl
  obtain ⟨hpipe₀, hshut₀⟩ := h.served _ _ hlast
  -- the open segment is the one of this client
  have hcount : (table.streamOf k).countP isBye = older.length := by
    rw [hshut, eq_comm, decide_eq_false_iff_not] at hshut₀
    omega
  have hcount' : (table.streamOf k ++ [pkt]).countP isBye =
      older.length + if pkt.isBye then 1 else 0 := by
    rw [countP_append, hcount, countP_singleton]
  refine ⟨fun i j hj => ?_, ?_, fun hidle => ?_, fun j hj _ => ?_⟩
  · rw [hclients] at hj
    rw [hstream]
    have hi : i < older.length + 1 := by
      have hlt := (List.getElem?_eq_some_iff.1 hj).1
      rwa [holder, length_append] at hlt
    rcases Nat.lt_succ_iff_lt_or_eq.1 hi with hi | rfl
    · obtain ⟨hsegment, hdecide⟩ := served_append (hcount.symm ▸ hi) pkt
      have hj' : older[i]? = some j := by
        rwa [holder, getElem?_append_left hi] at hj
      have hne : j ≠ id := by
        rintro rfl
        have hnodup' : (table.clientsOf k).Nodup := hnodup.filter _
        rw [holder] at hnodup'
        exact (nodup_append.1 hnodup').2.2 j (mem_of_getElem? hj') j mem_cons_self rfl
      rw [put_clients_of_ne hne, hsegment, hdecide]
      exact h.served i j hj
    · rw [hlast] at hj
      cases hj
      rw [put_clients_self, hpipe, hshut', hpipe₀]
      cases hbye : pkt.isBye with
      | true =>
        rw [segment_append_sep hcount hbye]
        simp [hcount, hbye]
      | false =>
        rw [segment_append_of_not_sep hcount hbye]
        simp [hcount, hbye]
  · have hnil : afterSeps isBye (older.length + 1) (table.streamOf k) = [] :=
      afterSeps_eq_nil (by omega)
    rw [hpkts, h.cached, hclients, hstream, holder, length_append, length_singleton, hnil]
    cases hbye : pkt.isBye with
    | true => rw [afterSeps_append_sep hcount hbye]
    | false =>
      rw [afterSeps_eq_nil]
      rw [hcount', hbye]
      exact lt_succ_self _
  · have hplace' := hidle id hentry
    rw [put_clients_self, hfollows.placeholder, hplace] at hplace'
    cases hplace'
  · have hj' : table.entry k = some j := hj
    rw [hentry] at hj'
    cases hj'
    rw [hclients, hstream, hcount']
    exact ⟨older, holder, le_add_right _ _⟩

theorem blessedLookup_ok (h : WellFormed session table) (hkey : key.sessionId = session key) :
    ∃ table' id, table.blessedLookup key = some (table', id) ∧ WellFormed session table' ∧
      table'.entry key = some id ∧ (table' = table ∨ (table'.clients id).placeholder = true) ∧
      (∀ k, k.equal key = false → Agrees k table table') ∧
      ∀ k, k.equal key = true → table.Routed k → table'.Routed k := by
  unfold blessedLookup
  cases hentry : table.entry key with
  | some id =>
    exact ⟨table, id, rfl, h, hentry, .inl rfl, fun k _ => .refl k table, fun _ _ h => h⟩
  | none =>
    obtain ⟨table', hregister, hwf, -, hclient, hother, hmine⟩ := placeholder_ok h hkey hentry
    rw [hregister]
    refine ⟨table', table.size, rfl, hwf, (hmine _ (equal_refl _)).1, .inr ?_, hother,
      fun k hk hrouted => ?_⟩
    · rw [hclient]
      rfl
    · obtain ⟨hentry', haccounts⟩ := hmine k hk
      rw [Routed, cacheOf_of_entry hentry', hclient]
      rw [Routed, cacheOf, h.entry_congr _ _ hk, hentry] at hrouted
      exact haccounts _ hrouted

theorem Accounts.cacheP2cPkt (h : Accounts table k (table.clients id).pkts)
    (hk : k.equal pkt.p2cKey = true)
    (hle : (table.clientsOf k).length ≤ (table.streamOf k).countP isBye)
    (hwf : WellFormed session table) :
    Accounts ((table.arrive pkt).put id ((table.clients id).cacheP2cPkt pkt)) k
      ((table.clients id).cacheP2cPkt pkt).pkts := by
  have hkept : Accounts (table.arrive pkt) k ((table.clients id).pkts ++ [pkt]) := by
    cases hin : pkt.inStream with
    | true => exact h.keep hk hin hle
    | false =>
      refine ((agrees_arrive (.inr hin)).accounts hwf h).congr_cache ?_
      simp [hin]
  exact hkept.put_pkts id _

theorem onP2cData_ok (hpkt : Proper client.key pkt) (hplace : client.placeholder = false)
    (hpkts : ∀ pkt ∈ client.pkts, Proper client.key pkt) :
    ∃ client', client.onP2cData pkt = .ok client' ∧ Follows client client' ∧
      ∀ pkt ∈ client'.pkts, Proper client'.key pkt := by
  rcases hpkt.type with htype | htype | htype
  · rw [hpkt.onP2cData hplace, if_pos htype]
    split
    · exact ⟨_, rfl, ⟨rfl, rfl, rfl, rfl, id⟩,
        forall_mem_append.2 ⟨hpkts, forall_mem_singleton.2 hpkt⟩⟩
    · exact ⟨_, rfl, ⟨rfl, rfl, rfl, rfl, id⟩, hpkts⟩
  · have hfollows := (keeps_maybeResume client).toFollows.trans (follows_shutdownP2c _)
    refine ⟨_, hpkt.onP2cData_bye hplace htype, hfollows, ?_⟩
    rw [hfollows.key, pkts_shutdownP2c, pkts_maybeResume]
    exact hpkts
  · obtain ⟨client', hack, hkeeps, -⟩ := hpkt.onP2cData_dataAck hplace htype
    refine ⟨client', hack, hkeeps.toFollows, ?_⟩
    rw [hkeeps.key, hkeeps.pkts]
    exact hpkts

theorem Accounts.onP2cData (h : Accounts table k (table.clients id).pkts)
    (hwf : WellFormed session table) (hk : k.equal pkt.p2cKey = true)
    (hentry : table.entry k = some id) (hpkt : Proper (table.clients id).key pkt)
    (hplace : (table.clients id).placeholder = false)
    (hbye : pkt.type = .bye → (table.clients id).p2cShutting = false)
    (hdata : (table.clients id).onP2cData pkt = .ok client) :
    Accounts ((table.arrive pkt).put id client) k client.pkts := by
  rcases hpkt.type with htype | htype | htype
  · rw [hpkt.onP2cData hplace, if_pos htype] at hdata
    split at hdata
    next hshut =>
      cases hdata
      exact h.cacheP2cPkt hk (h.length_le hentry hplace hshut) hwf
    next hopen =>
      cases hdata
      refine h.take hwf.nodup hk (by simp [inStream, htype]) hentry hplace
        (Bool.eq_false_iff.2 hopen) ⟨rfl, rfl, rfl, rfl, fun hshut => hshut⟩ ?_ ?_ rfl
      · simp [isBye, htype]
      · simpa [isBye, htype] using hopen
  · rw [hpkt.onP2cData_bye hplace htype] at hdata
    cases hdata
    obtain ⟨hfollows, hpipe, hshut, hpkts, -⟩ := shutdownP2c_open (hbye htype)
    refine h.take hwf.nodup hk (by simp [inStream, htype]) hentry hplace (hbye htype)
      hfollows ?_ ?_ hpkts
    · simp [hpipe, isBye, htype]
    · simp [hshut, isBye, htype]
  · obtain ⟨_, hack, hkeeps, -⟩ := hpkt.onP2cData_dataAck hplace htype
    rw [hdata] at hack
    cases hack
    have hin : pkt.inStream = false := by simp [inStream, htype]
    rw [hkeeps.pkts]
    exact ((agrees_arrive (.inr hin)).accounts hwf h).put hkeeps.key hkeeps.placeholder
      hkeeps.pipe hkeeps.p2cShutting

section

variable (h : WellFormed session table)
include h

section

variable (hsession : OfKey session)
include hsession

section

variable (hpkt : Proper pkt.p2cKey pkt) (hpktSession : pkt.sessionId = session pkt.p2cKey)
include hpkt hpktSession

theorem deliver_ok (hentry : table.entry pkt.p2cKey = some id) :
    ∃ client table', (table.clients id).onP2cData pkt = .ok client ∧
      (table.arrive pkt).finish id client = some table' ∧ WellFormed session table' ∧
      (∀ k, k.equal pkt.p2cKey = false → Agrees k table table') ∧
      ∀ k, k.equal pkt.p2cKey = true → (pkt.type = .bye → (table.clients id).placeholder = false →
          (table.clients id).p2cShutting = false) →
        table.Routed k → table'.Routed k := by
  obtain ⟨hid, hreg, hequal⟩ := h.entry_some _ _ hentry
  have hok := h.client id hid
  have hproper : Proper (table.clients id).key pkt :=
    Proper.congr hpkt hsession hpktSession hok.sessionId hequal
  have hwf := h.arrive pkt
  have hentryOf : ∀ k, k.equal pkt.p2cKey = true → table.entry k = some id :=
    fun k hk => (h.entry_congr _ _ hk).trans hentry
  have hkeyOf : ∀ k : ICProxyKey, k.equal (table.clients id).key = k.equal pkt.p2cKey :=
    fun k => (equal_congr hequal k).symm
  cases hplace : (table.clients id).placeholder with
  | true =>
    refine ⟨_, (table.arrive pkt).put id ((table.clients id).cacheP2cPkt pkt),
      hproper.onP2cData_placeholder hplace, ?_, ?_, fun k hk => ?_, fun k hk _ hrouted => ?_⟩
    · exact if_neg (Bool.eq_false_iff.1 (h.opened id hid hreg))
    · exact hwf.follow hid hreg ⟨rfl, rfl, rfl, rfl, fun hshut => hshut⟩
        (forall_mem_append.2 ⟨hok.pkts, forall_mem_singleton.2 hproper⟩)
        (h.opened id hid hreg)
    · refine (agrees_arrive (.inl hk)).trans (agrees_put rfl ?_)
      exact (hkeyOf k).trans hk
    · have hentry' : ((table.arrive pkt).put id ((table.clients id).cacheP2cPkt pkt)).entry k =
          some id := hentryOf k hk
      rw [Routed, cacheOf_of_entry (hentryOf k hk)] at hrouted
      rw [Routed, cacheOf_of_entry hentry', put_clients_self]
      refine hrouted.cacheP2cPkt hk (hrouted.idle fun j hj => ?_) h
      rw [hentryOf k hk] at hj
      cases hj
      exact hplace
  | false =>
    obtain ⟨client, hdata, hfollows, hpkts⟩ := onP2cData_ok hproper hplace hok.pkts
    obtain ⟨table', hfinish, hmoves⟩ := finish_ok hwf hsession ⟨hid, hreg, hplace⟩ hfollows hpkts
    have hkey : ∀ k : ICProxyKey, k.equal client.key = k.equal pkt.p2cKey :=
      fun k => hfollows.key ▸ hkeyOf k
    refine ⟨client, table', hdata, hfinish, hmoves.wellFormed, fun k hk => ?_,
      fun k hk hbye hrouted => ?_⟩
    · have hput := (agrees_arrive (.inl hk)).trans
        (agrees_put hfollows.key ((hkeyOf k).trans hk))
      exact hput.trans (hmoves.other k ((hkey k).trans hk))
    · rw [Routed, cacheOf_of_entry (hentryOf k hk)] at hrouted
      exact hmoves.mine k ((hkey k).trans hk) (hrouted.onP2cData h hk (hentryOf k hk) hproper
        hplace (fun htype => hbye htype rfl) hdata)

/-- **A packet arrives.** -/
theorem route_ok : ∃ table', table.route pkt = some table' ∧ WellFormed session table' ∧
      ∀ k, (k.equal pkt.p2cKey = true → pkt.type = .bye → ∀ id, table.entry k = some id →
          (table.clients id).placeholder = false → (table.clients id).p2cShutting = false) →
        table.Routed k → table'.Routed k := by
  have hkey : pkt.p2cKey.sessionId = session pkt.p2cKey := hpktSession
  obtain ⟨_, id, hlookup, hwf, hentry, hsame, hother, hmine⟩ := blessedLookup_ok h hkey
  obtain ⟨client, table', hdata, hfinish, hwf', hagrees, hrouted'⟩ :=
    deliver_ok hwf hsession hpkt hpktSession hentry
  refine ⟨table', ?_, hwf', fun k hbye hrouted => ?_⟩
  · unfold route
    rw [hlookup, bind_some]
    dsimp only
    rw [hdata]
    exact hfinish
  · cases hk : k.equal pkt.p2cKey with
    | false => exact ((hother k hk).trans (hagrees k hk)).routed h hrouted
    | true =>
      refine hrouted' k hk (fun htype hplace => ?_) (hmine k hk hrouted)
      rcases hsame with rfl | hplace'
      · exact hbye hk htype id ((hwf.entry_congr _ _ hk).trans hentry) hplace
      · exact absurd (hplace.symm.trans hplace') Bool.false_ne_true

end

/-! ### The other events -/

/-- **A call that has nothing to do with the packets from the other side.** -/
theorem call_ok (hactive : table.Active id) (hkeeps : Keeps (table.clients id) client) :
    ∃ table', table.finish id client = some table' ∧ WellFormed session table' ∧
      ∀ k, table.Routed k → table'.Routed k := by
  obtain ⟨table', hfinish, hmoves⟩ := finish_ok h hsession hactive hkeeps.toFollows (by
    rw [hkeeps.key, hkeeps.pkts]
    exact (h.client id hactive.1).pkts)
  have hput := hmoves.after (fun k hk => agrees_put hkeeps.key (hkeeps.key ▸ hk))
    fun k _ hacc => hacc.put hkeeps.key hkeeps.placeholder hkeeps.pipe hkeeps.p2cShutting
  refine ⟨table', hfinish, hmoves.wellFormed, fun k => hput.routed h fun hk => ?_⟩
  rw [cacheOf_of_entry (h.entry_key hactive.1 hactive.2.1 (hkeeps.key ▸ hk)), hkeeps.pkts]

end

theorem await_ok (hkey : key.sessionId = session key) {found : ℕ}
    (hentry : table.entry key = some found) : WellFormed session ((table.new key false).put found
        { table.clients found with successor := some table.size }) ∧
      ∀ k, table.Routed k → ((table.new key false).put found
        { table.clients found with successor := some table.size }).Routed k := by
  have hwf := h.new hkey false
  obtain ⟨hfound, hreg, hequal⟩ := h.entry_some _ _ hentry
  have hok := h.client found hfound
  have hsame := @new_clients_of_lt table found key false hfound
  have hnew := @new_clients_self table key false
  refine ⟨?_, fun k hrouted => ?_⟩
  · refine hwf.update (by rw [hsame]) (by rw [hsame]) (fun _ j hj => ?_)
      ⟨hok.sessionId, hok.pkts, hok.shut⟩ (fun hreg' => h.opened found hfound hreg')
      fun i hi hireg => hwf.not_successor (by rw [hsame]; exact hreg) hi hireg
    cases hj
    refine ⟨hfound.ne', lt_succ_self _, fun hmem => (h.listed _ hmem).false, ?_, ?_⟩
    · rw [hnew]
      rfl
    · rw [hnew, equal_comm]
      exact hequal
  · have hagrees := @agrees_new session table k h key false
    have hrouted' := hagrees.accounts h hrouted
    have hcache : ((table.new key false).put found
        { table.clients found with successor := some table.size }).cacheOf k =
        table.cacheOf k := by
      have hentries : ((table.new key false).put found
          { table.clients found with successor := some table.size }).entry k = table.entry k := rfl
      rw [cacheOf, cacheOf, hentries]
      cases hentry' : table.entry k with
      | none => rfl
      | some id =>
        dsimp only
        by_cases hid : id = found
        · rw [hid, put_clients_self]
        · rw [put_clients_of_ne hid, new_clients_of_lt key false (h.entry_some _ _ hentry').1]
    rw [Routed, hcache]
    exact hrouted'.put (by rw [hsame]) (by rw [hsame]) (by rw [hsame]) (by rw [hsame])

end

theorem maybeStartReadData_unregistered (hreg : (table.clients id).registered = false) :
    table.maybeStartReadData id = some table := by
  have hcall : (table.clients id).maybeStartReadData ((table.clients id).pkts.length + 1) =
      some (.ok (table.clients id)) := by
    unfold ICProxyClient.maybeStartReadData
    rw [if_pos (by simp [hreg])]
  rw [maybeStartReadData_of_ok hcall, put, Function.update_eq_self]

theorem put_self (table : ClientTable) (id : ℕ) : table.put id (table.clients id) = table := by
  rw [put, Function.update_eq_self]

section

variable (h : WellFormed session table)
include h

variable (hsession : OfKey session)
include hsession

theorem replace_ok (hkey : key.sessionId = session key) {found : ℕ}
    (hentry : table.entry key = some found) (hplace : (table.clients found).placeholder = true) :
    ∃ table', ((((table.new key false).leave found).put table.size
        ((ICProxyClient.new key false).cacheP2cPkts (table.clients found).pkts)).enter
          table.size).maybeStartReadData table.size = some table' ∧
      WellFormed session table' ∧ ∀ k, table.Routed k → table'.Routed k := by
  have hnew := @new_clients_self table key false
  have hagrees := fun k => @agrees_new session table k h key false
  obtain ⟨hfound, hreg, hequal⟩ := h.entry_some _ _ hentry
  have hok := h.client found hfound
  have hsame := @new_clients_of_lt table found key false hfound
  have hwf : WellFormed session ((table.new key false).leave found) := by
    have hleave := (h.new hkey false).leave (hfound.trans (lt_succ_self _))
      (by rw [hsame]; exact hreg) rfl (by rw [hsame]; exact hok)
    rwa [put_self] at hleave
  have hself : ((table.new key false).leave found).clients table.size = .new key false := by
    rw [leave_clients_of_ne hfound.ne', hnew]
  have hwaiting : ((table.new key false).leave found).Waiting (table.clients found).key
      table.size := by
    rw [Waiting, hself, equal_comm]
    exact ⟨lt_succ_self _, fun hmem => (h.listed _ hmem).false, rfl, hequal⟩
  have hnone : ((table.new key false).leave found).entry (table.clients found).key = none := by
    rw [leave_entry, hsame, equal_refl, if_pos rfl]
  obtain ⟨table', htake, hmoves⟩ := takeover_ok hwf hsession hok.sessionId hwaiting hnone hok.pkts
  rw [hself] at htake
  have hmoves' : Moves session (table.clients found).key (table.clients found).pkts table
      table' := by
    refine hmoves.after (fun k hk => (hagrees k).trans (agrees_leave (hsame ▸ hk)))
      fun k hk hacc => ?_
    have hacc' := (hagrees k).accounts h hacc
    refine hacc'.leave (hacc'.idle fun j hj => ?_) (hsame ▸ hk)
    have hj' : table.entry k = some j := hj
    rw [h.entry_key hfound hreg hk] at hj'
    cases hj'
    rw [hsame]
    exact hplace
  exact ⟨table', htake, hmoves.wellFormed, fun k => hmoves'.routed h fun hk =>
    cacheOf_of_entry (h.entry_key hfound hreg hk)⟩

/-- **A new client is registered**, or waits for the one before it. -/
theorem onSentHelloAck_ok (hkey : key.sessionId = session key)
    (hstep : table.onSentHelloAck key = some table') :
    WellFormed session table' ∧ ∀ k, table.Routed k → table'.Routed k := by
  have hwf := h.new hkey false
  have hnew := @new_clients_self table key false
  have hagrees := fun k => @agrees_new session table k h key false
  have hunlisted : table.size ∉ (table.new key false).registrations :=
    fun hmem => (h.listed _ hmem).false
  unfold onSentHelloAck at hstep
  cases hentry : table.entry key with
  | none =>
    obtain ⟨table₁, hstart, hmoves⟩ :=
      start_ok hwf (lt_succ_self _) (hnew : _ = (ICProxyClient.new key false).cacheP2cPkts [])
        hentry hunlisted
    rw [registerOk_of_none (by rw [hnew]; rfl) (by rw [hnew]; exact hentry), bind_some,
      hstart] at hstep
    cases hstep
    have hmoves' := hmoves.after (fun k _ => hagrees k) fun k _ hacc => (hagrees k).accounts h hacc
    refine ⟨hmoves.wellFormed, fun k => hmoves'.routed h fun hk => ?_⟩
    rw [cacheOf, h.entry_congr _ _ hk, hentry]
  | some found =>
    have hfound := (h.entry_some _ _ hentry).1
    have hsame := @new_clients_of_lt table found key false hfound
    have hnewEntry : (table.new key false).entry (ICProxyClient.new key false).key = some found :=
      hentry
    unfold registerOk register at hstep
    rw [hnew] at hstep
    rw [if_neg (by simp [ICProxyClient.new]), hnewEntry] at hstep
    dsimp only at hstep
    rw [if_neg hfound.ne, hsame] at hstep
    by_cases hplace : (table.clients found).placeholder = true
    · rw [if_neg (show ¬¬ (table.clients found).placeholder = true by simp [hplace])] at hstep
      obtain ⟨table₁, hreplace, hwf', hrouted⟩ := replace_ok h hsession hkey hentry hplace
      rw [bind_some, hreplace] at hstep
      cases hstep
      exact ⟨hwf', hrouted⟩
    · split_ifs at hstep with hsucc
      · cases hstep
      rw [bind_some, maybeStartReadData_unregistered] at hstep
      · cases hstep
        exact await_ok h hkey hentry
      · rw [put_clients_of_ne hfound.ne', hnew]
        rfl

/-! ### The loss of a peer -/

theorem shutdownClient_ok (hid : id < table.size) (dbid : ℕ) :
    ∃ table', shutdownClient dbid table id = some table' ∧ WellFormed session table' ∧
      table.size ≤ table'.size ∧
      ∀ k, k.remoteDbid ≠ dbid → table.cacheOf k = [] → table.Routed k →
        table'.cacheOf k = [] ∧ table'.Routed k := by
  unfold shutdownClient
  by_cases hreg : (table.clients id).registered = true
  · rw [if_neg (by simp [hreg])]
    by_cases hskip : (table.clients id).placeholder = true ∨
        (table.clients id).key.remoteDbid ≠ dbid
    · rw [if_pos hskip]
      refine ⟨_, rfl, ?_, le_rfl, fun k _ hnil hrouted => ?_⟩
      · exact h.follow hid hreg ⟨rfl, rfl, rfl, rfl, fun hshut => hshut⟩ (forall_mem_nil _)
          (h.opened id hid hreg)
      have hcache : (table.put id { table.clients id with pkts := [] }).cacheOf k = [] := by
        cases hk : k.equal (table.clients id).key with
        | false =>
          have hagrees : Agrees k table (table.put id { table.clients id with pkts := [] }) :=
            agrees_put rfl hk
          rw [hagrees.cacheOf h, hnil]
        | true =>
          have hentry : (table.put id { table.clients id with pkts := [] }).entry k = some id :=
            h.entry_key hid hreg hk
          rw [cacheOf_of_entry hentry, put_clients_self]
      rw [Routed, hnil] at hrouted
      rw [Routed, hcache]
      exact ⟨rfl, hrouted.put_pkts id _⟩
    · rw [if_neg hskip]
      simp only [not_or, not_not, Bool.not_eq_true] at hskip
      have hdrop : Keeps { table.clients id with pkts := [] }
          (shutdownC2p { table.clients id with pkts := [] }) := keeps_shutdownC2p hreg
      have hfollows : Follows (table.clients id)
          (shutdownC2p { table.clients id with pkts := [] }).shutdownP2c := by
        have hdrop' := hdrop.toFollows.trans (follows_shutdownP2c _)
        exact hdrop'.of_pkts
      obtain ⟨table', hfinish, hmoves⟩ := finish_ok h hsession ⟨hid, hreg, hskip.1⟩ hfollows (by
        rw [pkts_shutdownP2c, hdrop.pkts]
        exact forall_mem_nil _)
      have hothers : ∀ k, k.remoteDbid ≠ dbid → Agrees k table table' := by
        intro k hne
        have hkey : k.equal (table.clients id).key = false := Bool.eq_false_iff.2 fun heq =>
          hne ((equal_iff.1 heq).2.2.1.trans hskip.2)
        exact (agrees_put hfollows.key hkey).trans (hmoves.other k (hfollows.key ▸ hkey))
      -- any other key will do
      have hsize := (hothers { (table.clients id).key with remoteDbid := dbid + 1 }
        (succ_ne_self dbid)).size_le
      refine ⟨table', hfinish, hmoves.wellFormed, hsize, fun k hne hnil hrouted => ?_⟩
      exact ⟨((hothers k hne).cacheOf h).trans hnil, (hothers k hne).routed h hrouted⟩
  · rw [if_pos hreg]
    exact ⟨table, rfl, h, le_rfl, fun k _ hnil hrouted => ⟨hnil, hrouted⟩⟩

/-- **The loss of a peer** does nothing to a key of another peer without cached packets. -/
theorem shutdownByDbid_ok (dbid : ℕ) :
    ∃ table', table.shutdownByDbid dbid = some table' ∧ WellFormed session table' ∧
      ∀ k, k.remoteDbid ≠ dbid → table.cacheOf k = [] → table.Routed k → table'.Routed k := by
  suffices hloop : ∀ ids : List ℕ, ∀ table : ClientTable, WellFormed session table →
      (∀ id ∈ ids, id < table.size) →
      ∃ table', ids.foldlM (shutdownClient dbid) table = some table' ∧ WellFormed session table' ∧
        ∀ k, k.remoteDbid ≠ dbid → table.cacheOf k = [] → table.Routed k → table'.Routed k from
    hloop _ table h fun id hid => mem_range.1 hid
  intro ids
  induction ids with
  | nil => exact fun table h _ => ⟨table, rfl, h, fun _ _ _ hrouted => hrouted⟩
  | cons id ids ih =>
    intro table h hids
    obtain ⟨table₁, hturn, hwf, hsize, hkeep⟩ :=
      shutdownClient_ok h hsession (hids id mem_cons_self) dbid
    obtain ⟨table', hrest, hwf', hkeep'⟩ := ih table₁ hwf fun j hj =>
      (hids j (mem_cons_of_mem _ hj)).trans_le hsize
    refine ⟨table', ?_, hwf', fun k hne hnil hrouted => ?_⟩
    · rw [foldlM_cons, hturn]
      exact hrest
    · obtain ⟨hnil', hrouted'⟩ := hkeep k hne hnil hrouted
      exact hkeep' k hne hnil' hrouted'

end

/-! ### Runs -/

/-- What comes from outside: the packets of a key and its clients are of one session. -/
def Admissible (session : ICProxyKey → ℤ) : ProxyEvent → Prop
  | .arrive pkt => Proper pkt.p2cKey pkt ∧ pkt.sessionId = session pkt.p2cKey
  | .sentHelloAck key => key.sessionId = session key
  | _ => True

/-- Nothing happens that harms the packets of a key: its BYE does not come to a client that has
had one already, and when a peer is lost it is not the key's own, and no packets wait. -/
def Harmless (k : ICProxyKey) (table : ClientTable) : ProxyEvent → Prop
  | .arrive pkt => k.equal pkt.p2cKey = true → pkt.type = .bye →
      ∀ id, table.entry k = some id → (table.clients id).placeholder = false →
        (table.clients id).p2cShutting = false
  | .lost dbid => k.remoteDbid ≠ dbid ∧ table.cacheOf k = []
  | _ => True

instance (k : ICProxyKey) (table : ClientTable) : ∀ e, Decidable (Harmless k table e)
  | .arrive pkt => inferInstanceAs (Decidable (k.equal pkt.p2cKey = true → pkt.type = .bye →
      ∀ id ∈ table.entry k, (table.clients id).placeholder = false →
        (table.clients id).p2cShutting = false))
  | .lost dbid => inferInstanceAs (Decidable (k.remoteDbid ≠ dbid ∧ table.cacheOf k = []))
  | .sentHelloAck _ | .read .. | .readEof .. | .written .. | .sent _ | .shutdownDone _ =>
    .isTrue trivial

theorem step_ok {gpMaxPacketSize : ℕ} {e : ProxyEvent} (h : WellFormed session table)
    (hsession : OfKey session) (hadmissible : Admissible session e)
    (hstep : table.step gpMaxPacketSize e = some table') :
    WellFormed session table' ∧ ∀ k, Harmless k table e → table.Routed k → table'.Routed k := by
  -- all calls but four keep what arrives
  have hcall : ∀ id client, table.Active id → Keeps (table.clients id) client →
      table.finish id client = some table' →
      WellFormed session table' ∧ ∀ k, Harmless k table e → table.Routed k → table'.Routed k := by
    intro id client hactive hkeeps hfinish
    obtain ⟨table₁, hfinish', hwf, hrouted⟩ := call_ok h hsession hactive hkeeps
    cases hfinish'.symm.trans hfinish
    exact ⟨hwf, fun k _ => hrouted k⟩
  cases e with simp only [step] at hstep
  | arrive pkt =>
    obtain ⟨table₁, hroute, hwf, hrouted⟩ := route_ok h hsession hadmissible.1 hadmissible.2
    cases hroute.symm.trans hstep
    exact ⟨hwf, hrouted⟩
  | sentHelloAck key =>
    obtain ⟨hwf, hrouted⟩ := onSentHelloAck_ok h hsession hadmissible hstep
    exact ⟨hwf, fun k _ => hrouted k⟩
  | read id packets =>
    split_ifs at hstep with hguard
    split at hstep
    · cases hstep
    next client hdata => exact hcall id client hguard.1 (keeps_onC2pData hdata) hstep
  | readEof id ibuf =>
    split_ifs at hstep with hguard
    split at hstep
    · cases hstep
    next client hdata => exact hcall id client hguard.1 (keeps_onC2pEof hguard.1.2.1 hdata) hstep
  | written id ok =>
    split_ifs at hstep with hguard
    exact hcall id _ hguard.1 (keeps_onSentP2cData hguard.1.2.1 ok) hstep
  | sent id =>
    split_ifs at hstep with hactive
    split at hstep
    · cases hstep
    · split at hstep
      · exact hcall id _ hactive (keeps_onSentC2pBye _) hstep
      · exact hcall id _ hactive (keeps_onSentC2pResume _) hstep
  | shutdownDone id =>
    split_ifs at hstep with hguard
    exact hcall id _ hguard.1 (keeps_onShutdownP2c hguard.2.1) hstep
  | lost dbid =>
    obtain ⟨table₁, hlost, hwf, hrouted⟩ := shutdownByDbid_ok h hsession dbid
    cases hlost.symm.trans hstep
    exact ⟨hwf, fun k hharmless => hrouted k hharmless.1 hharmless.2⟩

theorem routed_init (k : ICProxyKey) : init.Routed k where
  served := nofun
  cached := rfl
  idle := fun _ => le_rfl
  current := nofun

/-- **Each packet to its client, once and in order, while nothing harms the key; and the cached
packets are handled in the end unless one of a later session or command is put back.**  In every
run, whatever the packets, clients and lost peers, whose events are harmless to a key: the `i`-th
client of the key has the `i`-th segment of the key's stream in its pipe and shuts down after its
BYE, all later packets wait in the table, and the next packet will be taken. -/
theorem packets_routed (gpMaxPacketSize : ℕ) (session : ICProxyKey → ℤ) (k : ICProxyKey) :
    (∀ (es : List ProxyEvent) (table : ClientTable),
      (∀ k k', k.equal k' = true → session k = session k') →
      Machine.run (step gpMaxPacketSize) init es = some table →
      Machine.Along (step gpMaxPacketSize)
        (fun table e => Admissible session e ∧ Harmless k table e) init es →
      (∀ i id, (table.clientsOf k)[i]? = some id →
        (table.clients id).pipe = segment ICProxyPkt.isBye i (table.streamOf k) ∧
        (table.clients id).p2cShutting = decide (i < (table.streamOf k).countP ICProxyPkt.isBye)) ∧
      (table.cacheOf k).filter (·.inStream) =
        afterSeps ICProxyPkt.isBye (table.clientsOf k).length (table.streamOf k) ∧
      ∀ pkt, Admissible session (.arrive pkt) →
        (table.step gpMaxPacketSize (.arrive pkt)).isSome = true) ∧
    ∀ client : ICProxyClient, (∃ fuel, (client.handleP2cCache fuel).isSome = true) ↔
      client.placeholder = true ∨ client.p2cShutting = true ∨
        (∃ pkt ∈ client.pkts, EndsLoop client.key pkt) ∨
        ∀ pkt ∈ client.pkts, ¬ PutBack client.key pkt := by
  refine ⟨fun es table hsession hrun halong => ?_, handleP2cCache_ends_iff⟩
  have hkeep : ∀ table e table', (WellFormed session table ∧ table.Routed k) →
      (Admissible session e ∧ Harmless k table e) →
      table.step gpMaxPacketSize e = some table' → WellFormed session table' ∧ table'.Routed k := by
    intro table e table' hinv hcond hstep
    obtain ⟨hwf, hrouted⟩ := step_ok hinv.1 hsession hcond.1 hstep
    exact ⟨hwf, hrouted k hcond.2 hinv.2⟩
  obtain ⟨hwf, hrouted⟩ := Machine.run_invariant_along
    (P := fun table => WellFormed session table ∧ table.Routed k) hkeep
    ⟨wellFormed_init session, routed_init k⟩ halong hrun
  refine ⟨hrouted.served, hrouted.cached, fun pkt hpkt => ?_⟩
  obtain ⟨table', hroute, -⟩ := route_ok hwf hsession hpkt.1 hpkt.2
  rw [step, hroute, isSome_some]

/-- A key for the runs below; its packets come from the peer with dbid 1. -/
def keyFromPeer : ICProxyKey where
  localContentId := 0
  localDbid := 2
  localPid := 100
  remoteContentId := -1
  remoteDbid := 1
  remotePid := 200
  sessionId := 7
  commandId := 1
  sendSliceIndex := 1
  recvSliceIndex := 0

/-- A packet of the key without data. -/
def fromPeer (type : ICProxyMessageType) : ICProxyPkt := icProxyMessageInit type keyFromPeer.reverse

theorem admissible_fromPeer {type : ICProxyMessageType}
    (h : type = .data ∨ type = .bye ∨ type = .dataAck) :
    Admissible (fun _ => 7) (.arrive (fromPeer type)) :=
  ⟨⟨rfl, rfl, rfl, h⟩, rfl⟩

/-- A packet comes before its client, another one and a BYE after it; then a peer is lost that is
not the key's, and a packet comes for the next client. -/
def dataAndBye : List ProxyEvent :=
  [.arrive (fromPeer .data), .sentHelloAck keyFromPeer, .arrive (fromPeer .data),
    .arrive (fromPeer .bye), .lost 3, .arrive (fromPeer .data)]

/-- The events of that run are admissible and harmless, so the client has the two packets before
the BYE and shuts down, and the packet after it waits. -/
theorem dataAndBye_routed : ∃ table, Machine.run (step 8192) init dataAndBye = some table ∧
      table.clientsOf keyFromPeer = [1] ∧
      (table.clients 1).pipe = [fromPeer .data, fromPeer .data] ∧
      (table.clients 1).p2cShutting = true ∧
      (table.cacheOf keyFromPeer).filter (·.inStream) = [fromPeer .data] := by
  have hadmissible : ∀ e ∈ dataAndBye, Admissible (fun _ => 7) e := by
    simp only [dataAndBye, forall_mem_cons]
    exact ⟨admissible_fromPeer (.inl rfl), rfl, admissible_fromPeer (.inl rfl),
      admissible_fromPeer (.inr (.inl rfl)), trivial, admissible_fromPeer (.inl rfl), by simp⟩
  have hharmless : Machine.Along (step 8192) (Harmless keyFromPeer) init dataAndBye := by
    decide +kernel
  obtain ⟨table, hrun, hclients, hstream⟩ : ∃ table,
      Machine.run (step 8192) init dataAndBye = some table ∧
      table.clientsOf keyFromPeer = [1] ∧ table.streamOf keyFromPeer =
        [fromPeer .data, fromPeer .data, fromPeer .bye, fromPeer .data] :=
    Machine.exists_of_any (by decide +kernel)
  obtain ⟨hserved, hcached, -⟩ := (packets_routed 8192 (fun _ => 7) keyFromPeer).1 dataAndBye table
    (fun _ _ _ => rfl) hrun
    (Machine.along_and (Machine.along_of_forall fun e he _ => hadmissible e he) hharmless)
  have hclient := hserved 0 1 (by rw [hclients]; rfl)
  rw [hstream] at hclient hcached
  rw [hclients] at hcached
  exact ⟨table, hrun, hclients, hclient.1.trans (by decide), hclient.2.trans (by decide),
    hcached.trans (by decide)⟩

/-- A packet waits for its client, and is dropped when another peer is lost.  The second BYE of a
key comes to the client that has had the first one, and the next client never shuts down.  A packet
of a later command is put back into the cache for ever. -/
theorem packets_misrouted : (∃ table, Machine.run (step 8192) init
        [.arrive (fromPeer .data), .lost 3, .sentHelloAck keyFromPeer] = some table ∧
      table.streamOf keyFromPeer = [fromPeer .data] ∧
      (table.clientsOf keyFromPeer).map (fun id => (table.clients id).pipe) = [[]] ∧
      table.cacheOf keyFromPeer = []) ∧
    (∃ table, Machine.run (step 8192) init
        [.sentHelloAck keyFromPeer, .arrive (fromPeer .bye), .arrive (fromPeer .data),
          .arrive (fromPeer .bye), .sentHelloAck keyFromPeer, .readEof 0 [], .sent 0,
          .shutdownDone 0] = some table ∧
      table.streamOf keyFromPeer = [fromPeer .bye, fromPeer .data, fromPeer .bye] ∧
      (table.clientsOf keyFromPeer).map (fun id =>
          ((table.clients id).pipe, (table.clients id).p2cShutting)) =
        [([], true), ([fromPeer .data], false)] ∧
      table.cacheOf keyFromPeer = []) ∧
    ∀ fuel, ICProxyClient.handleP2cCache fuel { ICProxyClient.new keyFromPeer false with
      registered := true, pkts := [{ fromPeer .data with commandId := 2 }] } = none := by
  refine ⟨Machine.exists_of_any (by decide +kernel), Machine.exists_of_any (by decide +kernel),
    fun fuel => ?_⟩
  have hfuture : PutBack keyFromPeer { fromPeer .data with commandId := 2 } := by
    refine ⟨?_, ?_⟩ <;> decide
  refine handleP2cCacheLoop_never rfl rfl (fun pkt hpkt hends => ?_)
    ⟨_, mem_cons_self, hfuture⟩ fuel
  rw [mem_singleton.1 hpkt] at hends
  exact absurd hends.2.1 (by decide)

end ClientTable

end Cloudberry.Proxy
