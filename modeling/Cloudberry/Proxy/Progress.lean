/-
# Which connections are never stalled

The law of flow control (`Direction`) holds in every state of a connection (`run_inv`). So a
sender whose packets are all written and acknowledged is not paused, as long as no more than
twenty of its packets were merged; and then it gets to the end of its backend's stream and can
close. With one more merged packet it can stay paused for ever (`stalledRun`).
-/

import Cloudberry.Proxy.FlowControl

namespace Cloudberry.Proxy

open List Function Connection ICProxyClient SameReceiver Machine Except Nat

variable {gpMaxPacketSize : ℕ} {key : ICProxyKey}

/-! ### The invariant -/

/-- What holds of both directions in every state. -/
structure Connection.Inv (gpMaxPacketSize : ℕ) (key : ICProxyKey) (sys : Connection) : Prop where
  direction : ∀ s, Direction gpMaxPacketSize (sys.given s) (sys.eof s) (sys.client s).counts
    (sys.client (!s)).counts (countType .data (sys.link s)) (countType .dataAck (sys.link (!s)))
  sound : ∀ s, Sound key (sys.client s)
  link : ∀ s, ∀ pkt ∈ sys.link s, Proper key pkt
  routed : ∀ s, (sys.client s).routed = []
  eof : ∀ s, sys.eof s = true → (sys.client s).c2pShutting = true
  closes : ∀ s, Closes (sys.client s)

theorem inv_init (gpMaxPacketSize : ℕ) (key : ICProxyKey) : (init key).Inv gpMaxPacketSize key where
  direction := by
    intro s
    exact ⟨rfl, rfl, fun _ => rfl, nofun, le_rfl, by change (0 : ℤ) < 10; decide, nofun,
      fun _ => rfl⟩
  sound := by
    intro s
    refine ⟨?_, ?_, forall_mem_nil _, forall_mem_nil _, le_rfl, rfl, nofun, nofun, nofun⟩
    · cases s <;> rfl
    · cases s <;> rfl
  link := fun _ => forall_mem_nil _
  routed := fun _ => rfl
  eof := nofun
  closes := nofun

theorem counts_routed_nil (client : ICProxyClient) : counts { client with routed := [] } =
      { client.counts with routedData := 0, routedAcks := 0 } := rfl

section put

variable {sys : Connection} {t : Bool} {client : ICProxyClient}

theorem Connection.put_client_self : (sys.put t client).client t = { client with routed := [] } :=
  update_self ..

theorem Connection.put_client_not : (sys.put t client).client (!t) = sys.client (!t) :=
  update_of_ne (Bool.not_ne_self t) ..

theorem Connection.put_link_self : (sys.put t client).link t = sys.link t ++ client.routed :=
  update_self ..

theorem Connection.put_link_not : (sys.put t client).link (!t) = sys.link (!t) :=
  update_of_ne (Bool.not_ne_self t) ..

variable (h : sys.Inv gpMaxPacketSize key)
include h

/-- **One client moves**: both directions have to be kept. -/
theorem Connection.Inv.put (sys' : Connection)
    (hsend : Direction gpMaxPacketSize (sys'.given t) (sys'.eof t)
      client.counts (sys.client (!t)).counts (countType .data (sys'.link t))
      (countType .dataAck (sys'.link (!t))))
    (hrecv : Direction gpMaxPacketSize (sys'.given (!t)) (sys'.eof (!t)) (sys.client (!t)).counts
      client.counts (countType .data (sys'.link (!t))) (countType .dataAck (sys'.link t)))
    (hsound : Sound key client) (hlink : ∀ s, ∀ pkt ∈ sys'.link s, Proper key pkt)
    (heof : sys'.eof t = true → client.c2pShutting = true) (heof' : sys'.eof (!t) = sys.eof (!t))
    (hcloses : Closes client) (hclient : sys'.client = sys.client) :
    (sys'.put t client).Inv gpMaxPacketSize key := by
  have hcases : ∀ {P : Bool → Prop}, P t → P (!t) → ∀ s, P s := by
    intro P ht hnot s
    cases s <;> cases t <;> assumption
  have hnot : (sys'.put t client).client (!t) = sys.client (!t) := by rw [put_client_not, hclient]
  have hgiven : (sys'.put t client).given = sys'.given := rfl
  have heofs : (sys'.put t client).eof = sys'.eof := rfl
  refine ⟨hcases ?_ ?_, hcases ?_ ?_, hcases ?_ ?_, hcases ?_ ?_, hcases ?_ ?_, hcases ?_ ?_⟩
  · rw [hgiven, heofs, put_client_self, hnot, put_link_self, put_link_not, counts_routed_nil,
      countType_append]
    have hdata := hsend.data
    have hcount : client.counts.routedData = countType .data client.routed := rfl
    exact { hsend with data := by simp only; omega }
  · rw [hgiven, heofs, Bool.not_not, put_client_self, hnot, put_link_self, put_link_not,
      counts_routed_nil, countType_append]
    have hacks := hrecv.acks
    have hcount : client.counts.routedAcks = countType .dataAck client.routed := rfl
    exact { hrecv with acks := by simp only; push_cast; omega }
  · rw [put_client_self]
    exact { hsound with routed := forall_mem_nil _ }
  · rw [hnot]
    exact h.sound _
  · rw [put_link_self]
    exact forall_mem_append.2 ⟨hlink t, hsound.routed⟩
  · rw [put_link_not]
    exact hlink (!t)
  · rw [put_client_self]
  · rw [hnot]
    exact h.routed _
  · rw [put_client_self]
    exact heof
  · rw [heofs, heof', hnot]
    exact h.eof _
  · rw [put_client_self]
    exact hcloses
  · rw [hnot]
    exact h.closes _

theorem Connection.Inv.receiving (s : Bool) :
    Direction gpMaxPacketSize (sys.given (!s)) (sys.eof (!s)) (sys.client (!s)).counts
      (sys.client s).counts (countType .data (sys.link (!s)))
      (countType .dataAck (sys.link s)) := by
  have hdir := h.direction (!s)
  rwa [Bool.not_not] at hdir

theorem Connection.Inv.move_of_counts (hcounts : client.counts = (sys.client t).counts)
    (hsound : Sound key client) (hshut : client.c2pShutting = (sys.client t).c2pShutting)
    (hcloses : Closes client) : (sys.put t client).Inv gpMaxPacketSize key := by
  refine h.put sys ?_ ?_ hsound h.link (fun he => hshut.trans (h.eof t he)) rfl hcloses rfl
  · rw [hcounts]
    exact h.direction t
  · rw [hcounts]
    exact h.receiving t

end put

/-! ### Every event keeps the invariant -/

section events

variable {client client' : ICProxyClient}

theorem c2pShutting_maybeClose (client : ICProxyClient) :
    client.maybeClose.c2pShutting = client.c2pShutting := by
  unfold maybeClose
  split <;> rfl

theorem c2pShutting_shutdownP2c (client : ICProxyClient) :
    client.shutdownP2c.c2pShutting = client.c2pShutting := by
  unfold shutdownP2c
  split
  · exact c2pShutting_maybeClose client
  · rfl

theorem c2pShutting_maybeResume (client : ICProxyClient) :
    client.maybeResume.c2pShutting = client.c2pShutting := by
  unfold maybeResume
  split <;> rfl

theorem c2pShutting_shutdownC2p (client : ICProxyClient) :
    client.shutdownC2p.c2pShutting = true := by
  unfold shutdownC2p
  dsimp only
  split_ifs with hshut
  · rw [c2pShutting_maybeClose, hshut]
  · rfl
  · rw [c2pShutting_shutdownP2c]

theorem c2pShutting_maybeSendAckMessage (client : ICProxyClient) :
    client.maybeSendAckMessage.c2pShutting = client.c2pShutting := by
  unfold maybeSendAckMessage
  split <;> rfl

theorem c2pShutting_onSentP2cData (ok : Bool) (h : client.c2pShutting = true) :
    (client.onSentP2cData ok).c2pShutting = true := by
  unfold onSentP2cData
  rw [c2pShutting_maybeSendAckMessage]
  cases ok
  · exact c2pShutting_shutdownC2p client
  · exact h

variable {pkt : ICProxyPkt}

theorem onP2cData_cases (h : client.onP2cData pkt = .ok client') :
    client' = client ∨ client' = client.cacheP2cPkt pkt ∨
    (client.p2cShutting = false ∧
      client' = { client with sending := client.sending + 1, pipe := client.pipe ++ [pkt] }) ∨
    client' = client.maybeResume.shutdownP2c ∨
    client' = maybeResume { client with
      unackSendPkt := client.unackSendPkt - icProxyAckInterval } := by
  unfold onP2cData at h
  by_cases hvalid : ¬ pkt.isValid = true
  · rw [if_pos hvalid] at h
    exact .inl (ok.inj h).symm
  rw [if_neg hvalid] at h
  split at h
  · exact .inr (.inl (ok.inj h).symm)
  split at h
  · split at h
    · exact .inl (ok.inj h).symm
    · exact .inr (.inl (ok.inj h).symm)
  split at h
  · split at h
    · exact .inr (.inl (ok.inj h).symm)
    next hshut => exact .inr (.inr (.inl ⟨Bool.eq_false_iff.2 hshut, (ok.inj h).symm⟩))
  · unfold onP2cMessage at h
    split at h
    · exact .inr (.inr (.inr (.inl (ok.inj h).symm)))
    · exact .inr (.inr (.inr (.inr (ok.inj h).symm)))
    · cases h

theorem c2pShutting_arrive (h : Connection.arrive client pkt = .ok client') :
    client'.c2pShutting = client.c2pShutting := by
  unfold Connection.arrive at h
  split at h
  · cases h
    rfl
  rcases onP2cData_cases h with rfl | rfl | ⟨-, rfl⟩ | rfl | rfl
  · rfl
  · rfl
  · rfl
  · rw [c2pShutting_shutdownP2c, c2pShutting_maybeResume]
  · rw [c2pShutting_maybeResume]

theorem closes_maybeClose (client : ICProxyClient) : Closes client.maybeClose := by
  unfold maybeClose
  split
  · exact fun _ _ _ => rfl
  next hready => exact fun hsending hc2p hp2c => absurd ⟨hsending, hc2p, hp2c⟩ hready

theorem Closes.shutdownP2c (h : Closes client) : Closes client.shutdownP2c := by
  unfold ICProxyClient.shutdownP2c
  split
  · exact closes_maybeClose client
  · exact h

theorem Sound.closes_shutdownC2p (h : Sound key client) : Closes client.shutdownC2p := by
  unfold ICProxyClient.shutdownC2p
  dsimp only
  split_ifs with hshut hreg
  · exact closes_maybeClose client
  · intro hsending
    have hcount := h.sending
    have hle := h.pipeDone_le
    simp only [ICProxyClient.routeMessage] at hsending
    omega
  · unfold ICProxyClient.shutdownP2c
    split
    · exact closes_maybeClose _
    next hp2c => exact fun _ _ hshutted => absurd (h.shutted hshutted).1 hp2c

section

variable (h : Closes client)
include h

theorem Closes.maybeResume : Closes client.maybeResume := by
  unfold ICProxyClient.maybeResume
  split <;> exact h

theorem Closes.onP2cData (hsound : Sound key client) (hdata : client.onP2cData pkt = .ok client') :
    Closes client' := by
  rcases onP2cData_cases hdata with rfl | rfl | ⟨hshut, rfl⟩ | rfl | rfl
  · exact h
  · exact h
  · exact fun _ _ hshutted => absurd (hsound.shutted hshutted).1 (by simp [hshut])
  · exact h.maybeResume.shutdownP2c
  · have h' : Closes { client with
        unackSendPkt := client.unackSendPkt - icProxyAckInterval } := h
    exact h'.maybeResume

theorem Closes.arrive (hsound : Sound key client)
    (harrive : Connection.arrive client pkt = .ok client') : Closes client' := by
  unfold Connection.arrive at harrive
  split at harrive
  · cases harrive
    exact h
  · exact h.onP2cData hsound harrive

theorem Closes.onC2pDataPkt {data : List Byte}
    (hpush : client.onC2pDataPkt gpMaxPacketSize data = .ok client') : Closes client' := by
  unfold ICProxyClient.onC2pDataPkt ICProxyClient.maybePause ICProxyClient.obufPush at hpush
  dsimp only at hpush
  split_ifs at hpush <;> (cases hpush; exact h)

theorem Closes.handleP2cCacheLoop {fuel : ℕ} (hsound : Sound key client)
    (hloop : client.handleP2cCacheLoop fuel = some (.ok client')) : Closes client' := by
  induction fuel generalizing client with
  | zero => cases hloop
  | succ fuel ih =>
    unfold handleP2cCacheLoop at hloop
    rcases hpkts : client.pkts with _ | ⟨pkt, pkts⟩ <;> rw [hpkts] at hloop <;> dsimp only at hloop
    · cases Option.some.inj hloop
      exact h
    split at hloop
    · cases Option.some.inj hloop
      exact h
    have hpkt : Proper key pkt := hsound.pkts pkt (hpkts ▸ mem_cons_self)
    have hrest : Sound key { client with pkts := pkts } :=
      { hsound with pkts := fun p hp => hsound.pkts p (hpkts ▸ mem_cons_of_mem _ hp) }
    have hcloses : Closes { client with pkts := pkts } := h
    obtain ⟨_, hdata, hsound₁, -⟩ := onP2cData_handles hrest hpkt
    rw [hdata] at hloop
    exact ih (hcloses.onP2cData hrest hdata) hsound₁ hloop

end

theorem Sound.onSentP2cData (h : Sound key client) (ok : Bool)
    (hdone : client.pipeDone < client.pipe.length) : Sound key (client.onSentP2cData ok) := by
  apply Sound.maybeSendAckMessage
  have hsame : client.shutdownC2p.pipeDone = client.pipeDone ∧
      client.shutdownC2p.pipe.length = client.pipe.length := by
    have hcounts := counts_shutdownC2p client
    exact ⟨congrArg Counts.pipeDone hcounts, congrArg Counts.piped hcounts⟩
  cases ok
  · have hsending := h.shutdownC2p.sending
    exact { h.shutdownC2p with
      pipeDone_le := by simp only [Bool.false_eq_true, if_false]; omega
      sending := by simp only [Bool.false_eq_true, if_false]; push_cast; omega
      shutted := fun hshut => absurd (h.shutdownC2p.shutted hshut).2 (by omega) }
  · have hsending := h.sending
    exact { h with
      pipeDone_le := by simp only [if_true]; omega
      sending := by simp only [if_true]; push_cast; omega
      shutted := fun hshut => absurd (h.shutted hshut).2 (by omega) }

theorem p2cShutted_shutdownC2p (client : ICProxyClient) :
    client.shutdownC2p.p2cShutted = client.p2cShutted := by
  unfold shutdownC2p shutdownP2c maybeClose
  dsimp only
  split_ifs <;> rfl

theorem p2cShutted_maybeSendAckMessage (client : ICProxyClient) :
    client.maybeSendAckMessage.p2cShutted = client.p2cShutted := by
  unfold maybeSendAckMessage
  split <;> rfl

theorem p2cShutted_onSentP2cData (client : ICProxyClient) (ok : Bool) :
    (client.onSentP2cData ok).p2cShutted = client.p2cShutted := by
  unfold onSentP2cData
  rw [p2cShutted_maybeSendAckMessage]
  cases ok
  · exact p2cShutted_shutdownC2p client
  · rfl

theorem closes_onSentP2cData (h : Sound key client) (ok : Bool)
    (hdone : client.pipeDone < client.pipe.length) : Closes (client.onSentP2cData ok) := by
  have hopen : client.p2cShutted = false := by
    refine Bool.eq_false_iff.2 fun hshut => ?_
    have heq := (h.shutted hshut).2
    omega
  intro _ _ hshut
  rw [p2cShutted_onSentP2cData, hopen] at hshut
  cases hshut

theorem Sound.onSentC2pBye (h : Sound key client) {unsent : List ICProxyMessageType}
    (hunsent : client.unsent = .bye :: unsent) :
    Sound key (onSentC2pBye { client with unsent := unsent }) := by
  apply Sound.maybeClose
  have hsending := h.sending
  rw [hunsent, length_cons] at hsending
  exact { h with
    sending := by simp only; push_cast at hsending; omega
    bye := fun _ => .inl rfl }

theorem Sound.onSentC2pResume (h : Sound key client) {type : ICProxyMessageType}
    {unsent : List ICProxyMessageType} (hunsent : client.unsent = type :: unsent)
    (htype : type ≠ .bye) : Sound key (onSentC2pResume { client with unsent := unsent }) := by
  apply Sound.maybeClose
  have hsending := h.sending
  rw [hunsent, length_cons] at hsending
  exact { h with
    sending := by simp only; push_cast at hsending; omega
    bye := by
      intro hshut
      refine (h.bye hshut).imp id fun hmem => ?_
      rw [hunsent] at hmem
      exact (mem_cons.1 hmem).resolve_left (Ne.symm htype) }

theorem foldlM_onC2pDataPkt {given : List (List Byte)} {g : Counts} {nOut nBack : ℕ}
    {packets : List (List Byte)} (hsound : Sound key client) (hcloses : Closes client)
    (hdir : Direction gpMaxPacketSize given false client.counts g nOut nBack)
    (hpackets : ∀ p ∈ packets, 5 ≤ p.length ∧ p.length ≤ gpMaxPacketSize) :
    ∃ client', packets.foldlM (onC2pDataPkt gpMaxPacketSize) client = .ok client' ∧
      Sound key client' ∧
      Direction gpMaxPacketSize (given ++ packets) false client'.counts g nOut nBack ∧
      SameReceiver client.counts client'.counts ∧ Closes client' := by
  induction packets generalizing client given with
  | nil => exact ⟨client, rfl, hsound, by rwa [append_nil], .refl _, hcloses⟩
  | cons p packets ih =>
    obtain ⟨_, hmax⟩ := hpackets p mem_cons_self
    obtain ⟨client₁, hpush, hsound₁⟩ := hsound.onC2pDataPkt hmax
    have hcounts := counts_onC2pDataPkt client hpush
    have hsame : SameReceiver client.counts client₁.counts := by
      rw [hcounts]
      exact (unackSendPkt _ _).trans ((pause _).trans (.push _ _))
    have hdir₁ : Direction gpMaxPacketSize (given ++ [p]) false client₁.counts g nOut nBack := by
      rw [hcounts]
      exact hdir.push (by omega)
    obtain ⟨client', hfold, hsound', hdir', hsame', hcloses'⟩ := ih hsound₁
      (hcloses.onC2pDataPkt hpush) hdir₁ fun q hq => hpackets q (mem_cons_of_mem _ hq)
    refine ⟨client', ?_, hsound', ?_, hsame.trans hsame', hcloses'⟩
    · rw [foldlM_cons, hpush]
      exact hfold
    · rwa [append_assoc] at hdir'

theorem onC2pEof_ok {given : List (List Byte)} {eof : Bool} {g : Counts} {nOut nBack : ℕ}
    {ibuf : List Byte} (hsound : Sound key client)
    (hdir : Direction gpMaxPacketSize given eof client.counts g nOut nBack)
    (hibuf : ibuf.length ≤ gpMaxPacketSize) (heof : eof = true → ibuf = [])
    (hplace : client.placeholder = false) :
    ∃ client', client.onC2pEof gpMaxPacketSize ibuf = .ok client' ∧ Sound key client' ∧
      Direction gpMaxPacketSize (given ++ leftover ibuf) true
        client'.counts g nOut nBack ∧
      SameReceiver client.counts client'.counts ∧ client'.c2pShutting = true ∧
      Closes client' := by
  -- what is left in the `ibuf` is pushed like a packet
  obtain ⟨client₁, hleft, hsound₁, hdir₁, hsame₁, hplace₁⟩ : ∃ client₁,
      client.flushIbuf gpMaxPacketSize ibuf = .ok client₁ ∧ Sound key client₁ ∧
      Direction gpMaxPacketSize (given ++ leftover ibuf) eof
        client₁.counts g nOut nBack ∧ SameReceiver client.counts client₁.counts ∧
      client₁.counts.placeholder = false := by
    unfold flushIbuf leftover
    by_cases hpos : ibuf.length > 0
    · rw [if_pos hpos, if_pos hpos]
      have hopen : eof = false := by
        cases eof
        · rfl
        · rw [heof rfl] at hpos
          exact absurd hpos (lt_irrefl _)
      subst hopen
      obtain ⟨client₁, hpush, hsound₁⟩ := hsound.onC2pDataPkt hibuf
      have hcounts := counts_onC2pDataPkt client hpush
      refine ⟨client₁, hpush, hsound₁, ?_, ?_, ?_⟩ <;> rw [hcounts]
      · exact hdir.push hpos
      · exact (unackSendPkt _ _).trans ((pause _).trans (.push _ _))
      · unfold Counts.push Counts.pause
        split_ifs <;> exact hplace
    · rw [if_neg hpos, if_neg hpos, append_nil]
      exact ⟨client, rfl, hsound, hdir, .refl _, hplace⟩
  obtain ⟨client₂, hflush, hsound₂⟩ : ∃ client₂,
      client₁.obufPush gpMaxPacketSize [] = .ok client₂ ∧ Sound key client₂ :=
    hsound₁.obufPush (zero_le gpMaxPacketSize)
  have hcounts₂ := counts_obufPush client₁ hflush
  have hsound₃ : Sound key { client₂ with reading := false } := { hsound₂ with }
  have hcounts₃ : counts { client₂ with reading := false } =
      { client₁.counts.push gpMaxPacketSize 0 with reading := false } := by
    rw [length_nil] at hcounts₂
    rw [← hcounts₂]
    rfl
  refine ⟨_, ?_, hsound₃.shutdownC2p, ?_, ?_, c2pShutting_shutdownC2p _, hsound₃.closes_shutdownC2p⟩
  · unfold onC2pEof
    rw [hleft]
    simp [bind, Except.bind, hflush]
  · rw [counts_shutdownC2p, hcounts₃]
    exact hdir₁.flush hplace₁
  · rw [counts_shutdownC2p, hcounts₃]
    exact hsame₁.trans ((push _ _).trans ⟨rfl, rfl, rfl, rfl, rfl⟩)

end events

/-- **An event keeps the invariant.** -/
theorem step_inv {sys sys' : Connection} {e : ConnectionEvent} (h : sys.Inv gpMaxPacketSize key)
    (hstep : sys.step gpMaxPacketSize e = some sys') : sys'.Inv gpMaxPacketSize key := by
  -- the two directions in which a client takes part
  have hsend := h.direction
  have hrecv := h.receiving
  cases e with simp only [step] at hstep
  | start s =>
    by_cases hplace : (sys.client s).placeholder = true
    swap
    · rw [if_neg hplace] at hstep
      cases hstep
    rw [if_pos hplace] at hstep
    have hdir := hsend s
    have heof : sys.eof s = false := hdir.early hplace
    -- the client reads from now on
    set client : ICProxyClient :=
      { sys.client s with placeholder := false, registered := true, reading := true } with hclient
    have hsound : Sound key client := { h.sound s with registered := fun _ => rfl }
    have hdir' : Direction gpMaxPacketSize (sys.given s) (sys.eof s) client.counts
        (sys.client (!s)).counts (countType .data (sys.link s))
        (countType .dataAck (sys.link (!s))) :=
      { hdir with
        reading := fun _ => .inl (.inl rfl)
        early := fun hearly => absurd hearly Bool.false_ne_true }
    have hrecv' := (hrecv s).congr_receiver
      (⟨rfl, rfl, rfl, rfl, rfl⟩ : SameReceiver (sys.client s).counts client.counts)
    obtain ⟨client', hloop, hsound', hhandles⟩ := handleP2cCacheLoop_handles hsound rfl
      (lt_succ_self _)
    have hstart : maybeStartReadData ((sys.client s).pkts.length + 1)
        { sys.client s with placeholder := false, registered := true } = some (.ok client') := hloop
    rw [hstart] at hstep
    cases hstep
    have hcloses : Closes client := h.closes s
    exact h.put sys (hdir'.sender hhandles) (hrecv'.receiver hhandles) hsound' h.link
      (fun he => absurd he (by simp [heof])) rfl (hcloses.handleP2cCacheLoop hsound hloop) rfl
  | read s packets =>
    split_ifs at hstep with hguard
    obtain ⟨hreading, hclosing, heof, hpackets⟩ := hguard
    have heof : sys.eof s = false := Bool.eq_false_iff.2 heof
    have hdir := hsend s
    rw [heof] at hdir
    obtain ⟨client', hfold, hsound, hdir', hsame, hcloses⟩ :=
      foldlM_onC2pDataPkt (h.sound s) (h.closes s) hdir hpackets
    have hread : (sys.client s).onC2pData gpMaxPacketSize packets = .ok client' ∨
        ∃ msg, (sys.client s).onC2pData gpMaxPacketSize packets = .error msg := by
      unfold onC2pData
      split
      · exact .inr ⟨_, rfl⟩
      · exact .inl hfold
    rcases hread with hread | ⟨msg, hread⟩ <;> rw [hread] at hstep
    · cases hstep
      set sys' : Connection :=
        { sys with given := update sys.given s (sys.given s ++ packets) } with hsys
      refine h.put sys' ?_ ?_ hsound h.link (fun he => absurd he (by simp [hsys, heof])) rfl hcloses
        rfl
      · simpa [hsys, heof] using hdir'
      · simpa [hsys] using (hrecv s).congr_receiver hsame
    · cases hstep
  | readEof s ibuf =>
    split_ifs at hstep with hguard
    obtain ⟨hreading, hplace, hclosing, hibuf, heof⟩ := hguard
    obtain ⟨client', hread, hsound, hdir, hsame, hshut, hcloses⟩ :=
      onC2pEof_ok (h.sound s) (hsend s) hibuf heof (Bool.eq_false_iff.2 hplace)
    rw [hread] at hstep
    cases hstep
    set sys' : Connection := { sys with
        given := update sys.given s (sys.given s ++ leftover ibuf)
        eof := update sys.eof s true } with hsys
    refine h.put sys' ?_ ?_ hsound h.link (fun _ => hshut) ?_ hcloses rfl
    · simpa [hsys] using hdir
    · simpa [hsys] using (hrecv s).congr_receiver hsame
    · simp [hsys]
  | deliver s =>
    rcases hlink : sys.link (!s) with _ | ⟨pkt, rest⟩ <;> rw [hlink] at hstep
    · cases hstep
    have hpkt : Proper key pkt := h.link (!s) pkt (hlink ▸ mem_cons_self)
    obtain ⟨client', harrive, hsound, hhandles⟩ := arrive_handles (h.sound s) hpkt
    simp only [harrive] at hstep
    cases hstep
    have hdir := hsend s
    have hdir' := hrecv s
    rw [hlink, countType_cons] at hdir hdir'
    set sys' : Connection := { sys with link := update sys.link (!s) rest } with hsys
    have hself : sys'.link s = sys.link s := update_of_ne (Bool.not_ne_self s).symm ..
    have hnot : sys'.link (!s) = rest := update_self ..
    refine h.put sys' ?_ ?_ hsound ?_ ?_ rfl ((h.closes s).arrive (h.sound s) harrive) rfl
    · rw [hself, hnot]
      exact hdir.returns.sender hhandles
    · rw [hself, hnot]
      exact hdir'.arrives.receiver hhandles
    · intro t p hp
      by_cases ht : t = !s
      · subst ht
        rw [hnot] at hp
        exact h.link (!s) p (hlink ▸ mem_cons_of_mem _ hp)
      · exact h.link t p (by simpa [hsys, ht] using hp)
    · intro he
      rw [c2pShutting_arrive harrive]
      exact h.eof s he
  | written s ok =>
    split_ifs at hstep with hguard
    cases hstep
    have hcounts := counts_onSentP2cData (sys.client s) ok
    refine h.put sys ?_ ?_ ((h.sound s).onSentP2cData ok hguard.1) h.link
      (fun he => c2pShutting_onSentP2cData ok (h.eof s he)) rfl
      (closes_onSentP2cData (h.sound s) ok hguard.1) rfl
    · rw [hcounts]
      exact (hsend s).sendAck_sender _ _
    · rw [hcounts]
      exact (hrecv s).written
  | sent s =>
    rcases hunsent : (sys.client s).unsent with _ | ⟨type, unsent⟩ <;> rw [hunsent] at hstep
    · cases hstep
    simp only at hstep
    split_ifs at hstep with hclosing htype
    · cases hstep
      subst htype
      exact h.move_of_counts (counts_onSentC2pBye _) ((h.sound s).onSentC2pBye hunsent)
        (c2pShutting_maybeClose _) (closes_maybeClose _)
    · cases hstep
      exact h.move_of_counts (counts_onSentC2pResume _)
        ((h.sound s).onSentC2pResume hunsent htype) (c2pShutting_maybeClose _)
        (closes_maybeClose _)
  | shutdownDone s =>
    split_ifs at hstep with hguard
    cases hstep
    have hsound : Sound key { sys.client s with p2cShutted := true } :=
      { h.sound s with shutted := fun _ => ⟨hguard.1, hguard.2.2.1⟩ }
    exact h.move_of_counts (counts_onShutdownP2c _) hsound.maybeClose (c2pShutting_maybeClose _)
      (closes_maybeClose _)

variable {sys : Connection}

/-- **Every state** of a connection satisfies the invariant. -/
theorem run_inv {es : List ConnectionEvent}
    (h : run (step gpMaxPacketSize) (init key) es = some sys) : sys.Inv gpMaxPacketSize key :=
  run_invariant (fun _ _ _ hinv hstep => step_inv hinv hstep) (inv_init _ _) h

/-! ### Closing -/

/-- A client that has handled a BYE and is not paused. -/
structure Leaving (client : ICProxyClient) : Prop where
  placeholder : client.placeholder = false
  p2cShutting : client.p2cShutting = true
  paused : client.paused = false

/-- What is to be done before the client can close. -/
def remainingWork (client : ICProxyClient) : ℕ :=
  2 * (client.pipe.length - client.pipeDone) + client.unsent.length +
    2 * (!client.c2pShutting).toNat + (!client.p2cShutted).toNat

section leaving

variable {client : ICProxyClient}

theorem Leaving.maybeClose (h : Leaving client) : Leaving client.maybeClose := by
  unfold ICProxyClient.maybeClose
  split <;> exact { h with }

theorem remainingWork_maybeClose (client : ICProxyClient) :
    remainingWork client.maybeClose = remainingWork client := by
  unfold maybeClose
  split <;> rfl

theorem Leaving.maybeSendAckMessage (h : Leaving client) : Leaving client.maybeSendAckMessage ∧
      remainingWork client.maybeSendAckMessage ≤ remainingWork client + 1 := by
  unfold ICProxyClient.maybeSendAckMessage
  split
  · refine ⟨{ h with }, ?_⟩
    simp only [remainingWork, routeMessage, route, length_append, length_singleton]
    omega
  · exact ⟨h, le_succ _⟩

theorem Leaving.onSentP2cData (h : Leaving client) (hdone : client.pipeDone < client.pipe.length) :
    Leaving (client.onSentP2cData true) ∧
      remainingWork (client.onSentP2cData true) < remainingWork client := by
  have h' : Leaving { client with
      sending := client.sending - 1
      unackRecvPkt := client.unackRecvPkt + 1
      pipeDone := client.pipeDone + 1 } := { h with }
  obtain ⟨hleaving, hwork⟩ := h'.maybeSendAckMessage
  refine ⟨hleaving, lt_of_le_of_lt hwork ?_⟩
  simp only [remainingWork]
  omega

theorem onC2pEof_nil (hreg : client.registered = true) (hshut : client.c2pShutting = false) :
    ∃ routed, client.onC2pEof gpMaxPacketSize [] = .ok (routeMessage { client with
      routed := routed, obuf := [], reading := false, c2pShutting := true } .bye) := by
  unfold onC2pEof flushIbuf obufPush
  simp only [length_nil, gt_iff_lt, lt_irrefl, if_false, true_or, if_true, bind, Except.bind,
    add_eq_left]
  rw [if_neg (by omega)]
  split_ifs with hempty
  · exact ⟨client.routed, by simp [shutdownC2p, hreg, hshut]⟩
  · exact ⟨_, by simp [shutdownC2p, route, hreg, hshut]; rfl⟩

variable (gpMaxPacketSize) in
theorem Leaving.onC2pEof (h : Leaving client) (hreg : client.registered = true)
    (hshut : client.c2pShutting = false) :
    ∃ client', client.onC2pEof gpMaxPacketSize [] = .ok client' ∧ Leaving client' ∧
      remainingWork client' < remainingWork client := by
  obtain ⟨_, heof⟩ := @onC2pEof_nil gpMaxPacketSize client hreg hshut
  refine ⟨_, heof, { h with }, ?_⟩
  simp only [remainingWork, routeMessage, route, length_append, length_singleton, hshut,
    Bool.not_true, Bool.not_false, Bool.toNat_true, Bool.toNat_false]
  omega

end leaving

/-- **A client on its way out** can do something for it. -/
theorem exists_step_leaving (h : sys.Inv gpMaxPacketSize key) {s : Bool}
    (hleaving : Leaving (sys.client s)) (hopen : (sys.client s).closing = false) :
    ∃ e sys', sys.step gpMaxPacketSize e = some sys' ∧ Leaving (sys'.client s) ∧
      remainingWork (sys'.client s) < remainingWork (sys.client s) := by
  have hsound := h.sound s
  have hput : ∀ {client} (sys₀ : Connection) (e),
      sys.step gpMaxPacketSize e = some (sys₀.put s client) → Leaving client →
      remainingWork client < remainingWork (sys.client s) →
      ∃ e sys', sys.step gpMaxPacketSize e = some sys' ∧ Leaving (sys'.client s) ∧
        remainingWork (sys'.client s) < remainingWork (sys.client s) := by
    intro client sys₀ e hstep hclient hwork
    refine ⟨e, _, hstep, ?_⟩
    rw [put_client_self]
    exact ⟨{ hclient with }, hwork⟩
  by_cases hdone : (sys.client s).pipeDone < (sys.client s).pipe.length
  · -- a write is done
    obtain ⟨hleaving', hwork⟩ := hleaving.onSentP2cData hdone
    exact hput sys (.written s true) (if_pos ⟨hdone, by simp [hopen]⟩) hleaving' hwork
  have hdone : (sys.client s).pipeDone = (sys.client s).pipe.length :=
    le_antisymm hsound.pipeDone_le (not_lt.1 hdone)
  by_cases hshut : (sys.client s).c2pShutting = true
  swap
  · -- the end of the stream is read
    have hreading : (sys.client s).reading = true := by
      rcases (h.direction s).reading hleaving.placeholder with (hreading | hpaused) | heof
      · exact hreading
      · exact absurd hpaused (by simp [counts, hleaving.paused])
      · exact absurd (h.eof s heof) hshut
    obtain ⟨client, heof, hleaving', hwork⟩ := hleaving.onC2pEof gpMaxPacketSize
      (hsound.registered hleaving.placeholder) (Bool.eq_false_iff.2 hshut)
    refine hput { sys with
      given := update sys.given s (sys.given s ++ leftover [])
      eof := update sys.eof s true } (.readEof s []) ?_ hleaving' hwork
    simp only [step]
    rw [if_pos ⟨hreading, by simp [hleaving.placeholder], by simp [hopen], zero_le _,
      by simp⟩, heof]
    rfl
  rcases hunsent : (sys.client s).unsent with _ | ⟨type, unsent⟩
  swap
  · -- a message is sent
    have hleaving' : ∀ c2pShutted, Leaving { sys.client s with
        unsent := unsent, sending := (sys.client s).sending - 1, c2pShutted := c2pShutted } :=
      fun _ => { hleaving with }
    have hwork : ∀ c2pShutted, remainingWork (maybeClose { sys.client s with
        unsent := unsent, sending := (sys.client s).sending - 1, c2pShutted := c2pShutted }) <
          remainingWork (sys.client s) := by
      intro c2pShutted
      rw [remainingWork_maybeClose]
      simp only [remainingWork, hunsent, length_cons]
      omega
    by_cases htype : type = .bye
    · refine hput sys (.sent s) ?_ (hleaving' true).maybeClose (hwork true)
      simp only [step, hunsent, hopen, Bool.false_eq_true, if_false, htype, if_true]
      rfl
    · refine hput sys (.sent s) ?_ (hleaving' _).maybeClose (hwork (sys.client s).c2pShutted)
      simp only [step, hunsent, hopen, Bool.false_eq_true, if_false, htype]
      rfl
  by_cases hshutted : (sys.client s).p2cShutted = true
  swap
  · -- the pipe is shut down
    have hleaving' : Leaving { sys.client s with p2cShutted := true } := { hleaving with }
    refine hput sys (.shutdownDone s)
      (if_pos ⟨hleaving.p2cShutting, hshutted, hdone, by simp [hopen]⟩) hleaving'.maybeClose
      (lt_of_eq_of_lt (remainingWork_maybeClose _) ?_)
    simp [remainingWork, hshutted]
  -- nothing is left to do, so the client is closing
  have hsending : (sys.client s).sending = 0 := by
    have hcount := hsound.sending
    rw [hunsent, hdone] at hcount
    simpa using hcount
  have hc2p : (sys.client s).c2pShutted = true := by
    rcases hsound.bye hshut with hc2p | hbye
    · exact hc2p
    · rw [hunsent] at hbye
      cases hbye
  have hclosing := h.closes s hsending hc2p hshutted
  rw [hopen] at hclosing
  cases hclosing

/-- **A client that has handled a BYE and is not paused can close.** -/
theorem exists_closing (h : sys.Inv gpMaxPacketSize key) {s : Bool}
    (hleaving : Leaving (sys.client s)) :
    ∃ es sys', run (step gpMaxPacketSize) sys es = some sys' ∧ (sys'.client s).closing = true := by
  induction hwork : remainingWork (sys.client s) using Nat.strong_induction_on generalizing sys with
  | _ n ih =>
    cases hclosing : (sys.client s).closing
    · obtain ⟨e, sys₁, hstep, hleaving₁, hless⟩ := exists_step_leaving h hleaving hclosing
      obtain ⟨es, sys', hrun, hclosed⟩ := ih _ (hwork ▸ hless) (step_inv h hstep) hleaving₁ rfl
      exact ⟨e :: es, sys', run_cons.2 ⟨sys₁, hstep, hrun⟩, hclosed⟩
    · exact ⟨[], sys, rfl, hclosing⟩

/-! ### The main result -/

def sampleKey : ICProxyKey where
  localContentId := 0
  localDbid := 2
  localPid := 100
  remoteContentId := -1
  remoteDbid := 1
  remotePid := 200
  sessionId := 7
  commandId := 1
  sendSliceIndex := 1
  recvSliceIndex := 0

/-- The backend gives 22 packets that fit into the buffer together, and larger ones until its
client is paused; then all packets are written, and all ACKs handled. -/
def stalledRun : List ConnectionEvent :=
  [.start false, .start true,
    .read false (replicate 21 (replicate 5 0) ++ [replicate 200 0])] ++
  replicate 77 (.read false [replicate 257 0]) ++
  [.read false [replicate 257 0, replicate 257 0]] ++
  replicate 79 (.deliver true) ++ replicate 79 (.written true true) ++
  replicate 7 (.deliver false)

theorem stalledRun_stalls : ∃ sys, run (step 512) (init sampleKey) stalledRun = some sys ∧
      mergedPackets 512 (sys.given false) = 21 ∧ sys.Settled false ∧
        (sys.client false).paused = true :=
  exists_of_any (by decide +kernel)

theorem Connection.Inv.not_paused (h : sys.Inv gpMaxPacketSize key) {s : Bool}
    (hsettled : sys.Settled s) (hmerged : mergedPackets gpMaxPacketSize (sys.given s) ≤ 20) :
    (sys.client s).paused = false := by
  obtain ⟨hlink, hpkts, hdone, hback, hacks⟩ := hsettled
  have hzero : ∀ type t, countType type (sys.client t).routed = 0 := by
    intro type t
    rw [h.routed t, countType_nil]
  have hle := (h.direction s).unackSendPkt_le (countType_eq_zero.2 hlink) (hzero _ _)
    (countType_eq_zero.2 hpkts) hdone (countType_eq_zero.2 hback) (hzero _ _)
    (countType_eq_zero.2 hacks)
  refine Bool.eq_false_iff.2 fun hpaused => ?_
  have hge := (h.direction s).paused hpaused
  omega

/-- **Flow control never stalls a connection exactly as long as at most twenty packets of a
backend are merged.**  In such a run, whatever the packets, reads, deliveries, writes and
messages, a client all of whose packets are written and all of whose ACKs are handled is not
paused; and if it has handled a BYE it reads to the end of its backend's stream and can close. -/
theorem never_stalled_iff (m : ℕ) :
    (∀ (gpMaxPacketSize : ℕ) (key : ICProxyKey) (es : List ConnectionEvent) (sys : Connection)
      (s : Bool), gpMaxPacketSize + sizeofICProxyPkt < 2 ^ 16 →
      Machine.run (Connection.step gpMaxPacketSize) (Connection.init key) es = some sys →
      mergedPackets gpMaxPacketSize (sys.given s) ≤ m → sys.Settled s →
      (sys.client s).paused = false ∧
        ((sys.client s).placeholder = false → (sys.client s).p2cShutting = true →
          ∃ es' sys', Machine.run (Connection.step gpMaxPacketSize) sys es' = some sys' ∧
            (sys'.client s).closing = true)) ↔ m ≤ 20 := by
  constructor
  · intro hall
    by_contra hm
    obtain ⟨sys, hrun, hmerged, hsettled, hpaused⟩ := stalledRun_stalls
    have hrun' := (hall 512 sampleKey stalledRun sys false (by decide) hrun (by omega) hsettled).1
    rw [hpaused] at hrun'
    cases hrun'
  · intro hm gpMaxPacketSize key es sys s _ hrun hmerged hsettled
    have hinv := run_inv hrun
    have hpaused := hinv.not_paused hsettled (hmerged.trans hm)
    exact ⟨hpaused, fun hplace hshut => exists_closing hinv ⟨hplace, hshut, hpaused⟩⟩

/-- A backend gives a hundred packets of five bytes.  All of them stay in the buffer, nothing is
routed, and the client is paused. -/
theorem small_packets_stall : ∃ sys,
    Machine.run (Connection.step 8192) (Connection.init sampleKey) [.start false, .start true,
      .read false (List.replicate 100 (List.replicate 5 0))] = some sys ∧
    sys.Settled false ∧ (sys.client false).paused = true := by
  exact exists_of_any (by decide +kernel)

end Cloudberry.Proxy
