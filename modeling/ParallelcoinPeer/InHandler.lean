import ParallelcoinPeer.Negotiation

/-! # The input handler's message dispatch, and the flag lock over whole runs

    `inHandleMessage` is one turn of `inHandler`'s loop after a successful read:
    the intrinsic handling of `version`, `verack`, `ping`, `pong` and
    `sendheaders`, with what it hands to `QueueMessage`. The listeners' own effects
    are outside the peer and are not modelled.

    `PeerOp` collects every operation that reads or writes the flag-lock or
    stats-lock state: the two halves of negotiation, a received message, the
    output handler's ping bookkeeping and write, the stats setters and
    `Disconnect`. `runOps` plays any sequence of them from `newPeerBase`.

    The headline, `protocolVersion_settles_once`: along every run the negotiated
    version stays within the configured one, is `minUint32` of the configured and
    the advertised version whenever the remote version is known, and changes only on
    the step that makes it known. It rests on one invariant, `VersionInv`, and one step
    lemma, `applyOp_version`.

    `ping_round_trip` follows the stats lock the same way: a recorded ping is timed
    by the first pong carrying its nonce, and by no later one. -/

namespace PeerInHandler

open PeerWire PeerMru PeerState PeerNegotiate

/-- `PushRejectMsg`: the reject it hands to `QueueMessage`, if any. Nothing goes to
    a peer known to speak a version older than `RejectVersion`; `tx` and `block`
    rejections carry the hash, the zero hash when none is given. -/
def pushRejectMsg (f : Flags) (command : String) (code : RejectCode) (reason : String)
    (hash : Option Hash) : Option MsgReject :=
  if f.versionKnown && f.protocolVersion < rejectVersion then none
  else
    let msg := newMsgReject command code reason
    if command = Cmd.tx.str ∨ command = Cmd.block.str then some { msg with hash := hash.getD 0 }
    else some msg

/-- `handlePingMsg`: a new enough peer gets a `pong` with the same nonce. -/
def handlePingMsg (f : Flags) (nonce : UInt64) : List Msg :=
  if f.protocolVersion > bip0031Version then [.pong nonce] else []

/-- `handlePongMsg`: a `pong` answering the pending ping records the round trip in
    microseconds and clears the pending nonce; `now` is in nanoseconds. -/
def handlePongMsg (f : Flags) (st : Stats) (nonce : UInt64) (now : Int) : Stats :=
  if f.protocolVersion > bip0031Version && st.lastPingNonce ≠ 0 && nonce = st.lastPingNonce then
    { st with lastPingMicros := Int.tdiv (now - st.lastPingTime) 1000, lastPingNonce := 0 }
  else st

/-- What one turn of the input loop did with a decoded message. -/
structure Handled where
  peer : Peer
  queued : List Msg
  exit : Bool

/-- The reason of the reject sent for a second `version`. -/
def duplicateVersionReason : String := "duplicate version message"

/-- The intrinsic handling of one decoded message in `inHandler`. -/
def inHandleMessage (p : Peer) (m : Msg) (now : Int) : Handled :=
  match m with
  | .version _ =>
    { peer := p, exit := true
      queued := (pushRejectMsg p.flags Cmd.version.str .duplicate duplicateVersionReason
        none).toList.map Msg.reject }
  | .verAck =>
    { peer := if p.flags.verAckReceived then p
        else { p with flags := { p.flags with verAckReceived := true } }
      queued := [], exit := false }
  | .ping nonce => { peer := p, queued := handlePingMsg p.flags nonce, exit := false }
  | .pong nonce =>
    { peer := { p with stats := handlePongMsg p.flags p.stats nonce now }
      queued := [], exit := false }
  | .sendHeaders =>
    { peer := { p with flags := { p.flags with sendHeadersPreferred := true } }
      queued := [], exit := false }
  | _ => { peer := p, queued := [], exit := false }

/-- `outHandler`'s bookkeeping before it writes a `ping` to a new enough peer. -/
def recordPing (p : Peer) (nonce : UInt64) (now : Int) : Peer :=
  if p.flags.protocolVersion > bip0031Version then
    { p with stats := { p.stats with lastPingNonce := nonce, lastPingTime := now } }
  else p

/-! ## Every operation on the locked state -/

/-- The operations that read or write the flag-lock and stats-lock state. -/
inductive PeerOp where
  | readRemoteVersion (r : ReadResult) (nowUnix : Int) (writeOk : Bool)
  | writeLocalVersion (nowUnix : Int) (nonce : UInt64) (writeOk : Bool)
  | receive (m : Msg) (now : Int)
  | sendPing (nonce : UInt64) (now : Int)
  | write (m : Msg) (ok : Bool)
  | updateLastBlockHeight (h : BitVec 32)
  | updateLastAnnouncedBlock (h : Option Hash)
  | disconnect

/-- One operation on the process-wide state and the peer. -/
def applyOp (s : Global × Peer) : PeerOp → Global × Peer
  | .readRemoteVersion r t w => let x := readRemoteVersionMsg s.1 s.2 r t w; (x.1, x.2.1)
  | .writeLocalVersion t n w => let x := writeLocalVersionMsg s.1 s.2 t n w; (x.1, x.2.1)
  | .receive m t => (s.1, (inHandleMessage s.2 m t).peer)
  | .sendPing n t => (s.1, recordPing s.2 n t)
  | .write m ok => (s.1, (writeMessage s.2 m ok).1)
  | .updateLastBlockHeight h => (s.1, { s.2 with stats := { s.2.stats with lastBlock := h } })
  | .updateLastAnnouncedBlock h =>
    (s.1, { s.2 with stats := { s.2.stats with lastAnnouncedBlock := h } })
  | .disconnect => (s.1, { s.2 with link := disconnect s.2.link })

/-- A whole run. -/
def runOps (s : Global × Peer) (ops : List PeerOp) : Global × Peer := ops.foldl applyOp s

/-! ## The negotiated version -/

/-- The version fields a step may not touch once the remote version is known. -/
def VersionKept (p p' : Peer) : Prop :=
  p'.flags.versionKnown = p.flags.versionKnown ∧
    p'.flags.protocolVersion = p.flags.protocolVersion ∧
    p'.flags.advertisedProtoVer = p.flags.advertisedProtoVer

/-- The one way a step may change them: from unknown to known, negotiating down. -/
def VersionSettled (p p' : Peer) : Prop :=
  p.flags.versionKnown = false ∧ p'.flags.versionKnown = true ∧
    p'.flags.protocolVersion = minUint32 p.flags.protocolVersion p'.flags.advertisedProtoVer

theorem VersionKept.of_flags {p p' : Peer} (h : p'.flags = p.flags) : VersionKept p p' := by
  simp [VersionKept, h]

/-- Reading the remote version keeps the configuration, and keeps or settles the
    version fields. -/
theorem readRemoteVersionMsg_version (g : Global) (p : Peer) (r : ReadResult) (t : Int)
    (w : Bool) : (readRemoteVersionMsg g p r t w).2.1.cfg = p.cfg ∧
      (VersionKept p (readRemoteVersionMsg g p r t w).2.1 ∨
        VersionSettled p (readRemoteVersionMsg g p r t w).2.1) := by
  unfold readRemoteVersionMsg
  split_ifs with hk
  · exact ⟨rfl, .inl (.of_flags rfl)⟩
  · split
    · exact ⟨rfl, .inl (.of_flags rfl)⟩
    · split_ifs
      · exact ⟨rfl, .inl (.of_flags rfl)⟩
      · split <;> refine ⟨by simp [recordRemoteVersion], .inr ?_⟩ <;>
          simp_all [VersionSettled, recordRemoteVersion]
    · exact ⟨by simp, .inl (.of_flags (by simp))⟩

/-- Writing our version touches neither the configuration nor the flags. -/
theorem writeLocalVersionMsg_flags (g : Global) (p : Peer) (t : Int) (n : UInt64)
    (w : Bool) : (writeLocalVersionMsg g p t n w).2.1.cfg = p.cfg ∧
      (writeLocalVersionMsg g p t n w).2.1.flags = p.flags := by
  unfold writeLocalVersionMsg
  dsimp only
  split <;> simp

/-- A received message touches neither the configuration nor the version fields. -/
theorem inHandleMessage_version (p : Peer) (m : Msg) (t : Int) :
    (inHandleMessage p m t).peer.cfg = p.cfg ∧ VersionKept p (inHandleMessage p m t).peer := by
  unfold inHandleMessage
  split <;> (try split_ifs) <;> simp [VersionKept]

/-- **STEP**: every operation keeps the configuration, and keeps or settles the
    version fields. -/
theorem applyOp_version (s : Global × Peer) (op : PeerOp) :
    (applyOp s op).2.cfg = s.2.cfg ∧
      (VersionKept s.2 (applyOp s op).2 ∨ VersionSettled s.2 (applyOp s op).2) := by
  cases op with
  | readRemoteVersion r t w => exact readRemoteVersionMsg_version s.1 s.2 r t w
  | writeLocalVersion t n w =>
      obtain ⟨hc, hf⟩ := writeLocalVersionMsg_flags s.1 s.2 t n w
      exact ⟨hc, .inl (.of_flags hf)⟩
  | receive m t => exact (inHandleMessage_version s.2 m t).imp_right .inl
  | sendPing n t =>
      refine ⟨?_, .inl (.of_flags ?_)⟩ <;> simp only [applyOp, recordPing] <;> split_ifs <;> rfl
  | write m ok => exact ⟨by simp [applyOp], .inl (.of_flags (by simp [applyOp]))⟩
  | updateLastBlockHeight h => exact ⟨rfl, .inl (.of_flags rfl)⟩
  | updateLastAnnouncedBlock h => exact ⟨rfl, .inl (.of_flags rfl)⟩
  | disconnect => exact ⟨rfl, .inl (.of_flags rfl)⟩

/-- The invariant: the configured version until the remote one is known, their
    minimum after. -/
def VersionInv (p : Peer) : Prop :=
  (p.flags.versionKnown = false → p.flags.protocolVersion = p.cfg.protocolVersion) ∧
    (p.flags.versionKnown = true →
      p.flags.protocolVersion = minUint32 p.cfg.protocolVersion p.flags.advertisedProtoVer)

theorem versionInv_newPeerBase (cfg : Config) (inbound : Bool) :
    VersionInv (newPeerBase cfg inbound) := by
  simp [VersionInv, newPeerBase]

theorem VersionInv.le {p : Peer} (h : VersionInv p) :
    p.flags.protocolVersion ≤ p.cfg.protocolVersion := by
  cases hk : p.flags.versionKnown
  · exact (h.1 hk).symm ▸ UInt32.le_refl _
  · exact (h.2 hk).symm ▸ minUint32_le_left _ _

theorem applyOp_versionInv {s : Global × Peer} (h : VersionInv s.2) (op : PeerOp) :
    VersionInv (applyOp s op).2 := by
  obtain ⟨hc, ⟨hk, hp, ha⟩ | ⟨hk0, hk1, hp⟩⟩ := applyOp_version s op
  · exact ⟨fun h' => by rw [hp, hc]; exact h.1 (hk ▸ h'),
      fun h' => by rw [hp, hc, ha]; exact h.2 (hk ▸ h')⟩
  · exact ⟨fun h' => absurd (hk1 ▸ h') (by decide),
      fun _ => by rw [hp, hc, h.1 hk0]⟩

/-- **RUN**: the invariant holds after every run from `newPeerBase`, and the
    configuration is the one `newPeerBase` defaulted. -/
theorem runOps_versionInv (g : Global) (cfg : Config) (inbound : Bool) (ops : List PeerOp) :
    VersionInv (runOps (g, newPeerBase cfg inbound) ops).2 ∧
      (runOps (g, newPeerBase cfg inbound) ops).2.cfg = (newPeerBase cfg inbound).cfg := by
  unfold runOps
  induction ops using List.reverseRecOn with
  | nil => exact ⟨versionInv_newPeerBase cfg inbound, rfl⟩
  | append_singleton ops op ih =>
      rw [List.foldl_append, List.foldl_cons, List.foldl_nil]
      exact ⟨applyOp_versionInv ih.1 op, (applyOp_version _ op).1.trans ih.2⟩

/-- **THE NEGOTIATED VERSION SETTLES ONCE.** Along every run from `newPeerBase`:
    the negotiated version never exceeds the configured one (a zero configuration
    defaulting to `MaxProtocolVersion`); it is the configured version while the
    remote version is unknown, and `minUint32` of the configured and the advertised
    version once it is known; a step that finds the remote version known leaves it
    known and the negotiated version unchanged; and a step that changes the
    negotiated version is the one that makes the remote version known, and sets it
    to `minUint32` of the configured and the advertised version. -/
theorem protocolVersion_settles_once (g : Global) (cfg : Config) (inbound : Bool)
    (ops : List PeerOp) (op : PeerOp) :
    let s := runOps (g, newPeerBase cfg inbound) ops
    let s' := applyOp s op
    s.2.flags.protocolVersion ≤ s.2.cfg.protocolVersion ∧
      s.2.cfg.protocolVersion =
        (if cfg.protocolVersion = 0 then maxProtocolVersion else cfg.protocolVersion) ∧
      (s.2.flags.versionKnown = false → s.2.flags.protocolVersion = s.2.cfg.protocolVersion) ∧
      (s.2.flags.versionKnown = true →
        s.2.flags.protocolVersion = minUint32 s.2.cfg.protocolVersion s.2.flags.advertisedProtoVer) ∧
      (s.2.flags.versionKnown = true →
        s'.2.flags.versionKnown = true ∧ s'.2.flags.protocolVersion = s.2.flags.protocolVersion) ∧
      (s'.2.flags.protocolVersion ≠ s.2.flags.protocolVersion →
        s.2.flags.versionKnown = false ∧ s'.2.flags.versionKnown = true ∧
          s'.2.flags.protocolVersion =
            minUint32 s'.2.cfg.protocolVersion s'.2.flags.advertisedProtoVer) := by
  intro s s'
  obtain ⟨hinv, hcfg⟩ := runOps_versionInv g cfg inbound ops
  obtain ⟨hc, ⟨hk, hp, -⟩ | ⟨hk0, hk1, hp⟩⟩ := applyOp_version s op
  · exact ⟨hinv.le, by rw [hcfg]; rfl, hinv.1, hinv.2, fun h => ⟨hk.trans h, hp⟩,
      fun h => absurd hp h⟩
  · refine ⟨hinv.le, by rw [hcfg]; rfl, hinv.1, hinv.2, fun h => absurd (hk0 ▸ h) (by decide),
      fun _ => ?_⟩
    exact ⟨hk0, hk1, by rw [hp, hc, hinv.1 hk0]⟩

/-! ## The ping statistics over whole runs

    `outHandler` records the nonce and time of a ping it is about to write, and
    `handlePongMsg` times the pong that carries the pending nonce and clears it. -/

/-- The ping fields of the stats: the pending nonce, when that ping was recorded, and
    the last round trip. -/
def pingFields (st : Stats) : UInt64 × Int × Int :=
  (st.lastPingNonce, st.lastPingTime, st.lastPingMicros)

/-- Reading the remote version leaves the ping fields. -/
theorem readRemoteVersionMsg_pingFields (g : Global) (p : Peer) (r : ReadResult) (t : Int)
    (w : Bool) : pingFields (readRemoteVersionMsg g p r t w).2.1.stats = pingFields p.stats := by
  unfold readRemoteVersionMsg
  split_ifs
  · rfl
  · split
    · rfl
    · split_ifs
      · rfl
      · split <;> simp [recordRemoteVersion, pingFields]
    · simp

/-- Writing our version leaves the stats. -/
theorem writeLocalVersionMsg_stats (g : Global) (p : Peer) (t : Int) (n : UInt64) (w : Bool) :
    (writeLocalVersionMsg g p t n w).2.1.stats = p.stats := by
  unfold writeLocalVersionMsg
  dsimp only
  split <;> simp

/-- A pong that does not answer the pending ping, or comes with none pending, changes
    nothing. -/
theorem handlePongMsg_of_ne {f : Flags} {st : Stats} {k : UInt64} (now : Int)
    (h : k ≠ st.lastPingNonce ∨ st.lastPingNonce = 0) : handlePongMsg f st k now = st := by
  unfold handlePongMsg
  rw [if_neg]
  rcases h with h | h <;> simp [h]

/-- **STEP.** An operation that records no ping, and receives no pong answering the
    pending one, leaves the ping fields alone. -/
theorem applyOp_pingFields {s : Global × Peer} {op : PeerOp}
    (hs : ∀ m t, op ≠ .sendPing m t)
    (hp : ∀ k t, op = .receive (.pong k) t →
      k ≠ s.2.stats.lastPingNonce ∨ s.2.stats.lastPingNonce = 0) :
    pingFields (applyOp s op).2.stats = pingFields s.2.stats := by
  cases op with
  | readRemoteVersion r t w => exact readRemoteVersionMsg_pingFields _ _ r t w
  | writeLocalVersion t n w => simp [applyOp, writeLocalVersionMsg_stats]
  | receive m t =>
      cases m with
      | pong k => simp [applyOp, inHandleMessage, handlePongMsg_of_ne t (hp k t rfl)]
      | verAck =>
          simp only [applyOp, inHandleMessage]
          split_ifs <;> rfl
      | _ => rfl
  | sendPing m t => exact absurd rfl (hs m t)
  | write m ok => simp [applyOp]
  | updateLastBlockHeight h => rfl
  | updateLastAnnouncedBlock h => rfl
  | disconnect => rfl

/-- **RUN.** Along operations that record no ping and receive no pong answering the
    pending one, the ping fields stay, and a known remote version stays as it is. -/
theorem runOps_pingFields {s : Global × Peer} {ops : List PeerOp}
    (hk : s.2.flags.versionKnown = true)
    (hops : ∀ op ∈ ops, (∀ m t, op ≠ .sendPing m t) ∧ ∀ k t, op = .receive (.pong k) t →
      k ≠ s.2.stats.lastPingNonce ∨ s.2.stats.lastPingNonce = 0) :
    pingFields (runOps s ops).2.stats = pingFields s.2.stats ∧
      (runOps s ops).2.flags.versionKnown = true ∧
      (runOps s ops).2.flags.protocolVersion = s.2.flags.protocolVersion := by
  induction ops generalizing s with
  | nil => exact ⟨rfl, hk, rfl⟩
  | cons op ops ih =>
      obtain ⟨hs, hp⟩ := hops op (List.mem_cons_self _ _)
      have h1 := applyOp_pingFields hs hp
      obtain ⟨hk1, hpv1⟩ : (applyOp s op).2.flags.versionKnown = true ∧
          (applyOp s op).2.flags.protocolVersion = s.2.flags.protocolVersion := by
        rcases (applyOp_version s op).2 with ⟨hk', hp', -⟩ | ⟨hk', -, -⟩
        · exact ⟨hk'.trans hk, hp'⟩
        · rw [hk] at hk'; cases hk'
      have hn : (applyOp s op).2.stats.lastPingNonce = s.2.stats.lastPingNonce :=
        congrArg Prod.fst h1
      obtain ⟨h2, h3, h4⟩ := ih hk1 fun op' hop' => by
        rw [hn]; exact hops op' (List.mem_cons_of_mem _ hop')
      exact ⟨h2.trans h1, h3, h4.trans hpv1⟩

/-- A run in two parts. -/
theorem runOps_append (s : Global × Peer) (xs ys : List PeerOp) :
    runOps s (xs ++ ys) = runOps (runOps s xs) ys := List.foldl_append _ _ _ _

/-- **A PING IS TIMED BY ITS OWN PONG, ONCE.** On a peer that knows a remote version
    newer than BIP 31: once `outHandler` records a ping with a non-zero nonce, a pong
    carrying that nonce, received after any operations that record no other ping and
    receive no other pong carrying it, sets the round trip to the time between the
    two in microseconds, truncated, and clears the pending nonce; after it no pong,
    whatever its nonce, changes the round trip until the next ping. -/
theorem ping_round_trip (g : Global) (p : Peer) (hk : p.flags.versionKnown = true)
    (hpv : bip0031Version < p.flags.protocolVersion) (n : UInt64) (hn : n ≠ 0) (t0 t : Int)
    (mid post : List PeerOp)
    (hmid : ∀ op ∈ mid, (∀ m t', op ≠ .sendPing m t') ∧ ∀ t', op ≠ .receive (.pong n) t')
    (hpost : ∀ op ∈ post, ∀ m t', op ≠ .sendPing m t') :
    let s := runOps (g, p) (.sendPing n t0 :: mid ++ .receive (.pong n) t :: post)
    s.2.stats.lastPingMicros = Int.tdiv (t - t0) 1000 ∧ s.2.stats.lastPingNonce = 0 := by
  intro s
  -- the ping is recorded
  set s1 := applyOp (g, p) (.sendPing n t0) with hs1
  have h1 : s1.2.flags = p.flags ∧ s1.2.stats.lastPingNonce = n ∧ s1.2.stats.lastPingTime = t0 := by
    simp [hs1, applyOp, recordPing, hpv]
  -- nothing in between touches it
  obtain ⟨hf2, hk2, hpv2⟩ := @runOps_pingFields s1 mid (by rw [h1.1]; exact hk)
    fun op hop => ⟨(hmid op hop).1, fun k t' he => .inl fun hkn =>
      (hmid op hop).2 t' (by rw [he, hkn, h1.2.1])⟩
  set s2 := runOps s1 mid
  have hn2 : s2.2.stats.lastPingNonce = n := (congrArg Prod.fst hf2).trans h1.2.1
  have ht2 : s2.2.stats.lastPingTime = t0 := (congrArg (fun x => x.2.1) hf2).trans h1.2.2
  -- the pong answers it
  set s3 := applyOp s2 (.receive (.pong n) t)
  have h3 : s3.2.stats.lastPingMicros = Int.tdiv (t - t0) 1000 ∧
      s3.2.stats.lastPingNonce = 0 ∧ s3.2.flags.versionKnown = true := by
    simp [s3, applyOp, inHandleMessage, handlePongMsg, hn2, ht2, hpv2, h1.1, hpv, hn, hk2]
  -- and nothing after it changes the round trip
  obtain ⟨hf4, -, -⟩ := @runOps_pingFields s3 post h3.2.2
    fun op hop => ⟨hpost op hop, fun _ _ _ => .inr h3.2.1⟩
  have hs : s = runOps s3 post := runOps_append s1 mid _
  rw [hs]
  exact ⟨(congrArg (fun x => x.2.2) hf4).trans h3.1, (congrArg Prod.fst hf4).trans h3.2.1⟩

/-- A stray pong before the answer and a duplicate after it. -/
theorem ping_round_trip_answered :
    let p : Peer := { newPeerBase plainConfig false with
      flags := { (newPeerBase plainConfig false).flags with versionKnown := true } }
    (p.flags.versionKnown = true ∧ bip0031Version < p.flags.protocolVersion ∧ (1 : UInt64) ≠ 0 ∧
        (∀ op ∈ [PeerOp.receive (.pong 2) 10], (∀ m t', op ≠ .sendPing m t') ∧
          ∀ t', op ≠ .receive (.pong 1) t') ∧
        ∀ op ∈ [PeerOp.receive (.pong 1) 6000], ∀ m t', op ≠ .sendPing m t') ∧
      let s := runOps (freshGlobal, p)
        (.sendPing 1 0 :: [.receive (.pong 2) 10] ++ .receive (.pong 1) 5000 ::
          [.receive (.pong 1) 6000])
      s.2.stats.lastPingMicros = Int.tdiv (5000 - 0) 1000 ∧ s.2.stats.lastPingNonce = 0 :=
  have hmid : ∀ op ∈ [PeerOp.receive (.pong 2) 10], (∀ m t', op ≠ .sendPing m t') ∧
      ∀ t', op ≠ .receive (.pong 1) t' := by simp
  have hpost : ∀ op ∈ [PeerOp.receive (.pong 1) 6000], ∀ m t', op ≠ .sendPing m t' := by simp
  ⟨⟨rfl, by decide, by decide, hmid, hpost⟩,
    ping_round_trip freshGlobal _ rfl (by decide) 1 (by decide) 0 5000 _ _ hmid hpost⟩

end PeerInHandler
