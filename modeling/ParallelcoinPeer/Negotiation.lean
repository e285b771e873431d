import ParallelcoinPeer.Peer

/-! # Version negotiation and `start`

    `start` runs the negotiation in a goroutine and waits, with a 27 s timeout,
    for the first value the goroutine sends on `negotiateErr`. Only a nil value
    lets it launch the five handlers and queue `verack`.

    * `readRemoteVersionMsg` reads the first message and accepts it only as a
      version from a peer that is not ourselves, that `OnVersion` does not
      reject, and whose version is not obsolete; it writes a reject on the three
      refusals that have a message to refuse;
    * `negotiateInboundProtocol` reads first and then writes our version,
      `negotiateOutboundProtocol` the other way round;
    * `negotiateErrSends` is what the goroutine sends on `negotiateErr`. Its
      outbound branch assigns the negotiation's error to `start`'s own result `e`
      and tests `ee`, which is still nil, so it never forwards the error:
      `start_outbound_ignores_result` shows that an outbound peer whose negotiation
      fails is started all the same, while `start_inbound_of_error` shows the
      inbound branch refuses it.

    The remote and the connection are inputs: `NegotiationIo` says what the
    first read returns, when it happens, which nonce `rand.Int63` draws, and
    whether each write goes through. -/

namespace PeerNegotiate

open PeerWire PeerMru PeerState

/-- The errors a read can end in: end of stream before a message (`io.EOF`) or
    inside one (`io.ErrUnexpectedEOF`), a malformed message (`*wire.MessageError`),
    or a transport error (`*net.OpError`), temporary or not. -/
inductive ReadError where
  | eof
  | unexpectedEof
  | malformed (reason : String)
  | opError (temporary : Bool) (reason : String)
  deriving DecidableEq, Repr

/-- The error text. -/
def ReadError.text : ReadError → String
  | .eof => "EOF"
  | .unexpectedEof => "unexpected EOF"
  | .malformed r => r
  | .opError _ r => r

/-- What one `readMessage` call returns. -/
abbrev ReadResult := Except ReadError Msg

/-- `minUint32`. -/
def minUint32 (a b : UInt32) : UInt32 := if a < b then a else b

theorem minUint32_le_left (a b : UInt32) : minUint32 a b ≤ a := by
  unfold minUint32; split_ifs with h
  · exact UInt32.le_refl a
  · exact UInt32.not_lt.1 h

/-- The reject `readRemoteVersionMsg` writes for a first message that is not a
    version; the command is `version`, read off the nil `*MsgVersion`. -/
def notVersionReason : String := "a version message must precede all others"

/-- The reason of the obsolete-version reject. -/
def obsoleteReason : String := "protocol version must be 1 or greater"

/-- The error of a self-connection. -/
def selfConnReason : String := "disconnecting peer connected to self"

/-- The flag and stat updates `readRemoteVersionMsg` makes for a version from a
    peer that is not ourselves, with the fresh id drawn from `nodeCount`. -/
def recordRemoteVersion (g : Global) (p : Peer) (msg : MsgVersion) (nowUnix : Int) :
    Global × Peer :=
  let adv : UInt32 := ⟨msg.protocolVersion⟩
  let id := g.nodeCount + 1
  ({ g with nodeCount := id },
    { p with
      flags :=
        { p.flags with
          nonce := msg.nonce, advertisedProtoVer := adv
          protocolVersion := minUint32 p.flags.protocolVersion adv
          versionKnown := true, services := msg.services, id := id
          userAgent := msg.userAgent }
      stats :=
        { p.stats with
          lastBlock := msg.lastBlock, startingHeight := msg.lastBlock
          timeOffset := msg.timestamp - nowUnix } })

/-- The reject a recorded version still earns: the one `OnVersion` returns, else
    the obsolete one when the advertised version, read as `uint32`, is below
    `MinAcceptableProtocolVersion`. -/
def versionRejection (cfg : Config) (msg : MsgVersion) : Option MsgReject :=
  match cfg.onVersion.bind (fun onVersion => onVersion msg) with
  | some rej => some rej
  | none =>
    if (⟨msg.protocolVersion⟩ : UInt32) < minAcceptableProtocolVersion then
      some (newMsgReject Cmd.version.str .obsolete obsoleteReason)
    else none

/-- `readRemoteVersionMsg`: `nowUnix` is the local clock in unix seconds and
    `writeOk` the fate of the reject write, if one is made. -/
def readRemoteVersionMsg (g : Global) (p : Peer) (r : ReadResult) (nowUnix : Int)
    (writeOk : Bool) : Global × Peer × Except String (Option MsgVersion) :=
  if p.flags.versionKnown then (g, p, .ok none)
  else
    match r with
    | .error e => (g, p, .error e.text)
    | .ok (.version msg) =>
      if !g.allowSelfConns && g.sentNonces.contains msg.nonce then
        (g, p, .error selfConnReason)
      else
        let rec_ := recordRemoteVersion g p msg nowUnix
        match versionRejection p.cfg msg with
        | some rej => (rec_.1, (writeMessage rec_.2 (.reject rej) writeOk).1, .error rej.reason)
        | none => (rec_.1, rec_.2, .ok (some msg))
    | .ok _ =>
      (g, (writeMessage p (.reject (newMsgReject Cmd.version.str .malformed
        notVersionReason)) writeOk).1, .error notVersionReason)

/-- `localVersionMsg`: the block height comes from `NewestBlock` (0 without one, its
    error aborts), and the fresh nonce is registered in `SentNonces`. -/
def localVersionMsg (g : Global) (p : Peer) (nowUnix : Int) (nonce : UInt64) :
    Global × Except String MsgVersion :=
  let blockNum : Except String (BitVec 32) :=
    match p.cfg.newestBlock with
    | none => .ok 0
    | some (.error e) => .error e
    | some (.ok (_, h)) => .ok h
  match blockNum with
  | .error e => (g, .error e)
  | .ok h =>
    ({ g with sentNonces := g.sentNonces.add nonce },
      .ok { protocolVersion := p.cfg.protocolVersion.toBitVec, services := p.cfg.services
            timestamp := nowUnix, nonce := nonce, userAgent := p.cfg.userAgent
            lastBlock := h, disableRelayTx := p.cfg.disableRelayTx })

/-- `writeLocalVersionMsg`. -/
def writeLocalVersionMsg (g : Global) (p : Peer) (nowUnix : Int) (nonce : UInt64)
    (writeOk : Bool) : Global × Peer × Except String MsgVersion :=
  let local_ := localVersionMsg g p nowUnix nonce
  match local_.2 with
  | .error e => (local_.1, p, .error e)
  | .ok msg =>
    let w := writeMessage p (.version msg) writeOk
    (local_.1, w.1, match w.2 with
      | none => .ok msg
      | some e => .error e)

/-- The remote's part in a negotiation and the outcomes the environment decides. -/
structure NegotiationIo where
  remote : ReadResult
  nowUnix : Int
  nonce : UInt64
  rejectWriteOk : Bool
  versionWriteOk : Bool

/-- `negotiateInboundProtocol`: their version first, then ours. -/
def negotiateInboundProtocol (g : Global) (p : Peer) (io : NegotiationIo) :
    Global × Peer × Except String (Option MsgVersion) :=
  let rd := readRemoteVersionMsg g p io.remote io.nowUnix io.rejectWriteOk
  match rd.2.2 with
  | .error e => (rd.1, rd.2.1, .error e)
  | .ok _ =>
    let wr := writeLocalVersionMsg rd.1 rd.2.1 io.nowUnix io.nonce io.versionWriteOk
    (wr.1, wr.2.1, wr.2.2.map some)

/-- `negotiateOutboundProtocol`: our version first, then theirs. -/
def negotiateOutboundProtocol (g : Global) (p : Peer) (io : NegotiationIo) :
    Global × Peer × Except String (Option MsgVersion) :=
  let wr := writeLocalVersionMsg g p io.nowUnix io.nonce io.versionWriteOk
  match wr.2.2 with
  | .error e => (wr.1, wr.2.1, .error e)
  | .ok _ => readRemoteVersionMsg wr.1 wr.2.1 io.remote io.nowUnix io.rejectWriteOk

/-- The negotiation `start`'s goroutine runs for the peer's direction. -/
def negotiate (g : Global) (p : Peer) (io : NegotiationIo) :
    Global × Peer × Except String (Option MsgVersion) :=
  if p.inbound then negotiateInboundProtocol g p io else negotiateOutboundProtocol g p io

/-- The values `start`'s goroutine sends on `negotiateErr`, in order. The inbound
    branch sends its error `ee`, then nil; the outbound branch stores the error in
    `start`'s `e` and tests `ee`, so it sends nil only. -/
def negotiateErrSends {α : Type} (inbound : Bool) (r : Except String α) :
    List (Option String) :=
  if inbound then
    match r with
    | .error e => [some e, none]
    | .ok _ => [none]
  else [none]

/-- What `start` did: the state it leaves, the error it returns, whether it
    launched the five handlers, and the messages it handed to `QueueMessage`. -/
structure StartResult where
  global : Global
  peer : Peer
  err : Option String
  handlersStarted : Bool
  queued : List Msg

/-- `start`: `timedOut` says whether the negotiation timer fires before the
    goroutine's first send. On success the `verack` goes through `QueueMessage`,
    which drops it unless the peer is `Connected`. -/
def start (g : Global) (p : Peer) (io : NegotiationIo) (timedOut : Bool) : StartResult :=
  let n := negotiate g p io
  if timedOut then
    { global := n.1, peer := { n.2.1 with link := disconnect n.2.1.link }
      err := some "protocol negotiation timeout", handlersStarted := false, queued := [] }
  else
    match (negotiateErrSends p.inbound n.2.2).head? with
    | some (some e) =>
      { global := n.1, peer := { n.2.1 with link := disconnect n.2.1.link }, err := some e
        handlersStarted := false, queued := [] }
    | _ =>
      { global := n.1, peer := n.2.1, err := none, handlersStarted := true
        queued := if connected n.2.1.link then [.verAck] else [] }

/-! ## Frame facts of the negotiation -/

@[simp] theorem recordRemoteVersion_link (g : Global) (p : Peer) (msg : MsgVersion)
    (t : Int) : (recordRemoteVersion g p msg t).2.link = p.link := rfl

/-- Reading the remote version leaves the connection atomics alone. -/
theorem readRemoteVersionMsg_link (g : Global) (p : Peer) (r : ReadResult) (t : Int)
    (w : Bool) : (readRemoteVersionMsg g p r t w).2.1.link = p.link := by
  unfold readRemoteVersionMsg
  split_ifs
  · rfl
  · split
    · rfl
    · split_ifs
      · rfl
      · split <;> simp
    · simp

/-- Writing our version leaves the connection atomics alone. -/
theorem writeLocalVersionMsg_link (g : Global) (p : Peer) (t : Int) (n : UInt64)
    (w : Bool) : (writeLocalVersionMsg g p t n w).2.1.link = p.link := by
  unfold writeLocalVersionMsg
  dsimp only
  split <;> simp

/-- The negotiation leaves the connection atomics alone. -/
theorem negotiate_link (g : Global) (p : Peer) (io : NegotiationIo) :
    (negotiate g p io).2.1.link = p.link := by
  unfold negotiate negotiateInboundProtocol negotiateOutboundProtocol
  split_ifs <;> dsimp only <;> split <;>
    simp [readRemoteVersionMsg_link, writeLocalVersionMsg_link]

/-! ## What `start` does with a failed negotiation -/

/-- **INBOUND REFUSES**: a failed inbound negotiation makes `start` return an error
    (the negotiation's, or the timeout's when the timer wins), disconnect, launch no
    handler and queue nothing, whichever way the timer races the goroutine. -/
theorem start_inbound_of_error {g : Global} {p : Peer} {io : NegotiationIo} {e : String}
    (hin : p.inbound = true) (he : (negotiate g p io).2.2 = .error e) (timedOut : Bool) :
    (start g p io timedOut).err = some (if timedOut then "protocol negotiation timeout" else e) ∧
      (start g p io timedOut).handlersStarted = false ∧
      (start g p io timedOut).queued = [] ∧
      (start g p io timedOut).peer.link = disconnect (negotiate g p io).2.1.link := by
  cases timedOut <;> simp [start, he, negotiateErrSends, hin]

/-- **OUTBOUND STARTS ANYWAY**: whatever an outbound negotiation returns, failure
    included, if it beats the timer `start` returns nil, launches the handlers and
    queues `verack` on a connected peer. -/
theorem start_outbound_ignores_result {g : Global} {p : Peer} {io : NegotiationIo}
    (hout : p.inbound = false) :
    (start g p io false).err = none ∧ (start g p io false).handlersStarted = true ∧
      (start g p io false).queued =
        (if connected p.link then [.verAck] else []) := by
  simp [start, negotiateErrSends, hout, negotiate_link]

/-! ## The obsolete check

    `uint32(msg.ProtocolVersion)` reads the signed wire field as its bit pattern,
    so with `MinAcceptableProtocolVersion = 1` the check fires for the zero pattern
    only; every negative version passes and is recorded as a version of at least
    `2^31`. -/

/-- The reject the obsolete check writes. -/
def obsoleteReject : MsgReject := newMsgReject Cmd.version.str .obsolete obsoleteReason

/-- Without an `OnVersion` listener a version is rejected exactly when its wire
    value is the zero pattern: the `uint32` conversion reads every negative
    version as one of at least `2^31`. -/
theorem versionRejection_of_no_listener {cfg : Config} (h : cfg.onVersion = none)
    (msg : MsgVersion) :
    versionRejection cfg msg = if msg.protocolVersion = 0 then some obsoleteReject else none := by
  have hlt : ((⟨msg.protocolVersion⟩ : UInt32) < minAcceptableProtocolVersion) ↔
      msg.protocolVersion = 0 := by
    rw [BitVec.toNat_eq]
    show msg.protocolVersion.toNat < 1 ↔ msg.protocolVersion.toNat = 0
    omega
  simp only [versionRejection, h, Option.none_bind, hlt, obsoleteReject]

/-- **THE OBSOLETE CHECK ON A FIRST VERSION.** For a first version whose nonce is
    not ours and with no `OnVersion` listener, `readRemoteVersionMsg` writes the
    obsolete reject and fails exactly when the wire value is 0; otherwise it records
    the `uint32` reading as the advertised version and negotiates the minimum. -/
theorem readRemoteVersionMsg_first_version {g : Global} {p : Peer} {msg : MsgVersion}
    (hk : p.flags.versionKnown = false)
    (hn : g.allowSelfConns = true ∨ ¬ msg.nonce ∈ g.sentNonces.items)
    (hl : p.cfg.onVersion = none) (t : Int) (w : Bool) :
    let r := readRemoteVersionMsg g p (.ok (.version msg)) t w
    let rec_ := recordRemoteVersion g p msg t
    if msg.protocolVersion = 0 then
      r = (rec_.1, (writeMessage rec_.2 (.reject obsoleteReject) w).1, .error obsoleteReason)
    else r = (rec_.1, rec_.2, .ok (some msg)) ∧
      rec_.2.flags.advertisedProtoVer = ⟨msg.protocolVersion⟩ ∧
      rec_.2.flags.protocolVersion = minUint32 p.flags.protocolVersion ⟨msg.protocolVersion⟩ := by
  have hself : (!g.allowSelfConns && g.sentNonces.contains msg.nonce) = false := by
    rcases hn with hn | hn <;> simp [hn, Mru.contains]
  simp only [readRemoteVersionMsg, hk, hself, versionRejection_of_no_listener hl]
  by_cases h0 : msg.protocolVersion = 0 <;>
    simp only [h0, if_true, if_false] <;> simp [recordRemoteVersion, obsoleteReject, newMsgReject]

/-! ## A failing run -/

/-- A configuration that sets nothing optional. -/
def plainConfig : Config :=
  { services := 0, protocolVersion := 0, disableRelayTx := false, userAgent := ""
    trickleInterval := 0, newestBlock := none, onVersion := none }

/-- A fresh process: no nonce sent yet, no peer numbered, self-connections refused. -/
def freshGlobal : Global :=
  { sentNonces := Mru.empty 50 (by decide), nodeCount := 0, allowSelfConns := false }

/-- A remote that answers our version with a `verack` instead of its own version. -/
def verackFirstIo : NegotiationIo :=
  { remote := .ok .verAck, nowUnix := 0, nonce := 1, rejectWriteOk := true
    versionWriteOk := true }

/-- A fresh outbound peer, its connection attached. -/
def attachedOutbound : Peer := (associateConnection (newPeerBase plainConfig false) true).1

/-- The outbound negotiation with a `verack`-first remote fails, and `start` still
    returns nil, launches the handlers and queues our `verack`. -/
theorem start_outbound_verack_first :
    (negotiate freshGlobal attachedOutbound verackFirstIo).2.2 = .error notVersionReason ∧
      (start freshGlobal attachedOutbound verackFirstIo false).err = none ∧
      (start freshGlobal attachedOutbound verackFirstIo false).handlersStarted = true ∧
      (start freshGlobal attachedOutbound verackFirstIo false).queued = [.verAck] :=
  have h := @start_outbound_ignores_result freshGlobal attachedOutbound verackFirstIo rfl
  ⟨rfl, h.1, h.2.1, h.2.2⟩

/-- A first version advertising protocol version `-1`. -/
def negativeVersionMsg : MsgVersion :=
  { protocolVersion := BitVec.ofInt 32 (-1), services := 0, timestamp := 0, nonce := 7
    userAgent := "", lastBlock := 0, disableRelayTx := false }

/-- **A NEGATIVE VERSION IS NOT OBSOLETE.** Version `-1` is below
    `MinAcceptableProtocolVersion` as an integer, yet `readRemoteVersionMsg` accepts
    it, writes no reject, records `2^32 - 1` as the advertised version and keeps the
    local version as the negotiated one. -/
theorem negative_version_accepted :
    negativeVersionMsg.protocolVersion.toInt < (minAcceptableProtocolVersion.toNat : Int) ∧
      (readRemoteVersionMsg freshGlobal attachedOutbound
        (.ok (.version negativeVersionMsg)) 0 true).2.2 = .ok (some negativeVersionMsg) ∧
      (readRemoteVersionMsg freshGlobal attachedOutbound
        (.ok (.version negativeVersionMsg)) 0 true).2.1.written = [] ∧
      (readRemoteVersionMsg freshGlobal attachedOutbound
        (.ok (.version negativeVersionMsg)) 0 true).2.1.flags.advertisedProtoVer.toNat =
        2 ^ 32 - 1 ∧
      (readRemoteVersionMsg freshGlobal attachedOutbound
        (.ok (.version negativeVersionMsg)) 0 true).2.1.flags.protocolVersion =
        maxProtocolVersion := by
  have h := @readRemoteVersionMsg_first_version freshGlobal attachedOutbound negativeVersionMsg rfl
    (.inr (by decide)) rfl 0 true
  rw [if_neg (by decide)] at h
  obtain ⟨hr, ha, hp⟩ := h
  rw [hr]
  exact ⟨by decide, rfl, rfl, by rw [ha]; rfl, by rw [hp]; rfl⟩
end PeerNegotiate
