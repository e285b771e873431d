import ParallelcoinPeer.Wire
import ParallelcoinPeer.Mru

/-! # The peer record, its defaults, and the connection atomics

    One `Peer` per connection. The fields the flag lock protects (`Flags`), the
    ones the stats lock protects (`Stats`), and the atomics `Connected` and
    `Disconnect` work on (`Link`) are kept apart, as the source keeps them
    apart behind different locks. `written` records what `writeMessage` put on
    the connection, oldest first.

    `Link` carries the two `int32` atomics as their 32-bit patterns (the code
    only adds one and compares with 0 and 1, where the signed and unsigned
    readings agree) and counts how often `conn.Close` and `quit.Q` ran.

    The process-wide state is `Global`: the sent-nonce registry, the peer-id
    counter and the test switch `AllowSelfConns`.

    The last section runs `AssociateConnection` and `Disconnect` in any order:
    `link_calls_act_once` bounds what any such run does, and
    `disconnect_before_associate` follows a `Disconnect` that comes first. -/

namespace PeerState

open PeerWire PeerMru

/-- Durations and times are nanoseconds, as `time.Duration` counts them. -/
def second : Nat := 1000000000

/-- `MaxProtocolVersion`. -/
def maxProtocolVersion : UInt32 := feeFilterVersion

/-- `MinAcceptableProtocolVersion`. -/
def minAcceptableProtocolVersion : UInt32 := 1

/-- `DefaultTrickleInterval`. -/
def defaultTrickleInterval : Int := second

/-- The configuration fields the peer engine consumes (`peer.Config`).
    `userAgent` is the BIP 14 text `AddUserAgent` builds from the name, version and
    comments; `newestBlock` is the answer of the `NewestBlock` callback, if one is
    set; `onVersion` is the `OnVersion` listener's decision, if one is set. -/
structure Config where
  services : UInt64
  protocolVersion : UInt32
  disableRelayTx : Bool
  userAgent : String
  trickleInterval : Int
  newestBlock : Option (Except String (Hash × BitVec 32))
  onVersion : Option (MsgVersion → Option MsgReject)

/-- The fields behind `flagsMtx`. -/
structure Flags where
  nonce : UInt64
  id : BitVec 32
  userAgent : String
  services : UInt64
  versionKnown : Bool
  advertisedProtoVer : UInt32
  protocolVersion : UInt32
  sendHeadersPreferred : Bool
  verAckReceived : Bool
  witnessEnabled : Bool
  deriving DecidableEq, Repr

/-- The fields behind `statsMtx`; times are unix nanoseconds. -/
structure Stats where
  timeOffset : Int
  startingHeight : BitVec 32
  lastBlock : BitVec 32
  lastAnnouncedBlock : Option Hash
  lastPingNonce : UInt64
  lastPingTime : Int
  lastPingMicros : Int
  deriving DecidableEq, Repr

/-- The atomics `connected` and `disconnect`, with how often `conn.Close` and
    `quit.Q` have run. -/
structure Link where
  connected : UInt32
  disconnect : UInt32
  closes : Nat
  quits : Nat
  deriving DecidableEq, Repr

/-- One peer. -/
structure Peer where
  cfg : Config
  inbound : Bool
  flags : Flags
  stats : Stats
  link : Link
  written : List Msg

/-- The process-wide state: `SentNonces`, `nodeCount` and `AllowSelfConns`. -/
structure Global where
  sentNonces : Mru UInt64
  nodeCount : BitVec 32
  allowSelfConns : Bool

/-- `newPeerBase`: copy the configuration, defaulting a zero protocol version to
    `MaxProtocolVersion` and a non-positive trickle interval to the default. -/
def newPeerBase (origCfg : Config) (inbound : Bool) : Peer :=
  let cfg :=
    { origCfg with
      protocolVersion := if origCfg.protocolVersion = 0 then maxProtocolVersion
        else origCfg.protocolVersion
      trickleInterval := if origCfg.trickleInterval ≤ 0 then defaultTrickleInterval
        else origCfg.trickleInterval }
  { cfg := cfg
    inbound := inbound
    flags :=
      { nonce := 0, id := 0, userAgent := "", services := cfg.services
        versionKnown := false, advertisedProtoVer := 0
        protocolVersion := cfg.protocolVersion, sendHeadersPreferred := false
        verAckReceived := false, witnessEnabled := false }
    stats :=
      { timeOffset := 0, startingHeight := 0, lastBlock := 0
        lastAnnouncedBlock := none, lastPingNonce := 0, lastPingTime := 0
        lastPingMicros := 0 }
    link := { connected := 0, disconnect := 0, closes := 0, quits := 0 }
    written := [] }

/-- The configured protocol version never ends up zero. -/
theorem newPeerBase_protocolVersion_ne_zero (cfg : Config) (inbound : Bool) :
    (newPeerBase cfg inbound).cfg.protocolVersion ≠ 0 := by
  simp only [newPeerBase]
  split_ifs with h
  · decide
  · exact h

/-! ## `Connected` and `Disconnect` -/

/-- `Connected`: the connection is attached and no disconnect has begun. -/
def connected (l : Link) : Bool := l.connected ≠ 0 && l.disconnect = 0

/-- `Disconnect`: bump the counter; only the call that makes it 1 closes the
    connection (when attached) and the quit signal. -/
def disconnect (l : Link) : Link :=
  let d := l.disconnect + 1
  if d ≠ 1 then { l with disconnect := d }
  else
    { l with
      disconnect := d
      closes := if l.connected ≠ 0 then l.closes + 1 else l.closes
      quits := l.quits + 1 }

/-- After a disconnect from a clear counter the counter is set and the quit signal
    has fired. -/
theorem disconnect_of_clear {l : Link} (h : l.disconnect = 0) :
    (disconnect l).disconnect ≠ 0 ∧ (disconnect l).quits = l.quits + 1 := by
  simp [disconnect, h]

@[simp] theorem disconnect_connected (l : Link) :
    (disconnect l).connected = l.connected := by
  simp only [disconnect]; split_ifs <;> rfl

/-! ## Many calls of `Disconnect`

    The counter `atomic.AddInt32` bumps is 32 bits wide. Below `2^32` calls only
    the first acts; the call that brings the counter round to zero makes the peer
    `Connected` again, and the next one closes the connection and fires the quit
    signal a second time. -/

/-- The counter's increment, as a number. -/
theorem toNat_add_one (d : UInt32) : (d + 1).toNat = (d.toNat + 1) % 2 ^ 32 := by
  rw [UInt32.add_def]
  show (d.toBitVec + 1#32).toNat = _
  rw [BitVec.toNat_add]
  rfl

/-- A call that finds the counter set only bumps it. -/
theorem disconnect_of_set {l : Link} (h : l.disconnect ≠ 0) :
    disconnect l = { l with disconnect := l.disconnect + 1 } := by
  have hne : l.disconnect + 1 ≠ 1 := fun h1 => h <| UInt32.toNat.inj <| by
    have := congrArg UInt32.toNat h1
    rw [toNat_add_one] at this
    have := l.disconnect.toNat_lt_size
    simp only [UInt32.size, UInt32.toNat_zero, show (1 : UInt32).toNat = 1 from rfl] at *
    omega
  simp [disconnect, hne]

@[simp] theorem iterate_disconnect_connected (n : Nat) (l : Link) :
    (disconnect^[n] l).connected = l.connected := by
  induction n generalizing l with
  | zero => rfl
  | succ n ih => rw [Function.iterate_succ_apply, ih, disconnect_connected]

/-- Calls that keep the counter set and below its top only bump it. -/
theorem iterate_disconnect_of_set {l : Link} {k : Nat} (h : 0 < l.disconnect.toNat)
    (hk : l.disconnect.toNat + k < 2 ^ 32) :
    (disconnect^[k] l).disconnect.toNat = l.disconnect.toNat + k ∧
      (disconnect^[k] l).closes = l.closes ∧ (disconnect^[k] l).quits = l.quits := by
  induction k generalizing l with
  | zero => exact ⟨rfl, rfl, rfl⟩
  | succ k ih =>
      have hd : (l.disconnect + 1).toNat = l.disconnect.toNat + 1 := by
        rw [toNat_add_one, Nat.mod_eq_of_lt (by omega)]
      have hset : l.disconnect ≠ 0 := fun h0 => by simp [h0] at h
      rw [Function.iterate_succ_apply, disconnect_of_set hset]
      obtain ⟨h1, h2, h3⟩ := @ih { l with disconnect := l.disconnect + 1 }
        (by simp only [hd]; omega) (by simp only [hd]; omega)
      exact ⟨by rw [h1, hd]; omega, h2, h3⟩

/-- **BELOW THE WRAP `Disconnect` ACTS ONCE.** From a clear counter, any `n` calls
    with `0 < n < 2^32` leave the counter at `n`, so the peer is not `Connected`,
    and close the connection (when attached) and fire the quit signal exactly once. -/
theorem disconnect_once_below_wrap {l : Link} (h : l.disconnect = 0) {n : Nat} (hn : 0 < n)
    (hn' : n < 2 ^ 32) :
    (disconnect^[n] l).disconnect.toNat = n ∧ connected (disconnect^[n] l) = false ∧
      (disconnect^[n] l).quits = l.quits + 1 ∧
      (disconnect^[n] l).closes = if l.connected ≠ 0 then l.closes + 1 else l.closes := by
  obtain ⟨m, rfl⟩ : ∃ m, n = m + 1 := ⟨n - 1, by omega⟩
  have hfirst : (disconnect l).disconnect.toNat = 1 := by simp [disconnect, h]
  rw [Function.iterate_succ_apply]
  obtain ⟨h1, h2, h3⟩ := @iterate_disconnect_of_set (disconnect l) m
    (by omega) (by omega)
  refine ⟨by omega, ?_, by rw [h3, (disconnect_of_clear h).2], ?_⟩
  · have : (disconnect^[m] (disconnect l)).disconnect ≠ 0 := fun h0 => by
      simp only [h0, UInt32.toNat_zero] at h1; omega
    simp [connected, this]
  · rw [h2]; simp [disconnect, h]

/-- The call that brings a full counter round to zero makes an attached peer
    `Connected` again, and the call after it acts as a first one. -/
theorem disconnect_of_top {l : Link} (h : l.disconnect + 1 = 0) :
    (disconnect l).disconnect = 0 ∧ connected (disconnect l) = decide (l.connected ≠ 0) ∧
      (disconnect (disconnect l)).closes =
        (if l.connected ≠ 0 then l.closes + 1 else l.closes) ∧
      (disconnect (disconnect l)).quits = l.quits + 1 := by
  have hne : l.disconnect + 1 ≠ 1 := by rw [h]; decide
  simp [disconnect, hne, h, connected]

/-- An attached peer nobody has disconnected yet. -/
def attachedLink : Link := ⟨1, 0, 0, 0⟩

/-- **`DISCONNECT` ACTS AGAIN PAST THE WRAP.** After `2^32` calls on an attached peer
    the counter is back at zero and the peer is `Connected` again; call `2^32 + 1`
    closes the connection and fires the quit signal a second time. -/
theorem disconnect_acts_again_after_wrap :
    (disconnect^[2 ^ 32] attachedLink).disconnect = 0 ∧
      connected (disconnect^[2 ^ 32] attachedLink) = true ∧
      (disconnect^[2 ^ 32 + 1] attachedLink).closes = 2 ∧
      (disconnect^[2 ^ 32 + 1] attachedLink).quits = 2 := by
  obtain ⟨hd, -, hq, hc⟩ :=
    @disconnect_once_below_wrap attachedLink rfl (2 ^ 32 - 1) (by omega) (by omega)
  rw [show (2 : Nat) ^ 32 = (2 ^ 32 - 1) + 1 by omega]
  generalize hm : 2 ^ 32 - 1 = m at hd hq hc ⊢
  have hzero : (disconnect^[m] attachedLink).disconnect + 1 = 0 := by
    apply UInt32.toNat.inj
    rw [toNat_add_one, hd, UInt32.toNat_zero]
    omega
  rw [Function.iterate_succ_apply', Function.iterate_succ_apply', Function.iterate_succ_apply']
  obtain ⟨h1, h2, h3, h4⟩ := disconnect_of_top hzero
  refine ⟨h1, ?_, ?_, ?_⟩
  · rw [h2, iterate_disconnect_connected]; rfl
  · rw [h3, hc, iterate_disconnect_connected]; rfl
  · rw [h4, hq]; rfl

/-! ## Writing to the connection -/

/-- `writeMessage`: nothing is written once a disconnect began (and that counts as
    success); otherwise the connection accepts the message or fails, as `ok` says. -/
def writeMessage (p : Peer) (msg : Msg) (ok : Bool) : Peer × Option String :=
  if p.link.disconnect ≠ 0 then (p, none)
  else if ok then ({ p with written := p.written ++ [msg] }, none)
  else (p, some "write failed")

@[simp] theorem writeMessage_cfg (p : Peer) (msg : Msg) (ok : Bool) :
    (writeMessage p msg ok).1.cfg = p.cfg := by
  unfold writeMessage; split_ifs <;> rfl

@[simp] theorem writeMessage_inbound (p : Peer) (msg : Msg) (ok : Bool) :
    (writeMessage p msg ok).1.inbound = p.inbound := by
  unfold writeMessage; split_ifs <;> rfl

@[simp] theorem writeMessage_flags (p : Peer) (msg : Msg) (ok : Bool) :
    (writeMessage p msg ok).1.flags = p.flags := by
  unfold writeMessage; split_ifs <;> rfl

@[simp] theorem writeMessage_stats (p : Peer) (msg : Msg) (ok : Bool) :
    (writeMessage p msg ok).1.stats = p.stats := by
  unfold writeMessage; split_ifs <;> rfl

@[simp] theorem writeMessage_link (p : Peer) (msg : Msg) (ok : Bool) :
    (writeMessage p msg ok).1.link = p.link := by
  unfold writeMessage; split_ifs <;> rfl

/-! ## Attaching the connection -/

/-- `AssociateConnection`: attach the connection once (the compare-and-swap on
    `connected`). An inbound peer whose remote address does not parse
    (`addrOk = false`) is disconnected instead of started. The flag says whether
    `start` runs. -/
def associateConnection (p : Peer) (addrOk : Bool) : Peer × Bool :=
  if p.link.connected ≠ 0 then (p, false)
  else
    let p := { p with link := { p.link with connected := 1 } }
    if p.inbound && !addrOk then ({ p with link := disconnect p.link }, false)
    else (p, true)

/-! ## Attaching and closing, in any order

    `AssociateConnection` and `Disconnect` may be called in any order, any number
    of times. `linkRun` runs such a sequence and counts the launches of `start`.
    Fewer than `2^32` calls launch `start`, close the connection and fire the
    quit signal at most once each; and a `Disconnect` that comes before the
    connection is attached leaves that connection to be attached and started
    later, with no later `Disconnect` able to close it. -/

/-- The calls that touch the connection atomics from outside: `AssociateConnection`
    (with whether the remote address parses) and `Disconnect`. -/
inductive LinkOp where
  | associate (addrOk : Bool)
  | disconnect
  deriving DecidableEq, Repr

/-- One call; the count is how often `AssociateConnection` launched `start`. -/
def linkStep (s : Peer × Nat) : LinkOp → Peer × Nat
  | .associate ok =>
    let r := associateConnection s.1 ok
    (r.1, if r.2 then s.2 + 1 else s.2)
  | .disconnect => ({ s.1 with link := disconnect s.1.link }, s.2)

/-- Any sequence of calls. -/
def linkRun (s : Peer × Nat) (ops : List LinkOp) : Peer × Nat := ops.foldl linkStep s

@[simp] theorem linkRun_nil (s : Peer × Nat) : linkRun s [] = s := rfl

@[simp] theorem linkRun_cons (s : Peer × Nat) (op : LinkOp) (ops : List LinkOp) :
    linkRun s (op :: ops) = linkRun (linkStep s op) ops := rfl

@[simp] theorem linkRun_append (s : Peer × Nat) (ops ops' : List LinkOp) :
    linkRun s (ops ++ ops') = linkRun (linkRun s ops) ops' := List.foldl_append ..

/-- Whether a connection can still be attached. -/
def unattached (l : Link) : Nat := if l.connected = 0 then 1 else 0

/-- **STEP.** A launch of `start` uses up the one chance an unattached peer has. -/
theorem linkStep_starts (s : Peer × Nat) (op : LinkOp) :
    (linkStep s op).2 + unattached (linkStep s op).1.link ≤ s.2 + unattached s.1.link := by
  cases op with
  | disconnect => simp [linkStep, unattached]
  | associate ok =>
      by_cases hc : s.1.link.connected = 0
      · -- attaching uses up the one chance, with or without a launch
        by_cases hb : (s.1.inbound && !ok) = true <;>
          simp [linkStep, associateConnection, unattached, hc, hb]
      · simp [linkStep, associateConnection, hc]

/-- What the counter, the closes and the quit signals may be: nothing yet, or the first
    `Disconnect` has acted, closing at most once and firing `quit` once. -/
def LinkInv (l : Link) : Prop :=
  (l.disconnect = 0 ∧ l.closes = 0 ∧ l.quits = 0) ∨ (l.disconnect ≠ 0 ∧ l.closes ≤ 1 ∧ l.quits = 1)

/-- The counter's successor below its top. -/
theorem toNat_succ_of_lt {d : UInt32} (h : d.toNat + 1 < 2 ^ 32) :
    (d + 1).toNat = d.toNat + 1 := by
  rw [toNat_add_one, Nat.mod_eq_of_lt h]

/-- `Disconnect` keeps the invariant below the top of the counter. -/
theorem linkInv_disconnect {l : Link} (h : LinkInv l) (hn : l.disconnect.toNat + 1 < 2 ^ 32) :
    LinkInv (disconnect l) ∧ (disconnect l).disconnect.toNat = l.disconnect.toNat + 1 := by
  rcases h with ⟨h0, hc, hq⟩ | ⟨h0, hc, hq⟩
  · refine ⟨.inr ?_, by simp [disconnect, h0]⟩
    simp only [disconnect, h0, hc, hq]
    split_ifs <;> simp_all
  · have hd1 := toNat_succ_of_lt hn
    rw [disconnect_of_set h0]
    exact ⟨.inr ⟨fun h1 => by rw [show l.disconnect + 1 = 0 from h1] at hd1; simp at hd1, hc, hq⟩, hd1⟩

/-- **STEP.** Every call keeps the invariant below the top of the counter, and bumps
    the counter at most once. -/
theorem linkInv_linkStep {s : Peer × Nat} (h : LinkInv s.1.link)
    (hn : s.1.link.disconnect.toNat + 1 < 2 ^ 32) (op : LinkOp) :
    LinkInv (linkStep s op).1.link ∧
      (linkStep s op).1.link.disconnect.toNat ≤ s.1.link.disconnect.toNat + 1 := by
  cases op with
  | disconnect => exact (linkInv_disconnect h hn).imp id (·.le)
  | associate ok =>
      simp only [linkStep, associateConnection]
      split_ifs
      · exact ⟨h, by dsimp only; omega⟩
      · exact (@linkInv_disconnect { s.1.link with connected := 1 } h hn).imp id (·.le)
      · exact ⟨h, by simp⟩

/-- **RUN.** Launches plus an unattached peer's one chance never grow. -/
theorem linkRun_starts (s : Peer × Nat) (ops : List LinkOp) :
    (linkRun s ops).2 + unattached (linkRun s ops).1.link ≤ s.2 + unattached s.1.link := by
  induction ops generalizing s with
  | nil => exact le_rfl
  | cons op ops ih => exact (ih _).trans (linkStep_starts s op)

/-- **RUN.** The invariant holds after any calls below the top of the counter. -/
theorem linkInv_linkRun {s : Peer × Nat} (h : LinkInv s.1.link) (ops : List LinkOp)
    (hn : s.1.link.disconnect.toNat + ops.length < 2 ^ 32) :
    LinkInv (linkRun s ops).1.link ∧
      (linkRun s ops).1.link.disconnect.toNat ≤ s.1.link.disconnect.toNat + ops.length := by
  induction ops generalizing s with
  | nil => exact ⟨h, le_rfl⟩
  | cons op ops ih =>
      rw [List.length_cons] at hn
      obtain ⟨h1, h2⟩ := linkInv_linkStep h (by omega) op
      obtain ⟨h3, h4⟩ := ih h1 (by omega)
      exact ⟨h3, by rw [linkRun_cons, List.length_cons]; omega⟩

/-- **`START`, CLOSE AND QUIT RUN AT MOST ONCE.** Whatever calls of
    `AssociateConnection` and `Disconnect` a new peer gets, in whatever order, fewer
    than `2^32` of them launch `start` at most once, close the connection at most
    once and fire the quit signal at most once. -/
theorem link_calls_act_once (cfg : Config) (inbound : Bool) (ops : List LinkOp)
    (hn : ops.length < 2 ^ 32) :
    (linkRun (newPeerBase cfg inbound, 0) ops).2 ≤ 1 ∧
      (linkRun (newPeerBase cfg inbound, 0) ops).1.link.closes ≤ 1 ∧
      (linkRun (newPeerBase cfg inbound, 0) ops).1.link.quits ≤ 1 := by
  have hs := linkRun_starts (newPeerBase cfg inbound, 0) ops
  have h1 : unattached (newPeerBase cfg inbound, 0).1.link = 1 := rfl
  have hi := (linkInv_linkRun (s := (newPeerBase cfg inbound, 0))
    (.inl ⟨rfl, rfl, rfl⟩) ops (by show 0 + ops.length < 2 ^ 32; omega)).1
  refine ⟨by omega, ?_⟩
  rcases hi with ⟨-, hc, hq⟩ | ⟨-, hc, hq⟩ <;> omega

/-- Attach, close, and both once more: the repeats do nothing. -/
theorem link_calls_act_once_twice :
    [LinkOp.associate true, .disconnect, .associate true, .disconnect].length < 2 ^ 32 ∧
      (linkRun (newPeerBase ⟨0, 0, false, "", 0, none, none⟩ false, 0)
        [.associate true, .disconnect, .associate true, .disconnect]).2 ≤ 1 ∧
      (linkRun (newPeerBase ⟨0, 0, false, "", 0, none, none⟩ false, 0)
        [.associate true, .disconnect, .associate true, .disconnect]).1.link.closes ≤ 1 ∧
      (linkRun (newPeerBase ⟨0, 0, false, "", 0, none, none⟩ false, 0)
        [.associate true, .disconnect, .associate true, .disconnect]).1.link.quits ≤ 1 :=
  ⟨by decide, link_calls_act_once _ false _ (by decide)⟩

/-- Only `Disconnect` calls: the counter alone moves. -/
theorem linkRun_disconnects (s : Peer × Nat) {ops : List LinkOp}
    (h : ∀ op ∈ ops, op = .disconnect) :
    linkRun s ops = ({ s.1 with link := disconnect^[ops.length] s.1.link }, s.2) := by
  induction ops generalizing s with
  | nil => rfl
  | cons op ops ih =>
      obtain rfl := h op (List.mem_cons_self _ _)
      rw [linkRun_cons, ih _ fun o ho => h o (List.mem_cons_of_mem _ ho), List.length_cons,
        Function.iterate_succ_apply]
      rfl

/-- **STEP.** Once attached a call launches nothing and stays attached. -/
theorem linkStep_attached {s : Peer × Nat} (h : s.1.link.connected ≠ 0) (op : LinkOp) :
    (linkStep s op).2 = s.2 ∧ (linkStep s op).1.link.connected ≠ 0 := by
  cases op with
  | disconnect => exact ⟨rfl, by simpa [linkStep] using h⟩
  | associate ok => simp [linkStep, associateConnection, h]

/-- **RUN.** Once attached no call launches `start`. -/
theorem linkRun_attached {s : Peer × Nat} (h : s.1.link.connected ≠ 0) (ops : List LinkOp) :
    (linkRun s ops).2 = s.2 ∧ (linkRun s ops).1.link.connected ≠ 0 := by
  induction ops generalizing s with
  | nil => exact ⟨rfl, h⟩
  | cons op ops ih =>
      obtain ⟨h1, h2⟩ := linkStep_attached h op
      rw [linkRun_cons, (ih h2).1, h1]
      exact ⟨rfl, (ih h2).2⟩

/-- **STEP.** With the counter set a call neither closes nor quits. -/
theorem linkStep_of_set {s : Peer × Nat} (hd : s.1.link.disconnect ≠ 0)
    (hn : s.1.link.disconnect.toNat + 1 < 2 ^ 32) (op : LinkOp) :
    (linkStep s op).1.link.disconnect ≠ 0 ∧
      (linkStep s op).1.link.disconnect.toNat ≤ s.1.link.disconnect.toNat + 1 ∧
      (linkStep s op).1.link.closes = s.1.link.closes ∧
      (linkStep s op).1.link.quits = s.1.link.quits := by
  have hd1 := toNat_succ_of_lt hn
  have hset : s.1.link.disconnect + 1 ≠ 0 := fun h0 => by rw [h0] at hd1; simp at hd1
  cases op with
  | disconnect => simp [linkStep, disconnect_of_set hd, hset, hd1]
  | associate ok =>
      simp only [linkStep, associateConnection]
      split_ifs
      · exact ⟨hd, Nat.le_succ _, rfl, rfl⟩
      · simp [disconnect_of_set (show ({ s.1.link with connected := 1 } : Link).disconnect ≠ 0
          from hd), hset, hd1]
      · exact ⟨hd, by simp, rfl, rfl⟩

/-- **RUN.** With the counter set, no calls below its top close or quit. -/
theorem linkRun_of_set {s : Peer × Nat} (hd : s.1.link.disconnect ≠ 0) (ops : List LinkOp)
    (hn : s.1.link.disconnect.toNat + ops.length < 2 ^ 32) :
    (linkRun s ops).1.link.closes = s.1.link.closes ∧
      (linkRun s ops).1.link.quits = s.1.link.quits := by
  induction ops generalizing s with
  | nil => exact ⟨rfl, rfl⟩
  | cons op ops ih =>
      rw [List.length_cons] at hn
      obtain ⟨h1, h2, h3, h4⟩ := linkStep_of_set hd (by omega) op
      rw [linkRun_cons, (ih h1 (by omega)).1, (ih h1 (by omega)).2, h3, h4]
      exact ⟨rfl, rfl⟩

/-- An unattached peer whose counter is set still attaches, and launches `start`
    unless it is inbound and its address does not parse. -/
theorem linkStep_associate_of_set {s : Peer × Nat} (hc : s.1.link.connected = 0)
    (hd : s.1.link.disconnect ≠ 0) (ok : Bool) :
    (linkStep s (.associate ok)).2 = (if s.1.inbound && !ok then s.2 else s.2 + 1) ∧
      (linkStep s (.associate ok)).1.link.connected ≠ 0 := by
  have hd' : ({ s.1.link with connected := 1 } : Link).disconnect ≠ 0 := hd
  by_cases hb : (s.1.inbound && !ok) = true <;>
    simp [linkStep, associateConnection, hc, hb, disconnect_of_set hd']

/-- **A `DISCONNECT` BEFORE THE CONNECTION IS ATTACHED LEAVES IT OPEN.** If the first
    call on a new peer is `Disconnect`, the quit signal fires but there is no
    connection to close. The first `AssociateConnection` after it still attaches a
    connection and, unless an inbound peer's address does not parse, launches
    `start` on it, and fewer than `2^32` calls of any kind after that never close
    it: every later `Disconnect` finds the counter set. -/
theorem disconnect_before_associate (cfg : Config) (inbound : Bool) (pre post : List LinkOp)
    (hpre : ∀ op ∈ pre, op = .disconnect) (ok : Bool)
    (hn : pre.length + post.length + 2 < 2 ^ 32) :
    let s := linkRun (newPeerBase cfg inbound, 0)
      (.disconnect :: pre ++ .associate ok :: post)
    s.2 = (if inbound && !ok then 0 else 1) ∧ s.1.link.connected ≠ 0 ∧
      s.1.link.closes = 0 ∧ s.1.link.quits = 1 := by
  dsimp only
  rw [List.cons_append, linkRun_cons, linkRun_append, linkRun_disconnects _ hpre, linkRun_cons]
  have hl1 : (linkStep (newPeerBase cfg inbound, 0) .disconnect).1.link = ⟨0, 1, 0, 1⟩ := rfl
  rw [hl1]
  obtain ⟨hd, hcl, hq⟩ := @iterate_disconnect_of_set ⟨0, 1, 0, 1⟩ pre.length (by decide)
    (by simp; omega)
  have hc := iterate_disconnect_connected pre.length ⟨0, 1, 0, 1⟩
  generalize disconnect^[pre.length] ⟨0, 1, 0, 1⟩ = l at hd hcl hq hc
  set s1 : Peer × Nat := ({ (linkStep (newPeerBase cfg inbound, 0) .disconnect).1 with link := l },
    (linkStep (newPeerBase cfg inbound, 0) .disconnect).2)
  have hsl : s1.1.link = l := rfl
  replace hd : l.disconnect.toNat = 1 + pre.length := hd
  have hd1 : s1.1.link.disconnect ≠ 0 := fun h0 => by
    rw [show l.disconnect = 0 from h0, UInt32.toNat_zero] at hd; omega
  obtain ⟨h2, hc2⟩ := linkStep_associate_of_set (s := s1) hc hd1 ok
  obtain ⟨h3, h4, h5, h6⟩ := linkStep_of_set (s := s1) hd1 (by rw [hsl]; omega) (.associate ok)
  obtain ⟨h7, h8⟩ := linkRun_attached hc2 post
  obtain ⟨h9, h10⟩ := linkRun_of_set h3 post (by rw [hsl] at h4; omega)
  exact ⟨by rw [h7, h2]; rfl, h8, by rw [h9, h5]; exact hcl, by rw [h10, h6]; exact hq⟩

/-- An outbound peer disconnected twice before its connection arrives, and once
    after. -/
theorem disconnect_before_associate_outbound :
    (∀ op ∈ [LinkOp.disconnect], op = .disconnect) ∧
      [LinkOp.disconnect].length + [LinkOp.disconnect].length + 2 < 2 ^ 32 ∧
      (linkRun (newPeerBase ⟨0, 0, false, "", 0, none, none⟩ false, 0)
          (.disconnect :: [.disconnect] ++ .associate true :: [.disconnect])).2 =
        (if false && !true then 0 else 1) ∧
      (linkRun (newPeerBase ⟨0, 0, false, "", 0, none, none⟩ false, 0)
          (.disconnect :: [.disconnect] ++ .associate true :: [.disconnect])).1.link.connected ≠ 0 ∧
      (linkRun (newPeerBase ⟨0, 0, false, "", 0, none, none⟩ false, 0)
          (.disconnect :: [.disconnect] ++ .associate true :: [.disconnect])).1.link.closes = 0 ∧
      (linkRun (newPeerBase ⟨0, 0, false, "", 0, none, none⟩ false, 0)
          (.disconnect :: [.disconnect] ++ .associate true :: [.disconnect])).1.link.quits = 1 :=
  have hpre : ∀ op ∈ [LinkOp.disconnect], op = .disconnect := by decide
  ⟨hpre, by decide, disconnect_before_associate _ false _ [.disconnect] hpre true (by decide)⟩

end PeerState
