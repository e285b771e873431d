import ParallelcoinPeer.InHandler

/-! # Two peers of this implementation, one on each end

    `start` negotiates one side of a connection. This file puts two peers of this
    implementation on the two ends: the one that dialled (`NewOutboundPeer`) writes
    its version and then reads, the one that accepted (`NewInboundPeer`) reads and
    then writes. `crossNegotiate` feeds each side the first message the other wrote,
    each in a process of its own with its own sent-nonce registry.

    * `cross_negotiation_succeeds`: when neither `NewestBlock` callback fails, no
      `OnVersion` listener refuses, and neither process has sent the other's nonce,
      both sides finish the exchange;
    * `cross_negotiation_agrees`: whenever both finish, they have seen each other's
      version and settled on the same protocol version, the smaller of the two
      configured ones, each recording the other's nonce, services and user agent;
    * `self_dial_refused`: a peer that dials its own process is refused by the
      accepting side, which finds the dialler's nonce in the shared registry.

    The inversion lemmas `readRemoteVersionMsg_eq_ok`, `writeLocalVersionMsg_eq_ok`,
    `negotiateInbound_eq_ok` and `negotiateOutbound_eq_ok` say what a successful
    step did; the results are assembled from them. -/

namespace PeerHandshake

open PeerWire PeerMru PeerState PeerNegotiate PeerInHandler

/-- The negotiated version does not depend on which side is which. -/
theorem minUint32_comm (a b : UInt32) : minUint32 a b = minUint32 b a := by
  unfold minUint32
  split_ifs with h1 h2 h2
  · exact absurd (UInt32.lt_trans h1 h2) (UInt32.lt_irrefl a)
  · rfl
  · rfl
  · have h1 := UInt32.not_lt.1 h1
    have h2 := UInt32.not_lt.1 h2
    rw [UInt32.le_def, BitVec.le_def] at h1 h2
    exact UInt32.eq_of_toBitVec_eq (BitVec.eq_of_toNat_eq (by omega))

/-- The first message a peer wrote on the connection, as the other side reads it;
    end of stream when it wrote none, since a failed negotiation closes the
    connection. -/
def firstWritten (p : Peer) : ReadResult :=
  match p.written.head? with
  | some m => .ok m
  | none => .error .eof

/-- What a read that did not fail did: a peer that knew the version read nothing;
    one that had none read a version from the remote and recorded it. -/
theorem readRemoteVersionMsg_eq_ok {g : Global} {p : Peer} {r : ReadResult} {t : Int} {w : Bool}
    {x : Option MsgVersion} (h : (readRemoteVersionMsg g p r t w).2.2 = .ok x) :
    (p.flags.versionKnown = true ∧ x = none) ∨
      ∃ m, x = some m ∧ p.flags.versionKnown = false ∧ r = .ok (.version m) ∧
        readRemoteVersionMsg g p r t w =
          ((recordRemoteVersion g p m t).1, (recordRemoteVersion g p m t).2, .ok (some m)) := by
  unfold readRemoteVersionMsg at h ⊢
  by_cases hk : p.flags.versionKnown = true
  · rw [if_pos hk] at h; cases h; exact .inl ⟨hk, rfl⟩
  rw [if_neg hk] at h ⊢
  split at h
  · cases h
  · rename_i msg
    by_cases hs : (!g.allowSelfConns && g.sentNonces.contains msg.nonce) = true
    · rw [if_pos hs] at h; cases h
    rw [if_neg hs] at h ⊢
    dsimp only at h ⊢
    split at h
    · cases h
    · rename_i hr
      cases h
      exact .inr ⟨msg, rfl, by simpa using hk, rfl, by simp [hr]⟩
  · cases h

/-- What a successful `writeLocalVersionMsg` wrote: our version, advertising the
    configured version, services and user agent and carrying the drawn nonce, which
    it registered in `SentNonces`. -/
theorem writeLocalVersionMsg_eq_ok {g : Global} {p : Peer} {t : Int} {n : UInt64} {w : Bool}
    {v : MsgVersion} (h : (writeLocalVersionMsg g p t n w).2.2 = .ok v) :
    v.protocolVersion = p.cfg.protocolVersion.toBitVec ∧ v.nonce = n ∧
      v.services = p.cfg.services ∧ v.userAgent = p.cfg.userAgent ∧
      (writeLocalVersionMsg g p t n w).1 = { g with sentNonces := g.sentNonces.add n } ∧
      (writeLocalVersionMsg g p t n w).2.1 = (writeMessage p (.version v) w).1 := by
  rcases hnb : p.cfg.newestBlock with _ | (e | ⟨_, hgt⟩) <;>
    simp only [writeLocalVersionMsg, localVersionMsg, hnb] at h ⊢
  · split at h
    · cases h; simp
    · cases h
  · cases h
  · split at h
    · cases h; simp
    · cases h

/-- An inbound negotiation of a peer that has not seen a version, when it
    succeeds: it read a version `m` and recorded it, then wrote ours, which it
    returns. -/
theorem negotiateInbound_eq_ok {g : Global} {p : Peer} {io : NegotiationIo}
    {x : Option MsgVersion} (hk : p.flags.versionKnown = false)
    (h : (negotiateInboundProtocol g p io).2.2 = .ok x) :
    ∃ v m, x = some v ∧ io.remote = .ok (.version m) ∧
      v.protocolVersion = p.cfg.protocolVersion.toBitVec ∧ v.nonce = io.nonce ∧
      v.services = p.cfg.services ∧ v.userAgent = p.cfg.userAgent ∧
      (negotiateInboundProtocol g p io).2.1 =
        (writeMessage (recordRemoteVersion g p m io.nowUnix).2 (.version v) io.versionWriteOk).1 := by
  unfold negotiateInboundProtocol at h ⊢
  dsimp only at h ⊢
  rcases hrd : (readRemoteVersionMsg g p io.remote io.nowUnix io.rejectWriteOk).2.2 with e | y
  · rw [hrd] at h; cases h
  obtain ⟨hk', -⟩ | ⟨m, -, -, hr, hst⟩ := readRemoteVersionMsg_eq_ok hrd
  · rw [hk] at hk'; cases hk'
  rw [hrd] at h
  dsimp only at h ⊢
  rcases hw : (writeLocalVersionMsg (readRemoteVersionMsg g p io.remote io.nowUnix
    io.rejectWriteOk).1 (readRemoteVersionMsg g p io.remote io.nowUnix io.rejectWriteOk).2.1
    io.nowUnix io.nonce io.versionWriteOk).2.2 with e | v
  · rw [hw] at h; cases h
  rw [hw] at h
  cases h
  obtain ⟨hpv, hn, hs, hu, -, hwr⟩ := writeLocalVersionMsg_eq_ok hw
  rw [hst] at hpv hs hu hwr ⊢
  exact ⟨v, m, rfl, hr, hpv, hn, hs, hu, hwr⟩

/-- An outbound negotiation of a peer that has not seen a version, when it
    succeeds: it wrote our version and then read and recorded the remote's. -/
theorem negotiateOutbound_eq_ok {g : Global} {p : Peer} {io : NegotiationIo}
    {x : Option MsgVersion} (hk : p.flags.versionKnown = false)
    (h : (negotiateOutboundProtocol g p io).2.2 = .ok x) :
    ∃ v, x = some v ∧ io.remote = .ok (.version v) ∧
      (writeLocalVersionMsg g p io.nowUnix io.nonce io.versionWriteOk).2.1.flags = p.flags ∧
      (negotiateOutboundProtocol g p io).2.1 =
        (recordRemoteVersion (writeLocalVersionMsg g p io.nowUnix io.nonce io.versionWriteOk).1
          (writeLocalVersionMsg g p io.nowUnix io.nonce io.versionWriteOk).2.1 v io.nowUnix).2 := by
  unfold negotiateOutboundProtocol at h ⊢
  dsimp only at h ⊢
  rcases hw : (writeLocalVersionMsg g p io.nowUnix io.nonce io.versionWriteOk).2.2 with e | va
  · rw [hw] at h; cases h
  rw [hw] at h
  dsimp only at h ⊢
  have hf := (writeLocalVersionMsg_flags g p io.nowUnix io.nonce io.versionWriteOk).2
  obtain ⟨hk', -⟩ | ⟨v, rfl, -, hr, hst⟩ := readRemoteVersionMsg_eq_ok h
  · rw [hf, hk] at hk'; cases hk'
  exact ⟨v, rfl, hr, hf, by rw [hst]⟩

/-- What the other side reads after a successful write on a fresh connection. -/
theorem firstWritten_writeMessage {p : Peer} (hw : p.written = []) (hd : p.link.disconnect = 0)
    (m : Msg) : firstWritten (writeMessage p m true).1 = .ok m := by
  simp [firstWritten, writeMessage, hw, hd]

/-! ## Two peers of this implementation -/

/-- `NewOutboundPeer` with its connection attached. -/
def dialer (c : Config) : Peer := (associateConnection (newPeerBase c false) true).1

/-- `NewInboundPeer` with its connection attached. -/
def acceptor (c : Config) : Peer := (associateConnection (newPeerBase c true) true).1

/-- Two peers of this implementation negotiating with each other over one
    connection, each in its own process: `a` dialled out, so it writes its version
    first; `b` accepted, so it reads first. Each reads the first message the other
    wrote, or the end of the stream. The result is `b`'s outcome, then `a`'s. -/
def crossNegotiate (ga : Global) (a : Peer) (gb : Global) (b : Peer) (ta tb : Int)
    (na nb : UInt64) :
    (Global × Peer × Except String (Option MsgVersion)) ×
      (Global × Peer × Except String (Option MsgVersion)) :=
  let rb := negotiate gb b ⟨firstWritten (writeLocalVersionMsg ga a ta na true).2.1, tb, nb, true, true⟩
  (rb, negotiate ga a ⟨firstWritten rb.2.1, ta, na, true, true⟩)

@[simp] theorem dialer_inbound (c : Config) : (dialer c).inbound = false := rfl
@[simp] theorem acceptor_inbound (c : Config) : (acceptor c).inbound = true := rfl
@[simp] theorem dialer_cfg (c : Config) : (dialer c).cfg = (newPeerBase c false).cfg := rfl
@[simp] theorem acceptor_cfg (c : Config) : (acceptor c).cfg = (newPeerBase c true).cfg := rfl

/-- Both ends start attached, with nothing written and no version seen, at the
    configured protocol version. -/
theorem dialer_fresh (c : Config) :
    (dialer c).written = [] ∧ (dialer c).link.disconnect = 0 ∧
      (dialer c).flags.versionKnown = false ∧
      (dialer c).flags.protocolVersion = (dialer c).cfg.protocolVersion := ⟨rfl, rfl, rfl, rfl⟩

/-- The same for the accepting end. -/
theorem acceptor_fresh (c : Config) :
    (acceptor c).written = [] ∧ (acceptor c).link.disconnect = 0 ∧
      (acceptor c).flags.versionKnown = false ∧
      (acceptor c).flags.protocolVersion = (acceptor c).cfg.protocolVersion := ⟨rfl, rfl, rfl, rfl⟩

/-- A failed `writeLocalVersionMsg` leaves the peer as it was: nothing written. -/
theorem writeLocalVersionMsg_eq_error {g : Global} {p : Peer} {t : Int} {n : UInt64} {w : Bool}
    {e : String} (h : (writeLocalVersionMsg g p t n w).2.2 = .error e) :
    (writeLocalVersionMsg g p t n w).2.1 = p := by
  unfold writeLocalVersionMsg at h ⊢
  dsimp only at h ⊢
  split at h
  · rfl
  · unfold writeMessage at h ⊢
    split_ifs at h ⊢
    rfl

/-- **TWO PEERS AGREE ON THE VERSION.** When a peer of this implementation dials
    another, in another process, and both negotiations succeed, each has seen the
    other's version and both settle on the same protocol version, the smaller of the
    two configured ones; each records the other's nonce, services and user agent. -/
theorem cross_negotiation_agrees (ca cb : Config) (ga gb : Global) (ta tb : Int)
    (na nb : UInt64)
    (hb : ∃ v, (crossNegotiate ga (dialer ca) gb (acceptor cb) ta tb na nb).1.2.2 = .ok v)
    (ha : ∃ v, (crossNegotiate ga (dialer ca) gb (acceptor cb) ta tb na nb).2.2.2 = .ok v) :
    let fb := (crossNegotiate ga (dialer ca) gb (acceptor cb) ta tb na nb).1.2.1.flags
    let fa := (crossNegotiate ga (dialer ca) gb (acceptor cb) ta tb na nb).2.2.1.flags
    fa.versionKnown = true ∧ fb.versionKnown = true ∧
      fa.protocolVersion =
        minUint32 (dialer ca).cfg.protocolVersion (acceptor cb).cfg.protocolVersion ∧
      fb.protocolVersion = fa.protocolVersion ∧
      fa.nonce = nb ∧ fb.nonce = na ∧ fa.services = (acceptor cb).cfg.services ∧
      fb.services = (dialer ca).cfg.services ∧ fa.userAgent = (acceptor cb).cfg.userAgent ∧
      fb.userAgent = (dialer ca).cfg.userAgent := by
  obtain ⟨hw0, hd0, hk0, hp0⟩ := dialer_fresh ca
  obtain ⟨hw1, hd1, hk1, hp1⟩ := acceptor_fresh cb
  obtain ⟨xb, hb⟩ := hb
  obtain ⟨xa, ha⟩ := ha
  simp only [crossNegotiate, negotiate, acceptor_inbound, dialer_inbound, if_true,
    Bool.false_eq_true, if_false] at hb ha ⊢
  -- the accepting side read the dialler's version and answered with its own
  obtain ⟨vb, m, rfl, hr, hpvb, hnb, hsb, hub, hstb⟩ := negotiateInbound_eq_ok hk1 hb
  have hm : ∃ va0, (writeLocalVersionMsg ga (dialer ca) ta na true).2.2 = .ok va0 ∧ m = va0 := by
    rcases hwa : (writeLocalVersionMsg ga (dialer ca) ta na true).2.2 with e | va0
    · rw [writeLocalVersionMsg_eq_error hwa] at hr
      simp [firstWritten, hw0] at hr
    · refine ⟨va0, rfl, ?_⟩
      rw [(writeLocalVersionMsg_eq_ok hwa).2.2.2.2.2, firstWritten_writeMessage hw0 hd0] at hr
      simpa using hr.symm
  obtain ⟨va0, hwa, rfl⟩ := hm
  obtain ⟨hpva, hna, hsa, hua, -, -⟩ := writeLocalVersionMsg_eq_ok hwa
  -- the dialler read that answer
  obtain ⟨va, rfl, hra, hfa, hsta⟩ := negotiateOutbound_eq_ok hk0 ha
  rw [hstb, firstWritten_writeMessage (by simp [recordRemoteVersion, hw1])
    (by simp [recordRemoteVersion, hd1])] at hra
  obtain rfl : vb = va := by simpa using hra
  rw [hsta, hstb]
  simp only [writeMessage_flags, recordRemoteVersion, hfa, hp0, hp1, dialer_cfg, acceptor_cfg]
    at hpvb hsb hub hpva hsa hua ⊢
  refine ⟨trivial, trivial, ?_, ?_, hnb, hna, hsb, hsa, hub, hua⟩
  · rw [hpvb]
  · rw [hpvb, hpva]; exact minUint32_comm _ _

/-- Two default peers in fresh processes, with nonces 1 and 2, agree. -/
theorem cross_negotiation_agrees_plain :
    let r := crossNegotiate freshGlobal (dialer plainConfig) freshGlobal (acceptor plainConfig)
      0 0 1 2
    (∃ v, r.1.2.2 = .ok v) ∧ (∃ v, r.2.2.2 = .ok v) ∧
      r.2.2.1.flags.versionKnown = true ∧ r.1.2.1.flags.versionKnown = true ∧
      r.2.2.1.flags.protocolVersion = minUint32 (dialer plainConfig).cfg.protocolVersion
        (acceptor plainConfig).cfg.protocolVersion ∧
      r.1.2.1.flags.protocolVersion = r.2.2.1.flags.protocolVersion ∧
      r.2.2.1.flags.nonce = 2 ∧ r.1.2.1.flags.nonce = 1 ∧
      r.2.2.1.flags.services = (acceptor plainConfig).cfg.services ∧
      r.1.2.1.flags.services = (dialer plainConfig).cfg.services ∧
      r.2.2.1.flags.userAgent = (acceptor plainConfig).cfg.userAgent ∧
      r.1.2.1.flags.userAgent = (dialer plainConfig).cfg.userAgent :=
  have hb : ∃ v, (crossNegotiate freshGlobal (dialer plainConfig) freshGlobal
      (acceptor plainConfig) 0 0 1 2).1.2.2 = .ok v := ⟨_, rfl⟩
  have ha : ∃ v, (crossNegotiate freshGlobal (dialer plainConfig) freshGlobal
      (acceptor plainConfig) 0 0 1 2).2.2.2 = .ok v := ⟨_, rfl⟩
  ⟨hb, ha, cross_negotiation_agrees plainConfig plainConfig freshGlobal freshGlobal 0 0 1 2 hb ha⟩

/-! ## When the exchange goes through -/

/-- A non-zero configured version is advertised as a non-zero wire value. -/
theorem toBitVec_ne_zero {x : UInt32} {b : BitVec 32} (hx : x ≠ 0) (hb : b = x.toBitVec) :
    b ≠ 0 := fun h => hx (UInt32.eq_of_toBitVec_eq (hb ▸ h))

/-- With a `NewestBlock` that does not fail, writing our version on a live
    connection succeeds and writes it. -/
theorem writeLocalVersionMsg_of_block {g : Global} {p : Peer} (t : Int) (n : UInt64)
    (hblk : ∀ e, p.cfg.newestBlock ≠ some (.error e)) (hd : p.link.disconnect = 0) :
    ∃ v, (writeLocalVersionMsg g p t n true).2.2 = .ok v ∧
      (writeLocalVersionMsg g p t n true).2.1 = { p with written := p.written ++ [.version v] } := by
  rcases hnb : p.cfg.newestBlock with _ | (e | ⟨_, h⟩)
  · exact ⟨_, by simp [writeLocalVersionMsg, localVersionMsg, hnb, writeMessage, hd]; rfl⟩
  · exact absurd hnb (hblk e)
  · exact ⟨_, by simp [writeLocalVersionMsg, localVersionMsg, hnb, writeMessage, hd]; rfl⟩

/-- A first version that is not ours, from a peer no listener refuses and whose
    version is not the zero pattern, is recorded and accepted. -/
theorem readRemoteVersionMsg_accepts {g : Global} {p : Peer} {m : MsgVersion} (t : Int) (w : Bool)
    (hk : p.flags.versionKnown = false)
    (hn : g.allowSelfConns = true ∨ m.nonce ∉ g.sentNonces.items)
    (hl : ∀ f, p.cfg.onVersion = some f → f m = none) (h0 : m.protocolVersion ≠ 0) :
    readRemoteVersionMsg g p (.ok (.version m)) t w =
      ((recordRemoteVersion g p m t).1, (recordRemoteVersion g p m t).2, .ok (some m)) := by
  have hself : (!g.allowSelfConns && g.sentNonces.contains m.nonce) = false := by
    rcases hn with hn | hn <;> simp [hn, Mru.contains]
  have hrej : versionRejection p.cfg m = none := by
    have hlt : ¬ ((⟨m.protocolVersion⟩ : UInt32) < minAcceptableProtocolVersion) := by
      rw [UInt32.lt_def, BitVec.lt_def]
      have : m.protocolVersion.toNat ≠ 0 := fun h => h0 (BitVec.eq_of_toNat_eq h)
      show ¬ m.protocolVersion.toNat < 1
      omega
    rcases hv : p.cfg.onVersion with _ | f <;> simp [versionRejection, hv, hl, hlt]
  simp only [readRemoteVersionMsg, hk, hself, hrej]
  rfl

/-- **A SELF-CONNECTION IS REFUSED.** When a peer dials its own process, with
    self-connections refused and a `NewestBlock` that does not fail, the accepting
    peer reads a version whose nonce the dialler has just put in the shared
    registry: it fails with the self-connection error before writing anything, and
    its `start` disconnects without launching a handler or queueing `verack`. The
    dialler then reads the end of the stream. -/
theorem self_dial_refused (ca cb : Config) (g : Global) (ta tb : Int) (na nb : UInt64)
    (hself : g.allowSelfConns = false) (hba : ∀ e, ca.newestBlock ≠ some (.error e)) :
    let wa := writeLocalVersionMsg g (dialer ca) ta na true
    let io : NegotiationIo := ⟨firstWritten wa.2.1, tb, nb, true, true⟩
    (negotiate wa.1 (acceptor cb) io).2.2 = .error selfConnReason ∧
      (negotiate wa.1 (acceptor cb) io).2.1.written = [] ∧
      (start wa.1 (acceptor cb) io false).err = some selfConnReason ∧
      (start wa.1 (acceptor cb) io false).handlersStarted = false ∧
      (start wa.1 (acceptor cb) io false).queued = [] ∧
      (start wa.1 (acceptor cb) io false).peer.link = disconnect (acceptor cb).link ∧
      (readRemoteVersionMsg (negotiate wa.1 (acceptor cb) io).1 wa.2.1
        (firstWritten (negotiate wa.1 (acceptor cb) io).2.1) ta true).2.2 =
        .error ReadError.eof.text := by
  dsimp only
  obtain ⟨hw0, hd0, hk0, -⟩ := dialer_fresh ca
  obtain ⟨hw1, -, hk1, -⟩ := acceptor_fresh cb
  obtain ⟨va, hwa, hsa⟩ := @writeLocalVersionMsg_of_block g (dialer ca) ta na hba hd0
  obtain ⟨-, hnva, -, -, hga, -⟩ := writeLocalVersionMsg_eq_ok hwa
  have hrb : negotiate (writeLocalVersionMsg g (dialer ca) ta na true).1 (acceptor cb)
      ⟨firstWritten (writeLocalVersionMsg g (dialer ca) ta na true).2.1, tb, nb, true, true⟩ =
      ((writeLocalVersionMsg g (dialer ca) ta na true).1, acceptor cb, .error selfConnReason) := by
    simp only [negotiate, acceptor_inbound, if_true, negotiateInboundProtocol, hsa, hw0,
      firstWritten, List.nil_append, List.head?_cons, readRemoteVersionMsg, hk1, hnva]
    simp [hga, hself, Mru.mem_add_self]
  obtain ⟨he, hs, hq, hl⟩ := start_inbound_of_error (acceptor_inbound cb) (by rw [hrb]) false
  refine ⟨by rw [hrb], by rw [hrb]; exact hw1, he, hs, hq, by rw [hl, hrb], ?_⟩
  rw [hrb]
  simp [firstWritten, hw1, readRemoteVersionMsg, hsa, hk0]

/-- A default peer dialling its own fresh process is refused. -/
theorem self_dial_refused_plain :
    (freshGlobal.allowSelfConns = false ∧ ∀ e, plainConfig.newestBlock ≠ some (.error e)) ∧
      let wa := writeLocalVersionMsg freshGlobal (dialer plainConfig) 0 1 true
      let io : NegotiationIo := ⟨firstWritten wa.2.1, 0, 2, true, true⟩
      (negotiate wa.1 (acceptor plainConfig) io).2.2 = .error selfConnReason ∧
        (negotiate wa.1 (acceptor plainConfig) io).2.1.written = [] ∧
        (start wa.1 (acceptor plainConfig) io false).err = some selfConnReason ∧
        (start wa.1 (acceptor plainConfig) io false).handlersStarted = false ∧
        (start wa.1 (acceptor plainConfig) io false).queued = [] ∧
        (start wa.1 (acceptor plainConfig) io false).peer.link =
          disconnect (acceptor plainConfig).link ∧
        (readRemoteVersionMsg (negotiate wa.1 (acceptor plainConfig) io).1 wa.2.1
          (firstWritten (negotiate wa.1 (acceptor plainConfig) io).2.1) 0 true).2.2 =
          .error ReadError.eof.text :=
  have hb : ∀ e, plainConfig.newestBlock ≠ some (.error e) := fun _ h => nomatch h
  ⟨⟨rfl, hb⟩, self_dial_refused plainConfig plainConfig freshGlobal 0 0 1 2 rfl hb⟩

end PeerHandshake
