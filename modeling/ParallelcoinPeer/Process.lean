import ParallelcoinPeer.InHandler

/-! # A process and its peers

    The package-level variables of the peer package are shared by every peer of a
    process: `sentNonces`, the registry of the nonces of the versions we built,
    `nodeCount`, the counter that numbers a peer when its remote version is
    recorded, and `AllowSelfConns`. `Process` holds them with the peers, and
    `procRun` runs any interleaving of new peers and of the peers' operations
    (`PeerOp`), one at a time as their locks serialise them.

    * `peer_ids_distinct`: until the counter wraps, two peers that know their
      remote version never share an id. It rests on one step lemma for the acting
      peer, `applyOp_peerId`, and the invariant `IdInv` over all peers;
    * `self_connection_window`: the self-connection check of `readRemoteVersionMsg`
      fires exactly for the nonces registered by the run and not pushed out of the
      registry since, that is, with fewer than 50 distinct nonces registered after
      them. A process with more versions in flight than that can connect to
      itself undetected. -/

namespace PeerProcess

open PeerWire PeerMru PeerState PeerNegotiate PeerInHandler

/-- A process: the package-level state its peers share, and the peers, in the order
    they were made. -/
structure Process where
  global : Global
  peers : List Peer

/-- One step of a process: a peer is made (`NewInboundPeer`, `NewOutboundPeer`), or
    the peer at an index takes one operation on its locked state. -/
inductive ProcOp where
  | newPeer (cfg : Config) (inbound : Bool)
  | onPeer (i : Nat) (op : PeerOp)

/-- One step; an operation on a peer the process does not have does nothing. -/
def procStep (s : Process) : ProcOp → Process
  | .newPeer cfg inbound => { s with peers := s.peers ++ [newPeerBase cfg inbound] }
  | .onPeer i op =>
    match s.peers[i]? with
    | none => s
    | some p =>
      let r := applyOp (s.global, p) op
      { global := r.1, peers := s.peers.set i r.2 }

/-- A whole run: any interleaving of the peers' steps and of new peers. -/
def procRun (s : Process) (ops : List ProcOp) : Process := ops.foldl procStep s

@[simp] theorem procRun_nil (s : Process) : procRun s [] = s := rfl

@[simp] theorem procRun_cons (s : Process) (op : ProcOp) (ops : List ProcOp) :
    procRun s (op :: ops) = procRun (procStep s op) ops := rfl

/-! ## Peer ids -/

/-- The id a peer carries once its version is known. -/
def peerId (p : Peer) : Option (BitVec 32) :=
  if p.flags.versionKnown then some p.flags.id else none

/-- Reading the remote version numbers the peer when it records the version, and
    touches neither the counter nor the id otherwise. -/
theorem readRemoteVersionMsg_peerId (g : Global) (p : Peer) (r : ReadResult) (t : Int)
    (w : Bool) :
    ((readRemoteVersionMsg g p r t w).1.nodeCount = g.nodeCount ∧
        peerId (readRemoteVersionMsg g p r t w).2.1 = peerId p) ∨
      (peerId p = none ∧ (readRemoteVersionMsg g p r t w).1.nodeCount = g.nodeCount + 1 ∧
        peerId (readRemoteVersionMsg g p r t w).2.1 = some (g.nodeCount + 1)) := by
  unfold readRemoteVersionMsg
  split_ifs with hk
  · exact .inl ⟨rfl, rfl⟩
  · split
    · exact .inl ⟨rfl, rfl⟩
    · split_ifs
      · exact .inl ⟨rfl, rfl⟩
      · split <;> exact .inr ⟨by simp [peerId, hk], rfl, by simp [peerId, recordRemoteVersion]⟩
    · exact .inl ⟨rfl, by simp [peerId]⟩

/-- `localVersionMsg` registers the nonce exactly when it builds a version. -/
theorem localVersionMsg_global (g : Global) (p : Peer) (t : Int) (n : UInt64) :
    (localVersionMsg g p t n).1 =
      if (localVersionMsg g p t n).2.isOk then { g with sentNonces := g.sentNonces.add n }
      else g := by
  unfold localVersionMsg
  split <;> split <;> simp_all [Except.isOk, Except.toBool]

/-- Writing our version changes the process state as building it does. -/
theorem writeLocalVersionMsg_global (g : Global) (p : Peer) (t : Int) (n : UInt64)
    (w : Bool) : (writeLocalVersionMsg g p t n w).1 = (localVersionMsg g p t n).1 := by
  unfold writeLocalVersionMsg
  dsimp only
  split <;> rfl

/-- Writing our version leaves the counter. -/
theorem writeLocalVersionMsg_nodeCount (g : Global) (p : Peer) (t : Int) (n : UInt64)
    (w : Bool) : (writeLocalVersionMsg g p t n w).1.nodeCount = g.nodeCount := by
  rw [writeLocalVersionMsg_global, localVersionMsg_global]
  split <;> rfl

/-- A received message leaves the id. -/
theorem inHandleMessage_peerId (p : Peer) (m : Msg) (t : Int) :
    peerId (inHandleMessage p m t).peer = peerId p := by
  unfold inHandleMessage
  split <;> (try split_ifs) <;> simp [peerId]

/-- What one operation does to the id counter and the acting peer's id: nothing, or
    it records a first version and numbers the peer with the next count. -/
theorem applyOp_peerId (g : Global) (p : Peer) (op : PeerOp) :
    ((applyOp (g, p) op).1.nodeCount = g.nodeCount ∧ peerId (applyOp (g, p) op).2 = peerId p) ∨
      (peerId p = none ∧ (applyOp (g, p) op).1.nodeCount = g.nodeCount + 1 ∧
        peerId (applyOp (g, p) op).2 = some (g.nodeCount + 1)) := by
  cases op with
  | readRemoteVersion r t w => exact readRemoteVersionMsg_peerId g p r t w
  | writeLocalVersion t n w =>
      exact .inl ⟨writeLocalVersionMsg_nodeCount _ _ _ _ _, by
        simp [applyOp, peerId, (writeLocalVersionMsg_flags _ _ _ _ _).2]⟩
  | receive m t => exact .inl ⟨rfl, inHandleMessage_peerId _ _ _⟩
  | sendPing n t => exact .inl ⟨rfl, by simp only [applyOp, recordPing]; split_ifs <;> rfl⟩
  | write m ok => exact .inl ⟨rfl, by simp [applyOp, peerId]⟩
  | updateLastBlockHeight h => exact .inl ⟨rfl, rfl⟩
  | updateLastAnnouncedBlock h => exact .inl ⟨rfl, rfl⟩
  | disconnect => exact .inl ⟨rfl, rfl⟩

/-- The ids of a process: every numbered peer's id lies between 1 and the counter,
    and no two peers share one. -/
structure IdInv (s : Process) : Prop where
  range : ∀ (i : Nat) k, s.peers[i]?.bind peerId = some k →
    0 < k.toNat ∧ k.toNat ≤ s.global.nodeCount.toNat
  inj : ∀ (i j : Nat) k, s.peers[i]?.bind peerId = some k → s.peers[j]?.bind peerId = some k →
    i = j

/-- The invariant reads only the ids and the counter. -/
theorem IdInv.of_ids {s s' : Process} (hs : IdInv s)
    (he : ∀ j : Nat, s'.peers[j]?.bind peerId = s.peers[j]?.bind peerId)
    (hc : s'.global.nodeCount = s.global.nodeCount) : IdInv s' :=
  ⟨fun j k h => by rw [hc]; exact hs.range j k (by rw [← he j]; exact h),
    fun j1 j2 k h1 h2 => hs.inj j1 j2 k (by rw [← he j1]; exact h1) (by rw [← he j2]; exact h2)⟩

/-- A new peer has no id yet. -/
theorem bind_peerId_append {l : List Peer} {x : Peer} (hx : peerId x = none) (j : Nat) :
    (l ++ [x])[j]?.bind peerId = l[j]?.bind peerId := by
  rcases Nat.lt_or_ge j l.length with h | h
  · rw [List.getElem?_append_left h]
  · rw [List.getElem?_append_right h, List.getElem?_eq_none h]
    cases j - l.length <;> simp [hx]

/-- Replacing a peer: its index reads the new peer's id. -/
theorem bind_peerId_set {l : List Peer} {i : Nat} {p : Peer} (hi : l[i]? = some p) (a : Peer)
    (j : Nat) : (l.set i a)[j]?.bind peerId = if i = j then peerId a else l[j]?.bind peerId := by
  split_ifs with h
  · subst h
    rw [List.getElem?_set_self (List.getElem?_eq_some_iff.1 hi).1]
    rfl
  · rw [List.getElem?_set_ne h]

/-- Replacing a peer by one with the same id leaves every index's id. -/
theorem bind_peerId_set_same {l : List Peer} {i : Nat} {p a : Peer} (hi : l[i]? = some p)
    (ha : peerId a = peerId p) (j : Nat) : (l.set i a)[j]?.bind peerId = l[j]?.bind peerId := by
  rw [bind_peerId_set hi]
  split_ifs with h
  · subst h; rw [hi, ha]; rfl
  · rfl

/-- Below the wrap the counter's successor is one more. -/
theorem toNat_succ {c : BitVec 32} (h : c.toNat + 1 < 2 ^ 32) : (c + 1).toNat = c.toNat + 1 := by
  rw [BitVec.toNat_add]; simp; omega

/-- **STEP.** Below the wrap of the counter, every step keeps the ids apart and moves
    the counter by at most one. -/
theorem IdInv.procStep {s : Process} (hs : IdInv s) (op : ProcOp)
    (hb : s.global.nodeCount.toNat + 1 < 2 ^ 32) :
    IdInv (procStep s op) ∧
      (procStep s op).global.nodeCount.toNat ≤ s.global.nodeCount.toNat + 1 := by
  cases op with
  | newPeer cfg inbound => exact ⟨hs.of_ids (bind_peerId_append rfl) rfl, Nat.le_succ _⟩
  | onPeer i op =>
      rcases hp : s.peers[i]? with _ | p
      · simp only [PeerProcess.procStep, hp]; exact ⟨hs, Nat.le_succ _⟩
      · simp only [PeerProcess.procStep, hp]
        rcases applyOp_peerId s.global p op with ⟨hc, hid⟩ | ⟨-, hc, hid⟩
        · exact ⟨hs.of_ids (bind_peerId_set_same hp hid) hc, by rw [hc]; omega⟩
        · have hsucc := toNat_succ hb
          refine ⟨⟨fun j k h => ?_, fun j1 j2 k h1 h2 => ?_⟩, by rw [hc]; omega⟩
          · rw [bind_peerId_set hp, hid] at h
            rw [hc]
            split_ifs at h with hij
            · cases h; omega
            · have := hs.range j k h; omega
          · rw [bind_peerId_set hp, hid] at h1 h2
            split_ifs at h1 h2 with hi1 hi2 hi2
            · exact hi1.symm.trans hi2
            · cases h1; have := hs.range j2 _ h2; omega
            · cases h2; have := hs.range j1 _ h1; omega
            · exact hs.inj j1 j2 k h1 h2

/-- **RUN.** Along a run too short to wrap the counter, the ids stay apart and the
    counter grows by at most one a step. -/
theorem IdInv.procRun {s : Process} (hs : IdInv s) (ops : List ProcOp)
    (hb : s.global.nodeCount.toNat + ops.length < 2 ^ 32) :
    IdInv (procRun s ops) ∧
      (procRun s ops).global.nodeCount.toNat ≤ s.global.nodeCount.toNat + ops.length := by
  induction ops generalizing s with
  | nil => exact ⟨hs, Nat.le_add_right _ _⟩
  | cons op ops ih =>
      rw [List.length_cons] at hb
      obtain ⟨hs', hc⟩ := hs.procStep op (by omega)
      obtain ⟨h1, h2⟩ := ih hs' (by omega)
      rw [procRun_cons, List.length_cons]
      exact ⟨h1, by omega⟩

/-- **NO TWO PEERS SHARE AN ID.** In a process that has numbered no peer yet, over any
    interleaving of fewer than `2^32` steps of any number of peers, made at any time:
    two peers whose remote version is known have the same id only if they are the
    same peer, and every such id lies between 1 and the number of versions the
    process has recorded.

    The id is Go's signed `int32`, read here with `toNat`. The two readings agree: the
    counter advances once per peer, on the step that makes its remote version known,
    and that peer needs a `newPeer` step of its own before it, so fewer than `2^32`
    steps number fewer than `2^31` peers and no id reaches the sign bit. -/
theorem peer_ids_distinct (g : Global) (hg : g.nodeCount = 0) (ops : List ProcOp)
    (hb : ops.length < 2 ^ 32) (i j : Nat) (p q : Peer)
    (hp : (procRun ⟨g, []⟩ ops).peers[i]? = some p)
    (hq : (procRun ⟨g, []⟩ ops).peers[j]? = some q)
    (hkp : p.flags.versionKnown = true) (hkq : q.flags.versionKnown = true) :
    (p.flags.id = q.flags.id ↔ i = j) ∧ 0 < p.flags.id.toNat ∧
      p.flags.id.toNat ≤ (procRun ⟨g, []⟩ ops).global.nodeCount.toNat := by
  have h0 : IdInv ⟨g, []⟩ := ⟨fun _ _ h => by simp at h, fun _ _ _ h => by simp at h⟩
  obtain ⟨hs, -⟩ := h0.procRun ops (by simp [hg]; omega)
  have hpi : (procRun ⟨g, []⟩ ops).peers[i]?.bind peerId = some p.flags.id := by
    simp [hp, peerId, hkp]
  have hqj : (procRun ⟨g, []⟩ ops).peers[j]?.bind peerId = some q.flags.id := by
    simp [hq, peerId, hkq]
  refine ⟨⟨fun he => hs.inj i j _ hpi (he ▸ hqj), fun hij => ?_⟩, hs.range i _ hpi⟩
  subst hij
  rw [hp] at hq
  cases hq
  rfl

/-- A version message with nonce 7. -/
def sampleVersion : MsgVersion := ⟨70013, 0, 0, 7, "", 0, false⟩

/-- Two accepted peers of one process, each reading a first version, the second made
    first to read. -/
def twoNumbered : List ProcOp :=
  [.newPeer plainConfig true, .newPeer plainConfig true,
    .onPeer 1 (.readRemoteVersion (.ok (.version sampleVersion)) 0 true),
    .onPeer 0 (.readRemoteVersion (.ok (.version sampleVersion)) 0 true)]

/-- Two accepted peers of a fresh process, numbered in the order they read. -/
theorem peer_ids_distinct_two :
    let s := procRun ⟨freshGlobal, []⟩ twoNumbered
    let p := s.peers[0]?.getD (newPeerBase plainConfig true)
    let q := s.peers[1]?.getD (newPeerBase plainConfig true)
    (freshGlobal.nodeCount = 0 ∧ twoNumbered.length < 2 ^ 32 ∧ s.peers[0]? = some p ∧
        s.peers[1]? = some q ∧ p.flags.versionKnown = true ∧ q.flags.versionKnown = true) ∧
      (p.flags.id = q.flags.id ↔ 0 = 1) ∧ 0 < p.flags.id.toNat ∧
        p.flags.id.toNat ≤ s.global.nodeCount.toNat :=
  ⟨⟨rfl, by decide, rfl, rfl, rfl, rfl⟩,
    peer_ids_distinct freshGlobal rfl twoNumbered (by decide) 0 1 _ _ rfl rfl rfl rfl⟩

/-! ## The sent-nonce registry -/

/-- The nonces a step registers in `SentNonces`: the one of every version
    `localVersionMsg` builds. -/
def registered (s : Process) : ProcOp → List UInt64
  | .onPeer i (.writeLocalVersion t n _) =>
    match s.peers[i]? with
    | some p => if (localVersionMsg s.global p t n).2.isOk then [n] else []
    | none => []
  | _ => []

/-- The nonces a run registers, oldest first. -/
def sentLog : Process → List ProcOp → List UInt64
  | _, [] => []
  | s, op :: ops => registered s op ++ sentLog (procStep s op) ops

/-- Reading the remote version leaves the registry and the switch. -/
theorem readRemoteVersionMsg_global (g : Global) (p : Peer) (r : ReadResult) (t : Int)
    (w : Bool) : (readRemoteVersionMsg g p r t w).1.sentNonces = g.sentNonces ∧
      (readRemoteVersionMsg g p r t w).1.allowSelfConns = g.allowSelfConns := by
  unfold readRemoteVersionMsg
  split_ifs
  · exact ⟨rfl, rfl⟩
  · split
    · exact ⟨rfl, rfl⟩
    · split_ifs
      · exact ⟨rfl, rfl⟩
      · split <;> exact ⟨rfl, rfl⟩
    · exact ⟨rfl, rfl⟩

/-- One step registers what `registered` says and never touches `AllowSelfConns`. -/
theorem procStep_sentNonces (s : Process) (op : ProcOp) :
    (procStep s op).global.sentNonces = (registered s op).foldl Mru.add s.global.sentNonces ∧
      (procStep s op).global.allowSelfConns = s.global.allowSelfConns := by
  cases op with
  | newPeer cfg inbound => exact ⟨rfl, rfl⟩
  | onPeer i op =>
      rcases hp : s.peers[i]? with _ | p
      · cases op <;> simp [procStep, registered, hp]
      · cases op with
        | readRemoteVersion r t w =>
            simpa [procStep, registered, hp, applyOp] using readRemoteVersionMsg_global _ _ r t w
        | writeLocalVersion t n w =>
            simp only [procStep, registered, hp, applyOp, writeLocalVersionMsg_global]
            rw [localVersionMsg_global]
            split <;> exact ⟨rfl, rfl⟩
        | _ => simp [procStep, registered, hp, applyOp]

/-- **RUN.** The registry after a run is the first one with the run's nonces
    inserted in order. -/
theorem procRun_sentNonces (s : Process) (ops : List ProcOp) :
    (procRun s ops).global.sentNonces = (sentLog s ops).foldl Mru.add s.global.sentNonces ∧
      (procRun s ops).global.allowSelfConns = s.global.allowSelfConns := by
  induction ops generalizing s with
  | nil => exact ⟨rfl, rfl⟩
  | cons op ops ih =>
      obtain ⟨h1, h2⟩ := procStep_sentNonces s op
      rw [procRun_cons, sentLog, List.foldl_append, ← h1, ← h2]
      exact ih _

/-- **A SELF-CONNECTION IS CAUGHT ONLY WITHIN THE LAST 50 NONCES.** In a process that
    refuses self-connections and starts with an empty registry, after any run of its
    peers, a peer that has not seen a version refuses a version as a self-connection,
    recording and writing nothing, exactly when its nonce was registered by a version
    built in the run and fewer than 50 distinct nonces were registered after that
    nonce's last registration. -/
theorem self_connection_window (g : Global) (ps : List Peer)
    (hg : g.sentNonces = Mru.empty 50 (by decide)) (hself : g.allowSelfConns = false)
    (ops : List ProcOp) (p : Peer) (hk : p.flags.versionKnown = false) (m : MsgVersion)
    (t : Int) (w : Bool) :
    readRemoteVersionMsg (procRun ⟨g, ps⟩ ops).global p (.ok (.version m)) t w =
        ((procRun ⟨g, ps⟩ ops).global, p, .error selfConnReason) ↔
      ∃ pre suf, sentLog ⟨g, ps⟩ ops = pre ++ m.nonce :: suf ∧ m.nonce ∉ suf ∧
        suf.toFinset.card < 50 := by
  obtain ⟨hs, ha⟩ := procRun_sentNonces ⟨g, ps⟩ ops
  dsimp only at hs ha
  rw [← Mru.mem_empty_foldl_add 50 (by decide), ← hg, ← hs, ← Mru.contains_iff]
  unfold readRemoteVersionMsg
  rw [if_neg (by simp [hk]), ha, hself]
  by_cases hc : (procRun ⟨g, ps⟩ ops).global.sentNonces.contains m.nonce = true
  · simp [hc]
  · simp only [Bool.eq_false_iff.2 hc, Bool.not_false, Bool.and_false, Bool.false_eq_true,
      if_false, iff_false]
    intro h
    have hv := congrArg (fun x => x.2.1.flags.versionKnown) h
    revert hv
    split <;> simp [recordRemoteVersion, hk]

/-- A dialler writes its version with nonce 5 in a fresh process: another peer of the
    process then refuses that version. -/
def dialOut : List ProcOp :=
  [.newPeer plainConfig false, .onPeer 0 (.writeLocalVersion 0 5 true)]

/-- The dialler's own nonce comes back to its process. -/
theorem self_connection_window_dial_out :
    (freshGlobal.sentNonces = Mru.empty 50 (by decide) ∧ freshGlobal.allowSelfConns = false ∧
        (newPeerBase plainConfig true).flags.versionKnown = false) ∧
      (readRemoteVersionMsg (procRun ⟨freshGlobal, []⟩ dialOut).global
          (newPeerBase plainConfig true) (.ok (.version { sampleVersion with nonce := 5 })) 0 true =
          ((procRun ⟨freshGlobal, []⟩ dialOut).global, newPeerBase plainConfig true,
            .error selfConnReason) ↔
        ∃ pre suf, sentLog ⟨freshGlobal, []⟩ dialOut = pre ++ 5 :: suf ∧ (5 : UInt64) ∉ suf ∧
          suf.toFinset.card < 50) :=
  ⟨⟨rfl, rfl, rfl⟩, self_connection_window freshGlobal [] rfl rfl dialOut _ rfl _ 0 true⟩

end PeerProcess
