import ParallelcoinPeer.Peer

/-! # The output pipeline: `queueHandler`, `outHandler` and their callers

    Outbound messages enter through `QueueMessageWithEncoding` (direct) and
    `QueueInventory` (trickled). `queueHandler` multiplexes them into the one-slot
    `sendQueue`, parking what arrives while `outHandler` is busy in `pendingMsgs`
    (the `waiting` flag), and `outHandler` writes one message at a time, answering
    each success with a token on the one-slot `sendDoneQueue`. At `quit` both
    drain what they hold and signal the completion channels.

    `Pipeline` is the whole of it as one state: the callers that passed their
    `Connected` check and are about to send, the channels as lists, each handler's
    locals and program point, and ghost records of what moved where. `step` is one
    atomic move of one task, `none` when the move is not enabled. A channel that
    can be full (`outputQueue`, `outputInvChan`) blocks its sender; the one-slot
    `sendQueue` and `sendDoneQueue` are lists, and the invariants show they never
    hold more than their slot.

    The trickle tick runs as one step. The stall events `outHandler` sends, the
    ping bookkeeping and the byte counters are left to their own models. -/

namespace PeerPipeline

open PeerWire PeerMru PeerState

/-- `outputBufferSize`: the capacity of `outputQueue` and `outputInvChan`. -/
def outputBufferSize : Nat := 1000

/-- `maxInvTrickleSize`. -/
def maxInvTrickleSize : Nat := 5000

/-- `maxKnownInventory`. -/
def maxKnownInventory : Nat := 30000

/-- `outMsg`: a message, the caller's completion channel if any (named by a number),
    and the encoding. -/
structure OutMsg where
  msg : Msg
  doneChan : Option Nat
  encoding : MessageEncoding
  deriving DecidableEq, Repr

/-- An `inv` the queue handler builds itself: no completion channel, base encoding. -/
def invPacket (invList : List InvVect) : OutMsg := ⟨.inv invList, none, .base⟩

/-- Where `queueHandler` is: its main loop, its cleanup loop, or gone. -/
inductive QueuePhase where
  | running | cleanup | exited
  deriving DecidableEq, Repr

/-- Where `outHandler` is: its main loop, inside the case that writes a message,
    waiting for `queueQuit`, its cleanup loop, or gone. -/
inductive OutPhase where
  | running
  | writing (m : OutMsg)
  | waitQueueQuit
  | cleanup
  | exited
  deriving DecidableEq, Repr

/-- The pipeline of one peer. The fields after `oPhase` are ghost records:
    `requested` the messages given to `QueueMessageWithEncoding`; `submitted` the
    sends on `outputQueue`; `received` and `flushed` what `queueHandler` took from
    it in its main loop and in its cleanup; `queued` what it passed to
    `queuePacket`; `taken` what `outHandler` took from `sendQueue`;
    `drained` the parked messages `queueHandler` dropped at `quit`; `signals` the
    completion channels signalled; `handed` and `acked` the sends on `sendQueue`
    and the tokens consumed; `dropped` the failed writes; `discarded` the messages
    `outHandler`'s cleanup took unwritten; `emitted` the inventory lists of the
    `inv` messages `queueHandler` built. -/
structure Pipeline where
  link : Link
  versionKnown : Bool
  knownInventory : Mru InvVect
  senders : List OutMsg
  invSenders : List InvVect
  outputQueue : List OutMsg
  outputInvChan : List InvVect
  sendQueue : List OutMsg
  sendDoneQueue : Nat
  queueQuit : Bool
  outQuit : Bool
  pendingMsgs : List OutMsg
  invSendQueue : List InvVect
  waiting : Bool
  qPhase : QueuePhase
  oPhase : OutPhase
  requested : List OutMsg
  submitted : List OutMsg
  received : List OutMsg
  flushed : List OutMsg
  queued : List OutMsg
  taken : List OutMsg
  drained : List OutMsg
  signals : List Nat
  handed : Nat
  acked : Nat
  dropped : Nat
  discarded : Nat
  emitted : List (List InvVect)

/-- The pipeline as `start` launches it on an attached connection. -/
def pipelineInit (versionKnown : Bool) : Pipeline :=
  { link := { connected := 1, disconnect := 0, closes := 0, quits := 0 }
    versionKnown, knownInventory := Mru.empty maxKnownInventory (by decide)
    senders := [], invSenders := [], outputQueue := [], outputInvChan := [], sendQueue := []
    sendDoneQueue := 0, queueQuit := false, outQuit := false, pendingMsgs := []
    invSendQueue := [], waiting := false, qPhase := .running, oPhase := .running
    requested := [], submitted := [], received := [], flushed := [], queued := [], taken := []
    drained := [], signals := [], handed := 0, acked := 0, dropped := 0, discarded := 0
    emitted := [] }

/-- The quit signal has fired. -/
def quitClosed (s : Pipeline) : Bool := 0 < s.link.quits

/-- Signal a completion channel, if the message has one. -/
def signal (signals : List Nat) (m : OutMsg) : List Nat := signals ++ m.doneChan.toList

/-- `queuePacket`: hand the message to an idle `outHandler`, else park it; either
    way `queueHandler` is waiting afterwards. -/
def queuePacket (s : Pipeline) (m : OutMsg) : Pipeline :=
  if s.waiting then { s with pendingMsgs := s.pendingMsgs ++ [m], queued := s.queued ++ [m] }
  else { s with sendQueue := s.sendQueue ++ [m], handed := s.handed + 1, waiting := true
                queued := s.queued ++ [m] }

/-- `queuePacket` as one record update. -/
theorem queuePacket_eq (s : Pipeline) (m : OutMsg) :
    queuePacket s m =
      { s with
        pendingMsgs := if s.waiting then s.pendingMsgs ++ [m] else s.pendingMsgs
        sendQueue := if s.waiting then s.sendQueue else s.sendQueue ++ [m]
        handed := if s.waiting then s.handed else s.handed + 1
        waiting := true
        queued := s.queued ++ [m] } := by
  unfold queuePacket; cases s.waiting <;> rfl

/-- `invMsg.AddInvVect(iv)` with its error only logged. -/
def appendInv (invList : List InvVect) (iv : InvVect) : List InvVect :=
  match addInvVect invList iv with
  | .ok l => l
  | .error _ => invList

/-- The trickle loop over the queued inventory: skip what became known, add the
    rest to the current message and to the known set, and close the message when
    it reaches `maxInvTrickleSize`. Returns the known set, the closed messages in
    order, and the open one. -/
def trickleLoop (known : Mru InvVect) (cur : List InvVect) :
    List InvVect → Mru InvVect × List (List InvVect) × List InvVect
  | [] => (known, [], cur)
  | iv :: rest =>
    if known.contains iv then trickleLoop known cur rest
    else
      let cur' := appendInv cur iv
      if cur'.length ≥ maxInvTrickleSize then
        let r := trickleLoop (known.add iv) [] rest
        (r.1, cur' :: r.2.1, r.2.2)
      else trickleLoop (known.add iv) cur' rest

/-- The `inv` messages one trickle tick sends: the closed ones, then the open one
    if it is not empty. -/
def trickleMsgs (r : Mru InvVect × List (List InvVect) × List InvVect) : List (List InvVect) :=
  r.2.1 ++ if r.2.2.length > 0 then [r.2.2] else []

/-- Pass each built `inv` to `queuePacket`, in order, recording it as emitted. -/
def queueInvs (s : Pipeline) (ms : List (List InvVect)) : Pipeline :=
  ms.foldl (fun s l => queuePacket { s with emitted := s.emitted ++ [l] } (invPacket l)) s

theorem queueInvs_cons (s : Pipeline) (l : List InvVect) (ms : List (List InvVect)) :
    queueInvs s (l :: ms) =
      queueInvs (queuePacket { s with emitted := s.emitted ++ [l] } (invPacket l)) ms := rfl

@[simp] theorem queueInvs_knownInventory (s : Pipeline) (ms : List (List InvVect)) :
    (queueInvs s ms).knownInventory = s.knownInventory := by
  induction ms generalizing s with
  | nil => rfl
  | cons l ms ih => rw [queueInvs_cons, ih, queuePacket_eq]

@[simp] theorem queueInvs_emitted (s : Pipeline) (ms : List (List InvVect)) :
    (queueInvs s ms).emitted = s.emitted ++ ms := by
  induction ms generalizing s with
  | nil => simp [queueInvs]
  | cons l ms ih => rw [queueInvs_cons, ih, queuePacket_eq]; simp

@[simp] theorem queueInvs_invSendQueue (s : Pipeline) (ms : List (List InvVect)) :
    (queueInvs s ms).invSendQueue = s.invSendQueue := by
  induction ms generalizing s with
  | nil => rfl
  | cons l ms ih => rw [queueInvs_cons, ih, queuePacket_eq]

theorem queueInvs_queued (s : Pipeline) (ms : List (List InvVect)) :
    (queueInvs s ms).queued = s.queued ++ ms.map invPacket := by
  induction ms generalizing s with
  | nil => simp [queueInvs]
  | cons l ms ih => rw [queueInvs_cons, ih, queuePacket_eq]; simp

/-- The moves of the tasks around the pipeline. `sendOutput i` and `sendInv i` let
    the `i`-th caller that passed its check complete its channel send. -/
inductive Action where
  | queueMessage (m : OutMsg)
  | sendOutput (i : Nat)
  | queueInventory (iv : InvVect)
  | sendInv (i : Nat)
  | addKnownInventory (iv : InvVect)
  | disconnect
  | qOutput
  | qSendDone
  | qInv
  | qTrickle
  | qQuit
  | qCleanupOutput
  | qCleanupInv
  | qExit
  | oTake
  | oWrite (ok : Bool)
  | oQuit
  | oQueueQuit
  | oCleanup
  | oExit

/-- `QueueMessageWithEncoding`'s check: a peer that is not `Connected` gets its
    completion channel signalled and nothing queued; otherwise the caller goes on
    to its send. -/
def queueMessage (s : Pipeline) (m : OutMsg) : Pipeline :=
  if connected s.link then { s with senders := s.senders ++ [m] }
  else { s with signals := signal s.signals m }

/-- `QueueInventory`'s checks: known inventory and a disconnected peer are dropped. -/
def queueInventory (s : Pipeline) (iv : InvVect) : Pipeline :=
  if s.knownInventory.contains iv then s
  else if connected s.link then { s with invSenders := s.invSenders ++ [iv] }
  else s

/-- The receive case of `outputInvChan`: nothing before the version is known; a
    block is sent at once in an `inv` of its own; anything else waits for the
    trickle. -/
def receiveInv (s : Pipeline) (iv : InvVect) : Pipeline :=
  if s.versionKnown then
    if iv.type = .block ∨ iv.type = .witnessBlock then queueInvs s [appendInv [] iv]
    else { s with invSendQueue := s.invSendQueue ++ [iv] }
  else s

/-- The trickle tick: nothing while disconnecting or with nothing queued; else run
    the loop and queue what it built. -/
def trickleTick (s : Pipeline) : Pipeline :=
  if s.link.disconnect ≠ 0 ∨ s.invSendQueue = [] then s
  else
    let r := trickleLoop s.knownInventory [] s.invSendQueue
    queueInvs { s with knownInventory := r.1, invSendQueue := [] } (trickleMsgs r)

/-- The token case: pass on the next parked message, or stop waiting. -/
def sendDone (s : Pipeline) : Pipeline :=
  let s := { s with sendDoneQueue := s.sendDoneQueue - 1, acked := s.acked + 1 }
  match s.pendingMsgs with
  | [] => { s with waiting := false }
  | m :: rest =>
    { s with pendingMsgs := rest, sendQueue := s.sendQueue ++ [m], handed := s.handed + 1 }

/-- The end of `outHandler`'s write case. `writeMessage` writes nothing once a
    disconnect began and counts that as success; a success signals the sender
    and sends a token, a failure disconnects and signals the sender only. -/
def finishWrite (s : Pipeline) (m : OutMsg) (ok : Bool) : Pipeline :=
  if s.link.disconnect ≠ 0 ∨ ok then
    { s with signals := signal s.signals m, sendDoneQueue := s.sendDoneQueue + 1
             oPhase := .running }
  else
    { s with link := disconnect s.link, signals := signal s.signals m, dropped := s.dropped + 1
             oPhase := .running }

/-! ## Where the handlers are -/

/-- The handlers' program points, and whether `queueQuit` is closed. -/
def Pipeline.phases (s : Pipeline) : QueuePhase × OutPhase × Bool :=
  (s.qPhase, s.oPhase, s.queueQuit)

@[simp] theorem queuePacket_phases (s : Pipeline) (m : OutMsg) :
    (queuePacket s m).phases = s.phases := by
  rw [queuePacket_eq]; rfl

@[simp] theorem queueInvs_phases (s : Pipeline) (ms : List (List InvVect)) :
    (queueInvs s ms).phases = s.phases := by
  induction ms generalizing s with
  | nil => rfl
  | cons l ms ih => rw [queueInvs_cons, ih, queuePacket_phases]; rfl

@[simp] theorem receiveInv_phases (s : Pipeline) (iv : InvVect) :
    (receiveInv s iv).phases = s.phases := by
  unfold receiveInv; split_ifs <;> first | rfl | exact queueInvs_phases _ _

@[simp] theorem trickleTick_phases (s : Pipeline) : (trickleTick s).phases = s.phases := by
  unfold trickleTick; split_ifs <;> first | rfl | exact queueInvs_phases _ _

@[simp] theorem sendDone_phases (s : Pipeline) : (sendDone s).phases = s.phases := by
  cases h : s.pendingMsgs <;> simp only [sendDone, h] <;> rfl

/-- One move; `none` when it is not enabled. -/
def step (s : Pipeline) : Action → Option Pipeline
  | .queueMessage m => some (queueMessage { s with requested := s.requested ++ [m] } m)
  | .sendOutput i =>
    match s.senders[i]? with
    | some m =>
      if s.outputQueue.length < outputBufferSize then
        some { s with senders := s.senders.eraseIdx i, outputQueue := s.outputQueue ++ [m]
                      submitted := s.submitted ++ [m] }
      else none
    | none => none
  | .queueInventory iv => some (queueInventory s iv)
  | .sendInv i =>
    match s.invSenders[i]? with
    | some iv =>
      if s.outputInvChan.length < outputBufferSize then
        some { s with invSenders := s.invSenders.eraseIdx i
                      outputInvChan := s.outputInvChan ++ [iv] }
      else none
    | none => none
  | .addKnownInventory iv => some { s with knownInventory := s.knownInventory.add iv }
  | .disconnect => some { s with link := disconnect s.link }
  | .qOutput =>
    match s.qPhase, s.outputQueue with
    | .running, m :: rest => some (queuePacket { s with outputQueue := rest, received := s.received ++ [m] } m)
    | _, _ => none
  | .qSendDone => if s.qPhase = .running ∧ 0 < s.sendDoneQueue then some (sendDone s) else none
  | .qInv =>
    match s.qPhase, s.outputInvChan with
    | .running, iv :: rest => some (receiveInv { s with outputInvChan := rest } iv)
    | _, _ => none
  | .qTrickle => if s.qPhase = .running then some (trickleTick s) else none
  | .qQuit =>
    if s.qPhase = .running ∧ quitClosed s then
      some { s with qPhase := .cleanup, signals := s.pendingMsgs.foldl signal s.signals
                    drained := s.pendingMsgs, pendingMsgs := [] }
    else none
  | .qCleanupOutput =>
    match s.qPhase, s.outputQueue with
    | .cleanup, m :: rest =>
      some { s with outputQueue := rest, flushed := s.flushed ++ [m], signals := signal s.signals m }
    | _, _ => none
  | .qCleanupInv =>
    match s.qPhase, s.outputInvChan with
    | .cleanup, _ :: rest => some { s with outputInvChan := rest }
    | _, _ => none
  | .qExit =>
    if s.qPhase = .cleanup ∧ s.outputQueue = [] ∧ s.outputInvChan = [] then
      some { s with qPhase := .exited, queueQuit := true }
    else none
  | .oTake =>
    match s.oPhase, s.sendQueue with
    | .running, m :: rest => some { s with oPhase := .writing m, sendQueue := rest, taken := s.taken ++ [m] }
    | _, _ => none
  | .oWrite ok =>
    match s.oPhase with
    | .writing m => some (finishWrite s m ok)
    | _ => none
  | .oQuit => if s.oPhase = .running ∧ quitClosed s then some { s with oPhase := .waitQueueQuit } else none
  | .oQueueQuit =>
    if s.oPhase = .waitQueueQuit ∧ s.queueQuit then some { s with oPhase := .cleanup } else none
  | .oCleanup =>
    match s.oPhase, s.sendQueue with
    | .cleanup, m :: rest =>
      some { s with sendQueue := rest, taken := s.taken ++ [m], signals := signal s.signals m
                    discarded := s.discarded + 1 }
    | _, _ => none
  | .oExit =>
    if s.oPhase = .cleanup ∧ s.sendQueue = [] then some { s with oPhase := .exited, outQuit := true }
    else none

/-! ## What the receiving moves can do -/

section Inversion

variable {s s' : Pipeline}

theorem step_sendOutput {i : Nat} (h : step s (.sendOutput i) = some s') :
    ∃ m, s.senders[i]? = some m ∧ s.outputQueue.length < outputBufferSize ∧
      s' = { s with senders := s.senders.eraseIdx i, outputQueue := s.outputQueue ++ [m]
                    submitted := s.submitted ++ [m] } := by
  simp only [step] at h
  split at h
  · split_ifs at h with hl; exact ⟨_, ‹_›, hl, (Option.some.inj h).symm⟩
  · cases h

theorem step_sendInv {i : Nat} (h : step s (.sendInv i) = some s') :
    ∃ iv, s.invSenders[i]? = some iv ∧ s.outputInvChan.length < outputBufferSize ∧
      s' = { s with invSenders := s.invSenders.eraseIdx i
                    outputInvChan := s.outputInvChan ++ [iv] } := by
  simp only [step] at h
  split at h
  · split_ifs at h with hl; exact ⟨_, ‹_›, hl, (Option.some.inj h).symm⟩
  · cases h

theorem step_qOutput (h : step s .qOutput = some s') :
    ∃ m rest, s.qPhase = .running ∧ s.outputQueue = m :: rest ∧
      s' = queuePacket { s with outputQueue := rest, received := s.received ++ [m] } m := by
  simp only [step] at h
  split at h
  · exact ⟨_, _, ‹_›, ‹_›, (Option.some.inj h).symm⟩
  · cases h

theorem step_qInv (h : step s .qInv = some s') :
    ∃ iv rest, s.qPhase = .running ∧ s.outputInvChan = iv :: rest ∧
      s' = receiveInv { s with outputInvChan := rest } iv := by
  simp only [step] at h
  split at h
  · exact ⟨_, _, ‹_›, ‹_›, (Option.some.inj h).symm⟩
  · cases h

theorem step_qCleanupOutput (h : step s .qCleanupOutput = some s') :
    ∃ m rest, s.qPhase = .cleanup ∧ s.outputQueue = m :: rest ∧
      s' = { s with outputQueue := rest, flushed := s.flushed ++ [m]
                    signals := signal s.signals m } := by
  simp only [step] at h
  split at h
  · exact ⟨_, _, ‹_›, ‹_›, (Option.some.inj h).symm⟩
  · cases h

theorem step_qCleanupInv (h : step s .qCleanupInv = some s') :
    ∃ iv rest, s.qPhase = .cleanup ∧ s.outputInvChan = iv :: rest ∧
      s' = { s with outputInvChan := rest } := by
  simp only [step] at h
  split at h
  · exact ⟨_, _, ‹_›, ‹_›, (Option.some.inj h).symm⟩
  · cases h

theorem step_oTake (h : step s .oTake = some s') :
    ∃ m rest, s.oPhase = .running ∧ s.sendQueue = m :: rest ∧
      s' = { s with oPhase := .writing m, sendQueue := rest, taken := s.taken ++ [m] } := by
  simp only [step] at h
  split at h
  · exact ⟨_, _, ‹_›, ‹_›, (Option.some.inj h).symm⟩
  · cases h

theorem step_oWrite {ok : Bool} (h : step s (.oWrite ok) = some s') :
    ∃ m, s.oPhase = .writing m ∧ s' = finishWrite s m ok := by
  simp only [step] at h
  split at h
  · exact ⟨_, ‹_›, (Option.some.inj h).symm⟩
  · cases h

theorem step_oCleanup (h : step s .oCleanup = some s') :
    ∃ m rest, s.oPhase = .cleanup ∧ s.sendQueue = m :: rest ∧
      s' = { s with sendQueue := rest, taken := s.taken ++ [m], signals := signal s.signals m
                    discarded := s.discarded + 1 } := by
  simp only [step] at h
  split at h
  · exact ⟨_, _, ‹_›, ‹_›, (Option.some.inj h).symm⟩
  · cases h

end Inversion

/-- The states some interleaving reaches from a pipeline just launched. -/
inductive Reachable : Pipeline → Prop where
  | init (versionKnown : Bool) : Reachable (pipelineInit versionKnown)
  | step {s s' : Pipeline} {a : Action} : Reachable s → step s a = some s' → Reachable s'

/-- Play a list of moves. -/
def run (s : Pipeline) : List Action → Option Pipeline
  | [] => some s
  | a :: as => (step s a).bind (run · as)

theorem Reachable.run {s s' : Pipeline} {as : List Action} (h : Reachable s)
    (hr : run s as = some s') : Reachable s' := by
  induction as generalizing s with
  | nil => cases hr; exact h
  | cons a as ih =>
      simp only [PeerPipeline.run, Option.bind_eq_some] at hr
      obtain ⟨s1, h1, h2⟩ := hr
      exact ih (h.step h1) h2

end PeerPipeline
