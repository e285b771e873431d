import ParallelcoinPeer.InHandler
import ParallelcoinPeer.Stall

/-! # The input handler's read loop

    `inHandler` reads while the disconnect flag is clear. A read error ends the
    loop unless `isAllowedReadError` lets it through (a malformed message from
    localhost on the regression-test network); while `shouldHandleReadError` says
    the remote is still there, the loop first pushes a `malformed` reject and waits
    until it is sent. A decoded message is announced on `stallControl`
    (`sccReceiveMessage`, `sccHandlerStart`), handled by `inHandleMessage`, and
    announced done (`sccHandlerDone`); a second `version` ends the loop after its
    waited reject, with no done event. On the way out the loop calls `Disconnect`
    and closes `inQuit`.

    `InLoop` is the loop's state with ghost logs of the events it sent, the
    messages it queued, the read errors it saw and the done signals of its waited
    rejects; `inStep` is one move of the loop or of the tasks around it: a read
    completing, a waited reject going out, a `Disconnect` from anywhere (the idle
    timer's included).

    `InLoopInv` holds along every run (`InLoopInv.of_reachable`), and
    `inHandler_run_shape` reads it out: the events bracket every handled message
    and only a duplicate `version` is left open, on the way out; the loop queues
    replies to pings and then at most one reject, and closes `inQuit` only after
    that reject is sent; off the regression-test network a read error is the last
    read.

    `stall_handlerActive_iff` joins the loop to the stall handler of
    `PeerStall`: whatever part of the loop's events the stall handler has taken,
    it counts handler time exactly when the last of them is a handler start. -/

namespace PeerInHandler

open PeerWire PeerState PeerNegotiate PeerStall

/-- Where the peer is, as the read-error checks see it: whether its chain
    parameters name the regression-test network (`wire.TestNet`), the host
    `net.SplitHostPort` finds in its address (none when that fails), and its text
    (`Peer.String`). -/
structure InEnv where
  regTest : Bool
  host : Option String
  peerText : String

/-- `isAllowedReadError`: only on the regression-test network, only a malformed
    message, and only from localhost. -/
def isAllowedReadError (env : InEnv) (e : ReadError) : Bool :=
  if !env.regTest then false
  else
    match e with
    | .malformed _ =>
      match env.host with
      | some host => host == "127.0.0.1" || host == "localhost"
      | none => false
    | _ => false

theorem isAllowedReadError_of_not_regTest {env : InEnv} (h : env.regTest = false)
    (e : ReadError) : isAllowedReadError env e = false := by
  simp [isAllowedReadError, h]

/-- `shouldHandleReadError`: no reject while disconnecting, after the remote closed
    the stream, or on a permanent transport error. -/
def shouldHandleReadError (l : Link) (e : ReadError) : Bool :=
  if l.disconnect ≠ 0 then false
  else
    match e with
    | .eof => false
    | .opError temporary _ => temporary
    | _ => true

/-- The reason of the reject for a message that could not be read (`errMsg`). -/
def readErrorReason (env : InEnv) (e : ReadError) : String :=
  "Can\x27t read message from " ++ env.peerText ++ ": " ++ e.text

/-! ## The loop -/

/-- Where the loop is: at its condition, in `readMessage`, blocked in
    `PushRejectMsg` until its reject is sent, or gone. -/
inductive InPhase where
  | top | reading | awaitReject | exited
  deriving DecidableEq, Repr

/-- On the way out: waiting for the last reject, or gone. -/
def InPhase.leaving : InPhase → Bool
  | .awaitReject | .exited => true
  | .top | .reading => false

/-- The reject a loop in this phase is blocked on. -/
def InPhase.waiting : InPhase → Nat
  | .awaitReject => 1
  | _ => 0

/-- The loop's state, with ghost logs: the events it sent on `stallControl`, the
    messages it handed to `QueueMessage`, the read errors it saw, and how many done
    signals of its waited rejects arrived. -/
structure InLoop where
  peer : Peer
  phase : InPhase
  inQuit : Bool
  events : List StallControlMsg
  queued : List Msg
  readErrors : List ReadError
  rejectsDone : Nat

/-- The loop as `start` launches it. -/
def inLoopInit (p : Peer) : InLoop := ⟨p, .top, false, [], [], [], 0⟩

/-- Leave the loop: `Disconnect`, then close `inQuit`. -/
def inExit (s : InLoop) : InLoop :=
  { s with peer := { s.peer with link := disconnect s.peer.link }, phase := .exited
           inQuit := true }

@[simp] theorem inExit_phase (s : InLoop) : (inExit s).phase = .exited := rfl
@[simp] theorem inExit_inQuit (s : InLoop) : (inExit s).inQuit = true := rfl
@[simp] theorem inExit_events (s : InLoop) : (inExit s).events = s.events := rfl
@[simp] theorem inExit_queued (s : InLoop) : (inExit s).queued = s.queued := rfl
@[simp] theorem inExit_rejectsDone (s : InLoop) : (inExit s).rejectsDone = s.rejectsDone := rfl

/-- After a waited `PushRejectMsg`: block on the reject if one was queued, else
    leave at once. -/
def awaitOrExit (s : InLoop) (rejects : List Msg) : InLoop :=
  if rejects = [] then inExit s
  else { s with queued := s.queued ++ rejects, phase := .awaitReject }

theorem awaitOrExit_nil (s : InLoop) : awaitOrExit s [] = inExit s := if_pos rfl

/-- The events that announce a message before it is handled. -/
def announce (m : Msg) : List StallControlMsg := [⟨.receiveMessage, m⟩, ⟨.handlerStart, m⟩]

/-- The rest of a turn once `readMessage` returned `r` at `now`. -/
def inRead (env : InEnv) (s : InLoop) (r : ReadResult) (now : Int) : InLoop :=
  match r with
  | .error e =>
    let s := { s with readErrors := s.readErrors ++ [e] }
    if isAllowedReadError env e then { s with phase := .top }
    else if shouldHandleReadError s.peer.link e then
      awaitOrExit s ((pushRejectMsg s.peer.flags "malformed" .malformed
        (readErrorReason env e) none).toList.map Msg.reject)
    else inExit s
  | .ok m =>
    let h := inHandleMessage s.peer m now
    let s := { s with peer := h.peer, events := s.events ++ announce m }
    if h.exit then awaitOrExit s h.queued
    else
      { s with events := s.events ++ [⟨.handlerDone, m⟩], queued := s.queued ++ h.queued
               phase := .top }

/-- The moves: the loop's condition, a read completing at `now`, the done signal
    of the reject the loop waits on, and `Disconnect` from any task. -/
inductive InAction where
  | check
  | read (r : ReadResult) (now : Int)
  | rejectDone
  | disconnect

/-- One move, `none` when it is not enabled. -/
def inStep (env : InEnv) (s : InLoop) : InAction → Option InLoop
  | .check =>
    if s.phase = .top then
      some (if s.peer.link.disconnect = 0 then { s with phase := .reading } else inExit s)
    else none
  | .read r now => if s.phase = .reading then some (inRead env s r now) else none
  | .rejectDone =>
    if s.phase = .awaitReject then some (inExit { s with rejectsDone := s.rejectsDone + 1 })
    else none
  | .disconnect => some { s with peer := { s.peer with link := disconnect s.peer.link } }

/-- The states some interleaving reaches from a started peer. -/
inductive InReachable (env : InEnv) : InLoop → Prop where
  | init (p : Peer) : InReachable env (inLoopInit p)
  | step {s s' : InLoop} {a : InAction} :
      InReachable env s → inStep env s a = some s' → InReachable env s'

/-! ## What a handled message leaves behind -/

theorem inHandleMessage_exit (p : Peer) (m : Msg) (now : Int) :
    (inHandleMessage p m now).exit = decide (m.command = .version) := by
  cases m <;> rfl

/-- A handled message queues at most one message: the reject of a duplicate
    `version`, or the `pong` answering a `ping`. -/
theorem inHandleMessage_queued (p : Peer) (m : Msg) (now : Int) :
    (inHandleMessage p m now).queued.length ≤ 1 ∧
      ∀ q ∈ (inHandleMessage p m now).queued,
        q.command = if m.command = .version then .reject else .pong := by
  unfold inHandleMessage
  split
  · constructor
    · cases pushRejectMsg _ _ _ _ _ <;> simp
    · simp [Msg.command]
  · simp
  · unfold handlePingMsg; split_ifs <;> simp_all [Msg.command]
  all_goals simp

/-! ## The invariant, piece by piece -/

/-- The events of a loop that handled `ms` in full and then, if `last` is a
    message, announced it without finishing it. -/
def eventsOf (ms : List Msg) (last : Option Msg) : List StallControlMsg :=
  (ms.map fun m => announce m ++ [⟨.handlerDone, m⟩]).flatten ++ (last.map announce).getD []

/-- The loop's events so far: every handled message bracketed, and an open
    bracket only for a `version`, and only when the loop is leaving. -/
def EventsOk (evs : List StallControlMsg) (leaving : Bool) : Prop :=
  ∃ ms last, evs = eventsOf ms last ∧ (∀ m ∈ ms, m.command ≠ .version) ∧
    ∀ v ∈ last, v.command = .version ∧ leaving = true

theorem EventsOk.nil : EventsOk [] false := ⟨[], none, rfl, by simp, by simp⟩

theorem EventsOk.leave {evs : List StallControlMsg} {b : Bool} (h : EventsOk evs b) :
    EventsOk evs true := by
  obtain ⟨ms, last, he, hms, hl⟩ := h
  exact ⟨ms, last, he, hms, fun v hv => ⟨(hl v hv).1, rfl⟩⟩

/-- Handling a message that is not a `version` closes its bracket. -/
theorem EventsOk.done {evs : List StallControlMsg} {m : Msg} (h : EventsOk evs false)
    (hm : m.command ≠ .version) :
    EventsOk (evs ++ announce m ++ [⟨.handlerDone, m⟩]) false := by
  obtain ⟨ms, last, rfl, hms, hl⟩ := h
  cases last with
  | some v => exact absurd (hl v rfl).2 (by decide)
  | none =>
      exact ⟨ms ++ [m], none, by simp [eventsOf], List.forall_mem_append.2 ⟨hms, by simpa using hm⟩,
        by simp⟩

/-- A `version` is announced and left open as the loop leaves. -/
theorem EventsOk.announce_version {evs : List StallControlMsg} {m : Msg}
    (h : EventsOk evs false) (hm : m.command = .version) : EventsOk (evs ++ announce m) true := by
  obtain ⟨ms, last, rfl, hms, hl⟩ := h
  cases last with
  | some v => exact absurd (hl v rfl).2 (by decide)
  | none => exact ⟨ms, some m, by simp [eventsOf], hms, by simpa using hm⟩

/-- The loop's queued messages: replies to pings, then `n` rejects. -/
def QueueOk (q : List Msg) (n : Nat) : Prop :=
  ∃ pongs rejects, q = pongs ++ rejects ∧ (∀ m ∈ pongs, m.command = .pong) ∧
    (∀ m ∈ rejects, m.command = .reject) ∧ rejects.length = n

theorem QueueOk.nil : QueueOk [] 0 := ⟨[], [], rfl, by simp, by simp, rfl⟩

theorem QueueOk.pongs {q ps : List Msg} (h : QueueOk q 0) (hp : ∀ m ∈ ps, m.command = .pong) :
    QueueOk (q ++ ps) 0 := by
  obtain ⟨pongs, rejects, rfl, hpongs, -, hn⟩ := h
  rw [List.length_eq_zero.1 hn, List.append_nil]
  exact ⟨pongs ++ ps, [], by simp, List.forall_mem_append.2 ⟨hpongs, hp⟩, by simp, rfl⟩

theorem QueueOk.rejects {q rs : List Msg} (h : QueueOk q 0) (hr : ∀ m ∈ rs, m.command = .reject) :
    QueueOk (q ++ rs) rs.length := by
  obtain ⟨pongs, rejects, rfl, hpongs, -, hn⟩ := h
  rw [List.length_eq_zero.1 hn, List.append_nil]
  exact ⟨pongs, rs, rfl, hpongs, hr, rfl⟩

/-- What every run keeps. -/
structure InLoopInv (env : InEnv) (s : InLoop) : Prop where
  events : EventsOk s.events s.phase.leaving
  queued : QueueOk s.queued (s.rejectsDone + s.phase.waiting)
  rejectsDone_le : s.rejectsDone ≤ if s.phase = .exited then 1 else 0
  errors_leave : ∀ e ∈ s.readErrors, isAllowedReadError env e = false → s.phase.leaving = true
  inQuit_iff : s.inQuit = true ↔ s.phase = .exited

/-- What the invariant says of a loop still reading. -/
structure InLoop.Clean (env : InEnv) (s : InLoop) : Prop where
  events : EventsOk s.events false
  queued : QueueOk s.queued 0
  rejectsDone : s.rejectsDone = 0
  inQuit : s.inQuit = false
  errors : ∀ e ∈ s.readErrors, isAllowedReadError env e = true

section Steps

variable {env : InEnv} {s : InLoop}

/-- A loop that is not leaving is neither gone nor blocked on a reject. -/
theorem InPhase.of_not_leaving {p : InPhase} (h : p.leaving = false) :
    p ≠ .exited ∧ p.waiting = 0 := by
  cases p <;> simp_all [InPhase.leaving, InPhase.waiting]

theorem InLoopInv.clean (hi : InLoopInv env s) (hl : s.phase.leaving = false) : s.Clean env := by
  obtain ⟨hx, hw⟩ := InPhase.of_not_leaving hl
  have hd : s.rejectsDone = 0 := by simpa [hx] using hi.rejectsDone_le
  refine ⟨hl ▸ hi.events, by simpa [hd, hw] using hi.queued, hd, by simpa [hx] using hi.inQuit_iff,
    fun e he => ?_⟩
  by_contra hne
  simp [hi.errors_leave e he (by simpa using hne)] at hl

theorem InLoop.Clean.inv (hc : s.Clean env) (hl : s.phase.leaving = false) : InLoopInv env s := by
  obtain ⟨hx, hw⟩ := InPhase.of_not_leaving hl
  refine ⟨hl ▸ hc.events, by simpa [hc.rejectsDone, hw] using hc.queued, by simp [hc.rejectsDone],
    fun e he h => absurd (hc.errors e he) (by simp [h]), by simp [hc.inQuit, hx]⟩

/-- Leaving after a waited `PushRejectMsg`, with the reject it queued if any. -/
theorem awaitOrExit_inv (he : EventsOk s.events true) (hq : QueueOk s.queued 0)
    (hd : s.rejectsDone = 0) (hq0 : s.inQuit = false) {rs : List Msg} (hrs : rs.length ≤ 1)
    (hr : ∀ m ∈ rs, m.command = .reject) : InLoopInv env (awaitOrExit s rs) := by
  unfold awaitOrExit
  split_ifs with h0
  · exact ⟨he, by simpa [hd] using hq, by simp [hd], fun _ _ _ => rfl, by simp⟩
  · have h1 : rs.length = 1 := by
      have := List.length_pos.2 h0
      omega
    refine ⟨he, ?_, by simp [hd], fun _ _ _ => rfl, by simp [hq0]⟩
    simpa [hd, h1] using hq.rejects hr

theorem InLoopInv.inRead (hi : InLoopInv env s) (hr : s.phase = .reading) (r : ReadResult)
    (now : Int) : InLoopInv env (inRead env s r now) := by
  have hc := hi.clean (by simp [hr, InPhase.leaving])
  cases r with
  | error e =>
      simp only [PeerInHandler.inRead]
      split_ifs with ha hsh
      · -- an allowed error: back to the condition
        have hc' : InLoop.Clean env { s with readErrors := s.readErrors ++ [e], phase := .top } :=
          ⟨hc.events, hc.queued, hc.rejectsDone, hc.inQuit, fun e' he' =>
            (List.mem_append.1 he').elim (hc.errors e') (by simp_all)⟩
        exact hc'.inv rfl
      · -- a reject if the peer still takes one, then out
        refine awaitOrExit_inv ?_ ?_ ?_ ?_ ?_ ?_
        exacts [hc.events.leave, hc.queued, hc.rejectsDone, hc.inQuit,
          by cases pushRejectMsg _ _ _ _ _ <;> simp,
          by cases pushRejectMsg _ _ _ _ _ <;> simp [Msg.command]]
      · -- no reject for a remote that is gone
        rw [← awaitOrExit_nil]
        refine awaitOrExit_inv ?_ ?_ ?_ ?_ (by simp) (by simp)
        exacts [hc.events.leave, hc.queued, hc.rejectsDone, hc.inQuit]
  | ok m =>
      simp only [PeerInHandler.inRead]
      obtain ⟨hlen, hcmd⟩ := inHandleMessage_queued s.peer m now
      split_ifs with hx
      · -- a duplicate `version`: its reject, then out
        have hv : m.command = .version := by simpa [inHandleMessage_exit] using hx
        refine awaitOrExit_inv ?_ ?_ ?_ ?_ ?_ ?_
        exacts [hc.events.announce_version hv, hc.queued, hc.rejectsDone, hc.inQuit, hlen,
          fun q hq => by simpa [hv] using hcmd q hq]
      · -- any other message: handled, done, and back to the condition
        have hv : m.command ≠ .version := by simpa [inHandleMessage_exit] using hx
        have hc' : InLoop.Clean env
            { s with peer := (inHandleMessage s.peer m now).peer
                     events := s.events ++ announce m ++ [⟨.handlerDone, m⟩]
                     queued := s.queued ++ (inHandleMessage s.peer m now).queued
                     phase := .top } :=
          ⟨hc.events.done hv, hc.queued.pongs (fun q hq => by simpa [hv] using hcmd q hq),
            hc.rejectsDone, hc.inQuit, hc.errors⟩
        exact hc'.inv rfl

/-- **STEP.** Every move of the loop and of the tasks around it keeps the invariant. -/
theorem InLoopInv.of_step (hi : InLoopInv env s) {a : InAction} {s' : InLoop}
    (h : inStep env s a = some s') : InLoopInv env s' := by
  cases a with
  | check =>
      simp only [inStep] at h
      split_ifs at h with ht hd <;> cases h
      · have hc := hi.clean (by simp [ht, InPhase.leaving])
        have hc' : InLoop.Clean env { s with phase := .reading } := { hc with }
        exact hc'.inv rfl
      · have hc := hi.clean (by simp [ht, InPhase.leaving])
        rw [← awaitOrExit_nil]
        refine awaitOrExit_inv ?_ ?_ ?_ ?_ (by simp) (by simp)
        exacts [hc.events.leave, hc.queued, hc.rejectsDone, hc.inQuit]
  | read r now =>
      simp only [inStep] at h
      split_ifs at h with hr
      cases h
      exact hi.inRead hr r now
  | rejectDone =>
      simp only [inStep] at h
      split_ifs at h with hw
      cases h
      have hd : s.rejectsDone = 0 := by simpa [hw] using hi.rejectsDone_le
      exact ⟨hi.events.leave, by simpa [hw, hd] using hi.queued, by simp [hd], fun _ _ _ => rfl,
        by simp⟩
  | disconnect =>
      cases h
      exact { hi with }

/-- **RUN.** The invariant holds in every reachable state. -/
theorem InLoopInv.of_reachable (h : InReachable env s) : InLoopInv env s := by
  induction h with
  | init p => exact InLoop.Clean.inv ⟨.nil, .nil, rfl, rfl, by simp [inLoopInit]⟩ rfl
  | step _ hs ih => exact ih.of_step hs

end Steps

/-- **THE READ LOOP OVER EVERY RUN.** Whatever reads, done signals and `Disconnect`
    calls interleave: the loop's stall events bracket every message it handled,
    and only a duplicate `version`, on the way out, is announced without its done
    event; it queues replies to pings and then at most one reject, and closes
    `inQuit` only once the done signal of that reject arrived; and off the
    regression-test network a read error leaves the loop for good, so it is the
    last read. -/
theorem inHandler_run_shape {env : InEnv} {s : InLoop} (h : InReachable env s) :
    (∃ ms last, s.events = eventsOf ms last ∧ (∀ m ∈ ms, m.command ≠ .version) ∧
      ∀ v ∈ last, v.command = .version ∧ s.phase.leaving = true) ∧
    (∃ pongs rejects, s.queued = pongs ++ rejects ∧ (∀ m ∈ pongs, m.command = .pong) ∧
      (∀ m ∈ rejects, m.command = .reject) ∧ rejects.length ≤ 1 ∧
      (s.inQuit = true → rejects.length = s.rejectsDone)) ∧
    (env.regTest = false → s.readErrors ≠ [] → s.phase.leaving = true) := by
  have hi := InLoopInv.of_reachable h
  refine ⟨hi.events, ?_, fun hn hne => ?_⟩
  · obtain ⟨pongs, rejects, hq, hp, hr, hn⟩ := hi.queued
    refine ⟨pongs, rejects, hq, hp, hr, ?_, fun hx => ?_⟩
    · have := hi.rejectsDone_le
      cases hph : s.phase <;> simp_all [InPhase.waiting]
    · simp [hn, hi.inQuit_iff.1 hx, InPhase.waiting]
  · obtain ⟨e, he⟩ := List.exists_mem_of_ne_nil _ hne
    exact hi.errors_leave e he (isAllowedReadError_of_not_regTest hn e)

/-- A peer that knows a remote version newer than BIP 31, so it answers pings. -/
def answeringPeer : Peer :=
  { newPeerBase plainConfig true with
    flags := { (newPeerBase plainConfig true).flags with versionKnown := true } }

/-- Off the regression-test network. -/
def mainEnv : InEnv := ⟨false, none, ""⟩

/-- The loop after answering one ping. -/
theorem inHandler_run_shape_after_ping :
    ∃ s, InReachable mainEnv s ∧ s.queued = [.pong 1] ∧
      (∃ ms last, s.events = eventsOf ms last ∧ (∀ m ∈ ms, m.command ≠ .version) ∧
        ∀ v ∈ last, v.command = .version ∧ s.phase.leaving = true) ∧
      (∃ pongs rejects, s.queued = pongs ++ rejects ∧ (∀ m ∈ pongs, m.command = .pong) ∧
        (∀ m ∈ rejects, m.command = .reject) ∧ rejects.length ≤ 1 ∧
        (s.inQuit = true → rejects.length = s.rejectsDone)) ∧
      (mainEnv.regTest = false → s.readErrors ≠ [] → s.phase.leaving = true) :=
  have h := @InReachable.step mainEnv _ _ (.read (.ok (.ping 1)) 0)
    (@InReachable.step mainEnv _ _ .check (.init answeringPeer) rfl) rfl
  ⟨_, h, rfl, inHandler_run_shape h⟩

/-! ## What the stall handler sees -/

/-- The input handler's events among the stall handler's turns, in order: every
    control event but `sccSendMessage`, which only the output handler sends. -/
def inEvents (evs : List StallEvent) : List StallControlMsg :=
  evs.filterMap fun ev =>
    match ev with
    | .control _ m => if m.command = .sendMessage then none else some m
    | _ => none

/-- A start opens a handler and a done closes it; other events leave it. -/
def openStep (running : Bool) (m : StallControlMsg) : Bool :=
  match m.command with
  | .handlerStart => true
  | .handlerDone => false
  | _ => running

/-- Whether a handler is running after the events `l`. -/
def openAfter (l : List StallControlMsg) : Bool := l.foldl openStep false

/-- The stall handler's log has a running handler exactly when its input-handler
    events leave one open. -/
theorem handlerLog_running (evs : List StallEvent) :
    (handlerLog evs).running.isSome = openAfter (inEvents evs) := by
  unfold handlerLog openAfter inEvents
  induction evs using List.reverseRecOn with
  | nil => rfl
  | append_singleton evs ev ih =>
      rw [List.foldl_append, List.filterMap_append, List.foldl_append, ← ih]
      generalize List.foldl HandlerLog.step ⟨[], none⟩ evs = l
      rcases ev with ⟨now, ⟨cmd, m⟩⟩ | now | _ | _
      · cases cmd <;> cases hr : l.running <;> simp [HandlerLog.step, openStep, hr]
      all_goals rfl

/-- Along the events of a read loop, a handler is open exactly after a start. -/
theorem openAfter_of_prefix {ms : List Msg} {last : Option Msg} {p : List StallControlMsg}
    (hp : p.IsPrefix (eventsOf ms last)) :
    openAfter p = true ↔ ∃ m, p.getLast? = some ⟨.handlerStart, m⟩ := by
  induction ms generalizing p with
  | nil =>
      cases last with
      | none => simp_all [eventsOf, openAfter]
      | some v =>
          simp only [eventsOf, announce, List.map_nil, List.flatten_nil, Option.map_some',
            Option.getD_some, List.nil_append] at hp
          rcases List.prefix_cons_iff.1 hp with rfl | ⟨t₁, rfl, h₁⟩
          · simp [openAfter]
          rcases List.prefix_cons_iff.1 h₁ with rfl | ⟨t₂, rfl, h₂⟩
          · simp [openAfter, openStep]
          rw [List.prefix_nil.1 h₂]
          simp [openAfter, openStep]
  | cons m ms ih =>
      have he : eventsOf (m :: ms) last = ⟨.receiveMessage, m⟩ :: ⟨.handlerStart, m⟩ ::
          ⟨.handlerDone, m⟩ :: eventsOf ms last := by
        simp [eventsOf, announce]
      rw [he] at hp
      rcases List.prefix_cons_iff.1 hp with rfl | ⟨t₁, rfl, h₁⟩
      · simp [openAfter]
      rcases List.prefix_cons_iff.1 h₁ with rfl | ⟨t₂, rfl, h₂⟩
      · simp [openAfter, openStep]
      rcases List.prefix_cons_iff.1 h₂ with rfl | ⟨t, rfl, h₃⟩
      · simp [openAfter, openStep]
      -- a whole bracket, then a prefix of the rest
      have hclosed : openAfter (⟨.receiveMessage, m⟩ :: ⟨.handlerStart, m⟩ ::
          ⟨.handlerDone, m⟩ :: t) = openAfter t := rfl
      rw [hclosed, ih h₃]
      cases t with
      | nil => simp
      | cons x t => simp

/-- **THE STALL HANDLER TIMES EXACTLY THE HANDLERS.** However the tasks interleave,
    once the stall handler has taken, in order, some of the events a reachable read
    loop sent (with the output handler's sends, ticks and quit signals anywhere
    between them), it counts handler time exactly when the last input-handler event
    it took is a handler start. -/
theorem stall_handlerActive_iff {env : InEnv} {s : InLoop} (h : InReachable env s)
    {evs : List StallEvent} (hp : (inEvents evs).IsPrefix s.events) :
    (stallRun stallInit evs).handlerActive = true ↔
      ∃ m, (inEvents evs).getLast? = some ⟨.handlerStart, m⟩ := by
  obtain ⟨ms, last, he, -, -⟩ := (InLoopInv.of_reachable h).events
  rw [(tracks_run evs).2.1, handlerLog_running]
  exact openAfter_of_prefix (he ▸ hp)

/-- The stall handler has taken the receive and start events of that ping. -/
theorem stall_handlerActive_iff_mid_ping :
    ∃ s, InReachable mainEnv s ∧
      (inEvents [.control 0 ⟨.receiveMessage, .ping 1⟩, .control 0 ⟨.handlerStart, .ping 1⟩]).IsPrefix
        s.events ∧
      ((stallRun stallInit [.control 0 ⟨.receiveMessage, .ping 1⟩,
          .control 0 ⟨.handlerStart, .ping 1⟩]).handlerActive = true ↔
        ∃ m, (inEvents [.control 0 ⟨.receiveMessage, .ping 1⟩,
          .control 0 ⟨.handlerStart, .ping 1⟩]).getLast? = some ⟨.handlerStart, m⟩) :=
  have h := @InReachable.step mainEnv _ _ (.read (.ok (.ping 1)) 0)
    (@InReachable.step mainEnv _ _ .check (.init answeringPeer) rfl) rfl
  have hp : (inEvents [.control 0 ⟨.receiveMessage, .ping 1⟩,
      .control 0 ⟨.handlerStart, .ping 1⟩]).IsPrefix _ := ⟨[⟨.handlerDone, .ping 1⟩], rfl⟩
  ⟨_, h, hp, stall_handlerActive_iff h hp⟩

end PeerInHandler
