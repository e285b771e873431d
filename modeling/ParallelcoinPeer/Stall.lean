import ParallelcoinPeer.Negotiation
import Mathlib.Logic.Function.Basic

/-! # The stall handler

    `stallHandler` keeps `pendingResponses`, a deadline per expected response
    command, fed by the control events the input and output handlers send on the
    one-slot channel `stallControl`. Handler time is credited to the deadlines:
    `deadlineOffset` accumulates the time between `sccHandlerStart` and
    `sccHandlerDone`, and every stall tick checks the deadlines against it and
    resets it.

    * `stallStep` is one turn of the main loop, one `select` case per event;
      `tickDisconnects` is whether that tick calls `Disconnect`;
    * `IoSystem` puts the handler between the two producers and their quit
      signals, every `select` free to take any ready case, a closed quit
      channel ready forever.

    Times are nanoseconds on the monotonic clock, as `time.Now` gives them. -/

namespace PeerStall

open PeerWire PeerState

/-- `stallTickInterval`. -/
def stallTickInterval : Nat := 60 * second

/-- `stallResponseTimeout`. -/
def stallResponseTimeout : Nat := 360 * second

/-- The stall control commands (`sccSendMessage`, …). -/
inductive StallControlCmd where
  | sendMessage | receiveMessage | handlerStart | handlerDone
  deriving DecidableEq, Repr

/-- A stall control message: the event and the message it concerns. -/
structure StallControlMsg where
  command : StallControlCmd
  message : Msg
  deriving DecidableEq, Repr

/-- `pendingResponses`: the deadline of each expected response command. -/
abbrev Deadlines := Cmd → Option Nat

/-- `maybeAddDeadline`: the responses a sent command expects, due a stall timeout
    from now, three for `getheaders`. Pings expect nothing here. -/
def maybeAddDeadline (pending : Deadlines) (msgCmd : Cmd) (now : Nat) : Deadlines :=
  let deadline := now + stallResponseTimeout
  match msgCmd with
  | .version => Function.update pending .verAck (some deadline)
  | .memPool => Function.update pending .inv (some deadline)
  | .getBlocks => Function.update pending .inv (some deadline)
  | .getData =>
    Function.update (Function.update (Function.update (Function.update pending
      .block (some deadline)) .merkleBlock (some deadline)) .tx (some deadline))
      .notFound (some deadline)
  | .getHeaders => Function.update pending .headers (some (now + stallResponseTimeout * 3))
  | _ => pending

/-- The receive case: a response clears its own entry, and any of `block`,
    `merkleblock`, `tx`, `notfound` clears all four. -/
def removeResponse (pending : Deadlines) (msgCmd : Cmd) : Deadlines :=
  match msgCmd with
  | .block | .merkleBlock | .tx | .notFound =>
    Function.update (Function.update (Function.update (Function.update pending
      .block none) .merkleBlock none) .tx none) .notFound none
  | c => Function.update pending c none

/-- The keys one received command clears: the four `getdata` answers together, any
    other key alone. -/
def responseGroup : Cmd → List Cmd
  | .block | .merkleBlock | .tx | .notFound => [.block, .merkleBlock, .tx, .notFound]
  | k => [k]

/-- The receive case clears exactly the keys whose group holds the command. -/
theorem removeResponse_apply (p : Deadlines) (c k : Cmd) :
    removeResponse p c k = if c ∈ responseGroup k then none else p k := by
  cases c <;> cases k <;> rfl

/-- Where the handler is: in its main loop, draining `stallControl`, or gone. -/
inductive StallPhase where
  | loop | cleanup | done
  deriving DecidableEq, Repr

/-- The stall handler's locals. -/
structure StallState where
  handlerActive : Bool
  handlersStartTime : Nat
  deadlineOffset : Nat
  pendingResponses : Deadlines
  ioStopped : Bool
  phase : StallPhase

/-- The locals as `stallHandler` declares them. -/
def stallInit : StallState :=
  { handlerActive := false, handlersStartTime := 0, deadlineOffset := 0
    pendingResponses := fun _ => none, ioStopped := false, phase := .loop }

/-- The cases of the main `select`. -/
inductive StallEvent where
  | control (now : Nat) (msg : StallControlMsg)
  | tick (now : Nat)
  | inQuit
  | outQuit

/-- The handler time a tick at `now` adds to every deadline: the accumulated
    offset, plus the running time of an active handler. -/
def tickOffset (s : StallState) (now : Nat) : Nat :=
  s.deadlineOffset + if s.handlerActive then now - s.handlersStartTime else 0

/-- A tick at `now` finds the response `k` overdue. -/
def overdue (s : StallState) (now : Nat) (k : Cmd) : Bool :=
  match s.pendingResponses k with
  | some deadline => !decide (now < deadline + tickOffset s now)
  | none => false

/-- A tick at `now` calls `Disconnect`: some pending response is overdue. -/
def tickDisconnects (s : StallState) (now : Nat) : Bool := Cmd.all.any (overdue s now)

/-- One turn of the main loop. An unbalanced handler start or done only logs a
    warning. -/
def stallStep (s : StallState) : StallEvent → StallState
  | .control now msg =>
    match msg.command with
    | .sendMessage =>
      { s with pendingResponses := maybeAddDeadline s.pendingResponses msg.message.command now }
    | .receiveMessage =>
      { s with pendingResponses := removeResponse s.pendingResponses msg.message.command }
    | .handlerStart =>
      if s.handlerActive then s else { s with handlerActive := true, handlersStartTime := now }
    | .handlerDone =>
      if s.handlerActive then
        { s with deadlineOffset := s.deadlineOffset + (now - s.handlersStartTime)
                 handlerActive := false }
      else s
  | .tick _ => { s with deadlineOffset := 0 }
  | .inQuit | .outQuit =>
    if s.ioStopped then { s with phase := .cleanup } else { s with ioStopped := true }

/-- A sequence of main-loop turns. -/
def stallRun (s : StallState) (evs : List StallEvent) : StallState := evs.foldl stallStep s

/-! ## Handler time is credited since the last tick only

    The offset a tick applies is what the handlers accumulated since the previous
    tick. `HandlerLog` says it in terms of the handler spans themselves: the
    spans finished since the last tick, each from its own start, and the start of
    one still running. -/

/-- A `getdata` sent at 0 s, then an `inv` whose handler runs from 10 s to 110 s,
    then a tick at 120 s. -/
def slowHandlerRun : List StallEvent :=
  [.control 0 ⟨.sendMessage, .getData⟩,
   .control (10 * second) ⟨.receiveMessage, .inv []⟩,
   .control (10 * second) ⟨.handlerStart, .inv []⟩,
   .control (110 * second) ⟨.handlerDone, .inv []⟩,
   .tick (120 * second)]

/-- After that run the `block` deadline set at 0 s is still 360 s, and a tick at
    400 s finds it overdue, although 100 s of handler time passed since the
    request and 400 s is before 360 s + 100 s. -/
theorem tick_forgets_handler_time_of_earlier_ticks :
    (stallRun stallInit slowHandlerRun).pendingResponses .block = some stallResponseTimeout ∧
      overdue (stallRun stallInit slowHandlerRun) (400 * second) .block = true ∧
      400 * second < stallResponseTimeout + (110 * second - 10 * second) := by
  decide

/-- The handler spans credited since the last tick, newest first, and a running
    handler's start. -/
structure HandlerLog where
  spans : List (Nat × Nat)
  running : Option Nat

/-- How the events of a trace change the log. -/
def HandlerLog.step (l : HandlerLog) : StallEvent → HandlerLog
  | .control now msg =>
    match msg.command, l.running with
    | .handlerStart, none => { l with running := some now }
    | .handlerDone, some st => { spans := (st, now) :: l.spans, running := none }
    | _, _ => l
  | .tick _ => { l with spans := [] }
  | _ => l

/-- The log of a whole trace. -/
def handlerLog (evs : List StallEvent) : HandlerLog := evs.foldl HandlerLog.step ⟨[], none⟩

/-- The handler time the log credits at `now`. -/
def HandlerLog.credit (l : HandlerLog) (now : Nat) : Nat :=
  (l.spans.map fun sp => sp.2 - sp.1).sum +
    match l.running with
    | some st => now - st
    | none => 0

/-- The handler's offset bookkeeping agrees with the log. -/
def Tracks (s : StallState) (l : HandlerLog) : Prop :=
  s.deadlineOffset = (l.spans.map fun sp => sp.2 - sp.1).sum ∧
    s.handlerActive = l.running.isSome ∧ ∀ st, l.running = some st → s.handlersStartTime = st

theorem Tracks.step {s : StallState} {l : HandlerLog} (h : Tracks s l) (ev : StallEvent) :
    Tracks (stallStep s ev) (l.step ev) := by
  obtain ⟨hoff, hact, hst⟩ := h
  cases ev with
  | control now msg =>
      rcases msg with ⟨cmd, m⟩
      cases hr : l.running with
      | none =>
          have ha : s.handlerActive = false := by simp [hact, hr]
          cases cmd <;> simp_all [Tracks, stallStep, HandlerLog.step]
      | some st =>
          have ha : s.handlerActive = true := by simp [hact, hr]
          cases cmd <;> simp_all [Tracks, stallStep, HandlerLog.step, Nat.add_comm]
  | tick now => exact ⟨rfl, hact, hst⟩
  | inQuit => simp only [stallStep]; split_ifs <;> exact ⟨hoff, hact, hst⟩
  | outQuit => simp only [stallStep]; split_ifs <;> exact ⟨hoff, hact, hst⟩

theorem tracks_run (evs : List StallEvent) : Tracks (stallRun stallInit evs) (handlerLog evs) := by
  unfold stallRun handlerLog
  induction evs using List.reverseRecOn with
  | nil => exact ⟨rfl, rfl, fun _ h => by cases h⟩
  | append_singleton evs ev ih =>
      simp only [List.foldl_append, List.foldl_cons, List.foldl_nil]
      exact ih.step ev

theorem Tracks.offset_eq_credit {s : StallState} {l : HandlerLog} (h : Tracks s l) (now : Nat) :
    tickOffset s now = l.credit now := by
  obtain ⟨hoff, hact, hst⟩ := h
  unfold tickOffset HandlerLog.credit
  cases hr : l.running with
  | none => simp [hoff, hact, hr]
  | some st => simp [hoff, hact, hr, hst st hr]

/-- **TICKS CREDIT HANDLER TIME SINCE THE LAST TICK.** After any sequence of
    events, a tick at `now` finds the response `k` overdue exactly when `k` is
    pending with a deadline `d` and `d` plus the handler time credited since the
    last tick (the spans finished since then, each from its own start, and the
    running time of an active handler) is at most `now`. -/
theorem overdue_iff_credit_since_last_tick (evs : List StallEvent) (now : Nat) (k : Cmd) :
    overdue (stallRun stallInit evs) now k = true ↔
      ∃ d, (stallRun stallInit evs).pendingResponses k = some d ∧
        d + (handlerLog evs).credit now ≤ now := by
  rw [← (tracks_run evs).offset_eq_credit now]
  unfold overdue
  cases (stallRun stallInit evs).pendingResponses k <;> simp

/-! ## The handler between its producers -/

/-- The stall handler, the one-slot `stallControl` channel, and the quit signals
    `inQuit` and `outQuit`; the input and output handlers send events until they
    close their quit signal. -/
structure IoSystem where
  stall : StallState
  stallControl : List StallControlMsg
  inQuit : Bool
  outQuit : Bool

/-- Everything as the handlers start. -/
def ioInit : IoSystem := ⟨stallInit, [], false, false⟩

/-- The capacity of `stallControl`. -/
def stallControlCap : Nat := 1

/-- The moves of the three tasks. The stall handler's main loop takes any ready
    `select` case; its cleanup loop receives while `stallControl` is not empty and
    then returns. -/
inductive IoAction where
  | inSend (msg : StallControlMsg)
  | inExit
  | outSend (msg : StallControlMsg)
  | outExit
  | stallReceive (now : Nat)
  | stallTick (now : Nat)
  | stallInQuit
  | stallOutQuit
  | stallDrain
  | stallExit

/-- One move, `none` when it is not enabled. -/
def ioStep (s : IoSystem) : IoAction → Option IoSystem
  | .inSend m =>
    if !s.inQuit && s.stallControl.length < stallControlCap then
      some { s with stallControl := s.stallControl ++ [m] }
    else none
  | .inExit => if !s.inQuit then some { s with inQuit := true } else none
  | .outSend m =>
    if !s.outQuit && s.stallControl.length < stallControlCap then
      some { s with stallControl := s.stallControl ++ [m] }
    else none
  | .outExit => if !s.outQuit then some { s with outQuit := true } else none
  | .stallReceive now =>
    if s.stall.phase = .loop then
      match s.stallControl with
      | m :: rest => some { s with stall := stallStep s.stall (.control now m), stallControl := rest }
      | [] => none
    else none
  | .stallTick now =>
    if s.stall.phase = .loop then some { s with stall := stallStep s.stall (.tick now) } else none
  | .stallInQuit =>
    if s.stall.phase = .loop && s.inQuit then some { s with stall := stallStep s.stall .inQuit }
    else none
  | .stallOutQuit =>
    if s.stall.phase = .loop && s.outQuit then some { s with stall := stallStep s.stall .outQuit }
    else none
  | .stallDrain =>
    if s.stall.phase = .cleanup then
      match s.stallControl with
      | _ :: rest => some { s with stallControl := rest }
      | [] => none
    else none
  | .stallExit =>
    if s.stall.phase = .cleanup && s.stallControl = [] then
      some { s with stall := { s.stall with phase := .done } }
    else none

/-- The states some interleaving reaches. -/
inductive IoReachable : IoSystem → Prop where
  | init : IoReachable ioInit
  | step {s s' : IoSystem} {a : IoAction} : IoReachable s → ioStep s a = some s' → IoReachable s'

/-- Play a list of moves. -/
def ioRun (s : IoSystem) : List IoAction → Option IoSystem
  | [] => some s
  | a :: as => (ioStep s a).bind (ioRun · as)

theorem IoReachable.run {s s' : IoSystem} {as : List IoAction} (h : IoReachable s)
    (hr : ioRun s as = some s') : IoReachable s' := by
  induction as generalizing s with
  | nil => cases hr; exact h
  | cons a as ih =>
      simp only [ioRun, Option.bind_eq_some] at hr
      obtain ⟨s1, h1, h2⟩ := hr
      exact ih (h.step h1) h2

/-- Once the stall handler is gone nothing receives from `stallControl` again:
    every move keeps it gone and only appends to the channel. -/
theorem ioStep_of_done {s s' : IoSystem} {a : IoAction} (hd : s.stall.phase = .done)
    (h : ioStep s a = some s') :
    s'.stall.phase = .done ∧ ∃ t, s'.stallControl = s.stallControl ++ t := by
  have hl : (s.stall.phase = .loop) = False := by simp [hd]
  have hc : (s.stall.phase = .cleanup) = False := by simp [hd]
  cases a with
  | inSend m | outSend m =>
      simp only [ioStep] at h; split_ifs at h; cases h; exact ⟨hd, [m], rfl⟩
  | inExit | outExit =>
      simp only [ioStep] at h; split_ifs at h; cases h; exact ⟨hd, [], by simp⟩
  | stallReceive now | stallTick now | stallInQuit | stallOutQuit | stallDrain | stallExit =>
      simp [ioStep, hl, hc] at h

theorem ioRun_of_done {s s' : IoSystem} {as : List IoAction} (hd : s.stall.phase = .done)
    (h : ioRun s as = some s') : ∃ t, s'.stallControl = s.stallControl ++ t := by
  induction as generalizing s with
  | nil => cases h; exact ⟨[], by simp⟩
  | cons a as ih =>
      simp only [ioRun, Option.bind_eq_some] at h
      obtain ⟨s1, h1, h2⟩ := h
      obtain ⟨hd1, t1, ht1⟩ := ioStep_of_done hd h1
      obtain ⟨t2, ht2⟩ := ih hd1 h2
      exact ⟨t1 ++ t2, by rw [ht2, ht1, List.append_assoc]⟩

/-- The output handler's event in the run below. -/
def pingSend : StallControlMsg := ⟨.sendMessage, .ping 0⟩

/-- The input handler exits; the stall handler takes the closed `inQuit` twice,
    drains and returns; the output handler, still running, sends one event. -/
def earlyExitRun : List IoAction := [.inExit, .stallInQuit, .stallInQuit, .stallExit, .outSend pingSend]

/-- **THE STALL HANDLER CAN LEAVE BEFORE `outQuit`.** Some interleaving makes the stall
    handler leave its loop with `outQuit` still open, and the output handler's next
    event then stays in `stallControl` whatever happens afterwards. -/
theorem stallHandler_exits_before_outQuit :
    ∃ s, IoReachable s ∧ s.stall.phase = .done ∧ s.outQuit = false ∧
      ∀ as s', ioRun s as = some s' → s'.stallControl.head? = some pingSend := by
  refine ⟨_, @IoReachable.run _ _ earlyExitRun IoReachable.init rfl, rfl, rfl, fun as s' h => ?_⟩
  obtain ⟨t, ht⟩ := ioRun_of_done rfl h
  rw [ht]
  rfl

/-! ## The verack deadline -/

/-- Only a `version` send sets the `verack` deadline. -/
theorem maybeAddDeadline_verAck (p : Deadlines) {c : Cmd} (h : c ≠ .version) (now : Nat) :
    maybeAddDeadline p c now .verAck = p .verAck := by
  cases c <;> first | exact absurd rfl h | simp [maybeAddDeadline, Function.update]

/-- A receive clears a deadline or leaves it. -/
theorem removeResponse_eq (p : Deadlines) (c k : Cmd) :
    removeResponse p c k = none ∨ removeResponse p c k = p k := by
  rw [removeResponse_apply]
  split
  · exact .inl rfl
  · exact .inr rfl

/-- A `verack` deadline appears only when a `version` send is processed. -/
theorem verAck_pending_step {s : StallState} {ev : StallEvent}
    (h : (stallStep s ev).pendingResponses .verAck ≠ none) :
    s.pendingResponses .verAck ≠ none ∨
      ∃ now m, ev = .control now ⟨.sendMessage, m⟩ ∧ m.command = .version := by
  cases ev with
  | control now msg =>
      rcases msg with ⟨cmd, m⟩
      cases cmd with
      | sendMessage =>
          by_cases hv : m.command = .version
          · exact .inr ⟨now, m, rfl, hv⟩
          · exact .inl (by simpa [stallStep, maybeAddDeadline_verAck _ hv] using h)
      | receiveMessage =>
          refine .inl fun h0 => h ?_
          rcases removeResponse_eq s.pendingResponses m.command .verAck with h1 | h1 <;>
            simp [stallStep, h1, h0]
      | handlerStart => exact .inl (by simp only [stallStep] at h; split_ifs at h <;> exact h)
      | handlerDone => exact .inl (by simp only [stallStep] at h; split_ifs at h <;> exact h)
  | tick now => exact .inl h
  | inQuit => exact .inl (by simp only [stallStep] at h; split_ifs at h <;> exact h)
  | outQuit => exact .inl (by simp only [stallStep] at h; split_ifs at h <;> exact h)

/-- Without a processed `version` send there is never a `verack` deadline. -/
theorem no_verAck_deadline_without_version_send (evs : List StallEvent)
    (h : ∀ now m, .control now ⟨.sendMessage, m⟩ ∈ evs → m.command ≠ .version) :
    (stallRun stallInit evs).pendingResponses .verAck = none := by
  unfold stallRun
  induction evs using List.reverseRecOn with
  | nil => rfl
  | append_singleton evs ev ih =>
      rw [List.foldl_append, List.foldl_cons, List.foldl_nil]
      by_contra hne
      rcases verAck_pending_step hne with h1 | ⟨now, m, rfl, hm⟩
      · exact h1 (ih fun now m hm => h now m (List.mem_append_left _ hm))
      · exact h now m (List.mem_append_right _ (List.mem_singleton_self _)) hm

open PeerNegotiate in
/-- A remote that opens with its own version, at the highest protocol version. -/
def goodVersionIo : NegotiationIo :=
  { remote := .ok (.version
      { protocolVersion := 70013, services := 0, timestamp := 0, nonce := 42, userAgent := ""
        lastBlock := 0, disableRelayTx := false })
    nowUnix := 0, nonce := 1, rejectWriteOk := true, versionWriteOk := true }

open PeerNegotiate in
/-- A fresh inbound peer, its connection attached. -/
def attachedInbound : Peer := (associateConnection (newPeerBase plainConfig true) true).1

open PeerNegotiate in
/-- An inbound negotiation completes with our version on the wire and no `verack`
    received, `start` launches the handlers and queues `verack`, and the stall
    handler it launches begins with no `verack` deadline. Our version never passed
    through the output handler, so no `version` send reaches the stall handler. -/
theorem handshake_leaves_no_verack_deadline :
    (start freshGlobal attachedInbound goodVersionIo false).handlersStarted = true ∧
      (start freshGlobal attachedInbound goodVersionIo false).peer.written.map Msg.command =
        [.version] ∧
      (start freshGlobal attachedInbound goodVersionIo false).peer.flags.verAckReceived = false ∧
      (start freshGlobal attachedInbound goodVersionIo false).queued = [.verAck] ∧
      stallInit.pendingResponses .verAck = none :=
  ⟨rfl, rfl, rfl, rfl, no_verAck_deadline_without_version_send [] (fun _ _ h => nomatch h)⟩

/-! ## What the deadline table says

    The contract of `pendingResponses`, stated over the events processed, not over
    the code's table: the keys each command expects, the group a received command
    clears, and the timeout of each key. `maybeAddDeadline_apply` and
    `removeResponse_apply` say the code's switch statements agree with it; the rest
    follows by induction over the events, the last event bearing on a key deciding
    its entry. -/

/-- The response keys a sent command expects. -/
def expectedResponses : Cmd → List Cmd
  | .version => [.verAck]
  | .memPool | .getBlocks => [.inv]
  | .getData => [.block, .merkleBlock, .tx, .notFound]
  | .getHeaders => [.headers]
  | _ => []

/-- How long a key's answer may take: a stall timeout, three for `headers`. -/
def responseTimeout (k : Cmd) : Nat :=
  if k = .headers then stallResponseTimeout * 3 else stallResponseTimeout

/-- `maybeAddDeadline` sets exactly the expected keys. -/
theorem maybeAddDeadline_apply (p : Deadlines) (c : Cmd) (now : Nat) (k : Cmd) :
    maybeAddDeadline p c now k =
      if k ∈ expectedResponses c then some (now + responseTimeout k) else p k := by
  cases c <;> first | rfl | (cases k <;> rfl)

/-- A processed event that sends, at `now`, a command expecting `k`. -/
def SendsFor (k : Cmd) (now : Nat) : StallEvent → Prop
  | .control t ⟨.sendMessage, m⟩ => t = now ∧ k ∈ expectedResponses m.command
  | _ => False

/-- A processed event that receives a command of `k`'s group. -/
def Clears (k : Cmd) : StallEvent → Prop
  | .control _ ⟨.receiveMessage, m⟩ => m.command ∈ responseGroup k
  | _ => False

theorem SendsFor.not_clears {k : Cmd} {now : Nat} {ev : StallEvent} (h : SendsFor k now ev) :
    ¬ Clears k ev := by
  rcases ev with ⟨_, ⟨_ | _ | _ | _, _⟩⟩ | _ | _ | _ <;> simp_all [SendsFor, Clears]

theorem SendsFor.time_eq {k : Cmd} {a b : Nat} {ev : StallEvent} (ha : SendsFor k a ev)
    (hb : SendsFor k b ev) : a = b := by
  rcases ev with ⟨_, ⟨_ | _ | _ | _, _⟩⟩ | _ | _ | _ <;> simp_all [SendsFor]

/-- One event moves the deadline of `k` as the contract says: a send expecting `k`
    sets it, a receive of `k`'s group clears it, anything else leaves it. -/
theorem pendingResponses_step (s : StallState) (ev : StallEvent) (k : Cmd) :
    (∃ now, SendsFor k now ev ∧
        (stallStep s ev).pendingResponses k = some (now + responseTimeout k)) ∨
      (Clears k ev ∧ (stallStep s ev).pendingResponses k = none) ∨
      ((∀ now, ¬ SendsFor k now ev) ∧ ¬ Clears k ev ∧
        (stallStep s ev).pendingResponses k = s.pendingResponses k) := by
  rcases ev with ⟨now, ⟨cmd, m⟩⟩ | now | _ | _
  · cases cmd with
    | sendMessage =>
        by_cases hk : k ∈ expectedResponses m.command
        · exact .inl ⟨now, ⟨rfl, hk⟩, by simp [stallStep, maybeAddDeadline_apply, hk]⟩
        · exact .inr <| .inr ⟨fun _ h => hk h.2, id, by simp [stallStep, maybeAddDeadline_apply, hk]⟩
    | receiveMessage =>
        by_cases hc : m.command ∈ responseGroup k
        · exact .inr <| .inl ⟨hc, by simp [stallStep, removeResponse_apply, hc]⟩
        · exact .inr <| .inr ⟨fun _ => id, hc, by simp [stallStep, removeResponse_apply, hc]⟩
    | handlerStart | handlerDone =>
        refine .inr <| .inr ⟨fun _ => id, id, ?_⟩
        simp only [stallStep]; split_ifs <;> rfl
  · exact .inr <| .inr ⟨fun _ => id, id, rfl⟩
  all_goals
    refine .inr <| .inr ⟨fun _ => id, id, ?_⟩
    simp only [stallStep]; split_ifs <;> rfl

theorem stallRun_append_singleton (s : StallState) (evs : List StallEvent) (ev : StallEvent) :
    stallRun s (evs ++ [ev]) = stallStep (stallRun s evs) ev := by
  simp [stallRun]

/-- The last event of a trace is either the one picked out or part of what follows it. -/
theorem split_append_singleton {α : Type} {evs pre post : List α} {ev x : α}
    (h : evs ++ [ev] = pre ++ x :: post) : (pre = evs ∧ x = ev ∧ post = []) ∨
      ∃ post', post = post' ++ [ev] ∧ evs = pre ++ x :: post' := by
  rcases List.eq_nil_or_concat post with rfl | ⟨post', y, rfl⟩
  · obtain ⟨h1, h2⟩ := List.append_inj' h rfl
    exact Or.inl ⟨h1.symm, (List.singleton_inj.1 h2).symm, rfl⟩
  · have h' : evs ++ [ev] = (pre ++ x :: post') ++ [y] := by simpa using h
    obtain ⟨h1, h2⟩ := List.append_inj' h' rfl
    obtain rfl := List.singleton_inj.1 h2
    exact Or.inr ⟨post', by simp, h1⟩

/-- The deadline of `k` is the one the last send expecting `k` set, when nothing
    bearing on `k` followed it. -/
theorem pendingResponses_eq_some_iff (evs : List StallEvent) (k : Cmd) (d : Nat) :
    (stallRun stallInit evs).pendingResponses k = some d ↔
      ∃ pre ev post now, evs = pre ++ ev :: post ∧ SendsFor k now ev ∧
        d = now + responseTimeout k ∧ ∀ e ∈ post, ¬ Clears k e ∧ ∀ t, ¬ SendsFor k t e := by
  induction evs using List.reverseRecOn with
  | nil => simp [stallRun, stallInit]
  | append_singleton evs ev ih =>
      rw [stallRun_append_singleton]
      rcases pendingResponses_step (stallRun stallInit evs) ev k with
        ⟨now, hs, he⟩ | ⟨hc, he⟩ | ⟨hs, hc, he⟩ <;> rw [he]
      · constructor
        · rintro ⟨rfl⟩
          exact ⟨evs, ev, [], now, rfl, hs, rfl, by simp⟩
        · rintro ⟨pre, x, post, t, h, hx, rfl, hpost⟩
          rcases split_append_singleton h with ⟨-, rfl, -⟩ | ⟨post', rfl, -⟩
          · rw [hs.time_eq hx]
          · exact absurd hs ((hpost ev (by simp)).2 now)
      · refine iff_of_false (by simp) ?_
        rintro ⟨pre, x, post, t, h, hx, -, hpost⟩
        rcases split_append_singleton h with ⟨-, rfl, -⟩ | ⟨post', rfl, -⟩
        · exact hx.not_clears hc
        · exact (hpost ev (by simp)).1 hc
      · rw [ih]
        constructor
        · rintro ⟨pre, x, post, t, rfl, hx, hd, hpost⟩
          refine ⟨pre, x, post ++ [ev], t, by simp, hx, hd, fun e he => ?_⟩
          rcases List.mem_append.1 he with he | he
          · exact hpost e he
          · rw [List.mem_singleton.1 he]; exact ⟨hc, hs⟩
        · rintro ⟨pre, x, post, t, h, hx, hd, hpost⟩
          rcases split_append_singleton h with ⟨-, rfl, -⟩ | ⟨post', rfl, hevs⟩
          · exact absurd hx (hs t)
          · exact ⟨pre, x, post', t, hevs, hx, hd, fun e he => hpost e (by simp [he])⟩

/-- After a send expecting `k`, the deadline of `k` stays set while no receive of
    its group comes. -/
theorem pendingResponses_isSome_run {s : StallState} {k : Cmd} {post : List StallEvent}
    (hs : (s.pendingResponses k).isSome) (hpost : ∀ e ∈ post, ¬ Clears k e) :
    ((stallRun s post).pendingResponses k).isSome := by
  induction post generalizing s with
  | nil => exact hs
  | cons e post ih =>
      refine ih ?_ fun e' he' => hpost e' (List.mem_cons_of_mem e he')
      rcases pendingResponses_step s e k with ⟨_, -, he⟩ | ⟨hc, -⟩ | ⟨-, -, he⟩
      · simp [he]
      · exact absurd hc (hpost e (List.mem_cons_self e post))
      · rwa [he]

/-- A key is pending exactly when a send expecting it came after the last receive
    of its group. -/
theorem pendingResponses_isSome_iff (evs : List StallEvent) (k : Cmd) :
    ((stallRun stallInit evs).pendingResponses k).isSome ↔
      ∃ pre ev post now, evs = pre ++ ev :: post ∧ SendsFor k now ev ∧
        ∀ e ∈ post, ¬ Clears k e := by
  constructor
  · intro h
    obtain ⟨d, hd⟩ := Option.isSome_iff_exists.1 h
    obtain ⟨pre, ev, post, now, hevs, hs, -, hpost⟩ := (pendingResponses_eq_some_iff evs k d).1 hd
    exact ⟨pre, ev, post, now, hevs, hs, fun e he => (hpost e he).1⟩
  · rintro ⟨pre, ev, post, now, rfl, hs, hpost⟩
    have hrun : stallRun stallInit (pre ++ ev :: post) =
        stallRun (stallStep (stallRun stallInit pre) ev) post := by simp [stallRun]
    rw [hrun]
    refine pendingResponses_isSome_run ?_ hpost
    rcases pendingResponses_step (stallRun stallInit pre) ev k with
      ⟨_, -, he⟩ | ⟨hc, -⟩ | ⟨hn, -, -⟩
    · simp [he]
    · exact absurd hc hs.not_clears
    · exact absurd hs (hn now)

/-! ### The four `getdata` answers -/

section GetDataGroup

variable {k : Cmd} (hk : k ∈ responseGroup .block)
include hk

theorem responseGroup_eq_of_mem : responseGroup k = responseGroup .block := by
  simp only [responseGroup, List.mem_cons, List.mem_singleton, List.not_mem_nil, or_false] at hk
  rcases hk with rfl | rfl | rfl | rfl <;> rfl

theorem mem_expectedResponses_of_mem (c : Cmd) :
    k ∈ expectedResponses c ↔ .block ∈ expectedResponses c := by
  simp only [responseGroup, List.mem_cons, List.mem_singleton, List.not_mem_nil, or_false] at hk
  rcases hk with rfl | rfl | rfl | rfl <;> cases c <;> decide

theorem responseTimeout_of_mem : responseTimeout k = responseTimeout .block := by
  simp only [responseGroup, List.mem_cons, List.mem_singleton, List.not_mem_nil, or_false] at hk
  rcases hk with rfl | rfl | rfl | rfl <;> rfl

theorem sendsFor_iff_of_mem (t : Nat) (e : StallEvent) : SendsFor k t e ↔ SendsFor .block t e := by
  rcases e with ⟨_, ⟨_ | _ | _ | _, m⟩⟩ | _ | _ | _ <;>
    simp only [SendsFor, mem_expectedResponses_of_mem hk]

theorem clears_iff_of_mem (e : StallEvent) : Clears k e ↔ Clears .block e := by
  rcases e with ⟨_, ⟨_ | _ | _ | _, m⟩⟩ | _ | _ | _ <;>
    first | rfl | simp only [Clears, responseGroup_eq_of_mem hk]

/-- The four `getdata` answers are pending together, with one deadline. -/
theorem pendingResponses_of_mem_group (evs : List StallEvent) :
    (stallRun stallInit evs).pendingResponses k = (stallRun stallInit evs).pendingResponses .block :=
  Option.ext fun d => by
    simp only [Option.mem_def, pendingResponses_eq_some_iff, sendsFor_iff_of_mem hk,
      clears_iff_of_mem hk, responseTimeout_of_mem hk]

end GetDataGroup

/-- **THE DEADLINE TABLE IS WHAT THE EVENTS SAY.** After any sequence of events the
    stall handler processes, a key is pending exactly when a send expecting it came
    after the last receive of its group; its deadline is the processing time of the
    latest such send plus the key's timeout; a tick never changes the table; and the
    four `getdata` answers are pending together, with one deadline. -/
theorem pendingResponses_contract (evs : List StallEvent) (k : Cmd) :
    (((stallRun stallInit evs).pendingResponses k).isSome ↔
      ∃ pre ev post now, evs = pre ++ ev :: post ∧ SendsFor k now ev ∧
        ∀ e ∈ post, ¬ Clears k e) ∧
    (∀ d, (stallRun stallInit evs).pendingResponses k = some d ↔
      ∃ pre ev post now, evs = pre ++ ev :: post ∧ SendsFor k now ev ∧
        d = now + responseTimeout k ∧ ∀ e ∈ post, ¬ Clears k e ∧ ∀ t, ¬ SendsFor k t e) ∧
    (∀ s now, (stallStep s (.tick now)).pendingResponses = s.pendingResponses) ∧
    (k ∈ responseGroup .block →
      (stallRun stallInit evs).pendingResponses k = (stallRun stallInit evs).pendingResponses .block) :=
  ⟨pendingResponses_isSome_iff evs k, pendingResponses_eq_some_iff evs k, fun _ _ => rfl,
    fun hk => pendingResponses_of_mem_group hk evs⟩

end PeerStall
