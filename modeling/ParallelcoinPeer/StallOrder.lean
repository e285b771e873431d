import ParallelcoinPeer.Stall

/-! # The order the stall handler sees

    `outHandler` sends its `sccSendMessage` event on `stallControl` before it writes
    the message; `inHandler` sends `sccReceiveMessage`, `sccHandlerStart` and
    `sccHandlerDone` for a message only after it has read it. `stallControl` is one
    FIFO channel, and `stallHandler` processes events in its main loop only; its
    cleanup drains the rest unprocessed.

    `OrderSys` runs the three handlers with the network in between: our writes reach
    the remote in order, and the remote sends whatever it likes, any time. Every
    event on the channel carries a ghost `Tag` naming the write or the read it
    concerns, and every read records which of our writes the remote had received by
    then. Whatever the interleaving, the send event of a write the remote had
    received before a read is processed before any event of that read
    (`send_processed_before_later_read`): a reply never reaches the stall
    bookkeeping before the deadline of its request. -/

namespace PeerStallOrder

open PeerWire PeerStall

/-- Which message a stall event concerns: our `k`-th write or the `k`-th read. -/
inductive Tag where
  | out (k : Nat)
  | inn (k : Nat)
  deriving DecidableEq, Repr

/-- A stall event with the tag of its message. -/
abbrev Event := StallControlMsg × Tag

/-- The send event of our `k`-th write, of message `m`. -/
def sendEvent (k : Nat) (m : Msg) : Event := (⟨.sendMessage, m⟩, .out k)

/-- Where `outHandler` is: waiting on `sendQueue`, past its stall event with the
    write still to come, or gone. -/
inductive OutStage where
  | idle
  | announced (k : Nat) (m : Msg)
  | exited

/-- Where `inHandler` is in one turn of its loop: waiting to read, past the read,
    past the receive event, past the handler-start event (handling), or gone. -/
inductive InStage where
  | idle
  | read (k : Nat) (m : Msg)
  | received (k : Nat) (m : Msg)
  | handling (k : Nat) (m : Msg)
  | exited

/-- The three handlers, the channel, the connection both ways, and the ghost
    records: `sent` every event put on `stallControl`, `processed` those the main
    loop took, `drained` those the cleanup dropped, and `reads` per read the writes
    the remote had received by then. -/
structure OrderSys where
  out : OutStage
  outNext : Nat
  wire : List (Nat × Msg)
  remoteGot : List (Nat × Msg)
  back : List Msg
  inn : InStage
  inNext : Nat
  stall : StallState
  stallControl : List Event
  inQuit : Bool
  outQuit : Bool
  sent : List Event
  processed : List Event
  drained : List Event
  reads : List (Nat × List (Nat × Msg))

/-- The handlers as `start` launches them on a fresh connection. -/
def orderInit : OrderSys :=
  { out := .idle, outNext := 0, wire := [], remoteGot := [], back := [], inn := .idle
    inNext := 0, stall := stallInit, stallControl := [], inQuit := false, outQuit := false
    sent := [], processed := [], drained := [], reads := [] }

/-- Put an event on `stallControl`; the send blocks while the slot is taken. -/
def OrderSys.put (s : OrderSys) (e : Event) : Option OrderSys :=
  if s.stallControl.length < stallControlCap then
    some { s with stallControl := s.stallControl ++ [e], sent := s.sent ++ [e] }
  else none

/-- The moves: `outHandler`'s event and write, the remote's receive and send,
    `inHandler`'s read and its three events, the exits, and `stallHandler`'s
    `select` cases and cleanup. -/
inductive OrderAction where
  | outAnnounce (m : Msg)
  | outWrite
  | outExit
  | remoteReceive
  | remoteSend (m : Msg)
  | inRead
  | inReceive
  | inStart
  | inDone
  | inExit
  | stallReceive (now : Nat)
  | stallTick (now : Nat)
  | stallInQuit
  | stallOutQuit
  | stallDrain
  | stallExit

/-- One move, `none` when it is not enabled. -/
def orderStep (s : OrderSys) : OrderAction → Option OrderSys
  | .outAnnounce m =>
    match s.out with
    | .idle =>
      ({ s with out := .announced s.outNext m, outNext := s.outNext + 1 }).put
        (sendEvent s.outNext m)
    | _ => none
  | .outWrite =>
    match s.out with
    | .announced k m => some { s with out := .idle, wire := s.wire ++ [(k, m)] }
    | _ => none
  | .outExit =>
    match s.out with
    | .idle => some { s with out := .exited, outQuit := true }
    | _ => none
  | .remoteReceive =>
    match s.wire with
    | w :: rest => some { s with wire := rest, remoteGot := s.remoteGot ++ [w] }
    | [] => none
  | .remoteSend m => some { s with back := s.back ++ [m] }
  | .inRead =>
    match s.inn, s.back with
    | .idle, m :: rest =>
      some { s with inn := .read s.inNext m, back := rest, inNext := s.inNext + 1
                    reads := s.reads ++ [(s.inNext, s.remoteGot)] }
    | _, _ => none
  | .inReceive =>
    match s.inn with
    | .read k m => ({ s with inn := .received k m }).put (⟨.receiveMessage, m⟩, .inn k)
    | _ => none
  | .inStart =>
    match s.inn with
    | .received k m => ({ s with inn := .handling k m }).put (⟨.handlerStart, m⟩, .inn k)
    | _ => none
  | .inDone =>
    match s.inn with
    | .handling k m => ({ s with inn := .idle }).put (⟨.handlerDone, m⟩, .inn k)
    | _ => none
  | .inExit =>
    match s.inn with
    | .idle => some { s with inn := .exited, inQuit := true }
    | _ => none
  | .stallReceive now =>
    if s.stall.phase = .loop then
      match s.stallControl with
      | e :: rest =>
        some { s with stall := stallStep s.stall (.control now e.1), stallControl := rest
                      processed := s.processed ++ [e] }
      | [] => none
    else none
  | .stallTick now =>
    if s.stall.phase = .loop then some { s with stall := stallStep s.stall (.tick now) }
    else none
  | .stallInQuit =>
    if s.stall.phase = .loop ∧ s.inQuit then some { s with stall := stallStep s.stall .inQuit }
    else none
  | .stallOutQuit =>
    if s.stall.phase = .loop ∧ s.outQuit then some { s with stall := stallStep s.stall .outQuit }
    else none
  | .stallDrain =>
    if s.stall.phase = .cleanup then
      match s.stallControl with
      | e :: rest => some { s with stallControl := rest, drained := s.drained ++ [e] }
      | [] => none
    else none
  | .stallExit =>
    if s.stall.phase = .cleanup ∧ s.stallControl = [] then
      some { s with stall := { s.stall with phase := .done } }
    else none

/-- The states some interleaving reaches. -/
inductive OrderReachable : OrderSys → Prop where
  | init : OrderReachable orderInit
  | step {s s' : OrderSys} {a : OrderAction} :
      OrderReachable s → orderStep s a = some s' → OrderReachable s'

/-- Play a list of moves. -/
def orderRun (s : OrderSys) : List OrderAction → Option OrderSys
  | [] => some s
  | a :: as => (orderStep s a).bind (orderRun · as)

theorem OrderReachable.run {s s' : OrderSys} {as : List OrderAction} (h : OrderReachable s)
    (hr : orderRun s as = some s') : OrderReachable s' := by
  induction as generalizing s with
  | nil => cases hr; exact h
  | cons a as ih =>
      simp only [orderRun, Option.bind_eq_some] at hr
      obtain ⟨s1, h1, h2⟩ := hr
      exact ih (h.step h1) h2

/-! ## The invariant -/

/-- Every event of `l` tagged `t` comes after an occurrence of `e`. -/
def PrecededBy (e : Event) (t : Tag) (l : List Event) : Prop :=
  ∀ pre f post, l = pre ++ (f, t) :: post → e ∈ pre

/-- Appending an event keeps the order, given `e` is already there when the new
    event carries the tag. -/
theorem PrecededBy.append {e : Event} {t : Tag} {l : List Event} (h : PrecededBy e t l)
    {x : Event} (hx : x.2 = t → e ∈ l) : PrecededBy e t (l ++ [x]) := by
  intro pre f post hl
  rcases split_append_singleton hl with ⟨rfl, rfl, -⟩ | ⟨post', -, hl'⟩
  · exact hx rfl
  · exact h pre f post' hl'

/-- A tag nothing carries yet is preceded by anything. -/
theorem precededBy_of_not_mem {e : Event} {t : Tag} {l : List Event} (h : ∀ f, (f, t) ∉ l) :
    PrecededBy e t l := fun pre f post hl => absurd (hl ▸ by simp) (h f)

/-- The read `inHandler` is busy with, if any. -/
def InStage.index : InStage → Option Nat
  | .read k _ | .received k _ | .handling k _ => some k
  | .idle | .exited => none

@[simp] theorem stallStep_control_phase (st : StallState) (now : Nat) (m : StallControlMsg) :
    (stallStep st (.control now m)).phase = st.phase := by
  rcases m with ⟨_ | _ | _ | _, _⟩ <;> simp only [stallStep] <;> split_ifs <;> rfl

@[simp] theorem stallStep_tick_phase (st : StallState) (now : Nat) :
    (stallStep st (.tick now)).phase = st.phase := rfl

/-- What every reachable state satisfies: the channel is FIFO over the ghost log,
    every write past its event has its send event logged, reads are numbered
    afresh, and every read's events come after the send events of the writes the
    remote had received before it. -/
structure OrderInv (s : OrderSys) : Prop where
  fifo : s.sent = s.processed ++ s.drained ++ s.stallControl
  loop_clean : s.stall.phase = .loop → s.drained = []
  announced : ∀ k m, s.out = .announced k m → sendEvent k m ∈ s.sent
  wire : ∀ w ∈ s.wire, sendEvent w.1 w.2 ∈ s.sent
  got : ∀ w ∈ s.remoteGot, sendEvent w.1 w.2 ∈ s.sent
  fresh : ∀ e ∈ s.sent, ∀ k, e.2 = .inn k → k < s.inNext
  stage : ∀ k, s.inn.index = some k → k < s.inNext
  reads : ∀ r ∈ s.reads, ∀ w ∈ r.2,
    sendEvent w.1 w.2 ∈ s.sent ∧ PrecededBy (sendEvent w.1 w.2) (.inn r.1) s.sent

theorem orderInv_init : OrderInv orderInit := by
  constructor <;> simp [orderInit, InStage.index]


theorem OrderSys.put_eq {s s' : OrderSys} {e : Event} (h : s.put e = some s') :
    s' = { s with stallControl := s.stallControl ++ [e], sent := s.sent ++ [e] } := by
  unfold OrderSys.put at h
  split_ifs at h
  exact (Option.some.inj h).symm

section Steps

variable {s s' : OrderSys}

/-- An event of the read `inHandler` is busy with keeps the invariant. -/
theorem OrderInv.put_inn (hi : OrderInv s) {k : Nat} (hk : s.inn.index = some k) {st : InStage}
    (hst : ∀ k', st.index = some k' → k' = k) {c : StallControlMsg}
    (h : ({ s with inn := st } : OrderSys).put (c, .inn k) = some s') : OrderInv s' := by
  obtain rfl := OrderSys.put_eq h
  refine ⟨by simp [hi.fifo], hi.loop_clean, fun k' m hm => List.mem_append_left _ (hi.announced k' m hm),
    fun w hw => List.mem_append_left _ (hi.wire w hw), fun w hw => List.mem_append_left _ (hi.got w hw),
    fun e he k' hk' => ?_, fun k' hk' => (hst k' hk') ▸ hi.stage k hk, fun r hr w hw =>
    ⟨List.mem_append_left _ (hi.reads r hr w hw).1,
      (hi.reads r hr w hw).2.append fun _ => (hi.reads r hr w hw).1⟩⟩
  rcases List.mem_append.1 he with he | he
  · exact hi.fresh e he k' hk'
  · rw [List.mem_singleton.1 he] at hk'
    cases hk'
    exact hi.stage k hk

/-- **EVERY MOVE KEEPS THE INVARIANT.** -/
theorem OrderInv.step (hi : OrderInv s) {a : OrderAction} (h : orderStep s a = some s') :
    OrderInv s' := by
  cases a with
  | outAnnounce m =>
      simp only [orderStep] at h
      split at h
      · obtain rfl := OrderSys.put_eq h
        refine ⟨by simp [hi.fifo], hi.loop_clean, fun k m' hm => ?_,
          fun w hw => List.mem_append_left _ (hi.wire w hw),
          fun w hw => List.mem_append_left _ (hi.got w hw), fun e he k hk => ?_, hi.stage,
          fun r hr w hw => ⟨List.mem_append_left _ (hi.reads r hr w hw).1,
            (hi.reads r hr w hw).2.append fun hx => by cases hx⟩⟩
        · cases hm; simp
        · rcases List.mem_append.1 he with he | he
          · exact hi.fresh e he k hk
          · rw [List.mem_singleton.1 he] at hk; cases hk
      · cases h
  | outWrite =>
      simp only [orderStep] at h
      split at h
      · cases h
        refine { hi with announced := fun _ _ h => (by cases h), wire := fun w hw => ?_ }
        rcases List.mem_append.1 hw with hw | hw
        · exact hi.wire w hw
        · rw [List.mem_singleton.1 hw]; exact hi.announced _ _ ‹_›
      · cases h
  | outExit =>
      simp only [orderStep] at h
      split at h
      · cases h; exact { hi with announced := fun _ _ h => by cases h }
      · cases h
  | remoteReceive =>
      simp only [orderStep] at h
      split at h
      · cases h
        rename_i w rest hw
        refine { hi with wire := fun x hx => hi.wire x (by simp [hw, hx]), got := fun x hx => ?_ }
        rcases List.mem_append.1 hx with hx | hx
        · exact hi.got x hx
        · rw [List.mem_singleton.1 hx]; exact hi.wire w (by simp [hw])
      · cases h
  | remoteSend m => cases h; exact { hi with }
  | inRead =>
      simp only [orderStep] at h
      split at h
      · cases h
        refine { hi with fresh := fun e he k hk => Nat.lt_succ_of_lt (hi.fresh e he k hk)
                         stage := fun k hk => ?_, reads := fun r hr w hw => ?_ }
        · cases hk; exact Nat.lt_succ_self _
        · rcases List.mem_append.1 hr with hr | hr
          · exact hi.reads r hr w hw
          · rw [List.mem_singleton.1 hr] at hw ⊢
            exact ⟨hi.got w hw, precededBy_of_not_mem fun f hf =>
              Nat.lt_irrefl _ (hi.fresh _ hf _ rfl)⟩
      · cases h
  | inReceive =>
      simp only [orderStep] at h
      split at h
      · exact hi.put_inn (by simp [InStage.index, *]) (fun _ h => by cases h; rfl) h
      · cases h
  | inStart =>
      simp only [orderStep] at h
      split at h
      · exact hi.put_inn (by simp [InStage.index, *]) (fun _ h => by cases h; rfl) h
      · cases h
  | inDone =>
      simp only [orderStep] at h
      split at h
      · exact hi.put_inn (by simp [InStage.index, *]) (fun _ h => by cases h) h
      · cases h
  | inExit =>
      simp only [orderStep] at h
      split at h
      · cases h; exact { hi with stage := fun _ h => by cases h }
      · cases h
  | stallReceive now =>
      simp only [orderStep] at h
      split_ifs at h with hl
      split at h
      · cases h
        rename_i e rest hc
        refine { hi with fifo := by simp [hi.fifo, hi.loop_clean hl, hc]
                         loop_clean := fun _ => hi.loop_clean hl }
      · cases h
  | stallTick now =>
      simp only [orderStep] at h
      split_ifs at h with hl
      cases h
      exact { hi with loop_clean := fun _ => hi.loop_clean hl }
  | stallInQuit | stallOutQuit =>
      simp only [orderStep] at h
      split_ifs at h with hl
      cases h
      exact { hi with loop_clean := fun _ => hi.loop_clean hl.1 }
  | stallDrain =>
      simp only [orderStep] at h
      split_ifs at h with hl
      split at h
      · cases h
        rename_i e rest hc
        exact { hi with fifo := by simp [hi.fifo, hc]
                        loop_clean := fun h' => by rw [hl] at h'; cases h' }
      · cases h
  | stallExit =>
      simp only [orderStep] at h
      split_ifs at h with hl
      cases h
      exact { hi with loop_clean := fun h' => by cases h' }

end Steps

theorem OrderReachable.inv {s : OrderSys} (h : OrderReachable s) : OrderInv s := by
  induction h with
  | init => exact orderInv_init
  | step _ hs ih => exact ih.step hs


/-! ## Sends before the reads that follow them -/

/-- **A REQUEST'S SEND EVENT IS PROCESSED BEFORE ANY LATER READ'S EVENTS.** In every
    interleaving of the three handlers and the remote, if the remote had received our
    `k`-th write, of message `r`, when `inHandler` made its `j`-th read, then the stall
    handler processes the send event of `r` before any event of that read (its
    receive, handler start or handler done). -/
theorem send_processed_before_later_read {s : OrderSys} (hs : OrderReachable s) {j : Nat}
    {got : List (Nat × Msg)} (hj : (j, got) ∈ s.reads) {k : Nat} {r : Msg} (hr : (k, r) ∈ got)
    {pre post : List Event} {e : StallControlMsg} (hp : s.processed = pre ++ (e, .inn j) :: post) :
    sendEvent k r ∈ pre :=
  (hs.inv.reads _ hj _ hr).2 pre e (post ++ s.drained ++ s.stallControl)
    (by rw [hs.inv.fifo, hp]; simp)

/-- Our `getdata` goes out and reaches the remote, whose `block` is read next: the
    stall handler takes the send event and then the receive event. -/
def requestReplyRun : List OrderAction :=
  [.outAnnounce .getData, .stallReceive 0, .outWrite, .remoteReceive, .remoteSend .block,
   .inRead, .inReceive, .stallReceive 1]

theorem send_processed_before_later_read_on_reply :
    ∃ s, orderRun orderInit requestReplyRun = some s ∧ (0, [(0, Msg.getData)]) ∈ s.reads ∧
      (0, Msg.getData) ∈ [(0, Msg.getData)] ∧
      s.processed = [sendEvent 0 .getData] ++ (⟨.receiveMessage, .block⟩, .inn 0) :: [] ∧
      sendEvent 0 .getData ∈ [sendEvent 0 .getData] :=
  ⟨_, rfl, by simp [orderInit], by simp, rfl,
    @send_processed_before_later_read _ (@OrderReachable.run _ _ requestReplyRun .init rfl) 0
      [(0, .getData)] (by simp [orderInit]) 0 .getData (by simp) [sendEvent 0 .getData] [] _ rfl⟩

end PeerStallOrder
