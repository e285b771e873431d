import ParallelcoinPeer.Handoff

/-! # Completion channels

    A caller of `QueueMessageWithEncoding` may pass a completion channel. The peer
    signals it when it turns the message away, when `outHandler` has written the
    message or failed to, and when a handler drops the message at shutdown: the
    final drain of `pendingMsgs`, the cleanup loops over `outputQueue` and
    `sendQueue`.

    `Conserved` says that nothing is lost or signalled twice on the way: the
    channels of the requested messages are, as a multiset, the signalled ones and
    those of the messages a caller or a handler still holds. `ShutdownInv` says what
    the two handlers leave behind when they exit. Together:

    * `signals_nodup`: when callers use distinct channels, none is signalled twice;
    * `shutdown_signals`: once both handlers are gone, a requested channel is either
      signalled or belongs to a message still with a caller or in `outputQueue`.

    The second case is not empty: a caller can pass its `Connected` check before
    `Disconnect` and send after both handlers are gone, and nothing ever signals
    that channel (`completion_lost_after_shutdown`). -/

namespace PeerPipeline

open PeerWire

/-- The completion channels of a list of messages. -/
def chans (l : List OutMsg) : List Nat := l.filterMap OutMsg.doneChan

@[simp] theorem chans_nil : chans [] = [] := rfl

@[simp] theorem chans_cons (m : OutMsg) (l : List OutMsg) :
    chans (m :: l) = m.doneChan.toList ++ chans l := by
  cases h : m.doneChan <;> simp [chans, h]

@[simp] theorem chans_append (l₁ l₂ : List OutMsg) : chans (l₁ ++ l₂) = chans l₁ ++ chans l₂ :=
  List.filterMap_append _ _ _

/-- The drain at `quit` signals the parked messages in order. -/
theorem foldl_signal (signals : List Nat) (l : List OutMsg) :
    l.foldl signal signals = signals ++ chans l := by
  induction l generalizing signals with
  | nil => simp
  | cons m l ih => simp [ih, signal]

/-- The message `outHandler` is writing, if any. -/
def OutPhase.held : OutPhase → List OutMsg
  | .writing m => [m]
  | _ => []

/-- The messages a caller or a handler still holds: callers about to send, then
    `outputQueue`, `pendingMsgs`, `sendQueue`, and the message being written. -/
def unsettled (s : Pipeline) : List OutMsg :=
  s.senders ++ s.outputQueue ++ s.pendingMsgs ++ s.sendQueue ++ s.oPhase.held

/-- Every requested channel is signalled or travels with its message, as often as it
    was requested. -/
def Conserved (s : Pipeline) : Prop :=
  (chans s.requested).Perm (s.signals ++ chans (unsettled s))

theorem conserved_iff (s : Pipeline) :
    Conserved s ↔ ∀ c, (chans s.requested).count c =
      s.signals.count c + (chans (unsettled s)).count c := by
  simp only [Conserved, List.perm_iff_count, List.count_append]

variable {s s' : Pipeline}

/-- Taking the `i`-th entry out and putting it in front permutes a list. -/
theorem perm_cons_eraseIdx {α : Type} {l : List α} {i : Nat} {a : α} (h : l[i]? = some a) :
    l.Perm (a :: l.eraseIdx i) := by
  induction l generalizing i with
  | nil => simp at h
  | cons b l ih =>
      cases i with
      | zero => simp only [List.getElem?_cons_zero, Option.some.injEq] at h; subst h; rfl
      | succ i =>
          simp only [List.getElem?_cons_succ] at h
          exact ((ih h).cons b).trans (List.Perm.swap a b _)

/-- `queuePacket` moves a message into the handlers' hands. -/
theorem count_unsettled_queuePacket (s : Pipeline) (m : OutMsg) (c : Nat) :
    (chans (unsettled (queuePacket s m))).count c =
      (chans (unsettled s)).count c + m.doneChan.toList.count c := by
  rw [queuePacket_eq]
  cases s.waiting <;> simp [unsettled, List.count_append] <;> omega

theorem Conserved.queueInvs (hc : Conserved s) (ms : List (List InvVect)) :
    Conserved (queueInvs s ms) := by
  induction ms generalizing s with
  | nil => exact hc
  | cons l ms ih =>
      rw [queueInvs_cons]
      refine ih ((conserved_iff _).2 fun c => ?_)
      rw [count_unsettled_queuePacket]
      simpa [invPacket, queuePacket_eq] using (conserved_iff _).1 hc c

theorem Conserved.receiveInv (hc : Conserved s) (iv : InvVect) : Conserved (receiveInv s iv) := by
  unfold PeerPipeline.receiveInv
  split_ifs
  · exact hc.queueInvs _
  · exact hc
  · exact hc

theorem Conserved.trickleTick (hc : Conserved s) : Conserved (trickleTick s) := by
  unfold PeerPipeline.trickleTick
  split_ifs
  · exact hc
  · have hk : Conserved { s with
        knownInventory := (trickleLoop s.knownInventory [] s.invSendQueue).1
        invSendQueue := [] } := hc
    exact hk.queueInvs _

theorem Conserved.sendDone (hc : Conserved s) : Conserved (sendDone s) := by
  refine (conserved_iff _).2 fun c => ?_
  have := (conserved_iff _).1 hc c
  cases hp : s.pendingMsgs <;>
    simp only [PeerPipeline.sendDone, unsettled, hp, chans_append, chans_cons, chans_nil,
      List.count_append, List.count_nil] at this ⊢ <;> omega

/-- Every move keeps the channels accounted for. -/
theorem Conserved.of_step (hc : Conserved s) {a : Action} (h : step s a = some s') :
    Conserved s' := by
  have hcount := (conserved_iff s).1 hc
  cases a with
  | queueMessage m =>
      cases h; unfold queueMessage
      split <;> refine (conserved_iff _).2 fun c => ?_ <;> have := hcount c <;>
        simp only [unsettled, signal, chans_append, chans_cons, chans_nil, List.count_append,
          List.count_nil] at this ⊢ <;> omega
  | sendOutput i =>
      obtain ⟨m, hm, -, rfl⟩ := step_sendOutput h
      refine (conserved_iff _).2 fun c => ?_
      have hs : (chans s.senders).count c = (chans (m :: s.senders.eraseIdx i)).count c :=
        ((perm_cons_eraseIdx hm).filterMap OutMsg.doneChan).count_eq c
      have := hcount c
      simp only [unsettled, chans_append, chans_cons, chans_nil, List.count_append, List.count_nil] at this hs ⊢
      omega
  | queueInventory iv =>
      cases h; unfold queueInventory; split_ifs <;> exact hc
  | sendInv i => obtain ⟨iv, -, -, rfl⟩ := step_sendInv h; exact hc
  | addKnownInventory iv | disconnect => cases h; exact hc
  | qOutput =>
      obtain ⟨m, rest, -, ho, rfl⟩ := step_qOutput h
      refine (conserved_iff _).2 fun c => ?_
      rw [count_unsettled_queuePacket]
      have := hcount c
      simp only [unsettled, ho, queuePacket_eq, chans_append, chans_cons, List.count_append,
        List.count_nil] at this ⊢
      omega
  | qSendDone =>
      simp only [step] at h
      split_ifs at h
      cases h
      exact hc.sendDone
  | qInv =>
      obtain ⟨iv, rest, -, -, rfl⟩ := step_qInv h
      have hc' : Conserved { s with outputInvChan := rest } := hc
      exact hc'.receiveInv iv
  | qTrickle =>
      simp only [step] at h
      split_ifs at h
      cases h
      exact hc.trickleTick
  | qQuit =>
      simp only [step] at h
      split_ifs at h
      cases h
      refine (conserved_iff _).2 fun c => ?_
      have := hcount c
      simp only [unsettled, foldl_signal, chans_append, chans_nil, List.count_append,
        List.count_nil] at this ⊢
      omega
  | qCleanupOutput =>
      obtain ⟨m, rest, -, ho, rfl⟩ := step_qCleanupOutput h
      refine (conserved_iff _).2 fun c => ?_
      have := hcount c
      simp only [unsettled, signal, ho, chans_append, chans_cons, List.count_append, List.count_nil] at this ⊢
      omega
  | qCleanupInv => obtain ⟨iv, rest, -, -, rfl⟩ := step_qCleanupInv h; exact hc
  | qExit => simp only [step] at h; split_ifs at h; cases h; exact hc
  | oTake =>
      obtain ⟨m, rest, ho, hq, rfl⟩ := step_oTake h
      refine (conserved_iff _).2 fun c => ?_
      have := hcount c
      simp only [unsettled, ho, hq, OutPhase.held, chans_append, chans_cons, chans_nil,
        List.count_append, List.count_nil] at this ⊢
      omega
  | oWrite ok =>
      obtain ⟨m, ho, rfl⟩ := step_oWrite h
      refine (conserved_iff _).2 fun c => ?_
      have := hcount c
      unfold finishWrite
      split_ifs <;>
        simp only [unsettled, signal, ho, OutPhase.held, chans_append, chans_cons, chans_nil,
          List.count_append, List.count_nil] at this ⊢ <;> omega
  | oQuit | oQueueQuit | oExit =>
      simp only [step] at h
      split_ifs at h with hp
      cases h
      refine (conserved_iff _).2 fun c => ?_
      simpa [unsettled, hp.1, OutPhase.held] using hcount c
  | oCleanup =>
      obtain ⟨m, rest, -, hq, rfl⟩ := step_oCleanup h
      refine (conserved_iff _).2 fun c => ?_
      have := hcount c
      simp only [unsettled, signal, hq, chans_append, chans_cons, List.count_append, List.count_nil] at this ⊢
      omega

theorem Conserved.of_reachable (h : Reachable s) : Conserved s := by
  induction h with
  | init v => exact List.Perm.refl _
  | step _ hs ih => exact ih.of_step hs

/-! ## What the handlers leave behind -/

/-- What the handlers leave when they go: `queueQuit` closes only once `queueHandler`
    is gone, which parks nothing after its loop; `outHandler` reaches its cleanup only
    after that, and leaves `sendQueue` empty. -/
structure ShutdownInv (s : Pipeline) : Prop where
  queueQuit_exited : s.queueQuit = true → s.qPhase = .exited
  stopped_unparked : s.qPhase ≠ .running → s.pendingMsgs = []
  out_after_queue : s.oPhase = .cleanup ∨ s.oPhase = .exited → s.qPhase = .exited
  out_exited_empty : s.oPhase = .exited → s.sendQueue = []

/-- A main-loop case of `queueHandler` keeps it: `queueHandler` runs, and the case
    leaves where the handlers are. -/
theorem ShutdownInv.of_mainLoop (hs : ShutdownInv s) (hr : s.qPhase = .running)
    (hph : s'.phases = s.phases) : ShutdownInv s' := by
  simp only [Pipeline.phases, Prod.mk.injEq] at hph
  obtain ⟨hq, ho, hqq⟩ := hph
  refine ⟨fun h => ?_, fun h => absurd (hq.trans hr) h, fun h => ?_, fun h => ?_⟩
  · rw [hq]; exact hs.queueQuit_exited (hqq ▸ h)
  · rw [hq]; exact hs.out_after_queue (ho ▸ h)
  · exact absurd (hs.out_after_queue (.inr (ho ▸ h))) (by simp [hr])

/-- `outHandler` away from its cleanup and exit keeps it. -/
theorem ShutdownInv.of_out_running (hs : ShutdownInv s) (hq : s'.qPhase = s.qPhase)
    (hqq : s'.queueQuit = s.queueQuit) (hp : s'.pendingMsgs = s.pendingMsgs)
    (ho : s'.oPhase ≠ .cleanup ∧ s'.oPhase ≠ .exited) : ShutdownInv s' := by
  refine ⟨fun h => ?_, fun h => ?_, fun h => ?_, fun h => absurd h ho.2⟩
  · rw [hq]; exact hs.queueQuit_exited (hqq ▸ h)
  · rw [hp]; exact hs.stopped_unparked (hq ▸ h)
  · rcases h with h | h
    · exact absurd h ho.1
    · exact absurd h ho.2

/-- Every move keeps what the handlers leave behind. -/
theorem ShutdownInv.of_step (hs : ShutdownInv s) {a : Action} (h : step s a = some s') :
    ShutdownInv s' := by
  cases a with
  | queueMessage m => cases h; unfold queueMessage; split <;> exact { hs with }
  | sendOutput i => obtain ⟨m, -, -, rfl⟩ := step_sendOutput h; exact { hs with }
  | queueInventory iv => cases h; unfold queueInventory; split_ifs <;> exact { hs with }
  | sendInv i => obtain ⟨iv, -, -, rfl⟩ := step_sendInv h; exact { hs with }
  | addKnownInventory iv | disconnect => cases h; exact { hs with }
  | qOutput =>
      obtain ⟨m, rest, hr, -, rfl⟩ := step_qOutput h
      exact hs.of_mainLoop hr (queuePacket_phases _ _)
  | qSendDone =>
      simp only [step] at h
      split_ifs at h with hc
      cases h
      exact hs.of_mainLoop hc.1 (sendDone_phases _)
  | qInv =>
      obtain ⟨iv, rest, hr, -, rfl⟩ := step_qInv h
      exact hs.of_mainLoop hr (receiveInv_phases _ _)
  | qTrickle =>
      simp only [step] at h
      split_ifs at h with hr
      cases h
      exact hs.of_mainLoop hr (trickleTick_phases _)
  | qQuit =>
      simp only [step] at h
      split_ifs at h with hc
      cases h
      refine ⟨fun h => ?_, fun _ => rfl, fun h => ?_, hs.out_exited_empty⟩
      · exact absurd (hs.queueQuit_exited h) (by simp [hc.1])
      · exact absurd (hs.out_after_queue h) (by simp [hc.1])
  | qCleanupOutput => obtain ⟨m, rest, -, -, rfl⟩ := step_qCleanupOutput h; exact { hs with }
  | qCleanupInv => obtain ⟨iv, rest, -, -, rfl⟩ := step_qCleanupInv h; exact { hs with }
  | qExit =>
      simp only [step] at h
      split_ifs at h with hc
      cases h
      exact ⟨fun _ => rfl, fun _ => hs.stopped_unparked (by simp [hc.1]), fun _ => rfl,
        hs.out_exited_empty⟩
  | oTake =>
      obtain ⟨m, rest, -, -, rfl⟩ := step_oTake h
      exact hs.of_out_running rfl rfl rfl ⟨nofun, nofun⟩
  | oWrite ok =>
      obtain ⟨m, -, rfl⟩ := step_oWrite h
      unfold finishWrite
      split_ifs <;> exact hs.of_out_running rfl rfl rfl ⟨nofun, nofun⟩
  | oQuit =>
      simp only [step] at h
      split_ifs at h
      cases h
      exact hs.of_out_running rfl rfl rfl ⟨nofun, nofun⟩
  | oQueueQuit =>
      simp only [step] at h
      split_ifs at h with hc
      cases h
      exact { hs with
        out_after_queue := fun _ => hs.queueQuit_exited hc.2
        out_exited_empty := nofun }
  | oCleanup =>
      obtain ⟨m, rest, ho, -, rfl⟩ := step_oCleanup h
      exact { hs with out_exited_empty := fun h => by simp [ho] at h }
  | oExit =>
      simp only [step] at h
      split_ifs at h with hc
      cases h
      exact { hs with
        out_after_queue := fun _ => hs.out_after_queue (.inl hc.1)
        out_exited_empty := fun _ => hc.2 }

theorem ShutdownInv.of_reachable (h : Reachable s) : ShutdownInv s := by
  induction h with
  | init v => exact ⟨nofun, fun h => absurd rfl h, fun h => by simp [pipelineInit] at h, nofun⟩
  | step _ hs ih => exact ih.of_step hs

/-! ## Exactly once, but for late sends -/

/-- **NO CHANNEL IS SIGNALLED TWICE.** In every reachable state where the callers used
    distinct completion channels, each channel has been signalled at most once. -/
theorem signals_nodup (h : Reachable s) (hd : (chans s.requested).Nodup) : s.signals.Nodup :=
  ((Conserved.of_reachable h).nodup_iff.1 hd).sublist (List.sublist_append_left _ _)

/-- A caller finds the peer disconnected and is signalled at once; a second caller
    with another channel is still sending. -/
def refusedRun : List Action :=
  [.queueMessage ⟨.sendHeaders, some 0, .base⟩, .disconnect,
    .queueMessage ⟨.sendHeaders, some 1, .base⟩]

/-- Only the refused caller is signalled. -/
theorem signals_nodup_refused :
    ∃ s, run (pipelineInit false) refusedRun = some s ∧ (chans s.requested).Nodup ∧
      s.signals.Nodup ∧ s.signals = [1] :=
  have h := @Reachable.run _ _ refusedRun (.init false) rfl
  ⟨_, rfl, by decide, signals_nodup h (by decide), rfl⟩

/-- **AT SHUTDOWN ONLY LATE SENDS ARE UNSIGNALLED.** Once both handlers are gone, the
    requested channels are, as a multiset, the signalled ones and those of messages
    still with a caller or in `outputQueue`: whatever was written, failed, parked or
    queued to `outHandler` has been signalled. -/
theorem shutdown_signals (h : Reachable s) (hq : s.qPhase = .exited) (ho : s.oPhase = .exited) :
    (chans s.requested).Perm (s.signals ++ chans (s.senders ++ s.outputQueue)) := by
  have hs := ShutdownInv.of_reachable h
  have hp := hs.stopped_unparked (by simp [hq])
  have hsq := hs.out_exited_empty ho
  simpa [Conserved, unsettled, hp, hsq, ho, OutPhase.held] using Conserved.of_reachable h

/-! ## A late send -/

/-- Once both handlers are gone only the callers move: nothing takes from
    `outputQueue` any more, and only a caller that finds the peer disconnected
    signals a channel, its own. -/
theorem step_of_exited (hq : s.qPhase = .exited) (ho : s.oPhase = .exited) {a : Action}
    (h : step s a = some s') :
    s'.qPhase = .exited ∧ s'.oPhase = .exited ∧ s.outputQueue.IsPrefix s'.outputQueue ∧
      (s'.signals = s.signals ∨ ∃ m, a = .queueMessage m ∧ s'.signals = signal s.signals m) := by
  cases a with
  | queueMessage m =>
      cases h; unfold queueMessage
      split
      · exact ⟨hq, ho, List.prefix_refl _, .inl rfl⟩
      · exact ⟨hq, ho, List.prefix_refl _, .inr ⟨m, rfl, rfl⟩⟩
  | sendOutput i =>
      obtain ⟨m, -, -, rfl⟩ := step_sendOutput h
      exact ⟨hq, ho, List.prefix_append _ _, .inl rfl⟩
  | queueInventory iv =>
      cases h; unfold queueInventory
      split_ifs <;> exact ⟨hq, ho, List.prefix_refl _, .inl rfl⟩
  | sendInv i =>
      obtain ⟨iv, -, -, rfl⟩ := step_sendInv h
      exact ⟨hq, ho, List.prefix_refl _, .inl rfl⟩
  | addKnownInventory iv | disconnect => cases h; exact ⟨hq, ho, List.prefix_refl _, .inl rfl⟩
  | qOutput => obtain ⟨_, _, hr, -⟩ := step_qOutput h; simp [hq] at hr
  | qInv => obtain ⟨_, _, hr, -⟩ := step_qInv h; simp [hq] at hr
  | qCleanupOutput => obtain ⟨_, _, hr, -⟩ := step_qCleanupOutput h; simp [hq] at hr
  | qCleanupInv => obtain ⟨_, _, hr, -⟩ := step_qCleanupInv h; simp [hq] at hr
  | oTake => obtain ⟨_, _, hr, -⟩ := step_oTake h; simp [ho] at hr
  | oWrite ok => obtain ⟨_, hr, -⟩ := step_oWrite h; simp [ho] at hr
  | oCleanup => obtain ⟨_, _, hr, -⟩ := step_oCleanup h; simp [ho] at hr
  | qSendDone | qTrickle | qQuit | qExit | oQuit | oQueueQuit | oExit => simp [step, hq, ho] at h

/-- After both handlers are gone, whatever the callers do, `outputQueue` only grows,
    and a channel not yet signalled is signalled only by a new message that carries it. -/
theorem run_of_exited (hq : s.qPhase = .exited) (ho : s.oPhase = .exited) {as : List Action}
    (h : run s as = some s') {c : Nat} (hc : c ∉ s.signals)
    (hnew : ∀ m, .queueMessage m ∈ as → m.doneChan ≠ some c) :
    s.outputQueue.IsPrefix s'.outputQueue ∧ c ∉ s'.signals := by
  induction as generalizing s with
  | nil => cases h; exact ⟨List.prefix_refl _, hc⟩
  | cons a as ih =>
      simp only [run, Option.bind_eq_some] at h
      obtain ⟨s1, h1, h2⟩ := h
      obtain ⟨hq1, ho1, hp1, hs1⟩ := step_of_exited hq ho h1
      have hc1 : c ∉ s1.signals := by
        rcases hs1 with hs1 | ⟨m, rfl, hs1⟩
        · rwa [hs1]
        · have hm := hnew m (List.mem_cons_self _ _)
          rw [hs1, signal]
          cases hd : m.doneChan with
          | none => simpa using hc
          | some d => simpa [hc] using fun e : c = d => hm (by rw [hd, e])
      obtain ⟨hp2, hc2⟩ := ih hq1 ho1 h2 hc1 fun m hm => hnew m (List.mem_cons_of_mem _ hm)
      exact ⟨hp1.trans hp2, hc2⟩

/-- A direct message whose caller waits on completion channel 0. -/
def waitedMsg : OutMsg := ⟨.sendHeaders, some 0, .base⟩

/-- The caller passes the `Connected` check; the peer disconnects; both handlers
    quit, drain and exit; then the caller's send on `outputQueue` completes. -/
def lateSendRun : List Action :=
  [.queueMessage waitedMsg, .disconnect, .qQuit, .qExit, .oQuit, .oQueueQuit, .oExit,
    .sendOutput 0]

/-- Both handlers gone after a late send. -/
theorem shutdown_signals_late_send :
    ∃ s, run (pipelineInit false) lateSendRun = some s ∧ s.qPhase = .exited ∧
      s.oPhase = .exited ∧
      (chans s.requested).Perm (s.signals ++ chans (s.senders ++ s.outputQueue)) :=
  have h := @Reachable.run _ _ lateSendRun (.init false) rfl
  ⟨_, rfl, rfl, rfl, shutdown_signals h rfl rfl⟩

/-- **A LATE SEND IS NEVER COMPLETED.** Some interleaving ends with both handlers gone
    and a submitted message in `outputQueue` whose channel was never signalled;
    whatever the callers do next, unless a new message reuses that channel, it stays
    there and the channel stays silent. -/
theorem completion_lost_after_shutdown :
    ∃ s, Reachable s ∧ s.qPhase = .exited ∧ s.oPhase = .exited ∧ waitedMsg ∈ s.submitted ∧
      ∀ as s', run s as = some s' →
        (∀ m, .queueMessage m ∈ as → m.doneChan ≠ waitedMsg.doneChan) →
        waitedMsg ∈ s'.outputQueue ∧ 0 ∉ s'.signals := by
  refine ⟨_, @Reachable.run _ _ lateSendRun (.init false) rfl, rfl, rfl, by decide,
    fun as s' h hnew => ?_⟩
  obtain ⟨⟨t, ht⟩, hc⟩ := run_of_exited rfl rfl h (by decide) hnew
  exact ⟨ht ▸ List.mem_append_left t (by decide), hc⟩


end PeerPipeline
