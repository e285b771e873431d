import ParallelcoinPeer.Pipeline

/-! # The hand-off between `queueHandler` and `outHandler`

    `queueHandler` keeps at most one message with `outHandler`: it sends on
    `sendQueue` only when it is not `waiting`, and sends the next parked message
    only when it consumes the token `outHandler` sends on `sendDoneQueue` after a
    successful write. `PipelineInv` is what this keeps in every reachable state:

    * the messages handed over whose token is not consumed are counted by
      `inFlight` over the five places such a message can be, and there is one
      exactly when `queueHandler` is `waiting`;
    * what `outHandler` took, then `sendQueue`, then `pendingMsgs`, then what the
      final drain dropped, is everything `queueHandler` passed to `queuePacket`;
    * what `queueHandler` took from `outputQueue`, followed by what it flushed and
      what is left, is the sends on `outputQueue`.

    The route: `PipelineInv.queuePacket` and `PipelineInv.queueInvs` for the three
    cases that call `queuePacket`, `PipelineInv.of_step` by cases on the move, and
    `PipelineInv.of_reachable` by induction on the run. Beside it,
    `Reachable.interleave`: the sequence passed to `queuePacket` is exactly the
    messages taken from `outputQueue` merged with the `inv` messages `queueHandler`
    built, each once and each in its own order (`Interleave`). The places list of the
    hand-off needs one more entry than `waiting` suggests: `outHandler`'s cleanup
    takes the message unwritten after `queueHandler` is gone
    (`cleanup_discards_handed_message`). -/

namespace PeerPipeline

open PeerWire

/-- How many messages `outHandler` holds: one inside its write case. -/
def OutPhase.holding : OutPhase → Nat
  | .writing _ => 1
  | _ => 0

/-- The messages handed to `sendQueue` whose token `queueHandler` has not consumed,
    by where each can be: in `sendQueue`, being written, acknowledged by a token in
    `sendDoneQueue`, dropped after a failed write, or taken unwritten by
    `outHandler`'s cleanup. -/
def inFlight (s : Pipeline) : Nat :=
  s.sendQueue.length + s.oPhase.holding + s.sendDoneQueue + s.dropped + s.discarded

/-- The invariant of the pipeline. -/
structure PipelineInv (s : Pipeline) : Prop where
  handed_eq : s.handed = s.acked + s.waiting.toNat
  inFlight_eq : inFlight s = s.waiting.toNat
  idle_pending : s.waiting = false → s.pendingMsgs = []
  queued_eq : s.taken ++ s.sendQueue ++ s.pendingMsgs ++ s.drained = s.queued
  running_clean : s.qPhase = .running → s.drained = [] ∧ s.flushed = []
  submitted_eq : s.received ++ s.flushed ++ s.outputQueue = s.submitted

theorem pipelineInv_init (versionKnown : Bool) : PipelineInv (pipelineInit versionKnown) :=
  ⟨rfl, rfl, fun _ => rfl, rfl, fun _ => ⟨rfl, rfl⟩, rfl⟩

variable {s s' : Pipeline}

/-- An idle `queueHandler` has nothing in flight. -/
theorem PipelineInv.idle (hi : PipelineInv s) (hw : s.waiting = false) :
    s.sendQueue = [] ∧ s.oPhase.holding = 0 ∧ s.sendDoneQueue = 0 ∧ s.dropped = 0 ∧
      s.discarded = 0 := by
  have h := hi.inFlight_eq
  simp only [inFlight, hw, Bool.toNat_false] at h
  exact ⟨List.length_eq_zero.1 (by omega), by omega, by omega, by omega, by omega⟩

/-- `queuePacket` keeps the invariant while `queueHandler` runs. -/
theorem PipelineInv.queuePacket (hi : PipelineInv s) (hr : s.qPhase = .running)
    (m : OutMsg) : PipelineInv (queuePacket s m) := by
  have hd := (hi.running_clean hr).1
  rw [queuePacket_eq]
  cases hw : s.waiting
  · -- idle: the message goes to the empty `sendQueue`
    obtain ⟨hq, ho, hsd, hdr, hdi⟩ := hi.idle hw
    refine ⟨?_, ?_, nofun, ?_, hi.running_clean, hi.submitted_eq⟩
    · simpa [hw] using hi.handed_eq
    · simp [inFlight, hq, ho, hsd, hdr, hdi]
    · simp [← hi.queued_eq, hi.idle_pending hw, hq, hd]
  · -- busy: it is parked
    refine ⟨?_, ?_, nofun, ?_, hi.running_clean, hi.submitted_eq⟩
    · simpa [hw] using hi.handed_eq
    · simpa [hw, inFlight] using hi.inFlight_eq
    · simp [← hi.queued_eq, hd]

/-- Queueing built `inv` messages keeps the invariant. -/
theorem PipelineInv.queueInvs (hi : PipelineInv s) (hr : s.qPhase = .running)
    (ms : List (List InvVect)) : PipelineInv (queueInvs s ms) := by
  induction ms generalizing s with
  | nil => exact hi
  | cons l ms ih =>
      have he : PipelineInv { s with emitted := s.emitted ++ [l] } := { hi with }
      rw [queueInvs_cons]
      exact ih (he.queuePacket hr _) (by rw [queuePacket_eq]; exact hr)

/-- Receiving an inventory vector keeps the invariant. -/
theorem PipelineInv.receiveInv (hi : PipelineInv s) (hr : s.qPhase = .running) (iv : InvVect) :
    PipelineInv (receiveInv s iv) := by
  unfold PeerPipeline.receiveInv
  split_ifs
  · exact hi.queueInvs hr _
  · exact { hi with }
  · exact hi

/-- A trickle tick keeps the invariant. -/
theorem PipelineInv.trickleTick (hi : PipelineInv s) (hr : s.qPhase = .running) :
    PipelineInv (trickleTick s) := by
  unfold PeerPipeline.trickleTick
  split_ifs
  · exact hi
  · have hk : PipelineInv { s with
        knownInventory := (trickleLoop s.knownInventory [] s.invSendQueue).1
        invSendQueue := [] } := { hi with }
    exact hk.queueInvs hr _

/-- Consuming a token keeps the invariant: the token acknowledges the one message in
    flight, and the next parked message, if any, takes its place. -/
theorem PipelineInv.sendDone (hi : PipelineInv s) (htok : 0 < s.sendDoneQueue) :
    PipelineInv (sendDone s) := by
  have hw : s.waiting = true := by
    cases hw : s.waiting
    · exact absurd (hi.idle hw).2.2.1 (Nat.pos_iff_ne_zero.1 htok)
    · rfl
  have hf := hi.inFlight_eq
  simp only [inFlight, hw, Bool.toNat_true] at hf
  have hq : s.sendQueue = [] := List.length_eq_zero.1 (by omega)
  have hh := hi.handed_eq
  simp only [hw, Bool.toNat_true] at hh
  cases hp : s.pendingMsgs with
  | nil =>
      simp only [PeerPipeline.sendDone, hp]
      exact { hi with
        handed_eq := by simp; omega
        inFlight_eq := by simp only [inFlight, Bool.toNat_false]; omega
        idle_pending := fun _ => rfl
        queued_eq := by simpa [hp] using hi.queued_eq }
  | cons m rest =>
      simp only [PeerPipeline.sendDone, hp]
      exact { hi with
        handed_eq := by simp [hw]; omega
        inFlight_eq := by simp only [inFlight, hw, hq]; simp; omega
        idle_pending := by simp [hw]
        queued_eq := by simp [← hi.queued_eq, hp, hq] }

/-- The end of a write keeps the invariant: the message leaves `outHandler` as a token
    or as a failed write. -/
theorem PipelineInv.finishWrite (hi : PipelineInv s) {m : OutMsg} (ho : s.oPhase = .writing m)
    (ok : Bool) : PipelineInv (finishWrite s m ok) := by
  have hf := hi.inFlight_eq
  simp only [inFlight, ho, OutPhase.holding] at hf
  unfold PeerPipeline.finishWrite
  split_ifs <;> exact { hi with inFlight_eq := by simp only [inFlight, OutPhase.holding]; omega }

/-- Every move keeps the invariant. -/
theorem PipelineInv.of_step (hi : PipelineInv s) {a : Action} (h : step s a = some s') :
    PipelineInv s' := by
  cases a with
  | queueMessage m =>
      cases h; unfold queueMessage; split <;> exact { hi with }
  | sendOutput i =>
      obtain ⟨m, -, -, rfl⟩ := step_sendOutput h
      exact { hi with submitted_eq := by simp [← hi.submitted_eq] }
  | queueInventory iv =>
      cases h; unfold queueInventory; split_ifs <;> exact { hi with }
  | sendInv i =>
      obtain ⟨iv, -, -, rfl⟩ := step_sendInv h
      exact { hi with }
  | addKnownInventory iv => cases h; exact { hi with }
  | disconnect => cases h; exact { hi with }
  | qOutput =>
      obtain ⟨m, rest, hr, ho, rfl⟩ := step_qOutput h
      have hq := hi.queuePacket hr m
      rw [queuePacket_eq] at hq ⊢
      exact { hq with
        submitted_eq := by simp [← hi.submitted_eq, (hi.running_clean hr).2, ho] }
  | qSendDone =>
      simp only [step] at h
      split_ifs at h with hc
      cases h
      exact hi.sendDone hc.2
  | qInv =>
      obtain ⟨iv, rest, hr, -, rfl⟩ := step_qInv h
      have hi' : PipelineInv { s with outputInvChan := rest } := { hi with }
      exact hi'.receiveInv hr iv
  | qTrickle =>
      simp only [step] at h
      split_ifs at h with hr
      cases h
      exact hi.trickleTick hr
  | qQuit =>
      simp only [step] at h
      split_ifs at h with hc
      cases h
      exact { hi with
        idle_pending := fun _ => rfl
        queued_eq := by simp [← hi.queued_eq, (hi.running_clean hc.1).1]
        running_clean := nofun }
  | qCleanupOutput =>
      obtain ⟨m, rest, hc, ho, rfl⟩ := step_qCleanupOutput h
      exact { hi with
        running_clean := fun hr => by simp [hc] at hr
        submitted_eq := by simp [← hi.submitted_eq, ho] }
  | qCleanupInv =>
      obtain ⟨iv, rest, -, -, rfl⟩ := step_qCleanupInv h
      exact { hi with }
  | qExit =>
      simp only [step] at h
      split_ifs at h
      cases h
      exact { hi with running_clean := nofun }
  | oTake =>
      obtain ⟨m, rest, ho, hq, rfl⟩ := step_oTake h
      have hf := hi.inFlight_eq
      simp only [inFlight, ho, hq, OutPhase.holding, List.length_cons] at hf
      exact { hi with
        inFlight_eq := by simp only [inFlight, OutPhase.holding]; omega
        queued_eq := by simp [← hi.queued_eq, hq] }
  | oWrite ok =>
      obtain ⟨m, ho, rfl⟩ := step_oWrite h
      exact hi.finishWrite ho ok
  | oQuit | oQueueQuit | oExit =>
      simp only [step] at h
      split_ifs at h with hc
      cases h
      exact { hi with inFlight_eq := by simpa [inFlight, hc.1, OutPhase.holding] using hi.inFlight_eq }
  | oCleanup =>
      obtain ⟨m, rest, ho, hq, rfl⟩ := step_oCleanup h
      have hf := hi.inFlight_eq
      simp only [inFlight, ho, hq, OutPhase.holding, List.length_cons] at hf
      exact { hi with
        inFlight_eq := by simp only [inFlight, ho, OutPhase.holding]; omega
        queued_eq := by simp [← hi.queued_eq, hq] }

theorem PipelineInv.of_reachable (h : Reachable s) : PipelineInv s := by
  induction h with
  | init v => exact pipelineInv_init v
  | step _ hs ih => exact ih.of_step hs

/-! ## The hand-off -/

/-- A direct message with no completion channel. -/
def directMsg : OutMsg := ⟨.sendHeaders, none, .base⟩

/-- The message is received and handed straight to an idle `outHandler`. -/
def handedRun : List Action := [.queueMessage directMsg, .sendOutput 0, .qOutput]

/-- **ONE MESSAGE IN FLIGHT.** In every reachable state the messages handed to
    `sendQueue` and not acknowledged by a consumed token are counted by `inFlight`
    (in `sendQueue`, being written, acknowledged by a token, dropped after a failed
    write, or taken unwritten by `outHandler`'s cleanup); there is at most one, and
    one exactly when `queueHandler` is `waiting`. An idle `queueHandler` has nothing
    parked, queued, acknowledged or being written, and the one-slot channels never
    hold more than their slot, so neither handler's send on them blocks. -/
theorem handoff_single_flight (h : Reachable s) :
    s.handed = s.acked + inFlight s ∧ inFlight s ≤ 1 ∧ (s.waiting = true ↔ inFlight s = 1) ∧
      (s.waiting = false → s.pendingMsgs = [] ∧ s.sendQueue = [] ∧ s.sendDoneQueue = 0 ∧
        s.oPhase.holding = 0) ∧
      s.sendQueue.length ≤ 1 ∧ s.sendDoneQueue ≤ 1 := by
  have hi := PipelineInv.of_reachable h
  have hf := hi.inFlight_eq
  have hb := Bool.toNat_le s.waiting
  have hl : s.sendQueue.length + s.sendDoneQueue ≤ inFlight s := by unfold inFlight; omega
  refine ⟨hf ▸ hi.handed_eq, by omega, ?_, fun hw => ?_, by omega, by omega⟩
  · rw [hf]; cases s.waiting <;> simp
  · obtain ⟨hq, ho, hd, -, -⟩ := hi.idle hw
    exact ⟨hi.idle_pending hw, hq, hd, ho⟩

theorem handoff_single_flight_after_hand_off :
    ∃ s, run (pipelineInit false) handedRun = some s ∧
      s.handed = s.acked + inFlight s ∧ inFlight s ≤ 1 ∧ (s.waiting = true ↔ inFlight s = 1) ∧
      (s.waiting = false → s.pendingMsgs = [] ∧ s.sendQueue = [] ∧ s.sendDoneQueue = 0 ∧
        s.oPhase.holding = 0) ∧
      s.sendQueue.length ≤ 1 ∧ s.sendDoneQueue ≤ 1 :=
  ⟨_, rfl, handoff_single_flight (@Reachable.run _ _ handedRun (.init false) rfl)⟩

/-- The message reaches `sendQueue`; the peer disconnects; `queueHandler` quits and
    exits, still `waiting`; `outHandler` quits, waits for `queueQuit`, and its cleanup
    takes the message. -/
def discardRun : List Action :=
  [.queueMessage directMsg, .sendOutput 0, .qOutput, .disconnect, .qQuit, .qExit, .oQuit,
    .oQueueQuit, .oCleanup]

/-- **CLEANUP IS A FIFTH PLACE.** A reachable state where `queueHandler` is `waiting`
    with one message unacknowledged that is in none of `sendQueue`, `outHandler`'s
    write, `sendDoneQueue` or the failed writes: `outHandler`'s cleanup took it. -/
theorem cleanup_discards_handed_message :
    ∃ s, Reachable s ∧ s.waiting = true ∧ s.handed - s.acked = 1 ∧ s.sendQueue = [] ∧
      s.oPhase = .cleanup ∧ s.sendDoneQueue = 0 ∧ s.dropped = 0 :=
  ⟨_, @Reachable.run _ _ discardRun (.init false) rfl, rfl, rfl, rfl, rfl, rfl, rfl⟩

/-! ## Every message once

    The sequence passed to `queuePacket` grows only by a message taken from
    `outputQueue` or by the `inv` messages `queueHandler` built, on the block fast
    path or at a trickle tick (`step_queued`). So it merges the two, each once and in
    its own order (`Reachable.interleave`). -/

/-- `l` merges `a` and `b`: every element of each, once, each in its own order. It is
    built at the end, as the sequence passed to `queuePacket` grows. -/
inductive Interleave {α : Type} : List α → List α → List α → Prop
  | nil : Interleave [] [] []
  | left {l a b : List α} (x : α) : Interleave l a b → Interleave (l ++ [x]) (a ++ [x]) b
  | right {l a b : List α} (x : α) : Interleave l a b → Interleave (l ++ [x]) a (b ++ [x])

section Interleave

variable {α : Type} {l a b : List α}

/-- A run of elements of the right-hand list. -/
theorem Interleave.append_right (h : Interleave l a b) (xs : List α) :
    Interleave (l ++ xs) a (b ++ xs) := by
  induction xs using List.reverseRecOn with
  | nil => simpa using h
  | append_singleton xs x ih => simpa only [← List.append_assoc] using ih.right x

/-- A merge holds each of its parts once: it is a permutation of the two. -/
theorem Interleave.perm (h : Interleave l a b) : l.Perm (a ++ b) := by
  induction h with
  | nil => exact .nil
  | @left l a b x _ ih =>
      calc (l ++ [x]).Perm (a ++ b ++ [x]) := ih.append_right [x]
        List.Perm _ (a ++ [x] ++ b) := by
          simpa only [List.append_assoc] using List.perm_append_comm.append_left a
  | @right l a b x _ ih => simpa only [List.append_assoc] using ih.append_right [x]

end Interleave

theorem queueInvs_received (s : Pipeline) (ms : List (List InvVect)) :
    (queueInvs s ms).received = s.received := by
  induction ms generalizing s with
  | nil => rfl
  | cons l ms ih => rw [queueInvs_cons, ih, queuePacket_eq]

/-- What a move does to the sequence passed to `queuePacket`, to what `queueHandler`
    took from `outputQueue` and to the `inv` messages it built: nothing, one message
    taken and passed on, or built messages passed on. -/
theorem step_queued {a : Action} (h : step s a = some s') :
    (s'.queued = s.queued ∧ s'.received = s.received ∧ s'.emitted = s.emitted) ∨
      (∃ m, s'.queued = s.queued ++ [m] ∧ s'.received = s.received ++ [m] ∧
        s'.emitted = s.emitted) ∨
      ∃ ms, s'.queued = s.queued ++ ms.map invPacket ∧ s'.received = s.received ∧
        s'.emitted = s.emitted ++ ms := by
  have built : ∀ t ms, ∃ ms', (queueInvs t ms).queued = t.queued ++ ms'.map invPacket ∧
      (queueInvs t ms).received = t.received ∧ (queueInvs t ms).emitted = t.emitted ++ ms' :=
    fun t ms => ⟨ms, queueInvs_queued t ms, queueInvs_received t ms, queueInvs_emitted t ms⟩
  cases a with
  | queueMessage m => cases h; left; unfold queueMessage; split <;> exact ⟨rfl, rfl, rfl⟩
  | sendOutput i => obtain ⟨m, -, -, rfl⟩ := step_sendOutput h; exact .inl ⟨rfl, rfl, rfl⟩
  | queueInventory iv => cases h; left; unfold queueInventory; split_ifs <;> exact ⟨rfl, rfl, rfl⟩
  | sendInv i => obtain ⟨iv, -, -, rfl⟩ := step_sendInv h; exact .inl ⟨rfl, rfl, rfl⟩
  | qOutput =>
      obtain ⟨m, rest, -, -, rfl⟩ := step_qOutput h
      exact .inr (.inl ⟨m, by rw [queuePacket_eq], by rw [queuePacket_eq], by rw [queuePacket_eq]⟩)
  | qInv =>
      obtain ⟨iv, rest, -, -, rfl⟩ := step_qInv h
      unfold receiveInv
      split
      · split
        · exact .inr (.inr (built _ _))
        · exact .inl ⟨rfl, rfl, rfl⟩
      · exact .inl ⟨rfl, rfl, rfl⟩
  | qTrickle =>
      simp only [PeerPipeline.step] at h; split_ifs at h; cases h
      unfold trickleTick; split
      · exact .inl ⟨rfl, rfl, rfl⟩
      · exact .inr (.inr (built _ _))
  | qSendDone =>
      simp only [PeerPipeline.step] at h; split_ifs at h; cases h
      left; cases hp : s.pendingMsgs <;> simp only [sendDone, hp, and_self]
  | oWrite ok =>
      obtain ⟨m, -, rfl⟩ := step_oWrite h
      left; unfold finishWrite; split_ifs <;> exact ⟨rfl, rfl, rfl⟩
  | qCleanupOutput => obtain ⟨m, rest, -, -, rfl⟩ := step_qCleanupOutput h; exact .inl ⟨rfl, rfl, rfl⟩
  | qCleanupInv => obtain ⟨iv, rest, -, -, rfl⟩ := step_qCleanupInv h; exact .inl ⟨rfl, rfl, rfl⟩
  | oTake => obtain ⟨m, rest, -, -, rfl⟩ := step_oTake h; exact .inl ⟨rfl, rfl, rfl⟩
  | oCleanup => obtain ⟨m, rest, -, -, rfl⟩ := step_oCleanup h; exact .inl ⟨rfl, rfl, rfl⟩
  | addKnownInventory iv | disconnect => cases h; exact .inl ⟨rfl, rfl, rfl⟩
  | qQuit | qExit | oQuit | oQueueQuit | oExit =>
      simp only [PeerPipeline.step] at h; split_ifs at h; cases h; exact .inl ⟨rfl, rfl, rfl⟩

/-- **RUN.** In every reachable state the sequence passed to `queuePacket` merges what
    `queueHandler` took from `outputQueue` with the `inv` messages it built. -/
theorem Reachable.interleave (h : Reachable s) :
    Interleave s.queued s.received (s.emitted.map invPacket) := by
  induction h with
  | init v => exact .nil
  | step _ hs ih =>
      rcases step_queued hs with ⟨hq, hr, he⟩ | ⟨m, hq, hr, he⟩ | ⟨ms, hq, hr, he⟩
      · rwa [hq, hr, he]
      · rw [hq, hr, he]; exact ih.left m
      · rw [hq, hr, he, List.map_append]; exact ih.append_right _

/-! ## Order -/

/-- **THE PACKET SEQUENCE IS KEPT IN ORDER.** In every reachable state, what
    `outHandler` took from `sendQueue`, then `sendQueue`, then `pendingMsgs`, then what
    `queueHandler` dropped at `quit`, is the sequence passed to `queuePacket` (while
    `queueHandler` runs nothing was dropped), so what was taken is a prefix of it. That
    sequence is what `queueHandler` took from `outputQueue` merged with the `inv`
    messages it built, each once and each in its own order: restricted to the messages
    taken from `outputQueue` it is exactly them, nothing lost and nothing twice. What
    it took, followed by what the cleanup flushed and what is still queued, is the
    sends on `outputQueue`. -/
theorem handoff_order (h : Reachable s) :
    s.taken ++ s.sendQueue ++ s.pendingMsgs ++ s.drained = s.queued ∧
      (s.qPhase = .running → s.taken ++ s.sendQueue ++ s.pendingMsgs = s.queued) ∧
      s.taken.IsPrefix s.queued ∧ Interleave s.queued s.received (s.emitted.map invPacket) ∧
      s.queued.Perm (s.received ++ s.emitted.map invPacket) ∧
      s.received ++ s.flushed ++ s.outputQueue = s.submitted := by
  have hi := PipelineInv.of_reachable h
  have hm := h.interleave
  refine ⟨hi.queued_eq, fun hr => ?_, ⟨s.sendQueue ++ s.pendingMsgs ++ s.drained, ?_⟩,
    hm, hm.perm, hi.submitted_eq⟩
  · simpa [(hi.running_clean hr).1] using hi.queued_eq
  · simpa using hi.queued_eq

theorem handoff_order_after_hand_off :
    ∃ s, run (pipelineInit false) handedRun = some s ∧
      s.taken ++ s.sendQueue ++ s.pendingMsgs ++ s.drained = s.queued ∧
      (s.qPhase = .running → s.taken ++ s.sendQueue ++ s.pendingMsgs = s.queued) ∧
      s.taken.IsPrefix s.queued ∧ Interleave s.queued s.received (s.emitted.map invPacket) ∧
      s.queued.Perm (s.received ++ s.emitted.map invPacket) ∧
      s.received ++ s.flushed ++ s.outputQueue = s.submitted :=
  ⟨_, rfl, handoff_order (@Reachable.run _ _ handedRun (.init false) rfl)⟩

/-- **A HANDED MESSAGE IS IN NEITHER LIST.** While `queueHandler` runs, a message it
    passed to `queuePacket` can sit in `sendQueue`, neither taken nor parked. -/
theorem handed_message_neither_taken_nor_parked :
    ∃ s, Reachable s ∧ s.qPhase = .running ∧ s.queued = [directMsg] ∧
      s.taken ++ s.pendingMsgs = [] ∧ s.sendQueue = [directMsg] :=
  ⟨_, @Reachable.run _ _ handedRun (.init false) rfl, rfl, rfl, rfl, rfl⟩

end PeerPipeline
