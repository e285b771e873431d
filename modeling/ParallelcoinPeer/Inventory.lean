import ParallelcoinPeer.Pipeline

/-! # Inventory relay: the trickle and the block fast path

    `QueueInventory` drops what the peer is known to have; `queueHandler` then sends
    block announcements at once, in an `inv` of their own, and queues the rest for the
    trickle tick, which skips what became known meanwhile and records in the known set
    every vector it puts in a message.

    `trickle_tick_chunks` says exactly what a tick sends: the fresh vectors of the
    queue, in order, in full messages of `maxInvTrickleSize` and one last partial one,
    every one of them recorded in the known set. The fast path records nothing, so the
    same block can be announced twice and stay unknown
    (`block_announced_twice_unrecorded`).

    A tick is one atomic step: the loop over the queue runs without another move
    between its iterations. In the source `AddKnownInventory` takes the known set's
    own lock and may land between two iterations; here it runs before or after the
    whole tick. Over whole runs,
    `inventory_sent_in_order` says each path sends what it was given in the order it
    was given, and `trickled_sent_once` that, while the known set evicts nothing, the
    trickle never sends a vector twice. -/

namespace PeerPipeline

open PeerWire PeerMru

/-- `AddInvVect` never fails on a message below its limit. -/
theorem appendInv_of_lt {cur : List InvVect} (h : cur.length < maxInvPerMsg) (iv : InvVect) :
    appendInv cur iv = cur ++ [iv] := by
  simp [appendInv, addInvVect, Nat.not_lt.2 h]

/-- Every vector in the messages the trickle loop built, the open one last. -/
def trickleOut (r : Mru InvVect × List (List InvVect) × List InvVect) : List InvVect :=
  r.2.1.flatten ++ r.2.2

theorem flatten_trickleMsgs (r : Mru InvVect × List (List InvVect) × List InvVect) :
    (trickleMsgs r).flatten = trickleOut r := by
  unfold trickleMsgs trickleOut
  split_ifs with h
  · simp
  · simp [List.length_eq_zero.1 (Nat.eq_zero_of_not_pos h)]

/-- One new vector in front of what the rest of the loop adds. -/
private theorem trickle_cons_new {known r : Mru InvVect} {iv : InvVect} {new : List InvVect}
    (hiv : iv ∉ known.items) (hgrow : ∀ v ∈ known.items, v ∈ (known.add iv).items)
    (hkeep : ∀ v ∈ (known.add iv).items, v ∈ r.items) (hnd : new.Nodup)
    (hnew : ∀ v ∈ new, v ∉ (known.add iv).items ∧ v ∈ r.items) :
    (∀ v ∈ known.items, v ∈ r.items) ∧ (iv :: new).Nodup ∧
      ∀ v ∈ iv :: new, v ∉ known.items ∧ v ∈ r.items := by
  refine ⟨fun v hv => hkeep v (hgrow v hv),
    List.nodup_cons.2 ⟨fun h => (hnew iv h).1 (Mru.mem_add_self _ _), hnd⟩, fun v hv => ?_⟩
  rcases List.mem_cons.1 hv with rfl | hv
  · exact ⟨hiv, hkeep _ (Mru.mem_add_self _ _)⟩
  · exact ⟨fun h => (hnew v hv).1 (hgrow v h), (hnew v hv).2⟩

/-! ## A tick, message by message

    With room in the known set for the whole queue, the loop's messages are the fresh
    vectors of the queue cut into full messages of `maxInvTrickleSize` and one last
    partial message (`trickleLoop_chunks`); `trickle_tick_chunks` lifts that to the
    tick of a reachable pipeline, whose known set always has the limit
    `maxKnownInventory`. -/

/-- The loop keeps the known set's limit. -/
theorem trickleLoop_limit (known : Mru InvVect) (cur ivs : List InvVect) :
    (trickleLoop known cur ivs).1.limit = known.limit := by
  induction ivs generalizing known cur with
  | nil => rfl
  | cons iv rest ih =>
      simp only [trickleLoop]
      split_ifs <;> simp [ih]

/-- Only `AddKnownInventory` and the trickle tick write the known set. -/
theorem step_knownInventory {s s' : Pipeline} {a : Action} (h : step s a = some s') :
    s'.knownInventory = s.knownInventory ∨ (∃ iv, s'.knownInventory = s.knownInventory.add iv) ∨
      s'.knownInventory = (trickleLoop s.knownInventory [] s.invSendQueue).1 := by
  cases a with
  | queueMessage m => cases h; left; unfold queueMessage; split <;> rfl
  | sendOutput i => obtain ⟨m, -, -, rfl⟩ := step_sendOutput h; exact .inl rfl
  | queueInventory iv => cases h; left; unfold queueInventory; split_ifs <;> rfl
  | sendInv i => obtain ⟨iv, -, -, rfl⟩ := step_sendInv h; exact .inl rfl
  | addKnownInventory iv => cases h; exact .inr (.inl ⟨iv, rfl⟩)
  | qOutput => obtain ⟨m, rest, -, -, rfl⟩ := step_qOutput h; left; simp [queuePacket_eq]
  | qInv =>
      obtain ⟨iv, rest, -, -, rfl⟩ := step_qInv h
      left; unfold receiveInv; split_ifs <;> simp
  | qTrickle =>
      simp only [step] at h; split_ifs at h; cases h
      unfold trickleTick; split_ifs
      · exact .inl rfl
      · exact .inr (.inr (by simp))
  | qSendDone =>
      simp only [step] at h; split_ifs at h; cases h
      left; cases hp : s.pendingMsgs <;> simp only [sendDone, hp]
  | oWrite ok =>
      obtain ⟨m, -, rfl⟩ := step_oWrite h
      left; unfold finishWrite; split_ifs <;> rfl
  | qCleanupOutput => obtain ⟨m, rest, -, -, rfl⟩ := step_qCleanupOutput h; exact .inl rfl
  | qCleanupInv => obtain ⟨iv, rest, -, -, rfl⟩ := step_qCleanupInv h; exact .inl rfl
  | oTake => obtain ⟨m, rest, -, -, rfl⟩ := step_oTake h; exact .inl rfl
  | oCleanup => obtain ⟨m, rest, -, -, rfl⟩ := step_oCleanup h; exact .inl rfl
  | disconnect | qQuit | qExit | oQuit | oQueueQuit | oExit =>
      simp only [step] at h; (try split_ifs at h); cases h; exact .inl rfl

/-- The known set keeps the limit `newPeerBase` gave it. -/
theorem Reachable.knownInventory_limit {s : Pipeline} (h : Reachable s) :
    s.knownInventory.limit = maxKnownInventory := by
  induction h with
  | init => rfl
  | step _ hs ih =>
      rcases step_knownInventory hs with he | ⟨iv, he⟩ | he <;>
        rw [he] <;> simp [trickleLoop_limit, ih]

/-- The vectors a tick should send: the queued ones the peer is not known to have,
    each at its first occurrence, in queue order. -/
def freshInv (known : List InvVect) : List InvVect → List InvVect
  | [] => []
  | iv :: rest => if iv ∈ known then freshInv known rest else iv :: freshInv (iv :: known) rest

/-- The results of the `AddInvVect` calls one pass of the trickle loop makes, in
    order: the loop of `trickleLoop`, recording each call instead of the messages. -/
def trickleAdds (known : Mru InvVect) (cur : List InvVect) :
    List InvVect → List (Except String (List InvVect))
  | [] => []
  | iv :: rest =>
    if known.contains iv then trickleAdds known cur rest
    else
      addInvVect cur iv ::
        if (appendInv cur iv).length ≥ maxInvTrickleSize then trickleAdds (known.add iv) [] rest
        else trickleAdds (known.add iv) (appendInv cur iv) rest

/-- **THE TRICKLE LOOP CUTS THE FRESH VECTORS INTO FULL MESSAGES.** From an open
    message below the trickle size and with room in the known set for the whole queue,
    the closed messages and the open one concatenate to the open message followed by
    the fresh vectors; every closed message holds exactly `maxInvTrickleSize`, the open
    one fewer; the known set gains exactly the fresh vectors; and every `AddInvVect`
    call succeeds. -/
theorem trickleLoop_chunks {known : Mru InvVect} {cur ivs : List InvVect}
    (hcap : known.items.length + ivs.length ≤ known.limit)
    (hcur : cur.length < maxInvTrickleSize) :
    (trickleLoop known cur ivs).2.1.flatten ++ (trickleLoop known cur ivs).2.2 =
        cur ++ freshInv known.items ivs ∧
      (∀ m ∈ (trickleLoop known cur ivs).2.1, m.length = maxInvTrickleSize) ∧
      (trickleLoop known cur ivs).2.2.length < maxInvTrickleSize ∧
      (∀ v, v ∈ (trickleLoop known cur ivs).1.items ↔ v ∈ known.items ∨ v ∈ freshInv known.items ivs) ∧
      ∀ res ∈ trickleAdds known cur ivs, ∃ l, res = .ok l := by
  induction ivs generalizing known cur with
  | nil => simp [trickleLoop, freshInv, trickleAdds, hcur]
  | cons iv rest ih =>
      simp only [List.length_cons] at hcap
      by_cases hk : iv ∈ known.items
      · -- a vector that became known is skipped
        have hc : known.contains iv = true := by simpa using hk
        simp only [trickleLoop, trickleAdds, freshInv, hc, hk, if_true]
        exact ih (by omega) hcur
      · -- a new vector goes into the message and into the known set
        have hc : known.contains iv = false := by simp [Mru.contains, hk]
        have hadd : (known.add iv).items = iv :: known.items := Mru.add_of_not_mem hk (by omega)
        have hcap' : (known.add iv).items.length + rest.length ≤ (known.add iv).limit := by
          simp only [hadd, Mru.add_limit, List.length_cons]; omega
        have hlt : cur.length < maxInvPerMsg := by
          unfold maxInvTrickleSize at hcur; unfold maxInvPerMsg; omega
        have hok : addInvVect cur iv = .ok (cur ++ [iv]) := by
          simp [addInvVect, Nat.not_lt.2 hlt]
        simp only [trickleLoop, trickleAdds, freshInv, hc, hk, Bool.false_eq_true, if_false,
          appendInv_of_lt hlt, hok]
        split_ifs with hfull
        · -- the message is full: it is closed and a new one begun
          obtain ⟨h1, h2, h3, h4, h5⟩ :=
            ih hcap' (show ([] : List InvVect).length < maxInvTrickleSize by decide)
          rw [hadd] at h1 h4
          refine ⟨by simp [h1], ?_, h3, fun v => ?_, ?_⟩
          · intro m hm
            rcases List.mem_cons.1 hm with rfl | hm
            · simp at hfull ⊢; omega
            · exact h2 m hm
          · rw [h4, List.mem_cons, List.mem_cons, or_assoc]; exact or_left_comm
          · intro res hres
            rcases List.mem_cons.1 hres with rfl | hres
            · exact ⟨_, rfl⟩
            · exact h5 res hres
        · obtain ⟨h1, h2, h3, h4, h5⟩ :=
            ih hcap' (show (cur ++ [iv]).length < maxInvTrickleSize by simpa using hfull)
          rw [hadd] at h1 h4
          refine ⟨by simp [h1], h2, h3, fun v => ?_, ?_⟩
          · rw [h4, List.mem_cons, List.mem_cons, or_assoc]; exact or_left_comm
          · intro res hres
            rcases List.mem_cons.1 hres with rfl | hres
            · exact ⟨_, rfl⟩
            · exact h5 res hres

theorem length_flatten_of_forall {ls : List (List InvVect)} {c : Nat}
    (h : ∀ m ∈ ls, m.length = c) : ls.flatten.length = c * ls.length := by
  induction ls with
  | nil => simp
  | cons l ls ih =>
      simp only [List.flatten_cons, List.length_append, List.length_cons,
        h l (List.mem_cons_self l ls), ih fun m hm => h m (List.mem_cons_of_mem l hm)]
      rw [Nat.mul_succ, Nat.add_comm]

/-- The messages of a tick, full ones and then the open one when it is not empty:
    `⌈n / maxInvTrickleSize⌉` of them for `n` vectors, all full but the last, none
    empty. -/
theorem trickleMsgs_shape {r : Mru InvVect × List (List InvVect) × List InvVect}
    (hfull : ∀ m ∈ r.2.1, m.length = maxInvTrickleSize) (hcur : r.2.2.length < maxInvTrickleSize) :
    (trickleMsgs r).length = ((trickleOut r).length + (maxInvTrickleSize - 1)) / maxInvTrickleSize ∧
      (∀ m ∈ (trickleMsgs r).dropLast, m.length = maxInvTrickleSize) ∧
      ∀ m ∈ trickleMsgs r, 1 ≤ m.length ∧ m.length ≤ maxInvTrickleSize := by
  unfold trickleMsgs
  refine ⟨?_, ?_, fun m hm => ?_⟩
  · rw [trickleOut, List.length_append r.2.1.flatten, length_flatten_of_forall hfull]
    unfold maxInvTrickleSize at hcur ⊢
    split_ifs <;> simp <;> omega
  · split_ifs
    · rw [List.dropLast_concat]; exact hfull
    · simpa using fun m hm => hfull m (List.dropLast_subset _ hm)
  · rcases List.mem_append.1 hm with hm | hm
    · rw [hfull m hm]; decide
    · split_ifs at hm
      · rw [List.mem_singleton.1 hm]; omega
      · cases hm

/-- **A TRICKLE TICK SENDS THE FRESH QUEUE IN FULL MESSAGES.** A tick of a running
    pipeline, with the disconnect flag clear, a non-empty queue `q`, and room in the
    known set `K` for all of `q`: empties the queue; leaves `K` and the fresh vectors of
    `q` as the known set; and passes to `queuePacket`, in order,
    `⌈|fresh| / maxInvTrickleSize⌉` `inv` messages whose lists concatenate to the
    fresh vectors, all holding `maxInvTrickleSize` but the last, which holds between
    one and `maxInvTrickleSize`; no `AddInvVect` call fails.

    The whole loop is the one step `qTrickle`, so `K` is the known set as the tick
    found it: an `AddKnownInventory` that the source lets run between two iterations
    of the loop is not modelled inside it. -/
theorem trickle_tick_chunks {s s' : Pipeline} (hr : Reachable s) (h : step s .qTrickle = some s')
    (hd : s.link.disconnect = 0) (hq : s.invSendQueue ≠ [])
    (hcap : s.knownInventory.items.length + s.invSendQueue.length ≤ maxKnownInventory) :
    s'.invSendQueue = [] ∧
      (∀ v, v ∈ s'.knownInventory.items ↔
        v ∈ s.knownInventory.items ∨ v ∈ freshInv s.knownInventory.items s.invSendQueue) ∧
      ∃ msgs, s'.emitted = s.emitted ++ msgs ∧ s'.queued = s.queued ++ msgs.map invPacket ∧
        msgs.flatten = freshInv s.knownInventory.items s.invSendQueue ∧
        msgs.length = ((freshInv s.knownInventory.items s.invSendQueue).length +
          (maxInvTrickleSize - 1)) / maxInvTrickleSize ∧
        (∀ m ∈ msgs.dropLast, m.length = maxInvTrickleSize) ∧
        (∀ m ∈ msgs, 1 ≤ m.length ∧ m.length ≤ maxInvTrickleSize) ∧
        ∀ res ∈ trickleAdds s.knownInventory [] s.invSendQueue, ∃ l, res = .ok l := by
  simp only [step] at h
  split_ifs at h
  cases h
  obtain ⟨h1, h2, h3, h4, h5⟩ := @trickleLoop_chunks s.knownInventory [] s.invSendQueue
    (by rw [hr.knownInventory_limit]; exact hcap) (by decide)
  have htick : trickleTick s = queueInvs { s with knownInventory :=
      (trickleLoop s.knownInventory [] s.invSendQueue).1, invSendQueue := [] }
      (trickleMsgs (trickleLoop s.knownInventory [] s.invSendQueue)) := by
    rw [trickleTick, if_neg (by simp [hd, hq])]
  generalize trickleLoop s.knownInventory [] s.invSendQueue = r at h1 h2 h3 h4 h5 htick
  have hout : trickleOut r = freshInv s.knownInventory.items s.invSendQueue := by
    rw [trickleOut, h1, List.nil_append]
  obtain ⟨hlen, hdrop, hrange⟩ := trickleMsgs_shape h2 h3
  rw [htick]
  exact ⟨by simp, by simpa using h4, trickleMsgs r, by simp, queueInvs_queued _ _,
    by rw [flatten_trickleMsgs, hout], by rw [hlen, hout], hdrop, hrange, h5⟩

/-- A transaction announcement. -/
def newTx : InvVect := ⟨.tx, 1⟩

/-- The transaction is relayed and `queueHandler` queues it for the trickle. -/
def txQueuedRun : List Action := [.queueInventory newTx, .sendInv 0, .qInv]

/-- The next tick sends the transaction in one message and records it. -/
theorem trickle_tick_one_tx :
    ∃ s s', run (pipelineInit true) txQueuedRun = some s ∧ step s .qTrickle = some s' ∧
      s.link.disconnect = 0 ∧ s.invSendQueue ≠ [] ∧
      s.knownInventory.items.length + s.invSendQueue.length ≤ maxKnownInventory ∧
      s'.invSendQueue = [] ∧
      (∀ v, v ∈ s'.knownInventory.items ↔
        v ∈ s.knownInventory.items ∨ v ∈ freshInv s.knownInventory.items s.invSendQueue) ∧
      ∃ msgs, s'.emitted = s.emitted ++ msgs ∧ s'.queued = s.queued ++ msgs.map invPacket ∧
        msgs.flatten = freshInv s.knownInventory.items s.invSendQueue ∧
        msgs.length = ((freshInv s.knownInventory.items s.invSendQueue).length +
          (maxInvTrickleSize - 1)) / maxInvTrickleSize ∧
        (∀ m ∈ msgs.dropLast, m.length = maxInvTrickleSize) ∧
        (∀ m ∈ msgs, 1 ≤ m.length ∧ m.length ≤ maxInvTrickleSize) ∧
        ∀ res ∈ trickleAdds s.knownInventory [] s.invSendQueue, ∃ l, res = .ok l :=
  ⟨_, _, rfl, rfl, rfl, by decide, by decide,
    trickle_tick_chunks (@Reachable.run _ _ txQueuedRun (.init true) rfl) rfl rfl (by decide)
      (by decide)⟩

/-- A block announcement. -/
def newBlock : InvVect := ⟨.block, 1⟩

/-- Two relays of the same block both pass `QueueInventory`'s check before either is
    sent, and `queueHandler` takes both through the fast path. -/
def blockTwiceRun : List Action :=
  [.queueInventory newBlock, .sendInv 0, .queueInventory newBlock, .sendInv 0, .qInv, .qInv]

/-- **THE FAST PATH RECORDS NOTHING.** With the version known, a peer whose known set
    never received a vector announces the same block in two `inv` messages, and after
    both the block is still not known to the peer. -/
theorem block_announced_twice_unrecorded :
    ∃ s, Reachable s ∧ s.emitted = [[newBlock], [newBlock]] ∧ s.knownInventory.items = [] :=
  ⟨_, @Reachable.run _ _ blockTwiceRun (.init true) rfl, rfl, rfl⟩

/-! ## Inventory keeps its order

    The callers' sends on `outputInvChan` complete in some order; `invSubmitted`
    records it along a run. What `queueHandler` sent, holds for the trickle and has yet
    to take, projected to the fast path or to the trickle, is a sublist of that order
    (`InvOrder`): the fast path overtakes the trickle, but neither path reorders,
    duplicates or invents a vector. -/

/-- The test `queueHandler` makes on a received vector: blocks take the fast path. -/
def fastPath (iv : InvVect) : Bool := decide (iv.type = .block ∨ iv.type = .witnessBlock)

/-- What one move puts on `outputInvChan`: the vector of the caller whose send completes. -/
def chanSend (s : Pipeline) : Action → List InvVect
  | .sendInv i => s.invSenders[i]?.toList
  | _ => []

/-- The vectors `QueueInventory` callers put on `outputInvChan` along a run, in the
    order their sends completed. -/
def invSubmitted (s : Pipeline) : List Action → List InvVect
  | [] => []
  | a :: as =>
    match step s a with
    | some s' => chanSend s a ++ invSubmitted s' as
    | none => []

/-- The trickle loop sends what it was given, in order, some of it skipped. -/
theorem trickleOut_sublist (known : Mru InvVect) (cur ivs : List InvVect) :
    (trickleOut (trickleLoop known cur ivs)).Sublist (cur ++ ivs) := by
  induction ivs generalizing known cur with
  | nil => simp [trickleLoop, trickleOut]
  | cons iv rest ih =>
      have happ : (appendInv cur iv).Sublist (cur ++ [iv]) := by
        unfold appendInv; split
        · rename_i h; unfold addInvVect at h; split_ifs at h; cases h; exact .refl _
        · exact List.sublist_append_left _ _
      simp only [trickleLoop]
      split_ifs
      · exact (ih known cur).trans (by simp)
      · simp only [trickleOut] at ih ⊢
        have := ih (known.add iv) []
        simp only [List.flatten_cons, List.nil_append, List.append_assoc] at this ⊢
        exact (happ.append this).trans (by simp)
      · exact (ih _ _).trans (by simpa using happ.append_right rest)

/-- The inventory around the queue handler: what it sent, holds for the trickle and has
    yet to take, what callers are still sending, and the known set. -/
def Pipeline.invView (s : Pipeline) :
    List (List InvVect) × List InvVect × List InvVect × List InvVect × Mru InvVect :=
  (s.emitted, s.invSendQueue, s.outputInvChan, s.invSenders, s.knownInventory)

@[simp] theorem queuePacket_invView (s : Pipeline) (m : OutMsg) :
    (queuePacket s m).invView = s.invView := by
  rw [queuePacket_eq]; rfl

@[simp] theorem queueInvs_outputInvChan (s : Pipeline) (ms : List (List InvVect)) :
    (queueInvs s ms).outputInvChan = s.outputInvChan := by
  induction ms generalizing s with
  | nil => rfl
  | cons l ms ih => rw [queueInvs_cons, ih, queuePacket_eq]

/-- The moves that touch inventory: the two calls, the channel send, the two receive
    cases of `outputInvChan` and the trickle tick. -/
def Action.movesInventory : Action → Bool
  | .queueInventory _ | .sendInv _ | .addKnownInventory _ | .qInv | .qTrickle | .qCleanupInv => true
  | _ => false

/-- Every other move leaves the inventory where it was. -/
theorem step_invView {s s' : Pipeline} {a : Action} (h : step s a = some s')
    (ha : a.movesInventory = false) : s'.invView = s.invView := by
  cases a with
  | queueMessage m => cases h; unfold queueMessage; split <;> rfl
  | sendOutput i => obtain ⟨m, -, -, rfl⟩ := step_sendOutput h; rfl
  | qOutput => obtain ⟨m, rest, -, -, rfl⟩ := step_qOutput h; simp; rfl
  | qSendDone =>
      simp only [step] at h; split_ifs at h; cases h
      cases hp : s.pendingMsgs <;> simp only [sendDone, hp] <;> rfl
  | oWrite ok => obtain ⟨m, -, rfl⟩ := step_oWrite h; unfold finishWrite; split_ifs <;> rfl
  | qCleanupOutput => obtain ⟨m, rest, -, -, rfl⟩ := step_qCleanupOutput h; rfl
  | oTake => obtain ⟨m, rest, -, -, rfl⟩ := step_oTake h; rfl
  | oCleanup => obtain ⟨m, rest, -, -, rfl⟩ := step_oCleanup h; rfl
  | disconnect | qQuit | qExit | oQuit | oQueueQuit | oExit =>
      simp only [step] at h; (try split_ifs at h); cases h; rfl
  | queueInventory | sendInv | addKnownInventory | qInv | qTrickle | qCleanupInv => cases ha

/-- The order invariant: the queue for the trickle holds no blocks; what was sent, held
    and not yet taken, projected to each path, is a sublist of what was put on the
    channel. -/
structure InvOrder (s : Pipeline) (sub : List InvVect) : Prop where
  queue_trickled : ∀ iv ∈ s.invSendQueue, fastPath iv = false
  trickled : ((s.emitted.flatten ++ s.invSendQueue ++ s.outputInvChan).filter
    fun iv => !fastPath iv).Sublist (sub.filter fun iv => !fastPath iv)
  fast : ((s.emitted.flatten ++ s.outputInvChan).filter fastPath).Sublist (sub.filter fastPath)

/-- A move that only drops or reorders across the paths keeps the invariant. -/
theorem InvOrder.mono {s s' : Pipeline} {sub : List InvVect} (h : InvOrder s sub)
    (hq : ∀ iv ∈ s'.invSendQueue, fastPath iv = false)
    (ht : ((s'.emitted.flatten ++ s'.invSendQueue ++ s'.outputInvChan).filter
      fun iv => !fastPath iv).Sublist
        ((s.emitted.flatten ++ s.invSendQueue ++ s.outputInvChan).filter fun iv => !fastPath iv))
    (hf : ((s'.emitted.flatten ++ s'.outputInvChan).filter fastPath).Sublist
      ((s.emitted.flatten ++ s.outputInvChan).filter fastPath)) :
    InvOrder s' sub :=
  ⟨hq, ht.trans h.trickled, hf.trans h.fast⟩

/-- A move that leaves the inventory where it was keeps the invariant. -/
theorem InvOrder.frame {s s' : Pipeline} {sub : List InvVect} (h : InvOrder s sub)
    (hv : s'.invView = s.invView) : InvOrder s' sub := by
  simp only [Pipeline.invView, Prod.mk.injEq] at hv
  obtain ⟨he, hi, ho, -⟩ := hv
  exact ⟨hi ▸ h.queue_trickled, he ▸ hi ▸ ho ▸ h.trickled, he ▸ ho ▸ h.fast⟩

/-- Taking the head of `outputInvChan` and dropping it keeps the invariant. -/
theorem InvOrder.drop_head {s : Pipeline} {sub : List InvVect} (h : InvOrder s sub)
    {iv : InvVect} {rest : List InvVect} (hc : s.outputInvChan = iv :: rest) :
    InvOrder { s with outputInvChan := rest } sub := by
  refine h.mono h.queue_trickled ?_ ?_ <;> rw [hc] <;> exact
    ((List.sublist_cons_self iv rest).append_left _).filter _

/-- **STEP.** Every move keeps the invariant, with the vector a completed channel send
    put on `outputInvChan` appended to the record. -/
theorem InvOrder.step {s s' : Pipeline} {sub : List InvVect} (h : InvOrder s sub) {a : Action}
    (hs : step s a = some s') : InvOrder s' (sub ++ chanSend s a) := by
  cases a with
  | sendInv i =>
      obtain ⟨iv, hiv, -, rfl⟩ := step_sendInv hs
      rw [show chanSend s (.sendInv i) = [iv] by simp [chanSend, hiv]]
      refine ⟨h.queue_trickled, ?_, ?_⟩
      · simpa only [List.append_assoc, List.filter_append] using
          h.trickled.append (.refl ([iv].filter fun iv => !fastPath iv))
      · simpa only [List.append_assoc, List.filter_append] using
          h.fast.append (.refl ([iv].filter fastPath))
  | qInv =>
      obtain ⟨iv, rest, -, hc, rfl⟩ := step_qInv hs
      rw [show chanSend s .qInv = [] from rfl, List.append_nil]
      unfold receiveInv
      split_ifs with hk hb
      · -- a block goes out at once, in an `inv` of its own
        have hf : fastPath iv = true := by simpa [fastPath] using hb
        refine h.mono (by rw [queueInvs_invSendQueue]; exact h.queue_trickled) ?_ ?_ <;>
          simp [hc, hf, appendInv_of_lt (show ([] : List InvVect).length < maxInvPerMsg by decide)]
      · -- anything else waits for the trickle
        have hf : fastPath iv = false := by simpa [fastPath] using hb
        refine h.mono (fun v hv => (List.mem_append.1 hv).elim (h.queue_trickled v)
          (fun h1 => List.mem_singleton.1 h1 ▸ hf)) ?_ ?_ <;> simp [hc, hf]
      · exact h.drop_head hc
  | qCleanupInv =>
      obtain ⟨iv, rest, -, hc, rfl⟩ := step_qCleanupInv hs
      rw [show chanSend s .qCleanupInv = [] from rfl, List.append_nil]
      exact h.drop_head hc
  | qTrickle =>
      simp only [PeerPipeline.step] at hs; split_ifs at hs; cases hs
      rw [show chanSend s .qTrickle = [] from rfl, List.append_nil]
      unfold trickleTick
      split_ifs
      · exact h
      · have hsub := trickleOut_sublist s.knownInventory [] s.invSendQueue
        generalize trickleLoop s.knownInventory [] s.invSendQueue = r at hsub ⊢
        have hnf : (trickleOut r).filter fastPath = [] := List.filter_eq_nil_iff.2 fun iv hiv => by
          simpa using h.queue_trickled iv (by simpa using hsub.subset hiv)
        rw [List.nil_append] at hsub
        refine h.mono (by rw [queueInvs_invSendQueue]; exact fun _ h => nomatch h) ?_ ?_ <;>
          simp only [queueInvs_emitted, queueInvs_invSendQueue, queueInvs_outputInvChan,
            List.flatten_append, flatten_trickleMsgs, List.append_nil, List.append_assoc,
            List.filter_append, hnf, List.nil_append]
        · exact ((hsub.filter _).append_right _).append_left _
        · exact .refl _
  | queueInventory iv =>
      cases hs
      simp only [chanSend, List.append_nil]
      unfold queueInventory; split_ifs <;> exact ⟨h.queue_trickled, h.trickled, h.fast⟩
  | addKnownInventory iv =>
      cases hs
      simp only [chanSend, List.append_nil]
      exact ⟨h.queue_trickled, h.trickled, h.fast⟩
  | queueMessage _ | sendOutput _ | disconnect | qOutput | qSendDone | qQuit | qCleanupOutput
  | qExit | oTake | oWrite _ | oQuit | oQueueQuit | oCleanup | oExit =>
      simp only [chanSend, List.append_nil]
      exact h.frame (step_invView hs rfl)

/-- **RUN.** Along any run the invariant holds against what the run put on the channel. -/
theorem InvOrder.run {s s' : Pipeline} {sub : List InvVect} (h : InvOrder s sub)
    {as : List Action} (hr : run s as = some s') : InvOrder s' (sub ++ invSubmitted s as) := by
  induction as generalizing s sub with
  | nil => cases hr; simpa [invSubmitted] using h
  | cons a as ih =>
      simp only [PeerPipeline.run, Option.bind_eq_some] at hr
      obtain ⟨s1, h1, h2⟩ := hr
      simpa [invSubmitted, h1] using ih (h.step h1) h2

/-- **INVENTORY LEAVES IN THE ORDER IT CAME.** Along any interleaving of a launched
    pipeline, the vectors of the `inv` messages `queueHandler` built, taken in order,
    are on each path a sublist of what the `QueueInventory` callers put on
    `outputInvChan`, in the order their sends completed: blocks for the fast path,
    everything else for the trickle. So the queue handler announces nothing it was not
    given, nothing more often than it was given, and on each path nothing ahead of
    what was given before it. -/
theorem inventory_sent_in_order (versionKnown : Bool) {as : List Action} {s : Pipeline}
    (h : run (pipelineInit versionKnown) as = some s) :
    (s.emitted.flatten.filter fun iv => !fastPath iv).Sublist
        ((invSubmitted (pipelineInit versionKnown) as).filter fun iv => !fastPath iv) ∧
      (s.emitted.flatten.filter fastPath).Sublist
        ((invSubmitted (pipelineInit versionKnown) as).filter fastPath) := by
  have hi := (show InvOrder (pipelineInit versionKnown) [] from
    ⟨(fun _ h => nomatch h), by simp [pipelineInit], by simp [pipelineInit]⟩).run h
  rw [List.nil_append] at hi
  exact ⟨((List.sublist_append_left _ s.outputInvChan).filter _).trans
      (((List.sublist_append_left _ s.invSendQueue).append_right _).filter _ |>.trans hi.trickled),
    ((List.sublist_append_left _ s.outputInvChan).filter _).trans hi.fast⟩

/-- A transaction relayed, then a block: the block goes out first, at once, and the
    transaction at the next tick. -/
theorem inventory_sent_in_order_block_overtakes :
    ∃ s, run (pipelineInit true)
        [.queueInventory newTx, .sendInv 0, .qInv, .queueInventory newBlock, .sendInv 0, .qInv,
          .qTrickle] = some s ∧
      (s.emitted.flatten.filter fun iv => !fastPath iv).Sublist
        ((invSubmitted (pipelineInit true) [.queueInventory newTx, .sendInv 0, .qInv,
          .queueInventory newBlock, .sendInv 0, .qInv, .qTrickle]).filter fun iv => !fastPath iv) ∧
      (s.emitted.flatten.filter fastPath).Sublist
        ((invSubmitted (pipelineInit true) [.queueInventory newTx, .sendInv 0, .qInv,
          .queueInventory newBlock, .sendInv 0, .qInv, .qTrickle]).filter fastPath) :=
  ⟨_, rfl, inventory_sent_in_order true rfl⟩

/-! ## A trickled vector is sent once

    While the known set holds at most `maxKnownInventory` distinct vectors it evicts
    nothing, so a vector the trickle sent stays known and every later tick skips
    it. -/

/-- **ONE PASS WITHIN A BOUNDED SET OF VECTORS.** With the known set and the queue
    drawn from at most `limit` vectors, the loop evicts nothing, adds only queued
    vectors, and sends after the open message new vectors, each once, none known
    before and all known after. -/
theorem trickleLoop_within {known : Mru InvVect} {cur ivs : List InvVect} {V : Finset InvVect}
    (hV : V.card ≤ known.limit) (hk : ∀ v ∈ known.items, v ∈ V) (hq : ∀ v ∈ ivs, v ∈ V)
    (hcur : cur.length < maxInvTrickleSize) :
    (∀ v ∈ known.items, v ∈ (trickleLoop known cur ivs).1.items) ∧
      (∀ v ∈ (trickleLoop known cur ivs).1.items, v ∈ known.items ∨ v ∈ ivs) ∧
      ∃ new, trickleOut (trickleLoop known cur ivs) = cur ++ new ∧ new.Nodup ∧ (∀ v ∈ new, v ∈ ivs) ∧
        ∀ v ∈ new, v ∉ known.items ∧ v ∈ (trickleLoop known cur ivs).1.items := by
  induction ivs generalizing known cur with
  | nil => exact ⟨fun v hv => hv, fun v hv => .inl hv, [], by simp [trickleLoop, trickleOut],
      List.nodup_nil, by simp, by simp⟩
  | cons iv rest ih =>
      have hq' : ∀ v ∈ rest, v ∈ V := fun v hv => hq v (List.mem_cons_of_mem _ hv)
      by_cases hc : known.contains iv = true
      · -- a vector that became known is skipped
        simp only [trickleLoop, hc, if_true]
        obtain ⟨h1, h2, new, h3, h4, h5, h6⟩ := ih hV hk hq' hcur
        exact ⟨h1, fun v hv => (h2 v hv).imp_right (List.mem_cons_of_mem _), new, h3, h4,
          fun v hv => List.mem_cons_of_mem _ (h5 v hv), h6⟩
      · -- a new vector goes into the message and into the known set
        rw [Bool.not_eq_true] at hc
        have hiv : iv ∉ known.items := by simpa [Mru.contains] using hc
        have hgrow : ∀ v ∈ known.items, v ∈ (known.add iv).items :=
          fun v hv => Mru.mem_add_of_subset hV hk (hq iv (List.mem_cons_self _ _)) hv
        have hk' : ∀ v ∈ (known.add iv).items, v ∈ V := fun v hv =>
          (Mru.mem_of_mem_add hv).elim (· ▸ hq iv (List.mem_cons_self _ _)) (hk v)
        have hV' : V.card ≤ (known.add iv).limit := by rw [Mru.add_limit]; exact hV
        have happ : appendInv cur iv = cur ++ [iv] :=
          appendInv_of_lt (by unfold maxInvTrickleSize at hcur; unfold maxInvPerMsg; omega) iv
        have hfrom : ∀ r : Mru InvVect, (∀ v ∈ r.items, v ∈ (known.add iv).items ∨ v ∈ rest) →
            ∀ v ∈ r.items, v ∈ known.items ∨ v ∈ iv :: rest := fun r hr v hv =>
          (hr v hv).elim (fun h => (Mru.mem_of_mem_add h).elim (fun e => .inr (e ▸ List.mem_cons_self _ _))
            .inl) (fun h => .inr (List.mem_cons_of_mem _ h))
        simp only [trickleLoop, hc, Bool.false_eq_true, ↓reduceIte, happ]
        split_ifs with hfull
        · -- the message is full: it is closed and a new one begun
          obtain ⟨hkeep, hsrc, new, hout, hnd, hin, hnew⟩ :=
            ih hV' hk' hq' (show ([] : List InvVect).length < maxInvTrickleSize by decide)
          obtain ⟨h1, h2, h3⟩ := trickle_cons_new hiv hgrow hkeep hnd hnew
          exact ⟨h1, hfrom _ hsrc, iv :: new, by simpa [trickleOut] using hout, h2,
            List.forall_mem_cons.2 ⟨List.mem_cons_self _ _, fun v hv => List.mem_cons_of_mem _ (hin v hv)⟩, h3⟩
        · obtain ⟨hkeep, hsrc, new, hout, hnd, hin, hnew⟩ :=
            ih hV' hk' hq' (show (cur ++ [iv]).length < maxInvTrickleSize by simpa using hfull)
          obtain ⟨h1, h2, h3⟩ := trickle_cons_new hiv hgrow hkeep hnd hnew
          exact ⟨h1, hfrom _ hsrc, iv :: new, by simp [hout], h2,
            List.forall_mem_cons.2 ⟨List.mem_cons_self _ _, fun v hv => List.mem_cons_of_mem _ (hin v hv)⟩, h3⟩

@[simp] theorem queueInvs_invView (s : Pipeline) (ms : List (List InvVect)) :
    (queueInvs s ms).invView = { s with emitted := s.emitted ++ ms }.invView := by
  induction ms generalizing s with
  | nil => simp [queueInvs]
  | cons l ms ih => rw [queueInvs_cons, ih, queuePacket_eq]; simp [Pipeline.invView]

/-- The vector a move hands over from outside: to `QueueInventory` or to
    `AddKnownInventory`. -/
def Action.invArg : Action → Option InvVect
  | .queueInventory iv | .addKnownInventory iv => some iv
  | _ => none

/-- Every vector known or on its way is drawn from `V`; the trickle queue holds no
    blocks; what the trickle sent was sent once and is still known. -/
structure TrickleOnce (V : Finset InvVect) (s : Pipeline) : Prop where
  limit : s.knownInventory.limit = maxKnownInventory
  known_sub : ∀ iv ∈ s.knownInventory.items, iv ∈ V
  senders_sub : ∀ iv ∈ s.invSenders, iv ∈ V
  chan_sub : ∀ iv ∈ s.outputInvChan, iv ∈ V
  queue_sub : ∀ iv ∈ s.invSendQueue, iv ∈ V
  queue_trickled : ∀ iv ∈ s.invSendQueue, fastPath iv = false
  nodup : (s.emitted.flatten.filter fun iv => !fastPath iv).Nodup
  recorded : ∀ iv ∈ s.emitted.flatten, fastPath iv = false → iv ∈ s.knownInventory.items

section TrickleOnce

variable {V : Finset InvVect} {s s' : Pipeline}

theorem TrickleOnce.frame (h : TrickleOnce V s) (hv : s'.invView = s.invView) :
    TrickleOnce V s' := by
  simp only [Pipeline.invView, Prod.mk.injEq] at hv
  obtain ⟨he, hq, hc, hi, hk⟩ := hv
  exact ⟨hk ▸ h.limit, hk ▸ h.known_sub, hi ▸ h.senders_sub, hc ▸ h.chan_sub, hq ▸ h.queue_sub,
    hq ▸ h.queue_trickled, he ▸ h.nodup, he ▸ hk ▸ h.recorded⟩

/-- Taking the head of `outputInvChan` and dropping it keeps the invariant. -/
theorem TrickleOnce.drop_head (h : TrickleOnce V s) {iv : InvVect} {rest : List InvVect}
    (hc : s.outputInvChan = iv :: rest) : TrickleOnce V { s with outputInvChan := rest } :=
  ⟨h.limit, h.known_sub, h.senders_sub, fun v hv => h.chan_sub v (hc ▸ List.mem_cons_of_mem _ hv),
    h.queue_sub, h.queue_trickled, h.nodup, h.recorded⟩

/-- **STEP.** With at most `maxKnownInventory` vectors in `V`, every move handing over
    only vectors of `V` keeps the invariant. -/
theorem TrickleOnce.step (hV : V.card ≤ maxKnownInventory) (h : TrickleOnce V s) {a : Action}
    (ha : ∀ iv ∈ a.invArg, iv ∈ V) (hs : step s a = some s') : TrickleOnce V s' := by
  cases a with
  | queueInventory iv =>
      cases hs
      unfold queueInventory
      split_ifs
      · exact h
      · refine ⟨h.limit, h.known_sub, fun v hv => ?_, h.chan_sub, h.queue_sub, h.queue_trickled,
          h.nodup, h.recorded⟩
        rcases List.mem_append.1 hv with hv | hv
        · exact h.senders_sub v hv
        · exact List.mem_singleton.1 hv ▸ ha iv rfl
      · exact h
  | sendInv i =>
      obtain ⟨iv, hiv, -, rfl⟩ := step_sendInv hs
      refine ⟨h.limit, h.known_sub, fun v hv => h.senders_sub v (List.mem_of_mem_eraseIdx hv),
        fun v hv => ?_, h.queue_sub, h.queue_trickled, h.nodup, h.recorded⟩
      rcases List.mem_append.1 hv with hv | hv
      · exact h.chan_sub v hv
      · exact List.mem_singleton.1 hv ▸ h.senders_sub iv (List.getElem?_mem hiv)
  | addKnownInventory iv =>
      cases hs
      have hiv : iv ∈ V := ha iv rfl
      refine ⟨by rw [Mru.add_limit]; exact h.limit, fun v hv => ?_, h.senders_sub, h.chan_sub,
        h.queue_sub, h.queue_trickled, h.nodup, fun v hv hf => ?_⟩
      · exact (Mru.mem_of_mem_add hv).elim (· ▸ hiv) (h.known_sub v)
      · exact Mru.mem_add_of_subset (h.limit ▸ hV) h.known_sub hiv (h.recorded v hv hf)
  | qInv =>
      obtain ⟨iv, rest, -, hc, rfl⟩ := step_qInv hs
      have hd := h.drop_head hc
      unfold receiveInv
      split_ifs with hk hb
      · -- a block goes out at once, in an `inv` of its own; the trickled part is unchanged
        have hf : fastPath iv = true := by simpa [fastPath] using hb
        rw [appendInv_of_lt (show ([] : List InvVect).length < maxInvPerMsg by decide)]
        refine TrickleOnce.frame ?_ (queueInvs_invView _ _)
        refine ⟨hd.limit, hd.known_sub, hd.senders_sub, hd.chan_sub, hd.queue_sub,
          hd.queue_trickled, ?_, fun v hv hfv => ?_⟩
        · simpa only [List.flatten_append, List.flatten_cons, List.flatten_nil, List.append_nil,
            List.nil_append, List.filter_append, List.filter_singleton, hf, Bool.not_true,
            cond_false, List.append_nil] using hd.nodup
        · rw [List.flatten_append, List.mem_append] at hv
          rcases hv with hv | hv
          · exact hd.recorded v hv hfv
          · rw [show v = iv by simpa using hv, hf] at hfv; cases hfv
      · -- anything else waits for the trickle
        have hf : fastPath iv = false := by simpa [fastPath] using hb
        have hivV : iv ∈ V := h.chan_sub iv (hc ▸ List.mem_cons_self _ _)
        refine ⟨hd.limit, hd.known_sub, hd.senders_sub, hd.chan_sub, fun v hv => ?_, fun v hv => ?_,
          hd.nodup, hd.recorded⟩
        · rcases List.mem_append.1 hv with hv | hv
          · exact hd.queue_sub v hv
          · exact List.mem_singleton.1 hv ▸ hivV
        · rcases List.mem_append.1 hv with hv | hv
          · exact hd.queue_trickled v hv
          · exact List.mem_singleton.1 hv ▸ hf
      · exact hd
  | qCleanupInv =>
      obtain ⟨iv, rest, -, hc, rfl⟩ := step_qCleanupInv hs
      exact h.drop_head hc
  | qTrickle =>
      simp only [PeerPipeline.step] at hs; split_ifs at hs; cases hs
      unfold trickleTick
      split_ifs
      · exact h
      · obtain ⟨hkeep, hsrc, new, hout, hnd, hin, hnew⟩ :=
          @trickleLoop_within s.knownInventory [] s.invSendQueue V (h.limit ▸ hV) h.known_sub
            h.queue_sub (by decide)
        have hlim := trickleLoop_limit s.knownInventory [] s.invSendQueue
        generalize trickleLoop s.knownInventory [] s.invSendQueue = r at hkeep hsrc hout hnew hlim ⊢
        rw [List.nil_append] at hout
        have hflat : (trickleMsgs r).flatten = new := by rw [flatten_trickleMsgs, hout]
        have hnf : new.filter (fun iv => !fastPath iv) = new :=
          List.filter_eq_self.2 fun v hv => by simp [h.queue_trickled v (hin v hv)]
        refine TrickleOnce.frame ?_ (queueInvs_invView _ _)
        refine ⟨hlim.trans h.limit, fun v hv => (hsrc v hv).elim (h.known_sub v) (h.queue_sub v),
          h.senders_sub, h.chan_sub, (fun _ h => nomatch h), (fun _ h => nomatch h), ?_, fun v hv hf => ?_⟩
        · -- what the tick sends was not known, and what was sent before is
          simp only [List.flatten_append, hflat, List.filter_append, hnf]
          refine List.nodup_append.2 ⟨h.nodup, hnd, fun v hv hv' => (hnew v hv').1 ?_⟩
          rw [List.mem_filter] at hv
          exact h.recorded v hv.1 (by simpa using hv.2)
        · simp only [List.flatten_append, hflat, List.mem_append] at hv
          exact hv.elim (fun hv => hkeep v (h.recorded v hv hf)) fun hv => (hnew v hv).2
  | queueMessage _ | sendOutput _ | disconnect | qOutput | qSendDone | qQuit | qCleanupOutput
  | qExit | oTake | oWrite _ | oQuit | oQueueQuit | oCleanup | oExit =>
      exact h.frame (step_invView hs rfl)

/-- **RUN.** Along any run handing over only vectors of `V`, the invariant holds. -/
theorem TrickleOnce.run (hV : V.card ≤ maxKnownInventory) (h : TrickleOnce V s)
    {as : List Action} (has : ∀ a ∈ as, ∀ iv ∈ a.invArg, iv ∈ V) (hr : run s as = some s') :
    TrickleOnce V s' := by
  induction as generalizing s with
  | nil => cases hr; exact h
  | cons a as ih =>
      simp only [PeerPipeline.run, Option.bind_eq_some] at hr
      obtain ⟨s1, h1, h2⟩ := hr
      exact ih (h.step hV (has a (List.mem_cons_self _ _)) h1)
        (fun b hb => has b (List.mem_cons_of_mem _ hb)) h2

end TrickleOnce

/-- **A TRICKLED VECTOR IS SENT ONCE.** Along any interleaving of a launched pipeline
    whose callers hand `QueueInventory` and `AddKnownInventory` at most
    `maxKnownInventory` distinct vectors, the trickle sends no vector twice, and every
    vector it sent is in the known set. -/
theorem trickled_sent_once (versionKnown : Bool) {as : List Action} {s : Pipeline}
    (h : run (pipelineInit versionKnown) as = some s)
    (hV : (as.filterMap Action.invArg).toFinset.card ≤ maxKnownInventory) :
    (s.emitted.flatten.filter fun iv => !fastPath iv).Nodup ∧
      ∀ iv ∈ s.emitted.flatten, fastPath iv = false → iv ∈ s.knownInventory.items := by
  have hinit : TrickleOnce (as.filterMap Action.invArg).toFinset (pipelineInit versionKnown) := by
    constructor <;> first | rfl | simp [pipelineInit]
  have hi := hinit.run hV
    (fun a ha iv hiv => List.mem_toFinset.2 (List.mem_filterMap.2 ⟨a, ha, hiv⟩)) h
  exact ⟨hi.nodup, hi.recorded⟩

/-- Two relays of the same transaction both pass `QueueInventory`'s check and reach the
    trickle queue; the tick sends it once. -/
def txTwiceRun : List Action :=
  [.queueInventory newTx, .queueInventory newTx, .sendInv 0, .sendInv 0, .qInv, .qInv, .qTrickle]

theorem trickled_sent_once_queued_twice :
    ∃ s, run (pipelineInit true) txTwiceRun = some s ∧ s.emitted = [[newTx]] ∧
      (txTwiceRun.filterMap Action.invArg).toFinset.card ≤ maxKnownInventory ∧
      (s.emitted.flatten.filter fun iv => !fastPath iv).Nodup ∧
      ∀ iv ∈ s.emitted.flatten, fastPath iv = false → iv ∈ s.knownInventory.items :=
  ⟨_, rfl, rfl, by decide, @trickled_sent_once true txTwiceRun _ rfl (by decide)⟩

end PeerPipeline
