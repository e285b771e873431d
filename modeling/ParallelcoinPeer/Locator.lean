import ParallelcoinPeer.Wire
import Mathlib.Logic.Function.Basic

/-! # Duplicate suppression for locator requests

    `PushGetBlocksMsg` and `PushGetHeadersMsg` are one function with two message
    builders: `pushLocatorMsg`. Each remembers the begin and stop hash of its last
    request and drops a back-to-back repeat.

    The duplicate test and the update of the stored pair run in two separate
    critical sections with `QueueMessage` between them. `LocatorSys` runs two
    calls against one stored pair, each in three atomic steps (check, build and
    queue, update), in any interleaving:

    * `concurrent_getblocks_sent_twice` — both checks before either update, and
      two identical requests leave the peer;
    * `concurrent_push_at_most_one` — otherwise at most one does, and on every
      schedule with both checks first, a request fresh against the stored pair and
      within the locator limit is sent by both calls.

    Run one after another, each call does nothing on a duplicate, refuses a locator
    above the limit, or sends its one request (`push_sequence_contract`). -/

namespace PeerLocator

open PeerWire

/-- Modelled from the spec: the version `NewMsgGetBlocks` stamps
    (`wire.ProtocolVersion`); the wire package is not under the source tree, and
    the spec names FeeFilterVersion as the latest version the protocol speaks. -/
def wireProtocolVersion : UInt32 := feeFilterVersion

/-- The two members of the family. -/
inductive LocatorKind where
  | getBlocks | getHeaders
  deriving DecidableEq, Repr

/-- The empty request with its stop hash: `NewMsgGetBlocks(stopHash)`, or
    `NewMsgGetHeaders()` with `HashStop` set afterwards. -/
def LocatorKind.newMsg : LocatorKind → Hash → MsgLocator
  | .getBlocks, stop => { protocolVersion := wireProtocolVersion, blockLocatorHashes := []
                          hashStop := stop }
  | .getHeaders, stop => { protocolVersion := 0, blockLocatorHashes := [], hashStop := stop }

/-- The message the request travels in. -/
def LocatorKind.wrap : LocatorKind → MsgLocator → Msg
  | .getBlocks => .getBlocks
  | .getHeaders => .getHeaders

/-- The loop adding every locator hash; the first error aborts the call. -/
def addLocator (msg : MsgLocator) (locator : List Hash) : Except String MsgLocator :=
  locator.foldlM addBlockLocatorHash msg

/-- The stored pair (`prevGetBlocksBegin`, `prevGetBlocksStop`), or the getheaders
    one; `none` is a nil pointer. -/
structure PrevPair where
  begin : Option Hash
  stop : Option Hash
  deriving DecidableEq, Repr

/-- The duplicate test: both stored hashes and the begin hash are set, and the new
    pair equals the stored one by value. -/
def isDuplicate (prev : PrevPair) (beginHash : Option Hash) (stopHash : Hash) : Bool :=
  match prev.stop, prev.begin, beginHash with
  | some ps, some pb, some b => stopHash == ps && b == pb
  | _, _, _ => false

/-- One call run alone: the stored pair afterwards, what it hands to
    `QueueMessage`, and the error it returns. -/
def pushLocatorMsg (kind : LocatorKind) (prev : PrevPair) (locator : List Hash)
    (stopHash : Hash) : PrevPair × List Msg × Option String :=
  let beginHash := locator.head?
  if isDuplicate prev beginHash stopHash then (prev, [], none)
  else
    match addLocator (kind.newMsg stopHash) locator with
    | .error e => (prev, [], some e)
    | .ok msg => ({ begin := beginHash, stop := some stopHash }, [kind.wrap msg], none)

/-- `PushGetBlocksMsg`. -/
def pushGetBlocksMsg : PrevPair → List Hash → Hash → PrevPair × List Msg × Option String :=
  pushLocatorMsg .getBlocks

/-- `PushGetHeadersMsg`. -/
def pushGetHeadersMsg : PrevPair → List Hash → Hash → PrevPair × List Msg × Option String :=
  pushLocatorMsg .getHeaders

/-- A stored pair equal to a non-empty request makes it a duplicate. -/
theorem isDuplicate_self (b st : Hash) : isDuplicate ⟨some b, some st⟩ (some b) st = true := by
  simp [isDuplicate]

/-! ## One call after another

    `pushSeq` runs calls one after another, each from the pair the previous one left;
    `push_sequence_contract` gives each call's outcome and what two identical calls
    in a row send. -/

/-- The loop adds the whole locator when it fits and fails otherwise. -/
theorem addLocator_eq {msg : MsgLocator} (h : msg.blockLocatorHashes.length ≤ maxBlockLocatorsPerMsg)
    (locator : List Hash) :
    addLocator msg locator =
      if maxBlockLocatorsPerMsg < msg.blockLocatorHashes.length + locator.length then
        .error "too many block locator hashes for message [max 2000]"
      else .ok { msg with blockLocatorHashes := msg.blockLocatorHashes ++ locator } := by
  induction locator generalizing msg with
  | nil => simp [addLocator, if_neg (Nat.not_lt.2 h)]; rfl
  | cons x xs ih =>
      simp only [addLocator, List.foldlM_cons] at ih ⊢
      by_cases hx : msg.blockLocatorHashes.length + 1 > maxBlockLocatorsPerMsg
      · rw [addBlockLocatorHash, if_pos hx, if_pos (by simp; omega)]
        rfl
      · rw [addBlockLocatorHash, if_neg hx]
        simp only [bind, Except.bind]
        rw [ih (by simp; omega)]
        simp only [List.length_append, List.length_singleton, List.length_cons, List.length_nil,
          List.append_assoc, List.singleton_append]
        split_ifs <;> first | rfl | omega

/-- The duplicate test, by value. -/
theorem isDuplicate_iff (prev : PrevPair) (locator : List Hash) (stopHash : Hash) :
    isDuplicate prev locator.head? stopHash = true ↔
      ∃ b, locator.head? = some b ∧ prev.begin = some b ∧ prev.stop = some stopHash := by
  unfold isDuplicate
  rcases prev with ⟨_ | pb, _ | ps⟩ <;> cases locator.head? <;> simp
  exact ⟨fun ⟨h1, h2⟩ => ⟨h2.symm, h1.symm⟩, fun ⟨h1, h2⟩ => ⟨h2.symm, h1.symm⟩⟩


/-- The request a call builds: the empty request with the whole locator. -/
theorem addLocator_newMsg (kind : LocatorKind) (stopHash : Hash) (locator : List Hash) :
    addLocator (kind.newMsg stopHash) locator =
      if maxBlockLocatorsPerMsg < locator.length then
        .error "too many block locator hashes for message [max 2000]"
      else .ok { kind.newMsg stopHash with blockLocatorHashes := locator } := by
  cases kind <;> simp [addLocator_eq, LocatorKind.newMsg]

/-- **ONE CALL, THREE OUTCOMES.** From any stored pair, a call whose non-empty
    locator starts with the stored begin hash and whose stop hash is the stored one
    does nothing; otherwise a locator above the limit is refused with nothing sent
    and the pair kept; otherwise exactly the request with the whole locator is sent
    and its pair stored. -/
theorem pushLocatorMsg_cases (kind : LocatorKind) (prev : PrevPair) (locator : List Hash)
    (stopHash : Hash) :
    ((∃ b, locator.head? = some b ∧ prev.begin = some b ∧ prev.stop = some stopHash) →
        pushLocatorMsg kind prev locator stopHash = (prev, [], none)) ∧
    ((¬ ∃ b, locator.head? = some b ∧ prev.begin = some b ∧ prev.stop = some stopHash) →
        maxBlockLocatorsPerMsg < locator.length →
        (pushLocatorMsg kind prev locator stopHash).1 = prev ∧
          (pushLocatorMsg kind prev locator stopHash).2.1 = [] ∧
          (pushLocatorMsg kind prev locator stopHash).2.2.isSome) ∧
    ((¬ ∃ b, locator.head? = some b ∧ prev.begin = some b ∧ prev.stop = some stopHash) →
        locator.length ≤ maxBlockLocatorsPerMsg →
        pushLocatorMsg kind prev locator stopHash =
          (⟨locator.head?, some stopHash⟩,
            [kind.wrap { kind.newMsg stopHash with blockLocatorHashes := locator }], none)) := by
  simp only [← isDuplicate_iff]
  refine ⟨fun hd => by simp [pushLocatorMsg, hd], fun hd hn => ?_, fun hd hn => ?_⟩ <;>
    simp [pushLocatorMsg, hd, addLocator_newMsg, hn, Nat.not_lt.2]


/-- Calls one after another on one peer, from a stored pair: the pair after them and,
    call by call, what each handed to `QueueMessage` and returned. -/
def pushSeq (kind : LocatorKind) : PrevPair → List (List Hash × Hash) →
    PrevPair × List (List Msg × Option String)
  | prev, [] => (prev, [])
  | prev, (locator, stopHash) :: calls =>
    let r := pushLocatorMsg kind prev locator stopHash
    ((pushSeq kind r.1 calls).1, r.2 :: (pushSeq kind r.1 calls).2)

/-- Call `i` of a sequence runs from the pair the calls before it left, and leaves
    the pair the calls up to it leave. -/
theorem pushSeq_nth (kind : LocatorKind) (prev : PrevPair) (calls : List (List Hash × Hash))
    (i : Nat) (hi : i < calls.length) :
    (pushSeq kind prev calls).2.getD i ([], none) =
        (pushLocatorMsg kind (pushSeq kind prev (calls.take i)).1 calls[i].1 calls[i].2).2 ∧
      (pushSeq kind prev (calls.take (i + 1))).1 =
        (pushLocatorMsg kind (pushSeq kind prev (calls.take i)).1 calls[i].1 calls[i].2).1 := by
  induction calls generalizing prev i with
  | nil => cases hi
  | cons c calls ih =>
      obtain ⟨locator, stopHash⟩ := c
      cases i with
      | zero => simp [pushSeq]
      | succ i =>
          simp only [List.length_cons, Nat.add_lt_add_iff_right] at hi
          simpa [pushSeq] using ih _ i hi


/-- The stored pair a call of a sequence starts from. -/
def storedBefore (kind : LocatorKind) (prev : PrevPair) (calls : List (List Hash × Hash))
    (i : Nat) : PrevPair :=
  (pushSeq kind prev (calls.take i)).1

/-- What call `i` of a sequence handed to `QueueMessage` and returned. -/
def outcome (kind : LocatorKind) (prev : PrevPair) (calls : List (List Hash × Hash))
    (i : Nat) : List Msg × Option String :=
  (pushSeq kind prev calls).2.getD i ([], none)

/-- A call is a duplicate of a stored pair, by value. -/
def DuplicateOf (p : PrevPair) (c : List Hash × Hash) : Prop :=
  ∃ b, c.1.head? = some b ∧ p.begin = some b ∧ p.stop = some c.2

instance (p : PrevPair) (c : List Hash × Hash) : Decidable (DuplicateOf p c) :=
  decidable_of_iff _ (isDuplicate_iff p c.1 c.2)

/-- The three outcomes of call `i` of a sequence. -/
theorem pushSeq_call (kind : LocatorKind) (prev : PrevPair) (calls : List (List Hash × Hash))
    (i : Nat) (hi : i < calls.length) :
    (DuplicateOf (storedBefore kind prev calls i) calls[i] →
        outcome kind prev calls i = ([], none) ∧
          storedBefore kind prev calls (i + 1) = storedBefore kind prev calls i) ∧
    (¬ DuplicateOf (storedBefore kind prev calls i) calls[i] →
        maxBlockLocatorsPerMsg < calls[i].1.length →
        (outcome kind prev calls i).1 = [] ∧ (outcome kind prev calls i).2.isSome ∧
          storedBefore kind prev calls (i + 1) = storedBefore kind prev calls i) ∧
    (¬ DuplicateOf (storedBefore kind prev calls i) calls[i] →
        calls[i].1.length ≤ maxBlockLocatorsPerMsg →
        outcome kind prev calls i =
            ([kind.wrap { kind.newMsg calls[i].2 with blockLocatorHashes := calls[i].1 }], none) ∧
          storedBefore kind prev calls (i + 1) = ⟨calls[i].1.head?, some calls[i].2⟩) := by
  obtain ⟨hout, hafter⟩ := pushSeq_nth kind prev calls i hi
  obtain ⟨h1, h2, h3⟩ :=
    pushLocatorMsg_cases kind (storedBefore kind prev calls i) calls[i].1 calls[i].2
  unfold outcome storedBefore DuplicateOf at *
  rw [hout, hafter]
  refine ⟨fun hd => by simp [h1 hd], fun hd hn => ?_, fun hd hn => by simp [h3 hd hn]⟩
  obtain ⟨ha, hb, hc⟩ := h2 hd hn
  exact ⟨hb, hc, ha⟩

/-- **CALLS ONE AFTER ANOTHER.** In any sequence of calls on one peer, call `i`, from
    the pair the calls before it left, does nothing when it duplicates that pair;
    otherwise it refuses a locator above the limit, sending nothing and keeping the
    pair; otherwise it sends exactly its request with the whole locator and stores
    its pair. Of two back-to-back identical calls with a non-empty locator within the
    limit the second sends nothing, and the two send one message, none when the
    first already duplicated the stored pair. -/
theorem push_sequence_contract (kind : LocatorKind) (prev : PrevPair)
    (calls : List (List Hash × Hash)) :
    (∀ i (hi : i < calls.length),
      (DuplicateOf (storedBefore kind prev calls i) calls[i] →
          outcome kind prev calls i = ([], none) ∧
            storedBefore kind prev calls (i + 1) = storedBefore kind prev calls i) ∧
      (¬ DuplicateOf (storedBefore kind prev calls i) calls[i] →
          maxBlockLocatorsPerMsg < calls[i].1.length →
          (outcome kind prev calls i).1 = [] ∧ (outcome kind prev calls i).2.isSome ∧
            storedBefore kind prev calls (i + 1) = storedBefore kind prev calls i) ∧
      (¬ DuplicateOf (storedBefore kind prev calls i) calls[i] →
          calls[i].1.length ≤ maxBlockLocatorsPerMsg →
          outcome kind prev calls i =
              ([kind.wrap { kind.newMsg calls[i].2 with blockLocatorHashes := calls[i].1 }], none) ∧
            storedBefore kind prev calls (i + 1) = ⟨calls[i].1.head?, some calls[i].2⟩)) ∧
    (∀ i (hi : i + 1 < calls.length), calls[i] = calls[i + 1] → calls[i].1 ≠ [] →
      calls[i].1.length ≤ maxBlockLocatorsPerMsg →
      outcome kind prev calls (i + 1) = ([], none) ∧
        (outcome kind prev calls i).1.length + (outcome kind prev calls (i + 1)).1.length =
          if DuplicateOf (storedBefore kind prev calls i) calls[i] then 0 else 1) := by
  refine ⟨pushSeq_call kind prev calls, fun i hi heq hne hlen => ?_⟩
  obtain ⟨hd₁, -, hs₁⟩ := pushSeq_call kind prev calls i (by omega)
  obtain ⟨hd₂, -, -⟩ := pushSeq_call kind prev calls (i + 1) hi
  rw [← heq] at hd₂
  by_cases hd : DuplicateOf (storedBefore kind prev calls i) calls[i]
  · obtain ⟨ho, hst⟩ := hd₁ hd
    rw [hst] at hd₂
    rw [ho, (hd₂ hd).1, if_pos hd]
    exact ⟨rfl, rfl⟩
  · obtain ⟨ho, hst⟩ := hs₁ hd hlen
    have hdup : DuplicateOf (storedBefore kind prev calls (i + 1)) calls[i] := by
      obtain ⟨b, hb⟩ := Option.ne_none_iff_exists'.1 (mt List.head?_eq_none_iff.1 hne)
      exact ⟨b, hb, by rw [hst, hb], by rw [hst]⟩
    rw [ho, (hd₂ hdup).1, if_neg hd]
    exact ⟨rfl, rfl⟩

/-- The same non-empty request three times, from an empty stored pair. -/
def repeatedCall : List (List Hash × Hash) := List.replicate 3 ([1], 2)

/-- The second and third of three identical calls are back to back and identical,
    yet together send nothing: the first one stored their pair. -/
theorem identical_calls_after_a_first_send_nothing :
    repeatedCall[1] = repeatedCall[2] ∧ repeatedCall[1].1 ≠ [] ∧
      (outcome .getBlocks ⟨none, none⟩ repeatedCall 1).1.length +
        (outcome .getBlocks ⟨none, none⟩ repeatedCall 2).1.length = 0 := by
  decide

/-- The first two of the three calls send one message between them. -/
theorem push_sequence_repeated_call :
    (0 + 1 < repeatedCall.length ∧ repeatedCall[0] = repeatedCall[0 + 1] ∧
      repeatedCall[0].1 ≠ [] ∧ repeatedCall[0].1.length ≤ maxBlockLocatorsPerMsg) ∧
    outcome .getBlocks ⟨none, none⟩ repeatedCall (0 + 1) = ([], none) ∧
      (outcome .getBlocks ⟨none, none⟩ repeatedCall 0).1.length +
          (outcome .getBlocks ⟨none, none⟩ repeatedCall (0 + 1)).1.length =
        if DuplicateOf (storedBefore .getBlocks ⟨none, none⟩ repeatedCall 0) repeatedCall[0]
        then 0 else 1 :=
  ⟨⟨by decide, rfl, by decide, by decide⟩,
    (push_sequence_contract .getBlocks ⟨none, none⟩ repeatedCall).2 0 (by decide) rfl
      (by decide) (by decide)⟩

/-! ## Two calls at once -/

/-- Where a call is: before its check, past it (with its verdict), past
    `QueueMessage`, or returned. -/
inductive CallPhase where
  | start
  | checked (dup : Bool)
  | queued
  | done
  deriving DecidableEq, Repr

/-- One call, with two ghost records: whether its check ran before any update,
    and whether it sent. -/
structure Call where
  locator : List Hash
  stopHash : Hash
  phase : CallPhase
  early : Option Bool
  sent : Bool
  deriving DecidableEq, Repr

/-- A call's next atomic step against the stored pair: the call afterwards, what it
    hands to `QueueMessage`, and the pair it stores. -/
def callStep (kind : LocatorKind) (prev : PrevPair) (updated : Bool) (c : Call) :
    Option (Call × List Msg × Option PrevPair) :=
  match c.phase with
  | .start =>
    some ({ c with phase := .checked (isDuplicate prev c.locator.head? c.stopHash)
                   early := some !updated }, [], none)
  | .checked true => some ({ c with phase := .done }, [], none)
  | .checked false =>
    match addLocator (kind.newMsg c.stopHash) c.locator with
    | .error _ => some ({ c with phase := .done }, [], none)
    | .ok msg => some ({ c with phase := .queued, sent := true }, [kind.wrap msg], none)
  | .queued =>
    some ({ c with phase := .done }, [], some { begin := c.locator.head?, stop := some c.stopHash })
  | .done => none

/-- Two calls on one peer, the messages they queued in order, and a ghost flag
    recording whether some update has run. -/
structure LocatorSys where
  kind : LocatorKind
  prev : PrevPair
  calls : Bool → Call
  queued : List Msg
  updated : Bool

/-- Call `i` takes its next step. -/
def locStep (s : LocatorSys) (i : Bool) : Option LocatorSys :=
  (callStep s.kind s.prev s.updated (s.calls i)).map fun r =>
    { s with calls := Function.update s.calls i r.1, queued := s.queued ++ r.2.1
             prev := r.2.2.getD s.prev, updated := s.updated || r.2.2.isSome }

/-- An interleaving: which call steps next. -/
def locRun (s : LocatorSys) : List Bool → Option LocatorSys
  | [] => some s
  | i :: is => (locStep s i).bind (locRun · is)

/-- Two calls about to start, from a stored pair. -/
def locInit (kind : LocatorKind) (prev : PrevPair) (c₀ c₁ : List Hash × Hash) : LocatorSys :=
  { kind, prev, queued := [], updated := false
    calls := fun i =>
      let c := if i then c₁ else c₀
      { locator := c.1, stopHash := c.2, phase := .start, early := none, sent := false } }

/-- Both calls check against an empty stored pair before either updates: the
    schedule is check, check, queue, update, queue, update. -/
theorem concurrent_getblocks_sent_twice :
    (locRun (locInit .getBlocks ⟨none, none⟩ ([0], 1) ([0], 1))
      [false, true, false, false, true, true]).map (fun s => s.queued.length) = some 2 := by
  decide

/-! ## At most one request unless both checks come first -/

/-- Every step a call can take. -/
theorem callStep_cases {kind : LocatorKind} {prev : PrevPair} {updated : Bool} {c : Call}
    {r : Call × List Msg × Option PrevPair} (h : callStep kind prev updated c = some r) :
    (c.phase = .start ∧ r = ({ c with phase := .checked (isDuplicate prev c.locator.head? c.stopHash)
                                      early := some !updated }, [], none)) ∨
    ((c.phase = .checked true ∨ c.phase = .checked false ∧ maxBlockLocatorsPerMsg < c.locator.length) ∧
      r = ({ c with phase := .done }, [], none)) ∨
    (c.phase = .checked false ∧ ∃ msg, r = ({ c with phase := .queued, sent := true }, [kind.wrap msg], none)) ∨
    (c.phase = .queued ∧
      r = ({ c with phase := .done }, [], some { begin := c.locator.head?, stop := some c.stopHash })) := by
  unfold callStep at h
  split at h
  · exact .inl ⟨‹_›, (Option.some.inj h).symm⟩
  · exact .inr (.inl ⟨.inl ‹_›, (Option.some.inj h).symm⟩)
  · split at h
    · rename_i he
      refine .inr (.inl ⟨.inr ⟨‹_›, Nat.lt_of_not_le fun hn => ?_⟩, (Option.some.inj h).symm⟩)
      rw [addLocator_newMsg, if_neg (Nat.not_lt.2 hn)] at he
      cases he
    · exact .inr (.inr (.inl ⟨‹_›, _, (Option.some.inj h).symm⟩))
  · exact .inr (.inr (.inr ⟨‹_›, (Option.some.inj h).symm⟩))
  · cases h

/-- A property every step of either call keeps holds after every interleaving. -/
theorem locRun_inv (P : LocatorSys → Prop) (hP : ∀ s s' i, P s → locStep s i = some s' → P s')
    {s s' : LocatorSys} {is : List Bool} (hs : P s) (h : locRun s is = some s') : P s' := by
  induction is generalizing s with
  | nil => cases h; exact hs
  | cons i is ih =>
      simp only [locRun, Option.bind_eq_some] at h
      obtain ⟨s1, h1, h2⟩ := h
      exact ih (hP _ _ _ hs h1) h2

/-- What each of two calls for begin hash `b` and stop hash `st` keeps true: a call
    sends only after a check that no update preceded. -/
structure CallInv (c : Call) (b st : Hash) : Prop where
  req : c.locator.head? = some b ∧ c.stopHash = st
  unsent : c.phase = .start ∨ (∃ d, c.phase = .checked d) → c.sent = false
  early_of_checked : c.phase = .checked false → c.early = some true
  early_of_sent : c.sent = true → c.early = some true

/-- The messages a call's step queues are those that turn it into a sender. -/
theorem CallInv.step {kind : LocatorKind} {prev : PrevPair} {updated : Bool} {c : Call}
    {b st : Hash} {r : Call × List Msg × Option PrevPair} (hc : CallInv c b st)
    (hprev : updated = true → prev = ⟨some b, some st⟩)
    (h : callStep kind prev updated c = some r) :
    CallInv r.1 b st ∧ r.2.1.length + (if c.sent then 1 else 0) = (if r.1.sent then 1 else 0) ∧
      (r.2.2.isSome → r.2.2 = some ⟨some b, some st⟩) := by
  obtain ⟨hreq, hun, hchk, hsent⟩ := hc
  rcases callStep_cases h with ⟨hp, rfl⟩ | ⟨hp, rfl⟩ | ⟨hp, msg, rfl⟩ | ⟨hp, rfl⟩
  · have h0 := hun (.inl hp)
    refine ⟨⟨hreq, fun _ => h0, fun hd => ?_, fun h1 => absurd h1 (by simp [h0])⟩, by simp [h0], by simp⟩
    cases hu : updated
    · rfl
    · simp [hprev hu, hreq.1, hreq.2, isDuplicate_self] at hd
  · have h0 := hun (.inr (hp.elim (⟨_, ·⟩) (⟨_, ·.1⟩)))
    exact ⟨⟨hreq, fun h1 => by simp at h1, fun h1 => by simp at h1, hsent⟩, by simp [h0], by simp⟩
  · have h0 := hun (.inr ⟨_, hp⟩)
    exact ⟨⟨hreq, fun h1 => by simp at h1, fun h1 => by simp at h1, fun _ => hchk hp⟩,
      by simp [h0], by simp⟩
  · exact ⟨⟨hreq, fun h1 => by simp [hp] at h1, fun h1 => by simp at h1, hsent⟩, by simp,
      by simp [hreq.1, hreq.2]⟩

/-- The number of calls that have sent. -/
def sentCount (s : LocatorSys) : Nat :=
  (if (s.calls false).sent then 1 else 0) + (if (s.calls true).sent then 1 else 0)

/-- The invariant of two calls for begin hash `b` and stop hash `st`. -/
structure PairInv (s : LocatorSys) (b st : Hash) : Prop where
  calls : ∀ i, CallInv (s.calls i) b st
  stored : s.updated = true → s.prev = ⟨some b, some st⟩
  count : s.queued.length = sentCount s

theorem PairInv.step {s s' : LocatorSys} {b st : Hash} {i : Bool} (hs : PairInv s b st)
    (h : locStep s i = some s') : PairInv s' b st := by
  simp only [locStep, Option.map_eq_some'] at h
  obtain ⟨r, hr, rfl⟩ := h
  obtain ⟨hc, hlen, hst⟩ := (hs.calls i).step hs.stored hr
  refine ⟨fun j => ?_, fun hu => ?_, ?_⟩
  · by_cases hj : j = i
    · subst hj; simpa using hc
    · simpa [Function.update_noteq hj] using hs.calls j
  · cases hr2 : r.2.2 with
    | none => simpa [hr2] using hs.stored (by simpa [hr2] using hu)
    | some pr => simpa [hr2] using hst (by simp [hr2])
  · have := hs.count
    cases i <;> simp [sentCount, Function.update_apply] at this hlen ⊢ <;> omega

theorem PairInv.run {s s' : LocatorSys} {b st : Hash} {is : List Bool} (hs : PairInv s b st)
    (h : locRun s is = some s') : PairInv s' b st :=
  locRun_inv (PairInv · b st) (fun _ _ _ => PairInv.step) hs h

theorem pairInv_init (kind : LocatorKind) (prev : PrevPair) {loc₀ loc₁ : List Hash} {b st : Hash}
    (h₀ : loc₀.head? = some b) (h₁ : loc₁.head? = some b) :
    PairInv (locInit kind prev (loc₀, st) (loc₁, st)) b st := by
  constructor
  · intro i
    cases i <;> exact ⟨by simp_all [locInit], by simp [locInit], by simp [locInit], by simp [locInit]⟩
  · intro h; cases h
  · rfl

/-! ## Both checks first

    A check that runs before any update sees the pair the calls started from. When
    neither call's request duplicates it and both locators fit, each call therefore
    sends, on every schedule whose two checks precede both updates. -/

/-- What a call for the request `(loc, stop)` keeps true against the pair `prev₀` the
    calls started from: a check run before any update saw `prev₀`, and past such a
    check a request that is fresh against `prev₀` and within the limit has been sent. -/
structure VerdictInv (prev₀ : PrevPair) (loc : List Hash) (stop : Hash) (c : Call) : Prop where
  req : c.locator = loc ∧ c.stopHash = stop
  verdict : ∀ d, c.phase = .checked d → c.early = some true → d = isDuplicate prev₀ loc.head? stop
  sent : c.phase = .queued ∨ c.phase = .done → c.early = some true →
    isDuplicate prev₀ loc.head? stop = false → loc.length ≤ maxBlockLocatorsPerMsg → c.sent = true

theorem VerdictInv.step {kind : LocatorKind} {prev prev₀ : PrevPair} {updated : Bool} {c : Call}
    {loc : List Hash} {stop : Hash} {r : Call × List Msg × Option PrevPair}
    (hc : VerdictInv prev₀ loc stop c) (hprev : updated = false → prev = prev₀)
    (h : callStep kind prev updated c = some r) : VerdictInv prev₀ loc stop r.1 := by
  obtain ⟨⟨hl, hs⟩, hv, hsent⟩ := hc
  rcases callStep_cases h with ⟨-, rfl⟩ | ⟨hp, rfl⟩ | ⟨-, msg, rfl⟩ | ⟨hp, rfl⟩
  · -- the check, against `prev₀` when no update ran before it
    refine ⟨⟨hl, hs⟩, fun d hd he => ?_, fun hq => by simp at hq⟩
    simp only [CallPhase.checked.injEq] at hd
    rw [← hd, hprev (by simpa using he), hl, hs]
  · -- returning at once: a duplicate, or a locator above the limit
    refine ⟨⟨hl, hs⟩, fun d hd => by simp at hd, fun _ he hnd hfit => ?_⟩
    rcases hp with hp | ⟨-, hlen⟩
    · exact Bool.noConfusion ((hv true hp he).trans hnd)
    · rw [hl] at hlen; omega
  · exact ⟨⟨hl, hs⟩, fun d hd => by simp at hd, fun _ _ _ _ => rfl⟩
  · exact ⟨⟨hl, hs⟩, fun d hd => by simp at hd, fun _ => hsent (.inl hp)⟩

/-- The second invariant of two calls from the pair `prev₀`: the stored pair is `prev₀`
    until an update runs, and each call keeps its `VerdictInv`. -/
structure EarlyInv (prev₀ : PrevPair) (c₀ c₁ : List Hash × Hash) (s : LocatorSys) : Prop where
  stored : s.updated = false → s.prev = prev₀
  calls : ∀ i, VerdictInv prev₀ (if i then c₁ else c₀).1 (if i then c₁ else c₀).2 (s.calls i)

theorem EarlyInv.step {prev₀ : PrevPair} {c₀ c₁ : List Hash × Hash} {s s' : LocatorSys} {i : Bool}
    (hs : EarlyInv prev₀ c₀ c₁ s) (h : locStep s i = some s') : EarlyInv prev₀ c₀ c₁ s' := by
  simp only [locStep, Option.map_eq_some'] at h
  obtain ⟨r, hr, rfl⟩ := h
  refine ⟨fun hu => ?_, fun j => ?_⟩
  · obtain ⟨hu, hn⟩ := Bool.or_eq_false_iff.1 hu
    cases hr2 : r.2.2 with
    | none => simpa [hr2] using hs.stored hu
    | some _ => simp [hr2] at hn
  · by_cases hj : j = i
    · subst hj; simpa using (hs.calls j).step hs.stored hr
    · simpa [Function.update_noteq hj] using hs.calls j

theorem earlyInv_init (kind : LocatorKind) (prev : PrevPair) (c₀ c₁ : List Hash × Hash) :
    EarlyInv prev c₀ c₁ (locInit kind prev c₀ c₁) :=
  ⟨fun _ => rfl, fun _ => ⟨⟨rfl, rfl⟩, fun _ hd => by simp [locInit] at hd,
    fun hq => by simp [locInit] at hq⟩⟩

/-- **AT MOST ONE REQUEST UNLESS BOTH CHECKS COME FIRST, AND THEN TWO.** Two concurrent
    calls with the same non-empty begin hash and the same stop hash, from any stored
    pair and under any interleaving, hand at most one request to `QueueMessage`,
    unless both ran their duplicate check before either ran its update. On every
    schedule where both checks come first, from a stored pair the request does not
    duplicate and with both locators within `MaxBlockLocatorsPerMsg`, both calls send
    by the time they have returned. -/
theorem concurrent_push_at_most_one (kind : LocatorKind) (prev : PrevPair)
    {loc₀ loc₁ : List Hash} {b st : Hash} (h₀ : loc₀.head? = some b) (h₁ : loc₁.head? = some b)
    {sched : List Bool} {s : LocatorSys}
    (hs : locRun (locInit kind prev (loc₀, st) (loc₁, st)) sched = some s) :
    (s.queued.length ≤ 1 ∨ ((s.calls false).early = some true ∧ (s.calls true).early = some true)) ∧
      ((s.calls false).early = some true → (s.calls true).early = some true →
        isDuplicate prev (some b) st = false →
        loc₀.length ≤ maxBlockLocatorsPerMsg → loc₁.length ≤ maxBlockLocatorsPerMsg →
        (s.calls false).phase = .done → (s.calls true).phase = .done →
        s.queued.length = 2) := by
  have hi := (pairInv_init kind prev h₀ h₁).run hs
  have he := locRun_inv _ (fun _ _ _ => EarlyInv.step) (earlyInv_init kind prev _ _) hs
  refine ⟨?_, fun e₀ e₁ hnd f₀ f₁ d₀ d₁ => ?_⟩
  · by_cases h0 : (s.calls false).sent <;> by_cases h1 : (s.calls true).sent
    · exact .inr ⟨(hi.calls false).early_of_sent h0, (hi.calls true).early_of_sent h1⟩
    all_goals exact .inl (by simp_all [hi.count, sentCount])
  · have s₀ := (he.calls false).sent (.inr d₀) e₀ (by simpa [h₀] using hnd) f₀
    have s₁ := (he.calls true).sent (.inr d₁) e₁ (by simpa [h₁] using hnd) f₁
    rw [hi.count, sentCount, s₀, s₁]
    rfl

/-- Two identical calls from an empty stored pair. Back to back, the second checking
    after the first's update, a single request leaves the peer; with both checks
    first, both calls send. -/
theorem concurrent_push_two_schedules :
    (∃ s, locRun (locInit .getHeaders ⟨none, none⟩ ([0], 1) ([0], 1))
        [false, false, false, true, true] = some s ∧ s.queued.length = 1 ∧
      (s.queued.length ≤ 1 ∨ ((s.calls false).early = some true ∧ (s.calls true).early = some true))) ∧
    ∃ s, locRun (locInit .getBlocks ⟨none, none⟩ ([0], 1) ([0], 1))
        [false, true, false, false, true, true] = some s ∧
      (s.calls false).early = some true ∧ (s.calls true).early = some true ∧
      (s.calls false).phase = .done ∧ (s.calls true).phase = .done ∧ s.queued.length = 2 :=
  ⟨⟨_, rfl, rfl, (@concurrent_push_at_most_one .getHeaders ⟨none, none⟩ [0] [0] 0 1 rfl rfl
      [false, false, false, true, true] _ rfl).1⟩,
    ⟨_, rfl, rfl, rfl, rfl, rfl, (@concurrent_push_at_most_one .getBlocks ⟨none, none⟩ [0] [0] 0 1
      rfl rfl [false, true, false, false, true, true] _ rfl).2 rfl rfl rfl (by decide) (by decide)
      rfl rfl⟩⟩

end PeerLocator
