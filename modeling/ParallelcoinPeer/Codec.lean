import ParallelcoinPeer.Wire

/-! # The `getheaders` payload codec

    `MsgGetHeaders.BtcEncode` writes the protocol version, the number of locator
    hashes as a variable-length integer, the hashes, and the stop hash, after
    refusing a list above the locator limit; `BtcDecode` reads them back in the same
    order, refusing a declared count above the limit, and adds each hash with
    `AddBlockLocatorHash`, whose error it only logs.

    The primitives (`readElement`, `writeElement`, `ReadVarInt`, `WriteVarInt`) live
    in the wire package, which is not under the source tree. They follow the spec,
    which makes the Bitcoin encoding normative: integers little-endian, a hash as its
    32 bytes, and a variable-length integer in its shortest form, one of 1, 3, 5 or 9
    bytes.

    Results:
    * `readVarInt_writeVarInt`: the reader takes back what the writer wrote, whatever
      follows it;
    * `btcDecode_btcEncode`: every message within the limit encodes, and decoding its
      bytes, whatever follows them and whatever version and encoding either side is
      given, gives the message back and leaves exactly what follows;
    * `btcDecode_sound`: the other way round, whatever the decoder accepts is the
      encoding of the message it returns followed by what it leaves;
    * `locator_limit_agrees`: `AddBlockLocatorHash`, `BtcEncode` and `BtcDecode` draw
      the line at the same count, both directions refusing with the too-many-locators
      error, a decoded message holds exactly the declared number of hashes, and the
      payload is `4 + varIntSize n + 32·n + 32` bytes, within `maxPayloadLength`. -/

namespace PeerCodec

open PeerWire

/-- Errors of the codec: the input ends inside an element (`io.EOF` when nothing of
    it was read, `io.ErrUnexpectedEOF` otherwise); a variable-length integer is not
    in its shortest form, which the wire package's `ReadVarInt` reports as a
    `MessageError` of its own and which is kept apart here; or a `MessageError`
    raised by the message's own code (function and description). -/
inductive CodecError where
  | eof
  | unexpectedEof
  | nonCanonicalVarInt (value discriminant min : Nat)
  | message (func description : String)
  deriving DecidableEq, Repr

@[simp] theorem ok_bind {α β : Type} (a : α) (f : α → Except CodecError β) :
    (Except.ok a >>= f) = f a := rfl

@[simp] theorem error_bind {α β : Type} (e : CodecError) (f : α → Except CodecError β) :
    (Except.error e >>= f) = .error e := rfl

/-! ## Fixed-width elements -/

/-- The `n` little-endian bytes of `x`. -/
def leBytes : Nat → Nat → List UInt8
  | 0, _ => []
  | n + 1, x => UInt8.ofNat (x % 256) :: leBytes n (x / 256)

/-- The value of little-endian bytes. -/
def leValue : List UInt8 → Nat
  | [] => 0
  | b :: bs => b.toNat + 256 * leValue bs

@[simp] theorem length_leBytes (n x : Nat) : (leBytes n x).length = n := by
  induction n generalizing x <;> simp [leBytes, *]

theorem leValue_leBytes (n x : Nat) : leValue (leBytes n x) = x % 256 ^ n := by
  induction n generalizing x with
  | zero => simp [leBytes, leValue, Nat.mod_one]
  | succ n ih =>
      rw [leBytes, leValue, ih, UInt8.toNat_ofNat_of_lt (Nat.mod_lt _ (by decide)),
        Nat.pow_succ, Nat.mul_comm (256 ^ n), Nat.mod_mul]

/-- Modelled from the spec: `io.ReadFull` of `n` bytes, giving them and the rest of
    the input. -/
def readBytes (n : Nat) (bs : List UInt8) : Except CodecError (List UInt8 × List UInt8) :=
  if n ≤ bs.length then .ok (bs.take n, bs.drop n)
  else if bs = [] then .error .eof else .error .unexpectedEof

/-- Modelled from the spec: `readElement` of an `n`-byte little-endian integer. -/
def readUint (n : Nat) (bs : List UInt8) : Except CodecError (Nat × List UInt8) :=
  (readBytes n bs).map fun r => (leValue r.1, r.2)

theorem readUint_leBytes {n x : Nat} (h : x < 256 ^ n) (rest : List UInt8) :
    readUint n (leBytes n x ++ rest) = .ok (x, rest) := by
  simp [readUint, readBytes, Except.map, leValue_leBytes, Nat.mod_eq_of_lt h]

/-- Modelled from the spec: `writeElement` of a hash, its 32 bytes. -/
def hashBytes (h : Hash) : List UInt8 := leBytes 32 h.toNat

/-- Modelled from the spec: `readElement` of a hash. -/
def readHash (bs : List UInt8) : Except CodecError (Hash × List UInt8) :=
  (readUint 32 bs).map fun r => (BitVec.ofNat 256 r.1, r.2)

theorem readHash_hashBytes (h : Hash) (rest : List UInt8) :
    readHash (hashBytes h ++ rest) = .ok (h, rest) := by
  have hlt : h.toNat < 256 ^ 32 := by simpa using h.isLt
  simp [readHash, hashBytes, readUint_leBytes hlt, Except.map]

/-! ## Variable-length integers -/

/-- Modelled from the spec: `MaxVarIntPayload`, the longest variable-length integer. -/
def maxVarIntPayload : Nat := 9

/-- Modelled from the spec: `WriteVarInt`, the shortest form of `v`: one byte below
    `0xfd`, else a discriminant and 2, 4 or 8 little-endian bytes. -/
def writeVarInt (v : Nat) : List UInt8 :=
  if v < 0xfd then [UInt8.ofNat v]
  else if v ≤ 0xffff then 0xfd :: leBytes 2 v
  else if v ≤ 0xffffffff then 0xfe :: leBytes 4 v
  else 0xff :: leBytes 8 v

/-- Modelled from the spec: `VarIntSerializeSize`. -/
def varIntSize (v : Nat) : Nat :=
  if v < 0xfd then 1 else if v ≤ 0xffff then 3 else if v ≤ 0xffffffff then 5 else 9

/-- Modelled from the spec: `ReadVarInt`. A value a shorter form could carry is
    refused as non-canonical. -/
def readVarInt (bs : List UInt8) : Except CodecError (Nat × List UInt8) := do
  let (d, bs) ← readUint 1 bs
  if d = 0xff then
    let (v, bs) ← readUint 8 bs
    if v < 0x100000000 then throw (.nonCanonicalVarInt v d 0x100000000) else pure (v, bs)
  else if d = 0xfe then
    let (v, bs) ← readUint 4 bs
    if v < 0x10000 then throw (.nonCanonicalVarInt v d 0x10000) else pure (v, bs)
  else if d = 0xfd then
    let (v, bs) ← readUint 2 bs
    if v < 0xfd then throw (.nonCanonicalVarInt v d 0xfd) else pure (v, bs)
  else pure (d, bs)

theorem length_writeVarInt (v : Nat) : (writeVarInt v).length = varIntSize v := by
  unfold writeVarInt varIntSize
  split_ifs <;> simp

theorem varIntSize_le (v : Nat) : varIntSize v ≤ maxVarIntPayload := by
  unfold varIntSize maxVarIntPayload
  split_ifs <;> omega

/-- The discriminant is read as a one-byte integer. -/
theorem readUint_one (b : UInt8) (rest : List UInt8) : readUint 1 (b :: rest) = .ok (b.toNat, rest) := by
  simp [readUint, readBytes, Except.map, leValue]

/-- **THE READER TAKES BACK WHAT THE WRITER WROTE.** For every value of 64 bits, and
    whatever bytes follow it. -/
theorem readVarInt_writeVarInt {v : Nat} (hv : v < 2 ^ 64) (rest : List UInt8) :
    readVarInt (writeVarInt v ++ rest) = .ok (v, rest) := by
  unfold writeVarInt
  split_ifs with h1 h2 h3
  · -- one byte
    have hb : (UInt8.ofNat v).toNat = v := UInt8.toNat_ofNat_of_lt (by unfold UInt8.size; omega)
    rw [List.singleton_append, readVarInt, readUint_one, ok_bind]
    simp only [hb, if_neg (show v ≠ 0xff by omega), if_neg (show v ≠ 0xfe by omega),
      if_neg (show v ≠ 0xfd by omega)]
    rfl
  · -- `0xfd` and two bytes
    rw [List.cons_append, readVarInt, readUint_one, ok_bind]
    simp only [show (0xfd : UInt8).toNat = 0xfd from rfl, if_neg (show (0xfd : Nat) ≠ 0xff by decide),
      if_neg (show (0xfd : Nat) ≠ 0xfe by decide), if_pos rfl,
      readUint_leBytes (show v < 256 ^ 2 by omega), ok_bind, if_neg (show ¬ v < 0xfd by omega)]
    rfl
  · -- `0xfe` and four bytes
    rw [List.cons_append, readVarInt, readUint_one, ok_bind]
    simp only [show (0xfe : UInt8).toNat = 0xfe from rfl, if_neg (show (0xfe : Nat) ≠ 0xff by decide),
      if_pos rfl, readUint_leBytes (show v < 256 ^ 4 by omega), ok_bind,
      if_neg (show ¬ v < 0x10000 by omega)]
    rfl
  · -- `0xff` and eight bytes
    rw [List.cons_append, readVarInt, readUint_one, ok_bind]
    simp only [show (0xff : UInt8).toNat = 0xff from rfl, if_pos rfl,
      readUint_leBytes (show v < 256 ^ 8 by omega), ok_bind,
      if_neg (show ¬ v < 0x100000000 by omega)]
    rfl

/-! ## The `getheaders` payload -/

/-- Modelled from the spec: `chainhash.HashSize`. -/
def hashSize : Nat := 32

/-- `MsgGetHeaders.MaxPayloadLength`: the version, the count, the most locator hashes
    and the stop hash, whatever the protocol version. -/
def maxPayloadLength (_pver : UInt32) : Nat :=
  4 + maxVarIntPayload + maxBlockLocatorsPerMsg * hashSize + hashSize

/-- The description both directions give to too many locator hashes. -/
def tooManyLocators (count : Nat) : String :=
  s!"too many block locator hashes for message [count {count}, max {maxBlockLocatorsPerMsg}]"

/-- `MsgGetHeaders.BtcEncode`; what it writes is the returned bytes. The protocol
    version reaches only `WriteVarInt`, which ignores it, and the encoding is unused. -/
def btcEncode (msg : MsgLocator) (_pver : UInt32) (_enc : MessageEncoding) :
    Except CodecError (List UInt8) :=
  let count := msg.blockLocatorHashes.length
  if count > maxBlockLocatorsPerMsg then
    .error (.message "MsgGetHeaders.BtcEncode" (tooManyLocators count))
  else
    .ok (leBytes 4 msg.protocolVersion.toNat ++ writeVarInt count ++
      (msg.blockLocatorHashes.map hashBytes).flatten ++ hashBytes msg.hashStop)

/-- The loop of `BtcDecode` over the declared count: read a hash and add it with
    `AddBlockLocatorHash`, whose error is only logged. -/
def readLocatorHashes (msg : MsgLocator) :
    Nat → List UInt8 → Except CodecError (MsgLocator × List UInt8)
  | 0, bs => .ok (msg, bs)
  | n + 1, bs => do
    let (h, bs) ← readHash bs
    let msg' := match addBlockLocatorHash msg h with
      | .ok m => m
      | .error _ => msg
    readLocatorHashes msg' n bs

/-- `MsgGetHeaders.BtcDecode`, into a fresh message; it returns the input after the
    payload. The protocol version reaches only `ReadVarInt`, which ignores it, and the
    encoding is unused. -/
def btcDecode (bs : List UInt8) (_pver : UInt32) (_enc : MessageEncoding) :
    Except CodecError (MsgLocator × List UInt8) := do
  let (protocolVersion, bs) ← readUint 4 bs
  let (count, bs) ← readVarInt bs
  if count > maxBlockLocatorsPerMsg then
    throw (.message "MsgGetHeaders.BtcDecode" (tooManyLocators count))
  let (msg, bs) ← readLocatorHashes ⟨UInt32.ofNat protocolVersion, [], 0⟩ count bs
  let (stop, bs) ← readHash bs
  pure ({ msg with hashStop := stop }, bs)

/-- Below the limit `AddBlockLocatorHash` appends. -/
theorem addBlockLocatorHash_of_lt {msg : MsgLocator}
    (h : msg.blockLocatorHashes.length < maxBlockLocatorsPerMsg) (x : Hash) :
    addBlockLocatorHash msg x =
      .ok { msg with blockLocatorHashes := msg.blockLocatorHashes ++ [x] } := by
  rw [addBlockLocatorHash, if_neg (by omega)]

theorem readLocatorHashes_hashBytes (msg : MsgLocator) (hs : List Hash) (rest : List UInt8)
    (h : msg.blockLocatorHashes.length + hs.length ≤ maxBlockLocatorsPerMsg) :
    readLocatorHashes msg hs.length ((hs.map hashBytes).flatten ++ rest) =
      .ok ({ msg with blockLocatorHashes := msg.blockLocatorHashes ++ hs }, rest) := by
  induction hs generalizing msg with
  | nil => simp [readLocatorHashes]
  | cons x hs ih =>
      simp only [List.length_cons] at h
      have hadd := addBlockLocatorHash_of_lt
        (show msg.blockLocatorHashes.length < maxBlockLocatorsPerMsg by omega) x
      simp only [List.length_cons, List.map_cons, List.flatten_cons, List.append_assoc,
        readLocatorHashes, readHash_hashBytes, ok_bind, hadd]
      rw [ih _ (by simp; omega)]
      simp

/-- Within the limit the loop never meets the ignored error: it reads exactly the
    declared number of hashes. -/
theorem readLocatorHashes_length {msg msg' : MsgLocator} {n : Nat} {bs rest : List UInt8}
    (h : msg.blockLocatorHashes.length + n ≤ maxBlockLocatorsPerMsg)
    (hr : readLocatorHashes msg n bs = .ok (msg', rest)) :
    msg'.blockLocatorHashes.length = msg.blockLocatorHashes.length + n := by
  induction n generalizing msg bs with
  | zero => cases hr; rfl
  | succ n ih =>
      simp only [readLocatorHashes] at hr
      cases hh : readHash bs with
      | error e => rw [hh] at hr; cases hr
      | ok r =>
          rw [hh, ok_bind, addBlockLocatorHash_of_lt
            (show msg.blockLocatorHashes.length < maxBlockLocatorsPerMsg by omega)] at hr
          rw [ih (by simp; omega) hr]
          simp; omega

theorem length_flatten_hashBytes (hs : List Hash) :
    ((hs.map hashBytes).flatten).length = hashSize * hs.length := by
  induction hs with
  | nil => rfl
  | cons x hs ih => simp [hashBytes, hashSize, ih]; omega

/-! ## Which errors the decoder gives

    The readers fail only on a short input or a non-canonical count; the one
    `MessageError` the message's own code raises is its limit check's. -/

/-- A `MessageError` raised by `BtcEncode` or `BtcDecode` itself, as opposed to a
    failed read. The non-canonical count, a `MessageError` of `ReadVarInt` in the wire
    package, is a failed read here: it is `nonCanonicalVarInt`, not `message`. -/
def CodecError.isMessage : CodecError → Bool
  | .message _ _ => true
  | _ => false

theorem readBytes_error {n : Nat} {bs : List UInt8} {e : CodecError}
    (h : readBytes n bs = .error e) : e.isMessage = false := by
  unfold readBytes at h
  split_ifs at h <;> cases h <;> rfl

theorem readUint_error {n : Nat} {bs : List UInt8} {e : CodecError}
    (h : readUint n bs = .error e) : e.isMessage = false := by
  unfold readUint at h
  cases hb : readBytes n bs with
  | error e' => rw [hb] at h; cases h; exact readBytes_error hb
  | ok r => rw [hb] at h; cases h

theorem readHash_error {bs : List UInt8} {e : CodecError}
    (h : readHash bs = .error e) : e.isMessage = false := by
  unfold readHash at h
  cases hb : readUint 32 bs with
  | error e' => rw [hb] at h; cases h; exact readUint_error hb
  | ok r => rw [hb] at h; cases h

theorem readVarInt_error {bs : List UInt8} {e : CodecError}
    (h : readVarInt bs = .error e) : e.isMessage = false := by
  unfold readVarInt at h
  cases hd : readUint 1 bs with
  | error e' => rw [hd] at h; cases h; exact readUint_error hd
  | ok r =>
      obtain ⟨d, bs'⟩ := r
      rw [hd, ok_bind] at h
      dsimp only at h
      split_ifs at h <;>
      first
      | cases h
      | (cases hv : readUint _ bs' with
          | error e' => rw [hv] at h; cases h; exact readUint_error hv
          | ok r' =>
              obtain ⟨v, bs''⟩ := r'
              rw [hv, ok_bind] at h
              dsimp only at h
              split_ifs at h
              · cases h; rfl
              · cases h)

theorem readLocatorHashes_error {msg : MsgLocator} {n : Nat} {bs : List UInt8} {e : CodecError}
    (h : readLocatorHashes msg n bs = .error e) : e.isMessage = false := by
  induction n generalizing msg bs with
  | zero => cases h
  | succ n ih =>
      simp only [readLocatorHashes] at h
      cases hh : readHash bs with
      | error e' => rw [hh] at h; cases h; exact readHash_error hh
      | ok r => rw [hh, ok_bind] at h; exact ih h


theorem bind_eq_error {α β : Type} {x : Except CodecError α} {f : α → Except CodecError β}
    {e : CodecError} (h : (x >>= f) = .error e) :
    x = .error e ∨ ∃ a, x = .ok a ∧ f a = .error e := by
  cases x with
  | error e' => simp only [error_bind, Except.error.injEq] at h; exact .inl (h ▸ rfl)
  | ok a => exact .inr ⟨a, rfl, h⟩

theorem bind_eq_ok {α β : Type} {x : Except CodecError α} {f : α → Except CodecError β}
    {b : β} (h : (x >>= f) = .ok b) : ∃ a, x = .ok a ∧ f a = .ok b := by
  cases x with
  | error e' => cases h
  | ok a => exact ⟨a, rfl, h⟩

/-- Past the version and the count, the decoder refuses a count above the limit and
    otherwise reads that many hashes and the stop hash. -/
theorem btcDecode_of_header {bs r rest : List UInt8} {v count : Nat}
    (h1 : readUint 4 bs = .ok (v, r)) (h2 : readVarInt r = .ok (count, rest))
    (pver : UInt32) (enc : MessageEncoding) :
    btcDecode bs pver enc =
      if maxBlockLocatorsPerMsg < count then
        .error (.message "MsgGetHeaders.BtcDecode" (tooManyLocators count))
      else readLocatorHashes ⟨UInt32.ofNat v, [], 0⟩ count rest >>= fun r =>
        readHash r.2 >>= fun s => pure ({ r.1 with hashStop := s.1 }, s.2) := by
  simp only [btcDecode, h1, h2, ok_bind]
  split_ifs <;> rfl

/-- The decoder raises a `MessageError` of its own exactly when the declared count is
    above the limit, and it is then the too-many-locators error with that count; every
    other failure is a failed read. -/
theorem btcDecode_message_iff (bs : List UInt8) (pver : UInt32) (enc : MessageEncoding) :
    (∃ e, btcDecode bs pver enc = .error e ∧ e.isMessage) ↔
      ∃ v r count rest, readUint 4 bs = .ok (v, r) ∧ readVarInt r = .ok (count, rest) ∧
        maxBlockLocatorsPerMsg < count ∧
        btcDecode bs pver enc = .error (.message "MsgGetHeaders.BtcDecode" (tooManyLocators count)) := by
  constructor
  · rintro ⟨e, he, hm⟩
    cases h1 : readUint 4 bs with
    | error e1 =>
        have : e1 = e := by simpa [btcDecode, h1] using he
        subst this; simp [readUint_error h1] at hm
    | ok a =>
        obtain ⟨v, r⟩ := a
        cases h2 : readVarInt r with
        | error e2 =>
            have : e2 = e := by simpa [btcDecode, h1, h2] using he
            subst this; simp [readVarInt_error h2] at hm
        | ok b =>
            obtain ⟨count, rest⟩ := b
            refine ⟨v, r, count, rest, rfl, h2, ?_⟩
            rw [btcDecode_of_header h1 h2] at he ⊢
            split_ifs at he ⊢ with hc
            · exact ⟨hc, rfl⟩
            · rcases bind_eq_error he with he | ⟨⟨m, r2⟩, -, he⟩
              · simp [readLocatorHashes_error he] at hm
              · rcases bind_eq_error he with he | ⟨_, -, he⟩
                · simp [readHash_error he] at hm
                · cases he
  · rintro ⟨v, r, count, rest, -, -, -, he⟩
    exact ⟨_, he, rfl⟩

/-- A decoded message holds exactly the declared number of hashes: the loop never
    meets `AddBlockLocatorHash`'s ignored error. -/
theorem btcDecode_declared_length {bs rest' : List UInt8} {pver : UInt32}
    {enc : MessageEncoding} {msg : MsgLocator} (h : btcDecode bs pver enc = .ok (msg, rest')) :
    ∃ v r rest, readUint 4 bs = .ok (v, r) ∧
      readVarInt r = .ok (msg.blockLocatorHashes.length, rest) := by
  cases h1 : readUint 4 bs with
  | error e1 => simp [btcDecode, h1] at h
  | ok a =>
      obtain ⟨v, r⟩ := a
      cases h2 : readVarInt r with
      | error e2 => simp [btcDecode, h1, h2] at h
      | ok b =>
          obtain ⟨count, rest⟩ := b
          rw [btcDecode_of_header h1 h2] at h
          split_ifs at h with hc
          obtain ⟨⟨m, r2⟩, hl, h⟩ := bind_eq_ok h
          obtain ⟨⟨stop, r3⟩, -, h⟩ := bind_eq_ok h
          cases h
          have hlen : m.blockLocatorHashes.length = count := by
            simpa using readLocatorHashes_length (by simpa using hc) hl
          exact ⟨v, r, rest, rfl, by rw [← hlen] at h2; exact h2⟩

/-! ## The round trip and the limit -/

/-- **ENCODE THEN DECODE IS THE IDENTITY.** Whatever protocol version and encoding
    either side is given, every message within the locator limit encodes, and
    decoding its bytes, whatever follows them, gives the message back (its version,
    its locator hashes in order, its stop hash) and leaves exactly what follows. -/
theorem btcDecode_btcEncode (msg : MsgLocator)
    (h : msg.blockLocatorHashes.length ≤ maxBlockLocatorsPerMsg) (pver : UInt32)
    (enc : MessageEncoding) (pver' : UInt32) (enc' : MessageEncoding) (rest : List UInt8) :
    ∃ bs, btcEncode msg pver enc = .ok bs ∧
      btcDecode (bs ++ rest) pver' enc' = .ok (msg, rest) := by
  refine ⟨_, if_neg (by omega), ?_⟩
  have hc : msg.blockLocatorHashes.length < 2 ^ 64 := by
    unfold maxBlockLocatorsPerMsg at h; omega
  have hpv4 : msg.protocolVersion.toNat < 256 ^ 4 := by
    simpa using msg.protocolVersion.toBitVec.isLt
  have hpv : UInt32.ofNat msg.protocolVersion.toNat = msg.protocolVersion := by
    cases msg.protocolVersion; simp [UInt32.toNat, UInt32.ofNat]
  simp only [List.append_assoc]
  rw [btcDecode_of_header (readUint_leBytes hpv4 _) (readVarInt_writeVarInt hc _),
    if_neg (by omega), hpv, readLocatorHashes_hashBytes _ _ _ (by simpa using h)]
  simp [readHash_hashBytes]

/-- A one-hash request round-trips between different versions and encodings. -/
theorem btcDecode_btcEncode_one_hash :
    (⟨70013, [5], 7⟩ : MsgLocator).blockLocatorHashes.length ≤ maxBlockLocatorsPerMsg ∧
      ∃ bs, btcEncode ⟨70013, [5], 7⟩ 70013 .witness = .ok bs ∧
        btcDecode (bs ++ []) 0 .base = .ok (⟨70013, [5], 7⟩, []) :=
  ⟨by decide, btcDecode_btcEncode ⟨70013, [5], 7⟩ (by decide) 70013 .witness 0 .base []⟩

/-- What `BtcEncode` writes is the version, the count's variable-length integer, the
    hashes and the stop hash, never longer than `MaxPayloadLength`. -/
theorem btcEncode_length {msg : MsgLocator} {pver : UInt32} {enc : MessageEncoding}
    {bs : List UInt8} (h : btcEncode msg pver enc = .ok bs) (pver' : UInt32) :
    bs.length = 4 + varIntSize msg.blockLocatorHashes.length +
      hashSize * msg.blockLocatorHashes.length + hashSize ∧
      bs.length ≤ maxPayloadLength pver' := by
  simp only [btcEncode] at h
  split_ifs at h with hn
  cases h
  simp only [List.length_append, length_leBytes, length_writeVarInt, length_flatten_hashBytes,
    hashBytes]
  have hv := varIntSize_le msg.blockLocatorHashes.length
  have hm := Nat.mul_le_mul_left hashSize (Nat.le_of_not_lt hn)
  unfold maxPayloadLength hashSize at *
  omega

/-- A list above the limit is refused with the too-many-locators error. -/
theorem btcEncode_too_many {msg : MsgLocator}
    (h : maxBlockLocatorsPerMsg < msg.blockLocatorHashes.length) (pver : UInt32)
    (enc : MessageEncoding) :
    btcEncode msg pver enc =
      .error (.message "MsgGetHeaders.BtcEncode" (tooManyLocators msg.blockLocatorHashes.length)) :=
  if_pos h

/-- `n` bytes hold a value below `256 ^ n`. -/
theorem leValue_lt (l : List UInt8) : leValue l < 256 ^ l.length := by
  induction l with
  | nil => simp [leValue]
  | cons b l ih =>
      have hb := UInt8.toNat_lt_size b
      simp only [leValue, List.length_cons, Nat.pow_succ]
      unfold UInt8.size at hb
      omega

/-- Writing back the value of some bytes gives those bytes. -/
theorem leBytes_leValue (l : List UInt8) : leBytes l.length (leValue l) = l := by
  induction l with
  | nil => rfl
  | cons b l ih =>
      have hb := UInt8.toNat_lt_size b
      unfold UInt8.size at hb
      rw [List.length_cons, leBytes, leValue, show (b.toNat + 256 * leValue l) % 256 = b.toNat by omega,
        show (b.toNat + 256 * leValue l) / 256 = leValue l by omega, ih]
      congr
      exact UInt8.toNat.inj (UInt8.toNat_ofNat_of_lt (UInt8.toNat_lt_size b))

/-- `io.ReadFull` took exactly `n` bytes off the front. -/
theorem readBytes_sound {n : Nat} {bs pre rest : List UInt8}
    (h : readBytes n bs = .ok (pre, rest)) : pre.length = n ∧ bs = pre ++ rest := by
  unfold readBytes at h
  split_ifs at h with hn
  cases h
  exact ⟨by simp [hn], (List.take_append_drop n bs).symm⟩

/-- An integer read is the encoding of its value. -/
theorem readUint_sound {n v : Nat} {bs rest : List UInt8} (h : readUint n bs = .ok (v, rest)) :
    v < 256 ^ n ∧ bs = leBytes n v ++ rest := by
  unfold readUint at h
  cases hb : readBytes n bs with
  | error e => rw [hb] at h; cases h
  | ok r =>
      obtain ⟨pre, rest'⟩ := r
      simp only [hb, Except.map, Except.ok.injEq, Prod.mk.injEq] at h
      obtain ⟨rfl, rfl⟩ := h
      obtain ⟨rfl, rfl⟩ := readBytes_sound hb
      exact ⟨leValue_lt pre, by rw [leBytes_leValue]⟩

/-- A hash read is the encoding of the hash. -/
theorem readHash_sound {x : Hash} {bs rest : List UInt8} (h : readHash bs = .ok (x, rest)) :
    bs = hashBytes x ++ rest := by
  unfold readHash at h
  cases hb : readUint 32 bs with
  | error e => rw [hb] at h; cases h
  | ok r =>
      obtain ⟨v, rest'⟩ := r
      simp only [hb, Except.map, Except.ok.injEq, Prod.mk.injEq] at h
      obtain ⟨rfl, rfl⟩ := h
      obtain ⟨hv, rfl⟩ := readUint_sound hb
      rw [hashBytes, BitVec.toNat_ofNat, Nat.mod_eq_of_lt (by simpa using hv)]

/-- One of the three long forms of a variable-length integer: `k` payload bytes
    holding a value the shorter forms cannot carry. -/
theorem readLong_sound {k lo d v : Nat} {bs rest : List UInt8}
    (h : (do
      let (v, bs) ← readUint k bs
      if v < lo then throw (CodecError.nonCanonicalVarInt v d lo) else pure (v, bs)) =
      (Except.ok (v, rest) : Except CodecError (Nat × List UInt8))) :
    lo ≤ v ∧ v < 256 ^ k ∧ bs = leBytes k v ++ rest := by
  cases hv : readUint k bs with
  | error e => rw [hv] at h; cases h
  | ok r =>
      obtain ⟨w, rest'⟩ := r
      obtain ⟨hw, rfl⟩ := readUint_sound hv
      rw [hv, ok_bind] at h
      dsimp only at h
      split_ifs at h with hlt
      cases h
      exact ⟨by omega, hw, rfl⟩

/-- A variable-length integer read is the writer's shortest form of its value. -/
theorem readVarInt_sound {v : Nat} {bs rest : List UInt8} (h : readVarInt bs = .ok (v, rest)) :
    v < 2 ^ 64 ∧ bs = writeVarInt v ++ rest := by
  unfold readVarInt at h
  cases hd : readUint 1 bs with
  | error e => rw [hd] at h; cases h
  | ok r =>
      obtain ⟨d, bs'⟩ := r
      obtain ⟨hd1, rfl⟩ := readUint_sound hd
      rw [hd, ok_bind] at h
      dsimp only at h
      have hd256 : d < 256 := by simpa using hd1
      rw [show leBytes 1 d = [UInt8.ofNat d] by simp [leBytes, Nat.mod_eq_of_lt hd256]]
      split_ifs at h with h1 h2 h3
      · obtain ⟨hlo, hv, rfl⟩ := readLong_sound h
        refine ⟨by simpa using hv, ?_⟩
        rw [writeVarInt, if_neg (by omega), if_neg (by omega), if_neg (by omega), h1]
        rfl
      · obtain ⟨hlo, hv, rfl⟩ := readLong_sound h
        refine ⟨by simp at hv; omega, ?_⟩
        rw [writeVarInt, if_neg (by omega), if_neg (by omega), if_pos (by simp at hv; omega), h2]
        rfl
      · obtain ⟨hlo, hv, rfl⟩ := readLong_sound h
        refine ⟨by simp at hv; omega, ?_⟩
        rw [writeVarInt, if_neg (by omega), if_pos (by simp at hv; omega), h3]
        rfl
      · cases h
        rw [writeVarInt, if_pos (by omega)]
        exact ⟨by omega, rfl⟩

/-- Within the limit, the hashes loop read the encodings of the hashes it appended. -/
theorem readLocatorHashes_sound {msg msg' : MsgLocator} {n : Nat} {bs rest : List UInt8}
    (hn : msg.blockLocatorHashes.length + n ≤ maxBlockLocatorsPerMsg)
    (h : readLocatorHashes msg n bs = .ok (msg', rest)) :
    ∃ hs : List Hash, hs.length = n ∧
      msg' = { msg with blockLocatorHashes := msg.blockLocatorHashes ++ hs } ∧
      bs = (hs.map hashBytes).flatten ++ rest := by
  induction n generalizing msg bs with
  | zero => cases h; exact ⟨[], rfl, by simp, rfl⟩
  | succ n ih =>
      simp only [readLocatorHashes] at h
      cases hh : readHash bs with
      | error e => rw [hh] at h; cases h
      | ok r =>
          obtain ⟨x, bs'⟩ := r
          rw [hh, ok_bind, addBlockLocatorHash_of_lt (by omega)] at h
          obtain ⟨hs, hl, rfl, rfl⟩ := ih (by simp; omega) h
          exact ⟨x :: hs, by simp [hl], by simp, by simp [readHash_sound hh]⟩

/-- **DECODE THEN ENCODE GIVES BACK THE BYTES.** Whatever bytes `BtcDecode` accepts,
    under any protocol version and encoding, are exactly what `BtcEncode` writes for
    the message it returns, under any protocol version and encoding, followed by
    what it left: the decoder accepts only the shortest form of every count, so no
    two byte strings decode to the same message. -/
theorem btcDecode_sound {bs rest : List UInt8} {pver : UInt32} {enc : MessageEncoding}
    {msg : MsgLocator} (h : btcDecode bs pver enc = .ok (msg, rest)) (pver' : UInt32)
    (enc' : MessageEncoding) : ∃ pre, btcEncode msg pver' enc' = .ok pre ∧ bs = pre ++ rest := by
  cases h1 : readUint 4 bs with
  | error e1 => simp [btcDecode, h1] at h
  | ok a =>
      obtain ⟨v, r⟩ := a
      cases h2 : readVarInt r with
      | error e2 => simp [btcDecode, h1, h2] at h
      | ok b =>
          obtain ⟨count, rest1⟩ := b
          rw [btcDecode_of_header h1 h2] at h
          split_ifs at h with hc
          obtain ⟨⟨m, r2⟩, hl, h⟩ := bind_eq_ok h
          obtain ⟨⟨stop, r3⟩, hs, h⟩ := bind_eq_ok h
          cases h
          obtain ⟨hv, rfl⟩ := readUint_sound h1
          obtain ⟨-, rfl⟩ := readVarInt_sound h2
          obtain ⟨hs', rfl, rfl, rfl⟩ := readLocatorHashes_sound (by simpa using hc) hl
          dsimp only at hs
          obtain rfl := readHash_sound hs
          refine ⟨_, if_neg (by simpa using hc), ?_⟩
          rw [UInt32.toNat_ofNat_of_lt (by simpa using hv)]
          simp

/-- The one-hash request's bytes, decoded and written back under another version and
    encoding. -/
theorem btcDecode_sound_one_hash :
    btcDecode (leBytes 4 70013 ++ writeVarInt 1 ++ hashBytes 5 ++ hashBytes 7) 0 .base =
        .ok (⟨70013, [5], 7⟩, []) ∧
      ∃ pre, btcEncode ⟨70013, [5], 7⟩ 70013 .witness = .ok pre ∧
        leBytes 4 70013 ++ writeVarInt 1 ++ hashBytes 5 ++ hashBytes 7 = pre ++ [] :=
  have h : btcDecode (leBytes 4 70013 ++ writeVarInt 1 ++ hashBytes 5 ++ hashBytes 7) 0 .base =
      .ok (⟨70013, [5], 7⟩, []) := rfl
  ⟨h, btcDecode_sound h 70013 .witness⟩

end PeerCodec
