import Mathlib.Data.List.Basic
import Mathlib.Algebra.Order.Ring.Nat

/-! # The wire vocabulary the peer engine speaks

    `pkg/peer` reads and writes messages through `pkg/wire`. This file fixes the
    part of that vocabulary the peer's own code inspects: the command of every
    message, the payload fields it reads or builds, inventory vectors, reject
    codes, and the protocol constants it compares against.

    * Go's `int32` fields are kept as their 32-bit pattern (`BitVec 32`), so the
      conversion `uint32(v)` is the identity on bits and `int32(u)` its inverse;
    * payloads the peer never reads (block and transaction bodies, filters) are
      left out: those messages are bare constructors carrying only their command.

    The wire package itself is not under the source tree; where a constant of it
    is needed, its value is the Bitcoin P2P protocol's, which the spec makes
    normative. -/

namespace PeerWire

/-- A block or transaction hash (`chainhash.Hash`, 32 bytes). -/
abbrev Hash := BitVec 256

/-- The protocol commands (`wire.Cmd*`). -/
inductive Cmd where
  | version | verAck | getAddr | addr | getBlocks | inv | getData | notFound
  | block | tx | getHeaders | headers | ping | pong | alert | memPool
  | filterAdd | filterClear | filterLoad | merkleBlock | reject | sendHeaders
  | feeFilter | getCFilters | getCFHeaders | getCFCheckpt | cFilter | cFHeaders
  | cFCheckpt
  deriving DecidableEq, Repr

/-- The command text carried in a frame header (`wire.CmdVersion = "version"`, …). -/
def Cmd.str : Cmd → String
  | .version => "version" | .verAck => "verack" | .getAddr => "getaddr"
  | .addr => "addr" | .getBlocks => "getblocks" | .inv => "inv"
  | .getData => "getdata" | .notFound => "notfound" | .block => "block"
  | .tx => "tx" | .getHeaders => "getheaders" | .headers => "headers"
  | .ping => "ping" | .pong => "pong" | .alert => "alert" | .memPool => "mempool"
  | .filterAdd => "filteradd" | .filterClear => "filterclear"
  | .filterLoad => "filterload" | .merkleBlock => "merkleblock"
  | .reject => "reject" | .sendHeaders => "sendheaders" | .feeFilter => "feefilter"
  | .getCFilters => "getcfilters" | .getCFHeaders => "getcfheaders"
  | .getCFCheckpt => "getcfcheckpt" | .cFilter => "cfilter"
  | .cFHeaders => "cfheaders" | .cFCheckpt => "cfcheckpt"

/-- Every command, for scanning a command-keyed table. -/
def Cmd.all : List Cmd :=
  [.version, .verAck, .getAddr, .addr, .getBlocks, .inv, .getData, .notFound,
   .block, .tx, .getHeaders, .headers, .ping, .pong, .alert, .memPool,
   .filterAdd, .filterClear, .filterLoad, .merkleBlock, .reject, .sendHeaders,
   .feeFilter, .getCFilters, .getCFHeaders, .getCFCheckpt, .cFilter, .cFHeaders,
   .cFCheckpt]

/-- Inventory types (`wire.InvType*`), the witness ones included. -/
inductive InvType where
  | error | tx | block | filteredBlock | witnessBlock | witnessTx
  | filteredWitnessBlock
  deriving DecidableEq, Repr

/-- An inventory vector (`wire.InvVect`). -/
structure InvVect where
  type : InvType
  hash : Hash
  deriving DecidableEq, Repr

/-- Reject codes (`wire.Reject*`). -/
inductive RejectCode where
  | malformed | invalid | obsolete | duplicate | nonstandard | dust
  | insufficientFee | checkpoint
  deriving DecidableEq, Repr

/-- Message encodings (`wire.BaseEncoding`, `wire.WitnessEncoding`);
    `wire.LatestEncoding` is the witness one. -/
inductive MessageEncoding where
  | base | witness
  deriving DecidableEq, Repr

/-- The encoding `wire.LatestEncoding` names. -/
def latestEncoding : MessageEncoding := .witness

/-- The fields of a `version` message the peer reads or builds (`wire.MsgVersion`).
    `protocolVersion` and `lastBlock` are `int32` on the wire. -/
structure MsgVersion where
  protocolVersion : BitVec 32
  services : UInt64
  timestamp : Int
  nonce : UInt64
  userAgent : String
  lastBlock : BitVec 32
  disableRelayTx : Bool
  deriving DecidableEq, Repr

/-- A reject message (`wire.MsgReject`); `hash` is only meaningful for `tx` and
    `block` rejections. -/
structure MsgReject where
  cmd : String
  code : RejectCode
  reason : String
  hash : Hash
  deriving DecidableEq, Repr

/-- A fresh reject (`wire.NewMsgReject`): the hash starts out zero. -/
def newMsgReject (cmd : String) (code : RejectCode) (reason : String) : MsgReject :=
  { cmd, code, reason, hash := 0 }

/-- A block locator request: the payload shared by `getblocks` and `getheaders`
    (`wire.MsgGetBlocks`, `wire.MsgGetHeaders`). -/
structure MsgLocator where
  protocolVersion : UInt32
  blockLocatorHashes : List Hash
  hashStop : Hash
  deriving DecidableEq, Repr

/-- The messages of the protocol. Those whose payload the peer never reads carry
    only their command. -/
inductive Msg where
  | version (m : MsgVersion)
  | verAck
  | getAddr
  | addr
  | getBlocks (m : MsgLocator)
  | inv (invList : List InvVect)
  | getData
  | notFound
  | block
  | tx
  | getHeaders (m : MsgLocator)
  | headers
  | ping (nonce : UInt64)
  | pong (nonce : UInt64)
  | alert
  | memPool
  | filterAdd
  | filterClear
  | filterLoad
  | merkleBlock
  | reject (m : MsgReject)
  | sendHeaders
  | feeFilter
  | getCFilters
  | getCFHeaders
  | getCFCheckpt
  | cFilter
  | cFHeaders
  | cFCheckpt
  deriving DecidableEq, Repr

/-- The command of a message (`Message.Command()`). -/
def Msg.command : Msg → Cmd
  | .version _ => .version | .verAck => .verAck | .getAddr => .getAddr
  | .addr => .addr | .getBlocks _ => .getBlocks | .inv _ => .inv
  | .getData => .getData | .notFound => .notFound | .block => .block
  | .tx => .tx | .getHeaders _ => .getHeaders | .headers => .headers
  | .ping _ => .ping | .pong _ => .pong | .alert => .alert | .memPool => .memPool
  | .filterAdd => .filterAdd | .filterClear => .filterClear
  | .filterLoad => .filterLoad | .merkleBlock => .merkleBlock
  | .reject _ => .reject | .sendHeaders => .sendHeaders | .feeFilter => .feeFilter
  | .getCFilters => .getCFilters | .getCFHeaders => .getCFHeaders
  | .getCFCheckpt => .getCFCheckpt | .cFilter => .cFilter
  | .cFHeaders => .cFHeaders | .cFCheckpt => .cFCheckpt

/-! ## Protocol constants of the wire package -/

/-- Modelled from the spec: the wire package is not under the source tree, and the
    spec makes the Bitcoin P2P protocol normative "up to and including
    FeeFilterVersion", BIP 133's version 70013. It is the peer's
    `MaxProtocolVersion`. -/
def feeFilterVersion : UInt32 := 70013

/-- Modelled from the spec: the protocol's first version that understands
    `reject` (`wire.RejectVersion`, BIP 61). -/
def rejectVersion : UInt32 := 70002

/-- Modelled from the spec: versions above this one answer `ping` with `pong`
    (`wire.BIP0031Version`, BIP 31). -/
def bip0031Version : UInt32 := 60000

/-- Modelled from the spec: the limit on locator hashes in a `getblocks` or
    `getheaders` (`wire.MaxBlockLocatorsPerMsg`). The spec bounds a `getheaders`
    payload by "4 + MaxVarIntPayload + 2000·32 + 32", which is
    `MsgGetHeaders.MaxPayloadLength` with this limit times the hash size. -/
def maxBlockLocatorsPerMsg : Nat := 2000

/-- `AddBlockLocatorHash` of `MsgGetHeaders` (and of `MsgGetBlocks`, the same body):
    refuses a hash that would exceed the locator limit. The error is the
    description of the `MessageError` it returns. -/
def addBlockLocatorHash (msg : MsgLocator) (hash : Hash) : Except String MsgLocator :=
  if msg.blockLocatorHashes.length + 1 > maxBlockLocatorsPerMsg then
    .error "too many block locator hashes for message [max 2000]"
  else .ok { msg with blockLocatorHashes := msg.blockLocatorHashes ++ [hash] }

/-- Modelled from the spec: the protocol's limit on vectors in an `inv`
    (`wire.MaxInvPerMsg`). -/
def maxInvPerMsg : Nat := 50000

/-- Modelled from the spec: appending to an `inv` (`wire.MsgInv.AddInvVect`)
    refuses a vector that would exceed `maxInvPerMsg`. -/
def addInvVect (invList : List InvVect) (iv : InvVect) : Except String (List InvVect) :=
  if invList.length + 1 > maxInvPerMsg then
    .error "too many invvect in message [max 50000]"
  else .ok (invList ++ [iv])

end PeerWire
