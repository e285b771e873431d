import ParallelcoinPeer.Wire
import ParallelcoinPeer.Mru
import ParallelcoinPeer.Peer
import ParallelcoinPeer.Negotiation
import ParallelcoinPeer.InHandler
import ParallelcoinPeer.Stall
import ParallelcoinPeer.ReadLoop
import ParallelcoinPeer.Locator
import ParallelcoinPeer.Pipeline
import ParallelcoinPeer.Handoff
import ParallelcoinPeer.Inventory
import ParallelcoinPeer.Completion
import ParallelcoinPeer.Codec
import ParallelcoinPeer.StallOrder
import ParallelcoinPeer.AddrMsg
import ParallelcoinPeer.Handshake
import ParallelcoinPeer.Process
