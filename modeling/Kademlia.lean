import Kademlia.Bencode.Body
import Kademlia.Bencode.Error
import Kademlia.Bencode.Record
import Kademlia.Bencode.Scan
import Kademlia.Bencode.Value
import Kademlia.Bucket
import Kademlia.Bytes
import Kademlia.Catalog
import Kademlia.Choice
import Kademlia.Coalescer
import Kademlia.Digest
import Kademlia.Directory
import Kademlia.Dispatcher
import Kademlia.Error
import Kademlia.Gossip.Archive
import Kademlia.Gossip.Fetches
import Kademlia.Gossip.Holders
import Kademlia.Ident
import Kademlia.Ident.Text
import Kademlia.Lookup
import Kademlia.Lookup.Frontier
import Kademlia.Lookup.Goal
import Kademlia.Lookup.Progress
import Kademlia.Membership
import Kademlia.Message
import Kademlia.Message.Envelope
import Kademlia.Message.Wire
import Kademlia.Network
import Kademlia.Parameters
import Kademlia.Peer
import Kademlia.Searcher
import Kademlia.Server
import Kademlia.Store
import Kademlia.Table
import Kademlia.Table.Closest
import Kademlia.Ticket
import Kademlia.Time
import Kademlia.Topics
import Kademlia.TtlMap
import Kademlia.Utf8
import Kademlia.Proofs.Time
import Kademlia.Proofs.Bytes
import Kademlia.Proofs.Catalog
import Kademlia.Proofs.Ident
import Kademlia.Proofs.Ident.Prefix
import Kademlia.Proofs.Bencode.Scan
import Kademlia.Proofs.Bencode.Body
import Kademlia.Proofs.Bencode.Reading
import Kademlia.Proofs.Bencode.Record
import Kademlia.Proofs.Bencode.Source
import Kademlia.Proofs.Message.Envelope
import Kademlia.Proofs.Message.Wire
import Kademlia.Proofs.Message.RoundTrip
import Kademlia.Proofs.Bucket
import Kademlia.Proofs.Table.Shape
import Kademlia.Proofs.Table.Admission
import Kademlia.Proofs.Table.Closest
import Kademlia.Proofs.Table.Indexed
import Kademlia.Proofs.Table.Outward
import Kademlia.Proofs.Directory
import Kademlia.Proofs.Server
import Kademlia.Proofs.Lookup.Frontier
import Kademlia.Proofs.Lookup.Asking
import Kademlia.Proofs.Lookup.Run
import Kademlia.Proofs.Lookup.Pace
import Kademlia.Proofs.Lookup.History
import Kademlia.Proofs.Lookup.Convergence
import Kademlia.Proofs.Lookup.Turn
import Kademlia.Proofs.Lookup.Selection
import Kademlia.Proofs.Lookup.Acceptance
import Kademlia.Proofs.Lookup.Ending
import Kademlia.Proofs.Lookup.Question
import Kademlia.Proofs.Lookup.Waiting
import Kademlia.Proofs.Lookup.Sweep
import Kademlia.Proofs.Dispatcher
import Kademlia.Proofs.Dispatcher.Lives
import Kademlia.Proofs.Dispatcher.Run
import Kademlia.Proofs.Dispatcher.Isolation
import Kademlia.Proofs.Dispatcher.Moves
import Kademlia.Proofs.Dispatcher.Waiting
import Kademlia.Proofs.Dispatcher.Sources
import Kademlia.Proofs.Coalescer.Entries
import Kademlia.Proofs.Coalescer.Run
import Kademlia.Proofs.Coalescer.Recall
import Kademlia.Proofs.Coalescer.Freshness
import Kademlia.Proofs.TtlMap
import Kademlia.Proofs.Gossip.Holders
import Kademlia.Proofs.Network
import Kademlia.Proofs.Directory.Changes
import Kademlia.Proofs.Directory.Keyed
import Kademlia.Proofs.Bencode.Truncation
import Kademlia.Proofs.Dispatcher.Custody
import Kademlia.Proofs.Message.Truncation
import Kademlia.Proofs.Message.Compatibility
import Kademlia.Proofs.Choice
import Kademlia.Proofs.Membership
import Kademlia.Proofs.Server.Members
import Kademlia.Proofs.Store
import Kademlia.Proofs.Server.Values
import Kademlia.Proofs.Network.Exchange
import Kademlia.Proofs.Table.Exactness
import Kademlia.Proofs.Table.Refusal
import Kademlia.Proofs.Table.Walk
import Kademlia.Proofs.Table.Broadcast
import Kademlia.Proofs.Lookup.FirstValue
import Kademlia.Proofs.Lookup.Members
import Kademlia.Proofs.Gossip.Fetches
import Kademlia.Proofs.Gossip.Fetches.History
import Kademlia.Proofs.Lasting
import Kademlia.Proofs.Peer
import Kademlia.Proofs.Message.Peers
import Kademlia.Proofs.Lookup.Frontier.Marks
import Kademlia.Proofs.TtlMap.Removal
import Kademlia.Proofs.Gossip.Fetches.Timeouts
import Kademlia.Proofs.Bytes.Bits
import Kademlia.Proofs.Bytes.Hex
import Kademlia.Proofs.Ident.Metric
import Kademlia.Proofs.Ident.Draw
import Kademlia.Proofs.Ident.Text
