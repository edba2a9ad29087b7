import DidCrdt.Core.Admission
import DidCrdt.Core.Authoring
import DidCrdt.Core.CanonicalJson
import DidCrdt.Core.Causal
import DidCrdt.Core.Clock
import DidCrdt.Core.Crdt
import DidCrdt.Core.Dag
import DidCrdt.Core.Delta
import DidCrdt.Core.Did
import DidCrdt.Core.Document
import DidCrdt.Core.Hlc
import DidCrdt.Core.JsonValue
import DidCrdt.Core.Recon
import DidCrdt.Core.Representation
import DidCrdt.Core.Resolve
import DidCrdt.Core.State
import DidCrdt.Core.Stored
import DidCrdt.Core.Traversal
import DidCrdt.Core.Validate
import DidCrdt.Library.Broadcast
import DidCrdt.Library.Calendar
import DidCrdt.Library.CausalDelivery
import DidCrdt.Library.CausalOrder
import DidCrdt.Library.DepthFirst
import DidCrdt.Library.JsonText
import DidCrdt.Library.LastWriter
import DidCrdt.Library.ObservedRemove
import DidCrdt.Library.OrderedMaps
import DidCrdt.Library.Reconciliation
import DidCrdt.Library.Records
import DidCrdt.Library.TopologicalOrder
import DidCrdt.Library.Transactions
import DidCrdt.Service.Handlers
import DidCrdt.Service.Metrics
import DidCrdt.Service.Node
import DidCrdt.Service.Resolution
import DidCrdt.Sync.ColdStart
import DidCrdt.Sync.Gossip
import DidCrdt.Sync.Ingest
import DidCrdt.Sync.Live
import DidCrdt.Sync.Store
import DidCrdt.Sync.Wire
import DidCrdt.Theory.AddWins
import DidCrdt.Theory.Admission
import DidCrdt.Theory.AliasGrammar
import DidCrdt.Theory.AntiEntropy
import DidCrdt.Theory.Atomicity
import DidCrdt.Theory.Authoring
import DidCrdt.Theory.Batch
import DidCrdt.Theory.BatchOrder
import DidCrdt.Theory.BundleChoice
import DidCrdt.Theory.BundleOrder
import DidCrdt.Theory.BundleOrderFree
import DidCrdt.Theory.BundleSettled
import DidCrdt.Theory.BundleSort
import DidCrdt.Theory.CausalPast
import DidCrdt.Theory.CivilTime
import DidCrdt.Theory.Clock
import DidCrdt.Theory.ClockNetwork
import DidCrdt.Theory.ClosureReplay
import DidCrdt.Theory.Coherence
import DidCrdt.Theory.ColdStart
import DidCrdt.Theory.ContentHash
import DidCrdt.Theory.Convergence
import DidCrdt.Theory.Durability
import DidCrdt.Theory.Facts
import DidCrdt.Theory.Frontier
import DidCrdt.Theory.GossipRound
import DidCrdt.Theory.Growth
import DidCrdt.Theory.History
import DidCrdt.Theory.IngestPaths
import DidCrdt.Theory.Metrics
import DidCrdt.Theory.PeerAnswers
import DidCrdt.Theory.PeerDifference
import DidCrdt.Theory.Projection
import DidCrdt.Theory.Reconcile
import DidCrdt.Theory.Registers
import DidCrdt.Theory.Reload
import DidCrdt.Theory.Replay
import DidCrdt.Theory.Representation
import DidCrdt.Theory.Resolution
import DidCrdt.Theory.SelfCertifying
import DidCrdt.Theory.SignerBinding
import DidCrdt.Theory.SigningInput
import DidCrdt.Theory.StateMerge
import DidCrdt.Theory.StoreHistory
import DidCrdt.Theory.StoreVerdicts
import DidCrdt.Theory.Verified
import DidCrdt.Theory.Verifier
import DidCrdt.Theory.WireNetwork
