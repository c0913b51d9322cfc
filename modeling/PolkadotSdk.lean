import PolkadotSdk.StateDb.Pruning.Counted
import PolkadotSdk.StateMachine.Changeset.Refinement
import PolkadotSdk.StateMachine.OverlayedChanges.RootCache
import PolkadotSdk.Epochs.Pruning
import PolkadotSdk.TransactionPool.Enactment
import PolkadotSdk.Grandpa.SetChanges
import PolkadotSdk.Grandpa.VotingRules
import PolkadotSdk.Grandpa.WarpSync
import PolkadotSdk.NetworkSync.BlockCollection
import PolkadotSdk.Babe.Announcements
import PolkadotSdk.FrameSupport.CountedMap
import PolkadotSdk.FrameSupport.CountedNMap
import PolkadotSdk.Allocator.Adversary
import PolkadotSdk.StateMachine.NextKey
import PolkadotSdk.Babe.Client.FailedImport
import PolkadotSdk.Babe.Client.Equivocation
import PolkadotSdk.NetworkSync.AncestorSearch
import PolkadotSdk.NetworkSync.ChainSync.Requests
import PolkadotSdk.Network.Peerset.Runs
import PolkadotSdk.Service.Finality
import PolkadotSdk.Db.NumberIndex
import PolkadotSdk.ForkTree.Lineage
import PolkadotSdk.ForkTree.Filter
import PolkadotSdk.StateDb.NonCanonical.Window
import PolkadotSdk.NetworkSync.StateSync
import PolkadotSdk.Patch.CrateToml
import PolkadotSdk.Trie.Decoding
import PolkadotSdk.Db.TransactionIndex
import PolkadotSdk.Db.Revert
import PolkadotSdk.Arithmetic.Rational
import PolkadotSdk.Arithmetic.Normalize
import PolkadotSdk.Runtime.Era
import PolkadotSdk.Trie.Recorder
import PolkadotSdk.TransactionPool.MempoolStore
import PolkadotSdk.Grandpa.Enactment
import PolkadotSdk.Grandpa.Justification
import PolkadotSdk.Grandpa.FinalityProof
import PolkadotSdk.Grandpa.Backfill
import PolkadotSdk.Grandpa.GossipPeers
import PolkadotSdk.Trie.CompactProof
import PolkadotSdk.Grandpa.UntilImported
import PolkadotSdk.Grandpa.BlockImport
import PolkadotSdk.Babe.SessionIndex
import PolkadotSdk.StateMachine.OverlayedChanges.Drain
import PolkadotSdk.Network.Peerset.Tally
