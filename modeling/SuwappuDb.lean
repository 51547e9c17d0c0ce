import SuwappuDb.Lib.OrdMap
import SuwappuDb.Lib.Bytes
import SuwappuDb.Lib.Prog
import SuwappuDb.Lib.Ledger
import SuwappuDb.Lib.HashChain
import SuwappuDb.Lib.Footprint
import SuwappuDb.Lib.Decode
import SuwappuDb.Lib.BufReader
import SuwappuDb.Lib.Search
import SuwappuDb.Lib.Utf8
import SuwappuDb.Lib.Hex
import SuwappuDb.Lib.Json
import SuwappuDb.Lib.TxnStore
import SuwappuDb.State
import SuwappuDb.StateTree
import SuwappuDb.StateTreeProof
import SuwappuDb.MembershipProof
import SuwappuDb.Verkle
import SuwappuDb.VerkleBinding
import SuwappuDb.VerkleMembership
import SuwappuDb.VerkleTotality
import SuwappuDb.RedbBalanceStore
import SuwappuDb.Snapshot
import SuwappuDb.SnapshotReaders
import SuwappuDb.Dag
import SuwappuDb.DagSearch
import SuwappuDb.DagClosure
import SuwappuDb.DagValidate
import SuwappuDb.Move
import SuwappuDb.Bridge
import SuwappuDb.Bundle
import SuwappuDb.BundleProof
import SuwappuDb.TransferBundle
import SuwappuDb.MvStore
import SuwappuDb.BlockExecutor
import SuwappuDb.PassProof
import SuwappuDb.LoopProof
import SuwappuDb.Serializability
import SuwappuDb.LedgerRefinement
import SuwappuDb.SerialBlock
import SuwappuDb.SubmissionProof
import SuwappuDb.CallProof
import SuwappuDb.Conservation
import SuwappuDb.Commutation
import SuwappuDb.MoveBundle
import SuwappuDb.MoveNonce
import SuwappuDb.AptosMove
import SuwappuDb.CoinParity
import SuwappuDb.Recovery
import SuwappuDb.RecoveryProof
import SuwappuDb.BlockCodec
import SuwappuDb.L2Sync
import SuwappuDb.BlockStore
import SuwappuDb.RedbRecovery
import SuwappuDb.IncrementalRecovery
import SuwappuDb.Anchor
import SuwappuDb.AnchorLog
import SuwappuDb.AnchorDispatcher
import SuwappuDb.AnchorParity
import SuwappuDb.ParityReport
import SuwappuDb.MixedParity
import SuwappuDb.AnchorTamper
import SuwappuDb.AnchorRegistry
import SuwappuDb.RegistryParity
import SuwappuDb.SignedAnchors
import SuwappuDb.Contention
import SuwappuDb.Protocol
import SuwappuDb.Lane
import SuwappuDb.BridgeProg
import SuwappuDb.DurableState
import SuwappuDb.Driver
import SuwappuDb.FastSync
import SuwappuDb.RegistryAuthority
import SuwappuDb.Commitments
import SuwappuDb.DagOrder
import SuwappuDb.L1Reader
import SuwappuDb.ModuleDeploys
import SuwappuDb.Server
import SuwappuDb.Agreement
