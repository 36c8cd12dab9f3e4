import CilCore.Conciliums.ContractConciliums
import CilCore.Conciliums.Definition
import CilCore.Conciliums.Deposits
import CilCore.Conciliums.FairSelection
import CilCore.Conciliums.GreatestDivisor
import CilCore.Conciliums.PosQuorum
import CilCore.Conciliums.ProposerLookup
import CilCore.Conciliums.RoundAgreement
import CilCore.Conciliums.Rounds
import CilCore.Factory
import CilCore.Lib.AffineResidues
import CilCore.Lib.Dag
import CilCore.Lib.FinMap
import CilCore.Lib.Greedy
import CilCore.Lib.Ledger
import CilCore.Lib.LevelOrder
import CilCore.Lib.LongestPath
import CilCore.Lib.Merkle
import CilCore.Lib.NamedPayments
import CilCore.Lib.OrderedMap
import CilCore.Lib.Plurality
import CilCore.Lib.Postorder
import CilCore.Lib.Prefixes
import CilCore.Lib.Renamed
import CilCore.Lib.Runs
import CilCore.Lib.Varint
import CilCore.Lib.Versions
import CilCore.Lib.WeightedQuorum
import CilCore.Lib.Worklist
import CilCore.Network.Chunking
import CilCore.Network.Framing
import CilCore.Network.MessageAssembler
import CilCore.Network.PeerManager
import CilCore.Network.PeerQueue
import CilCore.Network.PeerState
import CilCore.Network.TimeOffset
import CilCore.Network.Whitelist
import CilCore.Node.App
import CilCore.Node.Application
import CilCore.Node.BadBlocks
import CilCore.Node.BestParents
import CilCore.Node.BftCommit
import CilCore.Node.BftConsensus
import CilCore.Node.BftMajority
import CilCore.Node.BftRounds
import CilCore.Node.BftSafety
import CilCore.Node.BftViews
import CilCore.Node.BlockAgreement
import CilCore.Node.BlockLedger
import CilCore.Node.BlockProcessor
import CilCore.Node.BlockQueue
import CilCore.Node.BlockRequests
import CilCore.Node.BlockSignatures
import CilCore.Node.BlocksFromLastKnown
import CilCore.Node.CallEvents
import CilCore.Node.CallOrder
import CilCore.Node.CallOrigins
import CilCore.Node.CallStack
import CilCore.Node.CoinLimits
import CilCore.Node.ConciliumForks
import CilCore.Node.Confluence
import CilCore.Node.ConstantCall
import CilCore.Node.ContractAccounting
import CilCore.Node.ContractFailure
import CilCore.Node.ContractJournal
import CilCore.Node.ContractMachine
import CilCore.Node.ContractRun
import CilCore.Node.ContractTrace
import CilCore.Node.CreateBlock
import CilCore.Node.DagNode
import CilCore.Node.ExecBlock
import CilCore.Node.FeeBounds
import CilCore.Node.Finality
import CilCore.Node.GraphSupply
import CilCore.Node.Handshake
import CilCore.Node.HashCoverage
import CilCore.Node.HeightRuns
import CilCore.Node.HeightSteps
import CilCore.Node.Heights
import CilCore.Node.Isolation
import CilCore.Node.LastApplied
import CilCore.Node.LatestContract
import CilCore.Node.LedgerRuns
import CilCore.Node.LedgerViews
import CilCore.Node.LightValidation
import CilCore.Node.LinearLedger
import CilCore.Node.LocalTxns
import CilCore.Node.LostWakeups
import CilCore.Node.MainDag
import CilCore.Node.MaximalParents
import CilCore.Node.Mempool
import CilCore.Node.MempoolBound
import CilCore.Node.MempoolStores
import CilCore.Node.NestedCalls
import CilCore.Node.ParentOrder
import CilCore.Node.PendingBlocksManager
import CilCore.Node.PendingContract
import CilCore.Node.ProcessTx
import CilCore.Node.ProposerAgrees
import CilCore.Node.PurgedContracts
import CilCore.Node.RebuildDb
import CilCore.Node.RebuildPending
import CilCore.Node.ReceiptCompleteness
import CilCore.Node.SendAttribution
import CilCore.Node.SignatureWeight
import CilCore.Node.StableSet
import CilCore.Node.StorageCharges
import CilCore.Node.TxCoins
import CilCore.Node.TxInputs
import CilCore.Node.TxReads
import CilCore.Node.TxRecords
import CilCore.Node.VerifyBlock
import CilCore.Node.WeightedMajority
import CilCore.Node.WholeAmounts
import CilCore.Storage.CacheCoherence
import CilCore.Storage.Clash
import CilCore.Storage.Mergeable
import CilCore.Storage.Patch
import CilCore.Storage.PatchAlgebra
import CilCore.Storage.PatchMerge
import CilCore.Storage.PersistentStorage
import CilCore.Storage.Proxies
import CilCore.Storage.PurgedViews
import CilCore.Storage.Shown
import CilCore.Storage.StorageWithCache
import CilCore.Structures.ArrayOf
import CilCore.Structures.Block
import CilCore.Structures.Contract
import CilCore.Structures.ContractContents
import CilCore.Structures.ContractForms
import CilCore.Structures.Proto
import CilCore.Structures.ReceiptHistories
import CilCore.Structures.Transaction
import CilCore.Structures.TxReceipt
import CilCore.Structures.Utxo
import CilCore.Structures.UtxoArrays
import CilCore.Structures.WireBlock
import CilCore.Wallet.Balance
import CilCore.Wallet.Claiming
import CilCore.Wallet.IndexRaces
import CilCore.Wallet.JoinTx
import CilCore.Wallet.ListedUtxo
import CilCore.Wallet.Payment
import CilCore.Wallet.StoredWallets
import CilCore.Wallet.TxDraft
import CilCore.Wallet.WalletIndex
