import Aleth.Devcore.Base64
import Aleth.Devcore.Bytes
import Aleth.Devcore.CommitRetry
import Aleth.Devcore.Databases
import Aleth.Devcore.FatTrie
import Aleth.Devcore.FixedHash
import Aleth.Devcore.Hex
import Aleth.Devcore.HexPrefix
import Aleth.Devcore.OverlayDB
import Aleth.Devcore.OverlayRuns
import Aleth.Devcore.RangeMask
import Aleth.Devcore.Rlp
import Aleth.Devcore.RlpCanonical
import Aleth.Devcore.RlpFields
import Aleth.Devcore.RlpItems
import Aleth.Devcore.RlpIteration
import Aleth.Devcore.RlpLists
import Aleth.Devcore.RlpPayload
import Aleth.Devcore.RlpRoundTrip
import Aleth.Devcore.RlpStream
import Aleth.Devcore.RlpSubscript
import Aleth.Devcore.RlpTiles
import Aleth.Devcore.RlpView
import Aleth.Devcore.Sha3
import Aleth.Devcore.StateCacheDB
import Aleth.Devcore.TrieCommon
import Aleth.Devcore.TrieDB
import Aleth.Devcore.TrieGrows
import Aleth.Devcore.TrieHash
import Aleth.Devcore.TrieInsert
import Aleth.Devcore.TrieIteration
import Aleth.Devcore.TrieIterator
import Aleth.Devcore.TrieMixed
import Aleth.Devcore.TrieNodes
import Aleth.Devcore.TrieReach
import Aleth.Devcore.TrieRemove
import Aleth.Devcore.TrieRuns
import Aleth.Devcore.TrieScan
import Aleth.Devcore.TrieStored
import Aleth.Devcore.Words
import Aleth.Devcore.Worker
import Aleth.Devcrypto.ECIES
import Aleth.Devcrypto.KeyDerivation
import Aleth.Ethcore.BlockHeader
import Aleth.Ethcore.DerivedHeaders
import Aleth.Ethcore.HeaderCodec
import Aleth.Ethcore.KeyIndex
import Aleth.Ethcore.KeyManager
import Aleth.Ethcore.Modexp
import Aleth.Ethcore.SealEngine
import Aleth.Ethcore.TransactionBase
import Aleth.Ethcore.TransactionCodec
import Aleth.Ethereum.Account
import Aleth.Ethereum.AccountPages
import Aleth.Ethereum.BasicGasPricer
import Aleth.Ethereum.BlockBlooms
import Aleth.Ethereum.BlockChain
import Aleth.Ethereum.BlockHeaders
import Aleth.Ethereum.BlockQueue
import Aleth.Ethereum.BlockQueueDelivery
import Aleth.Ethereum.BlockQueueDifficulty
import Aleth.Ethereum.BlockQueuePurge
import Aleth.Ethereum.BlockQueueSets
import Aleth.Ethereum.BlockQueueThreads
import Aleth.Ethereum.BlockSync
import Aleth.Ethereum.BlockTree
import Aleth.Ethereum.Calls
import Aleth.Ethereum.CanonicalIndex
import Aleth.Ethereum.Children
import Aleth.Ethereum.CodeSizeCache
import Aleth.Ethereum.Executive
import Aleth.Ethereum.Frames
import Aleth.Ethereum.GasEstimate
import Aleth.Ethereum.HeaviestHead
import Aleth.Ethereum.ImportRuns
import Aleth.Ethereum.Importing
import Aleth.Ethereum.Interrupted
import Aleth.Ethereum.LastBlockHashes
import Aleth.Ethereum.Levels
import Aleth.Ethereum.LogFilter
import Aleth.Ethereum.NamedCode
import Aleth.Ethereum.PendingWatches
import Aleth.Ethereum.QueueCalls
import Aleth.Ethereum.QueueRuns
import Aleth.Ethereum.QueueSizes
import Aleth.Ethereum.QueueTables
import Aleth.Ethereum.Reopening
import Aleth.Ethereum.State
import Aleth.Ethereum.StateJournal
import Aleth.Ethereum.StateMutators
import Aleth.Ethereum.StateObservers
import Aleth.Ethereum.StateRollback
import Aleth.Ethereum.StateView
import Aleth.Ethereum.StateWrites
import Aleth.Ethereum.StoragePages
import Aleth.Ethereum.Supply
import Aleth.Ethereum.Sync
import Aleth.Ethereum.TransactionIndex
import Aleth.Ethereum.TransactionQueue
import Aleth.Ethereum.Transactions
import Aleth.Ethereum.TreeRoute
import Aleth.Ethereum.Turns
import Aleth.Ethereum.WarpCapability
import Aleth.Ethereum.WarpChunks
import Aleth.Ethereum.Watches
import Aleth.Evm.Arithmetic
import Aleth.Evm.Calls
import Aleth.Evm.Cases
import Aleth.Evm.Control
import Aleth.Evm.Effects
import Aleth.Evm.ExtVMFace
import Aleth.Evm.Instruction
import Aleth.Evm.LegacyVM
import Aleth.Evm.Machine
import Aleth.Evm.Memory
import Aleth.Evm.Metering
import Aleth.Evm.Optimize
import Aleth.Evm.Preservation
import Aleth.Evm.Questions
import Aleth.Evm.Rules
import Aleth.Evm.Runs
import Aleth.Evm.Steps
import Aleth.Evmanalysis.BenchmarkResults
import Aleth.GasExploiter.GeneticEngine
import Aleth.Libp2p.Common
import Aleth.Libp2p.ENR
import Aleth.Libp2p.ENRParse
import Aleth.Libp2p.EndpointProof
import Aleth.Libp2p.Eviction
import Aleth.Libp2p.FrameHeaders
import Aleth.Libp2p.FrameRuns
import Aleth.Libp2p.HandshakeMessages
import Aleth.Libp2p.HandshakeRuns
import Aleth.Libp2p.Host
import Aleth.Libp2p.IdentitySchemeV4
import Aleth.Libp2p.Negotiation
import Aleth.Libp2p.NodeBuckets
import Aleth.Libp2p.NodeEntries
import Aleth.Libp2p.NodeTable
import Aleth.Libp2p.NodeTableRuns
import Aleth.Libp2p.PeerInput
import Aleth.Libp2p.RLPXFrameCoder
import Aleth.Libp2p.RLPXFrames
import Aleth.Libp2p.RLPxHandshake
import Aleth.Libp2p.RestoredNetwork
import Aleth.Libp2p.SavedNetwork
import Aleth.Libp2p.SavedRecords
import Aleth.RlpTool.Creating
import Aleth.RlpTool.Rebuilding
import Aleth.RlpTool.RenderedJson
import Aleth.RlpTool.Rendering
import Aleth.Structure.Ancestry
import Aleth.Structure.Asking
import Aleth.Structure.Channel
import Aleth.Structure.Compaction
import Aleth.Structure.Counting
import Aleth.Structure.FlatMemory
import Aleth.Structure.InsertionMap
import Aleth.Structure.Intervals
import Aleth.Structure.Json
import Aleth.Structure.JsonStrings
import Aleth.Structure.Layout
import Aleth.Structure.Lineage
import Aleth.Structure.Loops
import Aleth.Structure.Paging
import Aleth.Structure.Patricia
import Aleth.Structure.PatriciaOrder
import Aleth.Structure.Protocol
import Aleth.Structure.ReadThrough
import Aleth.Structure.Runs
import Aleth.Structure.SortedMap
import Aleth.Structure.Throwing
import Aleth.Web3jsonrpc.GenerateResponse
import Aleth.Web3jsonrpc.SendResponse
