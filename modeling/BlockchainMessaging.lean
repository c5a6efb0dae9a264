import BlockchainMessaging.ChainInv
import BlockchainMessaging.LedgerInv
import BlockchainMessaging.ReachConsensus
import BlockchainMessaging.ConsensusRounds
import BlockchainMessaging.BlockDigest
import BlockchainMessaging.Mining
import BlockchainMessaging.SignVerify
import BlockchainMessaging.Encryption
import BlockchainMessaging.Wallet
import BlockchainMessaging.WalletKeys
import BlockchainMessaging.ProtocolInput
import BlockchainMessaging.P2PNetwork
import BlockchainMessaging.Node
import BlockchainMessaging.MemoryPool
import BlockchainMessaging.BlockCache
import BlockchainMessaging.HexDigest
import BlockchainMessaging.MerkleRoot
import BlockchainMessaging.MerkleLoop
import BlockchainMessaging.ContractRuns
import BlockchainMessaging.ContractLanguage
import BlockchainMessaging.Logger
import BlockchainMessaging.ChainAgreement
import BlockchainMessaging.Lib.Interleaving
import BlockchainMessaging.NodeRuns
import BlockchainMessaging.Lib.Mutex
import BlockchainMessaging.LoggerInstance
import BlockchainMessaging.Lib.Fifo
import BlockchainMessaging.NetworkLoop
import BlockchainMessaging.Addresses
import BlockchainMessaging.Lib.Replica
import BlockchainMessaging.Replication
import BlockchainMessaging.ChainContents
import BlockchainMessaging.Lib.Clamp
import BlockchainMessaging.ValidatorRuns
import BlockchainMessaging.Mailbox
import BlockchainMessaging.PendingQueue
import BlockchainMessaging.ProtocolPayloads
import BlockchainMessaging.Lib.Monitor
import BlockchainMessaging.CacheThreads
import BlockchainMessaging.PoolThreads
import BlockchainMessaging.Renaming
import BlockchainMessaging.BatchOrder
import BlockchainMessaging.Lib.MonitorPair
import BlockchainMessaging.BlockCacheThreads
