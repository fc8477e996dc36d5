import TsEthereum.ExecutionClient.Deliveries
import TsEthereum.ExecutionClient.Receipts
import TsEthereum.ExecutionClient.BlockFetcher
import TsEthereum.ExecutionClient.VMRuns
import TsEthereum.ExecutionClient.TxPool.Nonces
import TsEthereum.ExecutionClient.TxPool.Interleaving
import TsEthereum.ExecutionClient.TxPool.Rejections
import TsEthereum.ExecutionClient.TxPool.AnnouncedTxs
import TsEthereum.ExecutionClient.TxPool.Limits
import TsEthereum.MerkleTrie.CheckpointRuns
import TsEthereum.Kademlia.MessageRuns
import TsEthereum.ExecutionClient.Miner.Exclusion
import TsEthereum.Evm.JournalRuns
import TsEthereum.Blockchain.DBKeys
import TsEthereum.ChainConfig.ForkHash
import TsEthereum.P2p.Handshake
import TsEthereum.StateManager.MerkleProof
import TsEthereum.ExecutionClient.Network.PeerPool
import TsEthereum.StateManager.BinaryTree.Roots
import TsEthereum.MerkleTrie.ThrowingCalls
import TsEthereum.MerkleTrie.ValueMaps
import TsEthereum.Kademlia.Closest
import TsEthereum.Kademlia.PingRound
import TsEthereum.Evm.TransientRuns
import TsEthereum.Vm.Bloom
import TsEthereum.Evm.YellowPaper
import TsEthereum.Evm.CreateRevert
import TsEthereum.Evm.JumpRuns
import TsEthereum.Evm.RefundRuns
import TsEthereum.Blockchain.Rollback
import TsEthereum.StateManager.DeletedAccounts
import TsEthereum.Utils.PartialAccount
import TsEthereum.Utils.Signature
import TsEthereum.P2p.Negotiation
import TsEthereum.P2p.Disconnects
import TsEthereum.Utils.CodeChunks
import TsEthereum.ExecutionClient.RateLimiter
import TsEthereum.Tx.Json
import TsEthereum.Evm.Modexp
import TsEthereum.ChainConfig.GethGenesis
import TsEthereum.Blockchain.RecentSigners
import TsEthereum.Blockchain.BlobGas
import TsEthereum.Evm.MemoryGas
import TsEthereum.Utils.Lock
import TsEthereum.Utils.Tasks
