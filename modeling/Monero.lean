import Monero.HardFork.Pop
import Monero.HardFork.FollowSchedule
import Monero.Blockchain.AltBookkeeping
import Monero.Blockchain.Emission
import Monero.Blockchain.ChainHistory
import Monero.Blockchain.Checkpoints
import Monero.Blockchain.RingAge
import Monero.Serialization.Weight
import Monero.Crypto.TreeBranch
import Monero.Serialization.HashingBlob
import Monero.Blockchain.PrepareBlocks
import Monero.Database.PruneRuns
import Monero.Rpc.DistributionCache
import Monero.Pool.Template
import Monero.Pool.Incremental
import Monero.Blockchain.Batch
import Monero.Epee.StorageRoundTrip
import Monero.Mnemonics.HalfSeed
import Monero.Levin.Stream
import Monero.Blockchain.Fees
import Monero.Outputs.KeyImage
import Monero.Multisig.Booster
import Monero.RingCT.Simple
import Monero.Scanning.ConfirmedSpends
import Monero.Scanning.Lookahead
import Monero.Scanning.Receipts
import Monero.Scanning.Refresh
import Monero.Transfers.FeeSplit
import Monero.Protocol.Spans
import Monero.Blockchain.RewardPenalty
import Monero.Blockchain.TrimmedDifficulty
import Monero.Common.Base58
import Monero.Common.ApplyPermutation
import Monero.Serialization.TxExtra
import Monero.Blockchain.RecalculateDifficulties
