import Junkcoin.VersionbitsCache
import Junkcoin.Frame
import Junkcoin.RpcMining
import Junkcoin.FlagsRestrict
import Junkcoin.Emission
import Junkcoin.LoadBlockIndex
import Junkcoin.ForkWarnings
import Junkcoin.FailedAncestors
import Junkcoin.MerkleBranch
import Junkcoin.CoinsCodec
import Junkcoin.PartialMerkleTree
import Junkcoin.BlockTransactionsRequest
import Junkcoin.CompactRebuild
import Junkcoin.Retarget
import Junkcoin.DevelopmentFund
import Junkcoin.InitAuxPow
import Junkcoin.CoinsUsage
import Junkcoin.CheckedFlag
import Junkcoin.BlockFiles
import Junkcoin.MempoolOrder
import Junkcoin.MempoolHashes
import Junkcoin.CachedLocks
import Junkcoin.CoinbaseHeight
import Junkcoin.Amounts
import Junkcoin.SendQueue
import Junkcoin.Eviction
import Junkcoin.RollingBloom
import Junkcoin.CuckooCache
import Junkcoin.OrphanPool
import Junkcoin.TxRequests
import Junkcoin.CheckQueue
import Junkcoin.VarInt
import Junkcoin.DerSignature
import Junkcoin.Locator
import Junkcoin.ArithUint256
import Junkcoin.CombineMultisig
import Junkcoin.BufferedFile
import Junkcoin.AddressGroupings
import Junkcoin.SignatureHash
