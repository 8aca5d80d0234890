import Catoshi.CoinsStack
import Catoshi.RunTotals
import Catoshi.SpentIndex
import Catoshi.VerifyDB
import Catoshi.AddressQuery
import Catoshi.TimestampIndex
import Catoshi.MempoolHashes
import Catoshi.PruneFiles
import Catoshi.BestChain
import Catoshi.RestartIndex
import Catoshi.AddrManRuns
import Catoshi.BlockDownload
import Catoshi.CheckQueue
import Catoshi.OrphanPool
import Catoshi.SchedulerClient
import Catoshi.KeyPool
import Catoshi.WalletOrder
import Catoshi.AddressGroupings
import Catoshi.MultiSig
import Catoshi.IntegerCodings
import Catoshi.PartialMerkle
import Catoshi.Retarget
import Catoshi.Finality
import Catoshi.HeadersSync
import Catoshi.PushAll
import Catoshi.ScriptNumbers
import Catoshi.NetMessages
import Catoshi.MempoolOrder
