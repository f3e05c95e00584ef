import Cloudberry.Dtm.SnapshotIsolation
import Cloudberry.Dtm.GxidRecovery
import Cloudberry.Dtm.AtomicCommit
import Cloudberry.Dtm.CommittedTest
import Cloudberry.Dtm.OldestXmin
import Cloudberry.Dtm.WaitGxids
import Cloudberry.AppendOnly.VisimapRefine
import Cloudberry.AppendOnly.BlockDirectoryInsert
import Cloudberry.Motion.Delivery
import Cloudberry.Proxy.Progress
import Cloudberry.Proxy.RouteDelivery
import Cloudberry.Udp.StatusQuery
import Cloudberry.Orca.QualifyingValues
import Cloudberry.Planner.Collocation
import Cloudberry.LegacyHash.JumpHash
import Cloudberry.Orca.DistributionSound
import Cloudberry.ResScheduler.Bookkeeping
import Cloudberry.ResScheduler.Waiting
import Cloudberry.ResScheduler.Load
import Cloudberry.Gdd.Degrees
import Cloudberry.Dtm.SetCommittedTree
import Cloudberry.AppendOnly.VisimapPersist
import Cloudberry.AppendOnly.BitmapTruncation
import Cloudberry.MemQuota.EagerFreeBound
import Cloudberry.ResGroup.MemoryLimit
import Cloudberry.AppendOnly.TemporaryRange
import Cloudberry.Pax.Zorder
import Cloudberry.Pax.StatisticsCombine
