import Ceph.BlueStore.BitmapAllocator
import Ceph.BlueStore.CollectionListComplete
import Ceph.BlueStore.ExtentAlgebra
import Ceph.BlueStore.ExtentShardKey
import Ceph.BlueStore.FreelistEnumerate
import Ceph.BlueStore.StupidPlacement
import Ceph.Cls.LockExclusion
import Ceph.Cls.RgwStats
import Ceph.Common.Denc
import Ceph.Common.Frag
import Ceph.Crush.Permutation
import Ceph.Crush.Selection
import Ceph.Crush.Straw2
import Ceph.ErasureCode.LrcSubset
import Ceph.Mds.CommandGate
import Ceph.Mon.ElectionGate
import Ceph.Mon.ElectionSafety
import Ceph.Mon.FailureFence
import Ceph.Osd.CleanTemps
import Ceph.Osd.CleanUpmaps
import Ceph.Osd.CollName
import Ceph.Osd.PGLog.CopyLog
import Ceph.Osd.PGLog.LastComplete
import Ceph.Osd.PGLog.MergeDups
import Ceph.Osd.PGLog.ReplicaView
import Ceph.Osd.PGLog.RollbackRun
import Ceph.Osd.PgMerge
import Ceph.Osd.PrimaryLog.InfoDescribes
import Ceph.Osd.PrimaryLog.SnapRead
import Ceph.Osd.PriorSet
import Ceph.Osd.ScrubDigest
import Ceph.Osd.ScrubFair
import Ceph.Osd.SnapMapperCalls
import Ceph.Osd.UpActing
import Ceph.Osdc.Striping
