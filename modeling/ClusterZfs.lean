import ClusterZfs.Aggre.Alloc
import ClusterZfs.Aggre.States
import ClusterZfs.Aggre.Balance
import ClusterZfs.Aggre.Live
import ClusterZfs.Aggre.WriteDone
import ClusterZfs.Mirror.Failover
import ClusterZfs.Avl.SortedSet
import ClusterZfs.DeadList.Accounting
import ClusterZfs.Rlock.Runs
import ClusterZfs.Pgr.Failed
import ClusterZfs.Pgr.Granted
import ClusterZfs.Pgr.Exclusive
import ClusterZfs.Aggre.Geometry
import ClusterZfs.Compress.Zle
import ClusterZfs.Pgr.PlistSafe
import ClusterZfs.SegCache.Images
import ClusterZfs.SegCache.Cleared
import ClusterZfs.SegCache.Content
import ClusterZfs.Htbt.Runs
import ClusterZfs.Htbt.Masters
import ClusterZfs.Partner.Runs
import ClusterZfs.Raidz.Polynomial
import ClusterZfs.Metaslab.Conservation
import ClusterZfs.Metaslab.Lookup
import ClusterZfs.Raidz.Equivalence
import ClusterZfs.Sync.Majority
import ClusterZfs.Task.Slots
