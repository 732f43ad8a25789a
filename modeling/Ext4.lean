import Ext4.Sidecar.CommitOrder
import Ext4.Alloc.Exclusive
import Ext4.Volume.Replacing
import Ext4.Sidecar.Durability
import Ext4.Sidecar.TurnPassed
import Ext4.Alloc.Release
import Ext4.Volume.DirectSpace
import Ext4.Resize.Partition
import Ext4.Resize.GrowSafety
import Ext4.Volume.FileWrites
import Ext4.Dispatch.Workers
import Ext4.Dispatch.Snapshots
import Ext4.Sidecar.Restart
import Ext4.Volume.BlockNumbers
import Ext4.Volume.NameRoundTrip
import Ext4.Volume.ExtentSafety
import Ext4.Volume.PathResolution
import Ext4.Volume.SymlinkTarget
import Ext4.Volume.Geometry
import Ext4.Volume.Tiling
import Ext4.Volume.DirBlocks
import Ext4.Volume.SparseSuper
import Ext4.Volume.ReadContract
