import Yfs.Trace
import Yfs.StdMap
import Yfs.StdString
import Yfs.Prog
import Yfs.TwoPhase
import Yfs.ExtentServer
import Yfs.ExtentAccess
import Yfs.ExtentKeys
import Yfs.YfsClient
import Yfs.Serialise
import Yfs.FsErrors
import Yfs.Directory
import Yfs.DirectoryRuns
import Yfs.Rpcc
import Yfs.Rpcs
import Yfs.RpcSystem
import Yfs.RpcAtMostOnce
import Yfs.RpcAcks
import Yfs.RpcReplies
import Yfs.LockServer
import Yfs.ExtentSecrecy
import Yfs.ExtentGroups
import Yfs.Fuse
import Yfs.FuseAccess
import Yfs.FuseResize
import Yfs.Namespace
import Yfs.NetworkOrder
import Yfs.OrderedMap
import Yfs.Marshall
import Yfs.WireFormat
import Yfs.Connection
import Yfs.Framing
import Yfs.LockOrder
import Yfs.Deadlock
import Yfs.RpcScan
import Yfs.ArrayFile
import Yfs.FileContents
import Yfs.ExtentCalls
import Yfs.CreateUnlink
import Yfs.DirectoryNames
import Yfs.FuseSetattr
import Yfs.ThrPool
import Yfs.DispatchPool
import Yfs.ReceiveBuffer
import Yfs.ConnectionSenders
import Yfs.XidRepWindow
import Yfs.DecodeBounds
import Yfs.PollMgr
import Yfs.RpcSending
import Yfs.ConnectionRefs
import Yfs.PoolShutdown
import Yfs.Timespec
import Yfs.CallRetry
import Yfs.SelectAio
import Yfs.CallbackRemoval
import Yfs.MarshallAppends
import Yfs.Records
import Yfs.FuseReaddir
import Yfs.RealTimeOrder
import Yfs.ClusterLocks
import Yfs.ClusterProgress
import Yfs.ClusterHistory
import Yfs.FileSystem
import Yfs.FileSystemCalls
import Yfs.FileSystemRefinement
import Yfs.SharedFileSystem
import Yfs.AtomicCalls
import Yfs.RpcRefinement
import Yfs.RpcProgress
import Yfs.ExtentRpc
import Yfs.CriticalSections
import Yfs.WaitingHandlers
import Yfs.LockRpc
import Yfs.SequentialClients
import Yfs.Installation
import Yfs.OneFileSystem
import Yfs.Wires
import Yfs.WiredInstallation
import Yfs.Coherence
