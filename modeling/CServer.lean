import CServer.CloudDisk.FileCount
import CServer.CloudDisk.Ranking
import CServer.CloudDisk.ShareAtomicity
import CServer.CloudDisk.Authentication
import CServer.CloudDisk.CgiMain
import CServer.CloudDisk.Isolation
import CServer.CloudDisk.UploadSafety
import CServer.CloudDisk.Concurrency
import CServer.CloudDisk.Base64Reads
import CServer.Timers.ReentrantExpiry
import CServer.Timers.TimeWheelDeadline
import CServer.Des.DesRoundTrip
import CServer.Des.FileRoundTrip
import CServer.RbTree.RbTree1Runs
import CServer.RbTree.RbTree2Wrapping
import CServer.RbTree.RbTree3Runs
import CServer.RbtTimer.Passes
import CServer.Queues.Refusals
import CServer.Queues.LinkedQueue
import CServer.Memory.MmPool
import CServer.Memory.ReleasedOnce
import CServer.BTree.DeletionResult
import CServer.Ciphers.Xxtea
import CServer.ZkLock.Results
import CServer.ThreadPool.Release
import CServer.Reactor.Echo
import CServer.Reactor.Results
import CServer.Dns.Addresses
import CServer.Fuse.Sample
import CServer.ImServer.Malformed
import CServer.LuaChannels.Results
import CServer.P2p.Session
import CServer.P2p.Bounds
import CServer.PageCount.Runs
import CServer.PageCount.Module
import CServer.Kmp.OwnSearches
import CServer.Kmp.Cuts
import CServer.Ciphers.Encry
import CServer.Queues.MutexQueue
import CServer.Queues.Tickets
import CServer.Queues.CounterWrap
import CServer.Dns.Questions
import CServer.Reactor.Accesses
import CServer.Memory.Termination
import CServer.Memory.PointerLists
import CServer.LuaChannels.Waiting
import CServer.PageCount.Released
import CServer.Netmap.UdpEcho
import CServer.Netmap.IcmpEcho
import CServer.LuaArray.Refinement
import CServer.CgiStrings.StrReplace
import CServer.CgiStrings.Query
import CServer.CgiStrings.HmsetCommand
import CServer.CgiStrings.FileSuffix
import CServer.Queues.YpipeRuns
import CServer.Queues.BlockQueue
import CServer.Queues.SimpleQueueRuns
import CServer.Ciphers.AesModes
import CServer.ImServer.Client
import CServer.ImServer.ShortUrl
import CServer.Kcp.Session
import CServer.Kcp.Window
