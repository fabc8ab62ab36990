import Rtorrent.LockfileExclusion
import Rtorrent.ViewRuns
import Rtorrent.ViewFilterEvents
import Rtorrent.ViewStartedStopped
import Rtorrent.SchedulerLimit
import Rtorrent.ObjectStorageKeys
import Rtorrent.XmlRpcMulticall
import Rtorrent.JsonRpcBatch
import Rtorrent.RpcTrust
import Rtorrent.OptionFile
import Rtorrent.SessionStoreFaults
import Rtorrent.SessionRemoval
import Rtorrent.MulticallDispatch
import Rtorrent.ScgiHeaderEntries
import Rtorrent.WaitpidQueue
import Rtorrent.RpcTextPointers
import Rtorrent.FunctionArguments
import Rtorrent.ExecArguments
import Rtorrent.SaveRequestMerging
import Rtorrent.TrackerRelease
import Rtorrent.DownloadFactory
import Rtorrent.Ipv4Ranges
import Rtorrent.RpcListText
import Rtorrent.ValueConversion
import Rtorrent.ScheduleTimes
import Rtorrent.ItemRecurrence
import Rtorrent.ViewPartition
import Rtorrent.ViewOperations
import Rtorrent.GeneratedCommands
import Rtorrent.CompareCommands
import Rtorrent.MathCommands
import Rtorrent.HashingQueue
import Rtorrent.MethodRedefinition
import Rtorrent.ThrottleCommands
import Rtorrent.StringSplitting
import Rtorrent.StringSlices
import Rtorrent.StringPadding
import Rtorrent.FrameShares
import Rtorrent.InputRuns
import Rtorrent.PathCompletion
import Rtorrent.ViewFocus
import Rtorrent.Base64Validity
import Rtorrent.RangeMerging
import Rtorrent.ScgiListener
import Rtorrent.ScgiDeflate
import Rtorrent.OptionTokens
import Rtorrent.SessionSection
import Rtorrent.LuaRoundTrip
import Rtorrent.WatchHeap
import Rtorrent.FocusRange
