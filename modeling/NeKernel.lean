import NeKernel.Lib.ByteStore
import NeKernel.Lib.Runs
import NeKernel.Scheduler.Slots
import NeKernel.NeKit.Crc32
import NeKernel.Heap.Blocks
import NeKernel.HALKit.PhysicalMemory
import NeKernel.Lib.BitMask
import NeKernel.HALKit.KernelTables
import NeKernel.HALKit.LargePages
import NeKernel.FS.BootNode
import NeKernel.FS.Regions
import NeKernel.Tools.MkfsHefs
import NeKernel.FS.Replies
import NeKernel.FS.NeFSCounters
import NeKernel.FS.NeFSForks
import NeKernel.FS.NeFSSectors
import NeKernel.Scheduler.Faults
import NeKernel.Scheduler.BinaryMutex
import NeKernel.ArchKit.KernelCalls
import NeKernel.HALKit.HalKernelMain
import NeKernel.HALKit.Storage
import NeKernel.KernelKit.ImageRollback
import NeKernel.FS.FilesKept
import NeKernel.FS.FileContents
import NeKernel.Swap.DiskSwap
import NeKernel.Scheduler.Indices
import NeKernel.Scheduler.SpawnContract
import NeKernel.Scheduler.Counter
import NeKernel.KernelKit.CreateProcess
import NeKernel.Scheduler.ProcessTimes
import NeKernel.Scheduler.HardwareThreads
import NeKernel.Scheduler.ThreadLocalStorage
import NeKernel.NeKit.Crc32Bitwise
import NeKernel.LibSystem.System
import NeKernel.BootKit.BootSupport
import NeKernel.HALKit.FrameFrees
import NeKernel.KernelKit.PE32Symbols
import NeKernel.KernelKit.SectionLoads
import NeKernel.KernelKit.ImageFrames
import NeKernel.NeKit.AsciiUtils
import NeKernel.BootKit.StringCompare
import NeKernel.NetworkKit.IPCMessage
import NeKernel.DmaKit.DmaPool
import NeKernel.HALKit.AhciTransfer
import NeKernel.HALKit.AhciPorts
import NeKernel.KernelKit.DriveMgr
import NeKernel.BootKit.BootFileReader
import NeKernel.BootKit.BootThread
import NeKernel.Tools.MkfsOptions
import NeKernel.Tools.MkfsRegions
import NeKernel.FS.NeFSReturns
import NeKernel.FS.BalanceFrame
import NeKernel.FS.DirectoryCount
import NeKernel.FS.FileCursor
import NeKernel.FS.ErrorCode
import NeKernel.KernelKit.IFS
import NeKernel.FS.NeFSEnds
import NeKernel.FS.NeFSNames
import NeKernel.ArchKit.SystemCalls
import NeKernel.NetworkKit.IPAddress
import NeKernel.HALKit.PCIDevice
import NeKernel.HALKit.ACPIFactoryInterface
import NeKernel.HALKit.HalApplicationProcessor
import NeKernel.FS.PathSplit
import NeKernel.LibMsg.Server
import NeKernel.LibThread.Thread
import NeKernel.NeKit.KString
import NeKernel.NeKit.Json
import NeKernel.NeKit.ToString
import NeKernel.KernelKit.DebugOutput
import NeKernel.NetworkKit.RawIPAddress
import NeKernel.ArchKit.SystemCallPath
import NeKernel.HALKit.TaskSwitch
import NeKernel.Tools.ChkHefs
import NeKernel.KernelKit.DriveProbe
import NeKernel.Tools.DiskImage
import NeKernel.HALKit.PioDrive
import NeKernel.HALKit.HALSystemCalls
