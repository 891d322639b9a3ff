import RoninOS.Mem.PmmRuns
import RoninOS.Mem.IdentityRange
import RoninOS.Mem.PmmComplete
import RoninOS.Mem.PagingRuns
import RoninOS.Kheap.HeapFailure
import RoninOS.Kheap.HeapBalance
import RoninOS.Kheap.HeapSizes
import RoninOS.Fs.Fat32Names
import RoninOS.Fs.Fat32Overrun
import RoninOS.Fs.StaleDescriptors
import RoninOS.Fs.VfsPaths
import RoninOS.Fs.VfsOpen
import RoninOS.Fs.RamfsStrings
import RoninOS.Fs.RamfsNames
import RoninOS.Fs.Fat32Map
import RoninOS.Fs.Fat32Buffers
import RoninOS.Fs.Fat32Damage
import RoninOS.Fs.Fat32Accounting
import RoninOS.Fs.Fat32Atomic
import RoninOS.Fs.InitrdFiles
import RoninOS.Fs.RamfsLeaks
import RoninOS.Fs.RamfsMap
import RoninOS.Fs.VfsChunks
import RoninOS.Fs.RamfsAppend
import RoninOS.Apps.AppFsTheorems
import RoninOS.Apps.NumberTheorems
import RoninOS.Drivers.AtaPioTheorems
import RoninOS.Drivers.AtaDetection
import RoninOS.Input.KeyboardTheorems
import RoninOS.Input.HeldKeys
import RoninOS.Terminal.Scrollback
import RoninOS.Console.FbRuns
import RoninOS.Boot.InfoLoops
import RoninOS.Sched.RoundRobin
import RoninOS.Shell.CommandsTheorems
import RoninOS.Shell.ShellHistory
import RoninOS.Sched.Bootstrap
import RoninOS.Sched.Fairness
import RoninOS.Shell.Typing
import RoninOS.Fs.Fat32Remount
import RoninOS.Shell.FileSessionTheorems
import RoninOS.Apps.HeapTest
