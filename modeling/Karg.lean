import Karg.TimerCorrectness
import Karg.RoundRobin
import Karg.ProcessTree
import Karg.Reaping
import Karg.IdleDispatch
import Karg.SemHistory
import Karg.HeapCoalescing
import Karg.PageConservation
import Karg.ElfImage
import Karg.WriteBuffer
import Karg.AddressSpaces
import Karg.TtyDelivery
import Karg.ContextRuns
import Karg.HeapExhaustion
import Karg.HeapUndo
import Karg.HeapSizes
import Karg.HeapAlignment
import Karg.PidAllocation
import Karg.Adoption
import Karg.Spawn
import Karg.Teardown
import Karg.StackResidue
import Karg.UserStores
import Karg.ListSequences
import Karg.PagePermissions
import Karg.MapBounds
import Karg.LogFlush
import Karg.FormatStrings
import Karg.LineCommit
import Karg.SleepDuration
import Karg.ArgBounds
import Karg.ArgBlock
import Karg.ElfUnaligned
import Karg.ReadyStack
import Karg.TimerRefinement
import Karg.ProcessIdentity
import Karg.HeapContents
import Karg.Terminals
import Karg.DeviceBinding
import Karg.EchoDisplay
import Karg.InitProcess
import Karg.Console
import Karg.Privilege
import Karg.KernelLog
import Karg.MemoryLoops
import Karg.TrapTranslation
