import TsmVm.AgMobile
import TsmVm.AgentRegistry
import TsmVm.AppletAids
import TsmVm.BerLengths
import TsmVm.ByteHeaps
import TsmVm.BytecodeTables
import TsmVm.Complementing
import TsmVm.Concatenation
import TsmVm.ControlFlow
import TsmVm.Dispatch
import TsmVm.Environment
import TsmVm.Exhaustion
import TsmVm.Extraction
import TsmVm.FragmentLookup
import TsmVm.FrameReads
import TsmVm.GpEffects
import TsmVm.LibraryLoading
import TsmVm.ListLock
import TsmVm.PartialWrites
import TsmVm.PointerArrays
import TsmVm.QueuedCommands
import TsmVm.RejectedLines
import TsmVm.ReplyRoom
import TsmVm.ResponsePredicates
import TsmVm.SessionIsolation
import TsmVm.SkbAreas
import TsmVm.SkbQueues
import TsmVm.StoreData
import TsmVm.TimerBooks
import TsmVm.TimerHeapRuns
import TsmVm.Trimming
import TsmVm.Turns
import TsmVm.ZcVariables
