import OperatingSystems.Wfs.Failures
import OperatingSystems.Wfs.NamespaceRuns
import OperatingSystems.Wfs.FsckInvisible
import OperatingSystems.Wfs.Listing
import OperatingSystems.Proxy.QueueRuns
import OperatingSystems.Proxy.Corruption
import OperatingSystems.Proxy.Wakeups
import OperatingSystems.Proxy.Owners
import OperatingSystems.Proxy.Relay
import OperatingSystems.Proxy.Listener
import OperatingSystems.Sched.Priority
import OperatingSystems.Sched.Alternation
import OperatingSystems.Sched.TimedSleep
import OperatingSystems.Sched.UserMode
import OperatingSystems.Sched.SchedState
import OperatingSystems.Sched.Countdown
import OperatingSystems.Vm.Records
import OperatingSystems.Vm.Growth
import OperatingSystems.Vm.SharedFile
import OperatingSystems.Wfs.Overlay
import OperatingSystems.Wfs.Compaction
import OperatingSystems.Wfs.Creation
import OperatingSystems.Wfs.Removal
import OperatingSystems.Wfs.PathBuffers
import OperatingSystems.Shell.JobRuns
import OperatingSystems.Man.Spans
import OperatingSystems.Man.Kinds
import OperatingSystems.Lastcat.Tracking
import OperatingSystems.Shell.Remembered
import OperatingSystems.Vm.StaysUp
import OperatingSystems.Log.Reservation
import OperatingSystems.Shell.Pipelines
import OperatingSystems.Files.Pipe
import OperatingSystems.Sched.Family
import OperatingSystems.Lib.RecencyList
import OperatingSystems.Lib.RefCounts
import OperatingSystems.Log.CachedLog
