import VidsContent.Lib.Transition
import VidsContent.Lib.OnesComplement
import VidsContent.SmallString.Copy
import VidsContent.SmallString.Grow
import VidsContent.FileHole.RoundTrip
import VidsContent.CopyFileRange.CopyRange
import VidsContent.CpuIdleGovernor.Arguments
import VidsContent.FlexibleArray.Growth
import VidsContent.Signalfd.Signals
import VidsContent.TeeSplice.TeePipes
import VidsContent.TeeSplice.Completion
import VidsContent.TeeSplice.LlmTeeFailure
import VidsContent.TeeSplice.LlmSpliceResidue
import VidsContent.Vmsplice.Recv
import VidsContent.Traceroute.Trace
import VidsContent.Traceroute.InternetChecksum
import VidsContent.Inotify.Program
import VidsContent.MaxInstruction.Max
import VidsContent.HugePages.Writes
import VidsContent.ReadvWritev.NgxWritevChain
import VidsContent.ReadvWritev.AprSession
import VidsContent.ReadvWritev.Servers
import VidsContent.ForkVsVfork.Waits
