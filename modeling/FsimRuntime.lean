import FsimRuntime.ProjectedRuns
import FsimRuntime.KernelPoolRuns
import FsimRuntime.WorkQueueRuns
import FsimRuntime.CoverageFile
import FsimRuntime.CoverageMerge
import FsimRuntime.SvaVerdicts
import FsimRuntime.FstSessions
import FsimRuntime.SemaphoreRuns
import FsimRuntime.MailboxRuns
import FsimRuntime.UpdateCommitOutcome
import FsimRuntime.InlineSimulation
import FsimRuntime.RootExports
import FsimRuntime.ConstraintSoundness
import FsimRuntime.RandcCycles
import FsimRuntime.SampledHistories
import FsimRuntime.VhdlInteger
import FsimRuntime.SchedulerRevision
import FsimRuntime.SchedulerHandles
import FsimRuntime.SimirPartSelect
import FsimRuntime.GlobMatch
import FsimRuntime.ParallelFor
import FsimRuntime.PackedRuns
import FsimRuntime.VhdlLiteral
import FsimRuntime.ForkTree
