import Coreutils.AtIncrements
import Coreutils.Basenc
import Coreutils.BcCalls
import Coreutils.BcPowers
import Coreutils.BcRegisters
import Coreutils.BreBudget
import Coreutils.BreTotality
import Coreutils.CsplitPieces
import Coreutils.CutWhole
import Coreutils.DdRecords
import Coreutils.EdLateFailures
import Coreutils.EdOffsets
import Coreutils.EdSaved
import Coreutils.EdSearch
import Coreutils.EdVisits
import Coreutils.FactorOutput
import Coreutils.FindMatches
import Coreutils.GrepMatches
import Coreutils.IfdefMerge
import Coreutils.JoinFiles
import Coreutils.MakeDryRun
import Coreutils.PatchEffects
import Coreutils.PaxNames
import Coreutils.PaxTimes
import Coreutils.ScheduleStore
import Coreutils.SedEscapes
import Coreutils.SedOffsets
import Coreutils.SedQueue
import Coreutils.SedRanges
import Coreutils.SortMerge
import Coreutils.SplitPieces
import Coreutils.SplitRecords
import Coreutils.TacRecords
import Coreutils.TailFollow
import Coreutils.TrSqueeze
import Coreutils.TsortOrder
import Coreutils.UnifiedReverse
import Coreutils.UnifiedText
import Coreutils.UnifiedWidths
import Coreutils.UuRoundTrip
import Coreutils.XargsBatches
import Coreutils.XargsPlan
