import Walgit.LargeFileSafety
import Walgit.UpstreamFollow
import Walgit.ImportSafety
import Walgit.CommitDiff
import Walgit.HistoryWalk
import Walgit.Publication
import Walgit.BlockReads
import Walgit.SettingsReach
import Walgit.TaskPackets
import Walgit.LoginRedirects
import Walgit.UploadRaces
import Walgit.FilteredFetch
import Walgit.ResponseSplice
import Walgit.MissingRosters
import Walgit.ForgeSearch
import Walgit.CursorOrder
import Walgit.PolicyIdentity
import Walgit.CacheBudget
import Walgit.SegmentClasses
import Walgit.SegmentResume
import Walgit.LogReplay
import Walgit.RepoIds
import Walgit.Compose
import Walgit.LsRefs
import Walgit.FetchArgs
import Walgit.ReportFrames
import Walgit.Overlaps
import Walgit.Pruning
import Walgit.CasUpdate
import Walgit.ForgeLegality
import Walgit.Evictions
import Walgit.Minting
import Walgit.TimelineIds
import Walgit.EntryChecks
import Walgit.StaticPacks
import Walgit.AdvertCache
import Walgit.Reservations
import Walgit.Owners
import Walgit.Successors
import Walgit.ProtectedRefs
import Walgit.DistinctNames
import Walgit.Replacement
import Walgit.ReadinessSafety
import Walgit.Connectivity
import Walgit.Reception
import Walgit.LeaseSafety
import Walgit.ControlEdits
import Walgit.Batching
import Walgit.S3Put
