import Catamorphic.Git.Publish
import Catamorphic.Git.NetworkSyncRuns
import Catamorphic.Runner.ChannelRuns
import Catamorphic.Runner.AttemptRuns
import Catamorphic.Sessions.SecretStream
import Catamorphic.Sessions.NativeAppends
import Catamorphic.Sessions.CommandsOnce
import Catamorphic.Sessions.Numbering
import Catamorphic.Sessions.MirrorRuns
import Catamorphic.Sessions.FeedRuns
import Catamorphic.Execution.JobLeases
import Catamorphic.Identity.DirectoryRuns
import Catamorphic.Execution.BoundaryAttempt
import Catamorphic.Execution.RunTreeRuns
import Catamorphic.Identity.FamilyRuns
import Catamorphic.Workers.MachineRuns
import Catamorphic.Execution.EnrollmentRuns
import Catamorphic.Workers.CapacityRuns
import Catamorphic.Workers.VolumeRuns
import Catamorphic.Identity.RoleRuns
import Catamorphic.Replicas.ClaimRuns
import Catamorphic.Git.GatewayPushes
import Catamorphic.Access.GrantRuns
import Catamorphic.Runtime.DispatcherRuns
import Catamorphic.Sandbox.PersonalRuns
import Catamorphic.Batch.ItemRuns
import Catamorphic.Execution.Enqueue
import Catamorphic.Execution.Retries
import Catamorphic.Execution.ParkedRuns
import Catamorphic.Sessions.SyncOutbox
import Catamorphic.Sessions.Attention
import Catamorphic.Sessions.OlderPages
import Catamorphic.Git.OriginCompare
import Catamorphic.Sessions.ContextHandoff
import Catamorphic.Sessions.SettledCopy
import Catamorphic.Sessions.TranscriptAgain
import Catamorphic.Sessions.SettledTurns
import Catamorphic.Runner.EnvFile
import Catamorphic.Sandbox.MergedPolicies
import Catamorphic.Sessions.DelegatedSettings
import Catamorphic.Runner.OutputPages
import Catamorphic.Access.RoleExpansion
import Catamorphic.Sessions.MetadataBounds
import Catamorphic.Runner.FollowedLines
import Catamorphic.Workers.DemandedMachines
import Catamorphic.Git.PublishedOnce
import Catamorphic.Git.RawTreeUpdates
import Catamorphic.Sandbox.Snapshot
import Catamorphic.Documents.KeptBytes
import Catamorphic.Triggers.Where
import Catamorphic.Runtime.SupervisorStdio
import Catamorphic.Models.Allowlist
import Catamorphic.Runner.FrameSplits
import Catamorphic.Parser.SchemaCheck
import Catamorphic.Git.ObjectCodecs
import Catamorphic.Execution.Retention
