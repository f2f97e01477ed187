import MilvusOnprem.GuardedRuns
import MilvusOnprem.JsonText
import MilvusOnprem.OrderedMap
import MilvusOnprem.EtcdClient
import MilvusOnprem.ClusterEnv
import MilvusOnprem.Joining
import MilvusOnprem.RemoveNode
import MilvusOnprem.Draining
import MilvusOnprem.Cluster
import MilvusOnprem.UniqueNames
import MilvusOnprem.Membership
import MilvusOnprem.LoneJoin
import MilvusOnprem.LeaderElection
import MilvusOnprem.LeaderLease
import MilvusOnprem.LeaderWait
import MilvusOnprem.JobStates
import MilvusOnprem.TopologyWatcher
import MilvusOnprem.EnvFile
import MilvusOnprem.OrderedPeers
import MilvusOnprem.TokenRotation
import MilvusOnprem.JobCoverage
import MilvusOnprem.MigratePulsar
import MilvusOnprem.RemovalResume
import MilvusOnprem.MinioRender
import MilvusOnprem.PoolAgreement
import MilvusOnprem.PoolOrder
import MilvusOnprem.ConcurrentUpdates
import MilvusOnprem.EnvSync
import MilvusOnprem.ParallelLists
import MilvusOnprem.EnvConvergence
import MilvusOnprem.MigrateSteps
import MilvusOnprem.RemovalGuards
import MilvusOnprem.RollingRecreate
import MilvusOnprem.ImageTag
import MilvusOnprem.JobExecution
import MilvusOnprem.JobPolling
import MilvusOnprem.UpgradeAnchor
import MilvusOnprem.StaleRender
import MilvusOnprem.RemovalSettle
import MilvusOnprem.SelfRegistration
import MilvusOnprem.VersionGuard
import MilvusOnprem.AutoMigrate
import MilvusOnprem.RotationLogs
import MilvusOnprem.TokenSecrecy
import MilvusOnprem.SharedSettings
import MilvusOnprem.ConcurrentJobs
import MilvusOnprem.JoinerSettings
import MilvusOnprem.SettingsAgreement
import MilvusOnprem.MirrorFold
import MilvusOnprem.WatcherLife
import MilvusOnprem.LocalWatchdog
import MilvusOnprem.MigrationTarget
import MilvusOnprem.PeerAlerts
import MilvusOnprem.PoolLookup
import MilvusOnprem.RestartCounts
import MilvusOnprem.LeaderFlag
import MilvusOnprem.CheckedSort
import MilvusOnprem.JobListing
import MilvusOnprem.MalformedJobs
import MilvusOnprem.DeadOwners
import MilvusOnprem.RecreateMinio
import MilvusOnprem.Assignments
import MilvusOnprem.EnvText
import MilvusOnprem.EnvEdits
import MilvusOnprem.EnvUpsert
import MilvusOnprem.ShellSource
import MilvusOnprem.ShellUpsert
import MilvusOnprem.EnvFormat
import MilvusOnprem.RotatedToken
import MilvusOnprem.ReadersAgree
import MilvusOnprem.IssuedEnv
import MilvusOnprem.PulsarDeploys
import MilvusOnprem.RoleDetect
import MilvusOnprem.PrefixRange
import MilvusOnprem.NextName
import MilvusOnprem.TokenGate
import MilvusOnprem.JoinLists
import MilvusOnprem.JoinerIp
import MilvusOnprem.DueRestarts
import MilvusOnprem.EndpointFailover
import MilvusOnprem.EditedSource
import MilvusOnprem.SyncedRole
import MilvusOnprem.MinioAliases
import MilvusOnprem.JobTexts
import MilvusOnprem.LeaderRedirect
import MilvusOnprem.ShellWords
import MilvusOnprem.FlagLoop
import MilvusOnprem.BackupCommands
import MilvusOnprem.EnvStore
import MilvusOnprem.WrittenEnv
import MilvusOnprem.InitialEnv
import MilvusOnprem.JoinedEnv
import MilvusOnprem.ClusterFiles
import MilvusOnprem.RenderedPeers
import MilvusOnprem.ShellWatchdog
