import Converge.Guarantees.WaitingResults
import Converge.Guarantees.Convergence
import Converge.Guarantees.TaskExclusion
import Converge.Guarantees.ChildRecreation
import Converge.Guarantees.IdleRoots
import Converge.Guarantees.TransientRetry
import Converge.Guarantees.TeardownReaction
import Converge.Guarantees.FlowCoverage
import Converge.Guarantees.Quarantine
import Converge.Guarantees.Operations
import Converge.Guarantees.Rollup
import Converge.Guarantees.FailureClass
import Converge.Guarantees.Deliveries
import Converge.Guarantees.Announcements
import Converge.Guarantees.ConfigMatch
import Converge.Guarantees.ValidSpecs
import Converge.Guarantees.ManifestFence
import Converge.Guarantees.ResyncPolicy
import Converge.Guarantees.InflightCap
import Converge.Guarantees.DepGraph
import Converge.Guarantees.StageCustody
import Converge.Guarantees.Attestation
import Converge.Guarantees.SyntheticFailures
import Converge.Guarantees.ManifestLattice
import Converge.Guarantees.Readiness
import Converge.Guarantees.StageSenders
import Converge.Guarantees.VersionLog
import Converge.Guarantees.DefaultConfigs
import Converge.Guarantees.ServedPairs
import Converge.Guarantees.StageChoice
import Converge.Guarantees.Conditions
import Converge.Guarantees.FailureCount
import Converge.Guarantees.OutcomeMask
import Converge.Guarantees.SchemaEdits
import Converge.Guarantees.BufferBound
import Converge.Guarantees.ConfigCalls
