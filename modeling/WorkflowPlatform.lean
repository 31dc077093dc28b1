import WorkflowPlatform.DeadlockFreedom
import WorkflowPlatform.LoopProgress
import WorkflowPlatform.RunProgress
import WorkflowPlatform.ScheduleIndependence
import WorkflowPlatform.Compile
import WorkflowPlatform.SessionRefinement
import WorkflowPlatform.RequestStability
import WorkflowPlatform.FirstCompletion
import WorkflowPlatform.SleepDeadlock
import WorkflowPlatform.LeaseExclusion
import WorkflowPlatform.SleepWaits
import WorkflowPlatform.SingleFlight
import WorkflowPlatform.AccessWindow
import WorkflowPlatform.AccessRecency
import WorkflowPlatform.OutputFidelity
import WorkflowPlatform.RegistryStore
import WorkflowPlatform.RegistryHistory
import WorkflowPlatform.DocumentValidation
import WorkflowPlatform.CapacityEviction
import WorkflowPlatform.AccessFold
import WorkflowPlatform.Hysteresis
import WorkflowPlatform.PositionalSlots
import WorkflowPlatform.RunResult
import WorkflowPlatform.ClientTransaction
import WorkflowPlatform.RestrictedYaml
import WorkflowPlatform.RegistrationWellFormed
import WorkflowPlatform.StateEviction
import WorkflowPlatform.AgentConfig
import WorkflowPlatform.ReferenceLanguages
import WorkflowPlatform.WaitKeys
