import WorkflowPlatform.Statements

/-!
# The repositories

One method per query. A method throws its own error where a row that must be
there is missing, and re-selects where an insert met an existing row.
-/
namespace WorkflowPlatform

namespace ExecutionsRepo

def claim (workerId : String) (leaseSeconds : ℕ) : Tx (Option (ℕ × Execution)) :=
  query (.claimExecution workerId leaseSeconds)

def markDone (id : ℕ) : Tx Unit := query (.markExecutionDone id)

def markFailed (id : ℕ) : Tx Unit := query (.markExecutionFailed id)

/-- The rows of the scan, one after another. -/
def failEach (runId : ℕ) : List ℕ → Tx Unit
  | [] => pure ()
  | id :: rest => do
      query (.failIfRemaining runId id)
      failEach runId rest

def failRemainingForRun (runId : ℕ) : Tx Unit := do
  let ids ← query (.scanRemaining runId)
  failEach runId ids

def promoteBlockedToQueued (runId : ℕ) (nodeId : String) : Tx Unit :=
  query (.promoteBlockedToQueued runId nodeId)

def enqueueForRun (e : Execution) : Tx (ℕ × Execution) := do
  match ← query (.enqueueForRun e) with
  | some row => pure row
  | none => Script.throw (.fatal .CORE_ENQUEUE_NO_ROW_RETURNED
      [("runId", match e.runId with
        | some r => ErrorContext.ofNat r
        | none => .value (.json .null)),
       ("nodeId", ErrorContext.ofString e.step)])

end ExecutionsRepo

namespace WorkflowRunsRepo

def create (run : WorkflowRun) : Tx (ℕ × WorkflowRun) := do
  match ← query (.insertRun run) with
  | some row => pure row
  | none => Script.throw (.fatal .CORE_WORKFLOW_RUN_NO_ROW_RETURNED
      [("sessionId", match run.sessionId with
        | some s => ErrorContext.ofString s
        | none => .value .undefined)])

def findById (id : ℕ) : Tx (Option WorkflowRun) := query (.findRunById id)

def markDone (id : ℕ) : Tx Unit := query (.markRunDone id)

def markFailed (id : ℕ) : Tx Unit := query (.markRunFailed id)

def lockForUpdate (id : ℕ) : Tx WorkflowRun := do
  match ← query (.lockRunForUpdate id) with
  | some run => pure run
  | none => Script.throw (.fatal .CORE_WORKFLOW_RUN_NOT_FOUND [("runId", ErrorContext.ofNat id)])

end WorkflowRunsRepo

namespace CheckpointsRepo

def findByExecutionAndStep (executionId : ℕ) (stepId : String) : Tx (Option JsonObject) :=
  query (.findCheckpoint executionId stepId)

/-- On a conflict the checkpoint that is already there. -/
def insert (executionId : ℕ) (stepId : String) (output : ParsedObject) : Tx JsonObject := do
  match ← query (.insertCheckpoint executionId stepId output) with
  | some inserted => pure inserted
  | none => match ← findByExecutionAndStep executionId stepId with
    | some existing => pure existing
    | none => Script.throw (.fatal .CORE_CHECKPOINT_CONFLICT_NOT_FOUND
        [("executionId", ErrorContext.ofNat executionId),
         ("stepId", ErrorContext.ofString stepId)])

end CheckpointsRepo

namespace RunNodeOutputsRepo

def get (runId : ℕ) (nodeId : String) : Tx (Option JsonObject) :=
  query (.findRunNodeOutput runId nodeId)

/-- On a conflict the output that is already there. -/
def record (runId : ℕ) (nodeId : String) (output : ParsedObject) : Tx JsonObject := do
  match ← query (.insertRunNodeOutput runId nodeId output) with
  | some inserted => pure inserted
  | none => match ← get runId nodeId with
    | some existing => pure existing
    | none => Script.throw (.fatal .CORE_RUN_NODE_OUTPUT_NO_ROW_RETURNED
        [("runId", ErrorContext.ofNat runId), ("nodeId", ErrorContext.ofString nodeId)])

def listCompletedNodeIds (runId : ℕ) : Tx (List String) := query (.listCompletedNodeIds runId)

end RunNodeOutputsRepo
end WorkflowPlatform
