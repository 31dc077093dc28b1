import WorkflowPlatform.Dispatch
import WorkflowPlatform.Interpreter

/-!
# The worker loop

`runOnce` is one cycle of a worker in one transaction: claim an execution, look
up its run and step, resolve the step's inputs, dispatch it, and complete it or
fail its run. An error thrown inside either rolls everything back, if it may be
retried, or fails the run in the same transaction.
-/
namespace WorkflowPlatform

def LOG_EVENT_RUN_ONCE_TRANSIENT_FAILURE : String := "apps.worker.run_once.transient_failure"

def LOG_EVENT_RUN_ONCE_TERMINAL_FAILURE : String := "apps.worker.run_once.terminal_failure"

def STDERR_LOG_EXCERPT_LENGTH : ℕ := 500

structure WorkerDeps where
  agentBaseUrl : String
  workerId : String
  leaseSeconds : ℕ
  invokeTimeoutMs : ℕ
  agentAuthToken : Option String := none

def failRun (runId executionId : ℕ) : Tx Unit := do
  WorkflowRunsRepo.markFailed runId
  ExecutionsRepo.markFailed executionId
  ExecutionsRepo.failRemainingForRun runId

/-- `stderr.slice(0, STDERR_LOG_EXCERPT_LENGTH)`, which only strings and arrays
have. -/
def stderrExcerpt : Option ParsedJson → Except Failure ParsedJson
  | some (.str s) => .ok (.str (s.take STDERR_LOG_EXCERPT_LENGTH))
  | some (.arr items) => .ok (.arr (items.take STDERR_LOG_EXCERPT_LENGTH))
  | _ => .error .typeError

/-- What is logged about a failure the agent reports. -/
def reportedFailure (executionId : ℕ) (nodeId : String) (response : ParsedJson) :
    Except Failure LogRecord := do
  let field (name : String) := (response.property name).join
  let excerpt ← stderrExcerpt (field "stderr")
  .ok { executionId, nodeId, status := field "status", exitCode := field "exitCode"
        stderrExcerpt := excerpt }

/-- The body of the inner `try`. -/
def processExecution (deps : WorkerDeps) (runId : ℕ) (run : WorkflowRun) (executionId : ℕ)
    (execution : Execution) : Tx Bool := do
  let node ← Script.lift (findRunStepNode run execution.step)
  let resolvedInput ← resolveStepReads runId run node
  let dispatchResult ← dispatchStep deps.agentBaseUrl
    { executionId, step := node, resolvedInput, timeoutMs := deps.invokeTimeoutMs }
    deps.agentAuthToken
  match dispatchResult with
  | .failed response =>
      let record ← Script.lift (reportedFailure executionId node.id response)
      query (.log .error record LOG_EVENT_RUN_ONCE_TERMINAL_FAILURE)
      failRun runId executionId
      pure true
  | .ok output =>
      completeStep runId run executionId node.id output
      pure true

/-- The inner `catch`. -/
def handleFailure (runId executionId : ℕ) (err : Failure) : Tx Bool :=
  if err.isRetryable then do
    query (.log .warn { executionId, err } LOG_EVENT_RUN_ONCE_TRANSIENT_FAILURE)
    Script.throw err
  else do
    query (.log .error { executionId, err } LOG_EVENT_RUN_ONCE_TERMINAL_FAILURE)
    failRun runId executionId
    pure true

/-- The callback `runOnce` gives to `withTransaction`. -/
def runOnceBody (deps : WorkerDeps) : Tx Bool := do
  match ← ExecutionsRepo.claim deps.workerId deps.leaseSeconds with
  | none => pure false
  | some (executionId, execution) => match execution.runId with
    | none => Script.throw (.retryable .WORKER_EXECUTION_MISSING_RUN
        [("executionId", ErrorContext.ofNat executionId)])
    | some runId => match ← WorkflowRunsRepo.findById runId with
      | none => Script.throw (.fatal .WORKER_EXECUTION_MISSING_RUN
          [("executionId", ErrorContext.ofNat executionId), ("runId", ErrorContext.ofNat runId)])
      | some run =>
          (processExecution deps runId run executionId execution).tryCatch
            (handleFailure runId executionId)

/-- One cycle of a worker that nobody interferes with: what it returns and the
state it leaves committed. An error means that the cycle did no work. -/
def runOnce (deps : WorkerDeps) (c : Choice) (locked : Row → Bool) (db : Db) : Bool × Db :=
  match platform.transact c locked (runOnceBody deps) db with
  | (.ok didWork, db') => (didWork, db')
  | (.error _, db') => (false, db')

end WorkflowPlatform
