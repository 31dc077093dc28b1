import WorkflowPlatform.Repositories

/-!
# The interpreter of plain-step specifications

`submitRun` creates a run with one execution for each step, `resolveStepReads`
computes a claimed step's inputs from the request and the recorded outputs,
`completeStep` records an output, queues the steps that were waiting for it and
marks the run done with the last one, and `getRunResult` resolves the outputs of
a finished run.
-/
namespace WorkflowPlatform

structure BindingContext where
  input : JsonObject
  nodeOutputs : NodeOutputs

def kindNotSupported (kind : String) : Failure :=
  .fatal .ENGINE_BINDING_KIND_NOT_SUPPORTED [("kind", ErrorContext.ofString kind)]

def nodeOutputMissing (id output : String) : Failure :=
  .fatal .ENGINE_NODE_OUTPUT_MISSING
    [("id", ErrorContext.ofString id), ("output", ErrorContext.ofString output)]

/-- `output[binding.output]`, unless the output is missing. -/
def readOutput (value : JsValue) (id output : String) : Except Failure JsValue :=
  if value.truthy then
    match value.property output with
    | some v => .ok v
    | none => .error .typeError
  else .error (nodeOutputMissing id output)

def resolveBinding (binding : Binding) (ctx : BindingContext) : Except Failure JsValue :=
  match binding with
  | .literal value => .ok (.json value)
  | .compute .. => .error (kindNotSupported "compute")
  | .request param => .ok (JsValue.field ctx.input param)
  | .step id output => readOutput (ctx.nodeOutputs.get id) id output
  | .session _ => .error (kindNotSupported "session")
  | .static _ => .error (kindNotSupported "static")
  | .item => .error (kindNotSupported "item")
  | .itemResource .. => .error (kindNotSupported "itemResource")

/-- The entries of a binding map, resolved in order. -/
def resolveBindings (ctx : BindingContext) :
    List (String × Binding) → Except Failure (List (String × JsValue))
  | [] => .ok []
  | (key, binding) :: rest => do
      let value ← resolveBinding binding ctx
      let values ← resolveBindings ctx rest
      .ok ((key, value) :: values)

def unsupportedNodeKind (id kind : String) : Failure :=
  .fatal .ENGINE_UNSUPPORTED_NODE_KIND
    [("nodeId", ErrorContext.ofString id), ("kind", ErrorContext.ofString kind)]

def assertPlainNodes (seenIds : List String) : List Node → Except Failure (List Step)
  | [] => .ok []
  | .branch id .. :: _ => .error (unsupportedNodeKind id "branch")
  | .map id .. :: _ => .error (unsupportedNodeKind id "map")
  | .step step :: rest =>
      if step.id ∈ seenIds then
        .error (.fatal .ENGINE_DUPLICATE_NODE_ID [("nodeId", ErrorContext.ofString step.id)])
      else do
        let steps ← assertPlainNodes (step.id :: seenIds) rest
        .ok (step :: steps)

/-- The nodes of a specification, all of them plain steps with distinct ids. -/
def assertPlainSteps (spec : WorkflowSpec) : Except Failure (List Step) :=
  assertPlainNodes [] spec.steps

def findStepNode (steps : List Step) (nodeId : String) : Except Failure Step :=
  match steps.find? (·.id = nodeId) with
  | some step => .ok step
  | none => .error (.fatal .ENGINE_NODE_NOT_FOUND [("nodeId", ErrorContext.ofString nodeId)])

def enqueueSteps (runId : ℕ) (sessionId : String) : List Step → Tx Unit
  | [] => pure ()
  | step :: rest => do
      let _ ← ExecutionsRepo.enqueueForRun
        { sessionId, step := step.id, runId := some runId
          status := if computeStepDependencies step = [] then .queued else .blocked }
      enqueueSteps runId sessionId rest

def submitRun (spec : WorkflowSpec) (input : JsonObject) (sessionId : Option String) :
    Tx (ℕ × WorkflowRun) := do
  let steps ← Script.lift (assertPlainSteps spec)
  let (runId, run) ← WorkflowRunsRepo.create { sessionId, spec, input }
  if steps = [] then
    WorkflowRunsRepo.markDone runId
    pure (runId, { run with status := .done })
  else
    -- A run without a session gets a label of its own.
    enqueueSteps runId (sessionId.getD ("workflow-run:" ++ Nat.repr runId)) steps
    pure (runId, run)

def promoteIfReady (runId : ℕ) (completedIds : List String) (step : Step) : Tx Unit :=
  if step.id ∉ completedIds ∧ ∀ id ∈ computeStepDependencies step, id ∈ completedIds then
    ExecutionsRepo.promoteBlockedToQueued runId step.id
  else pure ()

def promoteSteps (runId : ℕ) (completedIds : List String) : List Step → Tx Unit
  | [] => pure ()
  | step :: rest => do
      promoteIfReady runId completedIds step
      promoteSteps runId completedIds rest

def promoteReadyNodes (runId : ℕ) (run : WorkflowRun) (completedIds : List String) : Tx Unit := do
  let steps ← Script.lift (assertPlainSteps run.spec)
  promoteSteps runId completedIds steps

/-- Look up the recorded outputs of some nodes and assign those there are. -/
def collectNodeOutputs (runId : ℕ) : List String → NodeOutputs → Tx NodeOutputs
  | [], nodeOutputs => pure nodeOutputs
  | id :: rest, nodeOutputs => do
      match ← RunNodeOutputsRepo.get runId id with
      | some output => collectNodeOutputs runId rest (nodeOutputs.assign id output)
      | none => collectNodeOutputs runId rest nodeOutputs

def resolveStepReads (runId : ℕ) (run : WorkflowRun) (node : Step) :
    Tx (List (String × JsValue)) := do
  let nodeOutputs ← collectNodeOutputs runId (computeStepDependencies node) {}
  Script.lift (resolveBindings { input := run.input, nodeOutputs } (node.reads.getD []))

def completeExecution (executionId : ℕ) (stepId : String) (output : ParsedObject) :
    Tx JsonObject := do
  let checkpoint ← CheckpointsRepo.insert executionId stepId output
  ExecutionsRepo.markDone executionId
  pure checkpoint

def completeStep (runId : ℕ) (run : WorkflowRun) (executionId : ℕ) (nodeId : String)
    (output : ParsedObject) : Tx Unit := do
  let _ ← WorkflowRunsRepo.lockForUpdate runId
  let _ ← completeExecution executionId nodeId output
  let _ ← RunNodeOutputsRepo.record runId nodeId output
  let completedIds ← RunNodeOutputsRepo.listCompletedNodeIds runId
  promoteReadyNodes runId run completedIds
  let steps ← Script.lift (assertPlainSteps run.spec)
  if ∀ step ∈ steps, step.id ∈ completedIds then
    WorkflowRunsRepo.markDone runId

def findRunStepNode (run : WorkflowRun) (nodeId : String) : Except Failure Step := do
  let steps ← assertPlainSteps run.spec
  findStepNode steps nodeId

/-- The status, and the outputs of a run that is done. -/
def getRunResult (runId : ℕ) :
    Tx (WorkflowRunStatus × Option (List (String × JsValue))) := do
  match ← WorkflowRunsRepo.findById runId with
  | none => Script.throw (.fatal .ENGINE_RUN_NOT_FOUND [("runId", ErrorContext.ofNat runId)])
  | some fresh =>
      if fresh.status ≠ .done then pure (fresh.status, none)
      else do
        let completedIds ← RunNodeOutputsRepo.listCompletedNodeIds runId
        let nodeOutputs ← collectNodeOutputs runId completedIds {}
        let outputs ← Script.lift
          (resolveBindings { input := fresh.input, nodeOutputs } (fresh.spec.outputs.getD []))
        pure (fresh.status, some outputs)

end WorkflowPlatform
