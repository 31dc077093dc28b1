import WorkflowPlatform.StepReads
import WorkflowPlatform.Failures

/-!
# One cycle on its own

`cycleOutcome` says in one piece what `runOnce` comes to: from the tables, the
claim's candidate and the agent's answer it reads off whether the cycle leaves
everything as it was, completes the claimed execution, or fails its run.
`runOnce_eq` goes through the statements once; everything said about a single
cycle follows from it.
-/
namespace WorkflowPlatform

/-- The writes of `claim_execution`. -/
def claimWrites (deps : WorkerDeps) (now id : ℕ) : List Write :=
  [.satisfyDueWaits id now, .claim id deps.workerId (now + 1000 * deps.leaseSeconds)]

/-- The rows as the cycle sees them after its claim. -/
def Db.claimedBy (db : Db) (deps : WorkerDeps) (now id : ℕ) : Db :=
  platform.view db (claimWrites deps now id)

/-- The reads of a step, resolved against the recorded outputs. -/
def stepInput (db : Db) (runId : ℕ) (run : WorkflowRun) (node : Step) :
    Except Failure (List (String × JsValue)) :=
  resolveBindings
    { input := run.input
      nodeOutputs := gather (fun id => (db.runNodeOutputs runId).lookup id)
        (computeStepDependencies node) {} }
    (node.reads.getD [])

/-- The step of an execution and the request that is sent for it. -/
def stepRequest (deps : WorkerDeps) (db : Db) (runId : ℕ) (run : WorkflowRun) (id : ℕ)
    (e : Execution) : Except Failure (Step × InvokeRequest) := do
  let node ← findRunStepNode run e.step
  let resolvedInput ← stepInput db runId run node
  let request ← buildInvokeRequest
    { executionId := id, step := node, resolvedInput, timeoutMs := deps.invokeTimeoutMs }
  .ok (node, request)

/-- What the answer to a request means. -/
def answerResult (deps : WorkerDeps) (answer : FetchOutcome) : Except Failure DispatchResult :=
  readResponse (deps.agentBaseUrl ++ AGENT_INVOKE_PATH) answer >>= readDispatch

/-- What a claimed execution comes to, up to its result or its error. -/
def stepAnswer (deps : WorkerDeps) (db : Db) (answer : FetchOutcome) (runId : ℕ)
    (run : WorkflowRun) (id : ℕ) (e : Execution) : Except Failure (Step × DispatchResult) := do
  let (node, _) ← stepRequest deps db runId run id e
  let result ← answerResult deps answer
  .ok (node, result)

inductive CycleOutcome where
  | untouched
  | completed (run : WorkflowRun) (runId id : ℕ) (node : Step) (output : JsonObject)
  | runFailed (runId id : ℕ)

/-- What the worker makes of it. An output whose text is refused takes the
transaction with it. -/
def settledAs (run : WorkflowRun) (runId id : ℕ) :
    Except Failure (Step × DispatchResult) → CycleOutcome
  | .error err => if err.isRetryable then .untouched else .runFailed runId id
  | .ok (_, .failed _) => .runFailed runId id
  | .ok (node, .ok output) =>
      if ParsedJson.fieldsRefused output then .untouched
      else .completed run runId id node (ParsedJson.storedFields output)

/-- The execution a cycle claims, with its run. -/
def claimedRun (db : Db) (now : ℕ) (locked : Row → Bool) :
    Option (ℕ × Execution × ℕ × WorkflowRun) := do
  let id ← db.claimCandidate now locked
  let e ← db.executions.rows id
  let runId ← e.runId
  let run ← db.runs.rows runId
  pure (id, e, runId, run)

def cycleOutcome (deps : WorkerDeps) (c : Choice) (locked : Row → Bool) (db : Db) :
    CycleOutcome :=
  match claimedRun db c.now locked with
  | none => .untouched
  | some (id, e, runId, run) => settledAs run runId id (stepAnswer deps db c.answer runId run id e)

/-- The nodes of a specification the interpreter accepts. -/
def WorkflowSpec.plainSteps (spec : WorkflowSpec) : List Step :=
  match assertPlainSteps spec with
  | .ok steps => steps
  | .error _ => []

/-- The answer and the committed rows of a cycle. -/
def CycleOutcome.result (deps : WorkerDeps) (now : ℕ) (db : Db) : CycleOutcome → Bool × Db
  | .untouched => (false, db)
  | .completed run runId id node output =>
      (true, (db.claimedBy deps now id).completed run.spec.plainSteps runId id node.id output)
  | .runFailed runId id => (true, (db.claimedBy deps now id).runFailed runId id)

theorem plainSteps_of_answer {deps : WorkerDeps} {db : Db} {answer : FetchOutcome} {runId : ℕ}
    {run : WorkflowRun} {id : ℕ} {e : Execution} {p : Step × DispatchResult}
    (h : stepAnswer deps db answer runId run id e = .ok p) :
    assertPlainSteps run.spec = .ok run.spec.plainSteps := by
  cases hplain : assertPlainSteps run.spec with
  | ok steps => simp only [WorkflowSpec.plainSteps, hplain]
  | error err =>
      simp only [stepAnswer, stepRequest, findRunStepNode, hplain] at h
      cases h

section
variable {c : Choice} {locked : Row → Bool} {db V : Db} {ws : List Write} {α : Type}

theorem run_resolveStepReads (runId : ℕ) (run : WorkflowRun) (node : Step) :
    (resolveStepReads runId run node).run (platform.handle c locked db) ⟨ws, false⟩ =
      (stepInput (platform.view db ws) runId run node, ⟨ws, false⟩) := by
  rw [resolveStepReads, Script.run_bind, run_collectNodeOutputs]
  rfl

/-- What a cycle returns and commits, from how its script ended. -/
def cycleEnd (db : Db) : Except Failure Bool × Session Write → Bool × Db
  | (.ok didWork, s) => (didWork, if s.aborted then db else platform.view db s.writes)
  | (.error _, _) => (false, db)

theorem runOnce_eq_end (deps : WorkerDeps) (c : Choice) (locked : Row → Bool) (db : Db) :
    runOnce deps c locked db =
      cycleEnd db ((runOnceBody deps).run (platform.handle c locked db) {}) := by
  unfold runOnce Store.transact cycleEnd
  split <;> split <;> simp_all

theorem evaluatesFrom_run (c : Choice) (locked : Row → Bool) (db : Db) (ws : List Write)
    (m : Tx α) :
    EvaluatesFrom db (platform.view db ws) m
      (m.run (platform.handle c locked db) ⟨ws, false⟩).1
      (m.run (platform.handle c locked db) ⟨ws, false⟩).2 :=
  ⟨ws, rfl, platform.evaluates_run c locked db m _⟩

/-- An evaluation that ends with a value commits what it sees. -/
theorem cycleEnd_of_evaluates {didWork : Bool} {p : Except Failure Bool × Session Write}
    (h : EvaluatesFrom db V (.done (.ok didWork)) p.1 p.2) : cycleEnd db p = (didWork, V) := by
  obtain ⟨r, s⟩ := p
  obtain ⟨ws, rfl, rfl, rfl⟩ := h
  rfl

theorem cycleEnd_tryCatch {m : Tx Bool} {s : Session Write} {didWork : Bool}
    (h : EvaluatesFrom db V (.done (.ok didWork)) (m.run (platform.handle c locked db) s).1
      (m.run (platform.handle c locked db) s).2) (handler : Failure → Tx Bool) :
    cycleEnd db ((m.tryCatch handler).run (platform.handle c locked db) s) = (didWork, V) := by
  rw [Script.run_tryCatch, ← cycleEnd_of_evaluates h]
  generalize m.run (platform.handle c locked db) s = p at h ⊢
  obtain ⟨r, s'⟩ := p
  obtain ⟨ws, -, rfl, -⟩ := h
  rfl

theorem evaluatesFrom_failRun (c : Choice) (locked : Row → Bool) (db : Db) (ws : List Write)
    (runId id : ℕ) :
    EvaluatesFrom db ((platform.view db ws).runFailed runId id) (.done (.ok true))
      ((failRun runId id >>= fun _ => .done (.ok true)).run
        (platform.handle c locked db) ⟨ws, false⟩).1
      ((failRun runId id >>= fun _ => .done (.ok true)).run
        (platform.handle c locked db) ⟨ws, false⟩).2 :=
  (evaluatesFrom_run c locked db ws (failRun runId id >>= fun _ => .done (.ok true))).failRun

/-- A failure that may be retried drops the cycle; any other fails the run. -/
theorem cycleEnd_handleFailure (runId id : ℕ) (err : Failure) :
    cycleEnd db ((handleFailure runId id err).run (platform.handle c locked db) ⟨ws, false⟩) =
      if err.isRetryable then (false, db)
      else (true, (platform.view db ws).runFailed runId id) := by
  cases hr : err.isRetryable with
  | true =>
      simp only [handleFailure, hr, if_true]
      rw [run_query rfl]
      rfl
  | false =>
      simp only [handleFailure, hr, Bool.false_eq_true, if_false]
      rw [run_query rfl, List.append_nil]
      exact cycleEnd_of_evaluates (evaluatesFrom_failRun c locked db ws runId id)

/-- The part of `processExecution` up to the agent's answer. -/
def ask (deps : WorkerDeps) (runId : ℕ) (run : WorkflowRun) (id : ℕ) (e : Execution) :
    Tx (Step × DispatchResult) := do
  let node ← Script.lift (findRunStepNode run e.step)
  let resolvedInput ← resolveStepReads runId run node
  let result ← dispatchStep deps.agentBaseUrl
    { executionId := id, step := node, resolvedInput, timeoutMs := deps.invokeTimeoutMs }
    deps.agentAuthToken
  pure (node, result)

/-- The rest of it. -/
def settle (runId : ℕ) (run : WorkflowRun) (id : ℕ) (node : Step) : DispatchResult → Tx Bool
  | .failed response => do
      let record ← Script.lift (reportedFailure id node.id response)
      query (.log .error record LOG_EVENT_RUN_ONCE_TERMINAL_FAILURE)
      failRun runId id
      pure true
  | .ok output => do
      completeStep runId run id node.id output
      pure true

theorem processExecution_eq (deps : WorkerDeps) (runId : ℕ) (run : WorkflowRun) (id : ℕ)
    (e : Execution) :
    processExecution deps runId run id e =
      ask deps runId run id e >>= fun p => settle runId run id p.1 p.2 := by
  simp only [processExecution, ask, Script.bind_assoc, Script.pure_eq, Script.done_ok_bind]
  rfl

theorem run_dispatchStep (deps : WorkerDeps) (params : BuildInvokeRequestParams) :
    (dispatchStep deps.agentBaseUrl params deps.agentAuthToken).run
      (platform.handle c locked db) ⟨ws, false⟩ =
      (buildInvokeRequest params >>= fun _ => answerResult deps c.answer, ⟨ws, false⟩) := by
  refine Script.run_bind_const rfl fun request => Script.run_bind_const ?_ fun _ => rfl
  rw [invoke, postJson, run_query rfl, List.append_nil]
  rfl

theorem run_ask (deps : WorkerDeps) (runId : ℕ) (run : WorkflowRun) (id : ℕ) (e : Execution) :
    (ask deps runId run id e).run (platform.handle c locked db) ⟨ws, false⟩ =
      (stepAnswer deps (platform.view db ws) c.answer runId run id e, ⟨ws, false⟩) := by
  refine (Script.run_bind_const rfl fun node => Script.run_bind_const
    (run_resolveStepReads runId run node) fun input => Script.run_bind_const
    (run_dispatchStep deps _) fun result => rfl).trans ?_
  simp only [stepAnswer, stepRequest, bind_assoc]
  rfl

/-- A failure that the agent reports fails the run, whether or not it can be
logged. -/
theorem cycleEnd_settle_failed (runId : ℕ) (run : WorkflowRun) (id : ℕ) (node : Step)
    (response : ParsedJson) :
    cycleEnd db (((settle runId run id node (.failed response)).tryCatch
      (handleFailure runId id)).run (platform.handle c locked db) ⟨ws, false⟩) =
      (true, (platform.view db ws).runFailed runId id) := by
  have hraises := raises_reportedFailure id node.id response
  cases hrecord : reportedFailure id node.id response with
  | error err =>
      have herr : err.isRetryable = false := (hraises err hrecord).notRetryable
      simp only [settle, hrecord, Script.lift_error, Script.done_error_bind,
        Script.tryCatch_error, cycleEnd_handleFailure, herr, Bool.false_eq_true, if_false]
  | ok record =>
      refine cycleEnd_tryCatch ?_ _
      simp only [settle, hrecord, Script.lift_ok, Script.done_ok_bind, Script.pure_eq]
      rw [run_query rfl, List.append_nil]
      exact evaluatesFrom_failRun c locked db ws runId id

/-- A refused output takes its cycle with it: the handler's own statements are
refused too. -/
theorem cycleEnd_settle_ok {runId id : ℕ} {run : WorkflowRun} {node : Step} {output : ParsedObject}
    {steps : List Step} (hrun : ((platform.view db ws).runs.rows runId).isSome)
    (hexec : ((platform.view db ws).executions.rows id).isSome)
    (hplain : assertPlainSteps run.spec = .ok steps) :
    cycleEnd db (((settle runId run id node (.ok output)).tryCatch
      (handleFailure runId id)).run (platform.handle c locked db) ⟨ws, false⟩) =
      if ParsedJson.fieldsRefused output then (false, db)
      else (true, (platform.view db ws).completed steps runId id node.id
        (ParsedJson.storedFields output)) := by
  rcases (evaluatesFrom_run c locked db ws (settle runId run id node (.ok output))).completeStep
    hrun hplain with ⟨hcause, hr, hs⟩ | ⟨haccept, h⟩
  · have hrefused : ParsedJson.fieldsRefused output = true := by
      apply hcause.resolve_right
      intro hnone
      rw [hnone] at hexec
      cases hexec
    rw [Script.run_tryCatch, hrefused]
    generalize (settle runId run id node (.ok output)).run
      (platform.handle c locked db) ⟨ws, false⟩ = p at hr hs ⊢
    obtain ⟨r, s⟩ := p
    dsimp only at hr hs
    rw [hr, hs]
    rfl
  · rw [haccept]
    exact cycleEnd_tryCatch h _

theorem cycleEnd_processExecution {deps : WorkerDeps} {runId : ℕ} {run : WorkflowRun} {id : ℕ}
    {e : Execution} (hrun : (db.runs.rows runId).isSome)
    (hexec : (db.executions.rows id).isSome) :
    cycleEnd db (((processExecution deps runId run id e).tryCatch (handleFailure runId id)).run
      (platform.handle c locked db) ⟨claimWrites deps c.now id, false⟩) =
      (settledAs run runId id (stepAnswer deps db c.answer runId run id e)).result
        deps c.now db := by
  have hrun' : ((platform.view db (claimWrites deps c.now id)).runs.rows runId).isSome := hrun
  have hexec' : ((platform.view db (claimWrites deps c.now id)).executions.rows id).isSome := by
    change ((db.executions.modify id _).rows id).isSome
    rwa [Table.modify_same, Option.isSome_map]
  rw [processExecution_eq, Script.run_bind_tryCatch (run_ask deps runId run id e)]
  have hview : stepAnswer deps (platform.view db (claimWrites deps c.now id)) c.answer runId run
      id e = stepAnswer deps db c.answer runId run id e := rfl
  rw [hview]
  cases hanswer : stepAnswer deps db c.answer runId run id e with
  | error err =>
      refine (cycleEnd_handleFailure runId id err).trans ?_
      simp only [settledAs]
      split_ifs <;> rfl
  | ok p =>
      obtain ⟨node, result⟩ := p
      cases result with
      | failed response => exact cycleEnd_settle_failed runId run id node response
      | ok output =>
          refine (cycleEnd_settle_ok hrun' hexec' (plainSteps_of_answer hanswer)).trans ?_
          simp only [settledAs]
          split_ifs <;> rfl

end

/-- One cycle, from the rows it starts in to the rows it commits. -/
theorem runOnce_eq (deps : WorkerDeps) (c : Choice) (locked : Row → Bool) (db : Db) :
    runOnce deps c locked db = (cycleOutcome deps c locked db).result deps c.now db := by
  rw [runOnce_eq_end, runOnceBody, ExecutionsRepo.claim]
  cases hid : db.claimCandidate c.now locked with
  | none =>
      have hclaim : (platform.view db []).respond c locked
          (.claimExecution deps.workerId deps.leaseSeconds) = some (none, []) := by
        simp only [platform.view_nil, Db.respond, hid]
      rw [run_query hclaim]
      simp only [cycleOutcome, claimedRun, hid]
      rfl
  | some id =>
      obtain ⟨⟨e, he, -⟩, -⟩ := claimCandidate_spec hid
      have hclaim : (platform.view db []).respond c locked
          (.claimExecution deps.workerId deps.leaseSeconds) =
          some (some (id, e.claimed deps.workerId (c.now + 1000 * deps.leaseSeconds)),
            claimWrites deps c.now id) := by
        simp only [platform.view_nil, Db.respond, hid, he, Option.map_some, claimWrites]
      rw [run_query hclaim, List.nil_append]
      simp only [Execution.claimed_runId]
      cases hrunId : e.runId with
      | none =>
          have hnone : claimedRun db c.now locked = none := by
            simp [claimedRun, hid, he, hrunId]
          rw [cycleOutcome, hnone]
          rfl
      | some runId =>
          dsimp only
          have hfind : (platform.view db (claimWrites deps c.now id)).respond c locked
              (.findRunById runId) = some (db.runs.rows runId, []) := rfl
          rw [WorkflowRunsRepo.findById, run_query hfind, List.append_nil]
          cases hrow : db.runs.rows runId with
          | none =>
              have hnone : claimedRun db c.now locked = none := by
                simp [claimedRun, hid, he, hrunId, hrow]
              rw [cycleOutcome, hnone]
              rfl
          | some run =>
              have hsome : claimedRun db c.now locked = some (id, e, runId, run) := by
                simp [claimedRun, hid, he, hrunId, hrow]
              rw [cycleOutcome, hsome]
              exact cycleEnd_processExecution (by rw [hrow]; rfl) (by rw [he]; rfl)

end WorkflowPlatform
