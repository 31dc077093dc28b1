import WorkflowPlatform.Frames

/-!
# Which statements each part of a cycle issues

The scripts that work on a claimed execution issue nothing but statements for
that execution and its run, `Calm`, apart from the request and the log lines,
which name the execution. None of them catches an error.
-/
namespace WorkflowPlatform

/-- The calm statements that may be issued once the run's row is locked: not the
ones that take it, nor those that fail other executions. -/
def Steady (r id : ℕ) : Op → Prop
  | .lockRunForUpdate _ => False
  | .markRunFailed _ => False
  | .scanRemaining _ => False
  | .failIfRemaining .. => False
  | op => Calm r id op

theorem Steady.calm {r id : ℕ} {op : Op} (h : Steady r id op) : Calm r id op := by
  cases op with
  | lockRunForUpdate | markRunFailed | scanRemaining | failIfRemaining => cases h
  | _ => exact h

/-- An operation for one execution of one run. -/
def OfExecution (r id : ℕ) : Op → Prop
  | .fetch _ _ body _ => body.executionId = Nat.repr id
  | .log _ record _ => record.executionId = id
  | op => Calm r id op

theorem Calm.ofExecution {r id : ℕ} {op : Op} (h : Calm r id op) : OfExecution r id op := by
  cases op with
  | fetch | log => cases h
  | _ => exact h

theorem natRepr_injective {m n : ℕ} (h : Nat.repr m = Nat.repr n) : m = n := by
  have hd := congrArg String.toList h
  rw [Nat.toList_repr, Nat.toList_repr] at hd
  rw [← Nat.ofDigitChars_ten_toDigits (n := m), hd, Nat.ofDigitChars_ten_toDigits]

section
variable (r id : ℕ)

theorem tame_collectNodeOutputs {P : Op → Prop} (hP : ∀ i, P (.findRunNodeOutput r i))
    (ids : List String) (n : NodeOutputs) : (collectNodeOutputs r ids n).Tame P .database := by
  induction ids generalizing n with
  | nil => exact Script.tame_done _ _ _
  | cons i rest ih =>
      refine Script.tame_call (hP i) fun found => ?_
      cases found with
      | none => exact ih n
      | some output => exact ih _

theorem tame_resolveStepReads {P : Op → Prop} (hP : ∀ i, P (.findRunNodeOutput r i))
    (run : WorkflowRun) (node : Step) : (resolveStepReads r run node).Tame P .database :=
  (tame_collectNodeOutputs r hP _ _).bind fun _ => Script.tame_done _ _ _

theorem tame_insertCheckpoint (step : String) (output : ParsedObject) :
    (CheckpointsRepo.insert id step output).Tame (Steady r id) .database := by
  refine Script.tame_call rfl fun inserted => ?_
  cases inserted with
  | some _ => exact Script.tame_done _ _ _
  | none =>
      refine Script.tame_call rfl fun existing => ?_
      cases existing <;> exact Script.tame_done _ _ _

theorem tame_recordOutput (node : String) (output : ParsedObject) :
    (RunNodeOutputsRepo.record r node output).Tame (Steady r id) .database := by
  refine Script.tame_call rfl fun inserted => ?_
  cases inserted with
  | some _ => exact Script.tame_done _ _ _
  | none =>
      refine Script.tame_call rfl fun existing => ?_
      cases existing <;> exact Script.tame_done _ _ _

theorem tame_promoteSteps (completedIds : List String) (steps : List Step) :
    (promoteSteps r completedIds steps).Tame (Steady r id) .database := by
  induction steps with
  | nil => exact Script.tame_done _ _ _
  | cons step rest ih =>
      refine Script.Tame.bind ?_ fun _ => ih
      unfold promoteIfReady
      split_ifs
      · exact Script.tame_perform _ rfl
      · exact Script.tame_done _ _ _

/-- What `completeStep` does once it holds the run's row. -/
def completeLocked (run : WorkflowRun) (nodeId : String) (output : ParsedObject) : Tx Unit := do
  let _ ← completeExecution id nodeId output
  let _ ← RunNodeOutputsRepo.record r nodeId output
  let completedIds ← RunNodeOutputsRepo.listCompletedNodeIds r
  promoteReadyNodes r run completedIds
  let steps ← Script.lift (assertPlainSteps run.spec)
  if ∀ step ∈ steps, step.id ∈ completedIds then
    WorkflowRunsRepo.markDone r

theorem completeStep_eq (run : WorkflowRun) (nodeId : String) (output : ParsedObject) :
    completeStep r run id nodeId output =
      (WorkflowRunsRepo.lockForUpdate r >>= fun _ => completeLocked r id run nodeId output) := rfl

theorem tame_completeLocked (run : WorkflowRun) (nodeId : String) (output : ParsedObject) :
    (completeLocked r id run nodeId output).Tame (Steady r id) .database := by
  refine Script.Tame.bind ?_ fun _ =>
    (tame_recordOutput r id _ _).bind fun _ => Script.tame_call rfl fun completedIds =>
    Script.Tame.bind ?_ fun _ => Script.Tame.bind (Script.tame_done _ _ _) fun steps => ?_
  · exact (tame_insertCheckpoint r id _ _).bind fun _ =>
      Script.tame_call rfl fun _ => Script.tame_done _ _ _
  · exact Script.Tame.bind (Script.tame_done _ _ _) fun _ => tame_promoteSteps r id _ _
  · split_ifs
    · exact Script.tame_perform _ rfl
    · exact Script.tame_done _ _ _

theorem tame_completeStep (run : WorkflowRun) (nodeId : String) (output : ParsedObject) :
    (completeStep r run id nodeId output).Tame (Calm r id) .database := by
  rw [completeStep_eq]
  refine Script.Tame.bind (Script.tame_call rfl fun found => ?_) fun _ =>
    (tame_completeLocked r id _ _ _).mono fun _ => Steady.calm
  cases found <;> exact Script.tame_done _ _ _

theorem tame_failEach (ids : List ℕ) :
    (ExecutionsRepo.failEach r ids).Tame (Calm r id) .database := by
  induction ids with
  | nil => exact Script.tame_done _ _ _
  | cons i rest ih => exact Script.tame_call rfl fun _ => ih

theorem tame_failRun : (failRun r id).Tame (Calm r id) .database :=
  Script.tame_call rfl fun _ => Script.tame_call rfl fun _ => Script.tame_call rfl fun ids =>
    tame_failEach r id ids

theorem buildInvokeRequest_ids {params : BuildInvokeRequestParams} {request : InvokeRequest}
    (h : buildInvokeRequest params = .ok request) :
    request.executionId = Nat.repr params.executionId ∧ request.stepId = params.step.id := by
  unfold buildInvokeRequest at h
  cases hr : renderHeavyBindings params.resolvedInput params.capability params.contentHash with
  | error e =>
      rw [hr] at h
      cases h
  | ok rendered =>
      cases ha : translateArgsToInvokeArgs params.resolvedInput
          params.capability.invocationDescriptor with
      | error e =>
          rw [hr, ha] at h
          cases h
      | ok args =>
          rw [hr, ha] at h
          cases h
          exact ⟨rfl, rfl⟩

theorem tame_dispatchStep {P : Op → Prop} {agentBaseUrl : String}
    {params : BuildInvokeRequestParams} {authToken : Option String}
    (hP : ∀ url auth body timeoutMs, body.executionId = Nat.repr params.executionId →
      P (.fetch url auth body timeoutMs)) :
    (dispatchStep agentBaseUrl params authToken).Tame P .database := by
  unfold dispatchStep
  cases hreq : buildInvokeRequest params with
  | error e => exact Script.tame_done _ _ (.error e)
  | ok request =>
      rw [Script.lift_ok, Script.done_ok_bind]
      exact Script.Tame.bind (Script.tame_call (hP _ _ _ _ (buildInvokeRequest_ids hreq).1) fun _ =>
        Script.tame_done _ _ _) fun _ => Script.tame_done _ _ _

theorem reportedFailure_record {executionId : ℕ} {nodeId : String} {response : ParsedJson}
    {record : LogRecord} (h : reportedFailure executionId nodeId response = .ok record) :
    record.executionId = executionId ∧ record.err = none := by
  unfold reportedFailure at h
  dsimp only at h
  cases he : stderrExcerpt ((response.property "stderr").join) with
  | error e =>
      rw [he] at h
      cases h
  | ok excerpt =>
      rw [he] at h
      cases h
      exact ⟨rfl, rfl⟩

theorem tame_processExecution (deps : WorkerDeps) (run : WorkflowRun) (execution : Execution) :
    (processExecution deps r run id execution).Tame (OfExecution r id) .database := by
  refine Script.Tame.bind (Script.tame_done _ _ _) fun node =>
    (tame_resolveStepReads r (fun _ => rfl) _ _).bind fun input =>
    (tame_dispatchStep fun _ _ _ _ h => h).bind fun result => ?_
  cases result with
  | ok output =>
      exact ((tame_completeStep r id _ _ _).mono fun _ => Calm.ofExecution).bind fun _ =>
        Script.tame_done _ _ _
  | failed response =>
      dsimp only
      cases hrec : reportedFailure id node.id response with
      | error e => exact Script.tame_done _ _ (.error e)
      | ok record =>
          refine Script.tame_call ?_ fun _ =>
            ((tame_failRun r id).mono fun _ => Calm.ofExecution).bind fun _ =>
            Script.tame_done _ _ _
          exact (reportedFailure_record hrec).1

theorem all_handleFailure (err : Failure) :
    (handleFailure r id err).All (OfExecution r id) := by
  unfold handleFailure
  split_ifs
  · exact Script.all_bind ((Script.all_perform _ _).mpr rfl) fun _ => trivial
  · exact Script.all_bind ((Script.all_perform _ _).mpr rfl) fun _ =>
      Script.all_bind ((tame_failRun r id).all.mono fun _ => Calm.ofExecution) fun _ => trivial

end
end WorkflowPlatform
