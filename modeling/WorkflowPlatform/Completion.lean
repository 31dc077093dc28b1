import WorkflowPlatform.WorkerLoop

/-!
# What completing a step and failing a run do to the tables

`Db.completed` and `Db.runFailed` say in one piece what the statements of
`completeStep` and `failRun` do one after another. Both are read off the rows as
the transaction sees them when it starts on them; `evaluates_completeStep` and
`evaluates_failRun` are the only places where the statements are gone through.
-/
namespace WorkflowPlatform

namespace Db

/-- `INSERT .. ON CONFLICT DO NOTHING` into `checkpoints`. -/
def withCheckpoint (db : Db) (id : ℕ) (step : String) (output : JsonObject) : Db :=
  if (db.checkpoints id step).isSome then db else db.write (.checkpoint id step output)

/-- `INSERT .. ON CONFLICT DO NOTHING` into `run_node_outputs`. -/
def withOutput (db : Db) (runId : ℕ) (node : String) (output : JsonObject) : Db :=
  if ((db.runNodeOutputs runId).lookup node).isSome then db
  else db.write (.output runId node output)

/-- The blocked executions of a run whose step is among the given ones, queued. -/
def promoted (db : Db) (runId : ℕ) (ready : List String) : Db :=
  { db with executions := db.executions.map fun _ e =>
      if e.runId = some runId ∧ e.step ∈ ready ∧ e.status = .blocked then e.setStatus .queued
      else e }

/-- `SQL_MARK_WORKFLOW_RUN_DONE` -/
def runDone (db : Db) (runId : ℕ) : Db :=
  { db with runs := db.runs.modify runId fun run =>
      if run.status = .failed then run else run.setStatus .done }

end Db

/-- The steps `promoteReadyNodes` promotes. -/
def readySteps (steps : List Step) (completedIds : List String) : List String :=
  (steps.filter fun step => step.id ∉ completedIds ∧
    ∀ id ∈ computeStepDependencies step, id ∈ completedIds).map (·.id)

namespace Db

/-- The rows after the execution has been marked done and its output recorded. -/
def recorded (db : Db) (runId executionId : ℕ) (nodeId : String) (output : JsonObject) : Db :=
  ((db.withCheckpoint executionId nodeId output).write
    (.executionStatus executionId .done)).withOutput runId nodeId output

def completedIds (db : Db) (runId : ℕ) : List String := (db.runNodeOutputs runId).map Prod.fst

/-- The rows after `completeStep`. -/
def completed (db : Db) (steps : List Step) (runId executionId : ℕ) (nodeId : String)
    (output : JsonObject) : Db :=
  let db := db.recorded runId executionId nodeId output
  let completedIds := db.completedIds runId
  let db := db.promoted runId (readySteps steps completedIds)
  if ∀ step ∈ steps, step.id ∈ completedIds then db.runDone runId else db

/-- The rows after `failRun`. -/
def runFailed (db : Db) (runId executionId : ℕ) : Db :=
  { db with
    runs := db.runs.modify runId (WorkflowRun.setStatus .failed)
    executions := db.executions.map fun id e =>
      if id = executionId ∨ remainingIn runId e = true then e.setStatus .failed else e }

theorem foldl_executionStatus (db : Db) (ids : List ℕ) (status : ExecutionStatus) :
    (ids.map (Write.executionStatus · status)).foldl write db =
      { db with executions := db.executions.map fun id e =>
          if id ∈ ids then e.setStatus status else e } := by
  induction ids generalizing db with
  | nil =>
      have h : db.executions.map (fun _ e => e) = db.executions :=
        Table.map_eq_self fun _ _ _ => rfl
      simp [h]
  | cons i rest ih =>
      simp only [List.map_cons, List.foldl_cons, ih, write, Table.modify, Table.map_map]
      congr 1
      refine Table.map_congr fun id e _ => ?_
      by_cases hi : id = i <;> by_cases hr : id ∈ rest <;> simp [hi, hr, Execution.setStatus]

theorem foldl_promote (db : Db) (runId : ℕ) (step : String) :
    ((db.executionIds (blockedIn runId step)).map (Write.executionStatus · .queued)).foldl
      write db = db.promoted runId [step] := by
  rw [foldl_executionStatus, promoted]
  congr 1
  refine Table.map_congr fun id e he => ?_
  have hiff : id ∈ db.executionIds (blockedIn runId step) ↔
      e.runId = some runId ∧ e.step ∈ [step] ∧ e.status = .blocked := by
    rw [mem_executionIds]
    simp [he, blockedIn, and_assoc]
  simp only [hiff]

theorem promoted_nil (db : Db) (runId : ℕ) : db.promoted runId [] = db := by
  have h : db.executions.map (fun _ e => if e.runId = some runId ∧ e.step ∈ ([] : List String) ∧
      e.status = .blocked then e.setStatus .queued else e) = db.executions :=
    Table.map_eq_self fun _ e _ => by simp
  simp only [promoted, h]

theorem promoted_promoted (db : Db) (runId : ℕ) (step : String) (ready : List String) :
    (db.promoted runId [step]).promoted runId ready = db.promoted runId (step :: ready) := by
  simp only [promoted, Table.map_map]
  congr 1
  refine Table.map_congr fun id e _ => ?_
  by_cases hrun : e.runId = some runId <;> by_cases hs : e.status = .blocked <;>
    by_cases hstep : e.step = step <;> simp [hrun, hs, hstep]

end Db

@[simp] theorem platform_view_cons (db : Db) (ws ws' : List Write) :
    platform.view db (ws ++ ws') = ws'.foldl Db.write (platform.view db ws) :=
  platform.view_append db ws ws'

section
variable {db V : Db} {ws : List Write} {s' : Session Write}

/-- Some evaluation from an open transaction that sees the rows `V`. -/
def EvaluatesFrom {α : Type} (db V : Db) (m : Tx α) (r : Except Failure α) (s' : Session Write) :
    Prop :=
  ∃ ws, platform.view db ws = V ∧ platform.Evaluates db m ⟨ws, false⟩ r s'

/-- The first statement is answered for some choice, or refused. -/
theorem EvaluatesFrom.answered {α : Type} {op : Op} {f : Resp op → Tx α} {r : Except Failure α}
    (h : EvaluatesFrom db V (WorkflowPlatform.query op >>= f) r s') :
    ∃ c locked, match V.respond c locked op with
      | some (a, ws') => EvaluatesFrom db (ws'.foldl Db.write V) (f a) r s'
      | none => r = .error .database ∧ s' = ⟨[], true⟩ := by
  obtain ⟨ws, rfl, c, locked, h⟩ := h
  refine ⟨c, locked, ?_⟩
  cases hr : (platform.view db ws).respond c locked op with
  | none =>
      rw [platform.handle_of_none hr] at h
      exact h
  | some p =>
      rw [platform.handle_of_some hr] at h
      exact ⟨ws ++ p.2, platform_view_cons db ws p.2, h⟩

theorem EvaluatesFrom.query {α : Type} {op : Op} {f : Resp op → Tx α} {a : Resp op}
    {ws' : List Write} {r : Except Failure α}
    (h : EvaluatesFrom db V (WorkflowPlatform.query op >>= f) r s')
    (ha : ∀ c locked, V.respond c locked op = some (a, ws')) :
    EvaluatesFrom db (ws'.foldl Db.write V) (f a) r s' := by
  obtain ⟨c, locked, h⟩ := h.answered
  rwa [ha c locked] at h

theorem EvaluatesFrom.refused {α : Type} {op : Op} {f : Resp op → Tx α} {r : Except Failure α}
    (h : EvaluatesFrom db V (WorkflowPlatform.query op >>= f) r s')
    (ha : ∀ c locked, V.respond c locked op = none) :
    r = .error .database ∧ s' = ⟨[], true⟩ := by
  obtain ⟨c, locked, h⟩ := h.answered
  rwa [ha c locked] at h

theorem EvaluatesFrom.done {α : Type} {r r' : Except Failure α}
    (h : EvaluatesFrom db V (.done r) r' s') :
    r' = r ∧ s'.aborted = false ∧ platform.view db s'.writes = V := by
  obtain ⟨ws, rfl, rfl, rfl⟩ := h
  exact ⟨rfl, rfl, rfl⟩

theorem readySteps_cons {step : Step} {rest : List Step} {completedIds : List String} :
    readySteps (step :: rest) completedIds =
      if step.id ∉ completedIds ∧ ∀ id ∈ computeStepDependencies step, id ∈ completedIds then
        step.id :: readySteps rest completedIds
      else readySteps rest completedIds := by
  simp only [readySteps, List.filter_cons, decide_eq_true_eq]
  split_ifs <;> rfl

theorem EvaluatesFrom.promoteSteps {α : Type} {runId : ℕ} {completedIds : List String}
    {steps : List Step} {f : Unit → Tx α} {r : Except Failure α}
    (h : EvaluatesFrom db V (promoteSteps runId completedIds steps >>= f) r s') :
    EvaluatesFrom db (V.promoted runId (readySteps steps completedIds)) (f ()) r s' := by
  induction steps generalizing V with
  | nil =>
      rw [readySteps, List.filter_nil, List.map_nil, Db.promoted_nil]
      exact h
  | cons step rest ih =>
      simp only [WorkflowPlatform.promoteSteps, promoteIfReady, Script.bind_assoc] at h
      rw [readySteps_cons]
      split_ifs at h ⊢ with hready
      · rw [← Db.promoted_promoted, ← Db.foldl_promote]
        exact ih (h.query fun _ _ => rfl)
      · exact ih h

/-- The rows after `failEach`: the listed executions that still match, failed. -/
def Db.failedAmong (db : Db) (runId : ℕ) (ids : List ℕ) : Db :=
  { db with executions := db.executions.map fun id e =>
      if id ∈ ids ∧ remainingIn runId e = true then e.setStatus .failed else e }

theorem Db.failedAmong_nil (db : Db) (runId : ℕ) : db.failedAmong runId [] = db := by
  have h : db.executions.map (fun id e => if id ∈ ([] : List ℕ) ∧ remainingIn runId e = true then
      e.setStatus .failed else e) = db.executions := Table.map_eq_self fun _ e _ => by simp
  simp only [failedAmong, h]

theorem Db.failedAmong_cons (db : Db) (runId id : ℕ) (ids : List ℕ) :
    (List.foldl Db.write db (if (db.executions.rows id).any (remainingIn runId) then
      [.executionStatus id .failed] else [])).failedAmong runId ids =
      db.failedAmong runId (id :: ids) := by
  have hset : ∀ e : Execution, remainingIn runId (e.setStatus .failed) = false := by
    intro e
    simp [remainingIn, ExecutionStatus.remaining]
  by_cases hany : (db.executions.rows id).any (remainingIn runId) = true
  · rw [if_pos hany]
    simp only [List.foldl_cons, List.foldl_nil, Db.write, failedAmong, Table.modify, Table.map_map]
    congr 1
    refine Table.map_congr fun i e he => ?_
    by_cases hi : i = id
    · subst hi
      rw [he, Option.any_some] at hany
      simp [hany, hset]
    · simp [hi]
  · rw [if_neg hany]
    simp only [List.foldl_nil, failedAmong]
    congr 1
    refine Table.map_congr fun i e he => ?_
    by_cases hi : i = id
    · subst hi
      rw [he, Option.any_some] at hany
      simp [hany]
    · simp [hi]

theorem EvaluatesFrom.failEach {α : Type} {runId : ℕ} {ids : List ℕ} {f : Unit → Tx α}
    {r : Except Failure α}
    (h : EvaluatesFrom db V (ExecutionsRepo.failEach runId ids >>= f) r s') :
    EvaluatesFrom db (V.failedAmong runId ids) (f ()) r s' := by
  induction ids generalizing V with
  | nil =>
      rw [Db.failedAmong_nil]
      exact h
  | cons id rest ih =>
      simp only [ExecutionsRepo.failEach, Script.bind_assoc] at h
      rw [← Db.failedAmong_cons]
      exact ih (h.query fun _ _ => rfl)

/-- `SQL_FAIL_REMAINING_EXECUTIONS_FOR_RUN` -/
def Db.failedRemaining (db : Db) (runId : ℕ) : Db :=
  { db with executions := db.executions.map fun _ e =>
      if remainingIn runId e = true then e.setStatus .failed else e }

/-- Whatever order the scan gives, all remaining executions of the run fail. -/
theorem EvaluatesFrom.failRemaining {α : Type} {runId : ℕ} {f : Unit → Tx α}
    {r : Except Failure α}
    (h : EvaluatesFrom db V (ExecutionsRepo.failRemainingForRun runId >>= f) r s') :
    EvaluatesFrom db (V.failedRemaining runId) (f ()) r s' := by
  simp only [ExecutionsRepo.failRemainingForRun, Script.bind_assoc] at h
  obtain ⟨c, locked, h⟩ := h.answered
  have hall : V.failedAmong runId (c.order (V.executionIds (remainingIn runId))) =
      V.failedRemaining runId := by
    simp only [Db.failedAmong, Db.failedRemaining]
    congr 1
    refine Table.map_congr fun id e he => ?_
    have hmem : id ∈ c.order (V.executionIds (remainingIn runId)) ↔
        remainingIn runId e = true := by
      rw [(c.order_perm _).mem_iff, Db.mem_executionIds]
      simp [he]
    simp only [hmem, and_self]
  rw [← hall]
  exact EvaluatesFrom.failEach h

theorem Db.foldl_markRunFailed (db : Db) (runId : ℕ) :
    List.foldl Db.write db (if (db.runs.rows runId).isSome then [.runStatus runId .failed] else []) =
      { db with runs := db.runs.modify runId (WorkflowRun.setStatus .failed) } := by
  split_ifs with h
  · rfl
  · have hself : db.runs.modify runId (WorkflowRun.setStatus .failed) = db.runs :=
      Table.modify_of_none (by simpa using h)
    simp [hself]

theorem Db.foldl_markExecution (db : Db) (id : ℕ) (status : ExecutionStatus) :
    List.foldl Db.write db
        (if (db.executions.rows id).isSome then [.executionStatus id status] else []) =
      { db with executions := db.executions.modify id (Execution.setStatus status) } := by
  split_ifs with h
  · rfl
  · have hself : db.executions.modify id (Execution.setStatus status) = db.executions :=
      Table.modify_of_none (by simpa using h)
    simp [hself]

/-- `failRun` cannot go wrong, and leaves the rows of `Db.runFailed`. -/
theorem EvaluatesFrom.failRun {α : Type} {runId executionId : ℕ} {f : Unit → Tx α}
    {r : Except Failure α}
    (h : EvaluatesFrom db V (failRun runId executionId >>= f) r s') :
    EvaluatesFrom db (V.runFailed runId executionId) (f ()) r s' := by
  simp only [WorkflowPlatform.failRun, WorkflowRunsRepo.markFailed, ExecutionsRepo.markFailed,
    Script.bind_assoc] at h
  have h₁ := EvaluatesFrom.query h fun _ _ => rfl
  rw [Db.foldl_markRunFailed] at h₁
  have h₂ := EvaluatesFrom.query h₁ fun _ _ => rfl
  rw [Db.foldl_markExecution] at h₂
  have h₃ := EvaluatesFrom.failRemaining h₂
  have hrows : Db.failedRemaining { V with
      runs := V.runs.modify runId (WorkflowRun.setStatus .failed)
      executions := V.executions.modify executionId (Execution.setStatus .failed) } runId =
      V.runFailed runId executionId := by
    simp only [Db.failedRemaining, Db.runFailed, Table.modify, Table.map_map]
    congr 1
    refine Table.map_congr fun id e _ => ?_
    by_cases hid : id = executionId
    · simp [hid, remainingIn, ExecutionStatus.remaining]
    · simp [hid]
  rw [← hrows]
  exact h₃

theorem Db.foldl_markRunDone (db : Db) (runId : ℕ) :
    List.foldl Db.write db
        (if (db.runs.rows runId).any (·.status ≠ .failed) then [.runStatus runId .done] else []) =
      db.runDone runId := by
  cases hr : db.runs.rows runId with
  | none => simp [Db.runDone, Table.modify_of_none hr]
  | some run =>
      by_cases hf : run.status = .failed
      · have hself : db.runs.modify runId (fun run =>
            if run.status = .failed then run else run.setStatus .done) = db.runs := by
          refine Table.map_eq_self fun i a ha => ?_
          by_cases hi : i = runId
          · subst hi
            rw [hr] at ha
            cases ha
            simp [hf]
          · simp [hi]
        simp [Db.runDone, hself, hf]
      · have hset : db.runs.modify runId (fun run =>
            if run.status = .failed then run else run.setStatus .done) =
            db.runs.modify runId (WorkflowRun.setStatus .done) := by
          refine Table.map_congr fun i a ha => ?_
          by_cases hi : i = runId
          · subst hi
            rw [hr] at ha
            cases ha
            simp [hf]
          · simp [hi]
        simp [Db.runDone, hset, hf, Db.write]

@[simp] theorem Db.withCheckpoint_executions (db : Db) (id : ℕ) (step : String)
    (output : JsonObject) : (db.withCheckpoint id step output).executions = db.executions := by
  unfold Db.withCheckpoint
  split_ifs <;> rfl

@[simp] theorem Db.withCheckpoint_runs (db : Db) (id : ℕ) (step : String)
    (output : JsonObject) : (db.withCheckpoint id step output).runs = db.runs := by
  unfold Db.withCheckpoint
  split_ifs <;> rfl

@[simp] theorem Db.withCheckpoint_outputs (db : Db) (id : ℕ) (step : String)
    (output : JsonObject) :
    (db.withCheckpoint id step output).runNodeOutputs = db.runNodeOutputs := by
  unfold Db.withCheckpoint
  split_ifs <;> rfl

/-- The insert of a checkpoint is refused, or there is a checkpoint after it. -/
theorem EvaluatesFrom.insertCheckpoint {α : Type} {id : ℕ} {step : String} {output : ParsedObject}
    {f : JsonObject → Tx α} {r : Except Failure α}
    (h : EvaluatesFrom db V (CheckpointsRepo.insert id step output >>= f) r s') :
    ((ParsedJson.fieldsRefused output = true ∨ V.executions.rows id = none) ∧
      r = .error .database ∧ s' = ⟨[], true⟩) ∨
      ParsedJson.fieldsRefused output = false ∧
        ∃ a, EvaluatesFrom db (V.withCheckpoint id step (ParsedJson.storedFields output))
          (f a) r s' := by
  simp only [CheckpointsRepo.insert, CheckpointsRepo.findByExecutionAndStep,
    Script.bind_assoc] at h
  cases haccept : ParsedJson.fieldsRefused output with
  | true =>
      left
      exact ⟨.inl rfl, h.refused fun _ _ => by simp [Db.respond, haccept]⟩
  | false =>
      cases hc : V.checkpoints id step with
      | some existing =>
          right
          have hins : ∀ c locked, V.respond c locked (.insertCheckpoint id step output) =
              some (none, []) := fun _ _ => by simp [Db.respond, haccept, hc]
          have hfind : ∀ c locked, V.respond c locked (.findCheckpoint id step) =
              some (some existing, []) := fun _ _ => by simp [Db.respond, hc]
          have h₁ := EvaluatesFrom.query h hins
          simp only [Script.bind_assoc] at h₁
          refine ⟨rfl, existing, ?_⟩
          simpa [Db.withCheckpoint, hc] using EvaluatesFrom.query h₁ hfind
      | none =>
          cases hexec : V.executions.rows id with
          | none =>
              left
              refine ⟨.inr rfl, h.refused fun _ _ => ?_⟩
              simp [Db.respond, haccept, hc, hexec]
          | some e =>
              right
              have hins : ∀ c locked, V.respond c locked (.insertCheckpoint id step output) =
                  some (some (ParsedJson.storedFields output),
                    [.checkpoint id step (ParsedJson.storedFields output)]) :=
                fun _ _ => by simp [Db.respond, haccept, hc, hexec]
              refine ⟨rfl, ParsedJson.storedFields output, ?_⟩
              simpa [Db.withCheckpoint, hc] using EvaluatesFrom.query h hins

theorem EvaluatesFrom.recordOutput {α : Type} {runId : ℕ} {node : String} {output : ParsedObject}
    {f : JsonObject → Tx α} {r : Except Failure α} (hrun : (V.runs.rows runId).isSome)
    (haccept : ParsedJson.fieldsRefused output = false)
    (h : EvaluatesFrom db V (RunNodeOutputsRepo.record runId node output >>= f) r s') :
    ∃ a, EvaluatesFrom db (V.withOutput runId node (ParsedJson.storedFields output))
      (f a) r s' := by
  simp only [RunNodeOutputsRepo.record, RunNodeOutputsRepo.get, Script.bind_assoc] at h
  cases hc : (V.runNodeOutputs runId).lookup node with
  | some existing =>
      have hins : ∀ c locked, V.respond c locked (.insertRunNodeOutput runId node output) =
          some (none, []) := fun _ _ => by simp [Db.respond, haccept, hc]
      have hfind : ∀ c locked, V.respond c locked (.findRunNodeOutput runId node) =
          some (some existing, []) := fun _ _ => by simp [Db.respond, hc]
      have h₁ := EvaluatesFrom.query h hins
      simp only [Script.bind_assoc] at h₁
      refine ⟨existing, ?_⟩
      simpa [Db.withOutput, hc] using EvaluatesFrom.query h₁ hfind
  | none =>
      have hins : ∀ c locked, V.respond c locked (.insertRunNodeOutput runId node output) =
          some (some (ParsedJson.storedFields output),
            [.output runId node (ParsedJson.storedFields output)]) :=
        fun _ _ => by simp [Db.respond, haccept, hc, hrun]
      refine ⟨ParsedJson.storedFields output, ?_⟩
      simpa [Db.withOutput, hc] using EvaluatesFrom.query h hins

/-- `completeStep` either is refused for what it has to store, or leaves the rows
of `Db.completed`. -/
theorem EvaluatesFrom.completeStep {α : Type} {runId executionId : ℕ} {run : WorkflowRun}
    {nodeId : String} {output : ParsedObject} {steps : List Step} {f : Unit → Tx α}
    {r : Except Failure α} (hrun : (V.runs.rows runId).isSome)
    (hplain : assertPlainSteps run.spec = .ok steps)
    (h : EvaluatesFrom db V (completeStep runId run executionId nodeId output >>= f) r s') :
    ((ParsedJson.fieldsRefused output = true ∨ V.executions.rows executionId = none) ∧
      r = .error .database ∧ s' = ⟨[], true⟩) ∨
      ParsedJson.fieldsRefused output = false ∧
        EvaluatesFrom db (V.completed steps runId executionId nodeId
          (ParsedJson.storedFields output)) (f ()) r s' := by
  obtain ⟨row, hrow⟩ := Option.isSome_iff_exists.mp hrun
  simp only [WorkflowPlatform.completeStep, WorkflowRunsRepo.lockForUpdate, completeExecution,
    ExecutionsRepo.markDone, RunNodeOutputsRepo.listCompletedNodeIds, promoteReadyNodes, hplain,
    WorkflowRunsRepo.markDone, Script.bind_assoc, Script.lift_ok, Script.done_ok_bind,
    Script.pure_eq] at h
  have hlock : ∀ c locked, V.respond c locked (.lockRunForUpdate runId) =
      some (some row, [.lockRun runId]) := fun _ _ => by simp [Db.respond, hrow]
  have h₁ := EvaluatesFrom.query h hlock
  simp only [Script.done_ok_bind] at h₁
  rcases EvaluatesFrom.insertCheckpoint h₁ with hrefused | ⟨haccept, _, h₂⟩
  · exact .inl hrefused
  right
  refine ⟨haccept, ?_⟩
  have h₃ := EvaluatesFrom.query h₂ fun _ _ => rfl
  rw [Db.foldl_markExecution] at h₃
  obtain ⟨_, h₄⟩ := EvaluatesFrom.recordOutput (by simpa [Db.write] using hrun) haccept h₃
  change EvaluatesFrom db
    (V.recorded runId executionId nodeId (ParsedJson.storedFields output)) (_ >>= _) r s' at h₄
  have hlist : ∀ c locked,
      (V.recorded runId executionId nodeId (ParsedJson.storedFields output)).respond c locked
        (.listCompletedNodeIds runId) =
      some ((V.recorded runId executionId nodeId (ParsedJson.storedFields output)).completedIds
        runId, []) :=
    fun _ _ => rfl
  have h₅ := EvaluatesFrom.promoteSteps (EvaluatesFrom.query h₄ hlist)
  simp only [Db.completed]
  split_ifs with hall
  · rw [if_pos hall] at h₅
    have h₆ := EvaluatesFrom.query h₅ fun _ _ => rfl
    rw [Db.foldl_markRunDone] at h₆
    exact h₆
  · rw [if_neg hall] at h₅
    exact h₅

end
end WorkflowPlatform
