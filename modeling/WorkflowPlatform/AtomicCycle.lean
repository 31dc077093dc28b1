import WorkflowPlatform.RunView
import WorkflowPlatform.SoloCycle

/-!
# What a cycle commits

A cycle commits nothing, or one execution that is done with its output, or one
that has failed with its run. Nothing is committed halfway: no row is left
running by a cycle.
-/
namespace WorkflowPlatform

theorem claimedRun_eq_some {db : Db} {now : ℕ} {locked : Row → Bool} {id : ℕ} {e : Execution}
    {runId : ℕ} {run : WorkflowRun} :
    claimedRun db now locked = some (id, e, runId, run) ↔
      db.claimCandidate now locked = some id ∧ db.executions.rows id = some e ∧
        e.runId = some runId ∧ db.runs.rows runId = some run := by
  simp only [claimedRun, Option.bind_eq_bind, Option.bind_eq_some_iff, Option.pure_def,
    Option.some.injEq, Prod.mk.injEq]
  constructor
  · rintro ⟨id, hid, e, he, runId, hrunId, run, hrun, rfl, rfl, rfl, rfl⟩
    exact ⟨hid, he, hrunId, hrun⟩
  · rintro ⟨hid, he, hrunId, hrun⟩
    exact ⟨id, hid, e, he, runId, hrunId, run, hrun, rfl, rfl, rfl, rfl⟩

/-- What every cycle that commits has done: the claimed execution keeps its claim's
bookkeeping and has its final status, the waits that made it due are satisfied,
and the rows of other runs are as they were. -/
structure ClaimCommitted (deps : WorkerDeps) (now id : ℕ) (e : Execution) (runId : ℕ)
    (status : ExecutionStatus) (db db' : Db) : Prop where
  claimed : db'.executions.rows id =
    some ((e.claimed deps.workerId (now + 1000 * deps.leaseSeconds)).setStatus status)
  waits : db'.waits = db.waits.map fun _ w =>
    if w.due id now then { w with satisfiedAt := some now } else w
  other_runs : ∀ r, r ≠ runId → db'.runs.rows r = db.runs.rows r
  other_outputs : ∀ r, r ≠ runId → db'.runNodeOutputs r = db.runNodeOutputs r
  other_checkpoints : ∀ i step, i ≠ id ∨ step ≠ e.step →
    db'.checkpoints i step = db.checkpoints i step

/-- The claimed execution is done: its checkpoint and its output are there, the
blocked executions that it made ready are queued, and the run is done with its
last step. -/
structure CompletedCycle (deps : WorkerDeps) (now id : ℕ) (e : Execution) (runId : ℕ)
    (run : WorkflowRun) (output : JsonObject) (db db' : Db) : Prop
    extends ClaimCommitted deps now id e runId .done db db' where
  checkpoint : db'.checkpoints id e.step = some ((db.checkpoints id e.step).getD output)
  output : db'.runNodeOutputs runId =
    if ((db.runNodeOutputs runId).lookup e.step).isSome then db.runNodeOutputs runId
    else db.runNodeOutputs runId ++ [(e.step, output)]
  executions : ∀ i, i ≠ id → db'.executions.rows i = (db.executions.rows i).map fun f =>
    if f.runId = some runId ∧ f.step ∈ readySteps run.spec.plainSteps (db'.completedIds runId) ∧
      f.status = .blocked then f.setStatus .queued else f
  run : db'.runs.rows runId = some
    (if (∀ step ∈ run.spec.plainSteps, step.id ∈ db'.completedIds runId) ∧ run.status ≠ .failed
      then run.setStatus .done else run)

/-- The claimed execution and its run have failed, and with them every execution
of the run that was still to be claimed. -/
structure FailedCycle (deps : WorkerDeps) (now id : ℕ) (e : Execution) (runId : ℕ)
    (run : WorkflowRun) (db db' : Db) : Prop
    extends ClaimCommitted deps now id e runId .failed db db' where
  checkpoints : db'.checkpoints = db.checkpoints
  outputs : db'.runNodeOutputs = db.runNodeOutputs
  executions : ∀ i, i ≠ id → db'.executions.rows i = (db.executions.rows i).map fun f =>
    if remainingIn runId f = true then f.setStatus .failed else f
  stopped : ∀ i f, db'.executions.rows i = some f → f.runId = some runId →
    f.status ≠ .blocked ∧ f.status ≠ .queued ∧ f.status ≠ .waiting
  run : db'.runs.rows runId = some (run.setStatus .failed)

section
variable {deps : WorkerDeps} {now id : ℕ} {e : Execution} {runId : ℕ} {run : WorkflowRun}
variable {db : Db}

theorem Db.claimedBy_same (he : db.executions.rows id = some e) :
    (db.claimedBy deps now id).executions.rows id =
      some (e.claimed deps.workerId (now + 1000 * deps.leaseSeconds)) := by
  change (db.executions.modify id _).rows id = _
  rw [Table.modify_same, he]
  rfl

theorem Db.claimedBy_other {i : ℕ} (hi : i ≠ id) :
    (db.claimedBy deps now id).executions.rows i = db.executions.rows i :=
  Table.modify_other _ _ hi

theorem failedCycle (he : db.executions.rows id = some e)
    (hrun : db.runs.rows runId = some run) :
    FailedCycle deps now id e runId run db ((db.claimedBy deps now id).runFailed runId id) where
  claimed := by
    simp only [Db.runFailed, Table.map_rows, Db.claimedBy_same he, Option.map_some, true_or,
      if_true]
  waits := rfl
  other_runs := fun r hr => Table.modify_other _ _ hr
  other_outputs := fun _ _ => rfl
  other_checkpoints := fun _ _ _ => rfl
  checkpoints := rfl
  outputs := rfl
  executions := by
    intro i hi
    simp only [Db.runFailed, Table.map_rows, Db.claimedBy_other hi, hi, false_or]
  stopped := by
    intro i f hf hfr
    simp only [Db.runFailed, Table.map_rows, Option.map_eq_some_iff] at hf
    obtain ⟨g, -, rfl⟩ := hf
    split_ifs at hfr ⊢ with hfail
    · simp
    · have hremains : g.status.remaining = false := by
        simpa [remainingIn, hfr] using (not_or.mp hfail).2
      cases hs : g.status <;> simp_all [ExecutionStatus.remaining]
  run := by
    change (db.runs.modify runId _).rows runId = _
    rw [Table.modify_same, hrun]
    rfl

theorem completedCycle (he : db.executions.rows id = some e)
    (hrun : db.runs.rows runId = some run) (output : JsonObject) :
    CompletedCycle deps now id e runId run output db
      ((db.claimedBy deps now id).completed run.spec.plainSteps runId id e.step output) := by
  have hexec := Db.completed_executions (db.claimedBy deps now id) run.spec.plainSteps runId id
    e.step output
  have hout := Db.completed_outputs (db.claimedBy deps now id) run.spec.plainSteps runId id
    e.step output
  have hruns := Db.completed_runs (db.claimedBy deps now id) run.spec.plainSteps runId id
    e.step output
  have hids : ((db.claimedBy deps now id).recorded runId id e.step output).completedIds runId =
      ((db.claimedBy deps now id).completed run.spec.plainSteps runId id e.step output).completedIds
        runId := by
    simp only [Db.completedIds, Db.recorded_outputs, hout]
  have hcheck := Db.completed_checkpoints (db.claimedBy deps now id) run.spec.plainSteps runId id
    e.step output
  have hwaits := Db.completed_waits (db.claimedBy deps now id) run.spec.plainSteps runId id
    e.step output
  rw [hids] at hexec hruns
  generalize (db.claimedBy deps now id).completed run.spec.plainSteps runId id e.step output =
    db' at hexec hout hruns hcheck hwaits ⊢
  refine ⟨⟨?_, hwaits, ?_, ?_, ?_⟩, ?_, ?_, ?_, ?_⟩
  · rw [hexec, Table.map_rows, Db.claimedBy_same he, Option.map_some, Db.completedExecution,
      if_pos rfl]
  · intro r hr
    rw [hruns]
    split_ifs
    · exact Table.modify_other _ _ hr
    · rfl
  · intro r hr
    rw [hout, Db.withOutput_other _ _ _ hr]
    rfl
  · intro i step hne
    rw [hcheck, Db.withCheckpoint_other _ _ hne]
    rfl
  · rw [hcheck, Db.withCheckpoint_same]
    rfl
  · rw [hout, Db.withOutput]
    split_ifs with h₁ h₂ h₂
    · rfl
    · exact absurd h₁ h₂
    · exact absurd h₂ h₁
    · exact Function.update_self ..
  · intro i hi
    rw [hexec, Table.map_rows, Db.claimedBy_other hi]
    cases db.executions.rows i with
    | none => rfl
    | some f => simp only [Option.map_some, Db.completedExecution, hi, if_false]
  · have hrow : (db.claimedBy deps now id).runs.rows runId = some run := hrun
    rw [hruns]
    split_ifs with hall hdone hdone
    · simp only [Table.modify_same, hrow, Option.map_some, hdone.2, if_false]
    · simp only [Table.modify_same, hrow, Option.map_some, not_and_not_right.mp hdone hall, if_true]
    · exact absurd hdone.1 hall
    · exact hrow

theorem CompletedCycle.running {output : JsonObject} {db' : Db}
    (h : CompletedCycle deps now id e runId run output db db') {i : ℕ} {f : Execution}
    (hf : db'.executions.rows i = some f) (hs : f.status = .running) :
    db.executions.rows i = some f := by
  by_cases hi : i = id
  · subst hi
    rw [h.claimed] at hf
    cases hf
    cases hs
  · rw [h.executions i hi, Option.map_eq_some_iff] at hf
    obtain ⟨g, hg, rfl⟩ := hf
    split_ifs at hs ⊢
    · cases hs
    · exact hg

theorem FailedCycle.running {db' : Db} (h : FailedCycle deps now id e runId run db db') {i : ℕ}
    {f : Execution} (hf : db'.executions.rows i = some f) (hs : f.status = .running) :
    db.executions.rows i = some f := by
  by_cases hi : i = id
  · subst hi
    rw [h.claimed] at hf
    cases hf
    cases hs
  · rw [h.executions i hi, Option.map_eq_some_iff] at hf
    obtain ⟨g, hg, rfl⟩ := hf
    split_ifs at hs ⊢
    · cases hs
    · exact hg

theorem stepAnswer_eq_ok {answer : FetchOutcome} {node : Step} {result : DispatchResult} :
    stepAnswer deps db answer runId run id e = .ok (node, result) ↔
      (∃ request, stepRequest deps db runId run id e = .ok (node, request)) ∧
        answerResult deps answer = .ok result := by
  simp only [stepAnswer, bind_eq_ok, Except.ok.injEq, Prod.mk.injEq]
  constructor
  · rintro ⟨⟨node, request⟩, hreq, result, hres, rfl, rfl⟩
    exact ⟨⟨request, hreq⟩, hres⟩
  · rintro ⟨⟨request, hreq⟩, hres⟩
    exact ⟨(node, request), hreq, result, hres, rfl, rfl⟩

theorem stepRequest_id {node : Step} {request : InvokeRequest}
    (h : stepRequest deps db runId run id e = .ok (node, request)) : node.id = e.step := by
  simp only [stepRequest, findRunStepNode, bind_eq_ok, Except.ok.injEq, Prod.mk.injEq] at h
  obtain ⟨node, ⟨steps, -, hfind⟩, input, -, request, -, rfl, rfl⟩ := h
  exact findStepNode_id hfind

end

/-- A cycle that does something either completes its execution or fails its run. -/
theorem cycleOutcome_cases (deps : WorkerDeps) (c : Choice) (locked : Row → Bool) (db : Db) :
    cycleOutcome deps c locked db = .untouched ∨
    ∃ id e runId run, claimedRun db c.now locked = some (id, e, runId, run) ∧
      (cycleOutcome deps c locked db = .runFailed runId id ∨
        ∃ node output, stepAnswer deps db c.answer runId run id e = .ok (node, .ok output) ∧
          cycleOutcome deps c locked db =
            .completed run runId id node (ParsedJson.storedFields output)) := by
  unfold cycleOutcome
  cases hclaim : claimedRun db c.now locked with
  | none => exact .inl rfl
  | some p =>
      obtain ⟨id, e, runId, run⟩ := p
      dsimp only
      cases hanswer : stepAnswer deps db c.answer runId run id e with
      | error err =>
          simp only [settledAs]
          split_ifs
          · exact .inl rfl
          · exact .inr ⟨id, e, runId, run, rfl, .inl rfl⟩
      | ok q =>
          obtain ⟨node, result⟩ := q
          cases result with
          | failed response => exact .inr ⟨id, e, runId, run, rfl, .inl rfl⟩
          | ok output =>
              simp only [settledAs]
              split_ifs
              · exact .inl rfl
              · exact .inr ⟨id, e, runId, run, rfl, .inr ⟨node, output, hanswer, rfl⟩⟩

/-- A cycle that commits something has claimed an execution and either completed it
or failed its run. -/
theorem runOnce_cases (deps : WorkerDeps) (c : Choice) (locked : Row → Bool) (db : Db) :
    runOnce deps c locked db = (false, db) ∨
    ∃ id e runId run, claimedRun db c.now locked = some (id, e, runId, run) ∧
      (runOnce deps c locked db).1 = true ∧
      ((∃ output, answerResult deps c.answer = .ok (.ok output) ∧
          CompletedCycle deps c.now id e runId run (ParsedJson.storedFields output) db
            (runOnce deps c locked db).2) ∨
        FailedCycle deps c.now id e runId run db (runOnce deps c locked db).2) := by
  rw [runOnce_eq]
  rcases cycleOutcome_cases deps c locked db with h | ⟨id, e, runId, run, hclaim, h⟩
  · rw [h]
    exact .inl rfl
  obtain ⟨-, he, -, hrun⟩ := claimedRun_eq_some.mp hclaim
  refine .inr ⟨id, e, runId, run, hclaim, ?_⟩
  rcases h with h | ⟨node, output, hanswer, h⟩
  · rw [h]
    exact ⟨rfl, .inr (failedCycle he hrun)⟩
  · obtain ⟨⟨request, hreq⟩, hres⟩ := stepAnswer_eq_ok.mp hanswer
    rw [h, CycleOutcome.result, stepRequest_id hreq]
    exact ⟨rfl, .inl ⟨output, hres, completedCycle he hrun _⟩⟩

/-- Whatever the rows and the agent's answer, a cycle either answers `false` and
leaves everything as it was, or answers `true` and has committed one execution
that it claimed, done or failed; and no execution is committed as running. -/
theorem runOnce_atomic (deps : WorkerDeps) (c : Choice) (locked : Row → Bool) (db : Db) :
    (runOnce deps c locked db = (false, db) ∨
      ∃ id e runId run, db.claimCandidate c.now locked = some id ∧
        db.executions.rows id = some e ∧ e.runId = some runId ∧ db.runs.rows runId = some run ∧
        (runOnce deps c locked db).1 = true ∧
        ((∃ output, answerResult deps c.answer = .ok (.ok output) ∧
            CompletedCycle deps c.now id e runId run (ParsedJson.storedFields output) db
              (runOnce deps c locked db).2) ∨
          FailedCycle deps c.now id e runId run db (runOnce deps c locked db).2)) ∧
    ∀ i f, (runOnce deps c locked db).2.executions.rows i = some f → f.status = .running →
      db.executions.rows i = some f := by
  rcases runOnce_cases deps c locked db with h | ⟨id, e, runId, run, hclaim, htrue, h⟩
  · refine ⟨.inl h, fun i f hf _ => ?_⟩
    rwa [h] at hf
  · obtain ⟨hid, he, hrunId, hrun⟩ := claimedRun_eq_some.mp hclaim
    refine ⟨.inr ⟨id, e, runId, run, hid, he, hrunId, hrun, htrue, h⟩, fun i f hf hs => ?_⟩
    rcases h with ⟨output, -, h⟩ | h
    · exact h.running hf hs
    · exact h.running hf hs

end WorkflowPlatform
