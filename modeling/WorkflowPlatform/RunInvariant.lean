import WorkflowPlatform.Cycle
import WorkflowPlatform.Submission

/-!
# What holds of a run in every reachable state

Any number of workers execute `runOnce` concurrently, statement by statement,
from the state in which the run has just been submitted. The rows of the run
always say which steps are recorded, a run only stops on a graph that cannot be
finished, and a failed run stays as it is.
-/
namespace WorkflowPlatform
open Dataflow

/-- A state of some workers that execute `runOnce`. -/
abbrev WorkerSystem (n : ℕ) := System n Op Resp Failure Bool Write Db

abbrev runWorkers {n : ℕ} (deps : Fin n → WorkerDeps) : Fin n → Tx Bool :=
  fun t => runOnceBody (deps t)

/-- Whether a step has a recorded output. -/
def Recorded (R : SubmittedRun) (db : Db) (id : String) : Prop :=
  ((db.runNodeOutputs R.id).lookup id).isSome

/-- Some execution of the run is for this step and has this status. -/
def HasStatus (R : SubmittedRun) (db : Db) (id : String) (status : ExecutionStatus) : Prop :=
  ∃ i e, db.executions.rows i = some e ∧ e.runId = some R.id ∧ e.step = id ∧ e.status = status

def RunStatusIs (R : SubmittedRun) (db : Db) (status : WorkflowRunStatus) : Prop :=
  ∃ run, db.runs.rows R.id = some run ∧ run.status = status

/-- Each step has exactly one execution, and the statuses are those that the
recorded outputs and the run's own status determine. -/
structure RunInvariant (R : SubmittedRun) (db : Db) : Prop where
  exists_status : ∃ status, RunStatusIs R db status
  exists_execution : ∀ step ∈ R.steps, ∃! i, ∃ e, db.executions.rows i = some e ∧
    e.runId = some R.id ∧ e.step = step.id
  of_step : ∀ i e, db.executions.rows i = some e → e.runId = some R.id →
    ∃ step ∈ R.steps, e.step = step.id
  blocked : RunStatusIs R db .running → ∀ step ∈ R.steps, (HasStatus R db step.id .blocked ↔
    ∃ d ∈ computeStepDependencies step, ¬ Recorded R db d)
  done : RunStatusIs R db .running → ∀ step ∈ R.steps,
    (HasStatus R db step.id .done ↔ Recorded R db step.id)
  queued : RunStatusIs R db .running → ∀ step ∈ R.steps, HasStatus R db step.id .blocked ∨
    HasStatus R db step.id .done ∨ HasStatus R db step.id .queued
  unfinished : RunStatusIs R db .running → ∃ step ∈ R.steps, ¬ Recorded R db step.id
  finished : RunStatusIs R db .done → ∀ step ∈ R.steps,
    Recorded R db step.id ∧ HasStatus R db step.id .done
  stopped : RunStatusIs R db .failed → ∀ step ∈ R.steps,
    HasStatus R db step.id .done ∨ HasStatus R db step.id .failed

section
variable {R : SubmittedRun} {admits : String → JsonObject → Prop} {db : Db}
variable {σ : RunState String JsonObject}

theorem runStatus_injective {s s' : Status} (h : runStatus s = runStatus s') : s = s' := by
  cases s <;> cases s' <;> first | rfl | cases h

theorem Represents.runStatusIs (h : Represents R db σ) (s : Status) :
    RunStatusIs R db (runStatus s) ↔ σ.status = s := by
  obtain ⟨run, hrow, -, -, hstatus⟩ := h.run
  constructor
  · rintro ⟨run', hrow', hs⟩
    rw [hrow] at hrow'
    cases hrow'
    exact runStatus_injective (hstatus.symm.trans hs)
  · rintro rfl
    exact ⟨run, hrow, hstatus⟩

theorem Represents.hasStatus (h : Represents R db σ) {step : Step} (hs : step ∈ R.steps)
    (p : Phase) : HasStatus R db step.id (phaseStatus p) ↔ σ.phase step.id = p := by
  constructor
  · rintro ⟨i, e, he, hr, hstep, hstatus⟩
    obtain ⟨step', -, hstep', hstatus'⟩ := h.owned i e he hr
    rw [← hstep', hstep] at hstatus'
    exact phaseStatus_injective (hstatus'.symm.trans hstatus)
  · rintro rfl
    obtain ⟨i, e, he, hr, hstep⟩ := h.present step hs
    obtain ⟨step', -, hstep', hstatus⟩ := h.owned i e he hr
    rw [← hstep', hstep] at hstatus
    exact ⟨i, e, he, hr, hstep, hstatus⟩

theorem Represents.recorded (h : Represents R db σ) (id : String) :
    Recorded R db id ↔ (σ.output id).isSome := by
  rw [Recorded, h.outputs]

theorem SubmittedRun.deps_eq (R : SubmittedRun) {step : Step} (hs : step ∈ R.steps) :
    R.graph.deps step.id = computeStepDependencies step := dependencyGraph_deps R.ids_nodup hs

theorem SubmittedRun.mem_nodes (R : SubmittedRun) {step : Step} (hs : step ∈ R.steps) :
    step.id ∈ R.graph.nodes := List.mem_map_of_mem hs

theorem Represents.runInvariant (h : Represents R db σ) (hc : Consistent R.graph admits σ) :
    RunInvariant R db where
  exists_status := ⟨_, (h.runStatusIs σ.status).mpr rfl⟩
  exists_execution := by
    intro step hs
    obtain ⟨i, e, he, hr, hstep⟩ := h.present step hs
    refine ⟨i, ⟨e, he, hr, hstep⟩, ?_⟩
    rintro j ⟨e', he', hr', hstep'⟩
    exact h.unique j i e' e he' he hr' hr (hstep'.trans hstep.symm)
  of_step := by
    intro i e he hr
    obtain ⟨step, hs, hstep, -⟩ := h.owned i e he hr
    exact ⟨step, hs, hstep⟩
  blocked := by
    intro hrun step hs
    have hblocked := hc.blocked ((h.runStatusIs .running).mp hrun) _ (R.mem_nodes hs)
    rw [R.deps_eq hs] at hblocked
    simp only [h.recorded, Bool.not_eq_true, Option.isSome_eq_false_iff, Option.isNone_iff_eq_none]
    exact (h.hasStatus hs .blocked).trans hblocked
  done := by
    intro hrun step hs
    rw [h.recorded]
    exact (h.hasStatus hs .done).trans
      (hc.completed ((h.runStatusIs .running).mp hrun) _ (R.mem_nodes hs))
  queued := by
    intro hrun step hs
    have hunfailed := hc.unfailed ((h.runStatusIs .running).mp hrun) _ (R.mem_nodes hs)
    cases hp : σ.phase step.id with
    | blocked => exact .inl ((h.hasStatus hs .blocked).mpr hp)
    | done => exact .inr (.inl ((h.hasStatus hs .done).mpr hp))
    | queued => exact .inr (.inr ((h.hasStatus hs .queued).mpr hp))
    | failed => exact absurd hp hunfailed
  unfinished := by
    intro hrun
    obtain ⟨i, hi, hnone⟩ := hc.unfinished (by simp [(h.runStatusIs .running).mp hrun])
    obtain ⟨step, hs, rfl⟩ := List.mem_map.mp hi
    exact ⟨step, hs, by simp [h.recorded, hnone]⟩
  finished := by
    intro hrun step hs
    obtain ⟨hout, hphase⟩ := hc.finished ((h.runStatusIs .done).mp hrun) _ (R.mem_nodes hs)
    exact ⟨(h.recorded _).mpr hout, (h.hasStatus hs .done).mpr hphase⟩
  stopped := by
    intro hrun step hs
    rcases hc.stopped ((h.runStatusIs .failed).mp hrun) _ (R.mem_nodes hs) with hp | hp
    · exact .inl ((h.hasStatus hs .done).mpr hp)
    · exact .inr ((h.hasStatus hs .failed).mpr hp)

end

section
variable {n : ℕ} {deps : Fin n → WorkerDeps} {env : Op → Choice → Prop} {R : SubmittedRun}
variable {admits : String → JsonObject → Prop} {db : Db} {st st' : WorkerSystem n}

/-- Every state the workers can reach is sound for the run's protocol. -/
theorem reaches_sound (hsub : Submitted R db) (henv : ∀ op c, env op c → agentEnv admits op c)
    (hreach : platform.Reaches (runWorkers deps) env (Store.idle db) st) :
    (runProtocol R admits env).Sound (Keeping R admits) st :=
  Protocol.Sound.reaches (follows_runOnce deps henv)
    (Protocol.sound_idle ⟨initial R.graph, hsub.represents, consistent_initial⟩) hreach

theorem agentEnv_true (op : Op) (c : Choice) : agentEnv (fun _ _ => True) op c := by
  cases op with
  | fetch => exact fun _ _ _ _ _ => trivial
  | _ => trivial

/-- Some worker is about to report that an output was missing for a step of the
run. -/
def ReportsMissing (R : SubmittedRun) (st : WorkerSystem n) : Prop :=
  ∃ t level record event next ws ab err e, st.txns t = some ⟨.call (.log level record event) next,
    ws, ab⟩ ∧ record.err = some err ∧ err.isOutputMissing = true ∧
    st.db.executions.rows record.executionId = some e ∧ e.runId = some R.id

/-- The same of one worker, computed. -/
def reportsMissing (R : SubmittedRun) (st : WorkerSystem n) (t : Fin n) : Bool :=
  match st.txns t with
  | some ⟨.call (.log _ record _) _, _, _⟩ => record.err.any Failure.isOutputMissing &&
      (st.db.executions.rows record.executionId).any (·.runId = some R.id)
  | _ => false

theorem reportsMissing_sound {t : Fin n} (h : reportsMissing R st t = true) :
    ReportsMissing R st := by
  unfold reportsMissing at h
  split at h
  · rename_i level record event next ws ab ht
    rw [Bool.and_eq_true, Option.any_eq_true, Option.any_eq_true] at h
    obtain ⟨⟨err, herr, hmissing⟩, e, he, hrun⟩ := h
    exact ⟨t, level, record, event, next, ws, ab, err, e, ht, herr, hmissing, he, by simpa using hrun⟩
  · cases h

/-- An output of a step `__proto__` that is read has no falsy property of that
name. -/
def protoTruthy (R : SubmittedRun) (id : String) (output : JsonObject) : Prop :=
  id = "__proto__" → ReadsProto R → ∀ j, output.lookup "__proto__" = some j →
    (JsValue.json j).truthy = true

/-- The rows of the run keep the invariant; and no output is missing unless one
of a step `__proto__` hides itself. -/
theorem reaches_runInvariant (hsub : Submitted R db)
    (hreach : platform.Reaches (runWorkers deps) env (Store.idle db) st) :
    RunInvariant R st.db ∧
      ((∀ op c, env op c → agentEnv (protoTruthy R) op c) → ¬ ReportsMissing R st) := by
  constructor
  · obtain ⟨σ, hσ, hc⟩ := (reaches_sound hsub (fun op c _ => agentEnv_true op c) hreach).inv
    exact hσ.runInvariant hc
  · rintro henv ⟨t, level, record, event, next, ws, ab, err, e, ht, herr, hmissing, he, hrun⟩
    have hpre := (reaches_sound hsub henv hreach).pre ht (.inr rfl)
    have := hpre (fun hreads output j hadm hj => hadm rfl hreads j hj) e he hrun err herr
    rw [hmissing] at this
    cases this

end

/-- A complete answer that reports success. -/
def okAnswer (output : JsonObject) : FetchOutcome :=
  let body : Json := .obj [("status", .str "ok"), ("stdout", .str ""), ("stderr", .str ""),
    ("exitCode", .num .zero), ("output", .obj output)]
  .response 200 (.complete body.stringify (some (.ofJson body)))

/-- A complete answer that reports an error. -/
def errorAnswer : FetchOutcome :=
  let body : Json := .obj [("status", .str "error"), ("stdout", .str ""), ("stderr", .str ""),
    ("exitCode", .num .zero)]
  .response 200 (.complete body.stringify (some (.ofJson body)))

def workerDeps : WorkerDeps :=
  { agentBaseUrl := "http://agent", workerId := "worker", leaseSeconds := 30
    invokeTimeoutMs := 1000 }

/-- One worker's cycle without interruption, of so many operations. -/
def cycleLabels {n : ℕ} (t : Fin n) (calls : ℕ) (output : JsonObject) : List (Label n Choice) :=
  .begin t :: List.replicate calls (.call t { now := 0, answer := okAnswer output }) ++ [.finish t]

theorem readerRun_agentEnv (op : Op) (c : Choice) :
    agentEnv (protoTruthy (readerRun "first" rfl)) op c := by
  have hreads : ¬ ReadsProto (readerRun "first" rfl) := by
    simp [ReadsProto, readerRun, readerSteps]
  cases op with
  | fetch => exact fun _ _ _ _ _ _ h => absurd h hreads
  | _ => trivial

theorem reaches_runInvariant_reader : ∃ st : WorkerSystem 2,
    platform.steps (runWorkers fun _ => workerDeps) (Store.idle (readerDb "first"))
      (cycleLabels 0 9 []) = some st ∧
    RunInvariant (readerRun "first" rfl) st.db ∧ ¬ ReportsMissing (readerRun "first" rfl) st := by
  obtain ⟨st, hst⟩ := Option.isSome_iff_exists.mp (show (platform.steps (n := 2)
    (runWorkers fun _ => workerDeps) (Store.idle (readerDb "first"))
    (cycleLabels 0 9 [])).isSome = true from rfl)
  have h := reaches_runInvariant readerRun_submitted
    (platform.steps_reaches (fun op c => readerRun_agentEnv op c) hst)
  exact ⟨st, hst, h.1, h.2 fun _ _ henv => henv⟩

/-- The step `__proto__` answers `{"__proto__": null}`: its output is recorded,
and the next worker that resolves the reads of the other step misses it. -/
theorem proto_output_missing : ∃ st : WorkerSystem 1, Submitted (readerRun "__proto__" rfl)
      (readerDb "__proto__") ∧
    platform.Reaches (runWorkers fun _ => workerDeps) (fun _ _ => True)
      (Store.idle (readerDb "__proto__")) st ∧
    Recorded (readerRun "__proto__" rfl) st.db "__proto__" ∧
    ReportsMissing (readerRun "__proto__" rfl) st := by
  let labels : List (Label 1 Choice) := cycleLabels 0 9 [("__proto__", .null)] ++
    .begin 0 :: List.replicate 3 (.call 0 { now := 0 })
  have hrun : (platform.steps (runWorkers fun _ => workerDeps) (Store.idle (readerDb "__proto__"))
      labels).any (fun st => reportsMissing (readerRun "__proto__" rfl) st 0 &&
        ((st.db.runNodeOutputs 1).lookup "__proto__").isSome) = true := by decide
  obtain ⟨st, hst, hmissing⟩ := (Option.any_eq_true ..).mp hrun
  rw [Bool.and_eq_true] at hmissing
  exact ⟨st, protoRun_submitted, platform.steps_reaches (fun _ _ => trivial) hst, hmissing.2,
    reportsMissing_sound hmissing.1⟩

end WorkflowPlatform
