import WorkflowPlatform.RunView

/-!
# Submitting a run

The rows that `submitRun` commits are those of the initial state of `Dataflow`:
one execution for each step, queued if it depends on nothing. That the new run's
id belongs to no execution and no output yet is what the foreign keys say.
-/
namespace WorkflowPlatform
open Dataflow

/-- The execution `submitRun` enqueues for a step. -/
def stepExecution (runId : ℕ) (sessionId : String) (step : Step) : Execution :=
  { sessionId, step := step.id, runId := some runId
    status := if computeStepDependencies step = [] then .queued else .blocked }

def Db.enqueued (db : Db) (runId : ℕ) (sessionId : String) : List Step → Db
  | [] => db
  | step :: rest => (db.write (.insertExecution db.executions.next
      (stepExecution runId sessionId step))).enqueued runId sessionId rest

section
variable {db V : Db} {s' : Session Write} {runId : ℕ} {sessionId : String} {steps : List Step}

@[simp] theorem Db.enqueued_runs : (V.enqueued runId sessionId steps).runs = V.runs := by
  induction steps generalizing V with
  | nil => rfl
  | cons step rest ih => exact ih

@[simp] theorem Db.enqueued_outputs :
    (V.enqueued runId sessionId steps).runNodeOutputs = V.runNodeOutputs := by
  induction steps generalizing V with
  | nil => rfl
  | cons step rest ih => exact ih

/-- New executions get consecutive ids, in the order of the steps. -/
theorem Db.enqueued_rows (i : ℕ) : (V.enqueued runId sessionId steps).executions.rows i =
    if V.executions.next ≤ i then
      (steps[i - V.executions.next]?).map (stepExecution runId sessionId)
    else V.executions.rows i := by
  induction steps generalizing V with
  | nil =>
      split_ifs with h
      · rw [List.getElem?_nil]
        exact V.executions.fresh i h
      · rfl
  | cons step rest ih =>
      rw [enqueued, ih]
      have hnext : (V.write (.insertExecution V.executions.next
          (stepExecution runId sessionId step))).executions.next = V.executions.next + 1 := by
        simp [write, Table.insertAt]
      rw [hnext]
      by_cases hi : i = V.executions.next
      · subst hi
        simp [write]
      · have hrow : (V.write (.insertExecution V.executions.next
            (stepExecution runId sessionId step))).executions.rows i = V.executions.rows i :=
          Table.insertAt_other _ _ hi
        rw [hrow]
        by_cases hlt : V.executions.next ≤ i
        · rw [if_pos hlt, if_pos (by omega),
            show i - V.executions.next = (i - (V.executions.next + 1)) + 1 by omega,
            List.getElem?_cons_succ]
        · rw [if_neg hlt, if_neg (by omega)]

theorem EvaluatesFrom.enqueueSteps {α : Type} {f : Unit → Tx α} {r : Except Failure α}
    (hrun : (V.runs.rows runId).isSome)
    (h : EvaluatesFrom db V (enqueueSteps runId sessionId steps >>= f) r s') :
    EvaluatesFrom db (V.enqueued runId sessionId steps) (f ()) r s' := by
  induction steps generalizing V with
  | nil => exact h
  | cons step rest ih =>
      simp only [WorkflowPlatform.enqueueSteps, ExecutionsRepo.enqueueForRun,
        Script.bind_assoc] at h
      have hins : ∀ c locked, V.respond c locked (.enqueueForRun (stepExecution runId sessionId
          step)) = some (some (V.executions.next, stepExecution runId sessionId step),
          [.insertExecution V.executions.next (stepExecution runId sessionId step)]) :=
        fun _ _ => by simp [Db.respond, stepExecution, hrun]
      exact ih (V := V.write _) hrun (EvaluatesFrom.query h hins)

/-- The rows `submitRun` leaves. -/
theorem EvaluatesFrom.submitRun {spec : WorkflowSpec} {input : JsonObject}
    {session : Option String} {r : ℕ × WorkflowRun}
    (h : EvaluatesFrom db V (submitRun spec input session) (.ok r) s') :
    ∃ steps label, assertPlainSteps spec = .ok steps ∧ r.1 = V.runs.next ∧
      s'.aborted = false ∧ platform.view db s'.writes =
        if steps = [] then
          (V.write (.insertRun V.runs.next { sessionId := session, spec, input })).runDone
            V.runs.next
        else (V.write (.insertRun V.runs.next { sessionId := session, spec, input })).enqueued
          V.runs.next label steps := by
  simp only [WorkflowPlatform.submitRun, WorkflowRunsRepo.create, WorkflowRunsRepo.markDone,
    Script.bind_assoc] at h
  cases hplain : assertPlainSteps spec with
  | error e =>
      rw [hplain] at h
      obtain ⟨hr, -⟩ := EvaluatesFrom.done h
      cases hr
  | ok steps =>
      rw [hplain] at h
      simp only [Script.lift_ok, Script.done_ok_bind] at h
      cases hnul : Json.fieldsHaveNul input with
      | true =>
          obtain ⟨hr, -⟩ := EvaluatesFrom.refused h fun _ _ => by simp [Db.respond, hnul]
          cases hr
      | false =>
          have hins : ∀ c locked, V.respond c locked
              (.insertRun { sessionId := session, spec, input }) =
              some (some (V.runs.next, { sessionId := session, spec, input }),
                [.insertRun V.runs.next { sessionId := session, spec, input }]) :=
            fun _ _ => by simp [Db.respond, hnul]
          have h₁ := EvaluatesFrom.query h hins
          simp only [Script.pure_eq, Script.done_ok_bind] at h₁
          by_cases hsteps : steps = []
          · rw [if_pos hsteps] at h₁
            have h₂ := EvaluatesFrom.query h₁ fun _ _ => rfl
            rw [Db.foldl_markRunDone] at h₂
            obtain ⟨hr, hab, hview⟩ := EvaluatesFrom.done h₂
            cases hr
            exact ⟨steps, "", rfl, rfl, hab, by rw [if_pos hsteps]; exact hview⟩
          · rw [if_neg hsteps] at h₁
            have h₂ := EvaluatesFrom.enqueueSteps (by simp [Db.write]) h₁
            obtain ⟨hr, hab, hview⟩ := EvaluatesFrom.done h₂
            cases hr
            exact ⟨steps, _, rfl, rfl, hab, by rw [if_neg hsteps]; exact hview⟩

end

/-- The state right after the run was submitted. -/
def Submitted (R : SubmittedRun) (db : Db) : Prop :=
  ∃ db₀ c locked session run, db₀.Valid ∧
    platform.transact c locked (submitRun R.spec R.input session) db₀ = (.ok (R.id, run), db)

/-- No row names the run yet. -/
structure Unused (R : SubmittedRun) (db : Db) : Prop where
  executions : ∀ i e, db.executions.rows i = some e → e.runId ≠ some R.id
  outputs : db.runNodeOutputs R.id = []

theorem Db.Valid.unused {R : SubmittedRun} {db : Db} (hvalid : db.Valid)
    (hfresh : db.runs.rows R.id = none) : Unused R db where
  executions := by
    intro i e he hr
    have hpresent := hvalid.run_fkey i e _ he hr
    simp [hfresh] at hpresent
  outputs := by
    by_contra hne
    have hpresent := hvalid.output_fkey _ hne
    simp [hfresh] at hpresent

section
variable {R : SubmittedRun} {db : Db}

/-- A run without steps is done at once. -/
theorem Unused.represents_done (h : Unused R db) (session : Option String) (hsteps : R.steps = []) :
    Represents R ((db.write (.insertRun R.id ⟨session, R.spec, R.input, .running⟩)).runDone R.id)
      (initial R.graph) where
  run := by
    have hnodes : R.graph.nodes = [] := by simp [SubmittedRun.graph, dependencyGraph, hsteps]
    refine ⟨⟨session, R.spec, R.input, .done⟩, ?_, rfl, rfl, ?_⟩
    · simp [Db.runDone, Db.write, Table.modify_same, WorkflowRun.setStatus]
    · simp [initial, hnodes, runStatus]
  owned := fun i e he hr => absurd hr (h.executions i e he)
  unique := fun i _ e _ he _ hr _ _ => absurd hr (h.executions i e he)
  present := by simp [hsteps]
  outputs := by simp [Db.runDone, Db.write, h.outputs, initial]

/-- The run's executions are those of its steps, in their order. -/
theorem Unused.enqueued_row (h : Unused R db) {run : WorkflowRun} {label : String} {i : ℕ}
    {e : Execution} (he : ((db.write (.insertRun R.id run)).enqueued
      R.id label R.steps).executions.rows i = some e) (hr : e.runId = some R.id) :
    ∃ step, R.steps[i - db.executions.next]? = some step ∧ db.executions.next ≤ i ∧
      e = stepExecution R.id label step := by
  rw [Db.enqueued_rows] at he
  split_ifs at he with hi
  · obtain ⟨step, hstep, rfl⟩ := Option.map_eq_some_iff.mp he
    exact ⟨step, hstep, hi, rfl⟩
  · exact absurd hr (h.executions i e he)

theorem Unused.represents_enqueued (h : Unused R db) (session : Option String) (label : String)
    (hsteps : R.steps ≠ []) :
    Represents R ((db.write (.insertRun R.id ⟨session, R.spec, R.input, .running⟩)).enqueued
      R.id label R.steps) (initial R.graph) where
  run := by
    have hnodes : R.graph.nodes ≠ [] := by
      simpa [SubmittedRun.graph, dependencyGraph] using hsteps
    refine ⟨⟨session, R.spec, R.input, .running⟩, by simp [Db.write], rfl, rfl, ?_⟩
    simp [initial, hnodes, runStatus]
  owned := by
    intro i e he hr
    obtain ⟨step, hstep, -, rfl⟩ := h.enqueued_row he hr
    have hs := List.mem_of_getElem? hstep
    refine ⟨step, hs, rfl, ?_⟩
    simp only [stepExecution, initial, SubmittedRun.graph, dependencyGraph_deps R.ids_nodup hs]
    split_ifs <;> rfl
  unique := by
    intro i j e e' he he' hr hr' hsame
    obtain ⟨step, hstep, hi, rfl⟩ := h.enqueued_row he hr
    obtain ⟨step', hstep', hj, rfl⟩ := h.enqueued_row he' hr'
    have hlt : i - db.executions.next < (R.steps.map (·.id)).length := by
      simpa using (List.getElem?_eq_some_iff.mp hstep).1
    have hsame' : (R.steps.map (·.id))[i - db.executions.next]? =
        (R.steps.map (·.id))[j - db.executions.next]? := by
      simp only [List.getElem?_map, hstep, hstep', Option.map_some]
      exact congrArg some hsame
    have hindex := (List.getElem?_inj hlt R.ids_nodup).mp hsame'
    omega
  present := by
    intro step hs
    obtain ⟨k, hk⟩ := List.mem_iff_getElem?.mp hs
    refine ⟨db.executions.next + k, stepExecution R.id label step, ?_, rfl, rfl⟩
    rw [Db.enqueued_rows]
    change (if db.executions.next ≤ db.executions.next + k then
      Option.map _ (R.steps[db.executions.next + k - db.executions.next]?) else _) = _
    rw [if_pos (Nat.le_add_right _ _), Nat.add_sub_cancel_left, hk]
    rfl
  outputs := by simp [Db.write, h.outputs, initial]

end

theorem Submitted.represents {R : SubmittedRun} {db : Db} (h : Submitted R db) :
    Represents R db (initial R.graph) := by
  obtain ⟨db₀, c, locked, session, run, hvalid, h⟩ := h
  obtain ⟨s, heval, rfl⟩ := platform.transact_ok h
  have hfrom : EvaluatesFrom db₀ db₀ (submitRun R.spec R.input session) (.ok (R.id, run)) s :=
    ⟨[], rfl, heval⟩
  obtain ⟨steps, label, hplain, hid, hab, hview⟩ := hfrom.submitRun
  obtain rfl : steps = R.steps := Except.ok.inj (hplain.symm.trans R.plain)
  dsimp only at hid
  have hunused : Unused R db₀ := hvalid.unused (db₀.runs.fresh _ (by omega))
  rw [hab, hview, ← hid]
  simp only [Bool.false_eq_true, if_false]
  split_ifs with hsteps
  · exact hunused.represents_done session hsteps
  · exact hunused.represents_enqueued session label hsteps

/-- A step and one that reads its output `v`. -/
def readerSteps (id : String) : List Step :=
  [{ id, service := "tool@sha256:aa", function := "run" },
   { id := "reader", service := "tool@sha256:aa", function := "run"
     reads := some [("x", .step id "v")] }]

def readerSpec (id : String) : WorkflowSpec :=
  { workflowSpecVersion := 1, name := "reader", steps := (readerSteps id).map .step
    outputs := some [("x", .step "reader" "w")] }

def readerRun (id : String) (h : assertPlainSteps (readerSpec id) = .ok (readerSteps id)) :
    SubmittedRun := ⟨1, readerSpec id, [], readerSteps id, h⟩

/-- The tables after the run has been submitted to an empty database. -/
def readerDb (id : String) : Db :=
  (platform.transact { now := 0 } (fun _ => false) (submitRun (readerSpec id) [] none) .empty).2

theorem readerRun_submitted : Submitted (readerRun "first" rfl) (readerDb "first") :=
  ⟨.empty, { now := 0 }, fun _ => false, none, ⟨none, readerSpec "first", [], .running⟩,
    Db.empty_valid, rfl⟩

theorem protoRun_submitted : Submitted (readerRun "__proto__" rfl) (readerDb "__proto__") :=
  ⟨.empty, { now := 0 }, fun _ => false, none, ⟨none, readerSpec "__proto__", [], .running⟩,
    Db.empty_valid, rfl⟩

/-- Two steps that depend on each other. -/
def cyclicSteps : List Step :=
  [{ id := "a", service := "tool@sha256:aa", function := "run", dependsOn := some ["b"] },
   { id := "b", service := "tool@sha256:aa", function := "run", dependsOn := some ["a"] }]

def cyclicSpec : WorkflowSpec :=
  { workflowSpecVersion := 1, name := "cyclic", steps := cyclicSteps.map .step }

def cyclicRun : SubmittedRun := ⟨1, cyclicSpec, [], cyclicSteps, rfl⟩

def cyclicDb : Db :=
  (platform.transact { now := 0 } (fun _ => false) (submitRun cyclicSpec [] none) .empty).2

theorem cyclicRun_submitted : Submitted cyclicRun cyclicDb :=
  ⟨.empty, { now := 0 }, fun _ => false, none, ⟨none, cyclicSpec, [], .running⟩,
    Db.empty_valid, rfl⟩

end WorkflowPlatform
