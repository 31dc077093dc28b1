import WorkflowPlatform.Failures
import WorkflowPlatform.StepReads

/-!
# Work on a claimed execution of the run

However the step, the agent and the store behave, the work on a claimed
execution either commits one step of the run or gives the claim up.
-/
namespace WorkflowPlatform
open Dataflow

/-- What the agent may answer: outputs that the step may have, as far as the store
takes them. -/
def agentEnv (admits : String → JsonObject → Prop) (op : Op) (c : Choice) : Prop :=
  match op with
  | .fetch url _ body _ => ∀ response output, readResponse url c.answer = .ok response →
      readDispatch response = .ok (.ok output) → ParsedJson.fieldsRefused output = false →
        admits body.stepId (ParsedJson.storedFields output)
  | _ => True

/-- How the work on a claimed execution ends: with a step of the run, or with an
error and the claim still the only write. -/
def Processed (R : SubmittedRun) (admits : String → JsonObject → Prop) (id : ℕ) (e : Execution)
    (r : Except Failure Bool) (ws : List Write) (db : Db) : Prop :=
  match r with
  | .ok _ => Commits R admits ws db
  | .error err => Claimed R id e ws db ∧ (ProtoVisible R admits → err.isOutputMissing = false)

section
variable {R : SubmittedRun} {admits : String → JsonObject → Prop} {env : Op → Choice → Prop}
variable {id : ℕ} {e : Execution} {ws : List Write} {db : Db}

/-- The row of the run as a claiming transaction sees it. -/
theorem Claimed.run_row (h : Claimed R id e ws db)
    (hinv : ∃ σ, Represents R db σ ∧ Consistent R.graph admits σ) :
    ∃ run, (platform.view db ws).runs.rows R.id = some run ∧ run.spec = R.spec ∧
      run.input = R.input := by
  obtain ⟨σ, hσ, -⟩ := hinv
  obtain ⟨run, hrow, hspec, hinput, -⟩ := hσ.run
  exact ⟨run, h.view.runs ▸ hrow, hspec, hinput⟩

/-- Completing the claimed step commits that completion. -/
theorem ensures_completeStep (hclaim : Claimed R id e ws db) {run : WorkflowRun}
    (hspec : run.spec = R.spec) {output : ParsedObject}
    (hadm : ParsedJson.fieldsRefused output = false →
      admits e.step (ParsedJson.storedFields output)) :
    (runProtocol R admits env).Ensures (fun ab r ws' db' => ab = false →
      r = .ok true ∧ Commits R admits ws' db') false
      (completeStep R.id run id e.step output >>= fun _ => pure true) ws db := by
  have hcalm : (completeStep R.id run id e.step output >>= fun _ => pure true).All
      (Calm R.id id) := Script.all_bind (tame_completeStep R.id id _ _ _).all fun _ => trivial
  refine ensures_step hclaim (.inl rfl) hcalm fun d r s' hinv hd heval hab => ?_
  obtain ⟨row, hrow, -⟩ := hd.run_row hinv
  have hplain : assertPlainSteps run.spec = .ok R.steps := hspec ▸ R.plain
  change EvaluatesFrom d _ ((completeStep R.id run id e.step output >>= fun _ => pure true) >>=
    pure) r s' at heval
  rw [Script.bind_assoc] at heval
  rcases EvaluatesFrom.completeStep (by rw [hrow]; rfl) hplain heval with
    ⟨-, -, rfl⟩ | ⟨haccept, hdone⟩
  · cases hab
  · obtain ⟨hr, -, hview⟩ := EvaluatesFrom.done hdone
    refine ⟨hr, fun σ hσ hc => ?_⟩
    obtain ⟨hnode, hrunning, hqueued⟩ := hσ.queued hc hd.row hd.run hd.queued
    refine ⟨_, ?_, .complete e.step _ hrunning hnode hqueued (hadm haccept)⟩
    rw [hview]
    exact hσ.completed hc hd.view hd.row hd.run hd.queued _

/-- Failing the run commits that failure. -/
theorem ensures_failRun (hclaim : Claimed R id e ws db) :
    (runProtocol R admits env).Ensures (fun ab r ws' db' => ab = false →
      r = .ok true ∧ Commits R admits ws' db') false
      (failRun R.id id >>= fun _ => pure true) ws db := by
  have hcalm : (failRun R.id id >>= fun _ => pure true).All (Calm R.id id) :=
    Script.all_bind (tame_failRun R.id id).all fun _ => trivial
  refine ensures_step hclaim (.inr rfl) hcalm fun d r s' hinv hd heval hab => ?_
  change EvaluatesFrom d _ ((failRun R.id id >>= fun _ => pure true) >>= pure) r s' at heval
  rw [Script.bind_assoc] at heval
  obtain ⟨hr, -, hview⟩ := EvaluatesFrom.done (EvaluatesFrom.failRun heval)
  refine ⟨hr, fun σ hσ hc => ?_⟩
  obtain ⟨hnode, hrunning, hqueued⟩ := hσ.queued hc hd.row hd.run hd.queued
  refine ⟨_, ?_, .fail e.step hrunning hnode hqueued⟩
  rw [hview]
  exact hσ.runFailed hd.view hd.row hd.run

/-- The step of a claimed execution, and what it depends on. -/
theorem Claimed.step (h : Claimed R id e ws db) {σ : RunState String JsonObject}
    (hσ : Represents R db σ) (hc : Consistent R.graph admits σ) :
    ∃ step ∈ R.steps, e.step = step.id ∧
      ∀ i ∈ computeStepDependencies step, (σ.output i).isSome := by
  obtain ⟨step, hs, hstep, -⟩ := hσ.owned id e h.row h.run
  obtain ⟨hnode, hrunning, hqueued⟩ := hσ.queued hc h.row h.run h.queued
  refine ⟨step, hs, hstep, fun i hi => (hc.queued hrunning hnode hqueued).2 i ?_⟩
  rw [hstep, SubmittedRun.graph, dependencyGraph_deps R.ids_nodup hs]
  exact hi

theorem findRunStepNode_eq {run : WorkflowRun} (hspec : run.spec = R.spec) {step : Step}
    (hs : step ∈ R.steps) : findRunStepNode run step.id = .ok step := by
  unfold findRunStepNode
  rw [hspec, R.plain]
  change findStepNode R.steps step.id = _
  rw [findStepNode, find_step R.ids_nodup hs]

/-- Every dependency being recorded, a missing output is one of `__proto__`. -/
theorem resolveBindings_notMissing {input : JsonObject} {step : Step} (hs : step ∈ R.steps)
    {out : String → Option JsonObject} (hout : ∀ i o, out i = some o → admits i o)
    (hdeps : ∀ i ∈ computeStepDependencies step, (out i).isSome) {err : Failure}
    (h : resolveBindings { input, nodeOutputs := gather out (computeStepDependencies step) {} }
      (step.reads.getD []) = .error err) (hproto : ProtoVisible R admits) :
    err.isOutputMissing = false := by
  rcases raises_resolveBindings _ _ err h with hstep | ⟨key, i, output, hmem, hfalsy, rfl⟩
  · exact hstep.notMissing
  · have hdep := mem_dependencies_of_read hmem
    obtain ⟨o, ho⟩ := Option.isSome_iff_exists.mp (hdeps i hdep)
    rw [gather_get ho hdep, readBack] at hfalsy
    split at hfalsy
    · rename_i j hj
      split_ifs at hj with hi
      · subst hi
        rw [hproto ⟨step, hs, key, output, hmem⟩ o j (hout _ _ ho) hj] at hfalsy
        cases hfalsy
    · cases hfalsy

theorem Claimed.fetch_pre (h : Claimed R id e ws db) {url : String} {auth : Option String}
    {body : InvokeRequest} {timeoutMs : ℕ} (hbody : body.executionId = Nat.repr id) :
    (runProtocol R admits env).pre (.fetch url auth body timeoutMs) ws db := by
  intro i f hf _ hi
  obtain rfl : i = id := natRepr_injective (hi.symm.trans hbody)
  rw [h.row] at hf
  cases hf
  exact h.queued

theorem ensures_error (hclaim : Claimed R id e ws db) {err : Failure}
    (herr : ProtoVisible R admits → err.isOutputMissing = false) :
    (runProtocol R admits env).Ensures (fun ab r ws' db' => ab = false →
      Processed R admits id e r ws' db') false (.done (.error err)) ws db :=
  fun _ _ hr _ => ⟨hclaim.of_rely hr, herr⟩

/-- A reported failure fails the run. -/
theorem ensures_reported (hclaim : Claimed R id e ws db) (nodeId : String)
    (reported : ParsedJson) :
    (runProtocol R admits env).Ensures (fun ab r ws' db' => ab = false →
      Processed R admits id e r ws' db') false (do
        let record ← Script.lift (reportedFailure id nodeId reported)
        query (.log .error record LOG_EVENT_RUN_ONCE_TERMINAL_FAILURE)
        failRun R.id id
        pure true) ws db := by
  cases hrec : reportedFailure id nodeId reported with
  | error err => exact ensures_error hclaim fun _ =>
      (raises_reportedFailure _ _ _ err hrec).notMissing
  | ok record =>
      refine Protocol.ensures_query _ (fun _ _ hab => by cases hab) fun d₁ _ hr₁ => ⟨?_, ?_⟩
      · intro _ _ _ _ err herr
        rw [(reportedFailure_record hrec).2] at herr
        cases herr
      · intro c locked _ ws₁ _ hresp
        obtain ⟨-, rfl⟩ := Prod.mk.inj (Option.some.inj hresp)
        rw [List.append_nil]
        refine (ensures_failRun (hclaim.of_rely hr₁)).mono _ ?_
        intro ab r ws₂ d₂ _ hpost hab
        obtain ⟨rfl, hcommit⟩ := hpost hab
        exact hcommit

/-- The response decides: an output completes the step, a reported failure fails
the run, anything else is an error. -/
theorem ensures_processExecution (henv : ∀ op c, env op c → agentEnv admits op c)
    (hinv : (runProtocol R admits env).inv db) (hclaim : Claimed R id e ws db) {run : WorkflowRun}
    (hspec : run.spec = R.spec) {execution : Execution} (hexec : execution.step = e.step)
    (deps : WorkerDeps) :
    (runProtocol R admits env).Ensures (fun ab r ws' db' => ab = false →
      Processed R admits id e r ws' db') false
      (processExecution deps R.id run id execution) ws db := by
  obtain ⟨σ, hσ, hc⟩ := hinv
  obtain ⟨step, hs, hstep, hdeps⟩ := hclaim.step hσ hc
  simp only [processExecution, hexec, hstep, findRunStepNode_eq hspec hs, Script.lift_ok,
    Script.done_ok_bind]
  refine (ensures_resolveStepReads ⟨σ, hσ, hc⟩ hσ hc hclaim hdeps
    ((runProtocol R admits env).rely_refl ws db)).bind ⟨σ, hσ, hc⟩
    (straight_resolveStepReads R.id _ _) (fun _ _ _ hab => by cases hab) ?_ ?_
  · rintro input ws' d hd ⟨-, rfl, hr⟩
    have hclaimed : Claimed R id e ws' d := hclaim.of_rely hr
    simp only [dispatchStep, invoke, postJson, Script.bind_assoc]
    cases hreq : buildInvokeRequest _ with
    | error err => exact ensures_error hclaimed fun _ =>
        (raises_buildInvokeRequest _ err hreq).notMissing
    | ok request =>
        obtain ⟨hexecutionId, hstepId⟩ := buildInvokeRequest_ids hreq
        refine Protocol.ensures_query _ (fun _ _ hab => by cases hab) fun d' _ hr' => ?_
        have hclaimed' : Claimed R id e ws' d' := hclaimed.of_rely hr'
        refine ⟨hclaimed'.fetch_pre hexecutionId, ?_⟩
        intro c locked outcome ws'' hc' hresp
        obtain ⟨rfl, rfl⟩ := Prod.mk.inj (Option.some.inj hresp)
        rw [List.append_nil]
        cases hread : readResponse _ c.answer with
        | error err =>
            refine ensures_error hclaimed' fun _ => ?_
            rcases raises_readResponse _ _ err hread with h | h
            · exact h.notMissing
            · cases err <;> first | rfl | cases h
        | ok response =>
            simp only [Script.lift_ok, Script.done_ok_bind]
            cases hdispatch : readDispatch response with
            | error err => exact ensures_error hclaimed' fun _ =>
                (raises_readDispatch _ err hdispatch).notMissing
            | ok result =>
                simp only [Script.lift_ok, Script.done_ok_bind]
                cases result with
                | ok output =>
                    have hadm : ParsedJson.fieldsRefused output = false →
                        admits e.step (ParsedJson.storedFields output) := by
                      have := henv _ _ hc' response output hread hdispatch
                      rwa [hstepId, ← hstep] at this
                    dsimp only
                    rw [← hstep]
                    refine (ensures_completeStep hclaimed' hspec hadm).mono _ ?_
                    intro ab r ws₁ d₁ _ hpost hab
                    obtain ⟨rfl, hcommit⟩ := hpost hab
                    exact hcommit
                | failed reported => exact ensures_reported hclaimed' step.id reported
  · rintro err ws' d _ ⟨herr, rfl, hr⟩ _
    exact ⟨hclaim.of_rely hr, fun hproto =>
      resolveBindings_notMissing hs hc.admitted hdeps herr.symm hproto⟩

/-- The handler logs the error and either gives the claim up or fails the run. -/
theorem ensures_handleFailure (hclaim : Claimed R id e ws db) {err : Failure}
    (herr : ProtoVisible R admits → err.isOutputMissing = false) :
    (runProtocol R admits env).Ensures (Keeping R admits) false
      (handleFailure R.id id err) ws db := by
  have hpre : ∀ level event ws d,
      (runProtocol R admits env).pre (.log level { executionId := id, err } event) ws d := by
    rintro level event ws d hproto _ _ _ _ ⟨⟩
    exact herr hproto
  unfold handleFailure
  split_ifs
  · refine Protocol.ensures_query _ (fun _ _ hab => by cases hab) fun d _ _ => ⟨hpre _ _ _ d, ?_⟩
    intro c locked _ ws' _ _ d' _ _ _ a ha
    cases ha
  · refine Protocol.ensures_query _ (fun _ _ hab => by cases hab) fun d _ hr => ⟨hpre _ _ _ d, ?_⟩
    intro c locked _ ws' _ hresp
    obtain ⟨-, rfl⟩ := Prod.mk.inj (Option.some.inj hresp)
    rw [List.append_nil]
    refine (ensures_failRun (hclaim.of_rely hr)).mono _ ?_
    intro ab r ws₁ d₁ _ hpost hab a _
    exact (hpost hab).2

/-- After a refused statement the handler can only log. -/
theorem ensures_handleRefused :
    (runProtocol R admits env).Ensures (Keeping R admits) true
      (handleFailure R.id id .database) ws db := by
  refine Protocol.ensures_aborted _ ?_ fun _ _ _ _ hab => by cases hab
  refine ⟨?_, fun _ => Script.all_bind trivial fun _ => Script.all_bind ?_ fun _ => trivial⟩
  · rintro _ _ _ _ _ _ _ _ err ⟨⟩
    rfl
  · exact (tame_failRun R.id id).all.mono fun op hop _ ws db hinv =>
      (freezes R admits env id).pre op hop ws db hinv

/-- The work on a claimed execution of the run. -/
theorem ensures_claimed (henv : ∀ op c, env op c → agentEnv admits op c)
    (hinv : (runProtocol R admits env).inv db) (hclaim : Claimed R id e ws db) {run : WorkflowRun}
    (hspec : run.spec = R.spec) {execution : Execution} (hexec : execution.step = e.step)
    (deps : WorkerDeps) :
    (runProtocol R admits env).Ensures (Keeping R admits) false
      ((processExecution deps R.id run id execution).tryCatch (handleFailure R.id id)) ws db := by
  refine Protocol.ensures_tryCatch _ hinv (((ensures_processExecution henv hinv hclaim hspec hexec
    deps).straight (tame_processExecution R.id id _ _ _).straight).mono _ ?_)
  rintro ab r ws' d _ (⟨rfl, rfl⟩ | ⟨rfl, hpost⟩)
  · exact ensures_handleRefused
  · cases r with
    | ok a => exact fun _ _ _ => hpost
    | error err => exact ensures_handleFailure hpost.1 hpost.2

end

end WorkflowPlatform
