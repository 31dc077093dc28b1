import WorkflowPlatform.RunInvariant

/-!
# A run computes its reference evaluation

What a specification means is one pass over its steps in topological order. Any
number of workers that dispatch by a function of the step and its resolved reads
record exactly those outputs, in whatever order they get to them and however
often they start over, and `getRunResult` returns the outputs resolved against
them.

An output recorded under the id `__proto__` is the exception: it is assigned to
the prototype of the object the bindings read from, where a property of that
name of its own hides it.
-/
namespace WorkflowPlatform
open Dataflow

/-- A worker's dispatch: the output of a step for its resolved reads. -/
abbrev DispatchFn := Step → List (String × JsValue) → JsonObject

/-- The value of a binding, given the outputs of the steps. -/
def referenceBinding (input : JsonObject) (out : String → Option JsonObject) : Binding → JsValue
  | .literal value => .json value
  | .request param => JsValue.field input param
  | .step id output => match out id with
      | some o => JsValue.field o output
      | none => .undefined
  | _ => .undefined

def referenceBindings (input : JsonObject) (out : String → Option JsonObject)
    (bindings : List (String × Binding)) : List (String × JsValue) :=
  bindings.map fun p => (p.1, referenceBinding input out p.2)

def referenceStep (R : SubmittedRun) (dispatch : DispatchFn) (id : String)
    (out : String → Option JsonObject) : JsonObject :=
  match R.steps.find? (·.id = id) with
  | some step => dispatch step (referenceBindings R.input out (step.reads.getD []))
  | none => []

/-- The reference evaluation of the specification. -/
def reference (R : SubmittedRun) (dispatch : DispatchFn) : String → Option JsonObject :=
  DependencyGraph.evaluate (referenceStep R dispatch) R.graph.topologicalOrder fun _ => none

/-- A `request`, `step` or `literal` binding. -/
def Binding.simple : Binding → Bool
  | .literal _ => true
  | .request _ => true
  | .step .. => true
  | _ => false

/-- The specifications the interpreter can run to the end. -/
structure Runnable (R : SubmittedRun) : Prop where
  closed : R.graph.Closed
  acyclic : R.graph.Acyclic
  reads : ∀ step ∈ R.steps, ∀ p ∈ step.reads.getD [], p.2.simple = true
  outputs : ∀ p ∈ R.spec.outputs.getD [], p.2.simple = true
  outputs_closed : ∀ key id output, (key, Binding.step id output) ∈ R.spec.outputs.getD [] →
    id ∈ R.graph.nodes

/-- Some `step` binding of a read or of an output names the id. -/
def BindsStep (R : SubmittedRun) (id : String) : Prop :=
  ∃ key output, (key, Binding.step id output) ∈ R.spec.outputs.getD [] ∨
    ∃ step ∈ R.steps, (key, Binding.step id output) ∈ step.reads.getD []

/-- An output of a step `__proto__` that some binding reads has no property of
that name. -/
def ProtoClear (R : SubmittedRun) (dispatch : DispatchFn) : Prop :=
  BindsStep R "__proto__" → ∀ output, reference R dispatch "__proto__" = some output →
    output.lookup "__proto__" = none

section
variable {R : SubmittedRun} {dispatch : DispatchFn}

theorem referenceStep_eq (R : SubmittedRun) (dispatch : DispatchFn) {step : Step}
    (hs : step ∈ R.steps) (out : String → Option JsonObject) :
    referenceStep R dispatch step.id out =
      dispatch step (referenceBindings R.input out (step.reads.getD [])) := by
  simp only [referenceStep, find_step R.ids_nodup hs]

/-- A step's reference value only looks at its dependencies. -/
theorem referenceStep_congr (id : String) (out out' : String → Option JsonObject)
    (h : ∀ d ∈ R.graph.deps id, out d = out' d) :
    referenceStep R dispatch id out = referenceStep R dispatch id out' := by
  unfold referenceStep
  cases hfind : R.steps.find? (·.id = id) with
  | none => rfl
  | some step =>
      have hdeps : R.graph.deps id = computeStepDependencies step := by
        simp only [SubmittedRun.graph, dependencyGraph, hfind]
      rw [hdeps] at h
      refine congrArg (dispatch step) (List.map_congr_left fun p hp => ?_)
      obtain ⟨key, binding⟩ := p
      cases binding with
      | step i output => simp only [referenceBinding, h i (mem_dependencies_of_read hp)]
      | _ => rfl

/-- The reference evaluation solves the equations of the steps. -/
theorem reference_eq (hR : Runnable R) {step : Step} (hs : step ∈ R.steps) :
    reference R dispatch step.id =
      some (dispatch step (referenceBindings R.input (reference R dispatch)
        (step.reads.getD []))) := by
  obtain ⟨hperm, hordered⟩ := R.graph.topologicalOrder_spec hR.acyclic hR.closed
  rw [← referenceStep_eq R dispatch hs]
  exact R.graph.evaluate_eq referenceStep_congr hordered (hperm.nodup_iff.mpr R.ids_nodup)
    (by simp) _ (hperm.mem_iff.mpr (R.mem_nodes hs))

theorem readBack_of_clear {id : String} {output : JsonObject}
    (h : id = "__proto__" → output.lookup "__proto__" = none) :
    readBack id output = .json (.obj output) := by
  by_cases hid : id = "__proto__"
  · simp only [readBack, hid, if_true, h hid]
  · simp only [readBack, hid, if_false]

/-- Bindings are resolved to their reference values wherever the outputs they
name are the reference outputs. -/
theorem resolveBindings_reference {input : JsonObject} {out ref : String → Option JsonObject}
    {ids : List String} {bindings : List (String × Binding)}
    (hsimple : ∀ p ∈ bindings, p.2.simple = true)
    (hids : ∀ key id output, (key, Binding.step id output) ∈ bindings → id ∈ ids)
    (hout : ∀ id ∈ ids, ∃ o, out id = some o ∧ ref id = some o)
    (hclear : ∀ key output o, (key, Binding.step "__proto__" output) ∈ bindings →
      ref "__proto__" = some o → o.lookup "__proto__" = none) :
    resolveBindings { input, nodeOutputs := gather out ids {} } bindings =
      .ok (referenceBindings input ref bindings) := by
  induction bindings with
  | nil => rfl
  | cons p rest ih =>
      obtain ⟨key, binding⟩ := p
      have hvalue : resolveBinding binding { input, nodeOutputs := gather out ids {} } =
          .ok (referenceBinding input ref binding) := by
        have hb := hsimple _ List.mem_cons_self
        cases binding with
        | literal | request => rfl
        | step id output =>
            obtain ⟨o, ho, hr⟩ := hout id (hids key id output List.mem_cons_self)
            have hread : readBack id o = .json (.obj o) := readBack_of_clear fun hid =>
              hclear key output o (hid ▸ List.mem_cons_self) (hid ▸ hr)
            simp only [resolveBinding, gather_get ho (hids key id output List.mem_cons_self),
              hread, readOutput, JsValue.truthy, if_true, JsValue.property, referenceBinding, hr]
        | _ => cases hb
      have hrest := ih (fun p hp => hsimple p (List.mem_cons_of_mem _ hp))
        (fun key id output hp => hids key id output (List.mem_cons_of_mem _ hp))
        (fun key output o hp => hclear key output o (List.mem_cons_of_mem _ hp))
      rw [resolveBindings, hvalue]
      change (resolveBindings _ rest >>= fun values => _) = _
      rw [hrest]
      rfl

end

/-- Resolve the reads of a claimed execution, dispatch and complete. -/
def dispatchExecution (dispatch : DispatchFn) (runId : ℕ) (run : WorkflowRun) (executionId : ℕ)
    (execution : Execution) : Tx Bool := do
  let node ← Script.lift (findRunStepNode run execution.step)
  let resolvedInput ← resolveStepReads runId run node
  completeStep runId run executionId node.id (ParsedJson.ofFields (dispatch node resolvedInput))
  pure true

/-- One cycle of a worker that dispatches by a function. -/
def dispatchCycle (deps : WorkerDeps) (dispatch : DispatchFn) : Tx Bool :=
  cycle deps (dispatchExecution dispatch)

section
variable {n : ℕ} {R : SubmittedRun} {dispatch : DispatchFn} {env : Op → Choice → Prop}

/-- The outputs the steps may have are the reference outputs. -/
def isReference (R : SubmittedRun) (dispatch : DispatchFn) (id : String) (output : JsonObject) :
    Prop := reference R dispatch id = some output

theorem tame_dispatchExecution (runId : ℕ) (run : WorkflowRun) (id : ℕ) (execution : Execution) :
    (dispatchExecution dispatch runId run id execution).Tame (Calm runId id) .database :=
  Script.Tame.bind (Script.tame_done _ _ _) fun _ =>
    (tame_resolveStepReads runId (fun _ => rfl) _ _).bind fun _ =>
    (tame_completeStep runId id _ _ _).bind fun _ => Script.tame_done _ _ _

theorem ensures_dispatchExecution (hR : Runnable R) (hclear : ProtoClear R dispatch) {id : ℕ}
    {e : Execution} {ws : List Write} {db : Db}
    (hinv : (runProtocol R (isReference R dispatch) env).inv db) (hclaim : Claimed R id e ws db)
    {run : WorkflowRun} (hspec : run.spec = R.spec) (hinput : run.input = R.input)
    {execution : Execution} (hexec : execution.step = e.step) :
    (runProtocol R (isReference R dispatch) env).Ensures (Keeping R (isReference R dispatch)) false
      (dispatchExecution dispatch R.id run id execution) ws db := by
  obtain ⟨σ, hσ, hc⟩ := hinv
  obtain ⟨step, hs, hstep, hdeps⟩ := hclaim.step hσ hc
  have hreads : resolveBindings
      { input := run.input, nodeOutputs := gather σ.output (computeStepDependencies step) {} }
      (step.reads.getD []) =
      .ok (referenceBindings R.input (reference R dispatch) (step.reads.getD [])) := by
    rw [hinput]
    refine resolveBindings_reference (hR.reads step hs)
      (fun key i output hmem => mem_dependencies_of_read hmem) (fun i hi => ?_)
      (fun key output o hmem ho => hclear ⟨key, output, .inr ⟨step, hs, hmem⟩⟩ o ho)
    obtain ⟨o, ho⟩ := Option.isSome_iff_exists.mp (hdeps i hi)
    exact ⟨o, ho, hc.admitted i o ho⟩
  simp only [dispatchExecution, hexec, hstep, findRunStepNode_eq hspec hs, Script.lift_ok,
    Script.done_ok_bind]
  refine (ensures_resolveStepReads ⟨σ, hσ, hc⟩ hσ hc hclaim hdeps
    ((runProtocol R (isReference R dispatch) env).rely_refl ws db)).bind ⟨σ, hσ, hc⟩
    (straight_resolveStepReads R.id _ _) (fun _ _ _ hab => by cases hab) ?_ ?_
  · rintro input ws' d hd ⟨hinput', rfl, hr⟩
    rw [hreads] at hinput'
    obtain rfl := Except.ok.inj hinput'
    rw [← hstep]
    refine (ensures_completeStep (hclaim.of_rely hr) hspec ?_).mono _ ?_
    · intro _
      rw [isReference, hstep, ParsedJson.storedFields_ofFields]
      exact reference_eq hR hs
    · exact fun ab r ws₁ d₁ _ hpost hab _ _ => (hpost hab).2
  · rintro err ws' d _ ⟨herr, -⟩
    rw [hreads] at herr
    cases herr

theorem follows_dispatchCycle (hR : Runnable R) (hclear : ProtoClear R dispatch)
    (deps : Fin n → WorkerDeps) :
    (runProtocol R (isReference R dispatch) env).Follows (Keeping R (isReference R dispatch))
      fun t => dispatchCycle (deps t) dispatch :=
  follows_cycle
    (fun _ _ _ _ _ _ _ hinv hclaim hspec hinput hexec =>
      ensures_dispatchExecution hR hclear hinv hclaim hspec hinput hexec)
    (fun _ r run id execution =>
      (tame_dispatchExecution r run id execution).all.mono fun _ => Calm.ofExecution)

/-- The result of a finished run: its outputs are resolved against all that the run
has recorded. -/
theorem transact_getRunResult {db : Db} {run : WorkflowRun} {runId : ℕ}
    (hrow : db.runs.rows runId = some run) (hdone : run.status = .done) (c : Choice)
    (locked : Row → Bool) :
    platform.transact c locked (getRunResult runId) db =
      ((resolveBindings
        { input := run.input
          nodeOutputs := gather (fun id => (db.runNodeOutputs runId).lookup id)
            (db.completedIds runId) {} }
        (run.spec.outputs.getD [])).map fun outs => (.done, some outs), db) := by
  have hrun : (getRunResult runId).run (platform.handle c locked db) {} =
      ((resolveBindings
        { input := run.input
          nodeOutputs := gather (fun id => (db.runNodeOutputs runId).lookup id)
            (db.completedIds runId) {} }
        (run.spec.outputs.getD [])).map fun outs => (.done, some outs), {}) := by
    have hfind : (platform.view db []).respond c locked (.findRunById runId) =
        some (some run, []) := congrArg (fun row => some (row, [])) hrow
    rw [getRunResult, WorkflowRunsRepo.findById]
    refine (run_query hfind).trans ?_
    simp only [hdone, ne_eq, not_true, if_false]
    change (collectNodeOutputs runId (db.completedIds runId) {} >>= _).run
      (platform.handle c locked db) ⟨[], false⟩ = _
    rw [Script.run_bind, run_collectNodeOutputs]
    simp only [platform.view_nil]
    cases resolveBindings _ (run.spec.outputs.getD []) with
    | error e => rfl
    | ok outs => rfl
  rw [Store.transact, hrun]
  cases resolveBindings _ (run.spec.outputs.getD []) with
  | error e => rfl
  | ok outs => rfl

/-- In every reachable state the recorded outputs are reference outputs; in one
where the run is done all of them are there, and its result is the reference
result. -/
theorem reaches_reference (hR : Runnable R) (hclear : ProtoClear R dispatch) {db : Db}
    (hsub : Submitted R db) {deps : Fin n → WorkerDeps} {st : WorkerSystem n}
    (hreach : platform.Reaches (fun t => dispatchCycle (deps t) dispatch) env (Store.idle db) st) :
    (∀ id output, (st.db.runNodeOutputs R.id).lookup id = some output →
      reference R dispatch id = some output) ∧
    (RunStatusIs R st.db .done →
      (∀ step ∈ R.steps, ∃ output, (st.db.runNodeOutputs R.id).lookup step.id = some output ∧
        reference R dispatch step.id = some output) ∧
      ∀ c locked, platform.transact c locked (getRunResult R.id) st.db =
        (.ok (.done, some (referenceBindings R.input (reference R dispatch)
          (R.spec.outputs.getD []))), st.db)) := by
  have hsound := Protocol.Sound.reaches (follows_dispatchCycle hR hclear deps)
    (Protocol.sound_idle ⟨initial R.graph, hsub.represents, consistent_initial⟩) hreach
  obtain ⟨σ, hσ, hc⟩ := hsound.inv
  have hrecorded : ∀ id output, (st.db.runNodeOutputs R.id).lookup id = some output →
      reference R dispatch id = some output := by
    intro id output hid
    rw [hσ.outputs] at hid
    exact hc.admitted id output hid
  refine ⟨hrecorded, fun hdone => ?_⟩
  have hstatus : σ.status = .done := (hσ.runStatusIs .done).mp hdone
  have hall : ∀ id ∈ R.graph.nodes, ∃ output,
      (st.db.runNodeOutputs R.id).lookup id = some output ∧
        reference R dispatch id = some output := by
    intro id hid
    obtain ⟨output, hout⟩ := Option.isSome_iff_exists.mp (hc.finished hstatus id hid).1
    rw [← hσ.outputs] at hout
    exact ⟨output, hout, hrecorded id output hout⟩
  refine ⟨fun step hs => hall _ (R.mem_nodes hs), fun c locked => ?_⟩
  obtain ⟨run, hrow, hspec, hinput, hrunStatus⟩ := hσ.run
  have hresolved : resolveBindings
      { input := R.input
        nodeOutputs := gather (fun id => (st.db.runNodeOutputs R.id).lookup id)
          (st.db.completedIds R.id) {} }
      (R.spec.outputs.getD []) =
        .ok (referenceBindings R.input (reference R dispatch) (R.spec.outputs.getD [])) := by
    refine resolveBindings_reference hR.outputs (fun key id output hmem => ?_) (fun id hid => ?_)
      (fun key output o hmem ho => hclear ⟨key, output, .inl hmem⟩ o ho)
    · obtain ⟨o, ho, -⟩ := hall id (hR.outputs_closed key id output hmem)
      exact AssocList.lookup_isSome_iff.mp (by rw [ho]; rfl)
    · obtain ⟨o, ho⟩ := Option.isSome_iff_exists.mp (AssocList.lookup_isSome_iff.mpr hid)
      exact ⟨o, ho, hrecorded id o ho⟩
  rw [transact_getRunResult hrow (by rw [hrunStatus, hstatus]; rfl), hspec, hinput, hresolved]
  rfl

end

theorem runnable_reader (id : String) (h : assertPlainSteps (readerSpec id) = .ok (readerSteps id))
    (hid : id ≠ "reader") : Runnable (readerRun id h) := by
  have hdeps : ∀ a b, (readerRun id h).graph.Edge a b → a = id ∧ b = "reader" := by
    rintro a b ⟨-, hb, hab⟩
    have hb' : b = id ∨ b = "reader" := by
      simpa [readerRun, readerSteps, SubmittedRun.graph, dependencyGraph] using hb
    rcases hb' with rfl | rfl
    · simp [readerRun, readerSteps, SubmittedRun.graph, dependencyGraph, computeStepDependencies,
        collectStepReferenceIds, collectBindingMapIds] at hab
    · simp [readerRun, readerSteps, SubmittedRun.graph, dependencyGraph, hid,
        computeStepDependencies, collectStepReferenceIds, collectBindingMapIds,
        collectStepBindingIds] at hab
      exact ⟨hab, rfl⟩
  have htrans : ∀ a b, Relation.TransGen (readerRun id h).graph.Edge a b →
      a = id ∧ b = "reader" := by
    intro a b hab
    induction hab with
    | single hab => exact hdeps _ _ hab
    | tail _ hbc ih => exact ⟨ih.1, (hdeps _ _ hbc).2⟩
  refine ⟨?_, fun i hi => hid ?_, ?_, ?_, ?_⟩
  · intro i hi d hd
    have hi' : i = id ∨ i = "reader" := by
      simpa [readerRun, readerSteps, SubmittedRun.graph, dependencyGraph] using hi
    rcases hi' with rfl | rfl
    · simp [readerRun, readerSteps, SubmittedRun.graph, dependencyGraph, computeStepDependencies,
        collectStepReferenceIds, collectBindingMapIds] at hd
    · simp [readerRun, readerSteps, SubmittedRun.graph, dependencyGraph, hid,
        computeStepDependencies, collectStepReferenceIds, collectBindingMapIds,
        collectStepBindingIds] at hd
      simp [readerRun, readerSteps, SubmittedRun.graph, dependencyGraph, hd]
  · exact (htrans i i hi).1.symm.trans (htrans i i hi).2
  · simp [readerRun, readerSteps, Binding.simple]
  · simp [readerRun, readerSpec, Binding.simple]
  · intro key i output hmem
    obtain ⟨-, rfl, -⟩ : key = "x" ∧ i = "reader" ∧ output = "w" := by
      simpa [readerRun, readerSpec] using hmem
    simp [readerRun, readerSteps, SubmittedRun.graph, dependencyGraph]

/-- Passes on what it reads; without reads, an output with a property
`__proto__`. -/
def echoDispatch : DispatchFn := fun _ resolvedInput =>
  match resolvedInput with
  | [(_, .json value)] => [("w", value)]
  | _ => [("__proto__", .obj [("v", .str "hidden")]), ("v", .str "seen")]

/-- Two cycles of one worker, which finish a run of two steps. -/
def twoCycles : List (Label 1 Choice) :=
  .begin 0 :: List.replicate 8 (.call 0 { now := 0 }) ++ .finish 0 ::
    .begin 0 :: List.replicate 9 (.call 0 { now := 0 }) ++ [.finish 0]

/-- The text of the output `w`. -/
def echoed (output : Option JsonObject) : Option String :=
  match output.bind (·.lookup "w") with
  | some (.str s) => some s
  | _ => none

theorem reaches_reference_reader : ∃ st : WorkerSystem 1,
    platform.steps (fun _ => dispatchCycle workerDeps echoDispatch) (Store.idle (readerDb "first"))
      twoCycles = some st ∧
    ∀ c locked, platform.transact c locked (getRunResult 1) st.db =
      (.ok (.done, some (referenceBindings [] (reference (readerRun "first" rfl) echoDispatch)
        [("x", .step "reader" "w")])), st.db) := by
  have hrun : (platform.steps (fun _ => dispatchCycle workerDeps echoDispatch)
      (Store.idle (readerDb "first")) twoCycles).any
      (fun st => (st.db.runs.rows 1).any (·.status = .done)) = true := by decide
  obtain ⟨st, hst, hdone⟩ := (Option.any_eq_true ..).mp hrun
  obtain ⟨run, hrow, hstatus⟩ := (Option.any_eq_true ..).mp hdone
  have hclear : ProtoClear (readerRun "first" rfl) echoDispatch := by
    rintro ⟨key, output, hmem | ⟨step, hs, hmem⟩⟩
    · simp [readerRun, readerSpec] at hmem
    · simp [readerRun, readerSteps] at hs
      rcases hs with rfl | rfl <;> simp at hmem
  have hreach : platform.Reaches (fun _ => dispatchCycle workerDeps echoDispatch)
      (fun _ _ => True) _ st := platform.steps_reaches (fun _ _ => trivial) hst
  exact ⟨st, hst, ((reaches_reference (runnable_reader "first" rfl (by decide)) hclear
    readerRun_submitted hreach).2 ⟨run, hrow, by simpa using hstatus⟩).2⟩

/-- The step `__proto__` answers `{"__proto__": {"v": "hidden"}, "v": "seen"}`,
and what the other step reads as its `v` is the hidden one. -/
theorem proto_output_hidden : ∃ st : WorkerSystem 1,
    Submitted (readerRun "__proto__" rfl) (readerDb "__proto__") ∧
    Runnable (readerRun "__proto__" rfl) ∧
    platform.Reaches (fun _ => dispatchCycle workerDeps echoDispatch) (fun _ _ => True)
      (Store.idle (readerDb "__proto__")) st ∧
    RunStatusIs (readerRun "__proto__" rfl) st.db .done ∧
    (st.db.runNodeOutputs 1).lookup "reader" ≠
      reference (readerRun "__proto__" rfl) echoDispatch "reader" := by
  have hrun : (platform.steps (fun _ => dispatchCycle workerDeps echoDispatch)
      (Store.idle (readerDb "__proto__")) twoCycles).any
      (fun st => (st.db.runs.rows 1).any (·.status = .done) &&
        echoed ((st.db.runNodeOutputs 1).lookup "reader") = some "hidden") = true := by decide
  obtain ⟨st, hst, h⟩ := (Option.any_eq_true ..).mp hrun
  rw [Bool.and_eq_true, Option.any_eq_true] at h
  obtain ⟨⟨run, hrow, hstatus⟩, htext⟩ := h
  refine ⟨st, protoRun_submitted, runnable_reader "__proto__" rfl (by decide),
    platform.steps_reaches (fun _ _ => trivial) hst, ⟨run, hrow, by simpa using hstatus⟩, ?_⟩
  intro hsame
  rw [hsame] at htext
  have hreference : echoed (reference (readerRun "__proto__" rfl) echoDispatch "reader") =
      some "seen" := by decide
  rw [hreference] at htext
  exact absurd htext (by decide)

end WorkflowPlatform
