import WorkflowPlatform.Compile
import WorkflowPlatform.OwnProperties
import WorkflowPlatform.ScheduleIndependence

/-!
# The result of a compiled workflow

A run that is done has recorded an output for every step, and a document that
compiles binds its outputs to its steps. So whether the result can be read only
depends on the kinds of the bindings: three of them are supported, and the first
binding of any other kind is refused by name.
-/
namespace WorkflowPlatform

/-- Some output is bound to a step `__proto__` whose output has a falsy property
of that name of its own. -/
def OutputHidden (R : SubmittedRun) (db : Db) : Prop :=
  (∃ key output, (key, Binding.step "__proto__" output) ∈ R.spec.outputs.getD []) ∧
    ∃ fields j, (db.runNodeOutputs R.id).lookup "__proto__" = some fields ∧
      fields.lookup "__proto__" = some j ∧ (JsValue.json j).truthy = false

theorem JsValue.property_of_truthy {j : Json} (h : (JsValue.json j).truthy = true) (key : String) :
    ∃ v, (JsValue.json j).property key = some v := by
  cases j with
  | null => cases h
  | _ => exact ⟨_, rfl⟩

theorem readBack_readable {id output : String} {fields : JsonObject}
    (h : id = "__proto__" → ∀ j, fields.lookup "__proto__" = some j →
      (JsValue.json j).truthy = true) :
    ∃ v, readOutput (readBack id fields) id output = .ok v := by
  simp only [readOutput_eq_ok_iff]
  rw [readBack, ← hidingProperty]
  cases hhiding : hidingProperty id fields with
  | none => exact ⟨_, rfl, rfl⟩
  | some j =>
      have hid : id = "__proto__" := by
        by_contra hne
        simp [hidingProperty, hne] at hhiding
      rw [hidingProperty, if_pos hid] at hhiding
      have htruthy := h hid j hhiding
      obtain ⟨v, hv⟩ := JsValue.property_of_truthy htruthy output
      exact ⟨v, htruthy, hv⟩

theorem resolveBinding_unsupported {b : Binding} (hb : b.simple = false) (ctx : BindingContext) :
    ∃ kind, resolveBinding b ctx = .error (kindNotSupported kind) := by
  cases b with
  | literal | request | step => cases hb
  | _ => exact ⟨_, rfl⟩

/-- The bindings resolve entry by entry, up to the first that does not. -/
theorem resolveBindings_cases (ctx : BindingContext) (bindings : List (String × Binding)) :
    (∃ outs, resolveBindings ctx bindings = .ok outs ∧
      ∀ p ∈ bindings, ∃ v, resolveBinding p.2 ctx = .ok v) ∨
    ∃ p ∈ bindings, ∃ e, resolveBinding p.2 ctx = .error e ∧
      resolveBindings ctx bindings = .error e := by
  induction bindings with
  | nil => exact .inl ⟨[], rfl, by simp⟩
  | cons p rest ih =>
      rw [resolveBindings]
      cases hvalue : resolveBinding p.2 ctx with
      | error e => exact .inr ⟨p, List.mem_cons_self, e, hvalue, rfl⟩
      | ok v =>
          rcases ih with ⟨outs, houts, hall⟩ | ⟨q, hq, e, hqe, hrest⟩
          · apply Or.inl
            refine ⟨(p.1, v) :: outs, by rw [houts]; rfl, ?_⟩
            intro q hq
            rcases List.mem_cons.mp hq with rfl | hq
            · exact ⟨v, hvalue⟩
            · exact hall q hq
          · exact .inr ⟨q, List.mem_cons_of_mem _ hq, e, hqe, by rw [hrest]; rfl⟩

/-- A binding of a supported kind resolves where the steps it mentions are recorded. -/
theorem resolveBinding_recorded {input : JsonObject} {ids : List String}
    {recorded : String → Option JsonObject} {b : Binding} (hb : b.simple = true)
    (hids : ∀ id, (recorded id).isSome → id ∈ ids)
    (hmentions : ∀ id, b.Mentions id → (recorded id).isSome)
    (hclear : ∀ output fields j, b = .step "__proto__" output →
      recorded "__proto__" = some fields → fields.lookup "__proto__" = some j →
        (JsValue.json j).truthy = true) :
    ∃ v, resolveBinding b { input, nodeOutputs := gather recorded ids {} } = .ok v := by
  cases b with
  | literal value => exact ⟨_, rfl⟩
  | request param => exact ⟨_, rfl⟩
  | step id output =>
      have hrecorded := hmentions id (.step id output)
      obtain ⟨fields, hfields⟩ := Option.isSome_iff_exists.mp hrecorded
      rw [resolveBinding, gather_get hfields (hids id hrecorded)]
      apply readBack_readable
      intro hid j hj
      subst hid
      exact hclear output fields j rfl hfields hj
  | _ => cases hb

section
variable {n : ℕ} {deps : Fin n → WorkerDeps} {env : Op → Choice → Prop} {R : SubmittedRun}
variable {db : Db} {st : WorkerSystem n}

theorem SubmittedRun.steps_eq (R : SubmittedRun) : R.spec.steps = R.steps.map .step :=
  (assertPlainNodes_nodup R.plain).2.2

/-- Reading the result of a done run resolves the outputs of its document. -/
theorem reaches_getRunResult (hsub : Submitted R db)
    (hreach : platform.Reaches (runWorkers deps) env (Store.idle db) st)
    (hdone : RunStatusIs R st.db .done) (c : Choice) (locked : Row → Bool) :
    platform.transact c locked (getRunResult R.id) st.db =
      ((resolveBindings
        { input := R.input
          nodeOutputs := gather (fun id => (st.db.runNodeOutputs R.id).lookup id)
            (st.db.completedIds R.id) {} }
        (R.spec.outputs.getD [])).map fun outs => (.done, some outs), st.db) := by
  obtain ⟨σ, hσ, -⟩ := (reaches_sound hsub (fun op c _ => agentEnv_true op c) hreach).inv
  obtain ⟨run, hrow, hspec, hinput, hrunStatus⟩ := hσ.run
  have hstatus : run.status = .done := by
    rw [hrunStatus, (hσ.runStatusIs .done).mp hdone]
    rfl
  rw [transact_getRunResult hrow hstatus, hspec, hinput]

/-- In a done run of a compiled document, every output of a supported kind resolves. -/
theorem resolveBinding_output {validatorErrors : WorkflowSpec → List ValidationError}
    {registryPool : RegistryDb} (hinv : RunInvariant R st.db)
    (hcompiles : (compile validatorErrors registryPool R.spec).isOk = true)
    (hdone : RunStatusIs R st.db .done) (hvisible : ¬ OutputHidden R st.db)
    {p : String × Binding} (hp : p ∈ R.spec.outputs.getD []) (hb : p.2.simple = true) :
    ∃ v, resolveBinding p.2
      { input := R.input
        nodeOutputs := gather (fun id => (st.db.runNodeOutputs R.id).lookup id)
          (st.db.completedIds R.id) {} } = .ok v := by
  obtain ⟨-, -, -, hroot, -⟩ :=
    (compile_plain_iff validatorErrors registryPool R.steps_eq).mp hcompiles
  apply resolveBinding_recorded hb
  · intro id hid
    exact AssocList.lookup_isSome_iff.mp hid
  · intro id hid
    have hmentioned : MentionedAtRoot R.spec id := by
      cases houtputs : R.spec.outputs with
      | none => simp [houtputs] at hp
      | some outputs =>
          rw [houtputs] at hp
          exact .inl ⟨outputs, p.1, p.2, houtputs, hp, hid⟩
    obtain ⟨step, hs, rfl⟩ := List.mem_map.mp (hroot id hmentioned)
    exact (hinv.finished hdone step hs).1
  · intro output fields j hbinding hfields hj
    by_contra hfalsy
    apply hvisible
    refine ⟨⟨p.1, output, ?_⟩, fields, j, hfields, hj, by simpa using hfalsy⟩
    rw [← hbinding]
    exact hp

/-- Once a run of a compiled document is done, its result has an entry for each
declared output if all of them are literals or are bound to the input or a step,
and otherwise reading it fails with the kind that is not supported. -/
theorem done_run_has_result {validatorErrors : WorkflowSpec → List ValidationError}
    {registryPool : RegistryDb}
    (hcompiles : (compile validatorErrors registryPool R.spec).isOk = true)
    (hsub : Submitted R db)
    (hreach : platform.Reaches (runWorkers deps) env (Store.idle db) st)
    (hdone : RunStatusIs R st.db .done) (hvisible : ¬ OutputHidden R st.db) :
    ((∀ p ∈ R.spec.outputs.getD [], p.2.simple = true) →
      ∃ outs, outs.map Prod.fst = (R.spec.outputs.getD []).map Prod.fst ∧
        ∀ c locked, platform.transact c locked (getRunResult R.id) st.db =
          (.ok (.done, some outs), st.db)) ∧
    ((∃ p ∈ R.spec.outputs.getD [], p.2.simple = false) →
      ∃ kind, ∀ c locked, platform.transact c locked (getRunResult R.id) st.db =
        (.error (kindNotSupported kind), st.db)) := by
  have hinv := (reaches_runInvariant hsub hreach).1
  have hread := reaches_getRunResult hsub hreach hdone
  rcases resolveBindings_cases
      { input := R.input
        nodeOutputs := gather (fun id => (st.db.runNodeOutputs R.id).lookup id)
          (st.db.completedIds R.id) {} }
      (R.spec.outputs.getD []) with ⟨outs, houts, hall⟩ | ⟨p, hp, e, hpe, herror⟩
  · rw [houts] at hread
    constructor
    · intro _
      exact ⟨outs, resolveBindings_keys houts, hread⟩
    · rintro ⟨p, hp, hb⟩
      obtain ⟨v, hv⟩ := hall p hp
      obtain ⟨kind, hkind⟩ := resolveBinding_unsupported hb _
      rw [hkind] at hv
      cases hv
  · rw [herror] at hread
    cases hb : p.2.simple with
    | true =>
        obtain ⟨v, hv⟩ := resolveBinding_output hinv hcompiles hdone hvisible hp hb
        rw [hv] at hpe
        cases hpe
    | false =>
        constructor
        · intro hsimple
          have := hsimple p hp
          rw [hb] at this
          cases this
        · intro _
          obtain ⟨kind, hkind⟩ := resolveBinding_unsupported hb _
          rw [hkind] at hpe
          cases hpe
          exact ⟨kind, hread⟩

end

/-- One step, and an output with the given binding. -/
def outputSpec (b : Binding) : WorkflowSpec where
  workflowSpecVersion := 1
  name := "output"
  steps := [.step { id := "first", service := "tool@sha256:aa", function := "run" }]
  outputs := some [("x", b)]

def outputRun (b : Binding) : SubmittedRun :=
  ⟨1, outputSpec b, [], [{ id := "first", service := "tool@sha256:aa", function := "run" }], rfl⟩

def outputDb (b : Binding) : Db :=
  (platform.transact { now := 0 } (fun _ => false) (submitRun (outputSpec b) [] none) .empty).2

theorem outputRun_submitted (b : Binding) : Submitted (outputRun b) (outputDb b) :=
  ⟨.empty, { now := 0 }, fun _ => false, none, ⟨none, outputSpec b, [], .running⟩,
    Db.empty_valid, rfl⟩

/-- Whether a worker that finishes the only step leaves a done run. -/
def finishes (b : Binding) : Bool :=
  (platform.steps (n := 1) (runWorkers fun _ => workerDeps) (Store.idle (outputDb b))
    (cycleLabels (Fin.last 0) 9 [("v", .bool true)])).any
    fun st => (st.db.runs.rows 1).any (·.status = .done)

theorem outputRun_done {b : Binding} (h : finishes b = true) : ∃ st : WorkerSystem 1,
    platform.Reaches (runWorkers fun _ => workerDeps) (fun _ _ => True)
      (Store.idle (outputDb b)) st ∧ RunStatusIs (outputRun b) st.db .done := by
  obtain ⟨st, hst, hdone⟩ := (Option.any_eq_true ..).mp h
  obtain ⟨run, hrow, hstatus⟩ := (Option.any_eq_true ..).mp hdone
  exact ⟨st, platform.steps_reaches (fun _ _ => trivial) hst, run, hrow, by simpa using hstatus⟩

theorem done_run_has_result_output : ∃ st : WorkerSystem 1, ∃ v,
    platform.Reaches (runWorkers fun _ => workerDeps) (fun _ _ => True)
      (Store.idle (outputDb (.step "first" "v"))) st ∧
    ∀ c locked, platform.transact c locked (getRunResult 1) st.db =
      (.ok (.done, some [("x", v)]), st.db) := by
  obtain ⟨st, hreach, hdone⟩ := outputRun_done (b := .step "first" "v") (by decide)
  have hcompiles : (compile (fun _ => []) (registryAfter [toolRegistration])
      (outputSpec (.step "first" "v"))).isOk = true := by decide +kernel
  have hvisible : ¬ OutputHidden (outputRun (.step "first" "v")) st.db := by
    rintro ⟨⟨key, output, hmem⟩, -⟩
    simp [outputRun, outputSpec] at hmem
  obtain ⟨outs, hkeys, hread⟩ := (done_run_has_result hcompiles (outputRun_submitted _) hreach hdone
    hvisible).1 (by simp [outputRun, outputSpec, Binding.simple])
  obtain ⟨⟨key, v⟩, rfl⟩ : ∃ p, outs = [p] := List.length_eq_one_iff.mp (by
    simpa [outputRun, outputSpec] using congrArg List.length hkeys)
  obtain rfl : key = "x" := by simpa [outputRun, outputSpec] using hkeys
  exact ⟨st, v, hreach, hread⟩

/-- A document with an output of a kind that is not supported compiles, and the
result of its finished run cannot be read. -/
theorem done_run_without_result : ∃ st : WorkerSystem 1,
    (compile (fun _ => []) (registryAfter [toolRegistration])
      (outputSpec (.session "k"))).isOk = true ∧
    Submitted (outputRun (.session "k")) (outputDb (.session "k")) ∧
    platform.Reaches (runWorkers fun _ => workerDeps) (fun _ _ => True)
      (Store.idle (outputDb (.session "k"))) st ∧
    RunStatusIs (outputRun (.session "k")) st.db .done ∧
    ∀ c locked, platform.transact c locked (getRunResult 1) st.db =
      (.error (kindNotSupported "session"), st.db) := by
  obtain ⟨st, hreach, hdone⟩ := outputRun_done (b := .session "k") (by decide)
  exact ⟨st, by decide +kernel, outputRun_submitted _, hreach, hdone,
    reaches_getRunResult (outputRun_submitted _) hreach hdone⟩

end WorkflowPlatform
