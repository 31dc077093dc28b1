import WorkflowPlatform.RunInvariant

/-!
# The first completion of a step wins

Any number of workers claim executions and complete steps of one run, each call
in a transaction of its own. A worker whose lease has lapsed may complete a step
that another one has completed, with another output, at any later time. What
the run has to keep is said by `CompletionInv`: an output and a checkpoint are
always recorded together, an execution with one is done, and whatever recorded
outputs make ready has been promoted.
-/
namespace WorkflowPlatform
open Dataflow

structure CompletionInv (R : SubmittedRun) (db : Db) : Prop where
  run : ∃ run, db.runs.rows R.id = some run ∧
    ((∀ step ∈ R.steps, Recorded R db step.id) → run.status ≠ .running)
  owned : ∀ i e, db.executions.rows i = some e → e.runId = some R.id → ∃ step ∈ R.steps,
    e.step = step.id ∧ (e.status = .blocked → ∃ d ∈ computeStepDependencies step, ¬ Recorded R db d)
  unique : ∀ i j e e', db.executions.rows i = some e → db.executions.rows j = some e' →
    e.runId = some R.id → e'.runId = some R.id → e.step = e'.step → i = j
  agree : ∀ i e, db.executions.rows i = some e → e.runId = some R.id →
    db.checkpoints i e.step = (db.runNodeOutputs R.id).lookup e.step
  done : ∀ i e, db.executions.rows i = some e → e.runId = some R.id → Recorded R db e.step →
    e.status = .done

section
variable {R : SubmittedRun} {db : Db} {id : ℕ} {e : Execution} {output : JsonObject}

theorem recorded_iff_mem {node : String} :
    Recorded R db node ↔ node ∈ db.completedIds R.id := AssocList.lookup_isSome_iff

theorem completedIds_recorded (db : Db) (runId executionId : ℕ) (node : String)
    (output : JsonObject) : (db.recorded runId executionId node output).completedIds runId =
      (db.withOutput runId node output).completedIds runId := by
  rw [Db.completedIds, Db.recorded_outputs]
  rfl

theorem Db.ext_columns {a b : Db} (he : a.executions = b.executions) (hr : a.runs = b.runs)
    (hw : a.waits = b.waits) (hc : a.checkpoints = b.checkpoints)
    (ho : a.runNodeOutputs = b.runNodeOutputs) : a = b := by
  cases a
  cases b
  simp only at he hr hw hc ho
  rw [he, hr, hw, hc, ho]

theorem setStatus_self {s : ExecutionStatus} (h : e.status = s) : e.setStatus s = e := by
  cases e
  cases h
  rfl

/-- A blocked execution of the run is not among the steps that are ready. -/
theorem CompletionInv.not_ready (h : CompletionInv R db) {i : ℕ} {f : Execution}
    (hf : db.executions.rows i = some f) (hr : f.runId = some R.id) (hblocked : f.status = .blocked) :
    f.step ∉ readySteps R.steps (db.completedIds R.id) := by
  obtain ⟨step, hs, hstep, hdeps⟩ := h.owned i f hf hr
  obtain ⟨d, hd, hnot⟩ := hdeps hblocked
  rw [hstep, mem_readySteps R.ids_nodup hs]
  exact fun hready => hnot (recorded_iff_mem.mpr (hready.2 d hd))

/-- A completion of a step that is recorded changes nothing. -/
theorem CompletionInv.completed_again (h : CompletionInv R db)
    (he : db.executions.rows id = some e) (hr : e.runId = some R.id)
    (hrec : Recorded R db e.step) : db.completed R.steps R.id id e.step output = db := by
  have hout : db.withOutput R.id e.step output = db := if_pos hrec
  have hids : (db.recorded R.id id e.step output).completedIds R.id = db.completedIds R.id := by
    rw [completedIds_recorded, hout]
  refine Db.ext_columns ?_ ?_ (Db.completed_waits ..) ?_ ?_
  · rw [Db.completed_executions, hids]
    refine Table.map_eq_self fun i f hf => ?_
    unfold Db.completedExecution
    split_ifs with hi hready
    · subst hi
      rw [he] at hf
      cases hf
      exact setStatus_self (h.done i e he hr hrec)
    · exact absurd hready.2.1 (h.not_ready hf hready.1 hready.2.2)
    · rfl
  · rw [Db.completed_runs, hids]
    split_ifs with hall
    · refine Table.map_eq_self fun i run hrun => ?_
      split_ifs with hi
      · subst hi
        obtain ⟨run', hrow, hfinished⟩ := h.run
        rw [hrow] at hrun
        cases hrun
        change (if run.status = .failed then run else run.setStatus .done) = run
        have hnot := hfinished fun step hs => recorded_iff_mem.mpr (hall step hs)
        cases hstatus : run.status with
        | running => exact absurd hstatus hnot
        | done => rw [if_neg (by simp), WorkflowRun.setStatus, ← hstatus]
        | failed => rw [if_pos rfl]
      · rfl
    · rfl
  · rw [Db.completed_checkpoints]
    exact congrArg Db.checkpoints (if_pos (by rw [h.agree id e he hr]; exact hrec))
  · rw [Db.completed_outputs, hout]

/-- A new completion records the output twice, and no other one. -/
theorem completed_lookup (hnew : ¬ Recorded R db e.step) (key : String) :
    ((db.completed R.steps R.id id e.step output).runNodeOutputs R.id).lookup key =
      Function.update (fun k => (db.runNodeOutputs R.id).lookup k) e.step (some output) key := by
  rw [Db.completed_outputs]
  exact Db.lookup_withOutput _ _ _ (Option.not_isSome_iff_eq_none.mp hnew) key

theorem recorded_completed (hnew : ¬ Recorded R db e.step) (key : String) :
    Recorded R (db.completed R.steps R.id id e.step output) key ↔
      key = e.step ∨ Recorded R db key := by
  rw [Recorded, completed_lookup hnew, Recorded]
  by_cases hk : key = e.step
  · simp [hk]
  · simp [hk]

/-- What a completion promotes by is what it leaves recorded. -/
theorem mem_completedIds_recorded {key : String} :
    key ∈ (db.recorded R.id id e.step output).completedIds R.id ↔
      Recorded R (db.completed R.steps R.id id e.step output) key := by
  rw [recorded_iff_mem, completedIds_recorded, Db.completedIds, Db.completedIds,
    Db.completed_outputs]

theorem completed_row {i : ℕ} {f : Execution}
    (hf : (db.completed R.steps R.id id e.step output).executions.rows i = some f) :
    ∃ f₀, db.executions.rows i = some f₀ ∧ f.runId = f₀.runId ∧ f.step = f₀.step ∧
      f = Db.completedExecution (readySteps R.steps
        ((db.recorded R.id id e.step output).completedIds R.id)) R.id id i f₀ := by
  rw [Db.completed_executions, Table.map_rows, Option.map_eq_some_iff] at hf
  obtain ⟨f₀, hf₀, rfl⟩ := hf
  exact ⟨f₀, hf₀, Db.completedExecution_runId .., Db.completedExecution_step .., rfl⟩

/-- An execution that a new completion leaves blocked still waits for some
dependency. -/
theorem CompletionInv.still_blocked (h : CompletionInv R db) (he : db.executions.rows id = some e)
    (hr : e.runId = some R.id) (hnew : ¬ Recorded R db e.step) {i : ℕ} {f : Execution}
    (hf : db.executions.rows i = some f) (hfr : f.runId = some R.id) {step : Step}
    (hs : step ∈ R.steps) (hstep : f.step = step.id)
    (hblocked : (Db.completedExecution (readySteps R.steps
      ((db.recorded R.id id e.step output).completedIds R.id)) R.id id i f).status = .blocked) :
    ∃ d ∈ computeStepDependencies step,
      ¬ Recorded R (db.completed R.steps R.id id e.step output) d := by
  rw [Db.completedExecution] at hblocked
  split_ifs at hblocked with hi hready
  · cases hblocked
  · cases hblocked
  · have hnotready : f.step ∉ readySteps R.steps
        ((db.recorded R.id id e.step output).completedIds R.id) :=
      fun hstep' => hready ⟨hfr, hstep', hblocked⟩
    have hnotdone : step.id ∉ (db.recorded R.id id e.step output).completedIds R.id := by
      rw [mem_completedIds_recorded, recorded_completed hnew, ← hstep]
      rintro (hsame | hrec)
      · exact hi (h.unique i id f e hf he hfr hr hsame)
      · have hdone := h.done i f hf hfr hrec
        rw [hdone] at hblocked
        cases hblocked
    rw [hstep, mem_readySteps R.ids_nodup hs] at hnotready
    by_contra hnone
    push Not at hnone
    exact hnotready ⟨hnotdone, fun d hd => mem_completedIds_recorded.mpr (hnone d hd)⟩

theorem CompletionInv.completed (h : CompletionInv R db) (he : db.executions.rows id = some e)
    (hr : e.runId = some R.id) :
    CompletionInv R (db.completed R.steps R.id id e.step output) := by
  by_cases hrec : Recorded R db e.step
  · rw [h.completed_again he hr hrec]
    exact h
  · constructor
    · obtain ⟨run, hrun, -⟩ := h.run
      rw [Db.completed_runs]
      split_ifs with hall
      · rw [Table.modify_same, hrun]
        refine ⟨_, rfl, fun _ => ?_⟩
        dsimp only
        split_ifs with hfailed
        · rw [hfailed]
          decide
        · exact fun hrunning => by cases hrunning
      · exact ⟨run, hrun, fun hfinished => absurd
          (fun step hs => mem_completedIds_recorded.mpr (hfinished step hs)) hall⟩
    · intro i f hf hfr
      obtain ⟨f₀, hf₀, hrun, hstep, hexec⟩ := completed_row hf
      have hfr₀ := hrun.symm.trans hfr
      obtain ⟨step, hs, hstep₀, -⟩ := h.owned i f₀ hf₀ hfr₀
      exact ⟨step, hs, hstep.trans hstep₀, fun hblocked =>
        h.still_blocked he hr hrec hf₀ hfr₀ hs hstep₀ (hexec ▸ hblocked)⟩
    · intro i j f f' hf hf' hfr hfr' hsame
      obtain ⟨f₀, hf₀, hrun, hstep, -⟩ := completed_row hf
      obtain ⟨f₁, hf₁, hrun', hstep', -⟩ := completed_row hf'
      exact h.unique i j f₀ f₁ hf₀ hf₁ (hrun.symm.trans hfr) (hrun'.symm.trans hfr')
        (hstep.symm.trans (hsame.trans hstep'))
    · intro i f hf hfr
      obtain ⟨f₀, hf₀, hrun, hstep, -⟩ := completed_row hf
      have hfr₀ := hrun.symm.trans hfr
      rw [completed_lookup hrec, Db.completed_checkpoints, hstep]
      by_cases hsame : f₀.step = e.step
      · obtain rfl := h.unique i id f₀ e hf₀ he hfr₀ hr hsame
        rw [hsame, Function.update_self, Db.withCheckpoint_same, h.agree i e he hr,
          Option.not_isSome_iff_eq_none.mp hrec]
        rfl
      · rw [Function.update_of_ne hsame, Db.withCheckpoint_other _ _ (.inr hsame),
          h.agree i f₀ hf₀ hfr₀]
    · intro i f hf hfr hrecf
      obtain ⟨f₀, hf₀, hrun, hstep, hexec⟩ := completed_row hf
      have hfr₀ := hrun.symm.trans hfr
      have hdone : i = id ∨ f₀.status = .done := by
        rw [hstep] at hrecf
        rcases (recorded_completed hrec f₀.step).mp hrecf with hsame | hrec₀
        · exact .inl (h.unique i id f₀ e hf₀ he hfr₀ hr hsame)
        · exact .inr (h.done i f₀ hf₀ hfr₀ hrec₀)
      rw [hexec, Db.completedExecution]
      split_ifs with hi hready
      · rfl
      · rw [hready.2.2] at hdone
        simp [hi] at hdone
      · exact hdone.resolve_left hi

end

/-! ### What the calls rely on -/

/-- What a claim does not change of an execution. -/
def Execution.stage (e : Execution) : Option ℕ × String × Bool :=
  (e.runId, e.step, e.status = .blocked)

/-- The rows are the same but for claims. -/
structure StageFrozen (a b : Db) : Prop where
  runs : a.runs = b.runs
  outputs : a.runNodeOutputs = b.runNodeOutputs
  checkpoints : a.checkpoints = b.checkpoints
  stages : ∀ i, (a.executions.rows i).map Execution.stage = (b.executions.rows i).map Execution.stage
  next : a.executions.next = b.executions.next

section
variable {a b : Db}

theorem StageFrozen.refl (a : Db) : StageFrozen a a := ⟨rfl, rfl, rfl, fun _ => rfl, rfl⟩

theorem StageFrozen.trans {c : Db} (h : StageFrozen a b) (h' : StageFrozen b c) :
    StageFrozen a c :=
  ⟨h.runs.trans h'.runs, h.outputs.trans h'.outputs, h.checkpoints.trans h'.checkpoints,
    fun i => (h.stages i).trans (h'.stages i), h.next.trans h'.next⟩

theorem StageFrozen.any (h : StageFrozen a b) {p : Execution → Bool}
    (hp : ∀ e f : Execution, e.stage = f.stage → p e = p f) (i : ℕ) :
    (b.executions.rows i).any p = (a.executions.rows i).any p := by
  have hi := h.stages i
  cases ha : a.executions.rows i with
  | none =>
      cases hb : b.executions.rows i with
      | none => rfl
      | some f => simp [ha, hb] at hi
  | some e =>
      cases hb : b.executions.rows i with
      | none => simp [ha, hb] at hi
      | some f =>
          rw [ha, hb] at hi
          exact (hp e f (Option.some.inj hi)).symm

theorem StageFrozen.isSome (h : StageFrozen a b) (i : ℕ) :
    (b.executions.rows i).isSome = (a.executions.rows i).isSome := by
  simpa using congrArg Option.isSome (h.stages i).symm

theorem StageFrozen.map_executions (h : StageFrozen a b) {f : ℕ → Execution → Execution}
    (hf : ∀ i e e', e.stage = e'.stage → (f i e).stage = (f i e').stage) :
    StageFrozen { a with executions := a.executions.map f }
      { b with executions := b.executions.map f } := by
  refine ⟨h.runs, h.outputs, h.checkpoints, fun i => ?_, h.next⟩
  have hi := h.stages i
  simp only [Table.map_rows, Option.map_map]
  cases ha : a.executions.rows i with
  | none =>
      cases hb : b.executions.rows i with
      | none => rfl
      | some e' => simp [ha, hb] at hi
  | some e =>
      cases hb : b.executions.rows i with
      | none => simp [ha, hb] at hi
      | some e' =>
          rw [ha, hb] at hi
          exact congrArg some (hf i e e' (Option.some.inj hi))

theorem StageFrozen.write (h : StageFrozen a b) (w : Write) :
    StageFrozen (a.write w) (b.write w) := by
  cases w with
  | satisfyDueWaits | lockRun => exact ⟨h.runs, h.outputs, h.checkpoints, h.stages, h.next⟩
  | claim i | executionStatus i =>
      refine h.map_executions fun j e e' hstage => ?_
      simp only [Execution.stage, Prod.mk.injEq] at hstage
      split_ifs
      · exact Prod.ext hstage.1 (Prod.ext hstage.2.1 rfl)
      · simp only [Execution.stage, Prod.mk.injEq]
        exact hstage
  | runStatus i => exact ⟨by simp [Db.write, h.runs], h.outputs, h.checkpoints, h.stages, h.next⟩
  | checkpoint i => exact ⟨h.runs, h.outputs, by simp [Db.write, h.checkpoints], h.stages, h.next⟩
  | output i => exact ⟨h.runs, by simp [Db.write, h.outputs], h.checkpoints, h.stages, h.next⟩
  | insertRun i => exact ⟨by simp [Db.write, h.runs], h.outputs, h.checkpoints, h.stages, h.next⟩
  | insertExecution i e =>
      refine ⟨h.runs, h.outputs, h.checkpoints, fun j => ?_, by simp [Db.write, Table.insertAt, h.next]⟩
      by_cases hj : j = i
      · simp [Db.write, hj]
      · simpa only [Db.write, Table.insertAt_other _ _ hj] using h.stages j

/-- The statements of `completeStep`. -/
def Completing (r id : ℕ) (op : Op) : Prop := op = .lockRunForUpdate r ∨ Steady r id op

theorem StageFrozen.respond {r id : ℕ} (h : StageFrozen a b) {op : Op} (hop : Completing r id op)
    (c : Choice) (locked : Row → Bool) : b.respond c locked op = a.respond c locked op := by
  rcases hop with rfl | hop
  · simp only [Db.respond, h.runs]
  · cases op with
    | promoteBlockedToQueued i step =>
        have hids : b.executionIds (blockedIn i step) = a.executionIds (blockedIn i step) := by
          rw [Db.executionIds_eq, Db.executionIds_eq, h.next]
          refine List.filter_congr fun j _ => h.any (fun e f hstage => ?_) j
          simp only [Execution.stage, Prod.mk.injEq] at hstage
          simp only [blockedIn, hstage.1, hstage.2.1, hstage.2.2]
        simp only [Db.respond, hids]
    | markExecutionDone i | markExecutionFailed i | insertCheckpoint i | findCheckpoint i =>
        simp only [Db.respond, h.isSome, h.checkpoints]
    | findRunById i | markRunDone i | insertRunNodeOutput i | findRunNodeOutput i
    | listCompletedNodeIds i => simp only [Db.respond, h.runs, h.outputs]
    | lockRunForUpdate | markRunFailed | scanRemaining | failIfRemaining => cases hop
    | claimExecution | enqueueForRun | insertRun | fetch | log => cases hop

theorem StageFrozen.view (h : StageFrozen a b) (ws : List Write) :
    StageFrozen (platform.view a ws) (platform.view b ws) := by
  induction ws generalizing a b with
  | nil => exact h
  | cons w rest ih => exact ih (h.write w)

/-- What the holder of these locks may rely on. -/
structure CompletionRely (R : SubmittedRun) (ws : List Write) (a b : Db) : Prop where
  keeps : Keeps a b
  outputs : ∀ node o, (a.runNodeOutputs R.id).lookup node = some o →
    (b.runNodeOutputs R.id).lookup node = some o
  checkpoints : ∀ i s o, a.checkpoints i s = some o → b.checkpoints i s = some o
  frozen : platform.locks ws (.run R.id) = true → StageFrozen a b
  held : ∀ i, platform.locks ws (.execution i) = true → a.executions.rows i = b.executions.rows i

/-! ### The calls -/

inductive StepCall where
  | claim (workerId : String) (leaseSeconds : ℕ)
  | completeStep (run : WorkflowRun) (executionId : ℕ) (nodeId : String) (output : ParsedObject)

/-- The transaction of a call. A completion returns its node. -/
def StepCall.script (R : SubmittedRun) : StepCall → Tx (Option String)
  | .claim workerId leaseSeconds => do
      let _ ← ExecutionsRepo.claim workerId leaseSeconds
      pure none
  | .completeStep run executionId nodeId output => do
      WorkflowPlatform.completeStep R.id run executionId nodeId output
      pure (some nodeId)

/-- The completions are of executions of the run, each under its own step. -/
def StepCall.Own (R : SubmittedRun) (db : Db) : StepCall → Prop
  | .claim .. => True
  | .completeStep run executionId nodeId _ => run.spec = R.spec ∧
      ∃ e, db.executions.rows executionId = some e ∧ e.runId = some R.id ∧ e.step = nodeId

/-- What a call commits. -/
structure StepOutcome (R : SubmittedRun) (node : Option String) (ws : List Write) (db : Db) :
    Prop where
  inv : CompletionInv R (platform.view db ws)
  rely : ∀ ws', (∀ row, platform.locks ws row = true → platform.locks ws' row = false) →
    CompletionRely R ws' db (platform.view db ws)
  again : ∀ nodeId, node = some nodeId → Recorded R db nodeId → platform.view db ws = db

def StepPost (R : SubmittedRun) (ab : Bool) (r : Except Failure (Option String))
    (ws : List Write) (db : Db) : Prop :=
  ab = false → ∀ node, r = .ok node → StepOutcome R node ws db

theorem StepCall.Own.of_keeps {R : SubmittedRun} {call : StepCall} (h : call.Own R a)
    (hk : Keeps a b) : call.Own R b := by
  cases call with
  | claim => trivial
  | completeStep run executionId nodeId output =>
      obtain ⟨hspec, e, he, hr, hstep⟩ := h
      obtain ⟨f, hf, hfr, hfstep⟩ := hk.symm.present he
      exact ⟨hspec, f, hf, hfr.trans hr, hfstep.trans hstep⟩

def completionProtocol {n : ℕ} (R : SubmittedRun) (calls : Fin n → StepCall) : Protocol platform where
  inv db := CompletionInv R db ∧ ∀ t, (calls t).Own R db
  rely := CompletionRely R
  env _ _ := True
  pre _ _ _ := True
  rely_refl _ db := ⟨.refl db, fun _ _ h => h, fun _ _ _ h => h, fun _ => .refl db, fun _ _ => rfl⟩
  rely_trans _ _ _ _ h h' := ⟨h.keeps.trans h'.keeps,
    fun node o ho => h'.outputs node o (h.outputs node o ho),
    fun i s o ho => h'.checkpoints i s o (h.checkpoints i s o ho),
    fun hl => (h.frozen hl).trans (h'.frozen hl), fun i hi => (h.held i hi).trans (h'.held i hi)⟩

/-- Under the run's lock the statements of `completeStep` are answered as if
there were nobody else. -/
theorem completion_freezes {n : ℕ} (R : SubmittedRun) (calls : Fin n → StepCall) (id : ℕ) :
    (completionProtocol R calls).Freezes StageFrozen
      (fun ws => platform.locks ws (.run R.id) = true ∧ ∀ w ∈ ws, w.inPlace = true)
      (Completing R.id id) where
  refl := .refl
  trans := fun _ _ _ => .trans
  frozen := fun ws a b h hr => hr.frozen h.1
  grows := by
    intro op hop c locked ws a r ws' h hr
    constructor
    · rw [Store.locks_append, h.1, Bool.true_or]
    · intro w hw
      rcases List.mem_append.mp hw with hw | hw
      · exact h.2 w hw
      · have hcalm : Calm R.id id op := by
          rcases hop with rfl | hop
          · rfl
          · exact hop.calm
        exact (calm_writes hcalm hr w hw).inPlace
  answer := fun op hop c locked ws a b h => (h.view ws).respond hop c locked
  pre := fun _ _ _ _ _ => trivial

section
variable {n : ℕ} {R : SubmittedRun} {calls : Fin n → StepCall} {db : Db} {ws : List Write}

theorem completing_script {run : WorkflowRun} {id : ℕ} {node : String} {output : ParsedObject} :
    ((StepCall.completeStep run id node output).script R).All (Completing R.id id) := by
  refine Script.all_bind ?_ fun _ => trivial
  rw [completeStep_eq]
  refine Script.all_bind ⟨.inl rfl, fun found => ?_⟩ fun _ =>
    (tame_completeLocked R.id id _ _ _).all.mono fun _ => .inr
  cases found with
  | error err => trivial
  | ok row => cases row <;> trivial

/-- A script that takes the run's lock and then issues the statements of a
completion is evaluated against the rows it commits to. -/
theorem ensures_locked {id : ℕ} {op : Op}
    {next : Except Failure (Resp op) → Tx (Option String)} (hop : op = .lockRunForUpdate R.id)
    (hall : (Script.call op next).All (Completing R.id id))
    (h : ∀ d ws r, (completionProtocol R calls).inv d → platform.locks ws (.run R.id) = true →
      (∀ w ∈ ws, w.inPlace = true) →
      platform.Evaluates d (.call op next) {} r ⟨ws, false⟩ → StepPost R false r ws d) :
    (completionProtocol R calls).Ensures (StepPost R) false (.call op next) [] db := by
  subst hop
  refine (Protocol.ensures_acquire (completion_freezes R calls id) hall.1 hall.2 ?_).mono _ ?_
  · intro d c locked r ws' hinv _ hresp
    obtain ⟨run, hrun, -⟩ := hinv.1.run
    cases hresp
    simp [Store.locks, platform, Write.row, Write.inPlace, hrun]
  · intro ab r ws' d hinv hpost hab
    subst hab
    obtain ⟨d₀, -, -, hsame, ⟨hlock, hplace⟩, heval⟩ := hpost rfl
    exact h d ws' r hinv hlock hplace ((completion_freezes R calls id).evaluates hall hsame heval) rfl

/-- What was recorded before a completion is there after it. -/
theorem completed_keeps (output : JsonObject) (h : CompletionInv R db) {id : ℕ} {e : Execution}
    (he : db.executions.rows id = some e) (hr : e.runId = some R.id) :
    (∀ node o, (db.runNodeOutputs R.id).lookup node = some o →
      ((db.completed R.steps R.id id e.step output).runNodeOutputs R.id).lookup node = some o) ∧
    ∀ i s o, db.checkpoints i s = some o →
      (db.completed R.steps R.id id e.step output).checkpoints i s = some o := by
  by_cases hrec : Recorded R db e.step
  · rw [h.completed_again he hr hrec]
    exact ⟨fun _ _ ho => ho, fun _ _ _ ho => ho⟩
  · constructor
    · intro node o ho
      have hnode : node ≠ e.step := by
        rintro rfl
        exact hrec (Option.isSome_iff_exists.mpr ⟨o, ho⟩)
      rw [completed_lookup hrec, Function.update_of_ne hnode, ho]
    · intro i s o ho
      rw [Db.completed_checkpoints]
      by_cases hsame : i = id ∧ s = e.step
      · rw [hsame.1, hsame.2] at ho
        rw [hsame.1, hsame.2, Db.withCheckpoint_same, ho]
        rfl
      · rw [Db.withCheckpoint_other _ _ (by tauto), ho]

theorem completion_ensures {t : Fin n} {run : WorkflowRun} {id : ℕ} {node : String}
    {output : ParsedObject} (ht : calls t = .completeStep run id node output) :
    (completionProtocol R calls).Ensures (StepPost R) false
      ((StepCall.completeStep run id node output).script R) [] db := by
  refine ensures_locked rfl completing_script fun d ws r hinv hlock hplace heval _ a ha => ?_
  obtain ⟨hspec, e, he, hr, rfl⟩ : (StepCall.completeStep run id node output).Own R d :=
    ht ▸ hinv.2 t
  have hfrom : EvaluatesFrom d d (completeStep R.id run id e.step output >>= fun _ =>
      pure (some e.step)) r ⟨ws, false⟩ := ⟨[], rfl, heval⟩
  have hrun : (d.runs.rows R.id).isSome := by
    obtain ⟨row, hrow, -⟩ := hinv.1.run
    rw [hrow]
    rfl
  have hplain : assertPlainSteps run.spec = .ok R.steps := hspec ▸ R.plain
  rcases hfrom.completeStep hrun hplain with ⟨-, -, habsurd⟩ | ⟨-, hdone⟩
  · cases habsurd
  · obtain ⟨rfl, -, hview⟩ := EvaluatesFrom.done hdone
    cases ha
    obtain ⟨houtputs, hcheckpoints⟩ := completed_keeps (ParsedJson.storedFields output) hinv.1 he hr
    refine ⟨?_, fun ws' hdisjoint => ⟨keeps_view hplace, ?_, ?_, fun hl => ?_, fun i hi => ?_⟩, ?_⟩
    · rw [hview]
      exact hinv.1.completed he hr
    · rw [hview]
      exact houtputs
    · rw [hview]
      exact hcheckpoints
    · rw [hdisjoint _ hlock] at hl
      cases hl
    · refine (view_execution ?_).symm
      by_contra hlocked
      rw [hdisjoint _ (by simpa using hlocked)] at hi
      cases hi
    · intro nodeId hnode hrec
      cases hnode
      rw [hview]
      exact hinv.1.completed_again he hr hrec

/-- A row after a claim is the old one, or the claimed execution, now running. -/
theorem ClaimView.row {V : Db} {id : ℕ} {e : Execution} (hview : ClaimView db V id)
    (he : db.executions.rows id = some e) {i : ℕ} {f : Execution}
    (hf : V.executions.rows i = some f) : db.executions.rows i = some f ∨
      i = id ∧ f.runId = e.runId ∧ f.step = e.step ∧ f.status = .running := by
  by_cases hi : i = id
  · subst hi
    obtain ⟨e', he', hr', hs', hstatus⟩ := hview.claimed e he
    rw [hf] at he'
    cases he'
    exact .inr ⟨rfl, hr', hs', hstatus⟩
  · exact .inl ((hview.others i hi).symm.trans hf)

/-- A claim takes an execution that is neither blocked nor recorded. -/
theorem CompletionInv.claimed (h : CompletionInv R db) {V : Db} {id : ℕ} {e : Execution}
    (hview : ClaimView db V id) (hkeeps : Keeps db V) (he : db.executions.rows id = some e)
    (hnotdone : e.status ≠ .done) : CompletionInv R V := by
  have hrec : ∀ node, Recorded R V node ↔ Recorded R db node := by
    intro node
    rw [Recorded, Recorded, hview.outputs]
  constructor
  · obtain ⟨run, hrun, hfinished⟩ := h.run
    exact ⟨run, by rw [hview.runs, hrun], fun hall =>
      hfinished fun step hs => (hrec step.id).mp (hall step hs)⟩
  · intro i f hf hr
    simp only [hrec]
    rcases hview.row he hf with hf₀ | ⟨rfl, hr₀, hs₀, hstatus⟩
    · exact h.owned i f hf₀ hr
    · obtain ⟨step, hs, hstep, -⟩ := h.owned i e he (hr₀.symm.trans hr)
      exact ⟨step, hs, hs₀.trans hstep, fun hblocked => by rw [hstatus] at hblocked; cases hblocked⟩
  · intro i j f f' hf hf' hr hr' hsame
    obtain ⟨f₀, hf₀, hr₀, hs₀⟩ := hkeeps.present hf
    obtain ⟨f₁, hf₁, hr₁, hs₁⟩ := hkeeps.present hf'
    exact h.unique i j f₀ f₁ hf₀ hf₁ (hr₀.trans hr) (hr₁.trans hr') (hs₀.trans (hsame.trans hs₁.symm))
  · intro i f hf hr
    obtain ⟨f₀, hf₀, hr₀, hs₀⟩ := hkeeps.present hf
    rw [hview.checkpoints, hview.outputs, ← hs₀]
    exact h.agree i f₀ hf₀ (hr₀.trans hr)
  · intro i f hf hr hrecf
    rw [hrec] at hrecf
    rcases hview.row he hf with hf₀ | ⟨rfl, hr₀, hs₀, -⟩
    · exact h.done i f hf₀ hr hrecf
    · exact absurd (h.done i e he (hr₀.symm.trans hr) (hs₀ ▸ hrecf)) hnotdone

theorem ClaimView.frozen {V : Db} {id : ℕ} {e : Execution} (hview : ClaimView db V id)
    (he : db.executions.rows id = some e) (hnotblocked : e.status ≠ .blocked) :
    StageFrozen db V := by
  refine ⟨hview.runs.symm, hview.outputs.symm, hview.checkpoints.symm, fun i => ?_,
    hview.next.symm⟩
  by_cases hi : i = id
  · subst hi
    obtain ⟨e', he', hr', hs', hstatus⟩ := hview.claimed e he
    rw [he, he', Option.map_some, Option.map_some, Execution.stage, Execution.stage, hr', hs',
      hstatus]
    simp [hnotblocked]
  · rw [hview.others i hi]

theorem claimed_outcome (h : CompletionInv R db) {id : ℕ} {e : Execution} {seen : Db} {now : ℕ}
    (he : db.executions.rows id = some e) (hclaim : claimable seen now id e = true)
    (workerId : String) (leaseUntil : ℕ) : StepOutcome R none
      [.satisfyDueWaits id now, .claim id workerId leaseUntil] db := by
  have hview : ClaimView db (platform.view db
    [.satisfyDueWaits id now, .claim id workerId leaseUntil]) id :=
    claimView db id now workerId leaseUntil
  have hplace : ∀ w ∈ ([.satisfyDueWaits id now, .claim id workerId leaseUntil] : List Write),
      w.inPlace = true := by simp [Write.inPlace]
  generalize hV : platform.view db [.satisfyDueWaits id now, .claim id workerId leaseUntil] = V
    at hview
  have hkeeps : Keeps db V := hV ▸ keeps_view hplace
  have hopen : e.status ≠ .blocked ∧ e.status ≠ .done := by
    cases hstatus : e.status <;> simp [claimable, hstatus] at hclaim ⊢
  constructor
  · rw [hV]
    exact h.claimed hview hkeeps he hopen.2
  · intro ws' hdisjoint
    refine ⟨hV.symm ▸ hkeeps, ?_, ?_, fun _ => hV.symm ▸ hview.frozen he hopen.1, fun i hi => ?_⟩
    · rw [hV, hview.outputs]
      exact fun _ _ ho => ho
    · rw [hV, hview.checkpoints]
      exact fun _ _ _ ho => ho
    · refine (view_execution ?_).symm
      by_contra hlocked
      rw [hdisjoint _ (by simpa using hlocked)] at hi
      cases hi
  · intro nodeId hnode
    cases hnode

theorem claim_ensures (workerId : String) (leaseSeconds : ℕ) :
    (completionProtocol R calls).Ensures (StepPost R) false
      ((StepCall.claim workerId leaseSeconds).script R) [] db := by
  refine Protocol.ensures_query _ (fun _ _ hab => by cases hab) fun d hd _ => ⟨trivial, ?_⟩
  intro c locked found ws' _ hresp
  rcases claim_cases hresp with ⟨rfl, rfl⟩ | ⟨id, e, he, hclaim, -, rfl, rfl⟩
  · refine Protocol.ensures_done _ fun d' hd' _ _ node hnode => ?_
    cases hnode
    exact ⟨hd'.1, fun ws' _ => (completionProtocol R calls).rely_refl ws' d', fun _ h => by cases h⟩
  · refine Protocol.ensures_done _ fun d' hd' hr _ node hnode => ?_
    cases hnode
    have hlock : platform.locks ([] ++ [Write.satisfyDueWaits id c.now,
        .claim id workerId (c.now + 1000 * leaseSeconds)]) (.execution id) = true := by
      simp [Store.locks, platform, Write.row]
    have he' : d'.executions.rows id = some e := (hr.held id hlock).symm.trans he
    exact claimed_outcome hd'.1 he' hclaim _ _

/-! ### The state after the submission -/

@[simp] theorem Db.enqueued_checkpoints {V : Db} {runId : ℕ} {sessionId : String}
    {steps : List Step} : (V.enqueued runId sessionId steps).checkpoints = V.checkpoints := by
  induction steps generalizing V with
  | nil => rfl
  | cons step rest ih => exact ih

theorem Submitted.checkpoint_none (h : Submitted R db) {i : ℕ} {e : Execution}
    (he : db.executions.rows i = some e) (hr : e.runId = some R.id) (s : String) :
    db.checkpoints i s = none := by
  obtain ⟨db₀, c, locked, session, run, hvalid, h⟩ := h
  obtain ⟨t, heval, rfl⟩ := platform.transact_ok h
  have hfrom : EvaluatesFrom db₀ db₀ (submitRun R.spec R.input session) (.ok (R.id, run)) t :=
    ⟨[], rfl, heval⟩
  obtain ⟨steps, label, -, hid, hab, hview⟩ := hfrom.submitRun
  have hold : ∀ e, db₀.executions.rows i = some e → e.runId ≠ some R.id := by
    intro e he hr
    have hrun := hvalid.run_fkey i e _ he hr
    have hfresh : db₀.runs.rows R.id = none := db₀.runs.fresh _ hid.ge
    rw [hfresh] at hrun
    cases hrun
  have hcheck : (platform.view db₀ t.writes).checkpoints = db₀.checkpoints := by
    rw [hview]
    split_ifs
    · rfl
    · rw [Db.enqueued_checkpoints]
      rfl
  have hnone : db₀.executions.rows i = none := by
    by_contra hsome
    obtain ⟨e₀, he₀⟩ := Option.ne_none_iff_exists'.mp hsome
    have hlt : ¬ db₀.executions.next ≤ i := by
      intro hle
      rw [db₀.executions.fresh i hle] at he₀
      cases he₀
    have hsame : (platform.view db₀ t.writes).executions.rows i = db₀.executions.rows i := by
      rw [hview]
      split_ifs
      · rfl
      · rw [Db.enqueued_rows]
        exact if_neg hlt
    rw [hab] at he
    simp only [Bool.false_eq_true, if_false, hsame] at he
    exact hold e he hr
  rw [hab]
  simp only [Bool.false_eq_true, if_false, hcheck]
  by_contra hsome
  have hexec := hvalid.checkpoint_fkey i s (Option.isSome_iff_ne_none.mpr hsome)
  rw [hnone] at hexec
  cases hexec

/-- A run that has just been submitted. -/
theorem Submitted.completionInv (h : Submitted R db) : CompletionInv R db := by
  have hrep := h.represents
  have hnone : ∀ node, ¬ Recorded R db node := by
    intro node hrec
    rw [hrep.recorded] at hrec
    cases hrec
  refine ⟨?_, ?_, hrep.unique, ?_, fun i e he hr hrec => absurd hrec (hnone e.step)⟩
  · obtain ⟨run, hrow, -, -, hstatus⟩ := hrep.run
    refine ⟨run, hrow, fun hall => ?_⟩
    cases hsteps : R.steps with
    | nil =>
        rw [hstatus]
        simp [initial, SubmittedRun.graph, dependencyGraph, hsteps, runStatus]
    | cons step rest => exact absurd (hall step (hsteps ▸ List.mem_cons_self)) (hnone step.id)
  · intro i e he hr
    obtain ⟨step, hs, hstep, hstatus⟩ := hrep.owned i e he hr
    refine ⟨step, hs, hstep, fun hblocked => ?_⟩
    cases hdeps : computeStepDependencies step with
    | nil =>
        rw [hstatus] at hblocked
        simp [initial, R.deps_eq hs, hdeps, phaseStatus] at hblocked
    | cons d rest => exact ⟨d, List.mem_cons_self, hnone d⟩
  · intro i e he hr
    rw [h.checkpoint_none he hr]
    exact (Option.not_isSome_iff_eq_none.mp (hnone e.step)).symm

theorem calls_follow (calls : Fin n → StepCall) : (completionProtocol R calls).Follows (StepPost R)
    fun t => (calls t).script R where
  lawful := platform_lawful
  start t db hdb := by
    cases hcall : calls t with
    | claim workerId leaseSeconds => exact claim_ensures workerId leaseSeconds
    | completeStep run id node output => exact completion_ensures hcall
  commit node ws db hdb hpost := by
    have hout := hpost rfl node rfl
    have hkeeps := (hout.rely [] fun _ _ => rfl).keeps
    exact ⟨⟨hout.inv, fun t => (hdb.2 t).of_keeps hkeeps⟩, hout.rely⟩

/-- A state of workers that claim executions and complete steps. -/
abbrev StepSystem (n : ℕ) := System n Op Resp Failure (Option String) Write Db

/-- In every reachable state a node has an output exactly if its execution has a
checkpoint for it, and both are the same value; neither ever changes; and another
completion of a node that has its output leaves every row as it is. -/
theorem first_completion_wins {st : StepSystem n} (hsub : Submitted R db)
    (hown : ∀ t, (calls t).Own R db)
    (hreach : platform.Reaches (fun t => (calls t).script R) (fun _ _ => True) (Store.idle db) st) :
    (∀ i e, st.db.executions.rows i = some e → e.runId = some R.id →
      st.db.checkpoints i e.step = (st.db.runNodeOutputs R.id).lookup e.step) ∧
    (∀ st', platform.Reaches (fun t => (calls t).script R) (fun _ _ => True) st st' →
      (∀ node o, (st.db.runNodeOutputs R.id).lookup node = some o →
        (st'.db.runNodeOutputs R.id).lookup node = some o) ∧
      ∀ i s o, st.db.checkpoints i s = some o → st'.db.checkpoints i s = some o) ∧
    ∀ t nodeId ws st', st.txns t = some ⟨.done (.ok (some nodeId)), ws, false⟩ →
      Recorded R st.db nodeId →
      platform.step (fun t => (calls t).script R) st (.finish t) = some st' → st'.db = st.db := by
  have hsound := (Protocol.sound_idle (P := completionProtocol R calls)
    ⟨hsub.completionInv, hown⟩).reaches (calls_follow calls) hreach
  refine ⟨hsound.inv.1.agree, fun st' hlater => ?_, fun t nodeId ws st' ht hrec hs => ?_⟩
  · have hrely := hsound.rely_reaches (calls_follow calls) hlater
    exact ⟨hrely.outputs, hrely.checkpoints⟩
  · have hpost := hsound.ensures t _ ht st.db hsound.inv ((completionProtocol R calls).rely_refl _ _)
    simp only [Store.step, ht] at hs
    cases hs
    exact (hpost rfl _ rfl).again nodeId rfl hrec

end
end

/-- Two workers complete the first step with different outputs. -/
def twoCompletions : Fin 2 → StepCall := fun t =>
  .completeStep { sessionId := none, spec := readerSpec "first", input := [] } 1 "first"
    [(.text "v", .str (.text (Nat.repr t)))]

/-- Whether the worker's call is about to commit the completion of the step. -/
def hasCompleted (st : StepSystem 2) (t : Fin 2) (nodeId : String) : Bool :=
  match st.txns t with
  | some ⟨.done (.ok (some id)), _, false⟩ => id = nodeId
  | _ => false

theorem txn_of_hasCompleted {st : StepSystem 2} {t : Fin 2} {nodeId : String}
    (h : hasCompleted st t nodeId = true) :
    ∃ ws, st.txns t = some ⟨.done (.ok (some nodeId)), ws, false⟩ := by
  unfold hasCompleted at h
  split at h
  · next id ws ht =>
      rw [decide_eq_true_iff] at h
      exact ⟨ws, h ▸ ht⟩
  · cases h

theorem first_completion_wins_two : ∃ st : StepSystem 2,
    platform.Reaches (fun t => (twoCompletions t).script (readerRun "first" rfl))
      (fun _ _ => True) (Store.idle (readerDb "first")) st ∧
    Recorded (readerRun "first" rfl) st.db "first" ∧
    ∀ st', platform.step (fun t => (twoCompletions t).script (readerRun "first" rfl)) st
      (.finish (1 : Fin 2) : Label 2 Choice) = some st' → st'.db = st.db := by
  let c : Choice := { now := 0 }
  let labels : List (Label 2 Choice) := .begin 0 :: List.replicate 6 (.call 0 c) ++
    .finish 0 :: .begin 1 :: List.replicate 8 (.call 1 c)
  have hrun : (platform.steps (fun t => (twoCompletions t).script (readerRun "first" rfl))
      (Store.idle (readerDb "first")) labels).any (fun st =>
        ((st.db.runNodeOutputs 1).lookup "first").isSome && hasCompleted st 1 "first") = true := by
    decide
  obtain ⟨st, hst, h⟩ := (Option.any_eq_true ..).mp hrun
  rw [Bool.and_eq_true] at h
  obtain ⟨hrec, hdone⟩ := h
  obtain ⟨ws, ht⟩ := txn_of_hasCompleted hdone
  have hown : ∀ t, (twoCompletions t).Own (readerRun "first" rfl) (readerDb "first") :=
    fun t => ⟨rfl, _, rfl, rfl, rfl⟩
  have hreach : platform.Reaches (fun t => (twoCompletions t).script (readerRun "first" rfl))
      (fun _ _ => True) (Store.idle (readerDb "first")) st :=
    platform.steps_reaches (fun _ _ => trivial) hst
  exact ⟨st, hreach, hrec, fun st' hs =>
    (first_completion_wins readerRun_submitted hown hreach).2.2 1 "first" ws st' ht hrec hs⟩

end WorkflowPlatform
