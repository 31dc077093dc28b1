import WorkflowPlatform.AssocList
import WorkflowPlatform.Completion
import WorkflowPlatform.Dataflow

/-!
# A run as rows

`SubmittedRun` names a run in the tables together with what never changes about
it. `Represents` says that the rows of the run are those of a state of
`Dataflow`: one execution for each step, with the status of the step's phase,
and the recorded outputs. Completing a claimed step and failing it take a
represented state to the one the abstract run moves to.
-/
namespace WorkflowPlatform

structure SubmittedRun where
  id : ℕ
  spec : WorkflowSpec
  input : JsonObject
  steps : List Step
  plain : assertPlainSteps spec = .ok steps

def dependencyGraph (steps : List Step) : DependencyGraph String where
  nodes := steps.map (·.id)
  deps := fun id => match steps.find? (·.id = id) with
    | some step => computeStepDependencies step
    | none => []

theorem assertPlainNodes_nodup {seenIds : List String} {nodes : List Node} {steps : List Step}
    (h : assertPlainNodes seenIds nodes = .ok steps) :
    (steps.map (·.id)).Nodup ∧ (∀ step ∈ steps, step.id ∉ seenIds) ∧
      nodes = steps.map .step := by
  induction nodes generalizing seenIds steps with
  | nil =>
      cases h
      simp
  | cons node rest ih =>
      cases node with
      | branch => cases h
      | map => cases h
      | step step =>
          simp only [assertPlainNodes] at h
          split_ifs at h with hseen
          cases hrest : assertPlainNodes (step.id :: seenIds) rest with
          | error e =>
              rw [hrest] at h
              cases h
          | ok tail =>
              rw [hrest] at h
              cases h
              obtain ⟨hnodup, hnot, hnodes⟩ := ih hrest
              refine ⟨?_, ?_, by rw [hnodes]; rfl⟩
              · rw [List.map_cons, List.nodup_cons]
                refine ⟨?_, hnodup⟩
                intro hmem
                obtain ⟨s, hs, hid⟩ := List.mem_map.mp hmem
                exact hnot s hs (hid ▸ List.mem_cons_self)
              · intro s hs
                rcases List.mem_cons.mp hs with rfl | hs
                · exact hseen
                · exact fun hmem => hnot s hs (List.mem_cons_of_mem _ hmem)

theorem find_step {steps : List Step} (h : (steps.map (·.id)).Nodup) {step : Step}
    (hs : step ∈ steps) : steps.find? (·.id = step.id) = some step := by
  induction steps with
  | nil => cases hs
  | cons s rest ih =>
      rw [List.map_cons, List.nodup_cons] at h
      rcases List.mem_cons.mp hs with rfl | hs
      · simp
      · have hne : s.id ≠ step.id := fun hid => h.1 (hid ▸ List.mem_map_of_mem hs)
        rw [List.find?_cons, decide_eq_false hne]
        exact ih h.2 hs

theorem dependencyGraph_deps {steps : List Step} (h : (steps.map (·.id)).Nodup) {step : Step}
    (hs : step ∈ steps) : (dependencyGraph steps).deps step.id = computeStepDependencies step := by
  simp only [dependencyGraph, find_step h hs]

namespace SubmittedRun
variable (R : SubmittedRun)

def graph : DependencyGraph String := dependencyGraph R.steps

theorem ids_nodup : (R.steps.map (·.id)).Nodup := (assertPlainNodes_nodup R.plain).1

end SubmittedRun

open Dataflow in
def phaseStatus : Phase → ExecutionStatus
  | .blocked => .blocked
  | .queued => .queued
  | .done => .done
  | .failed => .failed

open Dataflow in
def runStatus : Status → WorkflowRunStatus
  | .running => .running
  | .done => .done
  | .failed => .failed

/-- The rows of the run are those of the state. -/
structure Represents (R : SubmittedRun) (db : Db) (σ : Dataflow.RunState String JsonObject) :
    Prop where
  run : ∃ run, db.runs.rows R.id = some run ∧ run.spec = R.spec ∧ run.input = R.input ∧
    run.status = runStatus σ.status
  owned : ∀ id e, db.executions.rows id = some e → e.runId = some R.id →
    ∃ step ∈ R.steps, e.step = step.id ∧ e.status = phaseStatus (σ.phase step.id)
  unique : ∀ id id' e e', db.executions.rows id = some e → db.executions.rows id' = some e' →
    e.runId = some R.id → e'.runId = some R.id → e.step = e'.step → id = id'
  present : ∀ step ∈ R.steps, ∃ id e, db.executions.rows id = some e ∧
    e.runId = some R.id ∧ e.step = step.id
  outputs : ∀ node, (db.runNodeOutputs R.id).lookup node = σ.output node

/-- The rows a transaction sees after it has claimed an execution: only that
execution and its waits differ. -/
structure ClaimView (db V : Db) (id : ℕ) : Prop where
  runs : V.runs = db.runs
  outputs : V.runNodeOutputs = db.runNodeOutputs
  checkpoints : V.checkpoints = db.checkpoints
  next : V.executions.next = db.executions.next
  others : ∀ i, i ≠ id → V.executions.rows i = db.executions.rows i
  claimed : ∀ e, db.executions.rows id = some e → ∃ e', V.executions.rows id = some e' ∧
    e'.runId = e.runId ∧ e'.step = e.step ∧ e'.status = .running

theorem claimView (db : Db) (id now : ℕ) (workerId : String) (leaseUntil : ℕ) :
    ClaimView db (([.satisfyDueWaits id now, .claim id workerId leaseUntil] : List Write).foldl
      Db.write db) id where
  runs := rfl
  outputs := rfl
  checkpoints := rfl
  next := rfl
  others := fun i hi => Table.modify_other _ _ hi
  claimed := fun e he => by
    refine ⟨e.claimed workerId leaseUntil, ?_, rfl, rfl, rfl⟩
    simp [Db.write, Table.modify_same, he]

namespace Db

@[simp] theorem recorded_runs (db : Db) (runId executionId : ℕ) (nodeId : String)
    (output : JsonObject) : (db.recorded runId executionId nodeId output).runs = db.runs := by
  unfold recorded withOutput
  split_ifs <;> simp [write]

theorem recorded_executions (db : Db) (runId executionId : ℕ) (nodeId : String)
    (output : JsonObject) : (db.recorded runId executionId nodeId output).executions =
      db.executions.modify executionId (Execution.setStatus .done) := by
  unfold recorded withOutput
  split_ifs <;> simp [write]

theorem recorded_outputs (db : Db) (runId executionId : ℕ) (nodeId : String)
    (output : JsonObject) : (db.recorded runId executionId nodeId output).runNodeOutputs =
      (db.withOutput runId nodeId output).runNodeOutputs := by
  unfold recorded withOutput
  simp only [write, withCheckpoint_outputs]
  split_ifs <;> rfl

/-- Where a node has no output yet, the new one is what its lookup finds. -/
theorem lookup_withOutput (db : Db) (runId : ℕ) {node : String} (output : JsonObject)
    (h : (db.runNodeOutputs runId).lookup node = none) (key : String) :
    ((db.withOutput runId node output).runNodeOutputs runId).lookup key =
      Function.update (fun k => (db.runNodeOutputs runId).lookup k) node (some output) key := by
  simp only [withOutput, h, Option.isSome_none, Bool.false_eq_true, if_false, write,
    Function.update_self, List.lookup_append, List.lookup_cons, List.lookup_nil]
  by_cases hk : key = node
  · subst hk
    simp [h]
  · have hb : (key == node) = false := by simpa using hk
    simp [hb, Function.update_of_ne hk]

theorem withOutput_other (db : Db) {runId other : ℕ} (node : String) (output : JsonObject)
    (h : other ≠ runId) :
    (db.withOutput runId node output).runNodeOutputs other = db.runNodeOutputs other := by
  unfold withOutput
  split_ifs
  · rfl
  · exact Function.update_of_ne h ..

theorem withCheckpoint_same (db : Db) (id : ℕ) (step : String) (output : JsonObject) :
    (db.withCheckpoint id step output).checkpoints id step =
      some ((db.checkpoints id step).getD output) := by
  unfold withCheckpoint
  cases hc : db.checkpoints id step with
  | none => simp [write]
  | some existing => simp [hc]

theorem withCheckpoint_other (db : Db) {id i : ℕ} {step other : String} (output : JsonObject)
    (h : i ≠ id ∨ other ≠ step) :
    (db.withCheckpoint id step output).checkpoints i other = db.checkpoints i other := by
  unfold withCheckpoint
  split_ifs
  · rfl
  · by_cases hi : i = id
    · subst hi
      simp [write, Function.update_of_ne (h.resolve_left (by simp))]
    · simp [write, hi]

/-- One execution after `completeStep`. -/
def completedExecution (ready : List String) (runId executionId id : ℕ) (e : Execution) :
    Execution :=
  if id = executionId then e.setStatus .done
  else if e.runId = some runId ∧ e.step ∈ ready ∧ e.status = .blocked then e.setStatus .queued
  else e

theorem completed_executions (db : Db) (steps : List Step) (runId executionId : ℕ)
    (nodeId : String) (output : JsonObject) :
    (db.completed steps runId executionId nodeId output).executions =
      db.executions.map (completedExecution (readySteps steps
        ((db.recorded runId executionId nodeId output).completedIds runId)) runId executionId) := by
  have hpromoted : ((db.recorded runId executionId nodeId output).promoted runId (readySteps steps
      ((db.recorded runId executionId nodeId output).completedIds runId))).executions =
      db.executions.map (completedExecution (readySteps steps
        ((db.recorded runId executionId nodeId output).completedIds runId)) runId executionId) := by
    simp only [promoted, recorded_executions, Table.modify, Table.map_map]
    refine Table.map_congr fun id e _ => ?_
    by_cases hid : id = executionId <;> simp [completedExecution, hid]
  simp only [completed]
  split_ifs
  · exact hpromoted
  · exact hpromoted

theorem completed_outputs (db : Db) (steps : List Step) (runId executionId : ℕ)
    (nodeId : String) (output : JsonObject) :
    (db.completed steps runId executionId nodeId output).runNodeOutputs =
      (db.withOutput runId nodeId output).runNodeOutputs := by
  rw [← recorded_outputs db runId executionId]
  simp only [completed]
  split_ifs <;> rfl

theorem recorded_checkpoints (db : Db) (runId executionId : ℕ) (nodeId : String)
    (output : JsonObject) : (db.recorded runId executionId nodeId output).checkpoints =
      (db.withCheckpoint executionId nodeId output).checkpoints := by
  unfold recorded withOutput
  split_ifs <;> rfl

theorem recorded_waits (db : Db) (runId executionId : ℕ) (nodeId : String)
    (output : JsonObject) : (db.recorded runId executionId nodeId output).waits = db.waits := by
  unfold recorded withOutput withCheckpoint
  split_ifs <;> rfl

theorem completed_checkpoints (db : Db) (steps : List Step) (runId executionId : ℕ)
    (nodeId : String) (output : JsonObject) :
    (db.completed steps runId executionId nodeId output).checkpoints =
      (db.withCheckpoint executionId nodeId output).checkpoints := by
  rw [← recorded_checkpoints db runId]
  simp only [completed]
  split_ifs <;> rfl

theorem completed_waits (db : Db) (steps : List Step) (runId executionId : ℕ)
    (nodeId : String) (output : JsonObject) :
    (db.completed steps runId executionId nodeId output).waits = db.waits := by
  rw [← recorded_waits db runId executionId nodeId output]
  simp only [completed]
  split_ifs <;> rfl

theorem completed_runs (db : Db) (steps : List Step) (runId executionId : ℕ)
    (nodeId : String) (output : JsonObject) :
    (db.completed steps runId executionId nodeId output).runs =
      if ∀ step ∈ steps,
          step.id ∈ (db.recorded runId executionId nodeId output).completedIds runId then
        db.runs.modify runId fun run => if run.status = .failed then run else run.setStatus .done
      else db.runs := by
  simp only [completed]
  split_ifs
  · simp [runDone, promoted]
  · simp [promoted]

theorem completedExecution_runId (ready : List String) (runId executionId id : ℕ)
    (e : Execution) : (completedExecution ready runId executionId id e).runId = e.runId := by
  unfold completedExecution
  split_ifs <;> rfl

theorem completedExecution_step (ready : List String) (runId executionId id : ℕ)
    (e : Execution) : (completedExecution ready runId executionId id e).step = e.step := by
  unfold completedExecution
  split_ifs <;> rfl

end Db

section
open Dataflow
variable {R : SubmittedRun} {db V : Db} {σ : RunState String JsonObject}
variable {admits : String → JsonObject → Prop} {id : ℕ} {e : Execution}

theorem phaseStatus_injective {p q : Phase} (h : phaseStatus p = phaseStatus q) : p = q := by
  cases p <;> cases q <;> first | rfl | cases h

/-- A queued execution of the run belongs to a queued step of a running run. -/
theorem Represents.queued (h : Represents R db σ) (hc : Consistent R.graph admits σ)
    (he : db.executions.rows id = some e) (hrun : e.runId = some R.id)
    (hq : e.status = .queued) :
    e.step ∈ R.graph.nodes ∧ σ.status = .running ∧ σ.phase e.step = .queued := by
  obtain ⟨step, hs, hstep, hstatus⟩ := h.owned id e he hrun
  have hphase : σ.phase step.id = .queued := phaseStatus_injective (hstatus ▸ hq)
  have hnode : step.id ∈ R.graph.nodes := List.mem_map_of_mem hs
  rw [hstep]
  refine ⟨hnode, ?_, hphase⟩
  cases hst : σ.status with
  | running => rfl
  | done =>
      have := (hc.finished hst step.id hnode).2
      rw [hphase] at this
      cases this
  | failed =>
      have := hc.stopped hst step.id hnode
      rw [hphase] at this
      rcases this with hd | hf
      · cases hd
      · cases hf

/-- What a claim can find of the run: only queued executions. -/
theorem Represents.claimable_queued (h : Represents R db σ)
    (he : db.executions.rows id = some e) (hrun : e.runId = some R.id) {now : ℕ}
    (hclaim : claimable db now id e = true) : e.status = .queued := by
  obtain ⟨step, -, -, hstatus⟩ := h.owned id e he hrun
  cases hp : σ.phase step.id <;> rw [hp] at hstatus <;> simp_all [claimable, phaseStatus]

theorem mem_completedIds (h : Represents R db σ) (hview : ClaimView db V id) {nodeId : String}
    (hnone : σ.output nodeId = none) (output : JsonObject) (key : String) :
    key ∈ (V.recorded R.id id nodeId output).completedIds R.id ↔
      (Function.update σ.output nodeId (some output) key).isSome := by
  have hlookup : ∀ k, (V.runNodeOutputs R.id).lookup k = σ.output k := by
    rw [hview.outputs]
    exact h.outputs
  rw [Db.completedIds, ← AssocList.lookup_isSome_iff, Db.recorded_outputs,
    Db.lookup_withOutput _ _ _ (by rw [hlookup, hnone])]
  simp only [hlookup]

theorem mem_readySteps {steps : List Step} (hnodup : (steps.map (·.id)).Nodup)
    {completedIds : List String} {step : Step} (hs : step ∈ steps) :
    step.id ∈ readySteps steps completedIds ↔
      step.id ∉ completedIds ∧ ∀ d ∈ computeStepDependencies step, d ∈ completedIds := by
  simp only [readySteps, List.mem_map, List.mem_filter, decide_eq_true_eq]
  constructor
  · rintro ⟨s, ⟨hmem, hready⟩, hid⟩
    have hsame : s = step := by
      have h₁ := find_step hnodup hmem
      rw [hid, find_step hnodup hs] at h₁
      exact (Option.some.inj h₁).symm
    rwa [hsame] at hready
  · exact fun hready => ⟨step, ⟨hs, hready⟩, rfl⟩

/-- The rows a claiming transaction sees belong to the same steps. -/
theorem ClaimView.same_step (hview : ClaimView db V id) (he : db.executions.rows id = some e)
    {i : ℕ} {f : Execution} (hf : V.executions.rows i = some f) :
    ∃ f₀, db.executions.rows i = some f₀ ∧ f.runId = f₀.runId ∧ f.step = f₀.step ∧
      (i ≠ id → f = f₀) := by
  by_cases hi : i = id
  · subst hi
    obtain ⟨e', he', hrun', hstep', -⟩ := hview.claimed e he
    rw [he'] at hf
    cases hf
    exact ⟨e, he, hrun', hstep', fun hne => absurd rfl hne⟩
  · rw [hview.others i hi] at hf
    exact ⟨f, hf, rfl, rfl, fun _ => rfl⟩

/-- Rewriting executions in place keeps the run's rows in order; what is left to
say is which status each of them has. -/
theorem Represents.rewrite (h : Represents R db σ) (hview : ClaimView db V id)
    (he : db.executions.rows id = some e) {db' : Db} {σ' : RunState String JsonObject}
    {f : ℕ → Execution → Execution} (hf : ∀ i a, (f i a).runId = a.runId ∧ (f i a).step = a.step)
    (hrows : db'.executions = V.executions.map f)
    (hrun : ∃ run, db'.runs.rows R.id = some run ∧ run.spec = R.spec ∧ run.input = R.input ∧
      run.status = runStatus σ'.status)
    (hstatus : ∀ i a, V.executions.rows i = some a → a.runId = some R.id → ∀ step ∈ R.steps,
      a.step = step.id → (f i a).status = phaseStatus (σ'.phase step.id))
    (hout : ∀ node, (db'.runNodeOutputs R.id).lookup node = σ'.output node) :
    Represents R db' σ' := by
  have hold : ∀ i a, db'.executions.rows i = some a → ∃ b c, V.executions.rows i = some b ∧
      a = f i b ∧ db.executions.rows i = some c ∧ a.runId = c.runId ∧ a.step = c.step := by
    intro i a ha
    rw [hrows, Table.map_rows, Option.map_eq_some_iff] at ha
    obtain ⟨b, hb, rfl⟩ := ha
    obtain ⟨c, hc, hr, hs, -⟩ := hview.same_step he hb
    exact ⟨b, c, hb, rfl, hc, (hf i b).1.trans hr, (hf i b).2.trans hs⟩
  refine ⟨hrun, ?_, ?_, ?_, hout⟩
  · intro i a ha har
    obtain ⟨b, c, hb, rfl, hc, hr, hs⟩ := hold i a ha
    obtain ⟨step, hmem, hstep, -⟩ := h.owned i c hc (hr ▸ har)
    have hbstep : b.step = step.id := by rw [← (hf i b).2, hs, hstep]
    refine ⟨step, hmem, hs.trans hstep, hstatus i b hb ?_ step hmem hbstep⟩
    rw [← (hf i b).1]
    exact har
  · intro i j a a' ha ha' har har' hsame
    obtain ⟨_, c, -, -, hc, hr, hs⟩ := hold i a ha
    obtain ⟨_, c', -, -, hc', hr', hs'⟩ := hold j a' ha'
    exact h.unique i j c c' hc hc' (hr ▸ har) (hr' ▸ har') (by rw [← hs, ← hs', hsame])
  · intro step hmem
    obtain ⟨i, c, hc, hcr, hcs⟩ := h.present step hmem
    have hV : ∃ b, V.executions.rows i = some b ∧ b.runId = c.runId ∧ b.step = c.step := by
      by_cases hi : i = id
      · subst hi
        obtain ⟨e', he', hr, hs, -⟩ := hview.claimed c hc
        exact ⟨e', he', hr, hs⟩
      · exact ⟨c, (hview.others i hi).trans hc, rfl, rfl⟩
    obtain ⟨b, hb, hr, hs⟩ := hV
    refine ⟨i, f i b, by rw [hrows, Table.map_rows, hb]; rfl, ?_, ?_⟩
    · rw [(hf i b).1, hr, hcr]
    · rw [(hf i b).2, hs, hcs]

/-- The status of each execution after the claimed step has completed. -/
theorem Represents.completed_status (h : Represents R db σ) (hc : Consistent R.graph admits σ)
    (hview : ClaimView db V id) (he : db.executions.rows id = some e)
    (hrun : e.runId = some R.id) (hq : e.status = .queued) (output : JsonObject) {i : ℕ}
    {a : Execution} (ha : V.executions.rows i = some a) (har : a.runId = some R.id) {step : Step}
    (hs : step ∈ R.steps) (hstep : a.step = step.id) :
    (Db.completedExecution (readySteps R.steps
      ((V.recorded R.id id e.step output).completedIds R.id)) R.id id i a).status =
        phaseStatus ((complete R.graph σ e.step output).phase step.id) := by
  obtain ⟨hnode, hrunning, hphase⟩ := h.queued hc he hrun hq
  have hids := mem_completedIds h hview (hc.queued hrunning hnode hphase).1 output
  obtain ⟨f₀, hf₀, hr₀, hs₀, hsame⟩ := hview.same_step he ha
  by_cases hi : i = id
  · subst hi
    rw [he] at hf₀
    cases hf₀
    rw [← hs₀, hstep]
    simp [Db.completedExecution, complete, Dataflow.promote, phaseStatus]
  · obtain rfl := hsame hi
    have hne : step.id ≠ e.step := by
      rw [← hstep]
      exact fun hc => hi (h.unique i id a e hf₀ he har hrun hc)
    obtain ⟨s', hs', hstep', hstatus⟩ := h.owned i a hf₀ har
    rw [hstep] at hstep'
    rw [← hstep'] at hstatus
    have hready : σ.phase step.id = .blocked → (step.id ∈ readySteps R.steps
        ((V.recorded R.id id e.step output).completedIds R.id) ↔
        ∀ d ∈ R.graph.deps step.id,
          (Function.update σ.output e.step (some output) d).isSome) := by
      intro hblocked
      have hnot := (hc.completed hrunning _ (List.mem_map_of_mem hs)).not.mp (by simp [hblocked])
      rw [mem_readySteps R.ids_nodup hs, SubmittedRun.graph, dependencyGraph_deps R.ids_nodup hs]
      simp [hids, Function.update_of_ne hne, hnot]
    simp only [complete, Dataflow.promote, Function.update_of_ne hne, Db.completedExecution, hi, if_false,
      har, hstep, true_and]
    by_cases hblocked : σ.phase step.id = .blocked
    · have hfs : a.status = .blocked := by
        rw [hstatus, hblocked]
        rfl
      by_cases hr : step.id ∈ readySteps R.steps
          ((V.recorded R.id id e.step output).completedIds R.id)
      · rw [if_pos ⟨hr, hfs⟩, if_pos ⟨hblocked, (hready hblocked).mp hr⟩]
        rfl
      · rw [if_neg (fun hc => hr hc.1), if_neg (fun hc => hr ((hready hblocked).mpr hc.2))]
        exact hstatus
    · have hfs : a.status ≠ .blocked := by
        rw [hstatus]
        exact fun hb => hblocked (phaseStatus_injective hb)
      rw [if_neg (fun hc => hfs hc.2), if_neg (fun hc => hblocked hc.1)]
      exact hstatus

/-- Completing the claimed step is a completion of the run. -/
theorem Represents.completed (h : Represents R db σ) (hc : Consistent R.graph admits σ)
    (hview : ClaimView db V id) (he : db.executions.rows id = some e)
    (hrun : e.runId = some R.id) (hq : e.status = .queued) (output : JsonObject) :
    Represents R (V.completed R.steps R.id id e.step output)
      (complete R.graph σ e.step output) := by
  obtain ⟨hnode, hrunning, hphase⟩ := h.queued hc he hrun hq
  obtain ⟨hnone, -⟩ := hc.queued hrunning hnode hphase
  refine h.rewrite hview he (fun i a => ⟨Db.completedExecution_runId .., Db.completedExecution_step ..⟩)
    (Db.completed_executions ..) ?_ ?_ ?_
  · obtain ⟨run, hrow, hspec, hinput, hstatus⟩ := h.run
    rw [Db.completed_runs, hview.runs]
    have hall : (∀ step ∈ R.steps,
        step.id ∈ (V.recorded R.id id e.step output).completedIds R.id) ↔
        ∀ j ∈ R.graph.nodes, (Function.update σ.output e.step (some output) j).isSome := by
      simp only [mem_completedIds h hview hnone output, SubmittedRun.graph, dependencyGraph,
        List.forall_mem_map]
    by_cases hdone : ∀ step ∈ R.steps,
        step.id ∈ (V.recorded R.id id e.step output).completedIds R.id
    · rw [if_pos hdone, Table.modify_same, hrow]
      refine ⟨run.setStatus .done, ?_, hspec, hinput, ?_⟩
      · simp [hstatus, hrunning, runStatus]
      · simp only [complete, if_pos (hall.mp hdone)]
        rfl
    · rw [if_neg hdone]
      refine ⟨run, hrow, hspec, hinput, ?_⟩
      simp only [complete, if_neg (fun hj => hdone (hall.mpr hj))]
      rw [hstatus, hrunning]
  · exact fun i a ha har step hs hstep =>
      h.completed_status hc hview he hrun hq output ha har hs hstep
  · intro node
    have hlookup : ∀ k, (V.runNodeOutputs R.id).lookup k = σ.output k := by
      rw [hview.outputs]
      exact h.outputs
    rw [Db.completed_outputs, Db.lookup_withOutput _ _ _ (by rw [hlookup, hnone])]
    simp only [hlookup, complete]

/-- Failing the claimed step is a failure of the run. -/
theorem Represents.runFailed (h : Represents R db σ) (hview : ClaimView db V id)
    (he : db.executions.rows id = some e) (hrun : e.runId = some R.id) :
    Represents R (V.runFailed R.id id) (fail σ e.step) := by
  refine h.rewrite hview he (fun i a => ?_) rfl ?_ ?_ ?_
  · split_ifs <;> exact ⟨rfl, rfl⟩
  · obtain ⟨run, hrow, hspec, hinput, -⟩ := h.run
    refine ⟨run.setStatus .failed, ?_, hspec, hinput, rfl⟩
    simp only [Db.runFailed, Table.modify_same, hview.runs, hrow, Option.map_some]
  · intro i a ha har step hs hstep
    obtain ⟨f₀, hf₀, hr₀, hs₀, hsame⟩ := hview.same_step he ha
    by_cases hi : i = id
    · subst hi
      rw [he] at hf₀
      cases hf₀
      simp [fail, phaseStatus, ← hstep, hs₀]
    · obtain rfl := hsame hi
      have hne : step.id ≠ e.step := by
        rw [← hstep]
        exact fun hc => hi (h.unique i id a e hf₀ he har hrun hc)
      obtain ⟨s', hs', hstep', hstatus⟩ := h.owned i a hf₀ har
      rw [hstep] at hstep'
      rw [← hstep'] at hstatus
      cases hp : σ.phase step.id <;> rw [hp] at hstatus <;>
        simp [fail, hne, hp, hi, remainingIn, har, hstatus, phaseStatus,
          ExecutionStatus.remaining]
  · intro node
    simp only [Db.runFailed, hview.outputs, fail]
    exact h.outputs node

end
end WorkflowPlatform
