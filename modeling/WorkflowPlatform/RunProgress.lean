import WorkflowPlatform.RunInvariant

/-!
# When a run stops

A run that is running without anything to claim has a cycle among its blocked
steps, or one of them names an id that is not there. On any other graph there is
something to claim until the run is done, and each success leaves one step less.
A failed run has stopped for good.
-/
namespace WorkflowPlatform
open Dataflow

/-- An execution that a worker has claimed or may claim, now or in time. -/
def ExecutionStatus.live : ExecutionStatus → Bool
  | .queued => true
  | .running => true
  | .waiting => true
  | _ => false

def HasLive (R : SubmittedRun) (db : Db) : Prop :=
  ∃ i e, db.executions.rows i = some e ∧ e.runId = some R.id ∧ e.status.live = true

def recordedCount (R : SubmittedRun) (db : Db) : ℕ :=
  R.steps.countP fun step => ((db.runNodeOutputs R.id).lookup step.id).isSome

section
variable {R : SubmittedRun} {admits : String → JsonObject → Prop} {db db' : Db}
variable {σ σ' : RunState String JsonObject}

theorem Represents.not_queued (h : Represents R db σ) (hlive : ¬ HasLive R db) {i : String}
    (hi : i ∈ R.graph.nodes) : σ.phase i ≠ .queued := by
  intro hq
  obtain ⟨step, hs, rfl⟩ := List.mem_map.mp hi
  obtain ⟨j, e, he, hr, -, hstatus⟩ := (h.hasStatus hs .queued).mpr hq
  exact hlive ⟨j, e, he, hr, by rw [hstatus]; rfl⟩

theorem countP_lt_countP {α : Type} {p q : α → Bool} {l : List α}
    (hle : ∀ a ∈ l, p a = true → q a = true) {a : α} (ha : a ∈ l) (hp : p a = false)
    (hq : q a = true) : l.countP p < l.countP q := by
  induction l with
  | nil => cases ha
  | cons b rest ih =>
      have hrest : ∀ a ∈ rest, p a = true → q a = true :=
        fun a h => hle a (List.mem_cons_of_mem _ h)
      rw [List.countP_cons, List.countP_cons]
      rcases List.mem_cons.mp ha with rfl | ha
      · have := List.countP_mono_left hrest
        simp only [hp, hq, Bool.false_eq_true, if_false, if_true]
        omega
      · have := ih hrest ha
        have hb := hle b List.mem_cons_self
        by_cases hpb : p b = true
        · simp only [hpb, hb hpb, if_true]
          omega
        · simp only [hpb, Bool.false_eq_true, if_false]
          omega

/-- Without failing, a run can only move on by recording outputs. -/
theorem recordedCount_lt (hσ : Represents R db σ) (hc : Consistent R.graph admits σ)
    (hσ' : Represents R db' σ') (hreach : Reaches R.graph admits σ σ')
    (hfailed : σ'.status ≠ .failed) (hne : σ' ≠ σ) : recordedCount R db < recordedCount R db' := by
  obtain ⟨i, hi, hnone, hsome⟩ := (hc.eq_or_recorded hreach hfailed).resolve_left hne
  obtain ⟨step, hs, rfl⟩ := List.mem_map.mp hi
  refine countP_lt_countP ?_ hs ?_ ?_
  · intro s _ hold
    rw [hσ.outputs] at hold
    obtain ⟨v, hv⟩ := Option.isSome_iff_exists.mp hold
    rw [hσ'.outputs, hc.output_reaches hreach hv]
    rfl
  · rw [hσ.outputs, hnone]
    rfl
  · rw [hσ'.outputs]
    exact hsome

end

section
variable {n : ℕ} {deps : Fin n → WorkerDeps} {env : Op → Choice → Prop} {R : SubmittedRun}
variable {db : Db} {st st' : WorkerSystem n}

/-- Later states of the workers move the run on. -/
theorem reaches_moves (hsub : Submitted R db)
    (hreach : platform.Reaches (runWorkers deps) env (Store.idle db) st)
    (hlater : platform.Reaches (runWorkers deps) env st st') :
    ∃ σ σ', Represents R st.db σ ∧ Consistent R.graph (fun _ _ => True) σ ∧
      Represents R st'.db σ' ∧ Reaches R.graph (fun _ _ => True) σ σ' ∧ Keeps st.db st'.db := by
  have hsound := reaches_sound hsub (fun op c _ => agentEnv_true op c) hreach
  obtain ⟨σ, hσ, hc⟩ := hsound.inv
  have hfollows : (runProtocol R (fun _ _ => True) env).Follows (Keeping R fun _ _ => True)
      (runWorkers deps) := follows_runOnce deps fun op c _ => agentEnv_true op c
  have hrely := hsound.rely_reaches hfollows hlater
  obtain ⟨σ', hσ', hmoves⟩ := hrely.moves σ hσ hc
  exact ⟨σ, σ', hσ, hc, hσ', hmoves, hrely.keeps⟩

/-- The status of each execution is its step's phase. -/
theorem Represents.status_eq {σ : RunState String JsonObject} (h : Represents R db σ) {i : ℕ}
    {e : Execution} (he : db.executions.rows i = some e) (hr : e.runId = some R.id) :
    e.step ∈ R.graph.nodes ∧ e.status = phaseStatus (σ.phase e.step) := by
  obtain ⟨step, hs, hstep, hstatus⟩ := h.owned i e he hr
  rw [hstep]
  exact ⟨R.mem_nodes hs, hstatus⟩

section
variable {σ : RunState String JsonObject}

theorem Represents.done_iff (h : Represents R db σ) :
    RunStatusIs R db .done ↔ σ.status = .done :=
  h.runStatusIs .done

/-- A run with nothing live depends on a step it does not have, or waits for
itself. -/
theorem Represents.stuck (hσ : Represents R db σ) (hc : Consistent R.graph (fun _ _ => True) σ)
    (hrun : RunStatusIs R db .running) (hlive : ¬ HasLive R db) :
    (∃ step ∈ R.steps, HasStatus R db step.id .blocked ∧
      ∃ d ∈ computeStepDependencies step, ∀ s ∈ R.steps, s.id ≠ d) ∨
    ∃ id, Relation.TransGen (fun a b => HasStatus R db a .blocked ∧ HasStatus R db b .blocked ∧
      ∃ s ∈ R.steps, s.id = b ∧ a ∈ computeStepDependencies s) id id := by
  rcases hc.stuck ((hσ.runStatusIs .running).mp hrun) (fun i hi => hσ.not_queued hlive hi) with
    ⟨i, hi, hblocked, d, hd, hmem⟩ | ⟨i, hcycle⟩
  · left
    obtain ⟨step, hs, rfl⟩ := List.mem_map.mp hi
    rw [R.deps_eq hs] at hd
    refine ⟨step, hs, (hσ.hasStatus hs .blocked).mpr hblocked, d, hd, ?_⟩
    intro s hs' hid
    exact hmem (hid ▸ R.mem_nodes hs')
  · refine .inr ⟨i, Relation.TransGen.mono (fun a b hab => ?_) _ _ hcycle⟩
    obtain ⟨ha, hb, hna, hnb, hdep⟩ := hab
    obtain ⟨sa, hsa, rfl⟩ := List.mem_map.mp hna
    obtain ⟨sb, hsb, rfl⟩ := List.mem_map.mp hnb
    rw [R.deps_eq hsb] at hdep
    exact ⟨(hσ.hasStatus hsa .blocked).mpr ha, (hσ.hasStatus hsb .blocked).mpr hb,
      sb, hsb, rfl, hdep⟩

/-- While the run is running, one of its steps is queued. -/
theorem Represents.exists_queued (hσ : Represents R db σ)
    (hc : Consistent R.graph (fun _ _ => True) σ) (hclosed : R.graph.Closed)
    (hacyclic : R.graph.Acyclic) (hrun : σ.status = .running) :
    ∃ i e, db.executions.rows i = some e ∧ e.runId = some R.id ∧ e.status = .queued := by
  obtain ⟨i, hi, hq⟩ := hc.exists_queued hclosed hacyclic hrun
  obtain ⟨step, hs, rfl⟩ := List.mem_map.mp hi
  obtain ⟨j, e, he, hr, -, hstatus⟩ := (hσ.hasStatus hs .queued).mpr hq
  exact ⟨j, e, he, hr, hstatus⟩

theorem Represents.done_of_not_live (hσ : Represents R db σ)
    (hc : Consistent R.graph (fun _ _ => True) σ) (hclosed : R.graph.Closed)
    (hacyclic : R.graph.Acyclic) (hfailed : ¬ RunStatusIs R db .failed)
    (hlive : ¬ HasLive R db) : RunStatusIs R db .done := by
  rw [hσ.done_iff]
  cases hst : σ.status with
  | done => rfl
  | failed => exact absurd ((hσ.runStatusIs .failed).mpr hst) hfailed
  | running =>
      obtain ⟨i, e, he, hr, hstatus⟩ := hσ.exists_queued hc hclosed hacyclic hst
      exact absurd ⟨i, e, he, hr, by rw [hstatus]; rfl⟩ hlive

theorem Represents.done_iff_recorded (hσ : Represents R db σ)
    (hc : Consistent R.graph (fun _ _ => True) σ) :
    RunStatusIs R db .done ↔ recordedCount R db = R.steps.length := by
  rw [recordedCount, List.countP_eq_length, hσ.done_iff]
  constructor
  · intro hdone step hs
    rw [hσ.outputs]
    exact (hc.finished hdone _ (R.mem_nodes hs)).1
  · intro hall
    by_contra hnot
    obtain ⟨i, hi, hnone⟩ := hc.unfinished hnot
    obtain ⟨step, hs, rfl⟩ := List.mem_map.mp hi
    have hrecorded := hall step hs
    rw [hσ.outputs, hnone] at hrecorded
    cases hrecorded

end

/-- A status that changes while the run has not failed is paid for by an output. -/
theorem recordedCount_lt_of_changed (hsub : Submitted R db)
    (hreach : platform.Reaches (runWorkers deps) env (Store.idle db) st)
    (hlater : platform.Reaches (runWorkers deps) env st st')
    (hfailed : ¬ RunStatusIs R st'.db .failed)
    {i : ℕ} {e e' : Execution} (he : st.db.executions.rows i = some e) (hr : e.runId = some R.id)
    (he' : st'.db.executions.rows i = some e') (hne : e'.status ≠ e.status) :
    recordedCount R st.db < recordedCount R st'.db := by
  obtain ⟨σ, σ', hσ, hc, hσ', hmoves, hkeeps⟩ := reaches_moves hsub hreach hlater
  refine recordedCount_lt hσ hc hσ' hmoves
    (fun hf => hfailed ((hσ'.runStatusIs .failed).mpr hf)) ?_
  rintro rfl
  obtain ⟨e₀, he₀, hrun, hstep⟩ := hkeeps.present he'
  rw [he] at he₀
  cases he₀
  refine hne ?_
  rw [(hσ'.status_eq he' (hrun ▸ hr)).2, (hσ.status_eq he hr).2, hstep]

theorem run_stuck_only_on_bad_graph (hsub : Submitted R db)
    (hreach : platform.Reaches (runWorkers deps) env (Store.idle db) st) :
    (RunStatusIs R st.db .running → ¬ HasLive R st.db →
      (∃ step ∈ R.steps, HasStatus R st.db step.id .blocked ∧
        ∃ d ∈ computeStepDependencies step, ∀ s ∈ R.steps, s.id ≠ d) ∨
      ∃ id, Relation.TransGen (fun a b => HasStatus R st.db a .blocked ∧
        HasStatus R st.db b .blocked ∧
        ∃ s ∈ R.steps, s.id = b ∧ a ∈ computeStepDependencies s) id id) ∧
    (R.graph.Closed → R.graph.Acyclic → RunStatusIs R st.db .running →
      ∃ i e, st.db.executions.rows i = some e ∧ e.runId = some R.id ∧
        ∀ now, claimable st.db now i e = true) ∧
    (R.graph.Closed → R.graph.Acyclic → ¬ RunStatusIs R st.db .failed → ¬ HasLive R st.db →
      RunStatusIs R st.db .done) ∧
    (RunStatusIs R st.db .done ↔ recordedCount R st.db = R.steps.length) ∧
    ∀ st', platform.Reaches (runWorkers deps) env st st' → ¬ RunStatusIs R st'.db .failed →
      (∃ i e e', st.db.executions.rows i = some e ∧ e.runId = some R.id ∧
        st'.db.executions.rows i = some e' ∧ e'.status ≠ e.status) →
      recordedCount R st.db < recordedCount R st'.db := by
  obtain ⟨σ, hσ, hc⟩ := (reaches_sound hsub (fun op c _ => agentEnv_true op c) hreach).inv
  refine ⟨hσ.stuck hc, ?_, hσ.done_of_not_live hc, hσ.done_iff_recorded hc, ?_⟩
  · intro hclosed hacyclic hrun
    obtain ⟨i, e, he, hr, hstatus⟩ :=
      hσ.exists_queued hc hclosed hacyclic ((hσ.runStatusIs .running).mp hrun)
    exact ⟨i, e, he, hr, fun now => by simp [claimable, hstatus]⟩
  · intro st' hlater hfailed hchanged
    obtain ⟨i, e, e', he, hr, he', hne⟩ := hchanged
    exact recordedCount_lt_of_changed hsub hreach hlater hfailed he hr he' hne

end

theorem cyclicRun_stuck :
    (∃ step ∈ cyclicRun.steps, HasStatus cyclicRun cyclicDb step.id .blocked ∧
      ∃ d ∈ computeStepDependencies step, ∀ s ∈ cyclicRun.steps, s.id ≠ d) ∨
    ∃ id, Relation.TransGen (fun a b => HasStatus cyclicRun cyclicDb a .blocked ∧
      HasStatus cyclicRun cyclicDb b .blocked ∧
      ∃ s ∈ cyclicRun.steps, s.id = b ∧ a ∈ computeStepDependencies s) id id := by
  have hreach : platform.Reaches (runWorkers fun _ : Fin 1 => workerDeps) (fun _ _ => True)
      (Store.idle cyclicDb) (Store.idle cyclicDb) := .refl
  have hdead : (cyclicDb.executionIds fun e => e.status.live) = [] := by decide
  refine (run_stuck_only_on_bad_graph cyclicRun_submitted hreach).1 ⟨_, rfl, rfl⟩ ?_
  rintro ⟨i, e, he, -, hlive⟩
  have hmem : i ∈ cyclicDb.executionIds fun e => e.status.live :=
    Db.mem_executionIds.mpr ⟨e, he, hlive⟩
  rw [hdead] at hmem
  cases hmem

section
variable {n : ℕ} {deps : Fin n → WorkerDeps} {env : Op → Choice → Prop} {R : SubmittedRun}
variable {db : Db} {st st' : WorkerSystem n}

/-- After the failure of a run has been committed, its status and those of its
executions stay, and no request for one of them is on its way. -/
theorem failed_run_final (hsub : Submitted R db)
    (hreach : platform.Reaches (runWorkers deps) env (Store.idle db) st)
    (hfailed : RunStatusIs R st.db .failed)
    (hlater : platform.Reaches (runWorkers deps) env st st') :
    RunStatusIs R st'.db .failed ∧
    (∀ i e, st.db.executions.rows i = some e → e.runId = some R.id →
      ∃ e', st'.db.executions.rows i = some e' ∧ e'.status = e.status) ∧
    ∀ t url auth body timeoutMs next ws ab,
      st'.txns t = some ⟨.call (.fetch url auth body timeoutMs) next, ws, ab⟩ →
      ∀ i e, st'.db.executions.rows i = some e → e.runId = some R.id →
        body.executionId ≠ Nat.repr i := by
  obtain ⟨σ, σ', hσ, hc, hσ', hmoves, hkeeps⟩ := reaches_moves hsub hreach hlater
  have hstatus : σ.status = .failed := (hσ.runStatusIs .failed).mp hfailed
  obtain rfl : σ' = σ := eq_of_reaches (by simp [hstatus]) hmoves
  refine ⟨(hσ'.runStatusIs .failed).mpr hstatus, ?_, ?_⟩
  · intro i e he hr
    obtain ⟨e', he', hrun, hstep⟩ := hkeeps.symm.present he
    refine ⟨e', he', ?_⟩
    rw [(hσ'.status_eq he' (hrun ▸ hr)).2, (hσ.status_eq he hr).2, hstep]
  · intro t url auth body timeoutMs next ws ab ht i e he hr hbody
    have hsound := reaches_sound hsub (fun op c _ => agentEnv_true op c) (hreach.trans hlater)
    have hqueued : e.status = .queued := hsound.pre ht (.inr rfl) i e he hr hbody
    obtain ⟨hnode, hphase⟩ := hσ'.status_eq he hr
    rcases hc.stopped hstatus _ hnode with hp | hp <;> rw [hp, hqueued] at hphase <;> cases hphase

end

theorem failed_run_final_reader : ∃ st st' : WorkerSystem 1,
    platform.steps (runWorkers fun _ => workerDeps) (Store.idle (readerDb "first"))
      (.begin 0 :: List.replicate 8 (.call 0 { now := 0, answer := errorAnswer }) ++
        [.finish 0]) = some st ∧
    platform.steps (runWorkers fun _ => workerDeps) st [.begin 0, .call 0 { now := 0 }] = some st' ∧
    RunStatusIs (readerRun "first" rfl) st'.db .failed := by
  have hrun : (platform.steps (n := 1) (runWorkers fun _ => workerDeps)
      (Store.idle (readerDb "first"))
      (.begin 0 :: List.replicate 8 (.call 0 { now := 0, answer := errorAnswer }) ++
        [.finish 0])).any (fun st => (st.db.runs.rows 1).any (·.status = .failed) &&
        (platform.steps (runWorkers fun _ => workerDeps) st
          [.begin 0, .call 0 { now := 0 }]).isSome) = true := by decide
  obtain ⟨st, hst, h⟩ := (Option.any_eq_true ..).mp hrun
  rw [Bool.and_eq_true, Option.any_eq_true] at h
  obtain ⟨⟨run, hrow, hfailed⟩, hnext⟩ := h
  obtain ⟨st', hst'⟩ := Option.isSome_iff_exists.mp hnext
  have hreach : platform.Reaches (runWorkers fun _ => workerDeps) (fun _ _ => True) _ st :=
    platform.steps_reaches (fun _ _ => trivial) hst
  have hlater : platform.Reaches (runWorkers fun _ => workerDeps) (fun _ _ => True) st st' :=
    platform.steps_reaches (fun _ _ => trivial) hst'
  exact ⟨st, st', hst, hst', (failed_run_final readerRun_submitted hreach
    ⟨run, hrow, by simpa using hfailed⟩ hlater).1⟩

end WorkflowPlatform
