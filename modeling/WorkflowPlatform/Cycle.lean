import WorkflowPlatform.OtherRuns
import WorkflowPlatform.WorkerProtocol

/-!
# Every worker cycle keeps the protocol of a run

`cycle` is the part of `runOnce` up to the point where the claimed execution and
its run are in hand. Whatever work follows, the cycle keeps the protocol as long
as that work does on the run's own executions and names no other ones.
-/
namespace WorkflowPlatform

/-- Claim an execution, look up its run and hand over. -/
def cycle (deps : WorkerDeps) (work : ℕ → WorkflowRun → ℕ → Execution → Tx Bool) : Tx Bool := do
  match ← ExecutionsRepo.claim deps.workerId deps.leaseSeconds with
  | none => pure false
  | some (executionId, execution) => match execution.runId with
    | none => Script.throw (.retryable .WORKER_EXECUTION_MISSING_RUN
        [("executionId", ErrorContext.ofNat executionId)])
    | some runId => match ← WorkflowRunsRepo.findById runId with
      | none => Script.throw (.fatal .WORKER_EXECUTION_MISSING_RUN
          [("executionId", ErrorContext.ofNat executionId), ("runId", ErrorContext.ofNat runId)])
      | some run => work runId run executionId execution

section
variable {R : SubmittedRun} {admits : String → JsonObject → Prop} {env : Op → Choice → Prop}
variable {deps : WorkerDeps} {work : ℕ → WorkflowRun → ℕ → Execution → Tx Bool} {db : Db}

theorem Represents.claimed {σ : Dataflow.RunState String JsonObject} (hσ : Represents R db σ)
    {id now : ℕ} {e : Execution} (he : db.executions.rows id = some e)
    (hrun : e.runId = some R.id) (hclaim : claimable db now id e = true) (workerId : String)
    (leaseUntil : ℕ) :
    Claimed R id e [.satisfyDueWaits id now, .claim id workerId leaseUntil] db :=
  ⟨he, hrun, hσ.claimable_queued he hrun hclaim, now, workerId, leaseUntil, rfl⟩

theorem foreignTxn_claimed {r id : ℕ} {e : Execution} (hne : r ≠ R.id)
    (he : db.executions.rows id = some e) (hrun : e.runId = some r) (now : ℕ)
    (workerId : String) (leaseUntil : ℕ) :
    ForeignTxn R r id false [.satisfyDueWaits id now, .claim id workerId leaseUntil] db where
  row := ⟨e, he, hrun⟩
  locked := fun _ => by simp [Store.locks, platform, Write.row]
  apart := by
    intro w hw
    simp only [List.mem_cons, List.not_mem_nil, or_false] at hw
    rcases hw with rfl | rfl
    · trivial
    · intro f hf hfr
      rw [he] at hf
      cases hf
      exact hne (Option.some.inj (hrun.symm.trans hfr))
  own := by
    intro w hw
    simp only [List.mem_cons, List.not_mem_nil, or_false] at hw
    rcases hw with rfl | rfl <;> rfl

theorem ensures_cycle
    (hown : ∀ id e ws d run execution, (runProtocol R admits env).inv d → Claimed R id e ws d →
      run.spec = R.spec → run.input = R.input → execution.step = e.step →
      (runProtocol R admits env).Ensures (Keeping R admits) false (work R.id run id execution) ws d)
    (hother : ∀ r run id execution, (work r run id execution).All (OfExecution r id)) :
    (runProtocol R admits env).Ensures (Keeping R admits) false (cycle deps work) [] db := by
  have hthrow : ∀ (err : Failure) ws d,
      (runProtocol R admits env).Ensures (Keeping R admits) false (.done (.error err)) ws d :=
    fun err ws d _ _ _ _ a ha => by cases ha
  refine Protocol.ensures_query _ (fun _ _ hab => by cases hab) fun d hd _ => ⟨trivial, ?_⟩
  intro c locked found ws' _ hresp
  rcases claim_cases hresp with ⟨rfl, rfl⟩ | ⟨id, e, he, hclaim, -, rfl, rfl⟩
  · intro d' hd' _ _ _ _
    exact .of_frozen hd' (.refl _ _) (.refl _) fun _ _ => rfl
  · dsimp only [List.nil_append, Execution.claimed_runId]
    cases hrun : e.runId with
    | none => exact hthrow _ _ _
    | some r =>
        refine Protocol.ensures_query _ (fun _ _ hab => by cases hab) fun d' hd' hr => ⟨trivial, ?_⟩
        intro c' locked' row ws'' _ hresp'
        obtain ⟨rfl, rfl⟩ := Prod.mk.inj (Option.some.inj hresp')
        rw [List.append_nil]
        by_cases hR : r = R.id
        · subst hR
          obtain ⟨σ, hσ, -⟩ := hd
          have hclaimed := (hσ.claimed he hrun hclaim deps.workerId
            (c.now + 1000 * deps.leaseSeconds)).of_rely hr
          obtain ⟨run, hrow, hspec, hinput⟩ := hclaimed.run_row hd'
          rw [hrow]
          exact hown id e _ d' run _ hd' hclaimed hspec hinput rfl
        · cases (platform.view d' _).runs.rows r with
          | none => exact hthrow _ _ _
          | some run =>
              have htxn := foreignTxn_claimed hR he hrun c.now deps.workerId
                (c.now + 1000 * deps.leaseSeconds)
              exact ensures_foreign hR (hother r run id _) (htxn.of_keeps hr.keeps)

theorem follows_cycle {n : ℕ} {deps : Fin n → WorkerDeps}
    {work : Fin n → ℕ → WorkflowRun → ℕ → Execution → Tx Bool}
    (hown : ∀ t id e ws d run execution, (runProtocol R admits env).inv d → Claimed R id e ws d →
      run.spec = R.spec → run.input = R.input → execution.step = e.step →
      (runProtocol R admits env).Ensures (Keeping R admits) false
        (work t R.id run id execution) ws d)
    (hother : ∀ t r run id execution, (work t r run id execution).All (OfExecution r id)) :
    (runProtocol R admits env).Follows (Keeping R admits) fun t => cycle (deps t) (work t) where
  lawful := platform_lawful
  start := fun t _ _ => ensures_cycle (hown t) (hother t)
  commit := fun a _ _ _ hpost => ⟨(hpost rfl a rfl).inv, (hpost rfl a rfl).rely⟩

/-- `runOnce`, with an agent that answers what the steps may have. -/
theorem follows_runOnce {n : ℕ} (deps : Fin n → WorkerDeps)
    (henv : ∀ op c, env op c → agentEnv admits op c) :
    (runProtocol R admits env).Follows (Keeping R admits) fun t => runOnceBody (deps t) := by
  refine follows_cycle (fun t id e ws d run execution hinv hclaim hspec _ hexec => ?_) ?_
  · exact ensures_claimed henv hinv hclaim hspec hexec (deps t)
  · exact fun t r run id execution => Script.all_tryCatch
      (tame_processExecution r id _ _ _).all fun err => all_handleFailure r id err

end
end WorkflowPlatform
