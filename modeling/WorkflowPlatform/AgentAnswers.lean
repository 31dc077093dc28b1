import WorkflowPlatform.AtomicCycle
import WorkflowPlatform.RunInvariant

/-!
# What a cycle makes of the agent's answer

An exchange that breaks is to be tried again, and a definite answer is to be
final. Both fail in one place each. A body that breaks off after a good status
is read outside the `try` that makes a failed exchange retryable, and fails the
run. An output with U+0000 or an unpaired surrogate is refused by the store, and so
is the handler that would fail the run for it, so the same answer is asked for again
and again.
-/
namespace WorkflowPlatform

section
variable {deps : WorkerDeps} {c : Choice} {locked : Row → Bool} {db : Db} {answer : FetchOutcome}

variable {id : ℕ} {e : Execution} {runId : ℕ} {run : WorkflowRun} {p : Step × InvokeRequest}

theorem cycleOutcome_claimed (h : claimedRun db c.now locked = some (id, e, runId, run)) :
    cycleOutcome deps c locked db =
      settledAs run runId id (stepAnswer deps db c.answer runId run id e) := by
  rw [cycleOutcome, h]

theorem stepAnswer_of_request (h : stepRequest deps db runId run id e = .ok p) :
    stepAnswer deps db answer runId run id e = (answerResult deps answer).map (p.1, ·) := by
  rw [stepAnswer, h]
  rfl

/-- A successful answer completes its execution, unless its output is refused. -/
theorem runOnce_success (hclaim : claimedRun db c.now locked = some (id, e, runId, run))
    (hreq : stepRequest deps db runId run id e = .ok p) {output : ParsedObject}
    (hres : answerResult deps c.answer = .ok (.ok output)) :
    (ParsedJson.fieldsRefused output = true ∧ runOnce deps c locked db = (false, db)) ∨
      ParsedJson.fieldsRefused output = false ∧ (runOnce deps c locked db).1 = true ∧
        CompletedCycle deps c.now id e runId run (ParsedJson.storedFields output) db
          (runOnce deps c locked db).2 := by
  obtain ⟨-, he, -, hrun⟩ := claimedRun_eq_some.mp hclaim
  rw [runOnce_eq, cycleOutcome_claimed hclaim, stepAnswer_of_request hreq, hres]
  simp only [Except.map, settledAs]
  split_ifs with hrefused
  · exact .inl ⟨hrefused, rfl⟩
  · refine .inr ⟨by simpa using hrefused, rfl, ?_⟩
    rw [CycleOutcome.result, stepRequest_id hreq]
    exact completedCycle he hrun _

/-- Any other answer, and any error before it, fails the run, unless it may be
retried. -/
theorem runOnce_failure (hclaim : claimedRun db c.now locked = some (id, e, runId, run))
    (h : settledAs run runId id (stepAnswer deps db c.answer runId run id e) =
      .runFailed runId id) :
    (runOnce deps c locked db).1 = true ∧
      FailedCycle deps c.now id e runId run db (runOnce deps c locked db).2 := by
  obtain ⟨-, he, -, hrun⟩ := claimedRun_eq_some.mp hclaim
  rw [runOnce_eq, cycleOutcome_claimed hclaim, h]
  exact ⟨rfl, failedCycle he hrun⟩

theorem answerResult_complete {status : ℕ} {text : String} {value : ParsedJson}
    (h : 200 ≤ status ∧ status < 300) :
    answerResult deps (.response status (.complete text (some value))) = readDispatch value := by
  have h4xx : ¬ (400 ≤ status ∧ status < 500) := by omega
  simp only [answerResult, readResponse, h4xx, h, and_self, not_true, if_false]
  rfl

/-- What goes wrong before the request is not worth another try. -/
theorem raises_stepRequest (deps : WorkerDeps) (db : Db) (runId : ℕ) (run : WorkflowRun) (id : ℕ)
    (e : Execution) :
    Raises (fun err => err.isRetryable = false) (stepRequest deps db runId run id e) := by
  refine ((raises_findRunStepNode _ _).mono fun _ h => h.notRetryable).bind fun node =>
    Raises.bind ?_ fun input => ((raises_buildInvokeRequest _).mono fun _ h => h.notRetryable).bind
      fun _ => raises_ok _
  refine (raises_resolveBindings _ _).mono ?_
  rintro err (h | ⟨_, _, _, -, -, rfl⟩)
  · exact h.notRetryable
  · rfl

theorem claimable_open {now : ℕ} (h : claimable db now id e = true) :
    ¬ (e.status = .done ∨ e.status = .failed) := by
  unfold claimable at h
  split at h <;> simp_all

theorem claimCandidate_open {now : ℕ} (h : db.claimCandidate now locked = some id)
    (he : db.executions.rows id = some e) : ¬ (e.status = .done ∨ e.status = .failed) := by
  obtain ⟨⟨f, hf, hopen⟩, -⟩ := claimCandidate_spec h
  rw [he] at hf
  cases hf
  exact claimable_open hopen

/-- A complete answer settles its execution unless its output is refused. -/
theorem runOnce_settles (hclaim : claimedRun db c.now locked = some (id, e, runId, run))
    {text : String} {value : ParsedJson}
    (hanswer : c.answer = .response 200 (.complete text (some value)))
    (hcond : ¬ ((∃ p, stepRequest deps db runId run id e = .ok p) ∧
      ∃ output, readDispatch value = .ok (.ok output) ∧ ParsedJson.fieldsRefused output = true)) :
    (runOnce deps c locked db).1 = true ∧
      ∃ f, (runOnce deps c locked db).2.executions.rows id = some f ∧
        f.runId = some runId ∧ (f.status = .done ∨ f.status = .failed) := by
  have hres : answerResult deps c.answer = readDispatch value := by
    rw [hanswer]
    exact answerResult_complete (by decide)
  obtain ⟨-, -, hrunId, -⟩ := claimedRun_eq_some.mp hclaim
  have hfailure : settledAs run runId id (stepAnswer deps db c.answer runId run id e) =
      .runFailed runId id → (runOnce deps c locked db).1 = true ∧
        ∃ f, (runOnce deps c locked db).2.executions.rows id = some f ∧
          f.runId = some runId ∧ (f.status = .done ∨ f.status = .failed) := by
    intro h
    obtain ⟨hworked, hfailed⟩ := runOnce_failure hclaim h
    exact ⟨hworked, _, hfailed.claimed, hrunId, .inr rfl⟩
  cases hreq : stepRequest deps db runId run id e with
  | error err =>
      refine hfailure ?_
      have herr := raises_stepRequest deps db runId run id e err hreq
      rw [stepAnswer, hreq]
      simp only [bind, Except.bind, settledAs, herr, Bool.false_eq_true, if_false]
  | ok p =>
      cases hread : readDispatch value with
      | error err =>
          refine hfailure ?_
          have herr := (raises_readDispatch value err hread).notRetryable
          rw [stepAnswer_of_request hreq, hres, hread]
          simp only [Except.map, settledAs, herr, Bool.false_eq_true, if_false]
      | ok result =>
          cases result with
          | failed response =>
              refine hfailure ?_
              rw [stepAnswer_of_request hreq, hres, hread]
              rfl
          | ok output =>
              rcases runOnce_success hclaim hreq (hres.trans hread) with ⟨hrefused, -⟩ | ⟨-, hworked, h⟩
              · exact absurd ⟨⟨p, hreq⟩, output, hread, hrefused⟩ hcond
              · exact ⟨hworked, _, h.claimed, hrunId, .inl rfl⟩

/-- And one whose output is refused leaves everything as it was. -/
theorem runOnce_refused (hclaim : claimedRun db c.now locked = some (id, e, runId, run))
    {text : String} {value : ParsedJson}
    (hanswer : c.answer = .response 200 (.complete text (some value)))
    (hcond : (∃ p, stepRequest deps db runId run id e = .ok p) ∧
      ∃ output, readDispatch value = .ok (.ok output) ∧ ParsedJson.fieldsRefused output = true) :
    runOnce deps c locked db = (false, db) := by
  obtain ⟨⟨p, hreq⟩, output, hread, hrefused⟩ := hcond
  have hres : answerResult deps c.answer = .ok (.ok output) := by
    rw [hanswer, answerResult_complete (by decide)]
    exact hread
  rcases runOnce_success hclaim hreq hres with ⟨-, h⟩ | ⟨haccept, -⟩
  · exact h
  · rw [hrefused] at haccept
    cases haccept

/-- A complete answer settles its execution, exactly unless it reports success with
an output that has U+0000 or an unpaired surrogate in some string or key. -/
theorem complete_answer_final (hclaim : claimedRun db c.now locked = some (id, e, runId, run))
    {text : String} {value : ParsedJson}
    (hanswer : c.answer = .response 200 (.complete text (some value))) :
    (∃ f, (runOnce deps c locked db).2.executions.rows id = some f ∧
      (f.status = .done ∨ f.status = .failed)) ↔
    ¬ ((∃ p, stepRequest deps db runId run id e = .ok p) ∧
      ∃ output, readDispatch value = .ok (.ok output) ∧ ParsedJson.fieldsRefused output = true) := by
  obtain ⟨hid, he, -, -⟩ := claimedRun_eq_some.mp hclaim
  constructor
  · rintro ⟨f, hf, hstatus⟩ hcond
    rw [runOnce_refused hclaim hanswer hcond, he] at hf
    cases hf
    exact claimCandidate_open hid he hstatus
  · intro hcond
    obtain ⟨-, f, hf, -, hstatus⟩ := runOnce_settles hclaim hanswer hcond
    exact ⟨f, hf, hstatus⟩

end

/-- Nobody else holds a lock. -/
def unlocked : Row → Bool := fun _ => false

theorem reader_claimed : ∃ e run p, claimedRun (readerDb "first") 0 unlocked = some (1, e, 1, run) ∧
    stepRequest workerDeps (readerDb "first") 1 run 1 e = .ok p := ⟨_, _, _, rfl, rfl⟩

/-- A successful answer, whose output is completed. -/
theorem complete_answer_final_reader : ∃ f,
    (runOnce workerDeps { now := 0, answer := okAnswer [] } unlocked
      (readerDb "first")).2.executions.rows 1 = some f ∧
    (f.status = .done ∨ f.status = .failed) := by
  obtain ⟨e, run, p, hclaim, -⟩ := reader_claimed
  refine (complete_answer_final hclaim rfl).mpr ?_
  rintro ⟨-, output, hread, hrefused⟩
  obtain rfl : ([] : ParsedObject) = output := DispatchResult.ok.inj (Except.ok.inj hread)
  cases hrefused

/-- The cycle of a refused output is rolled back, and the execution is queued as
before. -/
theorem refused_never_final {c : Choice} {text : String} {value : ParsedJson}
    {output : ParsedObject} (hnow : c.now = 0)
    (hanswer : c.answer = .response 200 (.complete text (some value)))
    (hread : readDispatch value = .ok (.ok output))
    (hrefused : ParsedJson.fieldsRefused output = true) : ∃ e run p,
      claimedRun (readerDb "first") c.now unlocked = some (1, e, 1, run) ∧
      stepRequest workerDeps (readerDb "first") 1 run 1 e = .ok p ∧
      runOnce workerDeps c unlocked (readerDb "first") = (false, readerDb "first") ∧
      ((runOnce workerDeps c unlocked (readerDb "first")).2.executions.rows 1).any
        (·.status = .queued) = true := by
  obtain ⟨e, run, p, hclaim, hreq⟩ := reader_claimed
  rw [← hnow] at hclaim
  have hdrop := runOnce_refused hclaim hanswer ⟨⟨p, hreq⟩, output, hread, hrefused⟩
  refine ⟨e, run, p, hclaim, hreq, hdrop, ?_⟩
  rw [hdrop]
  decide

/-- A complete, successful answer whose output the store refuses. -/
def nulAnswer : Choice := { now := 0, answer := okAnswer [("text", .str "\x00")] }

theorem nul_output_never_final : ∃ e run p,
    claimedRun (readerDb "first") nulAnswer.now unlocked = some (1, e, 1, run) ∧
    stepRequest workerDeps (readerDb "first") 1 run 1 e = .ok p ∧
    runOnce workerDeps nulAnswer unlocked (readerDb "first") = (false, readerDb "first") ∧
    ((runOnce workerDeps nulAnswer unlocked (readerDb "first")).2.executions.rows 1).any
      (·.status = .queued) = true :=
  refused_never_final rfl rfl rfl rfl

/-- An output with a high surrogate that nothing follows. -/
def unpairedAnswer : Choice where
  now := 0
  answer := .response 200 (.complete "\x7b\"status\":\"ok\",\"output\":\x7b\"text\":\"\\ud800\"\x7d\x7d"
    (some (.obj [(.text "status", .str (.text "ok")),
      (.text "output", .obj [(.text "text", .str (.unpaired [0xD800] rfl))])])))

example : ∃ e run p,
    claimedRun (readerDb "first") unpairedAnswer.now unlocked = some (1, e, 1, run) ∧
    stepRequest workerDeps (readerDb "first") 1 run 1 e = .ok p ∧
    runOnce workerDeps unpairedAnswer unlocked (readerDb "first") = (false, readerDb "first") ∧
    ((runOnce workerDeps unpairedAnswer unlocked (readerDb "first")).2.executions.rows 1).any
      (·.status = .queued) = true :=
  refused_never_final rfl rfl rfl rfl

end WorkflowPlatform
