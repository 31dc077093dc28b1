import WorkflowPlatform.AgentAnswers

/-!
# Progress of the worker loop

A cycle takes the first claimable row and nothing else. Where that row can be
processed, a complete answer moves it to its final status, and since there are
only so many open executions, repeated cycles drain what is claimable. Where it
cannot, the claim is rolled back and the same row is first again: a row without a
run, or an output that the store refuses, stops the loop for all others.
-/
namespace WorkflowPlatform

/-- An execution of a run is claimable and nobody has locked it. -/
def HasClaimable (now : ℕ) (locked : Row → Bool) (db : Db) : Prop :=
  ∃ id e r, db.executions.rows id = some e ∧ e.runId = some r ∧ claimable db now id e = true ∧
    locked (.execution id) = false

/-- The agent's answer is a complete 200 response with a JSON body. -/
def Choice.complete (c : Choice) : Prop :=
  ∃ text value, c.answer = .response 200 (.complete text (some value))

/-- The cycle did work, and an execution of a run that was open is done or failed. -/
def Advances (deps : WorkerDeps) (c : Choice) (locked : Row → Bool) (db : Db) : Prop :=
  (runOnce deps c locked db).1 = true ∧
    ∃ id e f r, db.executions.rows id = some e ∧ e.runId = some r ∧
      ¬ (e.status = .done ∨ e.status = .failed) ∧
      (runOnce deps c locked db).2.executions.rows id = some f ∧ f.runId = some r ∧
      (f.status = .done ∨ f.status = .failed)

/-- The first claimable row belongs to a run, and the answer to its request is no
success with an output that has U+0000 or an unpaired surrogate. -/
def Processable (deps : WorkerDeps) (c : Choice) (locked : Row → Bool) (db : Db) : Prop :=
  ∃ id e runId run, claimedRun db c.now locked = some (id, e, runId, run) ∧
    ¬ ((∃ p, stepRequest deps db runId run id e = .ok p) ∧
      ∃ output, answerResult deps c.answer = .ok (.ok output) ∧
        ParsedJson.fieldsRefused output = true)

def openInRun (e : Execution) : Bool :=
  e.runId.isSome && e.status ≠ .done && e.status ≠ .failed

/-- How many executions of runs are neither done nor failed. -/
def openExecutions (db : Db) : ℕ := (db.executionIds openInRun).length

/-- The rows after so many cycles of one worker. -/
def cycles (deps : WorkerDeps) (choices : ℕ → Choice) (locked : ℕ → Row → Bool) (db : Db) : ℕ → Db
  | 0 => db
  | k + 1 => (runOnce deps (choices k) (locked k) (cycles deps choices locked db k)).2

section
variable {deps : WorkerDeps} {c : Choice} {locked : Row → Bool} {db : Db}

theorem advances_iff (hc : c.complete) :
    Advances deps c locked db ↔ Processable deps c locked db := by
  obtain ⟨text, value, hanswer⟩ := hc
  have hres : answerResult deps c.answer = readDispatch value := by
    rw [hanswer]
    exact answerResult_complete (by decide)
  constructor
  · rintro ⟨hworked, -⟩
    rcases runOnce_cases deps c locked db with h | ⟨id, e, runId, run, hclaim, -⟩
    · rw [h] at hworked
      cases hworked
    · refine ⟨id, e, runId, run, hclaim, fun hcond => ?_⟩
      rw [hres] at hcond
      rw [runOnce_refused hclaim hanswer hcond] at hworked
      cases hworked
  · rintro ⟨id, e, runId, run, hclaim, hcond⟩
    rw [hres] at hcond
    obtain ⟨hid, he, hrunId, -⟩ := claimedRun_eq_some.mp hclaim
    obtain ⟨hworked, f, hf, hfr, hstatus⟩ := runOnce_settles hclaim hanswer hcond
    exact ⟨hworked, id, e, f, runId, he, hrunId, claimCandidate_open hid he, hf, hfr, hstatus⟩

/-- No cycle opens an execution. -/
theorem openInRun_runOnce {i : ℕ} (h : i ∈ (runOnce deps c locked db).2.executionIds openInRun) :
    i ∈ db.executionIds openInRun := by
  rw [Db.mem_executionIds] at h ⊢
  obtain ⟨f, hf, hopen⟩ := h
  rcases runOnce_cases deps c locked db with h | ⟨id, e, runId, run, -, -, ⟨output, -, h⟩ | h⟩
  · rw [h] at hf
    exact ⟨f, hf, hopen⟩
  · by_cases hi : i = id
    · rw [hi, h.claimed] at hf
      cases hf
      simp [openInRun] at hopen
    · rw [h.executions i hi, Option.map_eq_some_iff] at hf
      obtain ⟨g, hg, rfl⟩ := hf
      refine ⟨g, hg, ?_⟩
      split_ifs at hopen with hready
      · simpa [openInRun, hready.2.2] using hopen
      · exact hopen
  · by_cases hi : i = id
    · rw [hi, h.claimed] at hf
      cases hf
      simp [openInRun] at hopen
    · rw [h.executions i hi, Option.map_eq_some_iff] at hf
      obtain ⟨g, hg, rfl⟩ := hf
      refine ⟨g, hg, ?_⟩
      split_ifs at hopen
      · simp [openInRun] at hopen
      · exact hopen

theorem openExecutions_lt (h : Advances deps c locked db) :
    openExecutions (runOnce deps c locked db).2 < openExecutions db := by
  obtain ⟨-, id, e, f, r, he, hrunId, hopen, hf, -, hstatus⟩ := h
  have hbefore : id ∈ db.executionIds openInRun := by
    rw [Db.mem_executionIds]
    refine ⟨e, he, ?_⟩
    simpa [openInRun, hrunId] using hopen
  have hafter : id ∉ (runOnce deps c locked db).2.executionIds openInRun := by
    rw [Db.mem_executionIds]
    rintro ⟨g, hg, hopen'⟩
    rw [hf] at hg
    cases hg
    rcases hstatus with hs | hs <;> simp [openInRun, hs] at hopen'
  have hsub : id :: (runOnce deps c locked db).2.executionIds openInRun ⊆
      db.executionIds openInRun :=
    List.cons_subset.mpr ⟨hbefore, fun i hi => openInRun_runOnce hi⟩
  have hnodup : (id :: (runOnce deps c locked db).2.executionIds openInRun).Nodup :=
    List.nodup_cons.mpr ⟨hafter, Db.executionIds_nodup _ _⟩
  exact (hnodup.subperm hsub).length_le

/-- While every cycle advances, every cycle uses up an open execution. -/
theorem openExecutions_cycles {choices : ℕ → Choice} {locks : ℕ → Row → Bool} {n : ℕ}
    (h : ∀ k < n, Advances deps (choices k) (locks k) (cycles deps choices locks db k)) :
    openExecutions (cycles deps choices locks db n) + n ≤ openExecutions db := by
  induction n with
  | zero => exact le_refl _
  | succ n ih =>
      have hbound := ih fun k hk => h k (by omega)
      have hless := openExecutions_lt (h n (by omega))
      rw [cycles]
      omega

/-- With complete answers a cycle advances exactly if the first claimable row can be
processed; and where that holds of every cycle that has something to claim, the
claimable executions are drained after as many cycles as there are open ones. -/
theorem worker_loop_progress (deps : WorkerDeps) :
    (∀ c locked db, c.complete →
      (Advances deps c locked db ↔ Processable deps c locked db)) ∧
    ∀ (choices : ℕ → Choice) (locked : ℕ → Row → Bool) (db : Db), (∀ k, (choices k).complete) →
      (∀ k, HasClaimable (choices k).now (locked k) (cycles deps choices locked db k) →
        Processable deps (choices k) (locked k) (cycles deps choices locked db k)) →
      ∃ k ≤ openExecutions db,
        ¬ HasClaimable (choices k).now (locked k) (cycles deps choices locked db k) := by
  refine ⟨fun c locked db hc => advances_iff hc, fun choices locked db hc hprocess => ?_⟩
  by_contra hnone
  simp only [not_exists, not_and, not_not] at hnone
  have hadvance : ∀ k < openExecutions db + 1,
      Advances deps (choices k) (locked k) (cycles deps choices locked db k) :=
    fun k hk => (advances_iff (hc k)).mpr (hprocess k (hnone k (by omega)))
  have := openExecutions_cycles hadvance
  omega

theorem HasClaimable.candidate {now : ℕ} (h : HasClaimable now locked db) :
    ∃ id, db.claimCandidate now locked = some id := by
  obtain ⟨id, e, r, he, -, hclaim, hfree⟩ := h
  refine Option.isSome_iff_exists.mp (List.find?_isSome.mpr ⟨id, Table.mem_ids.mpr ⟨e, he⟩, ?_⟩)
  simp [he, hclaim, hfree]

/-- A cycle with nothing to claim changes nothing. -/
theorem runOnce_idle (h : db.claimCandidate c.now locked = none) :
    runOnce deps c locked db = (false, db) := by
  rw [runOnce_eq, cycleOutcome, claimedRun, h]
  rfl

end

/-- The agent reports an error. -/
def failingChoice : Choice := { now := 0, answer := errorAnswer }

def failingCycles : ℕ → Db :=
  cycles workerDeps (fun _ => failingChoice) (fun _ => unlocked) (readerDb "first")

/-- The first cycle fails the run, and there is nothing left to claim. -/
theorem failingCycles_succ (k : ℕ) : failingCycles (k + 1) = failingCycles 1 := by
  have hidle : (failingCycles 1).claimCandidate failingChoice.now unlocked = none := by decide
  induction k with
  | zero => rfl
  | succ k ih =>
      change (runOnce workerDeps failingChoice unlocked (failingCycles (k + 1))).2 = _
      rw [ih, runOnce_idle hidle]

theorem worker_loop_progress_reader :
    (Advances workerDeps failingChoice unlocked (readerDb "first") ↔
      Processable workerDeps failingChoice unlocked (readerDb "first")) ∧
    ∃ k ≤ openExecutions (readerDb "first"),
      ¬ HasClaimable failingChoice.now unlocked (failingCycles k) := by
  have hcomplete : failingChoice.complete := ⟨_, _, rfl⟩
  refine ⟨(worker_loop_progress workerDeps).1 _ _ _ hcomplete,
    (worker_loop_progress workerDeps).2 _ _ _ (fun _ => hcomplete) fun k hclaimable => ?_⟩
  cases k with
  | zero =>
      obtain ⟨e, run, p, hclaim, -⟩ := reader_claimed
      refine ⟨1, e, 1, run, hclaim, ?_⟩
      rintro ⟨-, output, hres, -⟩
      cases hres
  | succ k =>
      obtain ⟨id, hid⟩ := HasClaimable.candidate hclaimable
      change (failingCycles (k + 1)).claimCandidate _ _ = _ at hid
      rw [failingCycles_succ, show (failingCycles 1).claimCandidate failingChoice.now unlocked = none
        by decide] at hid
      cases hid

/-- An execution without a run, and after it a run. -/
def strayDb : Db :=
  (platform.transact { now := 0 } unlocked (submitRun (readerSpec "first") [] none)
    (Db.empty.write (.insertExecution 1
      { sessionId := "s", step := "some-step", status := .queued, runId := none }))).2

/-- The execution without a run is claimed and rolled back in every cycle, and the
run's first step is never reached. -/
theorem stray_execution_blocks :
    HasClaimable failingChoice.now unlocked strayDb ∧ failingChoice.complete ∧
      ∀ k, cycles workerDeps (fun _ => failingChoice) (fun _ => unlocked) strayDb k = strayDb ∧
        ¬ Advances workerDeps failingChoice unlocked strayDb := by
  have hdrop : runOnce workerDeps failingChoice unlocked strayDb = (false, strayDb) := by
    rw [runOnce_eq]
    rfl
  refine ⟨⟨2, _, 1, rfl, rfl, rfl, rfl⟩, ⟨_, _, rfl⟩, fun k => ⟨?_, ?_⟩⟩
  · induction k with
    | zero => rfl
    | succ k ih => rw [cycles, ih, hdrop]
  · rintro ⟨hworked, -⟩
    rw [hdrop] at hworked
    cases hworked

end WorkflowPlatform
