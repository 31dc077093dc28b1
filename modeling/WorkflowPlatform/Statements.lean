import WorkflowPlatform.Database
import WorkflowPlatform.Errors
import WorkflowPlatform.Transaction

/-!
# The statements of the repositories

Each query the worker and the interpreter issue is one operation: which rows it
waits for, what it answers and what it writes. `SQL_FAIL_REMAINING_EXECUTIONS_FOR_RUN`
is two: the scan of the last committed versions, in whatever order the plan
gives, and then one row at a time, waiting for its lock and testing the row
again. A `jsonb` value with the escape of U+0000 or of an unpaired surrogate makes its
statement fail.

The request to the agent and the log lines are operations too, but external
ones: they neither read nor write rows and go through in an aborted transaction.
-/
namespace WorkflowPlatform

structure AgentDataFile where
  flag : Option String := none
  path : String
  stateId : Option String := none
  stdinFromPath : Bool := false

/-- The body of a request to the agent; `secrets` and `stdin` are never sent. -/
structure InvokeRequest where
  executionId : String
  stepId : String
  function : String
  args : List (String × String)
  positionalArgs : Option (List String) := none
  dataFiles : Option (List AgentDataFile) := none
  timeoutMs : ℕ

/-- How the body of a response turns out: its whole text, with the value it
parses to if it is JSON, or an exchange that breaks while it is being read. -/
inductive ResponseBody where
  | complete (text : String) (value : Option ParsedJson)
  | broken

/-- How a `fetch` turns out: no response at all, or a status and a body. -/
inductive FetchOutcome where
  | rejected
  | response (status : ℕ) (body : ResponseBody)

inductive LogLevel where
  | warn
  | error
deriving DecidableEq

structure LogRecord where
  executionId : ℕ
  nodeId : Option String := none
  status : Option ParsedJson := none
  exitCode : Option ParsedJson := none
  stderrExcerpt : Option ParsedJson := none
  err : Option Failure := none

inductive Op where
  | claimExecution (workerId : String) (leaseSeconds : ℕ)
  | markExecutionDone (id : ℕ)
  | markExecutionFailed (id : ℕ)
  | scanRemaining (runId : ℕ)
  | failIfRemaining (runId id : ℕ)
  | promoteBlockedToQueued (runId : ℕ) (step : String)
  | enqueueForRun (e : Execution)
  | insertRun (run : WorkflowRun)
  | findRunById (id : ℕ)
  | lockRunForUpdate (id : ℕ)
  | markRunDone (id : ℕ)
  | markRunFailed (id : ℕ)
  | insertCheckpoint (executionId : ℕ) (step : String) (output : ParsedObject)
  | findCheckpoint (executionId : ℕ) (step : String)
  | insertRunNodeOutput (runId : ℕ) (node : String) (output : ParsedObject)
  | findRunNodeOutput (runId : ℕ) (node : String)
  | listCompletedNodeIds (runId : ℕ)
  | fetch (url : String) (authorization : Option String) (body : InvokeRequest) (timeoutMs : ℕ)
  | log (level : LogLevel) (record : LogRecord) (event : String)

/-- Each statement's rows, as far as the callers look at them. -/
abbrev Resp : Op → Type
  | .claimExecution .. => Option (ℕ × Execution)
  | .markExecutionDone _ => Unit
  | .markExecutionFailed _ => Unit
  | .scanRemaining _ => List ℕ
  | .failIfRemaining .. => Unit
  | .promoteBlockedToQueued .. => Unit
  | .enqueueForRun _ => Option (ℕ × Execution)
  | .insertRun _ => Option (ℕ × WorkflowRun)
  | .findRunById _ => Option WorkflowRun
  | .lockRunForUpdate _ => Option WorkflowRun
  | .markRunDone _ => Unit
  | .markRunFailed _ => Unit
  | .insertCheckpoint .. => Option JsonObject
  | .findCheckpoint .. => Option JsonObject
  | .insertRunNodeOutput .. => Option JsonObject
  | .findRunNodeOutput .. => Option JsonObject
  | .listCompletedNodeIds _ => List String
  | .fetch .. => FetchOutcome
  | .log .. => Unit

/-- What the rows do not determine: the transaction's clock, the outcome of a
request, and the order in which a scan meets its rows. -/
structure Choice where
  now : ℕ
  answer : FetchOutcome := .rejected
  order : List ℕ → List ℕ := id
  order_perm : ∀ ids, (order ids).Perm ids := by exact List.Perm.refl

def Op.external : Op → Bool
  | .fetch .. => true
  | .log .. => true
  | _ => false

/-- The `WHERE` clause of `claim_execution`. -/
def claimable (db : Db) (now id : ℕ) (e : Execution) : Bool :=
  match e.status with
  | .queued => true
  | .running => e.leaseUntil.any (· < now)
  | .waiting => db.waits.ids.any fun w => (db.waits.rows w).any (Wait.due · id now)
  | _ => false

/-- `status IN ('blocked', 'queued', 'waiting')` -/
def ExecutionStatus.remaining : ExecutionStatus → Bool
  | .blocked => true
  | .queued => true
  | .waiting => true
  | _ => false

def remainingIn (runId : ℕ) (e : Execution) : Bool :=
  e.runId = some runId && e.status.remaining

def blockedIn (runId : ℕ) (step : String) (e : Execution) : Bool :=
  e.runId = some runId && e.step = step && e.status = .blocked

namespace Db
variable (db : Db)

/-- The row `claim_execution` takes: the first claimable one, in id order, that
nobody else has locked. -/
def claimCandidate (now : ℕ) (locked : Row → Bool) : Option ℕ :=
  db.executions.ids.find? fun id =>
    (db.executions.rows id).any (claimable db now id) && !locked (.execution id)

/-- The rows a statement waits for. An insert waits for nobody in Postgres, where
the sequence hands out ids outside transactions; here it waits for an open
insert that was given the same id. -/
def needs : Op → List Row
  | .markExecutionDone id => if (db.executions.rows id).isSome then [.execution id] else []
  | .markExecutionFailed id => if (db.executions.rows id).isSome then [.execution id] else []
  | .failIfRemaining _ id => [.execution id]
  | .promoteBlockedToQueued runId step =>
      (db.executionIds (blockedIn runId step)).map .execution
  | .enqueueForRun _ => [.execution db.executions.next]
  | .insertRun _ => [.run db.runs.next]
  | .lockRunForUpdate id => if (db.runs.rows id).isSome then [.run id] else []
  | .markRunDone id => if (db.runs.rows id).any (·.status ≠ .failed) then [.run id] else []
  | .markRunFailed id => if (db.runs.rows id).isSome then [.run id] else []
  | .insertCheckpoint id step _ => [.checkpoint id step]
  | .insertRunNodeOutput runId node _ => [.output runId node]
  | _ => []

/-- `none` is a statement that fails. -/
def respond (c : Choice) (locked : Row → Bool) :
    (op : Op) → Option (Resp op × List Write)
  | .claimExecution workerId leaseSeconds =>
      match db.claimCandidate c.now locked with
      | none => some (none, [])
      | some id =>
          let leaseUntil := c.now + 1000 * leaseSeconds
          some ((db.executions.rows id).map fun e => (id, e.claimed workerId leaseUntil),
            [.satisfyDueWaits id c.now, .claim id workerId leaseUntil])
  | .markExecutionDone id =>
      some ((), if (db.executions.rows id).isSome then [.executionStatus id .done] else [])
  | .markExecutionFailed id =>
      some ((), if (db.executions.rows id).isSome then [.executionStatus id .failed] else [])
  | .scanRemaining runId => some (c.order (db.executionIds (remainingIn runId)), [])
  | .failIfRemaining runId id =>
      some ((), if (db.executions.rows id).any (remainingIn runId) then
        [.executionStatus id .failed] else [])
  | .promoteBlockedToQueued runId step =>
      some ((), (db.executionIds (blockedIn runId step)).map (.executionStatus · .queued))
  | .enqueueForRun e =>
      if e.runId.all fun r => (db.runs.rows r).isSome then
        some (some (db.executions.next, e), [.insertExecution db.executions.next e])
      else none
  | .insertRun run =>
      if Json.fieldsHaveNul run.input then none
      else some (some (db.runs.next, run), [.insertRun db.runs.next run])
  | .findRunById id => some (db.runs.rows id, [])
  | .lockRunForUpdate id =>
      some (db.runs.rows id, if (db.runs.rows id).isSome then [.lockRun id] else [])
  | .markRunDone id =>
      some ((), if (db.runs.rows id).any (·.status ≠ .failed) then [.runStatus id .done] else [])
  | .markRunFailed id =>
      some ((), if (db.runs.rows id).isSome then [.runStatus id .failed] else [])
  | .insertCheckpoint id step output =>
      if ParsedJson.fieldsRefused output then none
      else if (db.checkpoints id step).isSome then some (none, [])
      else if (db.executions.rows id).isSome then
        let stored := ParsedJson.storedFields output
        some (some stored, [.checkpoint id step stored])
      else none
  | .findCheckpoint id step => some (db.checkpoints id step, [])
  | .insertRunNodeOutput runId node output =>
      if ParsedJson.fieldsRefused output then none
      else if ((db.runNodeOutputs runId).lookup node).isSome then some (none, [])
      else if (db.runs.rows runId).isSome then
        let stored := ParsedJson.storedFields output
        some (some stored, [.output runId node stored])
      else none
  | .findRunNodeOutput runId node => some ((db.runNodeOutputs runId).lookup node, [])
  | .listCompletedNodeIds runId => some ((db.runNodeOutputs runId).map Prod.fst, [])
  | .fetch .. => some (c.answer, [])
  | .log .. => some ((), [])

end Db

def platform : Store Db Op Write Row Choice Failure Resp where
  write := Db.write
  row := Write.row
  external := Op.external
  needs := Db.needs
  refused := .database
  respond := fun c db locked op => db.respond c locked op

theorem claimCandidate_spec {db : Db} {now id : ℕ} {locked : Row → Bool}
    (h : db.claimCandidate now locked = some id) :
    (∃ e, db.executions.rows id = some e ∧ claimable db now id e = true) ∧
      locked (.execution id) = false := by
  have := List.find?_some h
  rw [Bool.and_eq_true, Option.any_eq_true] at this
  exact ⟨this.1, by simpa using this.2⟩

/-- Nothing claimable before it is free. -/
theorem claimCandidate_first {db : Db} {now id : ℕ} {locked : Row → Bool}
    (h : db.claimCandidate now locked = some id) {i : ℕ} (hi : i < id)
    (hclaim : (db.executions.rows i).any (claimable db now i) = true) :
    locked (.execution i) = true := by
  obtain ⟨-, before, after, hids, hbefore⟩ := List.find?_eq_some_iff_append.mp h
  have hmem : i ∈ db.executions.ids := by
    obtain ⟨e, he, -⟩ := Option.any_eq_true _ _ |>.mp hclaim
    exact Table.mem_ids.mpr ⟨e, he⟩
  have hsorted : db.executions.ids.Pairwise (· < ·) := List.pairwise_lt_range.filter _
  rw [hids] at hmem hsorted
  obtain ⟨-, hafter, -⟩ := List.pairwise_append.mp hsorted
  rcases List.mem_append.mp hmem with hin | hin
  · simpa [hclaim] using hbefore i hin
  · rcases List.mem_cons.mp hin with rfl | hlater
    · exact absurd hi (lt_irrefl i)
    · exact absurd hi (List.rel_of_pairwise_cons hafter hlater).asymm

/-- What a claim can answer. -/
theorem claim_cases {c : Choice} {db : Db} {locked : Row → Bool} {workerId : String}
    {leaseSeconds : ℕ} {found : Option (ℕ × Execution)} {ws : List Write}
    (h : db.respond c locked (.claimExecution workerId leaseSeconds) = some (found, ws)) :
    (found = none ∧ ws = []) ∨ ∃ id e, db.executions.rows id = some e ∧
      claimable db c.now id e = true ∧ locked (.execution id) = false ∧
      found = some (id, e.claimed workerId (c.now + 1000 * leaseSeconds)) ∧
      ws = [.satisfyDueWaits id c.now, .claim id workerId (c.now + 1000 * leaseSeconds)] := by
  simp only [Db.respond] at h
  split at h
  · cases h
    exact .inl ⟨rfl, rfl⟩
  · rename_i id hid
    obtain ⟨⟨e, he, hclaim⟩, hfree⟩ := claimCandidate_spec hid
    rw [he] at h
    cases h
    exact .inr ⟨id, e, he, hclaim, hfree, rfl, rfl⟩

/-- Apart from the claim, which skips locked rows, a statement only writes rows it
has waited for. -/
theorem respond_rows {c : Choice} {db : Db} {locked : Row → Bool} {op : Op} {r : Resp op}
    {ws : List Write} (hr : db.respond c locked op = some (r, ws)) :
    ∀ w ∈ ws, w.row ∈ db.needs op ∨ locked w.row = false := by
  intro w hw
  cases op with
  | claimExecution workerId leaseSeconds =>
      simp only [Db.respond] at hr
      split at hr
      · cases hr
        cases hw
      · rename_i id hid
        cases hr
        right
        have hrow : w.row = .execution id := by
          simp only [List.mem_cons, List.not_mem_nil, or_false] at hw
          rcases hw with rfl | rfl <;> rfl
        rw [hrow]
        exact (claimCandidate_spec hid).2
  | promoteBlockedToQueued runId step =>
      cases hr
      obtain ⟨id, hid, rfl⟩ := List.mem_map.mp hw
      exact .inl (List.mem_map.mpr ⟨id, hid, rfl⟩)
  | markExecutionDone id | markExecutionFailed id | lockRunForUpdate id | markRunDone id
  | markRunFailed id | enqueueForRun e | insertRun run | failIfRemaining runId id
  | insertCheckpoint id step output | insertRunNodeOutput runId node output =>
      left
      simp only [Db.respond] at hr
      split_ifs at hr <;> cases hr <;> simp_all [Db.needs, Write.row]
  | scanRemaining | findRunById | findCheckpoint | findRunNodeOutput | listCompletedNodeIds
  | fetch | log =>
      cases hr
      cases hw

theorem platform_lawful : platform.Lawful where
  respond_rows := fun _ _ _ _ _ _ hr => respond_rows hr
  external_silent := by
    intro c db locked op r ws hop hr
    cases op <;> simp only [platform, Op.external, Bool.false_eq_true] at hop
    all_goals
      cases hr
      rfl

abbrev Tx (α : Type) := Script Op Resp Failure α

/-- `client.query`, or one of the two calls that leave the database. -/
abbrev query (op : Op) : Tx (Resp op) := Script.perform op

end WorkflowPlatform
