import WorkflowPlatform.Table
import WorkflowPlatform.WorkflowSpec

/-!
# The tables of the durability core

`executions`, `workflow_runs`, `waits`, `checkpoints` and `run_node_outputs`,
with the columns the worker and the interpreter read or write. The two tables
with a composite unique key are functions of that key. A statement changes rows
through `Write`s, each of which names the row it locks; the due waits of an
execution are only ever written under its execution's lock.
-/
namespace WorkflowPlatform

inductive ExecutionStatus where
  | blocked
  | queued
  | running
  | waiting
  | done
  | failed
deriving DecidableEq

structure Execution where
  sessionId : String
  step : String
  input : Json := .obj []
  status : ExecutionStatus
  workerId : Option String := none
  leaseUntil : Option ℕ := none
  attempts : ℕ := 0
  runId : Option ℕ

inductive WorkflowRunStatus where
  | running
  | done
  | failed
deriving DecidableEq

structure WorkflowRun where
  sessionId : Option String
  spec : WorkflowSpec
  input : JsonObject
  status : WorkflowRunStatus := .running

structure Wait where
  executionId : ℕ
  waitKey : Option String
  wakeAt : Option ℕ
  satisfiedAt : Option ℕ := none

structure Db where
  executions : Table Execution
  runs : Table WorkflowRun
  waits : Table Wait
  checkpoints : ℕ → String → Option JsonObject
  runNodeOutputs : ℕ → List (String × JsonObject)

def Wait.due (w : Wait) (executionId now : ℕ) : Bool :=
  w.executionId = executionId && w.satisfiedAt.isNone && w.wakeAt.any (· ≤ now)

/-- The foreign keys and the unique keys. -/
structure Db.Valid (db : Db) : Prop where
  run_fkey : ∀ id e r, db.executions.rows id = some e → e.runId = some r →
    (db.runs.rows r).isSome
  checkpoint_fkey : ∀ id step, (db.checkpoints id step).isSome → (db.executions.rows id).isSome
  output_fkey : ∀ r, db.runNodeOutputs r ≠ [] → (db.runs.rows r).isSome
  output_unique : ∀ r, ((db.runNodeOutputs r).map Prod.fst).Nodup

def Db.empty : Db := ⟨.empty, .empty, .empty, fun _ _ => none, fun _ => []⟩

theorem Db.empty_valid : Db.empty.Valid where
  run_fkey := fun _ _ _ h => by cases h
  checkpoint_fkey := fun _ _ h => by cases h
  output_fkey := fun _ h => absurd rfl h
  output_unique := fun _ => List.nodup_nil

inductive Row where
  | execution (id : ℕ)
  | run (id : ℕ)
  | checkpoint (executionId : ℕ) (step : String)
  | output (runId : ℕ) (node : String)
deriving DecidableEq

inductive Write where
  | satisfyDueWaits (executionId now : ℕ)
  | claim (id : ℕ) (workerId : String) (leaseUntil : ℕ)
  | executionStatus (id : ℕ) (status : ExecutionStatus)
  | insertExecution (id : ℕ) (e : Execution)
  | lockRun (id : ℕ)
  | runStatus (id : ℕ) (status : WorkflowRunStatus)
  | insertRun (id : ℕ) (run : WorkflowRun)
  | checkpoint (executionId : ℕ) (step : String) (output : JsonObject)
  | output (runId : ℕ) (node : String) (output : JsonObject)

def Write.row : Write → Row
  | .satisfyDueWaits id _ => .execution id
  | .claim id _ _ => .execution id
  | .executionStatus id _ => .execution id
  | .insertExecution id _ => .execution id
  | .lockRun id => .run id
  | .runStatus id _ => .run id
  | .insertRun id _ => .run id
  | .checkpoint id step _ => .checkpoint id step
  | .output runId node _ => .output runId node

namespace Execution

def setStatus (status : ExecutionStatus) (e : Execution) : Execution := { e with status }

def claimed (workerId : String) (leaseUntil : ℕ) (e : Execution) : Execution :=
  { e with
    status := .running
    workerId := some workerId
    leaseUntil := some leaseUntil
    attempts := e.attempts + 1 }

@[simp] theorem setStatus_status (s : ExecutionStatus) (e : Execution) :
    (e.setStatus s).status = s := rfl
@[simp] theorem setStatus_step (s : ExecutionStatus) (e : Execution) :
    (e.setStatus s).step = e.step := rfl
@[simp] theorem setStatus_runId (s : ExecutionStatus) (e : Execution) :
    (e.setStatus s).runId = e.runId := rfl
@[simp] theorem claimed_status (w : String) (l : ℕ) (e : Execution) :
    (e.claimed w l).status = .running := rfl
@[simp] theorem claimed_step (w : String) (l : ℕ) (e : Execution) :
    (e.claimed w l).step = e.step := rfl
@[simp] theorem claimed_runId (w : String) (l : ℕ) (e : Execution) :
    (e.claimed w l).runId = e.runId := rfl

end Execution

def WorkflowRun.setStatus (status : WorkflowRunStatus) (run : WorkflowRun) : WorkflowRun :=
  { run with status }

namespace Db

def write (db : Db) : Write → Db
  | .satisfyDueWaits id now =>
      { db with waits := db.waits.map fun _ w =>
          if w.due id now then { w with satisfiedAt := some now } else w }
  | .claim id workerId leaseUntil =>
      { db with executions := db.executions.modify id (Execution.claimed workerId leaseUntil) }
  | .executionStatus id status =>
      { db with executions := db.executions.modify id (Execution.setStatus status) }
  | .insertExecution id e => { db with executions := db.executions.insertAt id e }
  | .lockRun _ => db
  | .runStatus id status => { db with runs := db.runs.modify id (WorkflowRun.setStatus status) }
  | .insertRun id run => { db with runs := db.runs.insertAt id run }
  | .checkpoint id step output =>
      { db with checkpoints := Function.update db.checkpoints id <|
          Function.update (db.checkpoints id) step (some output) }
  | .output runId node output =>
      { db with runNodeOutputs := Function.update db.runNodeOutputs runId <|
          db.runNodeOutputs runId ++ [(node, output)] }

/-- The ids of the executions a statement's `WHERE` clause selects. -/
def executionIds (db : Db) (p : Execution → Bool) : List ℕ :=
  db.executions.ids.filter fun id => (db.executions.rows id).any p

theorem mem_executionIds {db : Db} {p : Execution → Bool} {id : ℕ} :
    id ∈ db.executionIds p ↔ ∃ e, db.executions.rows id = some e ∧ p e = true := by
  simp only [executionIds, List.mem_filter, Table.mem_ids, Option.any_eq_true]
  constructor
  · rintro ⟨-, e, he, hp⟩
    exact ⟨e, he, hp⟩
  · rintro ⟨e, he, hp⟩
    exact ⟨⟨e, he⟩, e, he, hp⟩

theorem executionIds_eq (db : Db) (p : Execution → Bool) : db.executionIds p =
    (List.range db.executions.next).filter fun i => (db.executions.rows i).any p := by
  rw [executionIds, Table.ids, List.filter_filter]
  congr 1
  funext i
  cases db.executions.rows i <;> simp

theorem executionIds_nodup (db : Db) (p : Execution → Bool) : (db.executionIds p).Nodup :=
  (List.nodup_range.filter _).filter _

end Db
end WorkflowPlatform
