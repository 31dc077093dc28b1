import WorkflowPlatform.Statements

/-!
# Durable sleep

`claim_execution` and `signal_wait`, statement by statement, each on the rows it
locks, and the repository and engine functions around them. Here a wait has a
row lock of its own: whether it is ever contended is for the order of the two
functions to say. The rows of `waits` and `executions` are never deleted; a
statement that names a missing one by its id is refused.
-/
namespace WorkflowPlatform

def WAIT_KEY_MAX_LENGTH : ℕ := 256

/-- The literal in `CHECK (wait_key IS NULL OR length(wait_key) <= 256)`. -/
def waitKeyCheckLength : ℕ := 256

/-- `NOTIFY_PAYLOAD_MAX_LENGTH` of the server. -/
def NOTIFY_PAYLOAD_MAX_LENGTH : ℕ := 8000

inductive SleepOp where
  /-- `now()`, the same throughout a transaction. -/
  | now
  /-- The `SELECT .. FOR UPDATE SKIP LOCKED` of `claim_execution`. -/
  | selectClaimable (now : ℕ)
  | satisfyDueWaits (executionId now : ℕ)
  | setRunning (id : ℕ) (workerId : String) (leaseUntil : ℕ)
  /-- The unlocked scan of `signal_wait`, in whatever order the plan gives. -/
  | scanPending (key : String)
  | lockExecution (id : ℕ)
  | lockWait (id : ℕ)
  | satisfyWait (id now : ℕ)
  | queueWaiting (id : ℕ)
  | notify (payload : String)
  | insertWait (wait : Wait)
  | markExecutionWaiting (id : ℕ)

abbrev SleepResp : SleepOp → Type
  | .now => ℕ
  | .selectClaimable _ => Option ℕ
  | .satisfyDueWaits .. => Unit
  | .setRunning .. => Option (ℕ × Execution)
  | .scanPending _ => List (ℕ × Wait)
  | .lockExecution _ => Unit
  | .lockWait _ => Wait
  | .satisfyWait .. => ℕ × Wait
  | .queueWaiting _ => Unit
  | .notify _ => Unit
  | .insertWait _ => Option (ℕ × Wait)
  | .markExecutionWaiting _ => Unit

inductive SleepRow where
  | execution (id : ℕ)
  | wait (id : ℕ)
deriving DecidableEq

/-- A lock or a change of one row. What touches a wait names its execution too. -/
inductive SleepWrite where
  | lockExecution (id : ℕ)
  | setRunning (id : ℕ) (workerId : String) (leaseUntil : ℕ)
  | executionStatus (id : ℕ) (status : ExecutionStatus)
  | lockWait (executionId id : ℕ)
  | satisfyWait (executionId id now : ℕ)
  | insertWait (id : ℕ) (wait : Wait)

def SleepWrite.row : SleepWrite → SleepRow
  | .lockExecution id => .execution id
  | .setRunning id _ _ => .execution id
  | .executionStatus id _ => .execution id
  | .lockWait _ id => .wait id
  | .satisfyWait _ id _ => .wait id
  | .insertWait id _ => .wait id

def Wait.satisfied (now : ℕ) (w : Wait) : Wait := { w with satisfiedAt := some now }

@[simp] theorem Wait.satisfied_executionId (now : ℕ) (w : Wait) :
    (w.satisfied now).executionId = w.executionId := rfl
@[simp] theorem Wait.satisfied_waitKey (now : ℕ) (w : Wait) :
    (w.satisfied now).waitKey = w.waitKey := rfl
@[simp] theorem Wait.satisfied_satisfiedAt (now : ℕ) (w : Wait) :
    (w.satisfied now).satisfiedAt = some now := rfl

/-- `wait_key = p_wait_key AND satisfied_at IS NULL` -/
def Wait.pendingOn (key : String) (w : Wait) : Bool :=
  w.waitKey = some key && w.satisfiedAt.isNone

namespace Db
variable (db : Db)

def sleepWrite : SleepWrite → Db
  | .lockExecution _ => db
  | .setRunning id workerId leaseUntil =>
      { db with executions := db.executions.modify id (Execution.claimed workerId leaseUntil) }
  | .executionStatus id status =>
      { db with executions := db.executions.modify id (Execution.setStatus status) }
  | .lockWait _ _ => db
  | .satisfyWait _ id now => { db with waits := db.waits.modify id (Wait.satisfied now) }
  | .insertWait id wait => { db with waits := db.waits.insertAt id wait }

/-- The ids of the waits a statement's `WHERE` clause selects. -/
def waitIds (p : Wait → Bool) : List ℕ :=
  db.waits.ids.filter fun id => (db.waits.rows id).any p

def dueWaits (executionId now : ℕ) : List ℕ := db.waitIds (Wait.due · executionId now)

/-- The execution is asleep in these rows. -/
def asleep (id : ℕ) : Bool := (db.executions.rows id).any (·.status = .waiting)

/-- The row `claim_execution` selects: no claimable row before it is free. -/
def FirstClaimable (locked : ℕ → Bool) (now id : ℕ) : Prop :=
  (db.executions.rows id).any (claimable db now id) = true ∧ locked id = false ∧
    ∀ i < id, (db.executions.rows i).any (claimable db now i) = true → locked i = true

/-- The rows a statement waits for. -/
def sleepNeeds : SleepOp → List SleepRow
  | .satisfyDueWaits executionId now => (db.dueWaits executionId now).map .wait
  | .setRunning id _ _ => if (db.executions.rows id).isSome then [.execution id] else []
  | .lockExecution id => if (db.executions.rows id).isSome then [.execution id] else []
  | .lockWait id => if (db.waits.rows id).isSome then [.wait id] else []
  | .satisfyWait id _ => if (db.waits.rows id).isSome then [.wait id] else []
  | .queueWaiting id =>
      if (db.executions.rows id).any (·.status = .waiting) then [.execution id] else []
  | .insertWait _ => [.wait db.waits.next]
  | .markExecutionWaiting id => if (db.executions.rows id).isSome then [.execution id] else []
  | _ => []

/-- `none` is a statement that fails. -/
def sleepRespond (c : Choice) (locked : SleepRow → Bool) :
    (op : SleepOp) → Option (SleepResp op × List SleepWrite)
  | .now => some (c.now, [])
  | .selectClaimable now =>
      match db.claimCandidate now fun row => match row with
        | .execution id => locked (.execution id)
        | _ => false with
      | none => some (none, [])
      | some id => some (some id, [.lockExecution id])
  | .satisfyDueWaits executionId now =>
      some ((), (db.dueWaits executionId now).map (.satisfyWait executionId · now))
  | .setRunning id workerId leaseUntil =>
      some ((db.executions.rows id).map fun e => (id, e.claimed workerId leaseUntil),
        if (db.executions.rows id).isSome then [.setRunning id workerId leaseUntil] else [])
  | .scanPending key =>
      if Json.stringHasNul key then none
      else some ((c.order (db.waitIds (Wait.pendingOn key))).filterMap fun id =>
        (db.waits.rows id).map fun w => (id, w), [])
  | .lockExecution id =>
      some ((), if (db.executions.rows id).isSome then [.lockExecution id] else [])
  | .lockWait id => (db.waits.rows id).map fun w => (w, [.lockWait w.executionId id])
  | .satisfyWait id now =>
      (db.waits.rows id).map fun w => ((id, w.satisfied now), [.satisfyWait w.executionId id now])
  | .queueWaiting id =>
      some ((), if (db.executions.rows id).any (·.status = .waiting) then
        [.executionStatus id .queued] else [])
  | .notify payload => if NOTIFY_PAYLOAD_MAX_LENGTH ≤ payload.utf8ByteSize then none else some ((), [])
  | .insertWait wait =>
      if wait.waitKey.any Json.stringHasNul then none
      else if wait.waitKey.isNone && wait.wakeAt.isNone then none
      else if wait.waitKey.any (waitKeyCheckLength < ·.length) then none
      else if (db.executions.rows wait.executionId).isSome then
        some (some (db.waits.next, wait), [.insertWait db.waits.next wait])
      else none
  | .markExecutionWaiting id =>
      some ((), if (db.executions.rows id).isSome then [.executionStatus id .waiting] else [])

variable {db}

theorem mem_waitIds {p : Wait → Bool} {id : ℕ} :
    id ∈ db.waitIds p ↔ ∃ w, db.waits.rows id = some w ∧ p w = true := by
  simp only [waitIds, List.mem_filter, Table.mem_ids, Option.any_eq_true]
  constructor
  · rintro ⟨-, w, hw, hp⟩
    exact ⟨w, hw, hp⟩
  · rintro ⟨w, hw, hp⟩
    exact ⟨⟨w, hw⟩, w, hw, hp⟩

theorem waitIds_nodup (p : Wait → Bool) : (db.waitIds p).Nodup :=
  (List.nodup_range.filter _).filter _

end Db

def sleepStore : Store Db SleepOp SleepWrite SleepRow Choice Failure SleepResp where
  write := Db.sleepWrite
  row := SleepWrite.row
  external := fun _ => false
  needs := Db.sleepNeeds
  refused := .database
  respond := fun c db locked op => db.sleepRespond c locked op

/-- What the first statement of a claim can answer. -/
theorem selectClaimable_cases (c : Choice) {db : Db} {locked : SleepRow → Bool} {now : ℕ}
    {found : Option ℕ} {ws : List SleepWrite}
    (h : db.sleepRespond c locked (.selectClaimable now) = some (found, ws)) :
    (found = none ∧ ws = []) ∨ ∃ id e, found = some id ∧ ws = [.lockExecution id] ∧
      db.executions.rows id = some e ∧ claimable db now id e = true := by
  simp only [Db.sleepRespond] at h
  split at h
  · cases h
    exact .inl ⟨rfl, rfl⟩
  · rename_i id hid
    obtain ⟨⟨e, he, hclaim⟩, -⟩ := claimCandidate_spec hid
    cases h
    exact .inr ⟨id, e, rfl, rfl, he, hclaim⟩

/-- What the scan of a signal answers: the pending waits on its key. -/
theorem mem_scan {c : Choice} {db : Db} {key : String} {candidate : ℕ × Wait} :
    candidate ∈ ((c.order (db.waitIds (Wait.pendingOn key))).filterMap fun id =>
      (db.waits.rows id).map fun w => (id, w)) ↔
    db.waits.rows candidate.1 = some candidate.2 ∧ candidate.2.pendingOn key = true := by
  simp only [List.mem_filterMap, (c.order_perm _).mem_iff, Db.mem_waitIds, Option.map_eq_some_iff]
  constructor
  · intro ⟨id, ⟨w, hw, hp⟩, w', hw', hc⟩
    rw [hw] at hw'
    cases hw'
    rw [← hc]
    exact ⟨hw, hp⟩
  · intro ⟨hw, hp⟩
    exact ⟨candidate.1, ⟨candidate.2, hw, hp⟩, candidate.2, hw, rfl⟩

theorem scan_nodup {c : Choice} {db : Db} {key : String} :
    (((c.order (db.waitIds (Wait.pendingOn key))).filterMap fun id =>
      (db.waits.rows id).map fun w => (id, w)).map Prod.fst).Nodup := by
  have hsub : (((c.order (db.waitIds (Wait.pendingOn key))).filterMap fun id =>
      (db.waits.rows id).map fun w => (id, w)).map Prod.fst).Sublist
      (c.order (db.waitIds (Wait.pendingOn key))) := by
    induction c.order (db.waitIds (Wait.pendingOn key)) with
    | nil => exact .slnil
    | cons id rest ih =>
        cases hw : db.waits.rows id with
        | none =>
            rw [List.filterMap_cons_none (by rw [hw]; rfl)]
            exact ih.cons id
        | some w =>
            rw [List.filterMap_cons_some (by rw [hw]; rfl)]
            exact ih.cons_cons id
  exact hsub.nodup ((c.order_perm _).nodup_iff.mpr (Db.waitIds_nodup _))

/-- Apart from the claim, which skips locked rows, a statement only writes rows it
has waited for. -/
theorem sleepRespond_rows {c : Choice} {db : Db} {locked : SleepRow → Bool} {op : SleepOp}
    {r : SleepResp op} {ws : List SleepWrite} (hr : db.sleepRespond c locked op = some (r, ws)) :
    ∀ w ∈ ws, w.row ∈ db.sleepNeeds op ∨ locked w.row = false := by
  intro w hw
  cases op with
  | selectClaimable now =>
      simp only [Db.sleepRespond] at hr
      split at hr
      · cases hr
        cases hw
      · rename_i id hid
        cases hr
        obtain rfl := List.mem_singleton.mp hw
        exact .inr (claimCandidate_spec hid).2
  | satisfyDueWaits executionId now =>
      cases hr
      obtain ⟨i, hi, rfl⟩ := List.mem_map.mp hw
      exact .inl (List.mem_map.mpr ⟨i, hi, rfl⟩)
  | lockWait id | satisfyWait id =>
      left
      simp only [Db.sleepRespond, Option.map_eq_some_iff] at hr
      obtain ⟨row, hrow, hr⟩ := hr
      cases hr
      obtain rfl := List.mem_singleton.mp hw
      simp [Db.sleepNeeds, hrow, SleepWrite.row]
  | setRunning | lockExecution | queueWaiting | insertWait | markExecutionWaiting =>
      left
      simp only [Db.sleepRespond] at hr
      split_ifs at hr <;> cases hr <;> simp_all [Db.sleepNeeds, SleepWrite.row]
  | now =>
      cases hr
      cases hw
  | scanPending | notify =>
      simp only [Db.sleepRespond] at hr
      split_ifs at hr
      cases hr
      cases hw

theorem sleepStore_lawful : sleepStore.Lawful where
  respond_rows := fun _ _ _ _ _ _ hr => sleepRespond_rows hr
  external_silent := fun _ _ _ _ _ _ hop => by cases hop

abbrev SleepTx (α : Type) := Script SleepOp SleepResp Failure α

abbrev sleepQuery (op : SleepOp) : SleepTx (SleepResp op) := Script.perform op

/-- The SQL function `claim_execution`. -/
def claimExecution (workerId : String) (leaseSeconds : ℕ) : SleepTx (Option (ℕ × Execution)) := do
  let now ← sleepQuery .now
  match ← sleepQuery (.selectClaimable now) with
  | none => pure none
  | some id => do
      sleepQuery (.satisfyDueWaits id now)
      sleepQuery (.setRunning id workerId (now + 1000 * leaseSeconds))

/-- The loop of `signal_wait`: each candidate's execution is locked first, then
its wait is locked and checked again. -/
def signalEach (now : ℕ) : List (ℕ × Wait) → SleepTx (List (ℕ × Wait))
  | [] => pure []
  | (id, candidate) :: rest => do
      sleepQuery (.lockExecution candidate.executionId)
      let wait ← sleepQuery (.lockWait id)
      if wait.satisfiedAt.isSome then signalEach now rest
      else do
        let row ← sleepQuery (.satisfyWait id now)
        sleepQuery (.queueWaiting row.2.executionId)
        let rows ← signalEach now rest
        pure (row :: rows)

/-- The SQL function `signal_wait`. -/
def signalWait (waitKey : String) : SleepTx (List (ℕ × Wait)) := do
  let now ← sleepQuery .now
  let candidates ← sleepQuery (.scanPending waitKey)
  let rows ← signalEach now candidates
  sleepQuery (.notify waitKey)
  pure rows

namespace WaitsRepo

def create (executionId : ℕ) (waitKey : Option String) (wakeAt : Option ℕ) :
    SleepTx (ℕ × Wait) := do
  if waitKey.any fun key => WAIT_KEY_MAX_LENGTH < (JsValue.utf16Units key).length then
    Script.throw (.fatal .CORE_WAIT_KEY_TOO_LONG
      [("executionId", ErrorContext.ofNat executionId),
       ("waitKeyLength", ErrorContext.ofNat (JsValue.utf16Units (waitKey.getD "")).length),
       ("max", ErrorContext.ofNat WAIT_KEY_MAX_LENGTH)])
  else match ← sleepQuery (.insertWait { executionId, waitKey, wakeAt }) with
    | some row => pure row
    | none => Script.throw (.fatal .CORE_WAIT_NO_ROW_RETURNED
        [("executionId", ErrorContext.ofNat executionId),
         ("waitKey", (waitKey.map ErrorContext.ofString).getD (.value .undefined)),
         ("wakeAt", (wakeAt.map ErrorContext.ofNat).getD (.value .undefined))])

end WaitsRepo

def waitFor (executionId : ℕ) (waitKey : Option String) (wakeAt : Option ℕ) :
    SleepTx (ℕ × Wait) := do
  let wait ← WaitsRepo.create executionId waitKey wakeAt
  sleepQuery (.markExecutionWaiting executionId)
  pure wait

/-- The two calls that run beside each other. -/
inductive SleepCall where
  | claimExecution (workerId : String) (leaseSeconds : ℕ)
  | signalWait (waitKey : String)

inductive SleepResult where
  | claimed (found : Option (ℕ × Execution))
  | signaled (rows : List (ℕ × Wait))

def SleepCall.script : SleepCall → SleepTx SleepResult
  | .claimExecution workerId leaseSeconds => do
      let found ← WorkflowPlatform.claimExecution workerId leaseSeconds
      pure (.claimed found)
  | .signalWait waitKey => do
      let rows ← WorkflowPlatform.signalWait waitKey
      pure (.signaled rows)

abbrev SleepSystem (n : ℕ) := System n SleepOp SleepResp Failure SleepResult SleepWrite Db

end WorkflowPlatform
