import WorkflowPlatform.RunView
import WorkflowPlatform.SleepTransactions

/-!
# Workers, sleeps and the clock, one transaction after another

A run of the durability core whose steps are whole transactions: any worker may
claim, and may complete, fail or put to sleep an execution it has claimed at some
time, however long ago and whoever has claimed it since. Beside the rows a state
keeps what the workers remember: which claims were made, with which lease, and
which of them their worker has given up since; and which waits an execution has
registered since it last fell asleep. `Effect` says once what an event can do,
and `Change` what it can do to the row of one execution.
-/
namespace WorkflowPlatform

def ExecutionStatus.terminal : ExecutionStatus → Bool
  | .done => true
  | .failed => true
  | _ => false

/-- A call in a transaction of its own, or time that passes. A claim is told which
rows it finds locked. -/
inductive DurableEvent where
  | claimExecution (workerId : String) (leaseSeconds : ℕ) (locked : ℕ → Bool)
  | completeExecution (workerId : String) (executionId : ℕ) (stepId : String) (output : ParsedObject)
  | completeStep (workerId : String) (runId : ℕ) (run : WorkflowRun) (executionId : ℕ)
      (nodeId : String) (output : ParsedObject)
  | waitFor (workerId : String) (executionId : ℕ) (waitKey : Option String) (wakeAt : Option ℕ)
  | signalWait (waitKey : String)
  | failRun (workerId : String) (runId executionId : ℕ)
  | advance (ms : ℕ)

/-- What a worker remembers of an execution it was handed. It releases the claim
by completing the execution or putting it to sleep. -/
structure Claim where
  workerId : String
  executionId : ℕ
  leaseUntil : ℕ
  released : Bool := false
deriving DecidableEq

structure DurableState where
  db : Db
  now : ℕ
  claims : List Claim := []
  /-- The waits an execution has registered since it last fell asleep. -/
  sleep : ℕ → List ℕ := fun _ => []

namespace DurableState
variable (s : DurableState)

def claimedBy (id : ℕ) (workerId : String) (leaseUntil : ℕ) : DurableState :=
  { s with
    db := s.db.claimed id workerId s.now leaseUntil
    claims := s.claims ++ [{ workerId, executionId := id, leaseUntil }] }

/-- The claims after a worker has given up an execution. -/
def release (workerId : String) (executionId : ℕ) : List Claim :=
  s.claims.map fun claim => if claim.workerId = workerId ∧ claim.executionId = executionId then
    { claim with released := true } else claim

/-- The waits of the sleep a new wait belongs to. -/
def sleepWith (executionId waitId : ℕ) : ℕ → List ℕ :=
  Function.update s.sleep executionId
    (if s.db.asleep executionId then s.sleep executionId ++ [waitId] else [waitId])

/-- The worker has been handed the execution at some time. -/
def Handed (workerId : String) (executionId : ℕ) : Prop :=
  ∃ claim ∈ s.claims, claim.workerId = workerId ∧ claim.executionId = executionId

/-- How often an execution has been handed to a worker. -/
def dispatches (id : ℕ) : ℕ := s.claims.countP (·.executionId = id)

/-- The rows a claim finds locked. -/
def skipping (locked : ℕ → Bool) : SleepRow → Bool
  | .execution id => locked id
  | .wait _ => false

/-- One event; a transaction reads the clock as it stands. -/
def perform (c : Choice) : DurableEvent → DurableState
  | .claimExecution workerId leaseSeconds locked =>
      match sleepStore.transact { c with now := s.now } (skipping locked)
        (WorkflowPlatform.claimExecution workerId leaseSeconds) s.db with
      | (.ok (some (id, _)), db) =>
          { s with
            db
            claims := s.claims ++
              [{ workerId, executionId := id, leaseUntil := s.now + 1000 * leaseSeconds }] }
      | (_, db) => { s with db }
  | .completeExecution workerId executionId stepId output =>
      match platform.transact { c with now := s.now } (fun _ => false)
        (WorkflowPlatform.completeExecution executionId stepId output) s.db with
      | (.ok _, db) => { s with db, claims := s.release workerId executionId }
      | (.error _, db) => { s with db }
  | .completeStep workerId runId run executionId nodeId output =>
      match platform.transact { c with now := s.now } (fun _ => false)
        (WorkflowPlatform.completeStep runId run executionId nodeId output) s.db with
      | (.ok _, db) => { s with db, claims := s.release workerId executionId }
      | (.error _, db) => { s with db }
  | .waitFor workerId executionId waitKey wakeAt =>
      match sleepStore.transact { c with now := s.now } (fun _ => false)
        (WorkflowPlatform.waitFor executionId waitKey wakeAt) s.db with
      | (.ok (waitId, _), db) =>
          { s with
            db
            claims := s.release workerId executionId
            sleep := s.sleepWith executionId waitId }
      | (.error _, db) => { s with db }
  | .signalWait waitKey =>
      { s with db := (sleepStore.transact { c with now := s.now } (fun _ => false)
          (WorkflowPlatform.signalWait waitKey) s.db).2 }
  | .failRun _ runId executionId =>
      { s with db := (platform.transact { c with now := s.now } (fun _ => false)
          (WorkflowPlatform.failRun runId executionId) s.db).2 }
  | .advance ms => { s with now := s.now + ms }

end DurableState

/-- A worker acts only on executions it has been handed. -/
def DurableEvent.Entitled (s : DurableState) : DurableEvent → Prop
  | .completeExecution workerId executionId _ _ => s.Handed workerId executionId
  | .completeStep workerId _ _ executionId _ _ => s.Handed workerId executionId
  | .waitFor workerId executionId _ _ => s.Handed workerId executionId
  | .failRun workerId _ executionId => s.Handed workerId executionId
  | _ => True

namespace DurableState

/-- A step all of whose preconditions hold. -/
def Step (allowed : DurableState → DurableEvent → Prop) (s s' : DurableState) : Prop :=
  ∃ c ev, ev.Entitled s ∧ allowed s ev ∧ s.perform c ev = s'

abbrev Run (allowed : DurableState → DurableEvent → Prop) : DurableState → DurableState → Prop :=
  Relation.ReflTransGen (Step allowed)

/-- What an event can do. -/
inductive Effect (s : DurableState) : DurableEvent → DurableState → Prop
  | nothing (ev : DurableEvent) : Effect s ev s
  | claimed {workerId : String} {leaseSeconds id : ℕ} {locked : ℕ → Bool} :
      s.db.FirstClaimable locked s.now id →
      Effect s (.claimExecution workerId leaseSeconds locked)
        (s.claimedBy id workerId (s.now + 1000 * leaseSeconds))
  | completed {workerId stepId : String} {id : ℕ} {output : ParsedObject} :
      Effect s (.completeExecution workerId id stepId output)
        { s with
          db := (s.db.withCheckpoint id stepId (ParsedJson.storedFields output)).write
            (.executionStatus id .done)
          claims := s.release workerId id }
  | stepCompleted {workerId nodeId : String} {runId id : ℕ} {run : WorkflowRun}
      {output : ParsedObject} (steps : List WorkflowPlatform.Step) :
      Effect s (.completeStep workerId runId run id nodeId output)
        { s with
          db := s.db.completed steps runId id nodeId (ParsedJson.storedFields output)
          claims := s.release workerId id }
  | slept {workerId : String} {id : ℕ} {waitKey : Option String} {wakeAt : Option ℕ} :
      (s.db.executions.rows id).isSome = true →
      Effect s (.waitFor workerId id waitKey wakeAt)
        { s with
          db := s.db.slept { executionId := id, waitKey, wakeAt }
          claims := s.release workerId id
          sleep := s.sleepWith id s.db.waits.next }
  | signaled {waitKey : String} :
      Effect s (.signalWait waitKey) { s with db := s.db.signaled waitKey s.now }
  | runFailed {workerId : String} {runId id : ℕ} :
      Effect s (.failRun workerId runId id) { s with db := s.db.runFailed runId id }
  | advanced (ms : ℕ) : Effect s (.advance ms) { s with now := s.now + ms }

theorem perform_effect (s : DurableState) (c : Choice) (ev : DurableEvent) :
    s.Effect ev (s.perform c ev) := by
  cases ev with
  | claimExecution workerId leaseSeconds locked =>
      simp only [perform]
      split
      · rename_i id e db h
        rcases transact_claimExecution h with ⟨hr, -⟩ | ⟨id', e', hfirst, hr, rfl⟩
        · cases hr
        · cases hr
          exact .claimed hfirst
      · rename_i r db hne h
        rcases transact_claimExecution h with ⟨-, rfl⟩ | ⟨id', e', -, rfl, -⟩
        · exact .nothing _
        · exact (hne _ _ rfl).elim
  | completeExecution workerId id stepId output =>
      simp only [perform]
      split
      · rename_i a db h
        rcases transact_completeExecution h with ⟨e, he, -⟩ | ⟨-, rfl⟩
        · cases he
        · exact .completed
      · rename_i e db h
        rcases transact_completeExecution h with ⟨-, -, rfl⟩ | ⟨⟨a, ha⟩, -⟩
        · exact .nothing _
        · cases ha
  | completeStep workerId runId run id nodeId output =>
      simp only [perform]
      split
      · rename_i a db h
        rcases transact_completeStep h with ⟨e, he, -⟩ | ⟨-, steps, rfl⟩
        · cases he
        · exact .stepCompleted steps
      · rename_i e db h
        rcases transact_completeStep h with ⟨-, -, rfl⟩ | ⟨⟨a, ha⟩, -⟩
        · exact .nothing _
        · cases ha
  | waitFor workerId id waitKey wakeAt =>
      simp only [perform]
      split
      · rename_i waitId w db h
        rcases transact_waitFor h with ⟨e, he, -⟩ | ⟨hr, hrow, rfl⟩
        · cases he
        · cases hr
          exact .slept hrow
      · rename_i e db h
        rcases transact_waitFor h with ⟨-, -, rfl⟩ | ⟨hr, -⟩
        · exact .nothing _
        · cases hr
  | signalWait waitKey =>
      simp only [perform]
      generalize h : sleepStore.transact _ _ _ _ = result
      obtain ⟨r, db⟩ := result
      rcases transact_signalWait h with ⟨e, -, rfl⟩ | ⟨rows, -, rfl⟩
      · exact .nothing _
      · exact .signaled
  | failRun workerId runId id =>
      simp only [perform]
      generalize h : platform.transact _ _ _ _ = result
      obtain ⟨r, db⟩ := result
      rcases transact_failRun h with ⟨e, -, rfl⟩ | ⟨-, rfl⟩
      · exact .nothing _
      · exact .runFailed
  | advance ms => exact .advanced ms

/-- What an event can do to the row of one execution. -/
inductive Change (s : DurableState) (id : ℕ) (e : Execution) : DurableEvent → Execution → Prop
  | same (ev : DurableEvent) : Change s id e ev e
  | claimed {workerId : String} {leaseSeconds : ℕ} {locked : ℕ → Bool} :
      claimable s.db s.now id e = true →
      Change s id e (.claimExecution workerId leaseSeconds locked)
        (e.claimed workerId (s.now + 1000 * leaseSeconds))
  | completed {workerId stepId : String} {output : ParsedObject} :
      Change s id e (.completeExecution workerId id stepId output) (e.setStatus .done)
  | stepCompleted {workerId nodeId : String} {runId : ℕ} {run : WorkflowRun}
      {output : ParsedObject} :
      Change s id e (.completeStep workerId runId run id nodeId output) (e.setStatus .done)
  | promoted (ev : DurableEvent) : e.status = .blocked → Change s id e ev (e.setStatus .queued)
  | slept {workerId : String} {waitKey : Option String} {wakeAt : Option ℕ} :
      Change s id e (.waitFor workerId id waitKey wakeAt) (e.setStatus .waiting)
  | woken {waitKey : String} : e.status = .waiting →
      Change s id e (.signalWait waitKey) (e.setStatus .queued)
  | failed {workerId : String} {runId : ℕ} :
      Change s id e (.failRun workerId runId id) (e.setStatus .failed)
  | abandoned (ev : DurableEvent) : e.status.remaining = true →
      Change s id e ev (e.setStatus .failed)

theorem Effect.change {s s' : DurableState} {ev : DurableEvent} {id : ℕ} {e : Execution}
    (h : s.Effect ev s') (he : s.db.executions.rows id = some e) :
    ∃ e', s'.db.executions.rows id = some e' ∧ s.Change id e ev e' := by
  cases h with
  | nothing => exact ⟨e, he, .same _⟩
  | claimed hfirst =>
      rename_i workerId leaseSeconds i locked
      by_cases hi : id = i
      · subst hi
        refine ⟨e.claimed workerId (s.now + 1000 * leaseSeconds), ?_, .claimed ?_⟩
        · change (Table.modify _ _ _).rows _ = _
          rw [Table.modify_same]
          change (s.db.executions.rows id).map _ = _
          rw [he]
          rfl
        · simpa [he] using hfirst.1
      · refine ⟨e, ?_, .same _⟩
        change (Table.modify _ _ _).rows _ = _
        rw [Table.modify_other _ _ hi]
        exact he
  | completed =>
      rename_i workerId stepId i output
      by_cases hi : id = i
      · subst hi
        refine ⟨e.setStatus .done, ?_, .completed⟩
        simp [Db.write, Table.modify_same, he]
      · refine ⟨e, ?_, .same _⟩
        simp [Db.write, Table.modify_other _ _ hi, he]
  | stepCompleted steps =>
      rename_i workerId nodeId runId i run output
      refine ⟨_, by rw [Db.completed_executions, Table.map_rows, he]; rfl, ?_⟩
      unfold Db.completedExecution
      split_ifs with hi hblocked
      · subst hi
        exact .stepCompleted
      · exact .promoted _ hblocked.2.2
      · exact .same _
  | slept hrow =>
      rename_i workerId i waitKey wakeAt
      by_cases hi : id = i
      · subst hi
        refine ⟨e.setStatus .waiting, ?_, .slept⟩
        simp [Db.slept, Table.modify_same, he]
      · refine ⟨e, ?_, .same _⟩
        simp [Db.slept, Table.modify_other _ _ hi, he]
  | signaled =>
      refine ⟨_, by rw [Db.signaled, Table.map_rows, he]; rfl, ?_⟩
      dsimp only
      split_ifs with hwaiting
      · exact .woken hwaiting.1
      · exact .same _
  | runFailed =>
      rename_i workerId runId i
      refine ⟨_, by rw [Db.runFailed, Table.map_rows, he]; rfl, ?_⟩
      dsimp only
      split_ifs with hcases
      · rcases hcases with rfl | hremaining
        · exact .failed
        · rw [remainingIn, Bool.and_eq_true] at hremaining
          exact .abandoned _ hremaining.2
      · exact .same _
  | advanced ms => exact ⟨e, he, .same _⟩

theorem Effect.before {s s' : DurableState} {ev : DurableEvent} {id : ℕ} {e' : Execution}
    (h : s.Effect ev s') (he' : s'.db.executions.rows id = some e') :
    ∃ e, s.db.executions.rows id = some e ∧ s.Change id e ev e' := by
  cases hrow : s.db.executions.rows id with
  | some e =>
      obtain ⟨e₁, he₁, hchange⟩ := h.change hrow
      rw [he'] at he₁
      cases he₁
      exact ⟨e, rfl, hchange⟩
  | none =>
      have hnone : s'.db.executions.rows id = none := by
        cases h with
        | nothing | advanced => exact hrow
        | claimed =>
            change (s.db.executions.modify _ _).rows id = none
            simp [Table.modify, hrow]
        | completed => simp [Db.write, Table.modify, hrow]
        | stepCompleted steps => simp [Db.completed_executions, hrow]
        | slept => simp [Db.slept, Table.modify, hrow]
        | signaled => simp [Db.signaled, hrow]
        | runFailed => simp [Db.runFailed, hrow]
      rw [he'] at hnone
      cases hnone

/-- A property of states that every allowed step keeps holds along a run. -/
theorem Run.keeps {allowed : DurableState → DurableEvent → Prop} {P : DurableState → Prop}
    (hstep : ∀ {s s' : DurableState} {ev : DurableEvent}, allowed s ev → s.Effect ev s' →
      P s → P s')
    {s s' : DurableState} (hrun : Run allowed s s') (h : P s) : P s' := by
  induction hrun with
  | refl => exact h
  | tail _ hlast ih =>
      obtain ⟨c, ev, -, hallowed, rfl⟩ := hlast
      exact hstep hallowed (perform_effect _ c ev) ih

/-! ### Fixed schedules -/

/-- The events of a schedule one after another. -/
def play (s : DurableState) (events : List DurableEvent) : DurableState :=
  events.foldl (fun s ev => s.perform { now := 0 } ev) s

def Admits (allowed : DurableState → DurableEvent → Prop) (s : DurableState) :
    List DurableEvent → Prop
  | [] => True
  | ev :: rest =>
      ev.Entitled s ∧ allowed s ev ∧ Admits allowed (s.perform { now := 0 } ev) rest

theorem Admits.run {allowed : DurableState → DurableEvent → Prop} {s : DurableState}
    {events : List DurableEvent} (h : s.Admits allowed events) :
    Run allowed s (s.play events) := by
  induction events generalizing s with
  | nil => exact .refl
  | cons ev rest ih => exact .head ⟨_, ev, h.1, h.2.1, rfl⟩ (ih h.2.2)

instance (s : DurableState) (workerId : String) (executionId : ℕ) :
    Decidable (s.Handed workerId executionId) :=
  inferInstanceAs (Decidable (∃ claim ∈ s.claims, _))

instance (s : DurableState) : (ev : DurableEvent) → Decidable (ev.Entitled s)
  | .claimExecution .. => inferInstanceAs (Decidable True)
  | .completeExecution workerId id _ _ => inferInstanceAs (Decidable (s.Handed workerId id))
  | .completeStep workerId _ _ id _ _ => inferInstanceAs (Decidable (s.Handed workerId id))
  | .waitFor workerId id _ _ => inferInstanceAs (Decidable (s.Handed workerId id))
  | .signalWait _ => inferInstanceAs (Decidable True)
  | .failRun workerId _ id => inferInstanceAs (Decidable (s.Handed workerId id))
  | .advance _ => inferInstanceAs (Decidable True)

/-- The schedule is one in which every worker acts on what it has been handed. -/
def entitled (s : DurableState) : List DurableEvent → Bool
  | [] => true
  | ev :: rest => decide (ev.Entitled s) && entitled (s.perform { now := 0 } ev) rest

theorem run_of_entitled {s : DurableState} {events : List DurableEvent}
    (h : s.entitled events = true) : Run (fun _ _ => True) s (s.play events) := by
  induction events generalizing s with
  | nil => exact .refl
  | cons ev rest ih =>
      rw [entitled, Bool.and_eq_true, decide_eq_true_eq] at h
      exact .head ⟨_, ev, h.1, trivial, rfl⟩ (ih h.2)

/-- One execution, queued. -/
def oneQueued : DurableState where
  db := { Db.empty with
    executions := Table.empty.insertAt 1
      { sessionId := "s", step := "step", status := .queued, runId := none } }
  now := 0

end DurableState
end WorkflowPlatform
