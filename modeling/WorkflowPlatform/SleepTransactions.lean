import WorkflowPlatform.Completion
import WorkflowPlatform.DurableSleep

/-!
# One call by itself

What a claim, a signal, a sleep, a completion or a failure does to the committed
rows when its transaction meets no other: either nothing, or what `Db.claimed`,
`Db.signaled`, `Db.slept`, `Db.completed` and `Db.runFailed` say in one piece. A
claim executed statement by statement is the one operation of `Statements`.
-/
namespace WorkflowPlatform

namespace Db

/-- The rows after `claim_execution` has taken an execution. -/
def claimed (db : Db) (id : ℕ) (workerId : String) (now leaseUntil : ℕ) : Db :=
  platform.view db [.satisfyDueWaits id now, .claim id workerId leaseUntil]

/-- A wait on the key is pending for the execution. -/
def awaited (db : Db) (key : String) (id : ℕ) : Bool :=
  (db.waitIds (Wait.pendingOn key)).any fun i => (db.waits.rows i).any (·.executionId = id)

/-- The rows after `signal_wait`. -/
def signaled (db : Db) (key : String) (now : ℕ) : Db :=
  { db with
    waits := db.waits.map fun _ w => if w.pendingOn key then w.satisfied now else w
    executions := db.executions.map fun id e =>
      if e.status = .waiting ∧ db.awaited key id = true then e.setStatus .queued else e }

/-- The rows after `waitFor`. -/
def slept (db : Db) (wait : Wait) : Db :=
  { db with
    waits := db.waits.insertAt db.waits.next wait
    executions := db.executions.modify wait.executionId (Execution.setStatus .waiting) }

end Db

section
variable {c : Choice} {locked : SleepRow → Bool} {db db' V : Db} {now id : ℕ}

theorem foldl_satisfyWait (V : Db) (executionId now : ℕ) (ids : List ℕ) :
    sleepStore.view V (ids.map (.satisfyWait executionId · now)) =
      { V with waits := V.waits.map fun i w => if i ∈ ids then w.satisfied now else w } := by
  induction ids generalizing V with
  | nil =>
      have hself : V.waits.map (fun i w => if i ∈ ([] : List ℕ) then w.satisfied now else w) =
          V.waits := Table.map_eq_self fun _ _ _ => rfl
      simp only [List.map_nil, Store.view_nil, hself]
  | cons i rest ih =>
      rw [List.map_cons, Store.view_cons, ih]
      change { V with waits := (V.waits.modify i (Wait.satisfied now)).map _ } = _
      congr 1
      rw [Table.modify, Table.map_map]
      refine Table.map_congr fun j w _ => ?_
      by_cases hi : j = i <;> by_cases hr : j ∈ rest <;> simp [hi, hr, Wait.satisfied]

/-- The statement of `claim_execution` about the due waits. -/
theorem view_satisfyDueWaits (V : Db) (id now : ℕ) :
    sleepStore.view V ((V.dueWaits id now).map (.satisfyWait id · now)) =
      V.write (.satisfyDueWaits id now) := by
  rw [foldl_satisfyWait]
  simp only [Db.write]
  congr 1
  refine Table.map_congr fun i w hw => ?_
  have hiff : i ∈ V.dueWaits id now ↔ w.due id now = true := by
    rw [Db.dueWaits, Db.mem_waitIds]
    simp [hw]
  simp only [hiff]
  rfl

theorem selectClaimable_first {id : ℕ} {ws : List SleepWrite}
    (h : db.sleepRespond c locked (.selectClaimable now) = some (some id, ws)) :
    db.FirstClaimable (fun i => locked (.execution i)) now id := by
  simp only [Db.sleepRespond] at h
  split at h
  · cases h
  · rename_i i hi
    cases h
    obtain ⟨⟨e, he, hclaim⟩, hfree⟩ := claimCandidate_spec hi
    exact ⟨by simpa [he] using hclaim, hfree, fun j hj hany => claimCandidate_first hi hj hany⟩

/-- A claim takes nothing, or the first execution that is claimable and free. -/
theorem transact_claimExecution {workerId : String} {leaseSeconds : ℕ}
    {r : Except Failure (Option (ℕ × Execution))}
    (h : sleepStore.transact c locked (claimExecution workerId leaseSeconds) db = (r, db')) :
    (r = .ok none ∧ db' = db) ∨ ∃ id e,
      db.FirstClaimable (fun i => locked (.execution i)) c.now id ∧
      r = .ok (some (id, e)) ∧ db' = db.claimed id workerId c.now (c.now + 1000 * leaseSeconds) := by
  obtain ⟨s', hrun, hok, -⟩ := Store.transact_runsFrom h
  have hstart := hrun.answer rfl (Store.view_nil sleepStore db)
  rcases hstart.query with ⟨found, ws, hselect, hrest⟩ | ⟨hrefused, -⟩
  · rcases selectClaimable_cases c hselect with ⟨rfl, rfl⟩ | ⟨id, e, rfl, rfl, he, -⟩
    · obtain ⟨rfl, hab, hview⟩ := hrest.done
      refine .inl ⟨rfl, (hok _ rfl).trans ?_⟩
      rw [hab, hview]
      rfl
    · refine .inr ⟨id, e.claimed workerId (c.now + 1000 * leaseSeconds),
        selectClaimable_first (c := c) hselect, ?_⟩
      have hset := hrest.answer rfl (view_satisfyDueWaits db id c.now)
      rw [← Script.bind_pure (sleepQuery _)] at hset
      have hrow : (db.write (.satisfyDueWaits id c.now)).executions.rows id = some e := he
      have hanswer : sleepStore.respond c (db.write (.satisfyDueWaits id c.now)) locked
          (.setRunning id workerId (c.now + 1000 * leaseSeconds)) =
          some (some (id, e.claimed workerId (c.now + 1000 * leaseSeconds)),
            [.setRunning id workerId (c.now + 1000 * leaseSeconds)]) := by
        simp [sleepStore, Db.sleepRespond, hrow]
      obtain ⟨rfl, hab, hview⟩ := (hset.answer hanswer rfl).done
      refine ⟨rfl, (hok _ rfl).trans ?_⟩
      rw [hab, hview]
      rfl
  · simp only [sleepStore, Db.sleepRespond] at hrefused
    split at hrefused <;> cases hrefused

/-! ### Signals -/

/-- The rows after the loop of `signal_wait` has passed these candidates. -/
def Db.delivered (db : Db) (now : ℕ) (found : List (ℕ × Wait)) : Db :=
  { db with
    waits := db.waits.map fun i w => if i ∈ found.map Prod.fst then w.satisfied now else w
    executions := db.executions.map fun id e =>
      if e.status = .waiting ∧ id ∈ found.map (·.2.executionId) then e.setStatus .queued else e }

theorem Db.delivered_nil (db : Db) (now : ℕ) : db.delivered now [] = db := by
  have hwaits : db.waits.map (fun i w => if i ∈ ([] : List (ℕ × Wait)).map Prod.fst then
      w.satisfied now else w) = db.waits := Table.map_eq_self fun _ _ _ => rfl
  have hexecutions : db.executions.map (fun id e => if e.status = .waiting ∧
      id ∈ ([] : List (ℕ × Wait)).map (·.2.executionId) then e.setStatus .queued else e) =
      db.executions := Table.map_eq_self fun _ e _ => by simp
  simp only [delivered, hwaits, hexecutions]

theorem Db.delivered_cons (db : Db) (now : ℕ) (candidate : ℕ × Wait) (rest : List (ℕ × Wait)) :
    (db.delivered now [candidate]).delivered now rest = db.delivered now (candidate :: rest) := by
  simp only [delivered, Table.map_map]
  congr 1
  · refine Table.map_congr fun id e _ => ?_
    simp only [List.map_cons, List.map_nil, List.mem_cons]
    by_cases hid : id = candidate.2.executionId
    · by_cases hs : e.status = .waiting <;> simp [hid, hs]
    · simp only [hid, false_or, List.not_mem_nil, and_false, if_false]
  · refine Table.map_congr fun i w _ => ?_
    by_cases hi : i = candidate.1 <;> by_cases hr : i ∈ rest.map Prod.fst <;>
      simp_all [Wait.satisfied]

/-- A wait satisfied and its execution woken. -/
theorem Db.delivered_one (V : Db) (now i : ℕ) (w : Wait) :
    sleepStore.view (sleepStore.view V [.satisfyWait w.executionId i now])
      (if (V.executions.rows w.executionId).any (·.status = .waiting) then
        [.executionStatus w.executionId .queued] else []) = V.delivered now [(i, w)] := by
  have hwaits : V.waits.modify i (Wait.satisfied now) =
      V.waits.map fun j v => if j ∈ [(i, w)].map Prod.fst then v.satisfied now else v :=
    Table.map_congr fun j v _ => by simp
  have hexecutions : (if (V.executions.rows w.executionId).any (·.status = .waiting) then
      V.executions.modify w.executionId (Execution.setStatus .queued) else V.executions) =
      V.executions.map fun id e => if e.status = .waiting ∧
        id ∈ [(i, w)].map (·.2.executionId) then e.setStatus .queued else e := by
    split_ifs with hasleep
    · refine Table.map_congr fun id e he => ?_
      by_cases hid : id = w.executionId
      · subst hid
        rw [he, Option.any_some, decide_eq_true_eq] at hasleep
        simp [hasleep]
      · simp [hid]
    · refine (Table.map_eq_self fun id e he => ?_).symm
      by_cases hid : id = w.executionId
      · subst hid
        rw [he, Option.any_some, decide_eq_true_eq] at hasleep
        simp [hasleep]
      · simp [hid]
  unfold delivered
  rw [← hwaits, ← hexecutions]
  split_ifs <;> rfl

theorem RunsFrom.signalEach {α : Type} {candidates : List (ℕ × Wait)}
    {f : List (ℕ × Wait) → SleepTx α} {r : Except Failure α} {s' : Session SleepWrite}
    (hnodup : (candidates.map Prod.fst).Nodup)
    (hrows : ∀ p ∈ candidates, V.waits.rows p.1 = some p.2 ∧ p.2.satisfiedAt = none)
    (h : sleepStore.RunsFrom c locked db V (signalEach now candidates >>= f) r s') :
    sleepStore.RunsFrom c locked db (V.delivered now candidates)
      (f (candidates.map fun p => (p.1, p.2.satisfied now))) r s' := by
  induction candidates generalizing V f with
  | nil =>
      rw [Db.delivered_nil]
      exact h
  | cons candidate rest ih =>
      obtain ⟨i, w⟩ := candidate
      obtain ⟨hi, hrest⟩ := List.nodup_cons.mp hnodup
      obtain ⟨hw, hpending⟩ := hrows _ List.mem_cons_self
      dsimp only at hi hw hpending
      simp only [WorkflowPlatform.signalEach, Script.bind_assoc] at h
      have hlock : sleepStore.view V (if (V.executions.rows w.executionId).isSome then
          [.lockExecution w.executionId] else []) = V := by split_ifs <;> rfl
      have hrelock : sleepStore.respond c V locked (.lockWait i) =
          some (w, [.lockWait w.executionId i]) := by simp [sleepStore, Db.sleepRespond, hw]
      have h₁ := (h.answer rfl hlock).answer hrelock rfl
      have hopen : w.satisfiedAt.isSome = false := by simp [hpending]
      simp only [hopen, Bool.false_eq_true, if_false, Script.bind_assoc] at h₁
      have hsatisfy : sleepStore.respond c V locked (.satisfyWait i now) =
          some ((i, w.satisfied now), [.satisfyWait w.executionId i now]) := by
        simp [sleepStore, Db.sleepRespond, hw]
      have h₂ := h₁.answer hsatisfy rfl
      have hqueue : sleepStore.view (sleepStore.view V [.satisfyWait w.executionId i now])
          (if (V.executions.rows w.executionId).any (·.status = .waiting) then
            [.executionStatus w.executionId .queued] else []) = V.delivered now [(i, w)] :=
        Db.delivered_one V now i w
      have h₃ := h₂.answer rfl hqueue
      rw [← Db.delivered_cons]
      refine ih hrest ?_ h₃
      intro p hp
      obtain ⟨hp₁, hp₂⟩ := hrows p (List.mem_cons_of_mem _ hp)
      have hne : p.1 ≠ i := fun h => hi (h ▸ List.mem_map_of_mem hp)
      refine ⟨?_, hp₂⟩
      simp [Db.delivered, hp₁, hne]

theorem Db.delivered_scan (c : Choice) (db : Db) (key : String) (now : ℕ) :
    db.delivered now ((c.order (db.waitIds (Wait.pendingOn key))).filterMap fun id =>
      (db.waits.rows id).map fun w => (id, w)) = db.signaled key now := by
  unfold delivered signaled
  congr 1
  · refine Table.map_congr fun id e _ => ?_
    have hiff : id ∈ ((c.order (db.waitIds (Wait.pendingOn key))).filterMap fun i =>
        (db.waits.rows i).map fun w => (i, w)).map (·.2.executionId) ↔
        db.awaited key id = true := by
      simp only [List.mem_map, mem_scan, awaited, List.any_eq_true, mem_waitIds, Option.any_eq_true,
        decide_eq_true_eq]
      constructor
      · intro ⟨p, ⟨hw, hp⟩, hid⟩
        exact ⟨p.1, ⟨p.2, hw, hp⟩, p.2, hw, hid⟩
      · intro ⟨i, ⟨w, hw, hp⟩, w', hw', hid⟩
        rw [hw] at hw'
        cases hw'
        exact ⟨(i, w), ⟨hw, hp⟩, hid⟩
    simp only [hiff]
  · refine Table.map_congr fun i w hw => ?_
    have hiff : i ∈ ((c.order (db.waitIds (Wait.pendingOn key))).filterMap fun i =>
        (db.waits.rows i).map fun w => (i, w)).map Prod.fst ↔ w.pendingOn key = true := by
      simp only [List.mem_map, mem_scan]
      constructor
      · intro ⟨p, ⟨hp, hpending⟩, hi⟩
        subst hi
        rw [hw] at hp
        cases hp
        exact hpending
      · intro hpending
        exact ⟨(i, w), ⟨hw, hpending⟩, rfl⟩
    simp only [hiff]

/-- A signal delivers to every pending wait on its key, or fails for its key: no text
of the database, or too long to be a payload. -/
theorem transact_signalWait_cases {key : String} {r : Except Failure (List (ℕ × Wait))}
    (h : sleepStore.transact c locked (signalWait key) db = (r, db')) :
    (∃ e, r = .error e ∧ db' = db ∧
        (Json.stringHasNul key = true ∨ NOTIFY_PAYLOAD_MAX_LENGTH ≤ key.utf8ByteSize)) ∨
      ∃ rows, r = .ok rows ∧ db' = db.signaled key c.now := by
  obtain ⟨s', hrun, hok, herror⟩ := Store.transact_runsFrom h
  have hstart := hrun.answer rfl (Store.view_nil sleepStore db)
  rcases hstart.query with ⟨candidates, ws, hscan, hloop⟩ | ⟨hrefused, hr⟩
  · change (if _ then none else _) = _ at hscan
    split_ifs at hscan
    obtain ⟨rfl, rfl⟩ := Prod.mk.inj (Option.some.inj hscan)
    have hrows : ∀ p ∈ ((c.order (db.waitIds (Wait.pendingOn key))).filterMap fun i =>
        (db.waits.rows i).map fun w => (i, w)),
        db.waits.rows p.1 = some p.2 ∧ p.2.satisfiedAt = none := by
      intro p hp
      obtain ⟨hw, hpending⟩ := mem_scan.mp hp
      simp only [Wait.pendingOn, Bool.and_eq_true, Option.isNone_iff_eq_none] at hpending
      exact ⟨hw, hpending.2⟩
    have hdelivered := RunsFrom.signalEach scan_nodup hrows hloop
    rw [Db.delivered_scan] at hdelivered
    rcases hdelivered.query with ⟨_, ws', hnotify, hlast⟩ | ⟨hrefused, hr⟩
    · change (if _ then none else _) = _ at hnotify
      split_ifs at hnotify
      cases hnotify
      obtain ⟨rfl, hab, hview⟩ := hlast.done
      refine .inr ⟨_, rfl, (hok _ rfl).trans ?_⟩
      rw [hab, hview]
      rfl
    · change (if _ then none else _) = _ at hrefused
      split_ifs at hrefused with hlong
      exact .inl ⟨_, hr, herror _ hr, .inr hlong⟩
  · change (if _ then none else _) = _ at hrefused
    split_ifs at hrefused with hnul
    exact .inl ⟨_, hr, herror _ hr, .inl hnul⟩

theorem transact_signalWait {key : String} {r : Except Failure (List (ℕ × Wait))}
    (h : sleepStore.transact c locked (signalWait key) db = (r, db')) :
    (∃ e, r = .error e ∧ db' = db) ∨ ∃ rows, r = .ok rows ∧ db' = db.signaled key c.now := by
  rcases transact_signalWait_cases h with ⟨e, hr, hdb, -⟩ | hok
  · exact .inl ⟨e, hr, hdb⟩
  · exact .inr hok

/-- A sleep fails, or registers its wait and puts the execution to sleep. -/
theorem transact_waitFor {executionId : ℕ} {waitKey : Option String} {wakeAt : Option ℕ}
    {r : Except Failure (ℕ × Wait)}
    (h : sleepStore.transact c locked (waitFor executionId waitKey wakeAt) db = (r, db')) :
    (∃ e, r = .error e ∧ db' = db) ∨
      r = .ok (db.waits.next, { executionId, waitKey, wakeAt }) ∧
        (db.executions.rows executionId).isSome = true ∧
        db' = db.slept { executionId, waitKey, wakeAt } := by
  obtain ⟨s', hrun, hok, herror⟩ := Store.transact_runsFrom h
  simp only [waitFor, WaitsRepo.create] at hrun
  split_ifs at hrun with htoolong
  · obtain ⟨rfl, -, -⟩ := hrun.done
    exact .inl ⟨_, rfl, herror _ rfl⟩
  · rw [Script.bind_assoc] at hrun
    rcases hrun.query with ⟨row, ws, hinsert, hmark⟩ | ⟨-, hr⟩
    · simp only [sleepStore, Db.sleepRespond] at hinsert
      split_ifs at hinsert with hnul hkind hlong hpresent
      cases hinsert
      refine .inr ?_
      have hview : sleepStore.view (sleepStore.view db [.insertWait db.waits.next
          { executionId, waitKey, wakeAt }]) (if (db.executions.rows executionId).isSome then
            [.executionStatus executionId .waiting] else []) =
          db.slept { executionId, waitKey, wakeAt } := by
        rw [if_pos hpresent]
        rfl
      obtain ⟨rfl, hab, hdone⟩ := (hmark.answer rfl hview).done
      refine ⟨rfl, hpresent, (hok _ rfl).trans ?_⟩
      rw [hab, hdone]
      rfl
    · exact .inl ⟨_, hr, herror _ hr⟩

/-! ### Completions and failures -/

theorem transact_completeExecution {lock : Row → Bool} {executionId : ℕ} {stepId : String}
    {output : ParsedObject} {r : Except Failure JsonObject}
    (h : platform.transact c lock (completeExecution executionId stepId output) db = (r, db')) :
    (∃ e, r = .error e ∧ db' = db) ∨ (∃ a, r = .ok a) ∧
      db' = (db.withCheckpoint executionId stepId (ParsedJson.storedFields output)).write
        (.executionStatus executionId .done) := by
  cases r with
  | error e =>
      obtain ⟨-, -, -, herror⟩ := Store.transact_runsFrom h
      exact .inl ⟨e, rfl, herror e rfl⟩
  | ok a =>
      obtain ⟨s', heval, rfl⟩ := platform.transact_ok h
      have hfrom : EvaluatesFrom db db (completeExecution executionId stepId output) (.ok a) s' :=
        ⟨[], rfl, heval⟩
      simp only [completeExecution, ExecutionsRepo.markDone] at hfrom
      rcases hfrom.insertCheckpoint with ⟨-, hr, -⟩ | ⟨-, _, hmark⟩
      · cases hr
      · have hdone := hmark.query fun _ _ => rfl
        rw [Db.foldl_markExecution] at hdone
        obtain ⟨-, hab, hview⟩ := hdone.done
        refine .inr ⟨⟨a, rfl⟩, ?_⟩
        rw [hab, hview]
        rfl

/-- A step completes only in a run whose nodes are all plain steps. -/
theorem completeStep_plain {runId executionId : ℕ} {run : WorkflowRun} {nodeId : String}
    {output : ParsedObject} {s s' : Session Write}
    (h : platform.Evaluates db (completeStep runId run executionId nodeId output) s (.ok ()) s') :
    ∃ steps, assertPlainSteps run.spec = .ok steps := by
  obtain ⟨_, _, _, h₁⟩ := platform.evaluates_bind_ok h
  obtain ⟨_, _, _, h₂⟩ := platform.evaluates_bind_ok h₁
  obtain ⟨_, _, _, h₃⟩ := platform.evaluates_bind_ok h₂
  obtain ⟨_, _, _, h₄⟩ := platform.evaluates_bind_ok h₃
  obtain ⟨_, _, _, h₅⟩ := platform.evaluates_bind_ok h₄
  obtain ⟨_, _, hsteps, _⟩ := platform.evaluates_bind_ok h₅
  cases hplain : assertPlainSteps run.spec with
  | ok steps => exact ⟨steps, rfl⟩
  | error e =>
      rw [hplain] at hsteps
      obtain ⟨hr, -⟩ := hsteps
      cases hr

theorem transact_completeStep {lock : Row → Bool} {runId executionId : ℕ} {run : WorkflowRun}
    {nodeId : String} {output : ParsedObject} {r : Except Failure Unit}
    (h : platform.transact c lock (completeStep runId run executionId nodeId output) db = (r, db')) :
    (∃ e, r = .error e ∧ db' = db) ∨ (∃ a, r = .ok a) ∧ ∃ steps,
      db' = db.completed steps runId executionId nodeId (ParsedJson.storedFields output) := by
  cases r with
  | error e =>
      obtain ⟨-, -, -, herror⟩ := Store.transact_runsFrom h
      exact .inl ⟨e, rfl, herror e rfl⟩
  | ok a =>
      obtain ⟨s', heval, rfl⟩ := platform.transact_ok h
      have hrun : (db.runs.rows runId).isSome = true := by
        by_contra hmissing
        have hfrom : EvaluatesFrom db db (completeStep runId run executionId nodeId output)
            (.ok a) s' := ⟨[], rfl, heval⟩
        simp only [completeStep, WorkflowRunsRepo.lockForUpdate, Script.bind_assoc] at hfrom
        have hnone : db.runs.rows runId = none := by simpa using hmissing
        have hmissing : ∀ c lock, db.respond c lock (.lockRunForUpdate runId) = some (none, []) :=
          fun _ _ => by simp [Db.respond, hnone]
        have hthrow := hfrom.query hmissing
        obtain ⟨hr, -⟩ := hthrow.done
        cases hr
      obtain ⟨steps, hplain⟩ := completeStep_plain heval
      have hfrom : EvaluatesFrom db db
          (completeStep runId run executionId nodeId output >>= fun a => .done (.ok a)) (.ok a) s' := by
        rw [Script.bind_pure]
        exact ⟨[], rfl, heval⟩
      rcases hfrom.completeStep hrun hplain with ⟨-, hr, -⟩ | ⟨-, hcompleted⟩
      · cases hr
      · obtain ⟨-, hab, hview⟩ := hcompleted.done
        refine .inr ⟨⟨a, rfl⟩, steps, ?_⟩
        rw [hab, hview]
        rfl

theorem transact_failRun {lock : Row → Bool} {runId executionId : ℕ} {r : Except Failure Unit}
    (h : platform.transact c lock (failRun runId executionId) db = (r, db')) :
    (∃ e, r = .error e ∧ db' = db) ∨ (∃ a, r = .ok a) ∧ db' = db.runFailed runId executionId := by
  cases r with
  | error e =>
      obtain ⟨-, -, -, herror⟩ := Store.transact_runsFrom h
      exact .inl ⟨e, rfl, herror e rfl⟩
  | ok a =>
      obtain ⟨s', heval, rfl⟩ := platform.transact_ok h
      have hfrom : EvaluatesFrom db db (failRun runId executionId >>= fun a => .done (.ok a)) (.ok a) s' := by
        rw [Script.bind_pure]
        exact ⟨[], rfl, heval⟩
      obtain ⟨-, hab, hview⟩ := hfrom.failRun.done
      refine .inr ⟨⟨a, rfl⟩, ?_⟩
      rw [hab, hview]
      rfl

end
end WorkflowPlatform
